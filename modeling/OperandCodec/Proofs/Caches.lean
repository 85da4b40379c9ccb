import Mathlib.Tactic.Common
import OperandCodec.Session.Library
/-!
# What the caches hold

A cache may answer in place of a calculation as long as every entry is what
the calculation gives. Of the trees this is said entry by entry
(`TreeCache.Faithful`). The memo of inversions is keyed by sources while it
searches with trees, so its invariant says that an outcome is the search
with the tree of the source (`InversionMemo.Faithful`), and a call keeps it
where it brings that tree. Hits, misses, failures and evictions keep both.
-/

namespace OperandCodec

/-! ## Trees -/

namespace TreeCache

/-- Every tree in a cache is that of its source. -/
def Faithful (c : TreeCache) : Prop :=
  ∀ entry ∈ c.entries, Expr.ofSource entry.1.2 entry.1.1 = .ok entry.2

theorem faithful_ofSize (size : Nat) : (ofSize size).Faithful := by
  intro entry h
  cases h

variable {c : TreeCache} {source : String} {v : Variable}

/-- What a faithful cache finds is the tree of the source. -/
theorem Faithful.of_lookup (h : c.Faithful) {e : Expr}
    (he : c.entries.lookup (v, source) = some e) : Expr.ofSource source v = .ok e := by
  obtain ⟨before, behind, hentries, -⟩ := List.lookup_eq_some_iff.1 he
  refine h ((v, source), e) ?_
  rw [hentries]
  exact List.mem_append_right before List.mem_cons_self

/-- **A faithful cache answers with the tree of the source.** -/
theorem Faithful.tree_eq (h : c.Faithful) : (c.tree source v).1 = Expr.ofSource source v := by
  rw [TreeCache.tree]
  cases he : c.entries.lookup (v, source) with
  | some e => exact (h.of_lookup he).symm
  | none => cases Expr.ofSource source v <;> rfl

/-- A faithful cache stays faithful: what was found or parsed moves to the front, and a source
without a tree leaves no entry. -/
theorem Faithful.tree (h : c.Faithful) : (c.tree source v).2.Faithful := by
  rw [TreeCache.tree]
  cases he : c.entries.lookup (v, source) with
  | some e =>
    intro entry hentry
    rcases List.mem_cons.1 hentry with rfl | hkept
    · exact h.of_lookup he
    · exact h entry (List.mem_filter.1 hkept).1
  | none =>
    cases hparse : Expr.ofSource source v with
    | error err => exact h
    | ok e =>
      intro entry hentry
      rcases List.mem_cons.1 (List.mem_of_mem_take hentry) with rfl | hkept
      · exact hparse
      · exact h entry hkept

end TreeCache

/-! ## Inversions -/

namespace InversionMemo

/-- Every outcome in a memo is that of the search with the tree of its source. -/
def Faithful (m : InversionMemo) : Prop :=
  ∀ entry ∈ m.entries, ∃ e, Expr.ofSource entry.key.source entry.key.var = .ok e ∧
    entry.outcome = e.search entry.key.target entry.key.width

theorem faithful_ofSize (size : Nat) : (ofSize size).Faithful := by
  intro entry h
  cases h

variable {m : InversionMemo} {key : InversionKey} {e : Expr}

/-- **A faithful memo answers with the outcome of the search**, where it is asked with the tree of
the source. -/
theorem Faithful.invert_eq (h : m.Faithful) (he : Expr.ofSource key.source key.var = .ok e) :
    (m.invert key e).1 = e.search key.target key.width := by
  unfold invert
  split
  · rename_i entry hentry
    have hkey := List.find?_some hentry
    obtain rfl : entry.key = key := eq_of_beq hkey
    -- the outcome was searched with the tree of the source, and a source has no other
    obtain ⟨e', he', hout⟩ := h entry (List.mem_of_find?_eq_some hentry)
    rw [he] at he'
    obtain rfl := Except.ok.inj he'
    exact hout
  · rfl

/-- A faithful memo stays faithful: a use changes no outcome, and what is dropped is not missed. -/
theorem Faithful.invert (h : m.Faithful) (he : Expr.ofSource key.source key.var = .ok e) :
    (m.invert key e).2.Faithful := by
  unfold InversionMemo.invert
  split
  · -- a hit renews the time of one entry, which the invariant does not mention
    intro entry hentry
    obtain ⟨x, hx, rfl⟩ := List.mem_map.1 hentry
    split
    · exact h x hx
    · exact h x hx
  · -- a miss adds the search that was asked for, whether or not another entry gives way
    intro entry hentry
    rcases List.mem_cons.1 hentry with rfl | hkept
    · exact ⟨e, he, rfl⟩
    · refine h entry ?_
      split at hkept
      · exact (List.mem_filter.1 hkept).1
      · exact hkept

/-- One use of a memo by itself. -/
def ask (key : InversionKey) (e : Expr) : StateM InversionMemo Inversion :=
  fun m => m.invert key e

/-- Uses of a faithful memo, one after another, answer with the outcomes of the searches. -/
theorem Faithful.mapM_ask (h : m.Faithful) {uses : List (InversionKey × Expr)}
    (huses : ∀ u ∈ uses, Expr.ofSource u.1.source u.1.var = .ok u.2) :
    ((uses.mapM fun u => ask u.1 u.2).run m).1 =
      uses.map fun u => u.2.search u.1.target u.1.width := by
  induction uses generalizing m with
  | nil => rfl
  | cons u uses ih =>
    have hu := huses u List.mem_cons_self
    have hrest := ih (h.invert hu) fun x hx => huses x (List.mem_cons_of_mem u hx)
    rw [List.mapM_cons, List.map_cons, ← h.invert_eq hu, ← hrest]
    rfl

end InversionMemo
end OperandCodec
