import Mathlib.Data.Finset.Card
import Mathlib.Tactic.Common
import OperandCodec.Cache.RecencyMap
import OperandCodec.Proofs.Caches
/-!
# What the cache of trees keeps

The keys in the cache are known from the history alone: of the distinct keys
that have been parsed, in the order of their last use (`TreeCache.recent`),
they are the first ones, as many as the capacity allows. A hit moves its key
to the front of that list, a source that is parsed enters there, and one that
has no tree is not in the list at all, so it cannot change it. One step keeps
this (`KeepsRecent.step`) because moving a key to the front commutes with
cutting the list off, whether the key is in the part that is cut off or not.
A cache over any lawful map is a cache with a list in another form
(`TreeStore.view_tree`), so all of it holds there.
-/

namespace OperandCodec

/-! ## Moving to the front -/

section Front

variable {α : Type} [BEq α] [LawfulBEq α] {a : α} {as : List α}

/-- A key that is not among the first ones leaves them as they are. -/
theorem take_filter_of_notMem {n : Nat} (h : a ∉ as.take n) :
    (as.filter (· != a)).take n = as.take n := by
  induction as generalizing n with
  | nil => rfl
  | cons b as ih =>
    cases n with
    | zero => rfl
    | succ n =>
      rw [List.take_succ_cons, List.mem_cons, not_or] at h
      rw [List.filter_cons_of_pos (by simpa using Ne.symm h.1), List.take_succ_cons,
        List.take_succ_cons, ih h.2]

/-- A key among the first ones leaves its place to the others. -/
theorem take_filter_of_mem {n : Nat} (hdistinct : as.Nodup) (h : a ∈ as.take (n + 1)) :
    (as.filter (· != a)).take n = (as.take (n + 1)).filter (· != a) := by
  induction as generalizing n with
  | nil => cases h
  | cons b as ih =>
    obtain ⟨hb, hdistinct⟩ := List.nodup_cons.1 hdistinct
    rw [List.take_succ_cons] at h ⊢
    by_cases hba : b = a
    · subst hba
      have hothers : ∀ c ∈ as, (c != b) = true := by
        intro c hc
        rw [bne_iff_ne]
        rintro rfl
        exact hb hc
      rw [List.filter_cons_of_neg (by simp), List.filter_cons_of_neg (by simp),
        List.filter_eq_self.2 hothers,
        List.filter_eq_self.2 fun c hc => hothers c (List.mem_of_mem_take hc)]
    · have hmem : a ∈ as.take n := (List.mem_cons.1 h).resolve_left (Ne.symm hba)
      have hkept : (b != a) = true := bne_iff_ne.2 hba
      cases n with
      | zero => cases hmem
      | succ n =>
        rw [List.filter_cons, List.filter_cons, if_pos hkept, if_pos hkept, List.take_succ_cons,
          ih hdistinct hmem]

/-- **Cutting a list off commutes with moving a key to its front**, whether the key is in the part
that is left or not. -/
theorem take_cons_filter {n : Nat} (hn : 0 < n) (hdistinct : as.Nodup) :
    (a :: as.filter (· != a)).take n =
      if a ∈ as.take n then a :: (as.take n).filter (· != a) else (a :: as.take n).take n := by
  obtain ⟨n, rfl⟩ := Nat.exists_eq_succ_of_ne_zero hn.ne'
  rw [List.take_succ_cons, List.take_succ_cons, List.take_take, Nat.min_eq_left (Nat.le_succ n)]
  by_cases h : a ∈ as.take (n + 1)
  · rw [if_pos h, take_filter_of_mem hdistinct h]
  · have hfirst : a ∉ as.take n := fun hmem =>
      h (List.take_subset_take_left as (Nat.le_succ n) hmem)
    rw [if_neg h, take_filter_of_notMem hfirst]

theorem nodup_eraseDups (as : List α) : as.eraseDups.Nodup := by
  induction hn : as.length using Nat.strongRecOn generalizing as with
  | _ n ih =>
  cases as with
  | nil => exact List.nodup_nil
  | cons b as =>
    have hlt := List.length_filter_le (fun c => !c == b) as
    rw [List.length_cons] at hn
    rw [List.eraseDups_cons, List.nodup_cons]
    exact ⟨by simp, ih _ (by omega) _ rfl⟩

/-- What is filtered out does not matter for what is repeated among the rest. -/
theorem eraseDups_filter (p : α → Bool) (as : List α) :
    (as.filter p).eraseDups = as.eraseDups.filter p := by
  induction hn : as.length using Nat.strongRecOn generalizing as with
  | _ n ih =>
  cases as with
  | nil => rfl
  | cons b as =>
    have hlt := List.length_filter_le (fun c => !c == b) as
    rw [List.length_cons] at hn
    rw [List.eraseDups_cons, List.filter_cons, List.filter_cons, ← ih _ (by omega) _ rfl]
    by_cases hb : p b
    · rw [if_pos hb, if_pos hb, List.eraseDups_cons, List.filter_comm]
    · rw [if_neg hb, if_neg hb, List.filter_filter]
      congr 1
      refine List.filter_congr fun c _ => ?_
      by_cases hc : c = b
      · subst hc
        simpa using hb
      · simp [hc]

end Front

namespace TreeCache

variable {size : Nat} {past : List TreeKey} {key : TreeKey} {c : TreeCache} {source : String}
  {v : Variable}

/-- The keys of the trees kept, the most recently used first. -/
def keys (c : TreeCache) : List TreeKey :=
  c.entries.map (·.1)

/-- The source has a tree over the variable. -/
def parses (key : TreeKey) : Bool :=
  (Expr.ofSource key.2 key.1).isOk

/-- The distinct keys of a history that have been parsed, the most recently used first. In a history
the latest call stands first. -/
def recent (past : List TreeKey) : List TreeKey :=
  (past.filter parses).eraseDups

/-- The cache of a size behind the calls of a history. -/
def behind (size : Nat) : List TreeKey → TreeCache
  | [] => ofSize size
  | key :: past => ((behind size past).tree key.2 key.1).2

/-! ## Recent keys -/

theorem nodup_recent (past : List TreeKey) : (recent past).Nodup :=
  nodup_eraseDups _

theorem parses_of_mem_recent (h : key ∈ recent past) : parses key :=
  (List.mem_filter.1 (List.mem_eraseDups.1 h)).2

theorem parses_of_ok {e : Expr} (he : Expr.ofSource key.2 key.1 = .ok e) : parses key := by
  rw [parses, he]
  rfl

theorem parses_of_error {err : ParseError} (herr : Expr.ofSource key.2 key.1 = .error err) :
    parses key = false := by
  rw [parses, herr]
  rfl

/-- There are as many as there are distinct keys that have been parsed. -/
theorem length_recent (past : List TreeKey) :
    (recent past).length = (past.filter parses).toFinset.card := by
  have hsame : (past.filter parses).toFinset = (recent past).toFinset := by
    ext key
    rw [List.mem_toFinset, List.mem_toFinset, recent, List.mem_eraseDups]
  rw [hsame, List.toFinset_card_of_nodup (nodup_recent past)]

/-- A source that has a tree moves to the front. -/
theorem recent_cons_of_parses (h : parses key) :
    recent (key :: past) = key :: (recent past).filter (· != key) := by
  rw [recent, List.filter_cons_of_pos h, List.eraseDups_cons, eraseDups_filter]
  rfl

theorem recent_cons_of_not_parses (h : parses key = false) :
    recent (key :: past) = recent past := by
  rw [recent, List.filter_cons_of_neg (by simp [h]), recent]

/-! ## One call -/

theorem lookup_eq_none_iff : c.entries.lookup key = none ↔ key ∉ c.keys := by
  rw [List.lookup_eq_none_iff, keys, List.mem_map]
  constructor
  · rintro h ⟨entry, hentry, rfl⟩
    simpa using h entry hentry
  · intro h entry hentry
    rw [bne_iff_ne]
    exact fun heq => h ⟨entry, hentry, heq.symm⟩

/-- What a call does: the key is found and moves to the front, or it has no tree, or its tree enters
in front. -/
inductive Does (c : TreeCache) (key : TreeKey) : Except ParseError Expr × TreeCache → Prop where
  | found {e : Expr} : key ∈ c.keys →
      Does c key (.ok e, { c with
        entries := (key, e) :: c.entries.filter (·.1 != key)
        hits := c.hits + 1 })
  | failed {err : ParseError} : key ∉ c.keys → Expr.ofSource key.2 key.1 = .error err →
      Does c key (.error err, { c with misses := c.misses + 1 })
  | parsed {e : Expr} : key ∉ c.keys → Expr.ofSource key.2 key.1 = .ok e →
      Does c key (.ok e, { c with
        entries := ((key, e) :: c.entries).take c.capacity
        misses := c.misses + 1 })

/-- **A call does one of the three.** -/
theorem does_tree (c : TreeCache) (source : String) (v : Variable) :
    Does c (v, source) (c.tree source v) := by
  cases hlookup : c.entries.lookup (v, source) with
  | some e =>
    have hmem : (v, source) ∈ c.keys := by
      by_contra hnot
      cases hlookup.symm.trans (lookup_eq_none_iff.2 hnot)
    simp only [TreeCache.tree, hlookup]
    exact .found hmem
  | none =>
    have hnot : (v, source) ∉ c.keys := lookup_eq_none_iff.1 hlookup
    cases hparse : Expr.ofSource source v with
    | error err =>
      simp only [TreeCache.tree, hlookup, hparse]
      exact .failed hnot hparse
    | ok e =>
      simp only [TreeCache.tree, hlookup, hparse]
      exact .parsed hnot hparse

section Does

variable {answer : Except ParseError Expr} {c' : TreeCache}

theorem Does.capacity_eq (h : Does c key (answer, c')) : c'.capacity = c.capacity := by
  cases h <;> rfl

/-- A call counts once. -/
theorem Does.calls_eq (h : Does c key (answer, c')) :
    c'.hits + c'.misses = c.hits + c.misses + 1 := by
  cases h with
  | found => exact Nat.add_right_comm _ _ _
  | failed | parsed => rfl

/-- No key enters a cache but the one that is called for. -/
theorem Does.mem_keys (h : Does c key (answer, c')) {k : TreeKey} (hk : k ∈ c'.keys) :
    k = key ∨ k ∈ c.keys := by
  cases h with
  | found =>
    rw [keys, List.map_cons] at hk
    refine (List.mem_cons.1 hk).imp_right fun hk => ?_
    exact (List.filter_sublist.map _).subset hk
  | failed => exact .inr hk
  | parsed =>
    rw [keys, List.map_take, List.map_cons] at hk
    exact List.mem_cons.1 (List.mem_of_mem_take hk)

end Does

/-- What a cache holds behind the calls of a history. -/
structure KeepsRecent (size : Nat) (past : List TreeKey) (c : TreeCache) : Prop where
  capacity : c.capacity = max size 1
  calls : c.hits + c.misses = past.length
  keys_eq : c.keys = (recent past).take (max size 1)
  /-- Every tree is that of its own source over its own variable. -/
  trees : c.Faithful

theorem keepsRecent_ofSize (size : Nat) : KeepsRecent size [] (ofSize size) :=
  ⟨rfl, rfl, List.take_nil.symm, faithful_ofSize size⟩

namespace KeepsRecent

theorem nodup (h : KeepsRecent size past c) : c.keys.Nodup := by
  rw [h.keys_eq]
  exact (nodup_recent past).sublist (List.take_sublist _ _)

theorem length_entries (h : KeepsRecent size past c) :
    c.entries.length = min (max size 1) (past.filter parses).toFinset.card := by
  have hlength := congrArg List.length h.keys_eq
  rwa [keys, List.length_map, List.length_take, length_recent] at hlength

theorem parses_of_mem (h : KeepsRecent size past c) (hkey : key ∈ c.keys) : parses key := by
  rw [h.keys_eq] at hkey
  exact parses_of_mem_recent (List.mem_of_mem_take hkey)

/-- **One more call.** -/
theorem step (h : KeepsRecent size past c) {answer : Except ParseError Expr} {c' : TreeCache}
    (hdoes : Does c key (answer, c')) (htrees : c'.Faithful) :
    KeepsRecent size (key :: past) c' := by
  have hpos : 0 < max size 1 := by omega
  have hfront := take_cons_filter (a := key) hpos (nodup_recent past)
  rw [← h.keys_eq] at hfront
  refine ⟨hdoes.capacity_eq.trans h.capacity, ?_, ?_, htrees⟩
  · rw [hdoes.calls_eq, h.calls, List.length_cons]
  · cases hdoes with
    | found hkey =>
      rw [recent_cons_of_parses (h.parses_of_mem hkey), hfront, if_pos hkey, keys, List.map_cons,
        keys, List.filter_map]
      rfl
    | failed _ herr =>
      rw [recent_cons_of_not_parses (parses_of_error herr), ← h.keys_eq]
      rfl
    | parsed hkey he =>
      rw [recent_cons_of_parses (parses_of_ok he), hfront, if_neg hkey, keys, List.map_take,
        h.capacity]
      rfl

end KeepsRecent

theorem keepsRecent_behind (size : Nat) (past : List TreeKey) :
    KeepsRecent size past (behind size past) := by
  induction past with
  | nil => exact keepsRecent_ofSize size
  | cons key past ih => exact ih.step (does_tree _ key.2 key.1) ih.trees.tree

/-- What one more call makes of a cache behind the calls of a history, and its answer. -/
structure Serves (size : Nat) (past : List TreeKey) (key : TreeKey) (c c' : TreeCache)
    (answer : Except ParseError Expr) : Prop where
  /-- Each time, also where the source has no tree. -/
  answered : answer = Expr.ofSource key.2 key.1
  hit : key ∈ (recent past).take (max size 1) → c'.hits = c.hits + 1 ∧ c'.misses = c.misses
  miss : key ∉ (recent past).take (max size 1) → c'.hits = c.hits ∧ c'.misses = c.misses + 1
  /-- A source without a tree leaves the entries as they were, in their order. -/
  failed : ∀ err, Expr.ofSource key.2 key.1 = .error err →
    c'.misses = c.misses + 1 ∧ c'.entries = c.entries
  /-- Over another variable the source is there only if it was there before. -/
  apart : ∀ v, v ≠ key.1 → (v, key.2) ∈ c'.keys → (v, key.2) ∈ c.keys

theorem KeepsRecent.serves (h : KeepsRecent size past c) {answer : Except ParseError Expr}
    {c' : TreeCache} (hdoes : Does c key (answer, c'))
    (hanswer : answer = Expr.ofSource key.2 key.1) : Serves size past key c c' answer := by
  have hmem : key ∈ (recent past).take (max size 1) ↔ key ∈ c.keys := by
    rw [h.keys_eq]
  refine ⟨hanswer, fun hkey => ?_, fun hkey => ?_, fun err herr => ?_, fun v hv hkey => ?_⟩
  · have hfound := hmem.1 hkey
    cases hdoes with
    | found => exact ⟨rfl, rfl⟩
    | failed hnot | parsed hnot => exact absurd hfound hnot
  · have hmissing := mt hmem.2 hkey
    cases hdoes with
    | found hfound => exact absurd hfound hmissing
    | failed | parsed => exact ⟨rfl, rfl⟩
  · cases hdoes with
    | found hfound => cases (parses_of_error herr).symm.trans (h.parses_of_mem hfound)
    | failed => exact ⟨rfl, rfl⟩
    | parsed _ he => cases herr.symm.trans he
  · refine (hdoes.mem_keys hkey).resolve_left fun heq => hv ?_
    exact congrArg Prod.fst heq

end TreeCache

/-! ## Maps with an order of use -/

theorem RecencyMap.lawful_ofLists {κ α : Type} [BEq κ] :
    (ofLists : RecencyMap κ α).Lawful where
  capacity_new _ _ := rfl
  entries_new _ _ := rfl
  size_eq _ := rfl
  capacity_get k s := by
    simp only [ofLists]
    split <;> rfl
  get_eq k s := by
    simp only [ofLists]
    split <;> rename_i h <;> exact h.symm
  entries_get_of_some k s a h := by
    simp only [ofLists] at h ⊢
    rw [h]
  entries_get_of_none k s h := by
    simp only [ofLists] at h ⊢
    rw [h]
  capacity_put _ _ _ := rfl
  entries_put _ _ _ := rfl

namespace TreeStore

open TreeCache

variable {M : RecencyMap TreeKey Expr}

/-- The cache of a size behind the calls of a history. -/
def behind (M : RecencyMap TreeKey Expr) (size : Nat) : List TreeKey → TreeStore M
  | [] => ofSize M size
  | key :: past => ((behind M size past).tree key.2 key.1).2

/-- **A cache over a lawful map is a cache with a list.** -/
theorem view_tree (hM : M.Lawful) (s : TreeStore M) (source : String) (v : Variable) :
    (s.tree source v).1 = (s.view.tree source v).1 ∧
      (s.tree source v).2.view = (s.view.tree source v).2 := by
  have hget := hM.get_eq (v, source) s.map
  have hcapacity := hM.capacity_get (v, source) s.map
  have hfound := hM.entries_get_of_some (v, source) s.map
  have hmissing := hM.entries_get_of_none (v, source) s.map
  rcases hgot : M.get (v, source) s.map with ⟨found, map⟩
  rw [hgot] at hget hcapacity hfound hmissing
  cases found with
  | some e =>
    have hkey : s.view.entries.lookup (v, source) = some e := hget.symm
    simp only [tree, hgot, TreeCache.tree, hkey]
    refine ⟨trivial, ?_⟩
    rw [view, hcapacity, hfound e hkey]
    rfl
  | none =>
    have hkey : s.view.entries.lookup (v, source) = none := hget.symm
    have hentries : M.entries map = s.view.entries := hmissing hkey
    cases hparse : Expr.ofSource source v with
    | error err =>
      simp only [tree, hgot, TreeCache.tree, hkey, hparse]
      refine ⟨trivial, ?_⟩
      rw [view, hcapacity, hentries]
      rfl
    | ok e =>
      -- the key is not there, so that nothing but the last entries can make room for it
      have hothers : ∀ entry ∈ s.view.entries, (entry.1 != (v, source)) = true := by
        intro entry hentry
        rw [bne_comm]
        exact List.lookup_eq_none_iff.1 hkey entry hentry
      simp only [tree, hgot, TreeCache.tree, hkey, hparse]
      refine ⟨trivial, ?_⟩
      rw [view, hM.capacity_put, hM.entries_put, hcapacity, hentries,
        List.filter_eq_self.2 hothers]
      rfl

theorem view_behind (hM : M.Lawful) (size : Nat) (past : List TreeKey) :
    (behind M size past).view = TreeCache.behind size past := by
  induction past with
  | nil =>
    have hpos : 0 < max size 1 := by omega
    show (⟨M.capacity (M.new (max size 1)), M.entries (M.new (max size 1)), 0, 0⟩ : TreeCache) = _
    rw [hM.capacity_new _ hpos, hM.entries_new _ hpos]
    rfl
  | cons key past ih =>
    rw [behind, (view_tree hM _ _ _).2, ih]
    rfl

/-- **The cache of trees keeps what was used most recently.** Of any map of which the operations do
what they should, and behind any calls: hits and misses are as many as the calls, and the trees kept
are those of the distinct keys that have been parsed, the most recently used first, as many as the
capacity allows. A call is a hit exactly if its key is one of these. A source without a tree is an
error each time, counts as a miss and leaves no trace; and what was asked over one variable is never
found over the other. -/
theorem keeps_most_recent (hM : M.Lawful) (size : Nat) (past : List TreeKey) :
    let s := behind M size past
    s.view = TreeCache.behind size past ∧ KeepsRecent size past s.view ∧ s.view.keys.Nodup ∧
      M.size s.map = min (max size 1) (past.filter parses).toFinset.card ∧
      ∀ source v, Serves size past (v, source) s.view (s.tree source v).2.view
        (s.tree source v).1 := by
  intro s
  have hview : s.view = TreeCache.behind size past := view_behind hM size past
  have hkeeps : KeepsRecent size past s.view := hview ▸ keepsRecent_behind size past
  refine ⟨hview, hkeeps, hkeeps.nodup, ?_, fun source v => ?_⟩
  · rw [hM.size_eq]
    exact hkeeps.length_entries
  · obtain ⟨hanswer, hafter⟩ := view_tree hM s source v
    rw [hanswer, hafter]
    exact hkeeps.serves (s.view.does_tree source v) hkeeps.trees.tree_eq

/-- In a cache for two trees the third source displaces the first; one without a tree, called in
between, displaces none. -/
theorem keeps_most_recent_of_two :
    let past : List TreeKey := [(.arg, "bits"), (.bits, "bits"), (.arg, "arg + 1"), (.arg, "arg")]
    let s := behind .ofLists 2 past
    s.view.keys = [(.bits, "bits"), (.arg, "arg + 1")] ∧
      Serves 2 past (.arg, "arg + 1") s.view (s.tree "arg + 1" .arg).2.view
        (s.tree "arg + 1" .arg).1 ∧ (s.tree "arg + 1" .arg).2.hits = 1 := by
  intro past s
  have hrecent : (recent past).take (max 2 1) = [(.bits, "bits"), (.arg, "arg + 1")] := by
    decide +kernel
  obtain ⟨-, hkeeps, -, -, hserves⟩ :=
    keeps_most_recent (M := .ofLists) RecencyMap.lawful_ofLists 2 past
  refine ⟨hkeeps.keys_eq.trans hrecent, hserves "arg + 1" .arg, ?_⟩
  have hkey : (.arg, "arg + 1") ∈ (recent past).take (max 2 1) := by
    rw [hrecent]
    decide
  have hhit := ((hserves "arg + 1" .arg).hit hkey).1
  exact hhit.trans (by decide +kernel)

end TreeStore
end OperandCodec
