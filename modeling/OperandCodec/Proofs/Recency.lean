import Mathlib.Data.Finset.Card
import Mathlib.Data.List.Perm.Subperm
import Mathlib.Tactic.Common
import OperandCodec.Cache.Inversions
/-!
# What the memo of inversions keeps

The memo drops the keys used longest ago, a quarter of its capacity at once
and only where a search finds it full. The order of use is said of the
history alone: `lastUse` is the number of the last use of a key in a list of
uses. The invariant of a run (`Recorded`) is that the counts kept in the
entries are these numbers. They are then distinct, so the number of entries
used before an entry is its rank, and an eviction drops exactly the ranks
below the quota (`length_dropped`). From that a key survives as long as few
others have been used behind it (`mem_keys_behind`): what is kept
beside it in a full memo was used later.
-/

namespace OperandCodec
namespace InversionMemo

/-- A use of a memo: a key, and the tree that is searched where it is not kept. -/
abbrev Use := InversionKey × Expr

/-- The keys of the outcomes kept. -/
def keys (m : InversionMemo) : List InversionKey :=
  m.entries.map (·.key)

/-- The memo of a size behind its uses, the latest first. -/
def behind (size : Nat) : List Use → InversionMemo
  | [] => ofSize size
  | use :: past => ((behind size past).invert use.1 use.2).2

/-- The number of the last use of a key, counted from one; zero where it was not used. -/
def lastUse (key : InversionKey) : List Use → Nat
  | [] => 0
  | use :: past => if use.1 = key then past.length + 1 else lastUse key past

/-! ## Last uses -/

section LastUse

variable {key key' : InversionKey} {past since before : List Use}

theorem lastUse_le_length (key : InversionKey) (past : List Use) :
    lastUse key past ≤ past.length := by
  induction past with
  | nil => exact Nat.le_refl 0
  | cons use past ih =>
    rw [lastUse, List.length_cons]
    split
    · exact Nat.le_refl _
    · omega

theorem lastUse_pos (h : key ∈ past.map (·.1)) : 0 < lastUse key past := by
  induction past with
  | nil => cases h
  | cons use past ih =>
    rw [lastUse]
    split
    · exact Nat.succ_pos _
    · rename_i hne
      rw [List.map_cons, List.mem_cons] at h
      exact ih (h.resolve_left (Ne.symm hne))

/-- Two keys that have been used were not last used at once. -/
theorem eq_of_lastUse_eq (hpos : 0 < lastUse key past)
    (h : lastUse key past = lastUse key' past) : key = key' := by
  induction past with
  | nil => cases hpos
  | cons use past ih =>
    have hle := lastUse_le_length key past
    have hle' := lastUse_le_length key' past
    rw [lastUse] at hpos
    rw [lastUse, lastUse] at h
    by_cases hkey : use.1 = key <;> by_cases hkey' : use.1 = key'
    · exact hkey.symm.trans hkey'
    · rw [if_pos hkey, if_neg hkey'] at h
      omega
    · rw [if_neg hkey, if_pos hkey'] at h
      omega
    · rw [if_neg hkey] at hpos
      rw [if_neg hkey, if_neg hkey'] at h
      exact ih hpos h

theorem lastUse_append_of_notMem (h : key ∉ since.map (·.1)) :
    lastUse key (since ++ past) = lastUse key past := by
  induction since with
  | nil => rfl
  | cons use since ih =>
    rw [List.map_cons, List.mem_cons, not_or] at h
    rw [List.cons_append, lastUse, if_neg (Ne.symm h.1), ih h.2]

theorem lastUse_le_append (key : InversionKey) (since past : List Use) :
    lastUse key past ≤ lastUse key (since ++ past) := by
  induction since with
  | nil => exact Nat.le_refl _
  | cons use since ih =>
    rw [List.cons_append, lastUse]
    split
    · have := lastUse_le_length key past
      rw [List.length_append]
      omega
    · exact ih

/-- What was last used behind a use of a key was used since, and is another key. -/
theorem mem_of_lastUse_lt {e : Expr}
    (h : lastUse key (since ++ (key, e) :: before) < lastUse key' (since ++ (key, e) :: before)) :
    key' ∈ since.map (·.1) ∧ key' ≠ key := by
  have hne : key' ≠ key := by
    rintro rfl
    exact Nat.lt_irrefl _ h
  refine ⟨?_, hne⟩
  by_contra hnot
  have hkey : lastUse key ((key, e) :: before) = before.length + 1 := if_pos rfl
  have hkey' : lastUse key' ((key, e) :: before) = lastUse key' before := if_neg hne.symm
  have hle := lastUse_le_append key since ((key, e) :: before)
  have hle' := lastUse_le_length key' before
  rw [lastUse_append_of_notMem hnot] at h
  omega

end LastUse

/-! ## Ranks -/

section Ranks

variable {m : InversionMemo} {x y : InversionEntry}

/-- The entries that `evicted` leaves out. -/
def dropped (m : InversionMemo) : List InversionEntry :=
  m.entries.filter fun e => m.older e < m.quota

theorem older_mono (m : InversionMemo) (h : x.lastUse ≤ y.lastUse) : m.older x ≤ m.older y := by
  refine (List.monotone_filter_right _ fun e he => ?_).length_le
  simp only [decide_eq_true_eq] at he ⊢
  omega

theorem older_lt_older (hx : x ∈ m.entries) (h : x.lastUse < y.lastUse) :
    m.older x < m.older y := by
  have hsub : (m.entries.filter (·.lastUse < x.lastUse)).Sublist
      (m.entries.filter (·.lastUse < y.lastUse)) := by
    refine List.monotone_filter_right _ fun e he => ?_
    simp only [decide_eq_true_eq] at he ⊢
    omega
  refine Nat.lt_of_le_of_ne hsub.length_le fun heq => ?_
  -- `x` is one of the entries that make the difference
  have hmem : x ∈ m.entries.filter (·.lastUse < y.lastUse) := by simp [hx, h]
  rw [← hsub.eq_of_length heq] at hmem
  simp at hmem

theorem older_lt_length (hx : x ∈ m.entries) : m.older x < m.entries.length := by
  refine List.length_filter_lt_length_iff_exists.2 ⟨x, hx, ?_⟩
  simp

/-- With distinct counts the ranks of the entries are the numbers below their number. -/
theorem perm_map_older (h : m.entries.Pairwise (·.lastUse ≠ ·.lastUse)) :
    (m.entries.map m.older).Perm (List.range m.entries.length) := by
  have hnodup : (m.entries.map m.older).Nodup := by
    refine List.pairwise_map.2 (h.imp_of_mem fun {x y} hx hy hne => ?_)
    rcases Nat.lt_or_gt_of_ne hne with hlt | hlt
    · exact Nat.ne_of_lt (older_lt_older hx hlt)
    · exact Nat.ne_of_gt (older_lt_older hy hlt)
  have hsub : m.entries.map m.older ⊆ List.range m.entries.length := by
    intro n hn
    obtain ⟨x, hx, rfl⟩ := List.mem_map.1 hn
    exact List.mem_range.2 (older_lt_length hx)
  refine (List.subperm_of_subset hnodup hsub).perm_of_length_le ?_
  rw [List.length_range, List.length_map]

theorem countP_range_lt (q n : Nat) : (List.range n).countP (· < q) = min q n := by
  induction n with
  | zero => simp
  | succ n ih =>
    rw [List.range_succ, List.countP_append, ih, List.countP_singleton]
    by_cases h : n < q <;> simp [h] <;> omega

/-- **Exactly the quota is dropped.** -/
theorem length_dropped (h : m.entries.Pairwise (·.lastUse ≠ ·.lastUse))
    (hq : m.quota ≤ m.entries.length) : m.dropped.length = m.quota := by
  have hcount : (m.entries.map m.older).countP (· < m.quota) = min m.quota m.entries.length := by
    rw [(perm_map_older h).countP_eq, countP_range_lt]
  rw [List.countP_map, List.countP_eq_length_filter, Nat.min_eq_left hq] at hcount
  exact hcount

/-- What is dropped was last used before what is kept. -/
theorem lastUse_lt_of_dropped (hx : x ∈ m.dropped) (hy : y ∈ m.evicted) :
    x.lastUse < y.lastUse := by
  have hlt := of_decide_eq_true (List.mem_filter.1 hx).2
  have hge := of_decide_eq_true (List.mem_filter.1 hy).2
  by_contra hnot
  have := m.older_mono (Nat.le_of_not_lt hnot)
  omega

end Ranks

/-! ## One use -/

/-- An entry behind a use of `key`. -/
def renewed (key : InversionKey) (now : Nat) (x : InversionEntry) : InversionEntry :=
  if x.key = key then { x with lastUse := now } else x

theorem renewed_key (key : InversionKey) (now : Nat) (x : InversionEntry) :
    (renewed key now x).key = x.key := by
  unfold renewed
  split <;> rfl

/-- The entries that stay where a search adds one: those of a memo with room, or all but the dropped
ones. -/
def kept (m : InversionMemo) : List InversionEntry :=
  if m.capacity ≤ m.entries.length then m.evicted else m.entries

section Step

variable {m : InversionMemo} {key : InversionKey} {e : Expr}

theorem invert_of_mem (h : key ∈ m.keys) : (m.invert key e).2 =
    { m with
      entries := m.entries.map (renewed key (m.uses + 1))
      uses := m.uses + 1
      hits := m.hits + 1 } := by
  cases hfind : m.entries.find? (·.key == key) with
  | none =>
    obtain ⟨x, hx, hkey⟩ := List.mem_map.1 h
    have := List.find?_eq_none.1 hfind x hx
    simp [hkey] at this
  | some x =>
    simp only [invert, hfind]
    rfl

theorem invert_of_notMem (h : key ∉ m.keys) : (m.invert key e).2 =
    { m with
      entries := ⟨key, e.search key.target key.width, m.uses + 1⟩ :: m.kept
      uses := m.uses + 1
      misses := m.misses + 1 } := by
  have hfind : m.entries.find? (·.key == key) = none := by
    refine List.find?_eq_none.2 fun x hx hkey => h ?_
    exact List.mem_map.2 ⟨x, hx, eq_of_beq hkey⟩
  simp only [invert, hfind]
  rfl

theorem keys_invert_of_mem (h : key ∈ m.keys) : (m.invert key e).2.keys = m.keys := by
  rw [invert_of_mem h, keys, List.map_map]
  exact List.map_congr_left fun x _ => renewed_key key _ x

theorem keys_invert_of_notMem (h : key ∉ m.keys) :
    (m.invert key e).2.keys = key :: m.kept.map (·.key) := by
  rw [invert_of_notMem h]
  rfl

theorem mem_keys_invert_self (m : InversionMemo) (key : InversionKey) (e : Expr) :
    key ∈ (m.invert key e).2.keys := by
  by_cases h : key ∈ m.keys
  · rw [keys_invert_of_mem h]
    exact h
  · rw [keys_invert_of_notMem h]
    exact List.mem_cons_self

theorem kept_sublist (m : InversionMemo) : m.kept.Sublist m.entries := by
  unfold kept
  split
  · exact List.filter_sublist
  · exact List.Sublist.refl _

end Step

/-! ## Runs -/

/-- A memo whose counts are those of its history. -/
structure Recorded (size : Nat) (past : List Use) (m : InversionMemo) : Prop where
  capacity : m.capacity = max size 1
  uses : m.uses = past.length
  answers : m.hits + m.misses = past.length
  length_le : m.entries.length ≤ m.capacity
  nodup : m.keys.Nodup
  used : ∀ x ∈ m.entries, x.key ∈ past.map (·.1)
  lastUse_eq : ∀ x ∈ m.entries, x.lastUse = lastUse x.key past

section Recorded

variable {size : Nat} {past : List Use} {m : InversionMemo} {key : InversionKey} {e : Expr}

theorem recorded_ofSize (size : Nat) : Recorded size [] (ofSize size) :=
  ⟨rfl, rfl, rfl, Nat.zero_le _, List.nodup_nil, nofun, nofun⟩

/-- The counts are distinct, since keys that were last used at once are the same. -/
theorem Recorded.pairwise (h : Recorded size past m) :
    m.entries.Pairwise (·.lastUse ≠ ·.lastUse) := by
  refine (List.pairwise_map.1 h.nodup).imp_of_mem fun {x y} hx hy hne heq => hne ?_
  rw [h.lastUse_eq x hx, h.lastUse_eq y hy] at heq
  exact eq_of_lastUse_eq (lastUse_pos (h.used x hx)) heq

theorem Recorded.quota_le (h : Recorded size past m) : m.quota ≤ m.capacity := by
  have := h.capacity
  unfold quota
  omega

/-- Where a memo has no room it is full, and the quota is dropped. -/
theorem Recorded.length_evicted (h : Recorded size past m)
    (hfull : m.capacity ≤ m.entries.length) : m.evicted.length + m.quota = m.capacity := by
  have hevicted : m.evicted = m.entries.filter fun x => !decide (m.older x < m.quota) := by
    refine List.filter_congr fun x _ => ?_
    rw [← decide_not]
    exact decide_eq_decide.2 Nat.not_lt.symm
  have hsplit := List.length_eq_length_filter_add (l := m.entries) fun x => m.older x < m.quota
  rw [← hevicted] at hsplit
  have hdropped := length_dropped h.pairwise (h.quota_le.trans hfull)
  have hle := h.length_le
  unfold dropped at hdropped
  omega

theorem Recorded.length_kept_lt (h : Recorded size past m) : m.kept.length < m.capacity := by
  unfold kept
  split
  · rename_i hfull
    have := h.length_evicted hfull
    have : 0 < m.quota := by unfold quota; omega
    omega
  · omega

/-- A hit renews the count of the key that was used and of no other. -/
theorem Recorded.invert_of_mem (h : Recorded size past m) (hkey : key ∈ m.keys) :
    Recorded size ((key, e) :: past) (m.invert key e).2 := by
  have hkeys := keys_invert_of_mem (e := e) hkey
  have hnodup := h.nodup
  rw [← hkeys] at hnodup
  rw [InversionMemo.invert_of_mem hkey] at hnodup ⊢
  refine ⟨h.capacity, congrArg (· + 1) h.uses, ?_, ?_, hnodup, fun x hx => ?_, fun x hx => ?_⟩
  · have := h.answers
    dsimp only [List.length_cons]
    omega
  · rw [List.length_map]
    exact h.length_le
  · obtain ⟨y, hy, rfl⟩ := List.mem_map.1 hx
    rw [renewed_key]
    exact List.mem_cons_of_mem _ (h.used y hy)
  · obtain ⟨y, hy, rfl⟩ := List.mem_map.1 hx
    rw [renewed_key, lastUse, renewed]
    by_cases hy' : y.key = key
    · rw [if_pos hy', if_pos hy'.symm, h.uses]
    · rw [if_neg hy', if_neg (Ne.symm hy'), h.lastUse_eq y hy]

/-- A search adds its key to what stays of the others, whose counts it leaves alone. -/
theorem Recorded.invert_of_notMem (h : Recorded size past m) (hkey : key ∉ m.keys) :
    Recorded size ((key, e) :: past) (m.invert key e).2 := by
  have hsub := kept_sublist m
  have hkept : ∀ x ∈ m.kept, x.key ≠ key := by
    rintro x hx rfl
    exact hkey (List.mem_map.2 ⟨x, hsub.subset hx, rfl⟩)
  rw [InversionMemo.invert_of_notMem hkey]
  refine ⟨h.capacity, congrArg (· + 1) h.uses, ?_, h.length_kept_lt, ?_, ?_, ?_⟩
  · have := h.answers
    dsimp only [List.length_cons]
    omega
  · refine List.nodup_cons.2 ⟨fun hmem => ?_, h.nodup.sublist (hsub.map _)⟩
    obtain ⟨x, hx, hxkey⟩ := List.mem_map.1 hmem
    exact hkept x hx hxkey
  · refine List.forall_mem_cons.2 ⟨List.mem_cons_self, fun x hx => ?_⟩
    exact List.mem_cons_of_mem _ (h.used x (hsub.subset hx))
  · refine List.forall_mem_cons.2 ⟨?_, fun x hx => ?_⟩
    · rw [lastUse, if_pos rfl, h.uses]
    · rw [lastUse, if_neg (Ne.symm (hkept x hx)), h.lastUse_eq x (hsub.subset hx)]

/-- **A use keeps the record.** -/
theorem Recorded.invert (h : Recorded size past m) (key : InversionKey) (e : Expr) :
    Recorded size ((key, e) :: past) (m.invert key e).2 := by
  by_cases hkey : key ∈ m.keys
  · exact h.invert_of_mem hkey
  · exact h.invert_of_notMem hkey

/-- **The record of a run.** -/
theorem recorded_behind (size : Nat) (past : List Use) : Recorded size past (behind size past) := by
  induction past with
  | nil => exact recorded_ofSize size
  | cons use past ih => exact ih.invert use.1 use.2

/-- An entry is dropped or kept. -/
theorem mem_evicted_of_notMem {x : InversionEntry} (hx : x ∈ m.entries) (h : x ∉ m.dropped) :
    x ∈ m.evicted := by
  refine List.mem_filter.2 ⟨hx, decide_eq_true ?_⟩
  by_contra hlt
  exact h (List.mem_filter.2 ⟨hx, decide_eq_true (Nat.lt_of_not_le hlt)⟩)

/-- What is dropped was used before what is kept, by the history. -/
theorem Recorded.lastUse_lt (h : Recorded size past m) {x y : InversionEntry} (hx : x ∈ m.dropped)
    (hy : y ∈ m.evicted) : lastUse x.key past < lastUse y.key past := by
  rw [← h.lastUse_eq x (List.mem_filter.1 hx).1, ← h.lastUse_eq y (List.mem_filter.1 hy).1]
  exact lastUse_lt_of_dropped hx hy

/-- **A full memo drops the keys used longest ago**, as many as the quota says, and no other. -/
theorem Recorded.exists_dropped (h : Recorded size past m)
    (hfull : m.capacity ≤ m.entries.length) : ∃ dropped : List InversionKey,
      dropped.Nodup ∧ dropped.length = m.quota ∧ dropped ⊆ m.keys ∧
      (∀ k, k ∈ m.kept.map (·.key) ↔ k ∈ m.keys ∧ k ∉ dropped) ∧
      ∀ d ∈ dropped, ∀ k ∈ m.keys, k ∉ dropped → lastUse d past < lastUse k past := by
  have hkept : m.kept = m.evicted := if_pos hfull
  have hsub : (m.dropped.map (·.key)).Sublist m.keys := List.filter_sublist.map _
  have hmem : ∀ k, k ∈ m.kept.map (·.key) ↔ k ∈ m.keys ∧ k ∉ m.dropped.map (·.key) := by
    intro k
    rw [hkept]
    constructor
    · intro hk
      obtain ⟨y, hy, rfl⟩ := List.mem_map.1 hk
      refine ⟨List.mem_map.2 ⟨y, (List.mem_filter.1 hy).1, rfl⟩, fun hd => ?_⟩
      -- a key has one entry, and no entry was used before itself
      obtain ⟨x, hx, hxy⟩ := List.mem_map.1 hd
      have hlt := h.lastUse_lt hx hy
      rw [hxy] at hlt
      exact Nat.lt_irrefl _ hlt
    · rintro ⟨hk, hnot⟩
      obtain ⟨y, hy, rfl⟩ := List.mem_map.1 hk
      have hy' : y ∉ m.dropped := fun hd => hnot (List.mem_map.2 ⟨y, hd, rfl⟩)
      exact List.mem_map.2 ⟨y, mem_evicted_of_notMem hy hy', rfl⟩
  refine ⟨m.dropped.map (·.key), h.nodup.sublist hsub, ?_, hsub.subset, hmem, ?_⟩
  · rw [List.length_map, length_dropped h.pairwise (h.quota_le.trans hfull)]
  · intro d hd k hk hnot
    obtain ⟨x, hx, rfl⟩ := List.mem_map.1 hd
    have hk' := (hmem k).2 ⟨hk, hnot⟩
    rw [hkept] at hk'
    obtain ⟨y, hy, rfl⟩ := List.mem_map.1 hk'
    exact h.lastUse_lt hx hy

/-- **A key is not lost early.** Where a search drops a key, all that stays in the memo was used
since, and so was the key that is searched: these are more than the capacity less the quota. -/
theorem Recorded.mem_keys_invert (h : Recorded size past m) {since before : List Use} {e₀ : Expr}
    (hpast : past = since ++ (key, e₀) :: before) (hmem : key ∈ m.keys) (use : Use)
    (hfew : (((use :: since).map (·.1)).toFinset.erase key).card ≤ m.capacity - m.quota) :
    key ∈ (m.invert use.1 use.2).2.keys := by
  by_cases huse : use.1 ∈ m.keys
  · rw [keys_invert_of_mem huse]
    exact hmem
  rw [keys_invert_of_notMem huse]
  refine List.mem_cons_of_mem _ ?_
  by_cases hfull : m.capacity ≤ m.entries.length
  · obtain ⟨dropped, -, -, -, hkept, hlt⟩ := h.exists_dropped hfull
    refine (hkept key).2 ⟨hmem, fun hdropped => ?_⟩
    -- the keys that stay, and the one that is searched
    have hothers : insert use.1 (m.kept.map (·.key)).toFinset ⊆
        ((use :: since).map (·.1)).toFinset.erase key := by
      intro k hk
      rw [Finset.mem_erase, List.mem_toFinset, List.map_cons, List.mem_cons]
      rcases Finset.mem_insert.1 hk with rfl | hk
      · exact ⟨fun heq => huse (heq ▸ hmem), .inl rfl⟩
      · obtain ⟨hk, hnot⟩ := (hkept k).1 (List.mem_toFinset.1 hk)
        have hlast := hlt key hdropped k hk hnot
        rw [hpast] at hlast
        obtain ⟨hsince, hne⟩ := mem_of_lastUse_lt hlast
        exact ⟨hne, .inr hsince⟩
    have hcard := (Finset.card_le_card hothers).trans hfew
    have hnotMem : use.1 ∉ (m.kept.map (·.key)).toFinset := fun hk =>
      huse ((hkept _).1 (List.mem_toFinset.1 hk)).1
    have hnodup : (m.kept.map (·.key)).Nodup := h.nodup.sublist ((kept_sublist m).map _)
    have hlength := h.length_evicted hfull
    have hkeptEq : m.kept = m.evicted := if_pos hfull
    rw [Finset.card_insert_of_notMem hnotMem, List.toFinset_card_of_nodup hnodup,
      List.length_map, hkeptEq] at hcard
    omega
  · rw [kept, if_neg hfull]
    exact hmem

/-- A key stays through uses of few other keys. -/
theorem mem_keys_behind {since before : List Use} {e₀ : Expr}
    (hfew : ((since.map (·.1)).toFinset.erase key).card ≤ max size 1 - max (max size 1 / 4) 1) :
    key ∈ (behind size (since ++ (key, e₀) :: before)).keys := by
  induction since with
  | nil => exact mem_keys_invert_self _ key e₀
  | cons use since ih =>
    have hrecord := recorded_behind size (since ++ (key, e₀) :: before)
    have hfewer : (since.map (·.1)).toFinset ⊆ ((use :: since).map (·.1)).toFinset := by
      rw [List.map_cons, List.toFinset_cons]
      exact Finset.subset_insert _ _
    have hmem := ih ((Finset.card_le_card (Finset.erase_subset_erase key hfewer)).trans hfew)
    refine hrecord.mem_keys_invert rfl hmem use ?_
    rw [quota, hrecord.capacity]
    exact hfew

end Recorded

/-! ## The whole behaviour -/

/-- What one more use makes of a memo `m` of a size that is behind the uses in `past`. In a history
the latest use stands first. -/
structure ForgetsOldest (size : Nat) (past : List Use) (use : Use) (m m' : InversionMemo) :
    Prop where
  bounded : m'.entries.length ≤ max size 1
  present : use.1 ∈ m'.keys
  /-- No counter is ahead of the number of uses. -/
  counted : m'.uses = past.length + 1 ∧ m'.hits + m'.misses = past.length + 1
  hit : use.1 ∈ m.keys → m'.hits = m.hits + 1 ∧ m'.misses = m.misses
  miss : use.1 ∉ m.keys → m'.hits = m.hits ∧ m'.misses = m.misses + 1
  distinct : m'.entries.Pairwise (·.lastUse ≠ ·.lastUse)
  ordered : ∀ x ∈ m'.entries, x.lastUse = lastUse x.key (use :: past)
  /-- Neither a hit nor a miss that finds room drops a key. -/
  keeps : use.1 ∈ m.keys ∨ m.entries.length < max size 1 →
    ∀ k, k ∈ m'.keys ↔ k = use.1 ∨ k ∈ m.keys
  /-- A miss that finds no room drops as many keys as the quota says, those used longest ago. -/
  drops : use.1 ∉ m.keys → max size 1 ≤ m.entries.length → ∃ dropped : List InversionKey,
    dropped.Nodup ∧ dropped.length = max (max size 1 / 4) 1 ∧ dropped ⊆ m.keys ∧
    (∀ k, k ∈ m'.keys ↔ k = use.1 ∨ k ∈ m.keys ∧ k ∉ dropped) ∧
    ∀ d ∈ dropped, ∀ k ∈ m.keys, k ∉ dropped → lastUse d past < lastUse k past

theorem Recorded.forgetsOldest {size : Nat} {past : List Use} {m : InversionMemo}
    (h : Recorded size past m) (use : Use) :
    ForgetsOldest size past use m (m.invert use.1 use.2).2 := by
  have h' := h.invert use.1 use.2
  have hcapacity := h.capacity
  refine ⟨h'.capacity ▸ h'.length_le, mem_keys_invert_self m use.1 use.2, ⟨h'.uses, h'.answers⟩,
    fun hkey => ?_, fun hkey => ?_, h'.pairwise, h'.lastUse_eq, fun hroom k => ?_,
    fun hkey hfull => ?_⟩
  · rw [InversionMemo.invert_of_mem hkey]
    exact ⟨rfl, rfl⟩
  · rw [InversionMemo.invert_of_notMem hkey]
    exact ⟨rfl, rfl⟩
  · by_cases hkey : use.1 ∈ m.keys
    · rw [keys_invert_of_mem hkey]
      exact ⟨.inr, fun hk => hk.elim (fun heq => heq ▸ hkey) id⟩
    · have hlt := hroom.resolve_left hkey
      rw [keys_invert_of_notMem hkey, kept, if_neg (by omega), List.mem_cons]
      rfl
  · rw [← hcapacity] at hfull
    obtain ⟨dropped, hnodup, hlength, hsub, hkept, hlt⟩ := h.exists_dropped hfull
    rw [quota, hcapacity] at hlength
    refine ⟨dropped, hnodup, hlength, hsub, fun k => ?_, hlt⟩
    rw [keys_invert_of_notMem hkey, List.mem_cons, hkept]

/-- **The memo forgets what was used longest ago, and only to make room.** Each use of a run is
answered so, and a key is not lost early: where no more other keys have been used since its last
use than an eviction leaves in the memo, its next use is a hit. -/
theorem forgets_least_recently_used (size : Nat) (past : List Use) (use : Use) :
    ForgetsOldest size past use (behind size past) (behind size (use :: past)) ∧
      ∀ since e₀ before, past = since ++ (use.1, e₀) :: before →
        ((since.map (·.1)).toFinset.erase use.1).card ≤
          max size 1 - max (max size 1 / 4) 1 →
        (behind size (use :: past)).hits = (behind size past).hits + 1 := by
  have hstep := (recorded_behind size past).forgetsOldest use
  refine ⟨hstep, fun since e₀ before hpast hfew => (hstep.hit ?_).1⟩
  rw [hpast]
  exact mem_keys_behind hfew

/-- In a memo for four outcomes the fifth key displaces the first, and the second is still there. -/
theorem forgets_least_recently_used_of_four :
    let use (target : Value) : Use := (⟨"arg", .arg, target, 1⟩, .var)
    let since := [use 4, use 3, use 2]
    let past := since ++ use 1 :: [use 0]
    ((since.map (·.1)).toFinset.erase (use 1).1).card ≤ max 4 1 - max (max 4 1 / 4) 1 ∧
      ForgetsOldest 4 past (use 1) (behind 4 past) (behind 4 (use 1 :: past)) ∧
      (use 0).1 ∉ (behind 4 past).keys ∧ (behind 4 (use 1 :: past)).hits = 1 := by
  intro use since past
  have hfew : ((since.map (·.1)).toFinset.erase (use 1).1).card ≤
      max 4 1 - max (max 4 1 / 4) 1 := by decide +kernel
  obtain ⟨hstep, hretained⟩ := forgets_least_recently_used 4 past (use 1)
  have hhit := hretained since .var [use 0] rfl hfew
  exact ⟨hfew, hstep, by decide +kernel, hhit.trans (by decide +kernel)⟩

end InversionMemo
end OperandCodec
