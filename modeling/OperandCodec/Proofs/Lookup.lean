import OperandCodec.Proofs.TableNames
import OperandCodec.Table.Index
/-!
# Looking up names

A table answers every name with the one opcode that has it, and is made of
exactly those lists in which no two opcodes share a name
(`OpcodeTable.lookup_is_exact`). How a table is built is a matter of its own:
the loops that fill the index and the slots come to the same result as going
through the list (`TableIndex.ofOpcodes_eq`). What carries that is what holds
in the middle of an opcode's names, which stand for a slot that is not filled
yet (`TableIndex.Indexes`).
-/

namespace OperandCodec

variable {ops before behind : List Opcode} {op owner : Opcode} {seen names : List String}
  {name : String}

/-! ## The index -/

/-- The error that tells of a conflict. -/
def Conflict.error : Conflict → TableError
  | .taken opcode name owner => .refused (.invalidMetadata opcode (.nameTaken name owner))
  | .repeated opcode name => .repeatedName opcode name

theorem OpcodeTable.ofOpcodes_of_some {c : Conflict} (h : firstConflict? [] ops = some c) :
    ofOpcodes ops = .error c.error := by
  unfold ofOpcodes
  cases c <;> split <;> simp_all [Conflict.error]

namespace TableIndex

variable {t : TableIndex} {slot : Nat}

/-- Some opcodes are indexed, and the names in `seen` are entered of the opcode that comes next. -/
structure Indexes (t : TableIndex) (ops : List Opcode) (seen : List String) : Prop where
  opcodes : t.opcodes.toList = ops
  slots : ∀ name slot, t.slots[name]? = some slot ↔
    (∃ op, ops[slot]? = some op ∧ name ∈ op.names) ∨ slot = ops.length ∧ name ∈ seen

theorem indexes_empty : Indexes empty [] [] :=
  ⟨rfl, by simp [empty]⟩

namespace Indexes

theorem getElem? (h : t.Indexes ops seen) (slot : Nat) : t.opcodes[slot]? = ops[slot]? := by
  rw [← h.opcodes, Array.getElem?_toList]

/-- A name has one slot, so what is in it is found by going through all opcodes. -/
theorem findOpcode?_of_slot (h : t.Indexes ops seen) (hslot : t.slots[name]? = some slot) :
    findOpcode? ops name = ops[slot]? := by
  cases hfind : findOpcode? ops name with
  | none =>
    obtain ⟨op, hop, hname⟩ | ⟨rfl, -⟩ := (h.slots name slot).1 hslot
    · exact absurd (List.mem_flatMap.2 ⟨op, List.mem_of_getElem? hop, hname⟩)
        (findOpcode?_eq_none_iff.1 hfind)
    · simp
  | some owner =>
    obtain ⟨hname, i, hi, hown, -⟩ := List.find?_eq_some_iff_getElem.1 hfind
    have howner : ops[i]? = some owner := List.getElem?_eq_some_iff.2 ⟨hi, hown⟩
    have hentry := (h.slots name i).2 (.inl ⟨owner, howner, by simpa using hname⟩)
    obtain rfl : slot = i := Option.some.inj (hslot.symm.trans hentry)
    exact howner.symm

/-- A name has no slot where no opcode has it, nor the next one so far. -/
theorem slot_eq_none_iff (h : t.Indexes ops seen) :
    t.slots[name]? = none ↔ findOpcode? ops name = none ∧ name ∉ seen := by
  rw [findOpcode?_eq_none_iff, Option.eq_none_iff_forall_ne_some]
  simp only [ne_eq, h.slots]
  constructor
  · intro hnone
    refine ⟨fun hmem => ?_, fun hmem => hnone _ (.inr ⟨rfl, hmem⟩)⟩
    obtain ⟨op, hop, hname⟩ := List.mem_flatMap.1 hmem
    obtain ⟨i, hi⟩ := List.mem_iff_getElem?.1 hop
    exact hnone i (.inl ⟨op, hi, hname⟩)
  · rintro ⟨hops, hseen⟩ slot (⟨op, hop, hname⟩ | ⟨-, hmem⟩)
    · exact hops (List.mem_flatMap.2 ⟨op, List.mem_of_getElem? hop, hname⟩)
    · exact hseen hmem

/-- **A name is looked up in the index** with the same result as in the list. -/
theorem get?_eq (h : t.Indexes ops []) (name : String) : t.get? name = findOpcode? ops name := by
  unfold get?
  cases hslot : t.slots[name]? with
  | none => rw [(h.slot_eq_none_iff.1 hslot).1, Option.bind_none]
  | some slot => rw [h.findOpcode?_of_slot hslot, Option.bind_some, h.getElem?]

/-- A name is entered that has no slot yet. -/
theorem enter (h : t.Indexes ops seen) (hnone : t.slots[name]? = none) :
    Indexes { t with slots := t.slots.insert name t.opcodes.size } ops (name :: seen) := by
  have hsize : t.opcodes.size = ops.length := by rw [← h.opcodes, Array.length_toList]
  refine ⟨h.opcodes, fun n slot => ?_⟩
  rw [Std.HashMap.getElem?_insert, hsize]
  by_cases hn : name = n
  · subst hn
    have hops := findOpcode?_eq_none_iff.1 (h.slot_eq_none_iff.1 hnone).1
    have hother : ¬ ∃ op, ops[slot]? = some op ∧ name ∈ op.names := fun ⟨op, hop, hname⟩ =>
      hops (List.mem_flatMap.2 ⟨op, List.mem_of_getElem? hop, hname⟩)
    simp only [hother, beq_self_eq_true, if_true, Option.some.injEq, List.mem_cons_self, and_true,
      false_or]
    exact eq_comm
  · simp [hn, Ne.symm hn, h.slots]

/-- The opcode gets its slot when all its names are entered. -/
theorem push (h : t.Indexes ops seen) (hseen : ∀ n, n ∈ seen ↔ n ∈ op.names) :
    Indexes { t with opcodes := t.opcodes.push op } (ops ++ [op]) [] := by
  refine ⟨by simp [h.opcodes], fun n slot => ?_⟩
  rw [h.slots, hseen]
  rcases Nat.lt_trichotomy slot ops.length with hlt | rfl | hgt
  · simp [List.getElem?_append_left hlt, Nat.ne_of_lt hlt]
  · simp
  · have hend : (ops ++ [op])[slot]? = none :=
      List.getElem?_eq_none (by rw [List.length_append, List.length_singleton]; exact hgt)
    simp [hend, List.getElem?_eq_none (Nat.le_of_lt hgt), Nat.ne_of_gt hgt]

end Indexes

/-- What is come to is the error of the conflict if there is one, or else an index. -/
def ComesTo (conflict : Option Conflict) (P : TableIndex → Prop)
    (o : Except TableError TableIndex) : Prop :=
  match conflict with
  | some c => o = .error c.error
  | none => ∃ t, o = .ok t ∧ P t

/-- Of two steps the second is come to where the first has no conflict. -/
theorem ComesTo.bind {c c' : Option Conflict} {P Q : TableIndex → Prop}
    {o : Except TableError TableIndex} {f : TableIndex → Except TableError TableIndex}
    (h : ComesTo c P o) (hf : ∀ t, P t → ComesTo c' Q (f t)) :
    ComesTo (c <|> c') Q (o >>= f) := by
  cases c with
  | some c =>
    rw [show o = .error c.error from h]
    rfl
  | none =>
    obtain ⟨t, rfl, ht⟩ := h
    exact hf t ht

theorem ComesTo.map {c : Option Conflict} {P Q : TableIndex → Prop}
    {o : Except TableError TableIndex} {f : TableIndex → TableIndex} (h : ComesTo c P o)
    (hf : ∀ t, P t → Q (f t)) : ComesTo c Q (f <$> o) := by
  cases c with
  | some c =>
    rw [show o = .error c.error from h]
    rfl
  | none =>
    obtain ⟨t, rfl, ht⟩ := h
    exact ⟨f t, rfl, hf t ht⟩

/-- A name is entered, or conflicts with where it is found. -/
theorem comesTo_enter (h : t.Indexes ops seen) :
    ComesTo (op.conflict? ops seen [name]) (Indexes · ops (name :: seen)) (enter op t name) := by
  rw [enter, Opcode.conflict?]
  cases hslot : t.slots[name]? with
  | none =>
    obtain ⟨hnone, hname⟩ := h.slot_eq_none_iff.1 hslot
    rw [hnone]
    dsimp only
    rw [if_neg (by simpa using hname)]
    exact ⟨_, rfl, h.enter hslot⟩
  | some slot =>
    rw [h.findOpcode?_of_slot hslot, ← h.getElem?]
    dsimp only
    cases hop : t.opcodes[slot]? with
    | some owner => rfl
    | none =>
      -- the slot is not filled, so it is the one of the opcode itself
      obtain ⟨op', hop', -⟩ | ⟨-, hname⟩ := (h.slots name slot).1 hslot
      · rw [← h.getElem?, hop] at hop'
        cases hop'
      · dsimp only
        rw [if_pos (by simpa using hname)]
        rfl

theorem conflict?_cons : op.conflict? ops seen (name :: names) =
    (op.conflict? ops seen [name] <|> op.conflict? ops (name :: seen) names) := by
  simp only [Opcode.conflict?]
  cases findOpcode? ops name with
  | some owner => rfl
  | none => by_cases hname : name ∈ seen <;> simp [hname]

/-- The names of an opcode are entered up to the first conflict. -/
theorem comesTo_enterAll (h : t.Indexes ops seen) :
    ComesTo (op.conflict? ops seen names) (Indexes · ops (names.reverse ++ seen))
      (names.foldlM (enter op) t) := by
  induction names generalizing t seen with
  | nil => exact ⟨t, rfl, h⟩
  | cons name names ih =>
    rw [List.foldlM_cons, conflict?_cons, List.reverse_cons, List.append_assoc]
    exact (comesTo_enter h).bind fun _ ht => ih ht

/-- An opcode is added if its names are entered without a conflict. -/
theorem comesTo_add (h : t.Indexes before []) :
    ComesTo (op.conflict? before [] op.names) (Indexes · (before ++ [op]) []) (add t op) := by
  rw [add, bind_pure_comp]
  exact (comesTo_enterAll h).map fun _ ht => ht.push (by simp)

/-- **The loops come to the first conflict**, or to an index of all opcodes. -/
theorem comesTo_addAll (h : t.Indexes before []) :
    ComesTo (firstConflict? before ops) (Indexes · (before ++ ops) []) (ops.foldlM add t) := by
  induction ops generalizing t before with
  | nil => exact ⟨t, rfl, by rwa [List.append_nil]⟩
  | cons op ops ih =>
    rw [List.foldlM_cons, firstConflict?, List.append_cons before op ops]
    exact (comesTo_add h).bind fun _ ht => ih ht

/-- **The index comes to the same as the list**: the same error, or the same opcodes and the same
opcode for each name. -/
theorem ofOpcodes_eq (ops : List Opcode) :
    (ofOpcodes ops).map (fun t => (t.opcodes.toList, t.get?)) =
      (OpcodeTable.ofOpcodes ops).map fun t => (t.opcodes, t.get?) := by
  have hindex : ComesTo (firstConflict? [] ops) (Indexes · ops []) (ofOpcodes ops) :=
    comesTo_addAll indexes_empty
  cases hconflict : firstConflict? [] ops with
  | none =>
    rw [hconflict] at hindex
    obtain ⟨t, ht, hindexes⟩ := hindex
    have hget : t.get? = findOpcode? ops := funext hindexes.get?_eq
    rw [ht, OpcodeTable.ofOpcodes_of_none hconflict]
    simp only [Except.map, hindexes.opcodes, hget]
    rfl
  | some c =>
    rw [hconflict] at hindex
    rw [show ofOpcodes ops = .error c.error from hindex, OpcodeTable.ofOpcodes_of_some hconflict]
    rfl

end TableIndex

/-! ## The table -/

/-- No two of some opcodes share a name. -/
def NamesApart (ops : List Opcode) : Prop :=
  ops.Pairwise fun op op' => ∀ name ∈ op.names, name ∉ op'.names

/-- The first name that is shared: those of the opcodes `before` are apart, and `name` is the first
of `op`'s names that one of them has, the `owner`. -/
structure FirstShared (ops : List Opcode) (op : Opcode) (name : String) (owner : Opcode) :
    Prop where
  split : ∃ before behind, ops = before ++ op :: behind ∧ NamesApart before ∧ owner ∈ before ∧
    ∃ seen unseen, op.names = seen ++ name :: unseen ∧ ∀ n ∈ seen, ∀ b ∈ before, n ∉ b.names
  owned : name ∈ owner.names

theorem nodup_allNames_iff (hself : ∀ op ∈ ops, op.names.Nodup) :
    (allNames ops).Nodup ↔ NamesApart ops :=
  List.nodup_flatMap.trans (and_iff_right hself)

namespace OpcodeTable

theorem get?_eq_some_iff {t : OpcodeTable} (hdistinct : (allNames t.opcodes).Nodup) :
    t.get? name = some op ↔ op ∈ t.opcodes ∧ name ∈ op.names := by
  constructor
  · intro h
    exact ⟨List.mem_of_find?_eq_some h, by simpa using List.find?_some h⟩
  · rintro ⟨hop, hname⟩
    exact findOpcode?_of_mem hdistinct hop hname

/-- If no opcode repeats a name itself, what is repeated first is what is shared first. -/
theorem firstShared_iff (hself : ∀ op ∈ ops, op.names.Nodup) :
    FirstShared ops op name owner ↔ ∃ before seen, FirstRepeat ops before op seen name ∧
      owner ∈ before ∧ name ∈ owner.names := by
  constructor
  · rintro ⟨⟨before, behind, rfl, hapart, howner, seen, unseen, hnames, hseen⟩, howned⟩
    have hbefore : (allNames before).Nodup :=
      (nodup_allNames_iff fun b hb => hself b (List.mem_append_left _ hb)).2 hapart
    have hop : (seen ++ name :: unseen).Nodup := hnames ▸ hself op (by simp)
    refine ⟨before, seen, ⟨⟨behind, rfl⟩, ⟨unseen, hnames⟩, ?_, ?_⟩, howner, howned⟩
    · refine List.nodup_append.2 ⟨hbefore, (List.nodup_append.1 hop).1, ?_⟩
      rintro n hn _ hmem rfl
      obtain ⟨b, hb, hnb⟩ := List.mem_flatMap.1 hn
      exact hseen n hmem b hb hnb
    · exact List.mem_append_left _ (List.mem_flatMap.2 ⟨owner, howner, howned⟩)
  · rintro ⟨before, seen, ⟨⟨behind, rfl⟩, ⟨unseen, hnames⟩, hdistinct, -⟩, howner, howned⟩
    obtain ⟨hbefore, -, hdisjoint⟩ := List.nodup_append.1 hdistinct
    have hapart : NamesApart before :=
      (nodup_allNames_iff fun b hb => hself b (List.mem_append_left _ hb)).1 hbefore
    refine ⟨⟨before, behind, rfl, hapart, howner, seen, unseen, hnames, ?_⟩, howned⟩
    intro n hn b hb hnb
    exact hdisjoint n (List.mem_flatMap.2 ⟨b, hb, hnb⟩) n hn rfl

/-- No name is repeated by its own opcode, if none repeats a name itself. -/
theorem not_mem_seen (hself : ∀ op ∈ ops, op.names.Nodup)
    (hfirst : FirstRepeat ops before op seen name) : name ∉ seen := by
  obtain ⟨⟨behind, rfl⟩, ⟨unseen, hnames⟩, -, -⟩ := hfirst
  have hop : (seen ++ name :: unseen).Nodup := hnames ▸ hself op (by simp)
  exact fun hmem => (List.nodup_append.1 hop).2.2 name hmem name List.mem_cons_self rfl

/-- **Every name of a table finds its own opcode, and nothing else is found.** Opcodes none of which
repeats a name itself make a table exactly where no two share a name, with all of them in order.
Otherwise the first name that is shared is refused, with the opcode that has it and the one that had
it before. Building the index comes to the same. -/
theorem lookup_is_exact (ops : List Opcode) (hself : ∀ op ∈ ops, op.names.Nodup) :
    ((∃ t, ofOpcodes ops = .ok t) ↔ NamesApart ops) ∧
    (∀ e, ofOpcodes ops = .error e ↔ ∃ op name owner, FirstShared ops op name owner ∧
      e = .refused (.invalidMetadata op.name (.nameTaken name owner.name))) ∧
    (∀ t, ofOpcodes ops = .ok t → t.opcodes = ops ∧ t.size = ops.length ∧
      ∀ name, (∀ op, t.get? name = some op ↔ op ∈ ops ∧ name ∈ op.names) ∧
        (t.get? name = none ↔ ∀ op ∈ ops, name ∉ op.names)) ∧
    (TableIndex.ofOpcodes ops).map (fun t => (t.opcodes.toList, t.get?)) =
      (ofOpcodes ops).map fun t => (t.opcodes, t.get?) := by
  have houtcome := outcome_ofOpcodes ops
  refine ⟨⟨?_, fun hapart => ?_⟩, fun e => ⟨fun h => ?_, ?_⟩, fun t h => ?_,
    TableIndex.ofOpcodes_eq ops⟩
  · rintro ⟨t, h⟩
    rw [h] at houtcome
    cases houtcome with
    | table hdistinct => exact (nodup_allNames_iff hself).1 hdistinct
  · exact ⟨_, ofOpcodes_of_nodup ((nodup_allNames_iff hself).2 hapart)⟩
  · rw [h] at houtcome
    cases houtcome with
    | taken hfirst howner hname =>
      exact ⟨_, _, _, (firstShared_iff hself).2 ⟨_, _, hfirst, howner, hname⟩, rfl⟩
    | repeated hfirst hname => exact absurd hname (not_mem_seen hself hfirst)
  · rintro ⟨op, name, owner, hshared, rfl⟩
    obtain ⟨before, seen, hfirst, howner, hname⟩ := (firstShared_iff hself).1 hshared
    exact ofOpcodes_of_owner hfirst howner hname
  · rw [h] at houtcome
    cases houtcome with
    | table hdistinct hops =>
      subst hops
      refine ⟨rfl, rfl, fun name => ⟨fun op => get?_eq_some_iff hdistinct, ?_⟩⟩
      rw [get?, findOpcode?_eq_none_iff, allNames, List.mem_flatMap]
      simp

/-- Two opcodes whose aliases differ in spelling only make a table, in which either alias finds its
own opcode and a third spelling finds none. -/
theorem lookup_is_exact_of_aliases :
    ∃ add sub : Opcode, add.names = ["add", "sum"] ∧ sub.names = ["sub", "Sum"] ∧
      ∃ t, ofOpcodes [add, sub] = .ok t ∧ t.get? "sum" = some add ∧ t.get? "Sum" = some sub ∧
        t.get? "SUM" = none := by
  let add : Opcode := ⟨⟨"add", "", .zero, .zero, .fixed 1, ["sum"]⟩, by decide +kernel⟩
  let sub : Opcode := ⟨⟨"sub", "", .zero, .zero, .fixed 1, ["Sum"]⟩, by decide +kernel⟩
  have hself : ∀ op ∈ [add, sub], op.names.Nodup := by decide +kernel
  have happart : NamesApart [add, sub] :=
    List.pairwise_pair.2 (by decide +kernel)
  obtain ⟨hmade, -, hfind, -⟩ := lookup_is_exact [add, sub] hself
  obtain ⟨t, ht⟩ := hmade.2 happart
  obtain ⟨-, -, hget⟩ := hfind t ht
  have hadd : t.get? "sum" = some add :=
    ((hget "sum").1 add).2 ⟨List.mem_cons_self, by decide +kernel⟩
  have hsub : t.get? "Sum" = some sub :=
    ((hget "Sum").1 sub).2 ⟨List.mem_cons_of_mem _ List.mem_cons_self, by decide +kernel⟩
  exact ⟨add, sub, rfl, rfl, t, ht, hadd, hsub, (hget "SUM").2.2 (by decide +kernel)⟩

end OpcodeTable
end OperandCodec
