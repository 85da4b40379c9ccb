import Mathlib.Data.List.Induction
import Mathlib.Data.List.Nodup
import Mathlib.Tactic.Common
import OperandCodec.Table
/-!
# Names of a table

A list of opcodes makes a table exactly where no name occurs twice among
all their names. What happens otherwise depends on the first repetition in
list order (`FirstRepeat`): a name of an opcode before it is refused with
that opcode as the owner, and a name that the opcode itself has listed
before is a conflict without an owner, which no error reports
(`ofOpcodes_by_first_repetition`). The check comes to the first repetition
without stopping earlier (`FirstRepeat.firstConflict?_eq`), so what is left
is to find one in any list that has a repetition (`exists_firstRepeat`).
-/

namespace OperandCodec

/-- All names of some opcodes, in list order. -/
def allNames (ops : List Opcode) : List String :=
  ops.flatMap (·.names)

/-- The first repetition in the names of some opcodes: the names before it are distinct, and it is
one of them. They are those of the opcodes `before`, and the ones in `seen` of the opcode itself. -/
structure FirstRepeat (ops before : List Opcode) (op : Opcode) (seen : List String)
    (name : String) : Prop where
  opcodes : ∃ behind, ops = before ++ op :: behind
  names : ∃ unseen, op.names = seen ++ name :: unseen
  distinct : (allNames before ++ seen).Nodup
  repeated : name ∈ allNames before ++ seen

variable {ops before behind : List Opcode} {op : Opcode} {seen names : List String} {name : String}

@[simp] theorem allNames_append (ops ops' : List Opcode) :
    allNames (ops ++ ops') = allNames ops ++ allNames ops' :=
  List.flatMap_append

@[simp] theorem allNames_cons (op : Opcode) (ops : List Opcode) :
    allNames (op :: ops) = op.names ++ allNames ops :=
  List.flatMap_cons

theorem allNames_append_singleton (ops : List Opcode) (op : Opcode) :
    allNames (ops ++ [op]) = allNames ops ++ op.names := by
  simp [allNames]

/-! ## Finding the first repetition -/

/-- Behind distinct names a list with a repetition has a first one. -/
theorem exists_repeated {used : List String} (hused : used.Nodup) (h : ¬ (used ++ names).Nodup) :
    ∃ seen name unseen, names = seen ++ name :: unseen ∧ (used ++ seen).Nodup ∧
      name ∈ used ++ seen := by
  induction names generalizing used with
  | nil =>
    rw [List.append_nil] at h
    exact absurd hused h
  | cons n names ih =>
    by_cases hn : n ∈ used
    · exact ⟨[], n, names, rfl, by rwa [List.append_nil], by rwa [List.append_nil]⟩
    · have hused' : (used ++ [n]).Nodup :=
        List.nodup_append.2 ⟨hused, List.nodup_singleton n, by
          rintro m hm _ hn' rfl
          exact hn (List.mem_singleton.1 hn' ▸ hm)⟩
      rw [List.append_cons] at h
      obtain ⟨seen, name, unseen, rfl, hdistinct, hname⟩ := ih hused' h
      exact ⟨n :: seen, name, unseen, rfl, by simpa using hdistinct, by simpa using hname⟩

/-- **Opcodes whose names are not distinct have a first repetition.** The induction adds opcodes at
the end, where they do not move it. -/
theorem exists_firstRepeat (h : ¬ (allNames ops).Nodup) :
    ∃ before op seen name, FirstRepeat ops before op seen name := by
  induction ops using List.reverseRecOn with
  | nil => exact absurd List.nodup_nil h
  | append_singleton ops op ih =>
    by_cases hops : (allNames ops).Nodup
    · rw [allNames_append_singleton] at h
      obtain ⟨seen, name, unseen, hnames, hdistinct, hname⟩ := exists_repeated hops h
      exact ⟨ops, op, seen, name, ⟨[], rfl⟩, ⟨unseen, hnames⟩, hdistinct, hname⟩
    · obtain ⟨before, op', seen, name, ⟨behind, rfl⟩, hnames, hdistinct, hname⟩ := ih hops
      refine ⟨before, op', seen, name, ⟨behind ++ [op], ?_⟩, hnames, hdistinct, hname⟩
      rw [List.append_assoc, List.cons_append]

/-- A first repetition is one. -/
theorem FirstRepeat.not_nodup (h : FirstRepeat ops before op seen name) :
    ¬ (allNames ops).Nodup := by
  obtain ⟨⟨behind, rfl⟩, ⟨unseen, hnames⟩, -, hname⟩ := h
  rw [allNames_append, allNames_cons, hnames, List.append_assoc, ← List.append_assoc]
  intro hnodup
  exact (List.nodup_append.1 hnodup).2.2 name hname name List.mem_cons_self rfl

/-! ## The check -/

theorem findOpcode?_eq_none_iff : findOpcode? ops name = none ↔ name ∉ allNames ops := by
  simp [findOpcode?, allNames]

/-- Among opcodes with distinct names a name finds its owner. -/
theorem findOpcode?_of_mem (hdistinct : (allNames ops).Nodup) (hop : op ∈ ops)
    (hname : name ∈ op.names) : findOpcode? ops name = some op := by
  induction ops with
  | nil => cases hop
  | cons o ops ih =>
    rw [allNames_cons, List.nodup_append] at hdistinct
    obtain ⟨-, hrest, hdisjoint⟩ := hdistinct
    unfold findOpcode?
    by_cases ho : name ∈ o.names
    · rw [List.find?_cons_of_pos (by simpa using ho)]
      rcases List.mem_cons.1 hop with rfl | hop
      · rfl
      · exact absurd rfl (hdisjoint name ho name (List.mem_flatMap.2 ⟨op, hop, hname⟩))
    · rw [List.find?_cons_of_neg (by simpa using ho)]
      rcases List.mem_cons.1 hop with rfl | hop
      · exact absurd hname ho
      · exact ih hrest hop

/-- Names that are new are passed over. -/
theorem conflict?_append {new : List String} (hdistinct : (allNames before ++ new).Nodup)
    (hseen : ∀ n ∈ new, n ∉ seen) (names : List String) :
    op.conflict? before seen (new ++ names) = op.conflict? before (new.reverse ++ seen) names := by
  induction new generalizing seen with
  | nil => rfl
  | cons n new ih =>
    have hn : n ∉ allNames before := fun hmem =>
      (List.nodup_append.1 hdistinct).2.2 n hmem n List.mem_cons_self rfl
    obtain ⟨hn', hnew⟩ := List.nodup_cons.1 (List.nodup_append.1 hdistinct).2.1
    obtain ⟨hnseen, hseen⟩ := List.forall_mem_cons.1 hseen
    have hrest : (allNames before ++ new).Nodup :=
      hdistinct.sublist ((List.sublist_cons_self n new).append_left _)
    have hseen' : ∀ m ∈ new, m ∉ n :: seen := by
      intro m hm hmem
      rcases List.mem_cons.1 hmem with rfl | hmem
      · exact hn' hm
      · exact hseen m hm hmem
    rw [List.cons_append, Opcode.conflict?, findOpcode?_eq_none_iff.2 hn]
    dsimp only
    rw [if_neg (by simpa using hnseen), ih hrest hseen', List.reverse_cons, List.append_assoc,
      List.singleton_append]

/-- Opcodes without a repetition are passed over. -/
theorem firstConflict?_append (before : List Opcode)
    (hdistinct : (allNames (before ++ ops)).Nodup) (behind : List Opcode) :
    firstConflict? before (ops ++ behind) = firstConflict? (before ++ ops) behind := by
  induction ops generalizing before with
  | nil => rw [List.nil_append, List.append_nil]
  | cons op ops ih =>
    rw [List.append_cons] at hdistinct
    have hop : (allNames before ++ op.names).Nodup := by
      rw [allNames_append, allNames_append_singleton] at hdistinct
      exact (List.nodup_append.1 hdistinct).1
    have hnone : op.conflict? before [] op.names = none := by
      rw [← List.append_nil op.names, conflict?_append hop fun _ _ => List.not_mem_nil]
      rfl
    rw [List.cons_append, firstConflict?, hnone, List.append_cons before op ops,
      ← ih _ hdistinct]
    rfl

/-- **Distinct names have no conflict.** -/
theorem firstConflict?_eq_none (h : (allNames ops).Nodup) : firstConflict? [] ops = none := by
  have hcheck := firstConflict?_append [] h []
  rwa [List.append_nil] at hcheck

namespace FirstRepeat

/-- The check comes to the first repetition and looks at its name. -/
theorem firstConflict?_eq (h : FirstRepeat ops before op seen name) :
    ∃ unseen behind, firstConflict? [] ops =
      (op.conflict? before seen.reverse (name :: unseen) <|>
        firstConflict? (before ++ [op]) behind) := by
  obtain ⟨⟨behind, rfl⟩, ⟨unseen, hnames⟩, hdistinct, -⟩ := h
  have hbefore : (allNames before).Nodup := (List.nodup_append.1 hdistinct).1
  refine ⟨unseen, behind, ?_⟩
  rw [firstConflict?_append [] hbefore, List.nil_append, firstConflict?, hnames,
    conflict?_append hdistinct fun _ _ => List.not_mem_nil, List.append_nil]

/-- A name that an opcode before has taken. -/
theorem firstConflict?_of_owner (h : FirstRepeat ops before op seen name) {owner : Opcode}
    (howner : owner ∈ before) (hname : name ∈ owner.names) :
    firstConflict? [] ops = some (.taken op.name name owner.name) := by
  obtain ⟨unseen, behind, hcheck⟩ := h.firstConflict?_eq
  have hbefore : (allNames before).Nodup := (List.nodup_append.1 h.distinct).1
  rw [hcheck, Opcode.conflict?, findOpcode?_of_mem hbefore howner hname]
  rfl

/-- A name that the opcode has listed itself. -/
theorem firstConflict?_of_seen (h : FirstRepeat ops before op seen name) (hname : name ∈ seen) :
    firstConflict? [] ops = some (.repeated op.name name) := by
  obtain ⟨unseen, behind, hcheck⟩ := h.firstConflict?_eq
  have hbefore : name ∉ allNames before := fun hmem =>
    (List.nodup_append.1 h.distinct).2.2 name hmem name hname rfl
  rw [hcheck, Opcode.conflict?, findOpcode?_eq_none_iff.2 hbefore]
  dsimp only
  rw [if_pos (by simpa using hname)]
  rfl

end FirstRepeat

/-! ## Making a table -/

namespace OpcodeTable

theorem ofOpcodes_of_none (h : firstConflict? [] ops = none) : ofOpcodes ops = .ok ⟨ops, h⟩ := by
  unfold ofOpcodes
  split <;> simp_all

/-- Opcodes with distinct names make a table. -/
theorem ofOpcodes_of_nodup (h : (allNames ops).Nodup) :
    ofOpcodes ops = .ok ⟨ops, firstConflict?_eq_none h⟩ :=
  ofOpcodes_of_none _

/-- A first repetition of a name that an opcode before has taken is refused. -/
theorem ofOpcodes_of_owner (h : FirstRepeat ops before op seen name) {owner : Opcode}
    (howner : owner ∈ before) (hname : name ∈ owner.names) :
    ofOpcodes ops = .error (.refused (.invalidMetadata op.name (.nameTaken name owner.name))) := by
  have hconflict := h.firstConflict?_of_owner howner hname
  unfold ofOpcodes
  split <;> simp_all

/-- A first repetition of a name that the opcode has listed itself is not. -/
theorem ofOpcodes_of_seen (h : FirstRepeat ops before op seen name) (hname : name ∈ seen) :
    ofOpcodes ops = .error (.repeatedName op.name name) := by
  have hconflict := h.firstConflict?_of_seen hname
  unfold ofOpcodes
  split <;> simp_all

/-- What becomes of a list of opcodes. -/
inductive Outcome (ops : List Opcode) : Except TableError OpcodeTable → Prop where
  | table {t : OpcodeTable} : (allNames ops).Nodup → t.opcodes = ops → Outcome ops (.ok t)
  | taken {before : List Opcode} {op owner : Opcode} {seen : List String} {name : String} :
      FirstRepeat ops before op seen name → owner ∈ before → name ∈ owner.names →
      Outcome ops (.error (.refused (.invalidMetadata op.name (.nameTaken name owner.name))))
  | repeated {before : List Opcode} {op : Opcode} {seen : List String} {name : String} :
      FirstRepeat ops before op seen name → name ∈ seen →
      Outcome ops (.error (.repeatedName op.name name))

theorem outcome_ofOpcodes (ops : List Opcode) : Outcome ops (ofOpcodes ops) := by
  by_cases hdistinct : (allNames ops).Nodup
  · rw [ofOpcodes_of_nodup hdistinct]
    exact .table hdistinct rfl
  · obtain ⟨before, op, seen, name, hfirst⟩ := exists_firstRepeat hdistinct
    rcases List.mem_append.1 hfirst.repeated with hname | hname
    · obtain ⟨owner, howner, hname⟩ := List.mem_flatMap.1 hname
      rw [ofOpcodes_of_owner hfirst howner hname]
      exact .taken hfirst howner hname
    · rw [ofOpcodes_of_seen hfirst hname]
      exact .repeated hfirst hname

/-- **A list of opcodes makes a table, is refused or breaks off.** It makes a table exactly where no
name occurs twice. Otherwise the first repetition decides: a name of an opcode before is refused as
invalid metadata, with its owner, and a name that the opcode has listed itself is a conflict that
no error reports. -/
theorem ofOpcodes_by_first_repetition (ops : List Opcode) :
    (∀ t, ofOpcodes ops = .ok t ↔ (allNames ops).Nodup ∧ t.opcodes = ops) ∧
    (∀ e, ofOpcodes ops = .error (.refused e) ↔ ∃ before op seen name owner,
      FirstRepeat ops before op seen name ∧ owner ∈ before ∧ name ∈ owner.names ∧
        e = .invalidMetadata op.name (.nameTaken name owner.name)) ∧
    ∀ opcode name, ofOpcodes ops = .error (.repeatedName opcode name) ↔ ∃ before op seen,
      FirstRepeat ops before op seen name ∧ name ∈ seen ∧ op.name = opcode := by
  have houtcome := outcome_ofOpcodes ops
  refine ⟨fun t => ⟨fun h => ?_, ?_⟩, fun e => ⟨fun h => ?_, ?_⟩,
    fun opcode name => ⟨fun h => ?_, ?_⟩⟩
  · rw [h] at houtcome
    obtain ⟨hdistinct, hops⟩ := houtcome
    exact ⟨hdistinct, hops⟩
  · rintro ⟨hdistinct, rfl⟩
    exact ofOpcodes_of_nodup hdistinct
  · rw [h] at houtcome
    obtain _ | ⟨hfirst, howner, hname⟩ := houtcome
    exact ⟨_, _, _, _, _, hfirst, howner, hname, rfl⟩
  · rintro ⟨before, op, seen, name, owner, hfirst, howner, hname, rfl⟩
    exact ofOpcodes_of_owner hfirst howner hname
  · rw [h] at houtcome
    obtain _ | _ | ⟨hfirst, hname⟩ := houtcome
    exact ⟨_, _, _, hfirst, hname, rfl⟩
  · rintro ⟨before, op, seen, hfirst, hname, rfl⟩
    exact ofOpcodes_of_seen hfirst hname

/-- An opcode that lists its own name as an alias has a name that occurs twice, and is not refused
for it. -/
theorem own_name_as_alias_not_refused :
    ∃ op : Opcode, ¬ (allNames [op]).Nodup ∧ ∀ e, ofOpcodes [op] ≠ .error (.refused e) := by
  let r : Record := ⟨"add", "", .zero, .zero, .fixed 1, ["add"]⟩
  have hsound : r.flaw? = none := by decide +kernel
  have hfirst : FirstRepeat [⟨r, hsound⟩] [] ⟨r, hsound⟩ ["add"] "add" :=
    ⟨⟨[], rfl⟩, ⟨[], rfl⟩, List.nodup_singleton _, List.mem_singleton.2 rfl⟩
  refine ⟨⟨r, hsound⟩, hfirst.not_nodup, fun e h => ?_⟩
  cases h.symm.trans (ofOpcodes_of_seen hfirst (List.mem_singleton.2 rfl))

end OpcodeTable

end OperandCodec
