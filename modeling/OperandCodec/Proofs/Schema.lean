import Mathlib.Data.List.Forall2
import Mathlib.Tactic.Common
import OperandCodec.Document.Schema
import OperandCodec.Proofs.FirstFailure
import OperandCodec.Proofs.Json.Keys
import OperandCodec.Table
/-!
# Which values are documents

A value is read as a document exactly where the schema allows it, with
records written as objects or as arrays of their members
(`OpcodeTable.documentOfItem_by_schema`). Each reader is compared with the
schema of what it reads. A record is compared member by member, and once for
both forms: whichever form it has, it comes down to a value or nothing for
each member (`record_iff`). The comparison needs keys to be distinct, since
a reader of a record refuses two fields of one member.
-/

namespace OperandCodec
namespace Schema

open Json

/-! ## Readers of values -/

section Readers

variable {α β : Type}

/-- A reader succeeds on the values that a schema allows. -/
def ReadBy (schema : Schema) (f : Json → Option α) : Prop :=
  ∀ v, v.keysDistinct → ((∃ x, f v = some x) ↔ schema v)

theorem readBy_asString? : ReadBy text asString? := by
  intro v _
  cases v <;> simp [text, asString?]

theorem readBy_asBool? : ReadBy truth asBool? := by
  intro v _
  cases v <;> simp [truth, asBool?]

theorem asNat?_eq_some_iff {max n : Nat} {v : Json} :
    v.asNat? max = some n ↔ n ≤ max ∧ v = .number (.integer n) := by
  unfold asNat?
  split
  · rename_i k
    simp only [Option.ite_none_right_eq_some, Option.some.injEq, Json.number.injEq,
      JsonNumber.integer.injEq]
    omega
  · rename_i hne
    simp only [reduceCtorEq, false_iff, not_and]
    rintro - rfl
    exact hne n rfl

theorem readBy_asNat? (max : Nat) : ReadBy (natural max) (asNat? max) := by
  intro v _
  simp only [asNat?_eq_some_iff, natural]

/-- A step for each item succeeds where each step does. -/
theorem exists_mapM_eq_some_iff {γ : Type} {f : γ → Option α} {items : List γ} :
    (∃ xs, items.mapM f = some xs) ↔ ∀ v ∈ items, ∃ x, f v = some x := by
  induction items with
  | nil => simp
  | cons v items ih =>
    rw [List.forall_mem_cons, ← ih, List.mapM_cons]
    cases f v <;> cases items.mapM f <;> simp

/-- Steps in turn succeed where each does. -/
theorem exists_bind_eq_some_iff {o : Option β} {f : β → Option α} :
    (∃ x, (o >>= f) = some x) ↔ ∃ y, o = some y ∧ ∃ x, f y = some x := by
  cases o <;> simp

theorem ReadBy.list {schema : Schema} {f : Json → Option α} (hf : ReadBy schema f) :
    ReadBy (list schema) (asList? f) := by
  intro v hv
  cases v with
  | array items =>
    have hitems : ∀ x ∈ items, (∃ y, f x = some y) ↔ schema x :=
      fun x hx => hf x (keysDistinct_of_mem hv hx)
    simp only [asList?, Schema.list, Json.array.injEq, exists_eq_left', exists_mapM_eq_some_iff]
    exact forall₂_congr hitems
  | _ => simp [asList?, Schema.list]

theorem readBy_asPair? : ReadBy bits asPair? := by
  intro v hv
  unfold asPair?
  split
  · rename_i a b
    rw [keysDistinct] at hv
    have ha := readBy_asNat? 255 a (keysDistinct_of_mem hv List.mem_cons_self)
    have hb := readBy_asNat? 255 b (keysDistinct_of_mem hv (by simp))
    simp only [exists_bind_eq_some_iff, bits, pair, Json.array.injEq, List.cons.injEq, and_true]
    rw [show (∃ x y, (a = x ∧ b = y) ∧ natural 255 x ∧ natural 255 y) ↔
      natural 255 a ∧ natural 255 b by simp, ← ha, ← hb]
    simp
  · rename_i hne
    simp only [reduceCtorEq, exists_const, bits, pair, false_iff]
    rintro ⟨x, y, rfl, -⟩
    exact hne x y rfl

section Members

variable {key : String} {schema : Schema} {f : Json → Option α} {o : Option Json}
  {m : Member} {members : List Member} {values : List (Option Json)} {g : α → Option β}

/-- A reader of members is at its end. -/
theorem admits_nil (x : α) :
    (∃ y, (pure x : Option α) = some y) ↔ List.Forall₂ Member.Admits [] [] := by
  simp

/-- A reader of members goes on behind the first one. -/
theorem admits_cons {r : Option α} (hr : (∃ x, r = some x) ↔ m.Admits o)
    (hg : ∀ x, (∃ y, g x = some y) ↔ List.Forall₂ Member.Admits members values) :
    (∃ y, (r >>= g) = some y) ↔ List.Forall₂ Member.Admits (m :: members) (o :: values) := by
  rw [exists_bind_eq_some_iff, List.forall₂_cons, ← hr]
  simp only [hg, exists_and_right]

theorem ReadBy.required (hf : ReadBy schema f) (ho : ∀ v ∈ o, v.keysDistinct)
    (hg : ∀ x, (∃ y, g x = some y) ↔ List.Forall₂ Member.Admits members values) :
    (∃ y, (o >>= fun v => f v >>= g) = some y) ↔
      List.Forall₂ Member.Admits (⟨key, true, schema⟩ :: members) (o :: values) := by
  rw [← bind_assoc]
  refine admits_cons ?_ hg
  cases o with
  | none => simp [Member.Admits]
  | some v => simpa [Member.Admits] using hf v (ho v rfl)

theorem ReadBy.optional {g : Option α → Option β} (hf : ReadBy schema f)
    (ho : ∀ v ∈ o, v.keysDistinct)
    (hg : ∀ x, (∃ y, g x = some y) ↔ List.Forall₂ Member.Admits members values) :
    (∃ y, (asOptional? f o >>= g) = some y) ↔
      List.Forall₂ Member.Admits (⟨key, false, nullable schema⟩ :: members) (o :: values) := by
  refine admits_cons ?_ hg
  cases o with
  | none => simp [Member.Admits, asOptional?]
  | some v =>
    have hv := hf v (ho v rfl)
    cases v <;> simp [Member.Admits, asOptional?, nullable, ← hv]

theorem ReadBy.default (hf : ReadBy schema f) (default : α) (ho : ∀ v ∈ o, v.keysDistinct)
    (hg : ∀ x, (∃ y, g x = some y) ↔ List.Forall₂ Member.Admits members values) :
    (∃ y, (asDefault? default f o >>= g) = some y) ↔
      List.Forall₂ Member.Admits (⟨key, false, schema⟩ :: members) (o :: values) := by
  refine admits_cons ?_ hg
  cases o with
  | none => simp [Member.Admits, asDefault?]
  | some v => exact hf v (ho v rfl)

end Members

/-! ## Records -/

variable {members : List Member} {keys : List String} {values : List (Option Json)} {v : Json}

/-- Of distinct keys at most one is a given key. -/
theorem filter_key_eq {fs : List (String × Json)} (h : fieldsDistinct fs) (key : String) :
    fs.filter (·.1 == key) = (fs.find? (·.1 == key)).toList := by
  induction fs with
  | nil => rfl
  | cons f fs ih =>
    obtain ⟨k, v⟩ := f
    simp only [fieldsDistinct, Bool.and_eq_true, Bool.not_eq_true'] at h
    by_cases hk : k = key
    · subst hk
      have hrest : fs.filter (·.1 == k) = [] :=
        List.filter_eq_nil_iff.2 fun f hf => by simpa using List.any_eq_false.1 h.1.1 f hf
      simp [hrest]
    · simpa [hk] using ih h.2

theorem fields?_object {fs : List (String × Json)} (h : fieldsDistinct fs) (keys : List String) :
    (Json.object fs).fields? keys = some (keys.map (field? · fs)) := by
  induction keys with
  | nil => rfl
  | cons k keys ih =>
    rw [fields?] at ih ⊢
    rw [List.mapM_cons, ih, filter_key_eq h k, List.map_cons, field?]
    cases fs.find? (·.1 == k) <;> rfl

theorem fields?_array {items : List Json} (keys : List String) (h : items.length ≤ keys.length) :
    (Json.array items).fields? keys = some ((List.range keys.length).map (items[·]?)) := by
  rw [fields?, if_pos h, Option.some_inj]
  refine List.ext_getElem (by simp [h]) fun i _ _ => ?_
  rcases Nat.lt_or_ge i items.length with hi | hi
  · simp [hi]
  · simp [hi, List.getElem_append_right]

/-- **The values of a record's members** are found by their keys or at their positions. -/
theorem fields?_eq_some_iff (hv : v.keysDistinct) : v.fields? keys = some values ↔
    (∃ fs, v = .object fs ∧ values = keys.map (field? · fs)) ∨
      ∃ items, v = .array items ∧ items.length ≤ keys.length ∧
        values = (List.range keys.length).map (items[·]?) := by
  cases v with
  | object fs =>
    rw [keysDistinct] at hv
    simp [fields?_object hv, eq_comm]
  | array items =>
    by_cases hlen : items.length ≤ keys.length
    · simp [fields?_array keys hlen, hlen, eq_comm]
    · simp [fields?, hlen]
  | _ => simp [fields?]

theorem length_of_fields? (hv : v.keysDistinct) (h : v.fields? keys = some values) :
    values.length = keys.length := by
  obtain ⟨fs, -, rfl⟩ | ⟨items, -, -, rfl⟩ := (fields?_eq_some_iff hv).1 h
  · rw [List.length_map]
  · rw [List.length_map, List.length_range]

/-- The values of a record's members repeat no keys. -/
theorem keysDistinct_of_fields? (hv : v.keysDistinct) (h : v.fields? keys = some values) :
    ∀ o ∈ values, ∀ x ∈ o, x.keysDistinct := by
  obtain ⟨fs, rfl, rfl⟩ | ⟨items, rfl, -, rfl⟩ := (fields?_eq_some_iff hv).1 h
  · intro o ho x hx
    obtain ⟨k, -, rfl⟩ := List.mem_map.1 ho
    obtain ⟨f, hf, rfl⟩ := Option.map_eq_some_iff.1 (show field? k fs = some x from hx)
    exact keysDistinct_of_field hv (List.mem_of_find?_eq_some hf)
  · intro o ho x hx
    obtain ⟨i, -, rfl⟩ := List.mem_map.1 ho
    exact keysDistinct_of_mem hv (List.mem_of_getElem? hx)

theorem record_object_iff {form : RecordForm} {fs : List (String × Json)} :
    record form members (.object fs) ↔
      List.Forall₂ Member.Admits members ((members.map (·.key)).map (field? · fs)) := by
  rw [List.map_map, List.forall₂_map_right_iff, List.forall₂_same]
  exact ⟨fun | .object h => h, .object⟩

theorem record_array_iff {items : List Json} :
    record .objectsOrArrays members (.array items) ↔ items.length ≤ members.length ∧
      List.Forall₂ Member.Admits members ((List.range members.length).map (items[·]?)) := by
  have hpointwise : List.Forall₂ Member.Admits members
      ((List.range members.length).map (items[·]?)) ↔
        ∀ i (h : i < members.length), members[i].Admits items[i]? := by
    simp [List.forall₂_iff_get]
  rw [hpointwise]
  exact ⟨fun | .array _ hlen h => ⟨hlen, h⟩, fun h => .array rfl h.1 h.2⟩

/-- A record is read where the values found for its members stand for them. -/
theorem record_iff (hv : v.keysDistinct) :
    record .objectsOrArrays members v ↔ ∃ values, v.fields? (members.map (·.key)) = some values ∧
      List.Forall₂ Member.Admits members values := by
  simp only [fields?_eq_some_iff hv, List.length_map]
  constructor
  · intro h
    cases v with
    | object fs => exact ⟨_, .inl ⟨fs, rfl, rfl⟩, record_object_iff.1 h⟩
    | array items =>
      obtain ⟨hlen, h⟩ := record_array_iff.1 h
      exact ⟨_, .inr ⟨items, rfl, hlen, rfl⟩, h⟩
    | _ => cases h
  · rintro ⟨_, ⟨fs, rfl, rfl⟩ | ⟨items, rfl, hlen, rfl⟩, h⟩
    · exact record_object_iff.2 h
    · exact record_array_iff.2 ⟨hlen, h⟩

/-- **A record's schema allows what its reader reads**, if the reader goes on from values of the
members wherever they stand for them. -/
theorem record_iff_read (hv : v.keysDistinct) {g : List (Option Json) → Option α}
    (hg : ∀ values, values.length = members.length → (∀ o ∈ values, ∀ x ∈ o, x.keysDistinct) →
      ((∃ x, g values = some x) ↔ List.Forall₂ Member.Admits members values)) :
    record .objectsOrArrays members v ↔
      ∃ x, (v.fields? (members.map (·.key)) >>= g) = some x := by
  rw [record_iff hv, exists_bind_eq_some_iff]
  exact exists_congr fun values => and_congr_right fun hvalues =>
    (hg values (by simpa using length_of_fields? hv hvalues)
      (keysDistinct_of_fields? hv hvalues)).symm

theorem readBy_argument : ReadBy (argument .objectsOrArrays) ArgumentDocument.ofJson? := by
  intro v hv
  rw [argument, ArgumentDocument.ofJson?]
  refine Iff.symm (record_iff_read hv ?_)
  refine fun
    | [bits, name, desc, computation, validRange], _, hvalues => ?_
  simp only [List.forall_mem_cons] at hvalues
  obtain ⟨hbits, hname, hdesc, hcomputation, hrange, -⟩ := hvalues
  exact readBy_asPair?.required hbits fun _ => readBy_asString?.required hname fun _ =>
    readBy_asString?.optional hdesc fun _ => readBy_asString?.optional hcomputation fun _ =>
    (readBy_asNat? _).list.list.optional hrange fun _ => admits_nil _

theorem readBy_parameter : ReadBy (parameter .objectsOrArrays) ParameterDocument.ofJson? := by
  intro v hv
  rw [parameter, ParameterDocument.ofJson?]
  refine Iff.symm (record_iff_read hv ?_)
  refine fun
    | [name, desc, spread], _, hvalues => ?_
  simp only [List.forall_mem_cons] at hvalues
  obtain ⟨hname, hdesc, hspread, -⟩ := hvalues
  exact readBy_asString?.required hname fun _ => readBy_asString?.optional hdesc fun _ =>
    readBy_asBool?.default false hspread fun _ => admits_nil _

/-! ## The parts of a document -/

theorem isSentinel_iff : isSentinel v ↔ zero v := by
  simp [isSentinel, asNat?_eq_some_iff, zero, natural]

theorem readBy_operand : ReadBy (operand .objectsOrArrays) OperandDocument.ofJson? := by
  intro v hv
  rw [OperandDocument.ofJson?, operand, either, ← isSentinel_iff, ← readBy_argument.list v hv]
  by_cases hz : isSentinel v <;> simp [hz]

theorem readBy_inputs : ReadBy (inputs .objectsOrArrays) InputsDocument.ofJson? := by
  intro v hv
  rw [InputsDocument.ofJson?, inputs, either, ← isSentinel_iff]
  by_cases hz : isSentinel v
  · simp [hz, pure]
  · simp only [hz, Bool.false_eq_true, if_false, false_or]
    refine Iff.symm (record_iff_read hv ?_)
    refine fun
      | [params, bits, computation], _, hvalues => ?_
    simp only [List.forall_mem_cons] at hvalues
    obtain ⟨hparams, hbits, hcomputation, -⟩ := hvalues
    exact readBy_parameter.list.default [] hparams fun _ => readBy_asPair?.optional hbits fun _ =>
      readBy_asString?.optional hcomputation fun _ => admits_nil _

theorem readBy_outputs : ReadBy (outputs .objectsOrArrays) OutputsDocument.ofJson? := by
  intro v hv
  rw [OutputsDocument.ofJson?, outputs, either, ← readBy_asNat? _ v hv]
  cases hn : v.asNat? Text.maxCount with
  | some n => simp [pure]
  | none =>
    simp only [reduceCtorEq, exists_false, false_or]
    refine Iff.symm (record_iff_read hv ?_)
    refine fun
      | [bits, computation], _, hvalues => ?_
    simp only [List.forall_mem_cons] at hvalues
    obtain ⟨hbits, hcomputation, -⟩ := hvalues
    exact readBy_asPair?.optional hbits fun _ =>
      readBy_asString?.optional hcomputation fun _ => admits_nil _

/-! ## Documents -/

section Documents

/-- Steps in turn succeed where each does. -/
theorem exists_bind_eq_ok_iff {ε : Type} {e : Except ε β} {f : β → Except ε α} :
    (∃ x, (e >>= f) = .ok x) ↔ ∃ y, e = .ok y ∧ ∃ x, f y = .ok x := by
  cases e <;> simp

/-- A reader that says what it found succeeds on the values that a schema allows. -/
def AcceptedBy (schema : Schema) (f : Json → Except JsonError α) : Prop :=
  ∀ v, v.keysDistinct → ((∃ x, f v = .ok x) ↔ schema v)

theorem ReadBy.ofUnion {f : Json → Option α} (hf : ReadBy schema f) (union : JsonUnion) :
    AcceptedBy schema (ofUnion union f) := by
  intro v hv
  rw [← hf v hv, OperandCodec.ofUnion]
  cases f v <;> simp

theorem acceptedBy_stringOfJson : AcceptedBy text stringOfJson := by
  intro v _
  cases v <;> simp [text, stringOfJson]

/-- A step for each item succeeds where each step does. -/
theorem exists_mapM_eq_ok_iff {ε : Type} {f : β → Except ε α} {items : List β} :
    (∃ xs, items.mapM f = .ok xs) ↔ ∀ v ∈ items, ∃ x, f v = .ok x := by
  induction items with
  | nil => simp [pure, Except.pure]
  | cons v items ih =>
    rw [List.forall_mem_cons, ← ih, List.mapM_cons, exists_bind_eq_ok_iff]
    simp [exists_bind_eq_ok_iff, pure, Except.pure]

theorem acceptedBy_stringsOfJson : AcceptedBy (list text) stringsOfJson := by
  intro v hv
  cases v with
  | array items =>
    simp only [stringsOfJson, Schema.list, Json.array.injEq, exists_eq_left', exists_mapM_eq_ok_iff]
    exact forall₂_congr fun x hx => acceptedBy_stringOfJson x (keysDistinct_of_mem hv hx)
  | _ => simp [stringsOfJson, Schema.list]

variable {key : String} {f : Json → Except JsonError α} {o : Option Json}

theorem AcceptedBy.required (hf : AcceptedBy schema f) (ho : ∀ v ∈ o, v.keysDistinct) :
    (∃ x, o.mapM f = .ok (some x)) ↔ Member.Admits ⟨key, true, schema⟩ o := by
  cases o with
  | none => simp [Member.Admits, pure, Except.pure]
  | some v =>
    have hv : (∃ x, f v = .ok x) ↔ Member.Admits ⟨key, true, schema⟩ (some v) := hf v (ho v rfl)
    rw [← hv, Option.mapM_some]
    cases f v <;> simp

theorem AcceptedBy.optional (hf : AcceptedBy schema f) (ho : ∀ v ∈ o, v.keysDistinct) :
    (∃ x, o.mapM f = .ok x) ↔ Member.Admits ⟨key, false, schema⟩ o := by
  cases o with
  | none => simp [Member.Admits, pure, Except.pure]
  | some v =>
    have hv : (∃ x, f v = .ok x) ↔ Member.Admits ⟨key, false, schema⟩ (some v) := hf v (ho v rfl)
    rw [← hv, Option.mapM_some]
    cases f v <;> simp

theorem exists_finish_eq_ok_iff {d : PartialDocument} : (∃ x, d.finish = .ok x) ↔
    (∃ x, d.name = some x) ∧ (∃ x, d.operand = some x) ∧ (∃ x, d.inputs = some x) ∧
      ∃ x, d.outputs = some x := by
  have hrequire {α : Type} (name : String) (o : Option α) :
      (∃ x, PartialDocument.require name o = .ok x) ↔ ∃ x, o = some x := by
    cases o <;> simp [PartialDocument.require]
  simp [PartialDocument.finish, exists_bind_eq_ok_iff, hrequire, pure, Except.pure]

theorem requireItem_eq_ok_iff {index : Nat} {items : List Json} {x : α} :
    requireItem index f items = .ok x ↔ items[index]?.mapM f = .ok (some x) := by
  rw [requireItem, readItem]
  cases items[index]?.mapM f with
  | error e => simp
  | ok o => cases o <;> simp [throw, throwThe, MonadExceptOf.throw, pure, Except.pure]

/-- The members of a document are allowed where each of them is read. -/
theorem documentMembers_iff {name desc operand inputs outputs aliases : Option Json}
    (h : ∀ o ∈ [name, desc, operand, inputs, outputs, aliases], ∀ v ∈ o, v.keysDistinct) :
    List.Forall₂ Member.Admits (documentMembers .objectsOrArrays)
        [name, desc, operand, inputs, outputs, aliases] ↔
      (∃ x, name.mapM stringOfJson = .ok (some x)) ∧ (∃ x, desc.mapM stringOfJson = .ok x) ∧
      (∃ x, operand.mapM (ofUnion .operand OperandDocument.ofJson?) = .ok (some x)) ∧
      (∃ x, inputs.mapM (ofUnion .inputs InputsDocument.ofJson?) = .ok (some x)) ∧
      (∃ x, outputs.mapM (ofUnion .outputs OutputsDocument.ofJson?) = .ok (some x)) ∧
      ∃ x, aliases.mapM stringsOfJson = .ok x := by
  simp only [List.forall_mem_cons] at h
  obtain ⟨hname, hdesc, hoperand, hinputs, houtputs, haliases, -⟩ := h
  simp only [documentMembers, List.forall₂_cons, List.forall₂_nil_right_iff, and_true]
  exact and_congr (acceptedBy_stringOfJson.required hname).symm <|
    and_congr (acceptedBy_stringOfJson.optional hdesc).symm <|
    and_congr ((readBy_operand.ofUnion _).required hoperand).symm <|
    and_congr ((readBy_inputs.ofUnion _).required hinputs).symm <|
    and_congr ((readBy_outputs.ofUnion _).required houtputs).symm
      (acceptedBy_stringsOfJson.optional haliases).symm

theorem acceptedBy_document : AcceptedBy (document .objectsOrArrays) Document.ofJson := by
  intro v hv
  cases v with
  | object fs =>
    have hdistinct := keysDistinct_of_fields? hv
      (fields?_object hv ((documentMembers .objectsOrArrays).map (·.key)))
    rw [document, record_object_iff]
    refine Iff.trans ?_ (documentMembers_iff hdistinct).symm
    simp only [Document.ofJson, exists_bind_eq_ok_iff, readField, exists_finish_eq_ok_iff]
    constructor
    · rintro ⟨aliases, haliases, desc, hdesc, _, hinputs, _, hname, _, hoperand, _, houtputs,
        ⟨name, rfl⟩, ⟨operand, rfl⟩, ⟨inputs, rfl⟩, outputs, rfl⟩
      exact ⟨⟨name, hname⟩, ⟨desc, hdesc⟩, ⟨operand, hoperand⟩, ⟨inputs, hinputs⟩,
        ⟨outputs, houtputs⟩, aliases, haliases⟩
    · rintro ⟨⟨name, hname⟩, ⟨desc, hdesc⟩, ⟨operand, hoperand⟩, ⟨inputs, hinputs⟩,
        ⟨outputs, houtputs⟩, aliases, haliases⟩
      exact ⟨aliases, haliases, desc, hdesc, _, hinputs, _, hname, _, hoperand, _, houtputs,
        ⟨name, rfl⟩, ⟨operand, rfl⟩, ⟨inputs, rfl⟩, outputs, rfl⟩
  | array items =>
    have hdistinct := fun hlen => keysDistinct_of_fields? hv
      (fields?_array ((documentMembers .objectsOrArrays).map (·.key)) hlen)
    rw [document, record_array_iff]
    refine Iff.trans ?_ (and_congr_right fun hlen => (documentMembers_iff (hdistinct hlen)).symm)
    simp only [Document.ofJson, exists_bind_eq_ok_iff, requireItem_eq_ok_iff, readItem]
    constructor
    · rintro ⟨name, hname, desc, hdesc, operand, hoperand, inputs, hinputs, outputs, houtputs,
        aliases, haliases, d, hd⟩
      refine ⟨Nat.le_of_not_lt fun hlt : 6 < items.length => ?_, ⟨name, hname⟩, ⟨desc, hdesc⟩,
        ⟨operand, hoperand⟩, ⟨inputs, hinputs⟩, ⟨outputs, houtputs⟩, aliases, haliases⟩
      rw [if_pos hlt] at hd
      cases hd
    · rintro ⟨hlen, ⟨name, hname⟩, ⟨desc, hdesc⟩, ⟨operand, hoperand⟩, ⟨inputs, hinputs⟩,
        ⟨outputs, houtputs⟩, aliases, haliases⟩
      refine ⟨name, hname, desc, hdesc, operand, hoperand, inputs, hinputs, outputs, houtputs,
        aliases, haliases, ⟨name, desc.getD "", operand, inputs, outputs, aliases.getD []⟩, ?_⟩
      have hnot : ¬ 6 < items.length := Nat.not_lt.2 hlen
      rw [if_neg hnot]
      rfl
  | _ => exact ⟨nofun, nofun⟩

end Documents

end Readers

/-! ## Records written as objects -/

section Objects

variable {form : RecordForm} {v : Json}

/-- What stands for one member stands for the other. -/
def Member.Within (m m' : Member) : Prop :=
  m.key = m'.key ∧ ∀ o, m.Admits o → m'.Admits o

theorem Member.Within.refl (m : Member) : m.Within m :=
  ⟨rfl, fun _ => id⟩

theorem Member.within_of_imp {key : String} {required : Bool} {schema schema' : Schema}
    (h : ∀ v, schema v → schema' v) :
    Member.Within ⟨key, required, schema⟩ ⟨key, required, schema'⟩ := by
  refine ⟨rfl, fun o => ?_⟩
  cases o with
  | none => exact id
  | some v => exact h v

theorem list_imp {schema schema' : Schema} (h : ∀ v, schema v → schema' v) :
    list schema v → list schema' v
  | ⟨items, hv, hitems⟩ => ⟨items, hv, fun x hx => h x (hitems x hx)⟩

theorem record_of_objects {members members' : List Member}
    (h : List.Forall₂ Member.Within members members') (hv : record .objects members v) :
    record form members' v := by
  cases hv with
  | array hform => cases hform
  | object hfields =>
    refine .object ?_
    induction h with
    | nil => exact List.forall_mem_nil _
    | cons hm _ ih =>
      obtain ⟨hfield, hfields⟩ := List.forall_mem_cons.1 hfields
      exact List.forall_mem_cons.2 ⟨hm.1 ▸ hm.2 _ hfield, ih hfields⟩

theorem argument_of_objects (h : argument .objects v) : argument form v :=
  record_of_objects (List.forall₂_same.2 fun _ _ => .refl _) h

theorem parameter_of_objects (h : parameter .objects v) : parameter form v :=
  record_of_objects (List.forall₂_same.2 fun _ _ => .refl _) h

theorem operand_of_objects (h : operand .objects v) : operand form v :=
  h.imp_right (list_imp fun _ => argument_of_objects)

theorem inputs_of_objects (h : inputs .objects v) : inputs form v :=
  h.imp_right (record_of_objects
    (.cons (Member.within_of_imp fun _ => list_imp fun _ => parameter_of_objects)
      (List.forall₂_same.2 fun _ _ => .refl _)))

theorem outputs_of_objects (h : outputs .objects v) : outputs form v :=
  h.imp_right (record_of_objects (List.forall₂_same.2 fun _ _ => .refl _))

/-- What the schema documents is allowed in either form. -/
theorem document_of_objects (h : document .objects v) : document form v :=
  record_of_objects (.cons (.refl _) <| .cons (.refl _) <|
    .cons (Member.within_of_imp fun _ => operand_of_objects) <|
    .cons (Member.within_of_imp fun _ => inputs_of_objects) <|
    .cons (Member.within_of_imp fun _ => outputs_of_objects) <| .cons (.refl _) .nil) h

end Objects

end Schema

namespace OpcodeTable

/-- **A value is read as a document exactly where the schema allows it** with each record written as
an object or as the array of its members; any other value is refused as invalid metadata of the
opcode that it names. What the schema documents, which is records as objects, is among the values
that are read. The values of a text are such that keys are distinct (`Json.keysDistinct_lastWins`).
-/
theorem documentOfItem_by_schema {v : Json} (hv : v.keysDistinct) :
    ((∃ d, documentOfItem v = .ok d) ↔ Schema.document .objectsOrArrays v) ∧
    (¬ Schema.document .objectsOrArrays v → ∃ cause,
      documentOfItem v = .error (.invalidMetadata (Document.nameOf v) (.unreadable cause))) ∧
    (Schema.document .objects v → ∃ d, documentOfItem v = .ok d) := by
  have haccepted : (∃ d, documentOfItem v = .ok d) ↔ Schema.document .objectsOrArrays v := by
    rw [← Schema.acceptedBy_document v hv]
    simp only [documentOfItem, mapError_eq_ok_iff]
  refine ⟨haccepted, fun hnot => ?_, fun h => haccepted.2 (Schema.document_of_objects h)⟩
  cases h : Document.ofJson v with
  | ok d => exact absurd ((Schema.acceptedBy_document v hv).1 ⟨d, h⟩) hnot
  | error cause => exact ⟨cause, by rw [documentOfItem, h]; rfl⟩

/-- A documented opcode is read: its records are objects. -/
theorem documentOfItem_by_schema_of_objects :
    let v : Json := .object [("name", .string "call"),
      ("operand", .array [.object [("name", .string "inputs"),
        ("bits", .array [.number (.integer 0), .number (.integer 3)])]]),
      ("inputs", .number (.integer 0)), ("outputs", .number (.integer 1))]
    v.keysDistinct ∧ Schema.document .objects v ∧ ∃ d, documentOfItem v = .ok d := by
  intro v
  have hv : v.keysDistinct := by decide +kernel
  have hzero : Schema.inputs .objects (.number (.integer 0)) := .inl ⟨0, by decide, rfl⟩
  have hone : Schema.outputs .objects (.number (.integer 1)) := .inl ⟨1, by decide, rfl⟩
  have hbits : Schema.bits (.array [.number (.integer 0), .number (.integer 3)]) :=
    ⟨_, _, rfl, ⟨0, by decide, rfl⟩, ⟨3, by decide, rfl⟩⟩
  have hargument : Schema.argument .objects (.object [("name", .string "inputs"),
      ("bits", .array [.number (.integer 0), .number (.integer 3)])]) :=
    .object (by simp [Json.field?, Schema.Member.Admits, Schema.text, hbits])
  have hoperand : Schema.operand .objects (.array [.object [("name", .string "inputs"),
      ("bits", .array [.number (.integer 0), .number (.integer 3)])]]) :=
    .inr ⟨_, rfl, by simpa using hargument⟩
  have hschema : Schema.document .objects v :=
    .object (by simp [Schema.documentMembers, Json.field?, Schema.Member.Admits, Schema.text,
      hzero, hone, hoperand])
  exact ⟨hv, hschema, (documentOfItem_by_schema hv).2.2 hschema⟩

end OpcodeTable

namespace Schema

/-- The outline of what is documented: what is an object, and where a number may stand for it. -/
def outline : Schema :=
  let object : Schema := fun v => ∃ fields, v = .object fields
  record .objects [
    ⟨"operand", true, either zero (list object)⟩,
    ⟨"inputs", true, either zero (record .objects [⟨"parameters", false, list object⟩])⟩,
    ⟨"outputs", true, either (fun v => ∃ n : Nat, v = .number (.integer n)) object⟩]

end Schema

/-- Inputs written as an array are read as inputs of which nothing is declared. -/
theorem OpcodeTable.array_as_inputs_not_refused :
    let v : Json := .object [("name", .string "op"), ("operand", .number (.integer 0)),
      ("inputs", .array []), ("outputs", .number (.integer 1))]
    v.keysDistinct ∧
      documentOfItem v = .ok ⟨"op", "", .zero, .declared [] none none, .count 1, []⟩ ∧
      ¬ Schema.outline v := by
  refine ⟨by decide +kernel, by decide +kernel, fun | .object h => ?_⟩
  obtain ⟨_, _, hzero⟩ | hrecord : Schema.either Schema.zero _ (.array []) :=
    h _ (List.mem_cons_of_mem _ List.mem_cons_self)
  · cases hzero
  · cases hrecord with
    | array hform => cases hform

end OperandCodec
