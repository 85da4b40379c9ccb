import OperandCodec.Proofs.CacheTransparency
import OperandCodec.Proofs.FirstFailure
/-!
# Loading item by item

A table is loaded in three passes: each item is read as a document, each
document is converted, and the opcodes are put together. What comes of a
text is therefore known from its items, each of them by itself (`Loads`): a
pass starts where the one before it has succeeded with every item, so an
item that is no document counts before a document that does not convert, and
both count before a conflict of names, wherever in the list they stand.
-/

namespace OperandCodec
namespace OpcodeTable

/-! ## Items -/

/-- The items of a value: those of an array, or the value itself. -/
def itemsOf : Json → List Json
  | .array items => items
  | v => [v]

/-- A value with another number of items than one is an array. -/
theorem eq_array_of_length_itemsOf {v : Json} (h : (itemsOf v).length ≠ 1) :
    v = .array (itemsOf v) := by
  cases v with
  | array => rfl
  | _ => exact absurd rfl h

/-- The items are read as these documents, in order. -/
def Documents (items : List Json) (docs : List Document) : Prop :=
  List.Forall₂ (fun v d => documentOfItem v = .ok d) items docs

/-- The documents are converted to these opcodes, in order, each of them by itself. -/
def Conversions (docs : List Document) (ops : List Opcode) : Prop :=
  List.Forall₂ (fun d op => afresh d.convert = .ok op) docs ops

/-- What comes of items that are loaded. -/
inductive Loads (items : List Json) : Except TableError OpcodeTable → Prop where
  /-- The opcodes of all items, in order, where they make a table. -/
  | table {docs : List Document} {ops : List Opcode} {t : OpcodeTable} : Documents items docs →
      Conversions docs ops → ofOpcodes ops = .ok t → t.opcodes = ops → Loads items (.ok t)
  /-- The first item that is no document, whatever is wrong with any other item. -/
  | unreadable {e : Error} : FirstWith (fun v e => documentOfItem v = .error e) items e →
      Loads items (.error (.refused e))
  /-- The first document that does not convert, where all items are documents. -/
  | unconverted {docs : List Document} {e : Error} : Documents items docs →
      FirstWith (fun d e => afresh d.convert = .error e) docs e → Loads items (.error (.refused e))
  /-- What keeps the opcodes from being a table, where all documents convert. -/
  | conflicting {docs : List Document} {ops : List Opcode} {e : TableError} :
      Documents items docs → Conversions docs ops → ofOpcodes ops = .error e →
      Loads items (.error e)

/-! ## Passes -/

section Passes

variable {text : String} {v : Json} {items : List Json}

/-- The documents of a text are those of its items. -/
theorem documentsOfText_eq (hv : Json.ofText text = .ok v) :
    documentsOfText text = (itemsOf v.lastWins).mapM documentOfItem := by
  rw [documentsOfText, hv]
  show (match v.lastWins with
    | .array items => items.mapM documentOfItem
    | v => do return [← documentOfItem v]) = _
  generalize v.lastWins = v
  cases v with
  | array => rfl
  | _ =>
    show _ = List.mapM documentOfItem [_]
    rw [List.mapM_cons]
    rfl

/-- The opcodes of some items, and the table that they make. -/
def ofItems (items : List Json) : Except TableError OpcodeTable := do
  let ops ← Except.mapError TableError.refused do
    let docs ← items.mapM documentOfItem
    docs.mapM fun d => afresh d.convert
  ofOpcodes ops

theorem afresh_ofText (hv : Json.ofText text = .ok v) :
    afresh (ofText text) = ofItems (itemsOf v.lastWins) := by
  simp only [ofText, load, opcodesOfText, afresh_bind, afresh_adapt, afresh_ofExcept, afresh_mapM,
    documentsOfText_eq hv]
  rfl

/-- **The passes come to what the items say.** -/
theorem ofItems_eq_iff {x : Except TableError OpcodeTable} : ofItems items = x ↔ Loads items x := by
  cases x with
  | ok t =>
    simp only [ofItems, bind_eq_ok_iff, mapError_eq_ok_iff, mapM_eq_ok_iff]
    constructor
    · rintro ⟨ops, ⟨docs, hdocs, hops⟩, ht⟩
      exact .table hdocs hops ht (opcodes_of_ofOpcodes ht)
    · rintro ⟨hdocs, hops, ht, -⟩
      exact ⟨_, ⟨_, hdocs, hops⟩, ht⟩
  | error e =>
    simp only [ofItems, bind_eq_error_iff, mapError_eq_error_iff, mapError_eq_ok_iff,
      bind_eq_ok_iff, mapM_eq_error_iff, mapM_eq_ok_iff]
    constructor
    · rintro (⟨e', hfirst | ⟨docs, hdocs, hfirst⟩, rfl⟩ | ⟨ops, ⟨docs, hdocs, hops⟩, he⟩)
      · exact .unreadable hfirst
      · exact .unconverted hdocs hfirst
      · exact .conflicting hdocs hops he
    · rintro (_ | hfirst | ⟨hdocs, hfirst⟩ | ⟨hdocs, hops, he⟩)
      · exact .inl ⟨_, .inl hfirst, rfl⟩
      · exact .inl ⟨_, .inr ⟨_, hdocs, hfirst⟩, rfl⟩
      · exact .inr ⟨_, ⟨_, hdocs, hops⟩, he⟩

end Passes

/-! ## Texts -/

/-- What a session makes of a text. -/
def outcomeIn (p : Session) (text : String) : Except TableError OpcodeTable :=
  (StateT.run (ofText text : ExceptT TableError SessionM OpcodeTable).run p).1

section Texts

variable {env : Environment} {settings : Option Settings} {events : List Event} {p : Session}
  {text : String} {v : Json}

/-- In a faithful session a text loads as its items do. -/
theorem outcomeIn_eq_iff (hp : p.Faithful) (hv : Json.ofText text = .ok v)
    {x : Except TableError OpcodeTable} :
    outcomeIn p text = x ↔ Loads (itemsOf v.lastWins) x := by
  rw [← ofItems_eq_iff, ← afresh_ofText hv, outcomeIn, (agrees_ofText text p hp).1]

/-- **A table is loaded item by item, all or nothing.** Whatever has happened in the session, an
array comes to what its items come to one by one; and an object is loaded as the array with that
single item, also where the two stand in different texts. Of entries of an object with one key the
last is what stands there. -/
theorem loads_item_by_item (hrun : Session.Run env settings events p)
    (hv : Json.ofText text = .ok v) :
    (∀ items, v.lastWins = .array items → ∀ x, outcomeIn p text = x ↔ Loads items x) ∧
    ∀ fields, v.lastWins = .object fields →
      (∀ x, outcomeIn p text = x ↔ Loads [.object fields] x) ∧
      ∀ text', Json.ofText text' = .ok (.array [v]) → outcomeIn p text' = outcomeIn p text := by
  have hp : p.Faithful := hrun.invariant.1
  refine ⟨fun items harray x => ?_, fun fields hobject => ⟨fun x => ?_, fun text' hv' => ?_⟩⟩
  · rw [outcomeIn_eq_iff hp hv, harray]
    rfl
  · rw [outcomeIn_eq_iff hp hv, hobject]
    rfl
  · have hitems : itemsOf (Json.array [v]).lastWins = itemsOf v.lastWins := by
      rw [Json.lastWins, Json.lastWinsItems, Json.lastWinsItems, hobject]
      rfl
    rw [outcomeIn_eq_iff hp hv', hitems, ← outcomeIn_eq_iff hp hv]

/-- The first item is a document that does not convert, and the second one is no document: the
second decides. -/
theorem loads_item_by_item_of_two_faults :
    let text := "[\x7b\"name\":\"a\",\"operand\":0,\"inputs\":0,\"outputs\":\x7b\x7d\x7d,0]"
    let d : Document := ⟨"a", "", .zero, .zero, .declared none none, []⟩
    let fault : Error :=
      .invalidMetadata "<unnamed>" (.unreadable (.wrongType (.number (.integer 0)) .document))
    ∃ v items, Json.ofText text = .ok v ∧ v.lastWins = .array items ∧
      items.map documentOfItem = [.ok d, .error fault] ∧ (afresh d.convert).isOk = false ∧
      outcomeIn (.start []) text = .error (.refused fault) := by
  intro text d fault
  have hcheck : (Json.ofText text).toOption.any fun v =>
      (itemsOf v.lastWins).map documentOfItem == [.ok d, .error fault] := by
    decide +kernel
  rcases hv : Json.ofText text with e | v
  · rw [hv] at hcheck
    cases hcheck
  rw [hv, Except.toOption, Option.any_some] at hcheck
  have hread : (itemsOf v.lastWins).map documentOfItem = [.ok d, .error fault] := eq_of_beq hcheck
  have harray : v.lastWins = .array (itemsOf v.lastWins) := by
    refine eq_array_of_length_itemsOf ?_
    rw [← List.length_map, hread]
    decide
  have hfirst : FirstWith (fun v e => documentOfItem v = .error e) (itemsOf v.lastWins) fault := by
    have houtcomes : FirstWith (fun x e => x = Except.error e)
        ((itemsOf v.lastWins).map documentOfItem) fault := by
      rw [hread]
      exact .later nofun (.here rfl)
    exact firstWith_map_iff.1 houtcomes
  have hconvert : (afresh d.convert).isOk = false := by
    decide +kernel
  have hrun : Session.Run [] none [] (.start []) := .start
  exact ⟨v, _, rfl, harray, hread, hconvert,
    ((loads_item_by_item hrun hv).1 _ harray _).2 (.unreadable hfirst)⟩

end Texts

end OpcodeTable
end OperandCodec
