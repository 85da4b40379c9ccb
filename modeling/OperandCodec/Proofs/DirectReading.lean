import OperandCodec.Document.Fields
import OperandCodec.Proofs.Json.Keys
import OperandCodec.Table
/-!
# Reading a document straight from its text

A document can be read straight from its text, field by field in text
order, or from the JSON value that the text holds. The two agree
(`direct_reading_agrees`): a field is read from its stretch of text as it is
from its value (`ReadsAs`), the stretches are the same on both ways, and of
fields with distinct keys the order makes no difference.
-/

namespace OperandCodec

open Json

/-! ## Fields -/

section Fields

variable {α : Type} {s t : List Char}

/-- A reader of a text makes of it what is made of the value that stands there. -/
def ReadsAs (levels : Nat) (read : Reader α) (f : Json → Except JsonError α) : Prop :=
  ∀ s x t, Gives (read s) x t ↔ ∃ v, Gives (value levels s) v t ∧ f v = .ok x

theorem gives_text_iff {x : String} : Gives (Document.text s) x t ↔
    ∃ q, (skipSpace s).1 = '"' :: q ∧ Gives (stringBody q) x t := by
  unfold Document.text
  generalize skipSpace s = w
  obtain ⟨_ | ⟨c, w⟩, hw⟩ := w
  · simpa using not_gives_error
  · by_cases hc : c = '"'
    · subst hc
      simpa using gives_widen_iff
    · simpa [hc] using not_gives_error

/-- A text is read as the string that stands there. -/
theorem readsAs_text (levels : Nat) : ReadsAs levels Document.text stringOfJson := by
  intro s x t
  rw [gives_text_iff]
  simp only [gives_value_iff]
  constructor
  · rintro ⟨q, hs, hx⟩
    rw [hs]
    exact ⟨.string x, .string hx, rfl⟩
  · rintro ⟨v, hv, hx⟩
    generalize hs : (skipSpace s).1 = w at hv
    cases hv with
    | string hx' =>
      cases hx
      exact ⟨_, rfl, hx'⟩
    | _ => cases hx

theorem gives_texts_iff {xs : List String} : Gives (Document.texts s) xs t ↔
    ∃ q, (skipSpace s).1 = '[' :: q ∧ Gives (elements Document.text q) xs t := by
  unfold Document.texts
  generalize skipSpace s = w
  obtain ⟨_ | ⟨c, w⟩, hw⟩ := w
  · simpa using not_gives_error
  · by_cases hc : c = '['
    · subst hc
      simpa using gives_widen_iff
    · simpa [hc] using not_gives_error

/-- Steps that go through another list come to it. -/
theorem forall₂_exists_iff {α β γ : Type} {R : α → β → Prop} {S : β → γ → Prop} {as : List α}
    {cs : List γ} : List.Forall₂ (fun a c => ∃ b, R a b ∧ S b c) as cs ↔
      ∃ bs, List.Forall₂ R as bs ∧ List.Forall₂ S bs cs := by
  constructor
  · intro h
    induction h with
    | nil => exact ⟨[], .nil, .nil⟩
    | cons h _ ih =>
      obtain ⟨b, hR, hS⟩ := h
      obtain ⟨bs, hRs, hSs⟩ := ih
      exact ⟨b :: bs, .cons hR hRs, .cons hS hSs⟩
  · rintro ⟨bs, hR, hS⟩
    induction hR generalizing cs with
    | nil =>
      cases hS
      exact .nil
    | cons hR _ ih =>
      cases hS with
      | cons hS hSs => exact .cons ⟨_, hR, hS⟩ (ih hSs)

/-- Elements are read as the items that stand there. -/
theorem gives_elements_of_readsAs {β : Type} {levels : Nat} {read : Reader β}
    {f : Json → Except JsonError β} (hread : ReadsAs levels read f) {q : List Char} {xs : List β} :
    Gives (elements read q) xs t ↔
      ∃ items, Gives (elements (value levels) q) items t ∧ items.mapM f = .ok xs := by
  simp only [gives_elements_iff, mapM_eq_ok_iff]
  have hspans : ∀ ps, List.Forall₂ (Span.Gives read) ps xs ↔ ∃ items,
      List.Forall₂ (Span.Gives (value levels)) ps items ∧
        List.Forall₂ (fun v x => f v = .ok x) items xs := by
    intro ps
    have hspan : Span.Gives read = fun p x => ∃ v, Span.Gives (value levels) p v ∧ f v = .ok x :=
      funext₂ fun p x => propext (hread p.start x p.rest)
    rw [hspan, forall₂_exists_iff]
  simp only [hspans]
  constructor
  · rintro ⟨ps, hps, items, hitems, hxs⟩
    exact ⟨items, ⟨ps, hps, hitems⟩, hxs⟩
  · rintro ⟨items, ⟨ps, hps, hitems⟩, hxs⟩
    exact ⟨ps, hps, items, hitems, hxs⟩

/-- A list of texts is read as the array of strings that stands there. -/
theorem readsAs_texts (levels : Nat) :
    ReadsAs (levels + 1) Document.texts stringsOfJson := by
  intro s xs t
  rw [gives_texts_iff]
  simp only [gives_value_iff, gives_elements_of_readsAs (readsAs_text levels)]
  constructor
  · rintro ⟨q, hs, items, hitems, hxs⟩
    rw [hs]
    exact ⟨.array items, .array rfl hitems, hxs⟩
  · rintro ⟨v, hv, hxs⟩
    generalize hs : (skipSpace s).1 = w at hv
    cases hv with
    | array helement hitems =>
      cases helement
      exact ⟨_, rfl, _, hitems, hxs⟩
    | _ => cases hxs

/-- A value of a union is read before its shape is judged. -/
theorem readsAs_variant (union : JsonUnion) (f : Json → Option α) :
    ReadsAs Document.fieldLevels (Document.variant union f) (ofUnion union f) := by
  intro s x t
  unfold Document.variant
  rw [gives_bind_iff (C := fun v u => ofUnion union f v = .ok x ∧ u = t)]
  · constructor
    · rintro ⟨v, u, hv, hx, rfl⟩
      exact ⟨v, hv, hx⟩
    · rintro ⟨v, hv, hx⟩
      exact ⟨v, t, hv, hx, rfl⟩
  · intro v r
    refine (gives_bind_rest_iff (f := id)).trans ?_
    simp

/-- **A field that is not known yet is read from its text as it is learned from its value.** -/
theorem visit_newField_iff {read : Reader α} {f : Json → Except JsonError α}
    (hread : ReadsAs Document.fieldLevels read f) {key : String} {known : Option α}
    {set : α → PartialDocument} {d : PartialDocument} :
    (∃ r, Document.newField key known read set = .ok r ∧ Gives (r s) d t) ↔
      ∃ v, Gives (value Document.fieldLevels s) v t ∧
        PartialDocument.learnField key known f set v = .ok d := by
  unfold Document.newField PartialDocument.learnField
  split
  · simp
  · simp only [Except.ok.injEq, exists_eq_left']
    rw [gives_map_iff (g := set) fun _ _ => ⟨rfl, rfl⟩]
    simp only [hread s _ t, map_eq_ok_iff]
    constructor
    · rintro ⟨x, ⟨v, hv, hx⟩, rfl⟩
      exact ⟨v, hv, x, hx, rfl⟩
    · rintro ⟨v, hv, x, hx, rfl⟩
      exact ⟨x, ⟨v, hv, hx⟩, rfl⟩

/-- A known key is read as it is learned. -/
theorem visit_iff {key : String} (hkey : key ∈ Document.fieldNames) {d d' : PartialDocument} :
    (∃ r, Document.visit d key = .ok r ∧ Gives (r s) d' t) ↔
      ∃ v, Gives (value Document.fieldLevels s) v t ∧ d.learn (key, v) = .ok d' := by
  simp only [Document.fieldNames, List.mem_cons, List.not_mem_nil, or_false] at hkey
  unfold Document.visit PartialDocument.learn
  obtain rfl | rfl | rfl | rfl | rfl | rfl := hkey
  all_goals simp only
  · exact visit_newField_iff (readsAs_text _)
  · exact visit_newField_iff (readsAs_text _)
  · exact visit_newField_iff (readsAs_variant _ _)
  · exact visit_newField_iff (readsAs_variant _ _)
  · exact visit_newField_iff (readsAs_variant _ _)
  · exact visit_newField_iff (readsAs_texts _)

/-- Whatever key there is, its value is passed over as far as it is read. -/
theorem gives_skip_of_visit {key : String} {d d' : PartialDocument} {read : Reader PartialDocument}
    (hread : Document.visit d key = .ok read) (h : Gives (read s) d' t) :
    Gives (skip s) () t := by
  by_cases hkey : key ∈ Document.fieldNames
  · obtain ⟨v, hv, -⟩ := (visit_iff hkey).1 ⟨read, hread, h⟩
    exact gives_skip_of_value hv
  · have hread' : Document.visit d key = .ok fun s => (skip s).map fun p => (d, p.2) := by
      simp only [Document.fieldNames, List.mem_cons, List.not_mem_nil, or_false, not_or] at hkey
      unfold Document.visit
      split
      iterate 6 simp_all
      rfl
    cases hread.symm.trans hread'
    obtain ⟨_, h, -⟩ := (gives_map_iff (g := fun _ => d) fun _ _ => ⟨rfl, rfl⟩).1 h
    exact h

end Fields

/-! ## Objects -/

section Objects

variable {es : List Entry} {s t : List Char}

/-- **Entries with known keys are visited as their fields are learned**, one by one. -/
theorem gathers_visit_iff (hkeys : ∀ e ∈ es, e.key ∈ Document.fieldNames)
    {d p : PartialDocument} : Gathers Document.visit d es p ↔
      ∃ fs, List.Forall₂ (Entry.Gives (value Document.fieldLevels)) es fs ∧
        fs.foldlM PartialDocument.learn d = .ok p := by
  induction es generalizing d with
  | nil =>
    constructor
    · intro h
      cases h
      exact ⟨[], .nil, rfl⟩
    · rintro ⟨_, ⟨⟩, h⟩
      cases h
      exact .nil
  | cons e es ih =>
    obtain ⟨hkey, hkeys⟩ := List.forall_mem_cons.1 hkeys
    constructor
    · intro h
      cases h with
      | cons hread hvalue hgathers =>
        obtain ⟨v, hv, hlearn⟩ := (visit_iff hkey).1 ⟨_, hread, hvalue⟩
        obtain ⟨fs, hfs, hp⟩ := (ih hkeys).1 hgathers
        refine ⟨(e.key, v) :: fs, .cons ⟨rfl, hv⟩ hfs, ?_⟩
        rw [List.foldlM_cons, hlearn]
        exact hp
    · rintro ⟨_, hfs, hp⟩
      cases hfs with
      | @cons _ f _ fs hf hfs =>
        rw [List.foldlM_cons, bind_eq_ok_iff] at hp
        obtain ⟨d', hlearn, hp⟩ := hp
        obtain ⟨read, hread, hvalue⟩ := (visit_iff hkey).2
          ⟨f.2, hf.2, by rw [hf.1]; exact hlearn⟩
        exact .cons hread hvalue ((ih hkeys).2 ⟨fs, hfs, hp⟩)

theorem skipped_of_gathers_visit {d p : PartialDocument} (h : Gathers Document.visit d es p) :
    ∀ e ∈ es, Gives (skip e.start) () e.rest := by
  induction h with
  | nil => exact List.forall_mem_nil _
  | cons hread hvalue _ ih =>
    exact List.forall_mem_cons.2 ⟨gives_skip_of_visit hread hvalue, ih⟩

end Objects

/-! ## Learning -/

/-- What fields tell of one key, of which something may be known. -/
def Tells {α : Type} (key : String) (f : Json → Except JsonError α) (fs : List (String × Json))
    (known out : Option α) : Prop :=
  match field? key fs with
  | none => out = known
  | some v => known = none ∧ ∃ x, f v = .ok x ∧ out = some x

section Learning

variable {α : Type} {f : Json → Except JsonError α} {key : String} {fs : List (String × Json)}
  {known out : Option α} {v : Json}

theorem tells_cons_of_ne {k : String} (h : k ≠ key) :
    Tells key f ((k, v) :: fs) known out ↔ Tells key f fs known out := by
  simp [Tells, field?, h]

theorem tells_cons_self (h : key ∉ fs.map (·.1)) : Tells key f ((key, v) :: fs) known out ↔
    known = none ∧ ∃ x, f v = .ok x ∧ Tells key f fs (some x) out := by
  have hnone : field? key fs = none := by
    rw [field?, Option.map_eq_none_iff, List.find?_eq_none]
    intro g hg hkey
    exact h (List.mem_map.2 ⟨g, hg, by simpa using hkey⟩)
  have hself : field? key ((key, v) :: fs) = some v := by
    simp [field?]
  simp only [Tells, hself, hnone]

/-- A field that is learned was not known, and is what it is read as. -/
theorem exists_learnField_iff {set : α → PartialDocument} {C : PartialDocument → Prop} :
    (∃ d, PartialDocument.learnField key known f set v = .ok d ∧ C d) ↔
      known = none ∧ ∃ x, f v = .ok x ∧ C (set x) := by
  unfold PartialDocument.learnField
  cases known with
  | some y => simp
  | none =>
    simp only [Option.isSome_none, Bool.false_eq_true, if_false, map_eq_ok_iff, true_and]
    constructor
    · rintro ⟨_, ⟨x, hx, rfl⟩, hC⟩
      exact ⟨x, hx, hC⟩
    · rintro ⟨x, hx, hC⟩
      exact ⟨_, ⟨x, hx, rfl⟩, hC⟩

theorem tells_none_iff : Tells key f fs none out ↔ readField key f fs = .ok out := by
  unfold Tells readField
  cases field? key fs with
  | none => simp [pure, Except.pure, eq_comm]
  | some v =>
    rw [Option.mapM_some, ← bind_pure_comp, bind_eq_ok_iff]
    simp [pure, Except.pure, eq_comm]

/-- **Of fields with distinct keys each key is learned by itself**, in whatever order they are. -/
theorem foldlM_learn_eq_ok_iff {d p : PartialDocument}
    (hkeys : ∀ k ∈ fs.map (·.1), k ∈ Document.fieldNames) (hdistinct : (fs.map (·.1)).Nodup) :
    fs.foldlM PartialDocument.learn d = .ok p ↔
      Tells "name" stringOfJson fs d.name p.name ∧ Tells "desc" stringOfJson fs d.desc p.desc ∧
      Tells "operand" (ofUnion .operand OperandDocument.ofJson?) fs d.operand p.operand ∧
      Tells "inputs" (ofUnion .inputs InputsDocument.ofJson?) fs d.inputs p.inputs ∧
      Tells "outputs" (ofUnion .outputs OutputsDocument.ofJson?) fs d.outputs p.outputs ∧
      Tells "aliases" stringsOfJson fs d.aliases p.aliases := by
  induction fs generalizing d with
  | nil =>
    obtain ⟨name, desc, operand, inputs, outputs, aliases⟩ := d
    obtain ⟨name', desc', operand', inputs', outputs', aliases'⟩ := p
    simp [Tells, field?, pure, Except.pure, eq_comm]
  | cons g fs ih =>
    obtain ⟨k, v⟩ := g
    rw [List.map_cons] at hkeys hdistinct
    obtain ⟨hkey, hkeys⟩ := List.forall_mem_cons.1 hkeys
    obtain ⟨hnotin, hdistinct⟩ := List.nodup_cons.1 hdistinct
    rw [List.foldlM_cons, bind_eq_ok_iff]
    simp only [ih hkeys hdistinct]
    simp only [Document.fieldNames, List.mem_cons, List.not_mem_nil, or_false] at hkey
    obtain rfl | rfl | rfl | rfl | rfl | rfl := hkey
    all_goals
      simp only [PartialDocument.learn, exists_learnField_iff, tells_cons_self hnotin,
        tells_cons_of_ne, ne_eq, String.reduceEq, not_false_eq_true]
      tauto

end Learning

/-! ## Texts -/

section Texts

variable {text : String} {s : List Char} {keys : List String}

/-- An object is read as a document where its entries are visited. -/
theorem Document.ofText_object_iff (hs : (skipSpace text.toList).1 = '\x7b' :: s) {d : Document} :
    Document.ofText text = .ok d ↔ ∃ es p r, Entries s es r ∧
      Gathers Document.visit PartialDocument.empty es p ∧ p.finish = .ok d ∧
        finish r = .ok () := by
  have hread : ∀ p r, (∃ es, Entries s es r ∧
      Gathers Document.visit PartialDocument.empty es p) ↔
        Gives (entries Document.visit PartialDocument.empty s) p r :=
    fun p r => gives_entries_iff.symm
  simp only [Document.ofText, hs, bind_eq_ok_iff]
  constructor
  · rintro ⟨⟨p, r⟩, hp, d', hd, _, hrest, u, hfinish, h⟩
    cases hrest
    cases h
    obtain ⟨es, hes, hgathers⟩ := (hread p r.1).2 ⟨r.2, hp⟩
    exact ⟨es, p, r.1, hes, hgathers, hd, hfinish⟩
  · rintro ⟨es, p, r, hes, hgathers, hd, hfinish⟩
    obtain ⟨hlt, hp⟩ := (hread p r).1 ⟨es, hes, hgathers⟩
    exact ⟨_, hp, d, hd, _, rfl, (), hfinish, rfl⟩

/-- The document of an object is what its fields tell of one. -/
theorem Document.ofJson_object_iff {fs : List (String × Json)} {d : Document}
    (hkeys : ∀ k ∈ fs.map (·.1), k ∈ Document.fieldNames) (hdistinct : (fs.map (·.1)).Nodup) :
    Document.ofJson (.object fs) = .ok d ↔
      ∃ p, fs.foldlM PartialDocument.learn PartialDocument.empty = .ok p ∧ p.finish = .ok d := by
  simp only [foldlM_learn_eq_ok_iff hkeys hdistinct, PartialDocument.empty, tells_none_iff]
  simp only [Document.ofJson, bind_eq_ok_iff]
  constructor
  · rintro ⟨aliases, haliases, desc, hdesc, inputs, hinputs, name, hname, operand, hoperand,
      outputs, houtputs, h⟩
    exact ⟨_, ⟨hname, hdesc, hoperand, hinputs, houtputs, haliases⟩, h⟩
  · rintro ⟨p, ⟨hname, hdesc, hoperand, hinputs, houtputs, haliases⟩, h⟩
    exact ⟨_, haliases, _, hdesc, _, hinputs, _, hname, _, hoperand, _, houtputs, h⟩

/-- **Read straight from its text, an object with known keys gives the document of its fields.** -/
theorem Document.ofText_iff_learn (hobject : objectKeys? text = some keys)
    (hkeys : ∀ k ∈ keys, k ∈ Document.fieldNames) {d : Document} :
    Document.ofText text = .ok d ↔ ∃ fs, Json.ofText text = .ok (.object fs) ∧
      ∃ p, fs.foldlM PartialDocument.learn PartialDocument.empty = .ok p ∧ p.finish = .ok d := by
  obtain ⟨s, r, hs, hgather, -⟩ := objectKeys?_eq_some_iff.1 hobject
  have hknown : ∀ es t, Entries s es t → (∀ e ∈ es, Gives (skip e.start) () e.rest) →
      ∀ e ∈ es, e.key ∈ Document.fieldNames := by
    intro es t hes hskipped e he
    obtain ⟨rfl, -⟩ := keys_eq_of_skipped hgather hes hskipped
    exact hkeys _ (List.mem_map_of_mem he)
  rw [Document.ofText_object_iff hs]
  simp only [Json.ofText_object_iff hs]
  constructor
  · rintro ⟨es, p, t, hes, hgathers, hd, hfinish⟩
    have hes' := hknown es t hes (skipped_of_gathers_visit hgathers)
    obtain ⟨fs, hfs, hp⟩ := (gathers_visit_iff hes').1 hgathers
    exact ⟨fs, ⟨fs, es, t, rfl, hes, hfs, hfinish⟩, p, hp, hd⟩
  · rintro ⟨fs, ⟨_, es, t, hfields, hes, hfs, hfinish⟩, p, hp, hd⟩
    cases hfields
    have hes' := hknown es t hes (skipped_of_fields hfs)
    exact ⟨es, p, t, hes, (gathers_visit_iff hes').2 ⟨fs, hfs, hp⟩, hd, hfinish⟩

theorem OpcodeTable.documentsOfText_object_iff (hs : (skipSpace text.toList).1 = '\x7b' :: s)
    (hdistinct : ∀ v, Json.ofText text = .ok v → v.keysDistinct) {ds : List Document} :
    OpcodeTable.documentsOfText text = .ok ds ↔ ∃ fs, Json.ofText text = .ok (.object fs) ∧
      ∃ d, Document.ofJson (.object fs) = .ok d ∧ [d] = ds := by
  simp only [OpcodeTable.documentsOfText, bind_eq_ok_iff, mapError_eq_ok_iff]
  constructor
  · rintro ⟨v, hv, h⟩
    obtain ⟨fs, -, -, rfl, -⟩ := (Json.ofText_object_iff hs).1 hv
    rw [lastWins_of_keysDistinct _ (hdistinct _ hv)] at h
    simp only [bind_eq_ok_iff, OpcodeTable.documentOfItem, mapError_eq_ok_iff] at h
    obtain ⟨d, hd, h⟩ := h
    cases h
    exact ⟨fs, hv, d, hd, rfl⟩
  · rintro ⟨fs, hfs, d, hd, rfl⟩
    refine ⟨_, hfs, ?_⟩
    rw [lastWins_of_keysDistinct _ (hdistinct _ hfs)]
    simp only [bind_eq_ok_iff, OpcodeTable.documentOfItem, mapError_eq_ok_iff]
    exact ⟨d, hd, rfl⟩

/-- **The two ways of reading a document agree.** Of a text that is a JSON object whose keys are
keys of an opcode, and in whose value no object repeats a key, reading straight from the text gives
a document if and only if reading the value that the text holds does, and it is the same one. So the
opcode that it is converted to is the same as well, or the error of the conversion. -/
theorem direct_reading_agrees (hobject : objectKeys? text = some keys)
    (hkeys : ∀ k ∈ keys, k ∈ Document.fieldNames)
    (hdistinct : ∀ v, Json.ofText text = .ok v → v.keysDistinct) :
    (∀ d, Document.ofText text = .ok d ↔ OpcodeTable.documentsOfText text = .ok [d]) ∧
    (∀ ds, OpcodeTable.documentsOfText text = .ok ds → ∃ d, ds = [d]) ∧
    ∀ d, Document.ofText text = .ok d →
      afresh (Opcode.ofText text) = afresh d.convert ∧
      afresh (OpcodeTable.opcodesOfText text) = (afresh d.convert).map fun op => [op] := by
  obtain ⟨s, -, hs, -⟩ := objectKeys?_eq_some_iff.1 hobject
  -- the fields that stand there have the keys of the text, each of them once
  have hfields : ∀ {fs}, Json.ofText text = .ok (.object fs) →
      (∀ k ∈ fs.map (·.1), k ∈ Document.fieldNames) ∧ (fs.map (·.1)).Nodup := by
    intro fs hfs
    have hsame := Option.some.inj ((objectKeys?_of_ofText hfs).symm.trans hobject)
    exact ⟨hsame ▸ hkeys, nodup_keys_of_fieldsDistinct (hdistinct _ hfs)⟩
  have hagree : ∀ d, Document.ofText text = .ok d ↔
      OpcodeTable.documentsOfText text = .ok [d] := by
    intro d
    rw [Document.ofText_iff_learn hobject hkeys,
      OpcodeTable.documentsOfText_object_iff hs hdistinct]
    refine exists_congr fun fs => and_congr_right fun hfs => ?_
    rw [← Document.ofJson_object_iff (hfields hfs).1 (hfields hfs).2]
    simp
  refine ⟨hagree, fun ds hds => ?_, fun d hd => ⟨?_, ?_⟩⟩
  · obtain ⟨fs, -, d, -, rfl⟩ := (OpcodeTable.documentsOfText_object_iff hs hdistinct).1 hds
    exact ⟨d, rfl⟩
  · simp only [Opcode.ofText, afresh_bind, afresh_ofExcept, hd]
    rfl
  · simp only [OpcodeTable.opcodesOfText, afresh_bind, afresh_ofExcept, (hagree d).1 hd, ok_bind,
      afresh_mapM, List.mapM_cons, List.mapM_nil]
    cases afresh d.convert <;> rfl

end Texts

/-- A text whose fields stand in no order of the schema, with an argument that is written as an
array. -/
theorem direct_reading_agrees_of_push :
    let text := "\x7b\"outputs\": 1, \"inputs\": 0, \"operand\": [[[0, 3], \"id\"]], " ++
      "\"name\": \"push\"\x7d"
    let d : Document := ⟨"push", "", .arguments [⟨(0, 3), "id", none, none, none⟩], .zero,
      .count 1, []⟩
    Document.ofText text = .ok d ∧ OpcodeTable.documentsOfText text = .ok [d] ∧
      afresh (Opcode.ofText text) = afresh d.convert := by
  intro text d
  have hobject : objectKeys? text = some ["outputs", "inputs", "operand", "name"] := by
    decide +kernel
  have hkeys : ∀ k ∈ ["outputs", "inputs", "operand", "name"], k ∈ Document.fieldNames := by
    decide
  have hall : (Json.ofText text).toOption.all Json.keysDistinct := by
    decide +kernel
  have hdistinct : ∀ v, Json.ofText text = .ok v → v.keysDistinct := by
    intro v hv
    rw [hv] at hall
    exact hall
  have hd : Document.ofText text = .ok d := by
    decide +kernel
  obtain ⟨hagree, -, hconvert⟩ := direct_reading_agrees hobject hkeys hdistinct
  exact ⟨hd, (hagree d).1 hd, (hconvert d hd).1⟩

end OperandCodec
