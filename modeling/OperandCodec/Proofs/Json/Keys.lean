import OperandCodec.Json.Object
import OperandCodec.Proofs.Json.Skipping
/-!
# Keys of objects

The keys of a text are those of the object that it is read as, if it is
read as one (`objectKeys?_of_ofText`): its entries take the same stretches
whether their values are read or passed over. And when the last of repeated
keys wins no object repeats a key (`keysDistinct_lastWins`), and a value in
which none did is not changed (`lastWins_of_keysDistinct`).
-/

namespace OperandCodec
namespace Json

section Objects

variable {es : List Entry} {s t : List Char}

/-- The keys of an object are gathered where all values can be passed over. -/
theorem gathers_gatherKeys (h : ∀ e ∈ es, Gives (skip e.start) () e.rest) (keys : List String) :
    Gathers gatherKeys keys es (keys ++ es.map (·.key)) := by
  induction es generalizing keys with
  | nil =>
    rw [List.map_nil, List.append_nil]
    exact .nil
  | cons e es ih =>
    obtain ⟨he, h⟩ := List.forall_mem_cons.1 h
    refine .cons rfl ((gives_map_iff (g := fun _ => keys ++ [e.key])
      fun _ _ => ⟨rfl, rfl⟩).2 ⟨(), he, rfl⟩) ?_
    have hkeys : keys ++ (e :: es).map (·.key) = keys ++ [e.key] ++ es.map (·.key) := by
      rw [List.map_cons, List.append_assoc, List.singleton_append]
    rw [hkeys]
    exact ih h _

theorem skipped_of_fields {levels : Nat} {fs : List (String × Json)}
    (h : List.Forall₂ (Entry.Gives (value levels)) es fs) :
    ∀ e ∈ es, Gives (skip e.start) () e.rest := by
  induction h with
  | nil => exact List.forall_mem_nil _
  | cons hf _ ih => exact List.forall_mem_cons.2 ⟨gives_skip_of_value hf.2, ih⟩

/-- **The keys of an object are the same**, however its values are gone through. -/
theorem keys_eq_of_skipped {keys : List String} {r : List Char}
    (hkeys : Gives (entries gatherKeys [] s) keys r) (hes : Entries s es t)
    (h : ∀ e ∈ es, Gives (skip e.start) () e.rest) : es.map (·.key) = keys ∧ t = r :=
  (gives_entries_iff.2 ⟨es, hes, gathers_gatherKeys h []⟩).unique hkeys

/-- The keys of fields are those of their entries. -/
theorem keys_of_fields {field : Reader Json} {fs : List (String × Json)}
    (h : List.Forall₂ (Entry.Gives field) es fs) : fs.map (·.1) = es.map (·.key) := by
  induction h with
  | nil => rfl
  | cons hf _ ih => rw [List.map_cons, List.map_cons, ih, hf.1]

theorem objectKeys?_eq_some_iff {text : String} {keys : List String} :
    objectKeys? text = some keys ↔ ∃ s r, (skipSpace text.toList).1 = '\x7b' :: s ∧
      Gives (entries gatherKeys [] s) keys r ∧ finish r = .ok () := by
  unfold objectKeys?
  constructor
  · intro h
    split at h
    · rename_i s hs
      split at h
      · rename_i keys' r hr
        cases hfinish : finish r.1 with
        | error e =>
          rw [hfinish] at h
          cases h
        | ok u =>
          rw [hfinish] at h
          cases h
          exact ⟨s, r.1, hs, ⟨r.2, hr⟩, hfinish⟩
      · cases h
    · cases h
  · rintro ⟨s, r, hs, ⟨hlt, hr⟩, hfinish⟩
    simp only [hs, hr, hfinish]
    rfl

end Objects

section Texts

variable {text : String} {s : List Char}

theorem ofText_eq_ok_iff {v : Json} : ofText text = .ok v ↔
    ∃ r, Gives (value maxLevels text.toList) v r ∧ finish r = .ok () := by
  simp only [Json.ofText, bind_eq_ok_iff]
  constructor
  · rintro ⟨⟨v', r⟩, hv, u, hfinish, h⟩
    cases h
    exact ⟨r.1, ⟨r.2, hv⟩, hfinish⟩
  · rintro ⟨r, ⟨hlt, hv⟩, hfinish⟩
    exact ⟨_, hv, (), hfinish, rfl⟩

/-- An object is read as a value where its entries are read as fields. -/
theorem ofText_object_iff (hs : (skipSpace text.toList).1 = '\x7b' :: s) {v : Json} :
    ofText text = .ok v ↔ ∃ fs es r, .object fs = v ∧ Entries s es r ∧
      List.Forall₂ (Entry.Gives (value (maxLevels - 1))) es fs ∧ finish r = .ok () := by
  simp only [ofText_eq_ok_iff, gives_value_iff, hs]
  constructor
  · rintro ⟨r, hv, hfinish⟩
    cases hv with
    | object hfield hfs =>
      cases hfield
      obtain ⟨es, hes, hgathers⟩ := gives_entries_iff.1 hfs
      obtain ⟨gs, rfl, hgs⟩ := gathers_collect_iff.1 hgathers
      exact ⟨_, es, r, rfl, hes, hgs, hfinish⟩
    | number hc => exact absurd hc (by decide)
  · rintro ⟨fs, es, r, rfl, hes, hfs, hfinish⟩
    exact ⟨r, .object rfl (gives_entries_iff.2 ⟨es, hes, gathers_collect_iff.2 ⟨fs, rfl, hfs⟩⟩),
      hfinish⟩

/-- **A text that is read as an object has the keys of the object.** -/
theorem objectKeys?_of_ofText {fs : List (String × Json)} (h : ofText text = .ok (.object fs)) :
    objectKeys? text = some (fs.map (·.1)) := by
  obtain ⟨s, hs⟩ : ∃ s, (skipSpace text.toList).1 = '\x7b' :: s := by
    obtain ⟨r, hv, -⟩ := ofText_eq_ok_iff.1 h
    rw [gives_value_iff] at hv
    generalize hs : (skipSpace text.toList).1 = w at hv
    cases hv
    exact ⟨_, rfl⟩
  obtain ⟨_, es, r, hvalue, hes, hfs, hfinish⟩ := (ofText_object_iff hs).1 h
  cases hvalue
  rw [objectKeys?_eq_some_iff, keys_of_fields hfs]
  exact ⟨s, r, hs, gives_entries_iff.2 ⟨es, hes, gathers_gatherKeys (skipped_of_fields hfs) []⟩,
    hfinish⟩

end Texts

/-! ## Values whose keys are distinct -/

mutual
/-- A value without repeated keys is as it is when the last of repeated keys wins. -/
theorem lastWins_of_keysDistinct : ∀ v : Json, v.keysDistinct → v.lastWins = v
  | .null, _ | .bool _, _ | .number _, _ | .string _, _ => rfl
  | .array items, h => congrArg Json.array (lastWinsItems_of_itemsDistinct items h)
  | .object fields, h => congrArg Json.object (lastWinsFields_of_fieldsDistinct fields h)

theorem lastWinsItems_of_itemsDistinct :
    ∀ items : List Json, itemsDistinct items → lastWinsItems items = items
  | [], _ => rfl
  | v :: vs, h => by
    simp only [itemsDistinct, Bool.and_eq_true] at h
    rw [lastWinsItems, lastWins_of_keysDistinct v h.1, lastWinsItems_of_itemsDistinct vs h.2]

theorem lastWinsFields_of_fieldsDistinct :
    ∀ fields : List (String × Json), fieldsDistinct fields → lastWinsFields fields = fields
  | [], _ => rfl
  | (k, v) :: fs, h => by
    simp only [fieldsDistinct, Bool.and_eq_true, Bool.not_eq_true'] at h
    rw [lastWinsFields, h.1.1, lastWins_of_keysDistinct v h.1.2,
      lastWinsFields_of_fieldsDistinct fs h.2]
    rfl
end

/-- No key is left that was not there. -/
theorem any_key_of_lastWinsFields {k : String} :
    ∀ fields : List (String × Json), (lastWinsFields fields).any (·.1 == k) →
      fields.any (·.1 == k)
  | [], h => h
  | (k', v) :: fs, h => by
    rw [lastWinsFields] at h
    split at h
    · exact List.any_cons ▸ Bool.or_eq_true_iff.2 (.inr (any_key_of_lastWinsFields fs h))
    · rw [List.any_cons, Bool.or_eq_true] at h ⊢
      exact h.imp_right (any_key_of_lastWinsFields fs)

mutual
/-- **Keys are distinct at every depth** when the last of repeated keys wins. -/
theorem keysDistinct_lastWins : ∀ v : Json, v.lastWins.keysDistinct
  | .null | .bool _ | .number _ | .string _ => rfl
  | .array items => itemsDistinct_lastWinsItems items
  | .object fields => fieldsDistinct_lastWinsFields fields

theorem itemsDistinct_lastWinsItems : ∀ items : List Json, itemsDistinct (lastWinsItems items)
  | [] => rfl
  | v :: vs => by
    rw [lastWinsItems, itemsDistinct, Bool.and_eq_true]
    exact ⟨keysDistinct_lastWins v, itemsDistinct_lastWinsItems vs⟩

theorem fieldsDistinct_lastWinsFields :
    ∀ fields : List (String × Json), fieldsDistinct (lastWinsFields fields)
  | [] => rfl
  | (k, v) :: fs => by
    rw [lastWinsFields]
    split
    · exact fieldsDistinct_lastWinsFields fs
    · rename_i hkey
      simp only [fieldsDistinct, Bool.and_eq_true, Bool.not_eq_true']
      exact ⟨⟨Bool.eq_false_iff.2 fun h => hkey (any_key_of_lastWinsFields fs h),
        keysDistinct_lastWins v⟩, fieldsDistinct_lastWinsFields fs⟩
end

/-- Keys are distinct in what a value is made of. -/
theorem keysDistinct_of_mem {items : List Json} (h : itemsDistinct items) {v : Json}
    (hv : v ∈ items) : v.keysDistinct := by
  induction items with
  | nil => cases hv
  | cons x items ih =>
    simp only [itemsDistinct, Bool.and_eq_true] at h
    rcases List.mem_cons.1 hv with rfl | hv
    · exact h.1
    · exact ih h.2 hv

theorem keysDistinct_of_field {fs : List (String × Json)} (h : fieldsDistinct fs)
    {f : String × Json} (hf : f ∈ fs) : f.2.keysDistinct := by
  induction fs with
  | nil => cases hf
  | cons g fs ih =>
    obtain ⟨k, v⟩ := g
    simp only [fieldsDistinct, Bool.and_eq_true] at h
    rcases List.mem_cons.1 hf with rfl | hf
    · exact h.1.2
    · exact ih h.2 hf

theorem nodup_keys_of_fieldsDistinct {fs : List (String × Json)} (h : fieldsDistinct fs) :
    (fs.map (·.1)).Nodup := by
  induction fs with
  | nil => exact List.nodup_nil
  | cons f fs ih =>
    obtain ⟨k, v⟩ := f
    simp only [fieldsDistinct, Bool.and_eq_true, Bool.not_eq_true'] at h
    refine List.nodup_cons.2 ⟨fun hmem => ?_, ih h.2⟩
    obtain ⟨g, hg, hkey⟩ := List.mem_map.1 hmem
    simpa [hkey] using List.any_eq_false.1 h.1.1 g hg

end Json
end OperandCodec
