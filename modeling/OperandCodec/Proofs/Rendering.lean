import Mathlib.Tactic.Common
import OperandCodec.Proofs.Isolation
import OperandCodec.Proofs.Names
import OperandCodec.Proofs.WrittenValues
import OperandCodec.Record.Rendered
/-!
# Rendering loses no value

A rendered text is the name of the opcode and, in brackets, the values of
its arguments with a blank between each two. Neither a name nor the text of
a value holds a bracket or a blank, so the text gives back the name and the
values (`rendered_inj`). That the values come in the order of declaration is
less plain, since reading sorts them by name: each is found again under the
name of its argument, which no other argument has. For a word that was
built these are the values asked for, so they build the word again.
-/

namespace OperandCodec

/-! ## The text -/

section Text

variable {name name' : String} {vs vs' : List Value}

/-- The text of a value holds neither the blank nor the bracket that follow it. -/
theorem separators_notMem_text (v : Value) : ' ' ∉ v.text.toList ∧ '>' ∉ v.text.toList := by
  constructor <;>
    intro h <;>
    rcases isDigit_or_minus_of_mem_text h with hdigit | hminus
  · cases hdigit
  · cases hminus
  · cases hdigit
  · cases hminus

theorem notMem_intercalate {α : Type} {sep : List α} {ls : List (List α)} {a : α} (hsep : a ∉ sep)
    (h : ∀ l ∈ ls, a ∉ l) : a ∉ sep.intercalate ls := by
  induction ls with
  | nil => exact List.not_mem_nil
  | cons l ls ih =>
    obtain ⟨hl, hls⟩ := List.forall_mem_cons.1 h
    cases ls with
    | nil => rwa [List.intercalate_singleton]
    | cons l' ls =>
      rw [List.intercalate_cons_cons, List.mem_append, List.mem_append, not_or, not_or]
      exact ⟨⟨hl, hsep⟩, ih hls⟩

theorem toList_rendered (h : vs ≠ []) : (rendered name vs).toList =
    name.toList ++ '<' :: ([' '].intercalate (vs.map (·.text.toList)) ++ ['>']) := by
  have hvs : ¬ vs.isEmpty := by simpa using h
  have hname : (toString name).toList = name.toList := rfl
  have hopen : (toString "<").toList = ['<'] := rfl
  have hclose : ">".toList = ['>'] := rfl
  have hblank : " ".toList = [' '] := rfl
  simp only [rendered, if_neg hvs, String.toList_append, String.toList_intercalate, List.map_map,
    hname, hopen, hclose, hblank, List.append_assoc, List.cons_append, List.nil_append,
    Function.comp_def]

/-- **The name ends at the bracket.** -/
theorem takeWhile_rendered (h : '<' ∉ name.toList) :
    (rendered name vs).toList.takeWhile (· != '<') = name.toList := by
  by_cases hvs : vs = []
  · subst hvs
    exact List.takeWhile_eq_self_iff.2 (bne_of_notMem h)
  · rw [toList_rendered hvs, takeWhile_ne_append h]

/-- **The values are those between the brackets.** -/
theorem bracketedValues?_rendered (h : '<' ∉ name.toList) :
    bracketedValues? (rendered name vs) = some vs := by
  by_cases hvs : vs = []
  · subst hvs
    have hdrop : (rendered name []).toList.dropWhile (· != '<') = [] :=
      List.dropWhile_eq_nil_iff.2 (bne_of_notMem h)
    rw [bracketedValues?, hdrop]
  · let texts := vs.map (·.text.toList)
    have hblank : ∀ t ∈ texts, ' ' ∉ t := List.forall_mem_map.2 fun v _ =>
      (separators_notMem_text v).1
    have hclose : ∀ t ∈ texts, '>' ∉ t := List.forall_mem_map.2 fun v _ =>
      (separators_notMem_text v).2
    have hdrop : (rendered name vs).toList.dropWhile (· != '<') =
        '<' :: ([' '].intercalate texts ++ ['>']) := by
      rw [toList_rendered hvs, dropWhile_ne_append h]
    have htake : ([' '].intercalate texts ++ ['>']).takeWhile (· != '>') =
        [' '].intercalate texts :=
      takeWhile_ne_append (notMem_intercalate (by decide) hclose) []
    have hread : texts.mapM CommandLine.readValue? = some vs := by
      rw [List.mapM_map, show CommandLine.readValue? ∘ (·.text.toList) = some from
        funext readValue?_text]
      simpa using List.mapM_pure (m := Option) (l := vs) (f := id)
    rw [bracketedValues?, hdrop]
    simp only [htake]
    rw [List.splitOn_intercalate ' ' hblank (by simpa [texts] using hvs), hread]

/-- **A rendered text gives back the name and the values.** -/
theorem rendered_inj (h : '<' ∉ name.toList) (h' : '<' ∉ name'.toList)
    (heq : rendered name vs = rendered name' vs') : name = name' ∧ vs = vs' := by
  have hnames : name.toList = name'.toList := by
    calc name.toList = (rendered name vs).toList.takeWhile (· != '<') :=
          (takeWhile_rendered h).symm
      _ = (rendered name' vs').toList.takeWhile (· != '<') := by rw [heq]
      _ = name'.toList := takeWhile_rendered h'
  have hvalues : some vs = some vs' := by
    calc some vs = bracketedValues? (rendered name vs) := (bracketedValues?_rendered h).symm
      _ = bracketedValues? (rendered name' vs') := by rw [heq]
      _ = some vs' := bracketedValues?_rendered h'
  exact ⟨String.toList_inj.1 hnames, Option.some.inj hvalues⟩

end Text

/-! ## The values -/

section Values

variable {op : Opcode} {args : Assignment} {n : Nat} {w : Word} {d : Decoded} {vs : List Value}

/-- Each item of a list has its partner in a list that goes with it. -/
theorem exists_mem_zip_of_forall₂ {α β : Type} {R : α → β → Prop} {as : List α} {bs : List β}
    (h : List.Forall₂ R as bs) {a : α} (ha : a ∈ as) : ∃ b, (a, b) ∈ as.zip bs ∧ R a b := by
  have hfst : a ∈ (as.zip bs).map (·.1) := by
    rwa [List.map_fst_zip h.length_eq.le]
  obtain ⟨⟨a, b⟩, hab, rfl⟩ := List.mem_map.1 hfst
  exact ⟨b, hab, List.forall₂_zip h hab⟩

/-- What is found for each item is what a step gives for it. -/
theorem mapM_eq_ok_filterMap {ε α β : Type} {f : α → Except ε β} {g : α → Option β} {as : List α}
    (h : ∀ a ∈ as, ∃ b, f a = .ok b ∧ g a = some b) : as.mapM f = .ok (as.filterMap g) := by
  rw [mapM_eq_ok_iff]
  induction as with
  | nil => exact .nil
  | cons a as ih =>
    obtain ⟨⟨b, hf, hg⟩, has⟩ := List.forall_mem_cons.1 h
    rw [List.filterMap_cons_some hg]
    exact .cons hf (ih has)

/-- **The values shown are those of the word**, in the order of declaration: sorted by name as they
are, each is found under the name of its argument. -/
theorem visibleValues_of_read (h : op.read w = .ok d) : op.visibleValues w = .ok (op.shown d) := by
  simp only [Record.read, bind_eq_ok_iff, mapError_eq_ok_iff] at h
  obtain ⟨pairs, hpairs, inputs, -, outputs, -, h⟩ := h
  obtain rfl := Except.ok.inj h
  have hsorted : ((sortByName pairs).map (·.1)).Nodup := by
    refine ((List.mergeSort_perm pairs _).map (·.1)).nodup_iff.2 ?_
    rw [Record.names_of_values hpairs]
    exact nodup_argument_names op
  refine mapM_eq_ok_filterMap fun a ha => ?_
  obtain ⟨⟨name, v⟩, hmem, hdec, rfl⟩ := exists_mem_zip_of_forall₂
    (Record.values_eq_ok_iff.1 hpairs) (List.mem_of_mem_filter ha)
  refine ⟨v, hdec, (lookup_eq_some_iff_mem hsorted).2 ?_⟩
  exact mem_sortByName.2 (List.of_mem_zip hmem).2

/-- **A rendered text shows the values of the word.** -/
theorem exists_visibleValues_of_render {text : String} (h : op.render w = .ok text) :
    ∃ vs, op.visibleValues w = .ok vs ∧ text = rendered op.name vs := by
  have hread := h
  rw [Record.render, bind_eq_ok_iff] at hread
  obtain ⟨d, hread, -⟩ := hread
  rw [Record.render_of_read hread, Except.ok.injEq] at h
  exact ⟨op.shown d, visibleValues_of_read hread, h.symm⟩

/-- **The values of a built word build it again.** -/
theorem build_assigning (h : afresh (op.build args n) = .ok w)
    (hvs : op.visibleValues w = .ok vs) : afresh (op.build (op.assigning vs) n) = .ok w := by
  have hnames : ((op.visible.map (·.name)).zip vs).map (·.1) = op.visible.map (·.name) := by
    refine List.map_fst_zip ?_
    rw [List.length_map, (mapM_eq_ok_iff.1 hvs).length_eq]
  have hdistinct : (((op.visible.map (·.name)).zip vs).map (·.1)).Nodup := by
    rw [hnames]
    exact (nodup_argument_names op).sublist (List.filter_sublist.map _)
  rw [← h]
  refine congrArg afresh (Record.build_congr fun a ha => ?_)
  by_cases hinputs : a.isInputs
  · exact (Argument.sameRequest_iff_of_inputs hinputs).2 rfl
  · have hvisible : a ∈ op.visible := List.mem_filter.2 ⟨ha, by simpa using hinputs⟩
    obtain ⟨v, hmem, hdec⟩ := exists_mem_zip_of_forall₂ (mapM_eq_ok_iff.1 hvs) hvisible
    have hasks := (decode_eq_ok_iff_asks h ha).1 hdec
    rw [Argument.Asks, if_neg hinputs] at hasks
    rw [Argument.sameRequest_iff_of_named hinputs, hasks, Record.assigning,
      Assignment.ofPairs_eq_some_iff hdistinct, List.zip_map_left]
    exact List.mem_map_of_mem (f := Prod.map (·.name) id) hmem

end Values

/-- **A rendered text is faithful.** Two words that are rendered alike, of whatever opcodes, come
from opcodes of one name and show the same values; and the values that a text shows of a built word
are read off it and build the word again. -/
theorem rendering_is_faithful :
    (∀ (op op' : Opcode) (w w' : Word) (text : String),
        op.render w = .ok text → op'.render w' = .ok text →
          op.name = op'.name ∧
            ∃ vs, op.visibleValues w = .ok vs ∧ op'.visibleValues w' = .ok vs) ∧
      ∀ (op : Opcode) (args : Assignment) (n : Nat) (w : Word) (text : String),
        afresh (op.build args n) = .ok w → op.render w = .ok text →
          ∃ vs, bracketedValues? text = some vs ∧ vs.length = op.visible.length ∧
            afresh (op.build (op.assigning vs) n) = .ok w := by
  have hname : ∀ op : Opcode, '<' ∉ op.name.toList := fun op =>
    bracket_notMem_of_isOpcodeName (op.valid.names _ List.mem_cons_self)
  constructor
  · intro op op' w w' text h h'
    obtain ⟨vs, hvs, htext⟩ := exists_visibleValues_of_render h
    obtain ⟨vs', hvs', htext'⟩ := exists_visibleValues_of_render h'
    obtain ⟨hnames, rfl⟩ := rendered_inj (hname op) (hname op') (htext.symm.trans htext')
    exact ⟨hnames, vs, hvs, hvs'⟩
  · intro op args n w text hbuild hrender
    obtain ⟨vs, hvs, rfl⟩ := exists_visibleValues_of_render hrender
    exact ⟨vs, bracketedValues?_rendered (hname op), (mapM_eq_ok_iff.1 hvs).length_eq.symm,
      build_assigning hbuild hvs⟩

/-- An opcode with two signed distances and the number of inputs between them. -/
def moveOpcode : Opcode where
  name := "move-by"
  desc := ""
  operand := .arguments [
    ⟨"dx", none, .between 0 3, some ⟨"arg - 8", .arg, .binary .sub .var (.literal 8)⟩,
      none⟩,
    ⟨"inputs", none, .between 4 7, none, none⟩,
    ⟨"dy", none, .between 8 11, some ⟨"0 - arg", .arg, .binary .sub (.literal 0) .var⟩,
      none⟩]
  inputs := .computed (.between 4 7) none
  outputs := .fixed 0
  aliases := []
  sound := by decide

/-- An opcode of the same name with other arguments, the first of them in the high bits. -/
def movedOpcode : Opcode where
  name := "move-by"
  desc := ""
  operand := .arguments [
    ⟨"east", none, .between 8 11, some ⟨"arg - 8", .arg, .binary .sub .var (.literal 8)⟩,
      none⟩,
    ⟨"north", none, .between 0 3, some ⟨"arg - 4", .arg, .binary .sub .var (.literal 4)⟩,
      none⟩]
  inputs := .zero
  outputs := .fixed 0
  aliases := []
  sound := by decide

/-- One text for a word of each opcode. The number of inputs is not shown, but it is part of the
call. -/
theorem rendering_is_faithful_of_moves :
    moveOpcode.render 0x255 = .ok "move-by<-3 -2>" ∧
      movedOpcode.render 0x502 = .ok "move-by<-3 -2>" ∧
      (∃ vs, moveOpcode.visibleValues 0x255 = .ok vs ∧ movedOpcode.visibleValues 0x502 = .ok vs) ∧
      afresh (moveOpcode.build (.ofPairs [("dx", -3), ("dy", -2)]) 5) = .ok 0x255 ∧
      ∃ vs, bracketedValues? "move-by<-3 -2>" = some vs ∧
        afresh (moveOpcode.build (moveOpcode.assigning vs) 5) = .ok 0x255 := by
  obtain ⟨hsame, hagain⟩ := rendering_is_faithful
  have hmove : moveOpcode.render 0x255 = .ok "move-by<-3 -2>" := by cbv
  have hmoved : movedOpcode.render 0x502 = .ok "move-by<-3 -2>" := by cbv
  have hbuild : afresh (moveOpcode.build (.ofPairs [("dx", -3), ("dy", -2)]) 5) = .ok 0x255 := by
    decide
  obtain ⟨vs, hvs, -, hvsbuild⟩ := hagain _ _ _ _ _ hbuild hmove
  exact ⟨hmove, hmoved, (hsame _ _ _ _ _ hmove hmoved).2, hbuild, vs, hvs, hvsbuild⟩

end OperandCodec
