import Mathlib.Tactic.Common
import OperandCodec.CommandLine.Written
import OperandCodec.Proofs.Afresh
import OperandCodec.Proofs.Names
import OperandCodec.Proofs.WrittenValues
/-!
# Requests on a command line

Each item of a command line is scanned by itself, whatever stands behind it
(`scanFrom_words`), so what a line says is put together from what its items
say, and where the options stand does not matter (`scanFrom_line`). A pair
of a name and a value is read as that pair: a name has no equals sign in it
and no blank at its ends, and the text of a value is digits with at most a
minus sign in front (`readPair_pairText`). So every request can be written.
-/

namespace OperandCodec

open Token Text

/-! ## Pairs -/

/-- The text of a value has no blank. -/
theorem isBlank_eq_false_of_mem_text {v : Value} {c : Char} (h : c ∈ v.text.toList) :
    isBlank c = false := by
  rcases isDigit_or_minus_of_mem_text h with hdigit | rfl
  · exact isBlank_eq_false_of_isIdentRest (isIdentRest_of_isDigit hdigit)
  · decide

theorem trim_text (v : Value) : trim v.text.toList = v.text.toList := by
  refine trim_eq_self (fun c hc => ?_) fun c hc => ?_
  · exact isBlank_eq_false_of_mem_text (List.mem_of_mem_head? hc)
  · exact isBlank_eq_false_of_mem_text (List.mem_reverse.1 (List.mem_of_mem_head? hc))

namespace CommandLine

section Pairs

variable {p : String × Value} {pairs : List (String × Value)}

theorem toList_pairText : (pairText p).toList = p.1.toList ++ '=' :: p.2.text.toList := by
  rw [pairText, String.toList_append, String.toList_append, List.append_assoc]
  rfl

/-- A pair has no hyphen in front, also where its value has one. -/
theorem head?_pairText (h : isArgumentName p.1) : (pairText p).toList.head? ≠ some '-' := by
  obtain ⟨c, inner, d, hs, -, -, -⟩ := exists_parts_of_isArgumentName h
  have hname := head?_ne_hyphen_of_isArgumentName h
  rw [toList_pairText]
  rwa [hs] at hname ⊢

/-- **A pair is read as it was written.** -/
theorem readPair_pairText (h : isArgumentName p.1) : readPair (pairText p) = .ok p := by
  have hequals := equals_notMem_of_isArgumentName h
  have htake : (pairText p).toList.takeWhile (· != '=') = p.1.toList := by
    rw [toList_pairText, takeWhile_ne_append hequals]
  have hdrop : (pairText p).toList.dropWhile (· != '=') = '=' :: p.2.text.toList := by
    rw [toList_pairText, dropWhile_ne_append hequals]
  simp only [readPair, hdrop, htake, trim_text, readValue?_text, trim_of_isArgumentName h,
    String.ofList_toList]

theorem mapM_readPair (h : ∀ p ∈ pairs, isArgumentName p.1) :
    (pairs.map pairText).mapM readPair = .ok pairs := by
  rw [mapM_eq_ok_iff, List.forall₂_map_left_iff, List.forall₂_same]
  exact fun p hp => readPair_pairText (h p hp)

end Pairs

/-! ## Items -/

section Items

variable {item : Item} {line : List Item} {scan : Scan} {words : List String}

/-- A word that is none of the named options is a cluster of flags, a mistake or a positional
argument. -/
theorem scanFrom_unnamed {text : String} (h : text ∉ namedOptions) :
    scanFrom scan (text :: words) = (cluster? text).elim
      (if looksLikeOption text then .error (.mistake (.unknownOption text))
        else scanFrom { scan with positional := scan.positional ++ [text] } words)
      fun n => scanFrom (scan.louder n) words := by
  simp only [namedOptions, List.mem_cons, List.not_mem_nil, or_false, not_or] at h
  obtain ⟨hconfig, hinputs, hh, hhelp, hV, hversion, hv, hverbose⟩ := h
  -- the last equation of the scan holds under the first two facts
  simp only [scanFrom, hh, hhelp, hV, hversion, hv, hverbose, or_self, if_false]
  cases cluster? text <;> rfl

/-- A word without a hyphen in front is a positional argument. -/
theorem scanFrom_positional {text : String} (h : text.toList.head? ≠ some '-') :
    scanFrom scan (text :: words) =
      scanFrom { scan with positional := scan.positional ++ [text] } words := by
  have hunnamed : text ∉ namedOptions := by
    have hhyphen : ∀ option ∈ namedOptions, option.toList.head? = some '-' := by decide
    exact fun hmem => h (hhyphen text hmem)
  have hcluster : cluster? text = none := by
    unfold cluster?
    split
    · rename_i letters htext
      exact absurd (by rw [htext]; rfl) h
    · rfl
  have hlooks : looksLikeOption text = false := by
    simp [looksLikeOption, h]
  rw [scanFrom_unnamed hunnamed, hcluster, hlooks]
  rfl

theorem scanFrom_inputs {n : Nat} (h : n ≤ maxCount) :
    scanFrom scan ("--inputs" :: toString n :: words) =
      scanFrom { scan with inputs := some n } words := by
  have hcount : readUnsigned? 10 maxCount (toString n).toList = some n := by
    rw [Nat.toString_eq_repr, Nat.toList_repr, readUnsigned?_toDigits h]
  rw [scanFrom, hcount]

theorem scanFrom_verbosity (flag : VerbosityFlag) :
    scanFrom scan (flag.text :: words) = scanFrom (scan.louder flag.steps) words := by
  cases flag with
  | short | long => rfl
  | cluster more =>
    have htext : (VerbosityFlag.cluster more).text.toList =
        '-' :: 'v' :: 'v' :: List.replicate more 'v' := by
      rw [VerbosityFlag.text, String.toList_ofList]
      rfl
    have hunnamed : (VerbosityFlag.cluster more).text ∉ namedOptions := by
      have hletters : ∀ option ∈ namedOptions, option.toList.take 3 ≠ ['-', 'v', 'v'] := by decide
      exact fun hmem => hletters _ hmem (by rw [htext]; rfl)
    have hcluster : cluster? (VerbosityFlag.cluster more).text = some ((more + 2) % 256) := by
      simp [cluster?, htext]
    rw [scanFrom_unnamed hunnamed, hcluster]
    rfl

/-- **An item is scanned by itself**, whatever stands behind it. -/
theorem scanFrom_words (h : item.Plain) :
    scanFrom scan (item.words ++ words) = scanFrom (item.apply scan) words := by
  cases item with
  | positional text => exact scanFrom_positional h
  | inputs n => exact scanFrom_inputs h
  | config file => rfl
  | verbosity flag => exact scanFrom_verbosity flag

/-- **A line is scanned item by item.** -/
theorem scanFrom_line (h : ∀ item ∈ line, item.Plain) :
    scanFrom scan (line.flatMap Item.words) = .ok (line.foldl Item.apply scan) := by
  induction line generalizing scan with
  | nil => rfl
  | cons item line ih =>
    obtain ⟨hitem, hline⟩ := List.forall_mem_cons.1 h
    rw [List.flatMap_cons, scanFrom_words hitem, ih hline, List.foldl_cons]

/-- What an item adds to a scan: to each part what the item has to say about it. -/
theorem Item.apply_eq (h : scan.verbosity ≤ maxVerbosity) : item.apply scan =
    { verbosity := min (scan.verbosity + item.steps) maxVerbosity
      config := item.file?.or scan.config
      inputs := item.count?.or scan.inputs
      positional := scan.positional ++ item.positional?.toList } := by
  cases item <;>
    simp [apply, Scan.louder, steps, file?, count?, positional?, Nat.min_eq_left h]

/-- The last value of an option on a longer line. -/
theorem getLast?_filterMap_cons {α : Type} (f : Item → Option α) (o : Option α) :
    ((item :: line).filterMap f).getLast?.or o =
      (line.filterMap f).getLast?.or ((f item).or o) := by
  cases hf : f item with
  | none => rw [List.filterMap_cons_none hf, Option.none_or]
  | some a =>
    rw [List.filterMap_cons_some hf, List.getLast?_cons]
    cases (line.filterMap f).getLast? <;> rfl

/-- **What the items say together**: the positional arguments in their order, the last value of each
option, and all the steps that raise the verbosity. -/
theorem foldl_apply (h : scan.verbosity ≤ maxVerbosity) :
    line.foldl Item.apply scan =
      { verbosity := min (scan.verbosity + (line.map Item.steps).sum) maxVerbosity
        config := (line.filterMap Item.file?).getLast?.or scan.config
        inputs := (line.filterMap Item.count?).getLast?.or scan.inputs
        positional := scan.positional ++ line.filterMap Item.positional? } := by
  induction line generalizing scan with
  | nil => simp [Nat.min_eq_left h]
  | cons item line ih =>
    have hverbosity : ∀ a b c : Nat, min (min (a + b) maxVerbosity + c) maxVerbosity =
        min (a + (b + c)) maxVerbosity := by omega
    have hpositional : (item :: line).filterMap Item.positional? =
        item.positional?.toList ++ line.filterMap Item.positional? := by
      cases item <;> rfl
    rw [List.foldl_cons, Item.apply_eq h, ih (Nat.min_le_right _ _)]
    simp only [hverbosity, hpositional, getLast?_filterMap_cons, List.map_cons, List.sum_cons,
      List.append_assoc]

end Items

/-! ## Requests -/

/-- The options of a scan that found a request to build. -/
theorem ofScan_build {scan : Scan} {path opcode : String} {texts : List String}
    {pairs : List (String × Value)}
    (hscan : scan.positional = "build" :: path :: opcode :: texts)
    (htexts : texts.mapM readPair = .ok pairs) : Options.ofScan scan =
      .ok ⟨scan.verbosity, scan.config, path, .build opcode pairs (scan.inputs.getD 0)⟩ := by
  have hcommand : Command.ofArgs "build" scan.inputs (opcode :: texts) =
      .ok (.build opcode pairs (scan.inputs.getD 0)) := by
    rw [Command.ofArgs, if_pos rfl, htexts]
    rfl
  rw [Options.ofScan, hscan]
  simp only [ne_eq, not_true_eq_false, and_false, if_false, hcommand]
  rfl

/-- **Every request to build can be written on a command line**, with the options anywhere. The
opcode, the pairs and the file of the table are read as they were written; the last count counts, and
the last file of settings; and the pairs assign to each of their names its value. -/
theorem build_request_is_read (line : List Item) (path opcode : String)
    (pairs : List (String × Value))
    (hpositional : line.filterMap Item.positional? =
      "build" :: path :: opcode :: pairs.map pairText)
    (hcounts : ∀ n ∈ line.filterMap Item.count?, n ≤ maxCount)
    (hpath : path.toList.head? ≠ some '-') (hopcode : isOpcodeName opcode)
    (hnames : ∀ p ∈ pairs, isArgumentName p.1) (hdistinct : (pairs.map (·.1)).Nodup) :
    Options.ofArgs (line.flatMap Item.words) = .ok
        { verbosity := min (line.map Item.steps).sum maxVerbosity
          config := (line.filterMap Item.file?).getLast?
          table := path
          command := .build opcode pairs ((line.filterMap Item.count?).getLast?.getD 0) } ∧
      ∀ name v, Assignment.ofPairs pairs name = some v ↔ (name, v) ∈ pairs := by
  refine ⟨?_, fun name v => Assignment.ofPairs_eq_some_iff hdistinct⟩
  have hopen : ∀ text ∈ line.filterMap Item.positional?, text.toList.head? ≠ some '-' := by
    rw [hpositional]
    simp only [List.forall_mem_cons, List.forall_mem_map]
    exact ⟨by decide, hpath, head?_ne_hyphen_of_isOpcodeName hopcode, fun p hp =>
      head?_pairText (hnames p hp)⟩
  have hplain : ∀ item ∈ line, item.Plain := by
    intro item hitem
    cases item with
    | positional text => exact hopen text (List.mem_filterMap.2 ⟨_, hitem, rfl⟩)
    | inputs n => exact hcounts n (List.mem_filterMap.2 ⟨_, hitem, rfl⟩)
    | config | verbosity => trivial
  have hscan : scanFrom .empty (line.flatMap Item.words) = .ok _ := scanFrom_line hplain
  rw [foldl_apply (Nat.zero_le _), hpositional] at hscan
  rw [Options.ofArgs, hscan]
  show (Options.ofScan _).mapError Stop.mistake = _
  rw [ofScan_build rfl (mapM_readPair hnames)]
  simp [Except.mapError, Scan.empty]

/-- A line with options in front of the request, within it and between its pairs. The value of the
first option looks like another one. -/
def jumpLine : List Item :=
  [.config "--help", .verbosity (.cluster 1), .positional "build", .positional "ops.json",
    .inputs 3, .positional "jump-if", .positional "from here=-9223372036854775808",
    .verbosity .long, .config "set.toml", .positional "a--b=7"]

theorem build_request_is_read_of_jump :
    jumpLine.flatMap Item.words = ["--config", "--help", "-vvv", "build", "ops.json", "--inputs",
        "3", "jump-if", "from here=-9223372036854775808", "--verbose", "--config", "set.toml",
        "a--b=7"] ∧
      Options.ofArgs (jumpLine.flatMap Item.words) = .ok ⟨4, some "set.toml", "ops.json",
        .build "jump-if" [("from here", -9223372036854775808), ("a--b", 7)] 3⟩ ∧
      Assignment.ofPairs [("from here", -9223372036854775808), ("a--b", 7)] "a--b" = some 7 := by
  obtain ⟨hread, hassigned⟩ := build_request_is_read jumpLine "ops.json" "jump-if"
    [("from here", -9223372036854775808), ("a--b", 7)] (by decide +kernel) (by decide) (by decide)
    (by decide) (by decide) (by decide)
  exact ⟨by decide +kernel, hread, (hassigned _ _).2 (by decide)⟩

end CommandLine

end OperandCodec
