import Mathlib.Algebra.Order.BigOperators.Group.List
import OperandCodec.CommandLine.Flags
import OperandCodec.Proofs.CommandLine
/-!
# How much a command line asks to be told

A scan that comes to its end is one of items, and the flags among the words
are those of the items (`exists_items`). So the verbosity of a line is the sum
of the steps of its flags, up to its largest value (`verbosity_eq`), and a
flag that is added between two items makes the line louder and changes nothing
else (`ofArgs_insert_flag`).

The steps of a flag are not all of its letters: a cluster loses 256 letters at
a time. A line falls short of its letters exactly where some are lost and the
steps that are left stay below the largest verbosity (`min_sum_steps_eq_iff`).
-/

namespace OperandCodec
namespace CommandLine

/-! ## Flags -/

section Flags

open VerbosityFlag

variable {flag : VerbosityFlag} {fs : List VerbosityFlag} {word : String} {n : Nat}

theorem toList_text_cluster (more : Nat) :
    (cluster more).text.toList = '-' :: 'v' :: 'v' :: List.replicate more 'v' := by
  rw [text, String.toList_ofList]
  rfl

theorem eq_replicate_of_all {letters : List Char} (h : letters.all (· == 'v')) :
    letters = List.replicate letters.length 'v' :=
  List.eq_replicate_of_mem fun c hc => by simpa using List.all_eq_true.1 h c hc

/-- **A word is the flag that is written like it.** -/
theorem ofText?_eq_some_iff : ofText? word = some flag ↔ flag.text = word := by
  constructor
  · intro h
    unfold ofText? at h
    split_ifs at h with hshort hlong
    · obtain rfl := Option.some.inj h
      exact hshort.symm
    · obtain rfl := Option.some.inj h
      exact hlong.symm
    · split at h
      · rename_i more hword
        split_ifs at h with hletters
        obtain rfl := Option.some.inj h
        rw [← String.toList_inj, toList_text_cluster, hword, ← eq_replicate_of_all hletters]
      · cases h
  · rintro rfl
    cases flag with
    | short | long => rfl
    | cluster more =>
      have hshort : (cluster more).text ≠ "-v" := by
        intro h
        simpa [toList_text_cluster] using congrArg String.toList h
      have hlong : (cluster more).text ≠ "--verbose" := by
        intro h
        simpa [toList_text_cluster] using congrArg String.toList h
      simp [ofText?, hshort, hlong, toList_text_cluster]

/-- A cluster of flags is a flag. -/
theorem ofText?_ne_none_of_cluster (h : cluster? word = some n) : ofText? word ≠ none := by
  unfold cluster? at h
  split at h
  · rename_i letters hword
    split_ifs at h with hletters
    obtain ⟨hlength, hall⟩ := hletters
    have htext : (cluster (letters.length - 2)).text = word := by
      rw [← String.toList_inj, hword, text, String.toList_ofList, Nat.sub_add_cancel hlength,
        ← eq_replicate_of_all hall]
    rw [ofText?_eq_some_iff.2 htext]
    exact Option.some_ne_none _
  · cases h

/-- The steps of a flag are what is left of its letters. -/
theorem steps_eq : flag.steps = flag.letters % (maxVerbosity + 1) := by
  cases flag with
  | short | long => rfl
  | cluster more => rfl

theorem steps_le_letters : flag.steps ≤ flag.letters := by
  rw [steps_eq]
  exact Nat.mod_le _ _

theorem steps_eq_letters (h : flag.letters ≤ maxVerbosity) : flag.steps = flag.letters := by
  rw [steps_eq]
  exact Nat.mod_eq_of_lt (by omega)

theorem steps_lt_letters (h : maxVerbosity < flag.letters) : flag.steps < flag.letters := by
  rw [steps_eq]
  have := Nat.mod_lt flag.letters (by omega : 0 < maxVerbosity + 1)
  omega

theorem sum_steps_le (fs : List VerbosityFlag) : (fs.map steps).sum ≤ (fs.map letters).sum :=
  List.sum_le_sum fun _ _ => steps_le_letters

/-- Where no flag has more letters than the largest verbosity, none is lost. -/
theorem sum_steps_eq (h : ∀ flag ∈ fs, flag.letters ≤ maxVerbosity) :
    (fs.map steps).sum = (fs.map letters).sum := by
  rw [List.map_congr_left fun flag hflag => steps_eq_letters (h flag hflag)]

/-- Where a flag has more, some are lost. -/
theorem sum_steps_lt (h : ∃ flag ∈ fs, maxVerbosity < flag.letters) :
    (fs.map steps).sum < (fs.map letters).sum := by
  obtain ⟨flag, hflag, hmany⟩ := h
  exact List.sum_lt_sum _ _ (fun _ _ => steps_le_letters) ⟨flag, hflag, steps_lt_letters hmany⟩

/-- Letters that are lost are missed unless the steps reach the largest verbosity without them. -/
theorem min_sum_steps_eq_iff :
    min (fs.map steps).sum maxVerbosity = min (fs.map letters).sum maxVerbosity ↔
      (∀ flag ∈ fs, flag.letters ≤ maxVerbosity) ∨ maxVerbosity ≤ (fs.map steps).sum := by
  constructor
  · intro heq
    by_contra! hlost
    obtain ⟨hmany, hbelow⟩ := hlost
    have hlt := sum_steps_lt hmany
    omega
  · rintro (hfew | hfull)
    · rw [sum_steps_eq hfew]
    · have hle := sum_steps_le fs
      omega

end Flags

/-! ## Items -/

section Items

variable {scan s : Scan} {words words' rest : List String} {items items' : List Item}
variable {option value word : String} {flag : VerbosityFlag}

theorem flags_option (h : option ∈ valueOptions) :
    flags (option :: value :: words) = flags words := by
  rw [flags.eq_def]
  exact if_pos h

theorem flags_word (h : word ∉ valueOptions) :
    flags (word :: words) = (VerbosityFlag.ofText? word).toList ++ flags words := by
  rw [flags.eq_def]
  exact if_neg h

theorem filterMap_flag?_cons {item : Item} : (item :: items).filterMap Item.flag? =
    item.flag?.toList ++ items.filterMap Item.flag? := by
  simp only [List.filterMap_eq_flatMap_toList, List.flatMap_cons]

/-- Words are scanned as items, whatever stands before and behind them. -/
def ScansAs (words : List String) (items : List Item) : Prop :=
  ∀ (scan : Scan) (rest : List String),
    scanFrom scan (words ++ rest) = scanFrom (items.foldl Item.apply scan) rest

theorem ScansAs.append (h : ScansAs words items) (h' : ScansAs words' items') :
    ScansAs (words ++ words') (items ++ items') := by
  intro scan rest
  rw [List.append_assoc, h, h', List.foldl_append]

theorem ScansAs.scanFrom_eq (h : ScansAs words items) :
    scanFrom scan words = .ok (items.foldl Item.apply scan) := by
  have hscan := h scan []
  rwa [List.append_nil] at hscan

theorem scansAs_flag : ScansAs [flag.text] [.verbosity flag] :=
  fun _ _ => scanFrom_verbosity flag

/-- An option with its value is an item, and no flag. -/
theorem exists_item_of_option (h : option ∈ valueOptions)
    (hscan : scanFrom scan (option :: value :: rest) = .ok s) :
    ∃ item : Item, item.flag? = none ∧ ScansAs [option, value] [item] := by
  simp only [valueOptions, List.mem_cons, List.not_mem_nil, or_false] at h
  obtain rfl | rfl := h
  · exact ⟨.config value, rfl, fun _ _ => rfl⟩
  · cases hcount : Text.readUnsigned? 10 Text.maxCount value.toList with
    | none =>
      rw [scanFrom, hcount] at hscan
      cases hscan
    | some n =>
      refine ⟨.inputs n, rfl, fun scan rest => ?_⟩
      show scanFrom scan ("--inputs" :: value :: rest) = _
      rw [scanFrom, hcount]
      rfl

/-- A scan ends at a request for help or for the version. -/
theorem exists_stop (h : word ∈ ["-h", "--help", "-V", "--version"]) :
    ∃ stop, scanFrom scan (word :: rest) = .error stop := by
  simp only [List.mem_cons, List.not_mem_nil, or_false] at h
  obtain rfl | rfl | rfl | rfl := h
  · exact ⟨.help, rfl⟩
  · exact ⟨.help, rfl⟩
  · exact ⟨.version, rfl⟩
  · exact ⟨.version, rfl⟩

/-- A named option wants a value, is a flag or ends the scan. -/
theorem notMem_namedOptions (h : word ∉ valueOptions)
    (hflag : VerbosityFlag.ofText? word = none) (hscan : scanFrom scan (word :: rest) = .ok s) :
    word ∉ namedOptions := by
  have hkinds : ∀ option ∈ namedOptions, option ∈ valueOptions ∨
      (VerbosityFlag.ofText? option).isSome ∨ option ∈ ["-h", "--help", "-V", "--version"] := by
    decide
  intro hnamed
  obtain hvalue | hsome | hstop := hkinds word hnamed
  · exact h hvalue
  · rw [hflag] at hsome
    cases hsome
  · obtain ⟨stop, herror⟩ := exists_stop hstop
    rw [herror] at hscan
    cases hscan

/-- Any other word is an item, and the flag that it is by itself. -/
theorem exists_item_of_word (h : word ∉ valueOptions)
    (hscan : scanFrom scan (word :: rest) = .ok s) :
    ∃ item : Item, item.flag? = VerbosityFlag.ofText? word ∧ ScansAs [word] [item] := by
  cases hflag : VerbosityFlag.ofText? word with
  | some flag =>
    obtain rfl := ofText?_eq_some_iff.1 hflag
    exact ⟨.verbosity flag, rfl, scansAs_flag⟩
  | none =>
    have hcluster : cluster? word = none := by
      rw [Option.eq_none_iff_forall_ne_some]
      exact fun n hn => ofText?_ne_none_of_cluster hn hflag
    have hunnamed : word ∉ namedOptions := notMem_namedOptions h hflag hscan
    have hlooks : looksLikeOption word = false := by
      rw [scanFrom_unnamed hunnamed, hcluster] at hscan
      by_contra hlooks
      rw [Option.elim_none, if_pos (by simpa using hlooks)] at hscan
      cases hscan
    refine ⟨.positional word, rfl, fun scan rest => ?_⟩
    show scanFrom scan (word :: rest) = _
    rw [scanFrom_unnamed hunnamed, hcluster, hlooks]
    rfl

/-- An option without its value ends the scan. -/
theorem exists_stop_of_option (scan : Scan) (h : option ∈ valueOptions) :
    ∃ stop, scanFrom scan [option] = .error stop := by
  simp only [valueOptions, List.mem_cons, List.not_mem_nil, or_false] at h
  obtain rfl | rfl := h
  · exact ⟨.mistake .missingConfigFile, rfl⟩
  · exact ⟨.mistake .missingInputCount, rfl⟩

/-- **Words that are scanned are items**, and the flags among them are those of the items. If an
option at their end wants a value, nothing may stand behind them that would be it. -/
theorem exists_items (hvalue : wantsValue words → rest = [])
    (hscan : scanFrom scan (words ++ rest) = .ok s) :
    ∃ items : List Item, ScansAs words items ∧ items.filterMap Item.flag? = flags words := by
  -- the words are taken as the scan takes them, an option together with its value
  fun_induction wantsValue words generalizing scan with
  | case1 => exact ⟨[], fun _ _ => rfl, rfl⟩
  | case2 option hoption =>
    obtain ⟨stop, hstop⟩ := exists_stop_of_option scan hoption
    rw [hvalue rfl, List.append_nil, hstop] at hscan
    cases hscan
  | case3 option hoption value words ih =>
    obtain ⟨item, hflag, hitem⟩ := exists_item_of_option hoption hscan
    have hwords : scanFrom (item.apply scan) (words ++ rest) = .ok s :=
      (hitem scan (words ++ rest)).symm.trans hscan
    obtain ⟨items, hitems, hflags⟩ := ih hvalue hwords
    refine ⟨item :: items, hitem.append hitems, ?_⟩
    rw [filterMap_flag?_cons, hflag, hflags, flags_option hoption]
    rfl
  | case4 word words hword ih =>
    obtain ⟨item, hflag, hitem⟩ := exists_item_of_word hword hscan
    have hwords : scanFrom (item.apply scan) (words ++ rest) = .ok s :=
      (hitem scan (words ++ rest)).symm.trans hscan
    obtain ⟨items, hitems, hflags⟩ := ih hvalue hwords
    refine ⟨item :: items, hitem.append hitems, ?_⟩
    rw [filterMap_flag?_cons, hflag, hflags, flags_word hword]

/-- A scan that comes to its end is one of items. -/
theorem exists_items_of_scanFrom (hscan : scanFrom scan words = .ok s) :
    ∃ items : List Item, ScansAs words items ∧ items.foldl Item.apply scan = s ∧
      items.filterMap Item.flag? = flags words := by
  have hwords : scanFrom scan (words ++ []) = .ok s := by rwa [List.append_nil]
  obtain ⟨items, hitems, hflags⟩ := exists_items (fun _ => rfl) hwords
  exact ⟨items, hitems, Except.ok.inj (hitems.scanFrom_eq.symm.trans hscan), hflags⟩

/-- The steps of items are those of the flags among them. -/
theorem sum_steps_items :
    (items.map Item.steps).sum = ((items.filterMap Item.flag?).map VerbosityFlag.steps).sum := by
  induction items with
  | nil => rfl
  | cons item items ih =>
    have hsteps : item.steps = (item.flag?.toList.map VerbosityFlag.steps).sum := by
      cases item <;> rfl
    rw [List.map_cons, List.sum_cons, ih, filterMap_flag?_cons, List.map_append, List.sum_append,
      hsteps]

/-- How loud a scan is has no say in what an item does to the rest of it. -/
theorem apply_louder (item : Item) (n : Nat) :
    item.apply (scan.louder n) = (item.apply scan).louder n := by
  cases item with
  | positional | inputs | config => rfl
  | verbosity flag =>
    have hswap : min (min (scan.verbosity + n) maxVerbosity + flag.steps) maxVerbosity =
        min (min (scan.verbosity + flag.steps) maxVerbosity + n) maxVerbosity := by omega
    simp only [Item.apply, Scan.louder, hswap]

theorem foldl_louder (n : Nat) :
    items.foldl Item.apply (scan.louder n) = (items.foldl Item.apply scan).louder n := by
  induction items generalizing scan with
  | nil => rfl
  | cons item items ih => rw [List.foldl_cons, apply_louder, ih, List.foldl_cons]

/-- **A flag between items** makes their scan louder and changes nothing else. -/
theorem foldl_apply_flag :
    (items ++ .verbosity flag :: items').foldl Item.apply scan =
      ((items ++ items').foldl Item.apply scan).louder flag.steps := by
  rw [List.foldl_append, List.foldl_cons, List.foldl_append]
  exact foldl_louder flag.steps

end Items

/-! ## Lines -/

section Lines

variable {args after : List String} {s : Scan} {o : Options} {flag : VerbosityFlag}

theorem ofArgs_eq_ok_iff :
    Options.ofArgs args = .ok o ↔ ∃ s, scanFrom .empty args = .ok s ∧ Options.ofScan s = .ok o := by
  simp only [Options.ofArgs, bind_eq_ok_iff, mapError_eq_ok_iff]

/-- How loud a scan is goes into the verbosity and nothing else. -/
theorem ofScan_verbosity (v : Nat) : Options.ofScan { s with verbosity := v } =
    (Options.ofScan s).map fun o => { o with verbosity := v } := by
  unfold Options.ofScan
  dsimp only
  split
  · rfl
  · rfl
  · split_ifs
    · rfl
    · rename_i name table args _ _
      cases Command.ofArgs name s.inputs args <;> rfl

/-- The verbosity of a scan is that of the options. -/
theorem verbosity_of_ofScan (h : Options.ofScan s = .ok o) : o.verbosity = s.verbosity := by
  have hsame := ofScan_verbosity (s := s) s.verbosity
  rw [h] at hsame
  exact congrArg Options.verbosity (Except.ok.inj hsame)

/-- The verbosity of a line is the sum of the steps of its flags, up to the largest verbosity. -/
theorem verbosity_eq (h : Options.ofArgs args = .ok o) :
    o.verbosity = min ((flags args).map VerbosityFlag.steps).sum maxVerbosity := by
  obtain ⟨s, hscan, hs⟩ := ofArgs_eq_ok_iff.1 h
  obtain ⟨items, -, hitems, hflags⟩ := exists_items_of_scanFrom hscan
  rw [verbosity_of_ofScan hs, ← hitems, foldl_apply (Nat.zero_le _), ← hflags, ← sum_steps_items]
  exact congrArg (min · maxVerbosity) (Nat.zero_add _)

/-- A flag that is added to a line raises its verbosity. It may be added anywhere but between an
option and its value, where it would be the value. -/
theorem ofArgs_insert_flag (before : List String)
    (h : Options.ofArgs (before ++ after) = .ok o) (hvalue : wantsValue before = false) :
    Options.ofArgs (before ++ flag.text :: after) =
      .ok { o with verbosity := min (o.verbosity + flag.steps) maxVerbosity } := by
  obtain ⟨s, hscan, hs⟩ := ofArgs_eq_ok_iff.1 h
  have hclosed : wantsValue before → after = [] := by
    intro hwants
    rw [hvalue] at hwants
    cases hwants
  obtain ⟨items, hitems, -⟩ := exists_items hclosed hscan
  rw [hitems] at hscan
  obtain ⟨items', hitems', hs', -⟩ := exists_items_of_scanFrom hscan
  have hlouder : scanFrom .empty (before ++ flag.text :: after) = .ok (s.louder flag.steps) := by
    have hline : ScansAs (before ++ flag.text :: after) (items ++ .verbosity flag :: items') :=
      hitems.append (scansAs_flag.append hitems')
    rw [hline.scanFrom_eq, foldl_apply_flag, List.foldl_append, hs']
  refine ofArgs_eq_ok_iff.2 ⟨_, hlouder, ?_⟩
  rw [Scan.louder, ofScan_verbosity, hs, verbosity_of_ofScan hs]
  rfl

end Lines

/-- **The verbosity of a line is that of its flags.** It is the sum of their steps, up to its largest
value, and this is the number of their letters, up to the same value, exactly where no letters are
lost or the steps reach that value without them. A flag that is added to the line, anywhere but as
the value of an option, raises the verbosity by its steps and changes nothing else, so no flag lowers
it. -/
theorem verbosity_counts_flags (args : List String) (o : Options)
    (h : Options.ofArgs args = .ok o) :
    o.verbosity = min ((flags args).map VerbosityFlag.steps).sum maxVerbosity ∧
      (o.verbosity = min ((flags args).map VerbosityFlag.letters).sum maxVerbosity ↔
        (∀ flag ∈ flags args, flag.letters ≤ maxVerbosity) ∨
          maxVerbosity ≤ ((flags args).map VerbosityFlag.steps).sum) ∧
      ∀ (before after : List String) (flag : VerbosityFlag), before ++ after = args →
        wantsValue before = false →
          Options.ofArgs (before ++ flag.text :: after) =
            .ok { o with verbosity := min (o.verbosity + flag.steps) maxVerbosity } ∧
          o.verbosity ≤ min (o.verbosity + flag.steps) maxVerbosity := by
  have hverbosity := verbosity_eq h
  refine ⟨hverbosity, ?_, ?_⟩
  · rw [hverbosity]
    exact min_sum_steps_eq_iff
  · rintro before after flag rfl hvalue
    exact ⟨ofArgs_insert_flag before h hvalue, by omega⟩

/-- A line with a flag in front of its command and a cluster behind it. The file of settings is
written like a flag. -/
def loudLine : List String :=
  ["-v", "--config", "-v", "list", "-vvv", "ops.json"]

theorem verbosity_counts_flags_of_list :
    Options.ofArgs loudLine = .ok ⟨4, some "-v", "ops.json", .list⟩ ∧
      min ((flags loudLine).map VerbosityFlag.letters).sum maxVerbosity = 4 ∧
      wantsValue ["-v", "--config", "-v"] = false ∧
      Options.ofArgs ["-v", "--config", "-v", "--verbose", "list", "-vvv", "ops.json"] =
        .ok ⟨5, some "-v", "ops.json", .list⟩ := by
  have hline : Options.ofArgs loudLine = .ok ⟨4, some "-v", "ops.json", .list⟩ := by
    decide +kernel
  obtain ⟨-, hletters, hadded⟩ := verbosity_counts_flags loudLine _ hline
  obtain ⟨hread, -⟩ := hadded ["-v", "--config", "-v"] ["list", "-vvv", "ops.json"] .long rfl
    (by decide)
  exact ⟨hline, (hletters.2 (.inl (by decide +kernel))).symm, by decide, hread⟩

/-- A request to build without flags. -/
def quietLine : List String :=
  ["build", "op.json", "op", "at=3", "a\nb=1"]

/-- **A cluster of 256 letters asks for nothing**: by its letters the line has the largest verbosity,
and it has the smallest one. -/
theorem long_cluster_not_counted :
    Options.ofArgs ((VerbosityFlag.cluster 254).text :: quietLine) =
        .ok ⟨0, none, "op.json", .build "op" [("at", 3), ("a\nb", 1)] 0⟩ ∧
      min ((flags ((VerbosityFlag.cluster 254).text :: quietLine)).map VerbosityFlag.letters).sum
        maxVerbosity = 255 := by
  have hquiet : Options.ofArgs quietLine =
      .ok ⟨0, none, "op.json", .build "op" [("at", 3), ("a\nb", 1)] 0⟩ := by
    decide +kernel
  have hword : (VerbosityFlag.cluster 254).text ∉ valueOptions := by
    decide +kernel
  have hflag : VerbosityFlag.ofText? (VerbosityFlag.cluster 254).text = some (.cluster 254) :=
    ofText?_eq_some_iff.2 rfl
  refine ⟨ofArgs_insert_flag [] hquiet rfl, ?_⟩
  rw [flags_word hword, hflag]
  decide +kernel

end CommandLine
end OperandCodec
