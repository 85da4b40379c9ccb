import OperandCodec.Proofs.CacheUse
/-!
# What is set once in a session

The settings are fixed by the first call that resolves them, which may be
any use of a cache, and the table by its first installation
(`set_once`). There are few things that a call can do to a session
(`Step.Does`), and what one call keeps to is read off them
(`Step.KeepsSettings`, `Step.KeepsTable`); runs follow by induction on the
steps that lead to a session (`Session.Leads`).
-/

namespace OperandCodec

/-! ## One step -/

namespace Step

/-- The settings that a call fixes if none are fixed: those it installs, or else those of the
environment. -/
def offered (x : Step) : Settings :=
  match x.call with
  | .request (.installSettings s) => s
  | _ => .ofEnvironment x.before.environment

/-- A call resolves the settings if it asks for them or installs some, or if a cache is in use
behind it. -/
def Resolves (x : Step) : Prop :=
  x.call = .request .currentSettings ∨ (∃ s, x.call = .request (.installSettings s)) ∨
    x.after.trees ≠ none ∨ x.after.inversions ≠ none

/-- A call has installed a table. -/
def InstalledTable (x : Step) (t : OpcodeTable) : Prop :=
  x.answer = .request (.tableInstalled t)

/-- What one call does to the settings and the caches. -/
structure KeepsSettings (x : Step) : Prop where
  consistent : x.after.Consistent
  settings : ∀ s, x.before.settings = some s → x.after.settings = some s
  resolved : x.before.settings = none → x.Resolves → x.after.settings = some x.offered
  unresolved : x.before.settings = none → ¬ x.Resolves → x.after.settings = none

/-- What one call does to the table. -/
structure KeepsTable (x : Step) : Prop where
  table : ∀ t, x.before.table = some t → x.after.table = some t ∧ ∀ t', ¬ x.InstalledTable t'
  installed : x.before.table = none → ∀ t, x.after.table = some t ↔ x.InstalledTable t

/-- A call that asks its session something, and has nothing to do with the settings itself. -/
structure OnlyAsked (p : Session) (c : SessionCall) (q : Session) : Prop where
  asked : p.Consistent → p.Asked q ∧ q.Consistent
  table : q.table = p.table
  ne_current : c ≠ .request .currentSettings
  ne_install : ∀ s, c ≠ .request (.installSettings s)

/-- All that a call can do to its session. -/
inductive Does : Step → Prop where
  /-- It asks, and installs nothing. -/
  | asks {p q : Session} {c : SessionCall} {a : SessionAnswer} : OnlyAsked p c q →
      a ≠ .request .settingsInstalled → (∀ t, a ≠ .request (.tableInstalled t)) →
      Does ⟨p, c, a, q⟩
  | setVariable (p : Session) (name value : String) (env : Environment) :
      Does ⟨p, .request (.setVariable name value), .request .done, { p with environment := env }⟩
  | currentSettings (p : Session) : Does ⟨p, .request .currentSettings,
      .request (.settings p.effectiveSettings), { p with settings := some p.effectiveSettings }⟩
  | installSettings {p : Session} (s : Settings) : p.settings = none →
      Does ⟨p, .request (.installSettings s), .request .settingsInstalled,
        { p with settings := some s }⟩
  | rejectSettings {p : Session} (s : Settings) : p.settings ≠ none →
      Does ⟨p, .request (.installSettings s), .request (.settingsRejected s), p⟩
  /-- It asks, as it does for loading a text, and then installs a table. -/
  | installTable {p q : Session} {c : SessionCall} (t : OpcodeTable) : OnlyAsked p c q →
      p.table = none → Does ⟨p, c, .request (.tableInstalled t), q.withTable t⟩

variable {x : Step}

theorem onlyAsked_of_onlyAsks {α : Type} {m : SessionM α} (h : OnlyAsks m) (p : Session)
    (c : SessionCall) (hcurrent : c ≠ .request .currentSettings)
    (hinstall : ∀ s, c ≠ .request (.installSettings s)) : OnlyAsked p c (m.run p).2 :=
  ⟨fun hp => h.asked hp, h.table_eq p, hcurrent, hinstall⟩

theorem offered_of_ne_install (h : ∀ s, x.call ≠ .request (.installSettings s)) :
    x.offered = .ofEnvironment x.before.environment := by
  unfold offered
  split
  · rename_i s hs
    exact absurd hs (h s)
  · rfl

/-- A call that asks for no settings itself keeps to them. -/
theorem keepsSettings_of_asked (hasked : x.before.Asked x.after) (hafter : x.after.Consistent)
    (hcurrent : x.call ≠ .request .currentSettings)
    (hinstall : ∀ s, x.call ≠ .request (.installSettings s)) : x.KeepsSettings where
  consistent := hafter
  settings s hs := by
    obtain h | ⟨h, -⟩ := hasked.settings
    · rw [h, hs]
    · rw [h, Session.effectiveSettings_of_some hs]
  resolved hnone hresolves := by
    obtain h | h | hused := hresolves
    · exact absurd h hcurrent
    · obtain ⟨s, h⟩ := h
      exact absurd h (hinstall s)
    · -- a cache in use has settings to be kept to, so asking has fixed them
      obtain ⟨s, hs⟩ := hafter.exists_settings hused
      obtain h | ⟨h, -⟩ := hasked.settings
      · rw [h, hnone] at hs
        cases hs
      · rw [h, Session.effectiveSettings_of_none hnone, offered_of_ne_install hinstall]
  unresolved hnone hnot := by
    obtain h | ⟨-, hused⟩ := hasked.settings
    · rw [h, hnone]
    · exact absurd (.inr (.inr hused)) hnot

/-- **A call keeps to the settings**, whatever it does. -/
theorem Does.keepsSettings (h : x.Does) (hp : x.before.Consistent) : x.KeepsSettings := by
  cases h with
  | asks hasked =>
    obtain ⟨h, hafter⟩ := hasked.asked hp
    exact keepsSettings_of_asked h hafter hasked.ne_current hasked.ne_install
  | installTable t hasked =>
    obtain ⟨h, hafter⟩ := hasked.asked hp
    exact keepsSettings_of_asked (h.withTable t) (hafter.withTable t) hasked.ne_current
      hasked.ne_install
  | setVariable p name value env =>
    refine ⟨⟨hp.trees, hp.inversions⟩, fun _ => id, fun hnone hresolves => ?_, fun hnone _ => hnone⟩
    obtain h | ⟨s, h⟩ | hused := hresolves
    · cases h
    · cases h
    · obtain ⟨s, hs⟩ := hp.exists_settings hused
      cases hnone.symm.trans hs
  | currentSettings p =>
    refine ⟨hp.withSettings fun s hs => Session.effectiveSettings_of_some hs, fun s hs => ?_,
      fun hnone _ => ?_, fun _ hnot => absurd (.inl rfl) hnot⟩
    · exact congrArg some (Session.effectiveSettings_of_some hs)
    · exact congrArg some (Session.effectiveSettings_of_none hnone)
  | installSettings s hnone =>
    exact ⟨hp.withSettings fun s' hs' => (by cases hnone.symm.trans hs'),
      fun s' hs' => (by cases hnone.symm.trans hs'), fun _ _ => rfl,
      fun _ hnot => absurd (.inr (.inl ⟨s, rfl⟩)) hnot⟩
  | rejectSettings s hsome =>
    exact ⟨hp, fun _ => id, fun hnone => absurd hnone hsome, fun hnone => absurd hnone hsome⟩

theorem keepsTable_of_eq (h : x.after.table = x.before.table)
    (hanswer : ∀ t, ¬ x.InstalledTable t) : x.KeepsTable where
  table t ht := ⟨h.trans ht, hanswer⟩
  installed hnone t := by
    rw [h, hnone]
    exact ⟨nofun, fun ht => absurd ht (hanswer t)⟩

/-- **A call keeps to the table**, whatever it does. -/
theorem Does.keepsTable (h : x.Does) : x.KeepsTable := by
  cases h with
  | asks hasked _ hanswer => exact keepsTable_of_eq hasked.table hanswer
  | setVariable | currentSettings | installSettings | rejectSettings =>
    exact keepsTable_of_eq rfl nofun
  | installTable t hasked hnone =>
    refine ⟨fun t' ht' => (by cases hnone.symm.trans ht'), fun _ t' => ?_⟩
    simp [Session.withTable, InstalledTable]

/-- Settings are installed by a call to install some, where none are fixed. -/
theorem Does.installs (h : x.Does) (hanswer : x.answer = .request .settingsInstalled) :
    (∃ s, x.call = .request (.installSettings s)) ∧ x.before.settings = none := by
  cases h with
  | asks _ hnot => exact absurd hanswer hnot
  | installSettings s hnone => exact ⟨⟨s, rfl⟩, hnone⟩
  | setVariable | currentSettings | rejectSettings | installTable => cases hanswer

end Step

/-! ## What each call does -/

section Calls

variable {p q : Session}

theorem step_of_request {r : Request} {a : Answer} (h : r.answer.run p = (a, q)) :
    p.step (.request r) = ⟨p, .request r, .request a, q⟩ := by
  rw [Session.step, SessionCall.perform, StateT.run_bind, h]
  rfl

theorem step_currentSettings (p : Session) : p.step (.request .currentSettings) =
    ⟨p, .request .currentSettings, .request (.settings p.effectiveSettings),
      { p with settings := some p.effectiveSettings }⟩ := by
  refine step_of_request ?_
  rw [Request.answer, StateT.run_bind, Session.run_currentSettings]
  rfl

theorem step_installSettings_of_none (h : p.settings = none) (s : Settings) :
    p.step (.request (.installSettings s)) = ⟨p, .request (.installSettings s),
      .request .settingsInstalled, { p with settings := some s }⟩ := by
  obtain ⟨env, settings, trees, inversions, table⟩ := p
  cases h
  rfl

theorem step_installSettings_of_some {s' : Settings} (h : p.settings = some s') (s : Settings) :
    p.step (.request (.installSettings s)) =
      ⟨p, .request (.installSettings s), .request (.settingsRejected s), p⟩ := by
  obtain ⟨env, settings, trees, inversions, table⟩ := p
  cases h
  rfl

theorem step_installTable_of_none (h : p.table = none) (t : OpcodeTable) :
    p.step (.installTable t) =
      ⟨p, .installTable t, .request (.tableInstalled t), p.withTable t⟩ := by
  obtain ⟨env, settings, trees, inversions, table⟩ := p
  cases h
  rfl

theorem step_installTable_of_some {t' : OpcodeTable} (h : p.table = some t') (t : OpcodeTable) :
    p.step (.installTable t) = ⟨p, .installTable t, .request (.tableRejected t), p⟩ := by
  obtain ⟨env, settings, trees, inversions, table⟩ := p
  cases h
  rfl

/-- A text is loaded, which only asks; then its table is installed if there is none. -/
theorem does_installTable (p : Session) (text : String) :
    (p.step (.request (.installTable text))).Does := by
  have hload : OnlyAsks (OpcodeTable.ofText text : ExceptT TableError SessionM OpcodeTable).run :=
    OpcodeTable.onlyAsks_ofText text
  have hasked := Step.onlyAsked_of_onlyAsks hload p (.request (.installTable text)) nofun nofun
  rcases hrun : StateT.run (OpcodeTable.ofText text : ExceptT _ SessionM _).run p with
    ⟨o, env, settings, trees, inversions, table⟩
  rw [hrun] at hasked
  cases o with
  | error e =>
    have hanswer : (Request.installTable text).answer.run p =
        (.tableFailed e, ⟨env, settings, trees, inversions, table⟩) := by
      rw [Request.answer, StateT.run_bind, hrun]
      rfl
    rw [step_of_request hanswer]
    exact .asks hasked nofun nofun
  | ok t =>
    cases table with
    | none =>
      have hanswer : (Request.installTable text).answer.run p =
          (.tableInstalled t, ⟨env, settings, trees, inversions, some t⟩) := by
        rw [Request.answer, StateT.run_bind, hrun]
        rfl
      rw [step_of_request hanswer]
      exact .installTable t hasked hasked.table.symm
    | some t' =>
      have hanswer : (Request.installTable text).answer.run p =
          (.tableRejected t, ⟨env, settings, trees, inversions, some t'⟩) := by
        rw [Request.answer, StateT.run_bind, hrun]
        rfl
      rw [step_of_request hanswer]
      exact .asks hasked nofun nofun

/-- Only an installation installs anything. -/
theorem Request.answer_ne_installed (r : Request) (h : r.changes = false) (p : Session) :
    (r.answer.run p).1 ≠ .settingsInstalled ∧ ∀ t, (r.answer.run p).1 ≠ .tableInstalled t := by
  cases r with
  | setVariable | currentSettings | installSettings | installTable => cases h
  | fileSettings content =>
    rw [answer, StateT.run_bind, StateT.run_get, pure_bind]
    cases Settings.ofFile p.environment content <;> exact ⟨nofun, nofun⟩
  | askTable q =>
    obtain ⟨env, settings, trees, inversions, table⟩ := p
    cases table <;> exact ⟨nofun, nofun⟩
  | _ => exact ⟨nofun, nofun⟩

theorem does_request (p : Session) (r : Request) : (p.step (.request r)).Does := by
  cases hr : r.changes with
  | false =>
    obtain ⟨hsettings, htable⟩ := r.answer_ne_installed hr p
    have hasked : Step.OnlyAsked p (.request r) (r.answer.run p).2 := by
      refine Step.onlyAsked_of_onlyAsks (r.onlyAsks_answer hr) p _ ?_ ?_
      · rintro ⟨⟩
        cases hr
      · rintro s ⟨⟩
        cases hr
    exact .asks hasked (fun h => hsettings (SessionAnswer.request.inj h))
      fun t h => htable t (SessionAnswer.request.inj h)
  | true =>
    cases r with
    | setVariable name value => exact .setVariable p name value _
    | currentSettings =>
      rw [step_currentSettings]
      exact .currentSettings p
    | installSettings s =>
      cases hsettings : p.settings with
      | none =>
        rw [step_installSettings_of_none hsettings]
        exact .installSettings s hsettings
      | some s' =>
        rw [step_installSettings_of_some hsettings]
        exact .rejectSettings s (by simp [hsettings])
    | installTable text => exact does_installTable p text
    | _ => cases hr

/-- **A call does one of the things there are to do.** -/
theorem does_step (p : Session) (c : SessionCall) : (p.step c).Does := by
  cases c with
  | request r => exact does_request p r
  | library c =>
    have hasked : Step.OnlyAsked p (.library c) (c.perform.run p).2 :=
      Step.onlyAsked_of_onlyAsks c.onlyAsks_perform p _ nofun nofun
    exact .asks hasked nofun nofun
  | installTable t =>
    have hasked : Step.OnlyAsked p (.installTable t) p :=
      ⟨fun hp => ⟨.refl p, hp⟩, rfl, nofun, nofun⟩
    cases htable : p.table with
    | none =>
      rw [step_installTable_of_none htable]
      exact .installTable t hasked htable
    | some t' =>
      rw [step_installTable_of_some htable]
      exact .asks hasked nofun nofun

theorem keepsSettings_step (hp : p.Consistent) (c : SessionCall) : (p.step c).KeepsSettings :=
  (does_step p c).keepsSettings hp

theorem keepsTable_step (p : Session) (c : SessionCall) : (p.step c).KeepsTable :=
  (does_step p c).keepsTable

end Calls

/-! ## Runs -/

namespace Session

/-- Steps lead from one session to another. -/
inductive Leads : Session → List Step → Session → Prop where
  | nil (p : Session) : Leads p [] p
  | cons {p q : Session} {c : SessionCall} {steps : List Step} : Leads (p.step c).after steps q →
      Leads p (p.step c :: steps) q

variable {p q : Session} {calls : List SessionCall} {earlier later steps : List Step} {x : Step}

/-- Every step of a run is the step of some call, behind the steps that lead to it. -/
theorem leads_of_steps (h : p.steps calls = earlier ++ x :: later) : ∃ q c cs, x = q.step c ∧
    p.Leads earlier q ∧ later = (q.step c).after.steps cs := by
  induction earlier generalizing p calls with
  | nil =>
    cases calls with
    | nil => cases h
    | cons c cs =>
      obtain ⟨rfl, rfl⟩ := List.cons.inj h
      exact ⟨p, c, cs, rfl, .nil p, rfl⟩
  | cons y earlier ih =>
    cases calls with
    | nil => cases h
    | cons c cs =>
      obtain ⟨rfl, hrest⟩ := List.cons.inj h
      obtain ⟨q, c', cs', hx, hleads, hlater⟩ := ih hrest
      exact ⟨q, c', cs', hx, .cons hleads, hlater⟩

namespace Leads

theorem consistent (h : p.Leads steps q) (hp : p.Consistent) : q.Consistent := by
  induction h with
  | nil => exact hp
  | cons _ ih => exact ih (keepsSettings_step hp _).consistent

theorem settings_of_some (h : p.Leads steps q) (hp : p.Consistent) {s : Settings}
    (hs : p.settings = some s) : q.settings = some s := by
  induction h with
  | nil => exact hs
  | @cons p q c steps _ ih =>
    have hstep := keepsSettings_step hp c
    exact ih hstep.consistent (hstep.settings s hs)

theorem table_of_some (h : p.Leads steps q) {t : OpcodeTable} (ht : p.table = some t) :
    q.table = some t := by
  induction h with
  | nil => exact ht
  | cons _ ih => exact ih ((keepsTable_step _ _).table t ht).1

/-- **The settings are fixed once a call has resolved them**, and not before. -/
theorem settings_eq_none_iff (h : p.Leads steps q) (hp : p.Consistent) (hnone : p.settings = none) :
    q.settings = none ↔ ∀ y ∈ steps, ¬ y.Resolves := by
  induction h with
  | nil => simp [hnone]
  | @cons p q c steps hrest ih =>
    have hstep := keepsSettings_step hp c
    rw [List.forall_mem_cons]
    by_cases hresolves : (p.step c).Resolves
    · have hq := hrest.settings_of_some hstep.consistent (hstep.resolved hnone hresolves)
      simp [hq, hresolves]
    · rw [ih hstep.consistent (hstep.unresolved hnone hresolves)]
      exact (and_iff_right hresolves).symm

/-- Where a table is installed none is installed any more. -/
theorem not_installedTable (h : p.Leads steps q) {t : OpcodeTable} (ht : p.table = some t) :
    ∀ y ∈ steps, ∀ t', ¬ y.InstalledTable t' := by
  induction h with
  | nil => exact List.forall_mem_nil _
  | @cons p q c steps _ ih =>
    obtain ⟨hafter, hinstalled⟩ := (keepsTable_step p c).table t ht
    exact List.forall_mem_cons.2 ⟨hinstalled, ih hafter⟩

/-- **There is a table once a call has installed it**, and it is the one that was installed. -/
theorem table_eq_some_iff (h : p.Leads steps q) (hnone : p.table = none) (t : OpcodeTable) :
    q.table = some t ↔ ∃ y ∈ steps, y.InstalledTable t := by
  induction h with
  | nil => simp [hnone]
  | @cons p q c steps hrest ih =>
    simp only [List.mem_cons, exists_eq_or_imp, ← (keepsTable_step p c).installed hnone t]
    cases htable : (p.step c).after.table with
    | none => simp [ih htable]
    | some t' =>
      have hnot : ¬ ∃ y ∈ steps, y.InstalledTable t := fun ⟨y, hy, hinstalled⟩ =>
        hrest.not_installedTable htable y hy t hinstalled
      rw [hrest.table_of_some htable]
      exact (or_iff_left hnot).symm

/-- Settings are installed where nothing has resolved them, and rejected otherwise. -/
theorem step_installSettings (h : p.Leads steps q) (hp : p.Consistent) (hnone : p.settings = none)
    (s : Settings) :
    (∀ y ∈ steps, ¬ y.Resolves) ∧ q.step (.request (.installSettings s)) =
        ⟨q, .request (.installSettings s), .request .settingsInstalled,
          { q with settings := some s }⟩ ∨
      (∃ y ∈ steps, y.Resolves) ∧ q.step (.request (.installSettings s)) =
        ⟨q, .request (.installSettings s), .request (.settingsRejected s), q⟩ := by
  have hresolved := h.settings_eq_none_iff hp hnone
  cases hq : q.settings with
  | none => exact .inl ⟨hresolved.1 hq, step_installSettings_of_none hq s⟩
  | some s' =>
    refine .inr ⟨?_, step_installSettings_of_some hq s⟩
    by_contra hnever
    push Not at hnever
    cases hq.symm.trans (hresolved.2 hnever)

/-- A table is installed where none is installed before, and rejected otherwise. -/
theorem step_installTable (h : p.Leads steps q) (hnone : p.table = none) (t : OpcodeTable) :
    (∀ y ∈ steps, ∀ t', ¬ y.InstalledTable t') ∧ q.step (.installTable t) =
        ⟨q, .installTable t, .request (.tableInstalled t), q.withTable t⟩ ∨
      (∃ y ∈ steps, ∃ t', y.InstalledTable t') ∧ q.step (.installTable t) =
        ⟨q, .installTable t, .request (.tableRejected t), q⟩ := by
  have htable := h.table_eq_some_iff hnone
  cases hq : q.table with
  | none =>
    refine .inl ⟨fun y hy t' hinstalled => ?_, step_installTable_of_none hq t⟩
    cases hq.symm.trans ((htable t').2 ⟨y, hy, hinstalled⟩)
  | some t' =>
    obtain ⟨y, hy, hinstalled⟩ := (htable t').1 hq
    exact .inr ⟨⟨y, hy, t', hinstalled⟩, step_installTable_of_some hq t⟩

end Leads

/-- Settings that are fixed are those of every session behind. -/
theorem steps_of_settings (hp : p.Consistent) {s : Settings} (hs : p.settings = some s)
    (hx : x ∈ p.steps calls) :
    ∃ (q : Session) (c : SessionCall), x = q.step c ∧ q.Consistent ∧ q.settings = some s := by
  obtain ⟨earlier, later, hsteps⟩ := List.append_of_mem hx
  obtain ⟨q, c, -, hxq, hleads, -⟩ := leads_of_steps hsteps
  exact ⟨q, c, hxq, hleads.consistent hp, hleads.settings_of_some hp hs⟩

end Session

/-! ## What is set once -/

/-- A call that finds the settings fixed: it leaves them, is told them, and the caches have the
capacities that they give. -/
structure Step.Follows (x : Step) (s : Settings) : Prop where
  settings : x.after.settings = some s
  current : x.call = .request .currentSettings → x.answer = .request (.settings s)
  trees : ∀ c, x.after.trees = some c → c.capacity = max s.treeCacheSize 1
  inversions : ∀ m, x.after.inversions = some m → m.capacity = max s.inversionCacheSize 1

/-- What is set once, said of a step between those before and behind it. -/
structure SetOnce (earlier : List Step) (x : Step) (later : List Step) : Prop where
  /-- Settings are installed if no call before has resolved them. Otherwise they are handed back,
  and nothing is changed. -/
  installSettings : ∀ s, x.call = .request (.installSettings s) →
    (∀ y ∈ earlier, ¬ y.Resolves) ∧ x.answer = .request .settingsInstalled ∧
        x.after = { x.before with settings := some s } ∨
      (∃ y ∈ earlier, y.Resolves) ∧ x.answer = .request (.settingsRejected s) ∧
        x.after = x.before
  /-- No more than one installation of settings succeeds. -/
  installedOnce : x.answer = .request .settingsInstalled →
    ∀ y ∈ later, y.answer ≠ .request .settingsInstalled
  /-- The first call that resolves the settings fixes them for itself and for all behind it. -/
  settings : (∀ y ∈ earlier, ¬ y.Resolves) → x.Resolves → ∀ y ∈ x :: later, y.Follows x.offered
  /-- A table is installed if none is installed before. Otherwise it is handed back, and nothing is
  changed. -/
  installTable : ∀ t, x.call = .installTable t →
    (∀ y ∈ earlier, ∀ t', ¬ y.InstalledTable t') ∧ x.InstalledTable t ∧
        x.after = { x.before with table := some t } ∨
      (∃ y ∈ earlier, ∃ t', y.InstalledTable t') ∧ x.answer = .request (.tableRejected t) ∧
        x.after = x.before
  /-- The table that was installed is there from then on, and before there is none. -/
  table : ∀ t, x.before.table = some t ↔ ∃ y ∈ earlier, y.InstalledTable t
  /-- Calls that use a cache have it in use behind them, and so resolve the settings. -/
  inUse : (x.call.UsesTrees → x.after.trees ≠ none) ∧
    (x.call.UsesInversions → x.after.inversions ≠ none)
  /-- Whoever asks for the table is given it. -/
  summary : x.call = .request (.askTable .summary) →
    x.answer = .request (match x.before.table with
      | some t => .table (.summary t)
      | none => .noTable) ∧ x.after = x.before

/-- A call that leaves settings fixed follows them. -/
theorem follows_of_settings {p : Session} (hp : p.Consistent) {c : SessionCall} {s : Settings}
    (hs : (p.step c).after.settings = some s) : (p.step c).Follows s := by
  have hafter := (keepsSettings_step hp c).consistent
  refine ⟨hs, fun hcall => ?_, fun cache hcache => ?_, fun memo hmemo => ?_⟩
  · obtain rfl : c = .request .currentSettings := hcall
    rw [step_currentSettings p] at hs ⊢
    rw [← Option.some.inj hs]
  · obtain ⟨s', hs', hcapacity⟩ := hafter.trees cache hcache
    obtain rfl := Option.some.inj (hs.symm.trans hs')
    exact hcapacity
  · obtain ⟨s', hs', hcapacity⟩ := hafter.inversions memo hmemo
    obtain rfl := Option.some.inj (hs.symm.trans hs')
    exact hcapacity

variable {env : Environment} {calls : List SessionCall} {earlier later : List Step} {x : Step}

/-- **What the calls in a session share is set once**, whatever they are and in whichever order. -/
theorem set_once (h : (Session.start env).steps calls = earlier ++ x :: later) :
    SetOnce earlier x later := by
  have hstart : (Session.start env).Consistent := ⟨nofun, nofun⟩
  obtain ⟨p, c, cs, rfl, hleads, rfl⟩ := Session.leads_of_steps h
  have hp := hleads.consistent hstart
  have hstep := keepsSettings_step hp c
  refine {
    installSettings := fun s hcall => ?_
    installedOnce := fun hinstalled y hy => ?_
    settings := fun hfirst hresolves y hy => ?_
    installTable := fun t hcall => ?_
    table := hleads.table_eq_some_iff rfl
    inUse := ⟨fun hcall => (SessionCall.needs_trees hcall).inUse p hp,
      fun hcall => (SessionCall.needs_inversions hcall).inUse p hp⟩
    summary := fun hcall => ?_ }
  · obtain rfl : c = .request (.installSettings s) := hcall
    obtain ⟨hfirst, hinstall⟩ | ⟨hlate, hinstall⟩ := hleads.step_installSettings hstart rfl s
    · rw [hinstall]
      exact .inl ⟨hfirst, rfl, rfl⟩
    · rw [hinstall]
      exact .inr ⟨hlate, rfl, rfl⟩
  · obtain ⟨⟨s, rfl⟩, hnone⟩ := (does_step p c).installs hinstalled
    have hs : (p.step (.request (.installSettings s))).after.settings = some s :=
      hstep.resolved hnone (.inr (.inl ⟨s, rfl⟩))
    obtain ⟨q, c', rfl, -, hq⟩ := Session.steps_of_settings hstep.consistent hs hy
    intro hagain
    cases hq.symm.trans ((does_step q c').installs hagain).2
  · have hs := hstep.resolved ((hleads.settings_eq_none_iff hstart rfl).2 hfirst) hresolves
    rcases List.mem_cons.1 hy with rfl | hy
    · exact follows_of_settings hp hs
    · obtain ⟨q, c', rfl, hconsistent, hq⟩ := Session.steps_of_settings hstep.consistent hs hy
      exact follows_of_settings hconsistent ((keepsSettings_step hconsistent c').settings _ hq)
  · obtain rfl : c = .installTable t := hcall
    obtain ⟨hfirst, hinstall⟩ | ⟨hlate, hinstall⟩ := hleads.step_installTable rfl t
    · rw [hinstall]
      exact .inl ⟨hfirst, rfl, rfl⟩
    · rw [hinstall]
      exact .inr ⟨hlate, rfl, rfl⟩
  · obtain rfl : c = .request (.askTable .summary) := hcall
    obtain ⟨env, settings, trees, inversions, table⟩ := p
    cases table <;> exact ⟨rfl, rfl⟩

/-- Compiling comes first and fixes the settings that the environment gives. Settings that are
installed behind it are handed back, and the cache has the capacity of those that were fixed. -/
theorem set_once_by_compiling :
    let env : Environment := [(Settings.treeCacheVariable, "2")]
    let compile : SessionCall := .library (.compile "arg" .arg)
    let install : SessionCall := .request (.installSettings ⟨8, 8⟩)
    ∃ x y : Step, (Session.start env).steps [compile, install] = [x, y] ∧
      y.answer = .request (.settingsRejected ⟨8, 8⟩) ∧ y.after.settings = some ⟨2, 4096⟩ ∧
      ∀ c, y.after.trees = some c → c.capacity = 2 := by
  intro env compile install
  let x := (Session.start env).step compile
  let y := x.after.step install
  have hsteps : (Session.start env).steps [compile, install] = [] ++ x :: [y] := rfl
  have hresolves : x.Resolves := by
    have hused : x.after.trees.isSome := by decide +kernel
    exact .inr (.inr (.inl fun hnone => by simp [hnone] at hused))
  have hoffered : x.offered = ⟨2, 4096⟩ := by decide +kernel
  have hfollows := (set_once hsteps).settings (List.forall_mem_nil _) hresolves y
    (List.mem_cons_of_mem x List.mem_cons_self)
  rw [hoffered] at hfollows
  have hinstall := (set_once (show _ = [x] ++ y :: [] from hsteps)).installSettings ⟨8, 8⟩ rfl
  obtain ⟨hnone, -⟩ | ⟨-, hanswer, -⟩ := hinstall
  · exact absurd hresolves (hnone x List.mem_cons_self)
  · exact ⟨x, y, hsteps, hanswer, hfollows.settings, hfollows.trees⟩

end OperandCodec
