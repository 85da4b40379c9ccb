import OperandCodec.Proofs.Asking
import OperandCodec.Session.Steps
/-!
# What asking does to a session

A cache takes its capacity from the settings at its first use, and from then
on the settings are fixed: this is what a session keeps to
(`Session.Consistent`) however it is asked. Asking changes nothing but that.
If it fixes the settings, they are those that were in effect, and a cache is
in use that needed them (`OnlyAsks.asked`). Some calls cannot do without a
cache, whatever they come to (`SessionCall.UsesTrees`,
`SessionCall.UsesInversions`).
-/

namespace OperandCodec

/-! ## Settings and caches -/

namespace Session

/-- The settings that are fixed, or would be if they were needed now. -/
def effectiveSettings (p : Session) : Settings :=
  p.settings.getD (.ofEnvironment p.environment)

/-- A cache in use has the capacity that the settings give it, and so the settings are fixed. -/
structure Consistent (p : Session) : Prop where
  trees : ∀ c, p.trees = some c → ∃ s, p.settings = some s ∧ c.capacity = max s.treeCacheSize 1
  inversions : ∀ m, p.inversions = some m →
    ∃ s, p.settings = some s ∧ m.capacity = max s.inversionCacheSize 1

theorem Consistent.exists_settings {p : Session} (hp : p.Consistent)
    (hused : p.trees ≠ none ∨ p.inversions ≠ none) : ∃ s, p.settings = some s := by
  obtain hused | hused := hused
  · obtain ⟨c, hc⟩ := Option.ne_none_iff_exists'.1 hused
    exact (hp.trees c hc).imp fun _ => And.left
  · obtain ⟨m, hm⟩ := Option.ne_none_iff_exists'.1 hused
    exact (hp.inversions m hm).imp fun _ => And.left

theorem Consistent.withSettings {p : Session} (hp : p.Consistent) {s : Settings}
    (h : ∀ s', p.settings = some s' → s = s') : Consistent { p with settings := some s } := by
  refine ⟨fun c hc => ?_, fun m hm => ?_⟩
  · obtain ⟨s', hs', hcapacity⟩ := hp.trees c hc
    exact ⟨s, rfl, by rw [h s' hs', hcapacity]⟩
  · obtain ⟨s', hs', hcapacity⟩ := hp.inversions m hm
    exact ⟨s, rfl, by rw [h s' hs', hcapacity]⟩

/-- A session with a cache of trees in use. -/
def withTrees (p : Session) (c : TreeCache) : Session :=
  { p with settings := some p.effectiveSettings, trees := some c }

/-- A session with a memo of inversions in use. -/
def withInversions (p : Session) (m : InversionMemo) : Session :=
  { p with settings := some p.effectiveSettings, inversions := some m }

/-- A session with a table installed. -/
def withTable (p : Session) (t : OpcodeTable) : Session :=
  { p with table := some t }

/-- What asking does to a session: if it changes the settings at all, it fixes them as they are in
effect, and a cache is in use then. -/
structure Asked (p q : Session) : Prop where
  environment : q.environment = p.environment
  settings : q.settings = p.settings ∨
    q.settings = some p.effectiveSettings ∧ (q.trees ≠ none ∨ q.inversions ≠ none)
  trees : p.trees ≠ none → q.trees ≠ none
  inversions : p.inversions ≠ none → q.inversions ≠ none

variable {p q r : Session}

theorem effectiveSettings_of_some {s : Settings} (h : p.settings = some s) :
    p.effectiveSettings = s := by
  rw [effectiveSettings, h, Option.getD_some]

theorem effectiveSettings_of_none (h : p.settings = none) :
    p.effectiveSettings = .ofEnvironment p.environment := by
  rw [effectiveSettings, h, Option.getD_none]

theorem run_currentSettings (p : Session) : currentSettings.run p =
    (p.effectiveSettings, { p with settings := some p.effectiveSettings }) := by
  obtain ⟨env, settings, trees, inversions, table⟩ := p
  cases settings <;> rfl

theorem Asked.refl (p : Session) : p.Asked p :=
  ⟨rfl, .inl rfl, id, id⟩

theorem Asked.effectiveSettings_eq (h : p.Asked q) : q.effectiveSettings = p.effectiveSettings := by
  obtain hq | ⟨hq, -⟩ := h.settings
  · rw [effectiveSettings, effectiveSettings, hq, h.environment]
  · exact effectiveSettings_of_some hq

theorem Asked.trans (h : p.Asked q) (h' : q.Asked r) : p.Asked r where
  environment := h'.environment.trans h.environment
  trees hp := h'.trees (h.trees hp)
  inversions hp := h'.inversions (h.inversions hp)
  settings := by
    obtain hr | ⟨hr, hused⟩ := h'.settings
    · rw [hr]
      exact h.settings.imp_right fun ⟨hq, hused⟩ => ⟨hq, hused.imp h'.trees h'.inversions⟩
    · exact .inr ⟨by rw [hr, h.effectiveSettings_eq], hused⟩

theorem asked_withTrees (p : Session) (c : TreeCache) : p.Asked (p.withTrees c) :=
  ⟨rfl, .inr ⟨rfl, .inl nofun⟩, fun _ => nofun, id⟩

theorem asked_withInversions (p : Session) (m : InversionMemo) : p.Asked (p.withInversions m) :=
  ⟨rfl, .inr ⟨rfl, .inr nofun⟩, id, fun _ => nofun⟩

theorem Consistent.withTrees (hp : p.Consistent) {c : TreeCache}
    (hc : c.capacity = max p.effectiveSettings.treeCacheSize 1) : (p.withTrees c).Consistent := by
  refine ⟨fun c' hc' => ?_, fun m hm => ?_⟩
  · cases hc'
    exact ⟨_, rfl, hc⟩
  · obtain ⟨s, hs, hcapacity⟩ := hp.inversions m hm
    exact ⟨_, rfl, by rw [hcapacity, effectiveSettings_of_some hs]⟩

theorem Consistent.withInversions (hp : p.Consistent) {m : InversionMemo}
    (hm : m.capacity = max p.effectiveSettings.inversionCacheSize 1) :
    (p.withInversions m).Consistent := by
  refine ⟨fun c hc => ?_, fun m' hm' => ?_⟩
  · obtain ⟨s, hs, hcapacity⟩ := hp.trees c hc
    exact ⟨_, rfl, by rw [hcapacity, effectiveSettings_of_some hs]⟩
  · cases hm'
    exact ⟨_, rfl, hm⟩

theorem Asked.withTable (h : p.Asked q) (t : OpcodeTable) : p.Asked (q.withTable t) :=
  ⟨h.environment, h.settings, h.trees, h.inversions⟩

theorem Consistent.withTable (hp : p.Consistent) (t : OpcodeTable) : (p.withTable t).Consistent :=
  ⟨hp.trees, hp.inversions⟩

/-- Once the cache of trees is asked for it is in use, with the capacity of the settings that are in
effect. -/
theorem run_treeCache (hp : p.Consistent) : ∃ c, treeCache.run p = (c, p.withTrees c) ∧
    c.capacity = max p.effectiveSettings.treeCacheSize 1 := by
  obtain ⟨env, settings, trees, inversions, table⟩ := p
  cases trees with
  | some c =>
    obtain ⟨s, hs, hcapacity⟩ := hp.trees c rfl
    cases hs
    exact ⟨c, rfl, hcapacity⟩
  | none => cases settings <;> exact ⟨_, rfl, rfl⟩

theorem run_inversionMemo (hp : p.Consistent) : ∃ m,
    inversionMemo.run p = (m, p.withInversions m) ∧
      m.capacity = max p.effectiveSettings.inversionCacheSize 1 := by
  obtain ⟨env, settings, trees, inversions, table⟩ := p
  cases inversions with
  | some m =>
    obtain ⟨s, hs, hcapacity⟩ := hp.inversions m rfl
    cases hs
    exact ⟨m, rfl, hcapacity⟩
  | none => cases settings <;> exact ⟨_, rfl, rfl⟩

theorem capacity_tree (c : TreeCache) (source : String) (v : Variable) :
    (c.tree source v).2.capacity = c.capacity := by
  unfold TreeCache.tree
  dsimp only
  split
  · rfl
  · split <;> rfl

theorem capacity_invert (m : InversionMemo) (key : InversionKey) (e : Expr) :
    (m.invert key e).2.capacity = m.capacity := by
  unfold InversionMemo.invert
  dsimp only
  split <;> rfl

/-- A question about a tree has the cache of trees in use. -/
theorem run_tree (hp : p.Consistent) (source : String) (v : Variable) : ∃ c,
    ((tree source v).run p).2 = p.withTrees c ∧
      c.capacity = max p.effectiveSettings.treeCacheSize 1 := by
  obtain ⟨c, hrun, hcapacity⟩ := run_treeCache hp
  refine ⟨(c.tree source v).2, ?_, (capacity_tree c source v).trans hcapacity⟩
  rw [tree, StateT.run_bind, hrun]
  rfl

/-- A question about an inversion has the memo of inversions in use. -/
theorem run_invert (hp : p.Consistent) (c : Computation) (target : Value) (width : Nat) : ∃ m,
    ((invert c target width).run p).2 = p.withInversions m ∧
      m.capacity = max p.effectiveSettings.inversionCacheSize 1 := by
  obtain ⟨m, hrun, hcapacity⟩ := run_inversionMemo hp
  refine ⟨(m.invert ⟨c.source, c.var, target, width⟩ c.expr).2, ?_,
    (capacity_invert m _ c.expr).trans hcapacity⟩
  rw [invert, StateT.run_bind, hrun]
  rfl

end Session

/-- **What only asks keeps the caches to the settings.** -/
theorem OnlyAsks.asked {α : Type} {x : SessionM α} (h : OnlyAsks x) {p : Session}
    (hp : p.Consistent) : p.Asked (x.run p).2 ∧ (x.run p).2.Consistent := by
  let R (p q : Session) : Prop := p.Consistent → p.Asked q ∧ q.Consistent
  have htrans : ∀ p q r, R p q → R q r → R p r := fun p q r hpq hqr hp =>
    have ⟨hasked, hq⟩ := hpq hp
    have ⟨hasked', hr⟩ := hqr hq
    ⟨hasked.trans hasked', hr⟩
  have htrees : ∀ p : Session, ∀ c : TreeCache,
      c.capacity = max p.effectiveSettings.treeCacheSize 1 → R p (p.withTrees c) :=
    fun p c hcapacity hp => ⟨p.asked_withTrees c, hp.withTrees hcapacity⟩
  have hinversions : ∀ p : Session, ∀ m : InversionMemo,
      m.capacity = max p.effectiveSettings.inversionCacheSize 1 → R p (p.withInversions m) :=
    fun p m hcapacity hp => ⟨p.asked_withInversions m, hp.withInversions hcapacity⟩
  refine h.related (R := R) (fun p hp => ⟨.refl p, hp⟩) htrans (fun p hp => ?_) (fun p hp => ?_)
    (fun source v p hp => ?_) (fun c target width p hp => ?_) p hp
  · obtain ⟨c, hrun, hcapacity⟩ := Session.run_treeCache hp
    rw [hrun]
    exact htrees p c hcapacity hp
  · obtain ⟨m, hrun, hcapacity⟩ := Session.run_inversionMemo hp
    rw [hrun]
    exact hinversions p m hcapacity hp
  · obtain ⟨c, hrun, hcapacity⟩ := Session.run_tree hp source v
    rw [hrun]
    exact htrees p c hcapacity hp
  · obtain ⟨m, hrun, hcapacity⟩ := Session.run_invert hp c target width
    rw [hrun]
    exact hinversions p m hcapacity hp

/-- What only asks keeps the table. -/
theorem OnlyAsks.table_eq {α : Type} {x : SessionM α} (h : OnlyAsks x) (p : Session) :
    (x.run p).2.table = p.table := by
  have htreeCache : ∀ p, (Session.treeCache.run p).2.table = p.table := by
    rintro ⟨env, settings, trees, inversions, table⟩
    cases trees <;> cases settings <;> rfl
  have hinversionMemo : ∀ p, (Session.inversionMemo.run p).2.table = p.table := by
    rintro ⟨env, settings, trees, inversions, table⟩
    cases inversions <;> cases settings <;> rfl
  exact h.related (R := fun p q => q.table = p.table) (fun _ => rfl)
    (fun _ _ _ h h' => h'.trans h) htreeCache hinversionMemo (fun _ _ => htreeCache)
    (fun _ _ _ => hinversionMemo) p

/-! ## Calls that cannot do without a cache -/

/-- A calculation only asks, and leaves a session in which something is in use that asking leaves in
use. -/
structure Needs (inUse : Session → Prop) {α : Type} (x : SessionM α) : Prop where
  onlyAsks : OnlyAsks x
  stays : ∀ p q : Session, p.Asked q → inUse p → inUse q
  inUse : ∀ p : Session, p.Consistent → inUse (x.run p).2

section Needs

variable {inUse : Session → Prop} {ε α β : Type}

theorem Needs.bind {x : SessionM α} {f : α → SessionM β} (hx : Needs inUse x)
    (hf : ∀ a, OnlyAsks (f a)) : Needs inUse (x >>= f) := by
  refine ⟨hx.onlyAsks.bind hf, hx.stays, fun p hp => ?_⟩
  obtain ⟨-, hconsistent⟩ := hx.onlyAsks.asked hp
  exact hx.stays _ _ ((hf _).asked hconsistent).1 (hx.inUse p hp)

theorem Needs.lift {x : SessionM α} (hx : Needs inUse x) :
    Needs inUse (liftM x : ExceptT ε SessionM α).run :=
  hx.bind fun _ => .pure _

theorem Needs.bindExcept {x : ExceptT ε SessionM α} {f : α → ExceptT ε SessionM β}
    (hx : Needs inUse x.run) (hf : ∀ a, OnlyAsks (f a).run) : Needs inUse (x >>= f).run := by
  rw [ExceptT.run_bind]
  refine hx.bind fun a => ?_
  cases a with
  | error e => exact .pure _
  | ok a => exact hf a

theorem Needs.orFailed {x : ExceptT Error SessionM α} (hx : Needs inUse x.run)
    (f : α → CallAnswer) : Needs inUse (Call.answer.orFailed f x) := by
  refine hx.bind fun a => ?_
  cases a <;> exact .pure _

/-- An answer is handed on by the request and by the call. -/
theorem Needs.answer {x : SessionM α} (hx : Needs inUse x) (f : α → Answer) :
    Needs inUse (do return SessionAnswer.request (← (do return f (← x)))) :=
  (hx.bind fun _ => .pure _).bind fun _ => .pure _

/-- What leaves a cache of trees behind needs it. -/
theorem needs_trees {x : SessionM α} (h : OnlyAsks x)
    (hrun : ∀ p : Session, p.Consistent → ∃ c, (x.run p).2 = p.withTrees c) :
    Needs (·.trees ≠ none) x := by
  refine ⟨h, fun _ _ hasked => hasked.trees, fun p hp => ?_⟩
  obtain ⟨c, hc⟩ := hrun p hp
  rw [hc]
  nofun

/-- What leaves a memo of inversions behind needs it. -/
theorem needs_inversions {x : SessionM α} (h : OnlyAsks x)
    (hrun : ∀ p : Session, p.Consistent → ∃ m, (x.run p).2 = p.withInversions m) :
    Needs (·.inversions ≠ none) x := by
  refine ⟨h, fun _ _ hasked => hasked.inversions, fun p hp => ?_⟩
  obtain ⟨m, hm⟩ := hrun p hp
  rw [hm]
  nofun

theorem needs_treeCache : Needs (·.trees ≠ none) Session.treeCache :=
  needs_trees .treeCache fun _ hp => (Session.run_treeCache hp).imp fun _ h => by rw [h.1]

theorem needs_inversionMemo : Needs (·.inversions ≠ none) Session.inversionMemo :=
  needs_inversions .inversionMemo fun _ hp =>
    (Session.run_inversionMemo hp).imp fun _ h => by rw [h.1]

theorem needs_compile (source : String) (v : Variable) :
    Needs (·.trees ≠ none) (Computation.compile source v).run := by
  have htree : Needs (·.trees ≠ none) (Session.tree source v) :=
    needs_trees (.tree source v) fun _ hp => (Session.run_tree hp source v).imp fun _ h => h.1
  exact htree.lift.bindExcept fun _ => .ofExcept _

theorem needs_evaluate (source : String) (v : Variable) (x : Value) :
    Needs (·.trees ≠ none) (Computation.evaluate source v x).run :=
  (needs_compile source v).bindExcept fun _ => .ofExcept _

theorem needs_invert (c : Computation) (target : Value) (width : Nat) :
    Needs (·.inversions ≠ none) (c.invert target width).run := by
  have hinvert : Needs (·.inversions ≠ none) (Session.invert c target width) :=
    needs_inversions (.invert c target width) fun _ hp =>
      (Session.run_invert hp c target width).imp fun _ h => h.1
  refine hinvert.lift.bindExcept fun outcome => ?_
  cases outcome with
  | found raws => exact .pure _
  | failed fault => exact .throw _

/-- The calls that use the cache of trees, whatever they come to. -/
def SessionCall.UsesTrees : SessionCall → Prop
  | .request .treeStatistics | .request (.call (.compile _ _))
  | .request (.call (.evaluate _ _ _)) | .request (.call (.invert _ _ _ _))
  | .library (.compile _ _) | .library (.evaluate _ _ _) => True
  | _ => False

/-- The calls that use the memo of inversions, whatever they come to. -/
def SessionCall.UsesInversions : SessionCall → Prop
  | .request .inversionStatistics | .library (.invert _ _ _) => True
  | _ => False

theorem SessionCall.needs_trees {c : SessionCall} (h : c.UsesTrees) :
    Needs (·.trees ≠ none) c.perform := by
  unfold UsesTrees at h
  split at h
  · exact needs_treeCache.answer .trees
  · rename_i source v
    exact ((needs_compile source v).orFailed _).answer .call
  · rename_i source v x
    exact ((needs_evaluate source v x).orFailed _).answer .call
  · rename_i source v target width
    refine Needs.answer (Needs.orFailed ?_ _) .call
    exact (needs_compile source v).bindExcept fun c => onlyAsks_invert c target width
  · rename_i source v
    exact ((needs_compile source v).bind fun _ => .pure _).bind fun _ => .pure _
  · rename_i source v x
    exact ((needs_evaluate source v x).bind fun _ => .pure _).bind fun _ => .pure _
  · cases h

theorem SessionCall.needs_inversions {c : SessionCall} (h : c.UsesInversions) :
    Needs (·.inversions ≠ none) c.perform := by
  unfold UsesInversions at h
  split at h
  · exact needs_inversionMemo.answer .inversions
  · rename_i c target width
    exact ((needs_invert c target width).bind fun _ => .pure _).bind fun _ => .pure _
  · cases h

end Needs

end OperandCodec
