import OperandCodec.Proofs.Caches
import OperandCodec.Proofs.Compiled
/-!
# Answers from the caches and answers afresh

A session is faithful where its caches are and its table is compiled. In a
faithful session a question about a computation has the answer that is found
afresh, and the session stays faithful (`Settles`). From the two questions
this carries over to everything that is written in terms of them
(`Agrees`): each way of putting calculations together has its law here, and
the functions follow their definitions.
-/

namespace OperandCodec

/-- A session in which nothing but what would be calculated is kept. -/
structure Session.Faithful (p : Session) : Prop where
  trees : ∀ c, p.trees = some c → c.Faithful
  inversions : ∀ m, p.inversions = some m → m.Faithful
  table : ∀ t, p.table = some t → ∀ c ∈ t.computations, c.Compiled

/-- In a faithful session the answer is `a`; the session stays faithful and keeps its table. -/
def Settles {α : Type} (x : SessionM α) (a : α) : Prop :=
  ∀ p : Session, p.Faithful →
    (x.run p).1 = a ∧ (x.run p).2.Faithful ∧ (x.run p).2.table = p.table

/-- In a faithful session a calculation has the outcome that it has afresh; the session stays
faithful and keeps its table. -/
def Agrees {ε α : Type} (x : ExceptT ε SessionM α) (y : ExceptT ε Id α) : Prop :=
  Settles x.run (afresh y)

/-! ## Laws -/

section Laws

variable {ε ε' α β : Type}

theorem Settles.pure (a : α) : Settles (pure a) a :=
  fun _ hp => ⟨rfl, hp, rfl⟩

/-- What follows a settled question goes on with its answer. -/
theorem Settles.run_bind {x : SessionM α} {a : α} (hx : Settles x a) {p : Session}
    (hp : p.Faithful) (f : α → SessionM β) : (x >>= f).run p = (f a).run (x.run p).2 := by
  rw [← (hx p hp).1]
  rfl

theorem Settles.bind {x : SessionM α} {a : α} {f : α → SessionM β} {b : β} (hx : Settles x a)
    (hf : Settles (f a) b) : Settles (x >>= f) b := by
  intro p hp
  obtain ⟨-, hfaithful, htable⟩ := hx p hp
  rw [hx.run_bind hp, ← htable]
  exact hf _ hfaithful

theorem Agrees.pure (a : α) : Agrees (pure a : ExceptT ε SessionM α) (pure a) :=
  Settles.pure _

theorem Agrees.throw (e : ε) : Agrees (throw e : ExceptT ε SessionM α) (throw e) :=
  Settles.pure _

theorem Agrees.ofExcept (x : Except ε α) :
    Agrees (MonadExcept.ofExcept x : ExceptT ε SessionM α) (MonadExcept.ofExcept x) := by
  cases x with
  | error e => exact .throw e
  | ok a => exact .pure a

/-- A step agrees that follows another where both agree; the second may rely on the outcome of the
first. -/
theorem Agrees.bind {x : ExceptT ε SessionM α} {y : ExceptT ε Id α} {f : α → ExceptT ε SessionM β}
    {g : α → ExceptT ε Id β} (hx : Agrees x y)
    (hf : ∀ a, afresh y = .ok a → Agrees (f a) (g a)) : Agrees (x >>= f) (y >>= g) := by
  unfold Agrees
  rw [afresh_bind, ExceptT.run_bind]
  refine Settles.bind hx ?_
  -- a failure of the first step is the outcome of both, and the second step is not reached
  cases h : afresh y with
  | error e => exact Settles.pure _
  | ok a => exact hf a h

theorem Agrees.lift {x : SessionM α} {y : Id α} (h : Settles x y.run) :
    Agrees (liftM x : ExceptT ε SessionM α) (liftM y) := by
  intro p hp
  obtain ⟨hanswer, hkept⟩ := h p hp
  exact ⟨congrArg Except.ok hanswer, hkept⟩

theorem Agrees.tryCatch_throw {x : ExceptT ε SessionM α} {y : ExceptT ε Id α} (h : Agrees x y)
    (f : ε → ε) :
    Agrees (tryCatch x fun e => MonadExcept.throw (f e))
      (tryCatch y fun e => MonadExcept.throw (f e)) := by
  unfold Agrees
  rw [afresh_tryCatch_throw, ExceptT.run_tryCatch]
  refine Settles.bind h ?_
  cases afresh y <;> exact Settles.pure _

theorem Agrees.adapt {x : ExceptT ε SessionM α} {y : ExceptT ε Id α} (h : Agrees x y) (f : ε → ε') :
    Agrees (ExceptT.adapt f x) (ExceptT.adapt f y) := by
  intro p hp
  obtain ⟨hanswer, hkept⟩ := h p hp
  exact ⟨congrArg (Except.mapError f) hanswer, hkept⟩

theorem Agrees.foldlM {f : β → α → ExceptT ε SessionM β} {g : β → α → ExceptT ε Id β} {as : List α}
    (h : ∀ a ∈ as, ∀ b, Agrees (f b a) (g b a)) (b : β) :
    Agrees (as.foldlM f b) (as.foldlM g b) := by
  induction as generalizing b with
  | nil => exact .pure b
  | cons a as ih =>
    refine .bind (h a List.mem_cons_self b) fun b' _ => ?_
    exact ih (fun x hx => h x (List.mem_cons_of_mem a hx)) b'

theorem Agrees.mapM {f : α → ExceptT ε SessionM β} {g : α → ExceptT ε Id β} {as : List α}
    (h : ∀ a, Agrees (f a) (g a)) : Agrees (as.mapM f) (as.mapM g) := by
  induction as with
  | nil => exact .pure []
  | cons a as ih =>
    rw [List.mapM_cons, List.mapM_cons]
    exact .bind (h a) fun b _ => .bind ih fun bs _ => .pure (b :: bs)

end Laws

/-! ## The two questions -/

namespace Session

variable {p : Session}

theorem Faithful.currentSettings (hp : p.Faithful) : (currentSettings.run p).2.Faithful := by
  obtain ⟨env, settings, trees, inversions, table⟩ := p
  cases settings <;> exact ⟨hp.trees, hp.inversions, hp.table⟩

/-- The cache of trees of a faithful session is faithful, also where it is new. -/
theorem Faithful.treeCache (hp : p.Faithful) : (treeCache.run p).1.Faithful ∧
    (treeCache.run p).2.Faithful ∧ (treeCache.run p).2.table = p.table := by
  obtain ⟨env, settings, trees, inversions, table⟩ := p
  cases trees with
  | some c => exact ⟨hp.trees c rfl, hp, rfl⟩
  | none =>
    -- the size comes from the settings, which may be fixed only now; a new cache is empty anyway
    have hnew : ∀ size, (TreeCache.ofSize size).Faithful := TreeCache.faithful_ofSize
    cases settings <;>
      exact ⟨hnew _, ⟨fun c hc => Option.some.inj hc ▸ hnew _, hp.inversions, hp.table⟩, rfl⟩

/-- The memo of inversions of a faithful session is faithful, also where it is new. -/
theorem Faithful.inversionMemo (hp : p.Faithful) : (inversionMemo.run p).1.Faithful ∧
    (inversionMemo.run p).2.Faithful ∧ (inversionMemo.run p).2.table = p.table := by
  obtain ⟨env, settings, trees, inversions, table⟩ := p
  cases inversions with
  | some m => exact ⟨hp.inversions m rfl, hp, rfl⟩
  | none =>
    have hnew : ∀ size, (InversionMemo.ofSize size).Faithful := InversionMemo.faithful_ofSize
    cases settings <;>
      exact ⟨hnew _, ⟨hp.trees, fun m hm => Option.some.inj hm ▸ hnew _, hp.table⟩, rfl⟩

/-- **The tree of a source is the one that parsing gives.** -/
theorem settles_tree (source : String) (v : Variable) :
    Settles (tree source v) (Expr.ofSource source v) := by
  intro p hp
  obtain ⟨hc, hp', htable⟩ := hp.treeCache
  refine ⟨hc.tree_eq, ⟨fun c h => ?_, hp'.inversions, hp'.table⟩, htable⟩
  exact Option.some.inj h ▸ hc.tree

/-- **The inversion of a compiled computation is the outcome of its search.** -/
theorem settles_invert {c : Computation} (hc : c.Compiled) (target : Value) (width : Nat) :
    Settles (invert c target width) (c.expr.search target width) := by
  intro p hp
  obtain ⟨hm, hp', htable⟩ := hp.inversionMemo
  refine ⟨hm.invert_eq hc, ⟨hp'.trees, fun m h => ?_, hp'.table⟩, htable⟩
  exact Option.some.inj h ▸ hm.invert hc

end Session

/-! ## What is written in terms of them -/

theorem agrees_compile (source : String) (v : Variable) :
    Agrees (Computation.compile source v) (Computation.compile source v) :=
  .bind (.lift (Session.settles_tree source v)) fun _ _ => .ofExcept _

theorem agrees_invert {c : Computation} (hc : c.Compiled) (target : Value) (width : Nat) :
    Agrees (c.invert target width) (c.invert target width) := by
  refine .bind (.lift (Session.settles_invert hc target width)) fun outcome _ => ?_
  cases outcome with
  | found raws => exact .pure raws
  | failed fault => exact .throw (c.faultError fault)

theorem agrees_evaluate (source : String) (v : Variable) (x : Value) :
    Agrees (Computation.evaluate source v x) (Computation.evaluate source v x) :=
  .bind (agrees_compile source v) fun _ _ => .ofExcept _

theorem Argument.agrees_encode {a : Argument} (ha : ∀ c ∈ a.computation, c.Compiled)
    (opcode : String) (args : Assignment) (n : Nat) :
    Agrees (a.encode opcode args n) (a.encode opcode args n) := by
  refine .bind (.ofExcept _) fun logical _ => ?_
  cases hc : a.computation with
  | none => exact .bind (.pure logical) fun _ _ => .ofExcept _
  | some c =>
    refine .bind (agrees_invert (ha c hc) logical a.bits.width) fun raws _ => ?_
    exact .bind (.ofExcept _) fun _ _ => .ofExcept _

theorem Record.agrees_build {r : Record} (hr : ∀ c ∈ r.computations, c.Compiled)
    (args : Assignment) (n : Nat) : Agrees (r.build args n) (r.build args n) := by
  -- packing asks nothing, so each turn comes down to the raw value of its argument
  refine .foldlM (fun a ha w => .tryCatch_throw (.bind ?_ fun _ _ => .ofExcept _) _) 0
  have hcomp : ∀ c ∈ a.computation, c.Compiled := fun c hc =>
    hr c (mem_computations.2 (Or.inl ⟨a, ha, hc⟩))
  exact Argument.agrees_encode hcomp r.name args n

theorem agrees_compileOptional (place : Place) (source : Option String) (v : Variable) :
    Agrees (compileOptional place source v) (compileOptional place source v) := by
  unfold compileOptional
  split
  · exact .pure none
  · exact .bind (.tryCatch_throw (agrees_compile _ v) _) fun c _ => .pure (some c)

theorem ArgumentDocument.agrees_convert (opcode : String) (d : ArgumentDocument) :
    Agrees (d.convert opcode) (d.convert opcode) := by
  refine .bind (.ofExcept _) fun bits _ => .bind (.ofExcept _) fun range _ => ?_
  exact .bind (agrees_compileOptional _ d.computation .arg) fun c _ => .pure _

theorem OperandDocument.agrees_convert (opcode : String) (d : OperandDocument) :
    Agrees (d.convert opcode) (d.convert opcode) := by
  cases d with
  | zero => exact .pure _
  | arguments ds => exact .bind (.mapM fun d => d.agrees_convert opcode) fun args _ => .pure _

theorem InputsDocument.agrees_convert (opcode : String) (d : InputsDocument) :
    Agrees (d.convert opcode) (d.convert opcode) := by
  unfold InputsDocument.convert
  split
  · exact .pure _
  · refine .bind (.ofExcept _) fun bits _ => ?_
    exact .bind (agrees_compileOptional _ _ .bits) fun c _ => .pure _
  · split
    · exact .throw _
    · exact .pure _

theorem OutputsDocument.agrees_convert (opcode : String) (d : OutputsDocument) :
    Agrees (d.convert opcode) (d.convert opcode) := by
  unfold OutputsDocument.convert
  split
  · exact .pure _
  · refine .bind (.ofExcept _) fun bits _ => ?_
    exact .bind (agrees_compileOptional _ _ .bits) fun c _ => .pure _
  · exact .throw _

theorem Document.agrees_convert (d : Document) : Agrees d.convert d.convert := by
  refine .bind (d.operand.agrees_convert d.name) fun operand _ => ?_
  refine .bind (d.inputs.agrees_convert d.name) fun inputs _ => ?_
  exact .bind (d.outputs.agrees_convert d.name) fun outputs _ => .ofExcept _

theorem Opcode.agrees_ofText (text : String) : Agrees (Opcode.ofText text) (Opcode.ofText text) :=
  .bind (.ofExcept _) fun d _ => d.agrees_convert

namespace OpcodeTable

theorem agrees_load {opcodes : ExceptT Error SessionM (List Opcode)}
    {opcodes' : ExceptT Error Id (List Opcode)} (h : Agrees opcodes opcodes') :
    Agrees (load opcodes) (load opcodes') :=
  .bind (.adapt h _) fun _ _ => .ofExcept _

theorem agrees_ofText (text : String) : Agrees (ofText text) (ofText text) :=
  agrees_load (.bind (.ofExcept _) fun _ _ => .mapM fun d => d.agrees_convert)

theorem agrees_ofDocumentTexts (texts : List String) :
    Agrees (ofDocumentTexts texts) (ofDocumentTexts texts) :=
  agrees_load (.mapM Opcode.agrees_ofText)

end OpcodeTable

theorem OpcodeQuery.agrees_answer {op : Opcode} (hop : ∀ c ∈ op.computations, c.Compiled)
    (q : OpcodeQuery) : Agrees (q.answer op) (q.answer op) := by
  cases q with
  | all | describe | argument => exact .pure _
  | read | render | inputs | outputs => exact .bind (.ofExcept _) fun _ _ => .pure _
  | build args n | roundTrip args n =>
    exact .bind (Record.agrees_build hop (.ofPairs args) n) fun _ _ => .pure _

end OperandCodec
