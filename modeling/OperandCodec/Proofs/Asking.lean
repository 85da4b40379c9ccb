import Mathlib.Tactic.Common
import OperandCodec.Session.Library
/-!
# What a call does to its session

Most calls do nothing to a session but look at it and have its caches
answer for computations, however often and whatever they make of the answers
(`OnlyAsks`). So a relation between the session before and the session behind
that holds of each use of a cache holds of every such call, if a session is
so related to itself and the relation passes on (`OnlyAsks.related`). Each way
of putting calculations together has its law here, and the functions follow
their definitions.
-/

namespace OperandCodec

/-- A calculation that does nothing but look at a session and use its caches. -/
inductive OnlyAsks : {α : Type} → SessionM α → Prop where
  | pure {α : Type} (a : α) : OnlyAsks (pure a)
  | look : OnlyAsks get
  | treeCache : OnlyAsks Session.treeCache
  | inversionMemo : OnlyAsks Session.inversionMemo
  | tree (source : String) (v : Variable) : OnlyAsks (Session.tree source v)
  | invert (c : Computation) (target : Value) (width : Nat) :
      OnlyAsks (Session.invert c target width)
  | bind {α β : Type} {x : SessionM α} {f : α → SessionM β} : OnlyAsks x → (∀ a, OnlyAsks (f a)) →
      OnlyAsks (x >>= f)

/-- **What holds of each use of a cache holds of what only asks.** -/
theorem OnlyAsks.related {R : Session → Session → Prop} (hrefl : ∀ p, R p p)
    (htrans : ∀ p q r, R p q → R q r → R p r)
    (htreeCache : ∀ p, R p (Session.treeCache.run p).2)
    (hinversionMemo : ∀ p, R p (Session.inversionMemo.run p).2)
    (htree : ∀ source v p, R p ((Session.tree source v).run p).2)
    (hinvert : ∀ c target width p, R p ((Session.invert c target width).run p).2)
    {α : Type} {x : SessionM α} (h : OnlyAsks x) (p : Session) : R p (x.run p).2 := by
  induction h generalizing p with
  | pure a => exact hrefl p
  | look => exact hrefl p
  | treeCache => exact htreeCache p
  | inversionMemo => exact hinversionMemo p
  | tree source v => exact htree source v p
  | invert c target width => exact hinvert c target width p
  | bind _ _ ihx ihf => exact htrans _ _ _ (ihx p) (ihf _ _)

/-! ## Laws -/

section Laws

variable {ε ε' α β : Type}

theorem OnlyAsks.map {x : SessionM α} (h : OnlyAsks x) (f : α → β) : OnlyAsks (f <$> x) :=
  h.bind fun a => .pure (f a)

theorem OnlyAsks.throw (e : ε) : OnlyAsks (throw e : ExceptT ε SessionM α).run :=
  .pure _

theorem OnlyAsks.ofExcept (x : Except ε α) :
    OnlyAsks (MonadExcept.ofExcept x : ExceptT ε SessionM α).run := by
  cases x with
  | error e => exact .throw e
  | ok a => exact .pure _

theorem OnlyAsks.bindExcept {x : ExceptT ε SessionM α} {f : α → ExceptT ε SessionM β}
    (hx : OnlyAsks x.run) (hf : ∀ a, OnlyAsks (f a).run) : OnlyAsks (x >>= f).run := by
  rw [ExceptT.run_bind]
  refine hx.bind fun a => ?_
  cases a with
  | error e => exact .pure _
  | ok a => exact hf a

theorem OnlyAsks.lift {x : SessionM α} (h : OnlyAsks x) :
    OnlyAsks (liftM x : ExceptT ε SessionM α).run :=
  h.map Except.ok

theorem OnlyAsks.tryCatch {x : ExceptT ε SessionM α} {f : ε → ExceptT ε SessionM α}
    (hx : OnlyAsks x.run) (hf : ∀ e, OnlyAsks (f e).run) : OnlyAsks (tryCatch x f).run := by
  rw [ExceptT.run_tryCatch]
  refine hx.bind fun a => ?_
  cases a with
  | error e => exact hf e
  | ok a => exact .pure _

theorem OnlyAsks.adapt {x : ExceptT ε SessionM α} (h : OnlyAsks x.run) (f : ε → ε') :
    OnlyAsks (ExceptT.adapt f x).run :=
  h.map (Except.mapError f)

theorem OnlyAsks.foldlM {f : β → α → ExceptT ε SessionM β} (h : ∀ b a, OnlyAsks (f b a).run)
    (as : List α) (b : β) : OnlyAsks (as.foldlM f b).run := by
  induction as generalizing b with
  | nil => exact .pure _
  | cons a as ih => exact (h b a).bindExcept fun b' => ih b'

theorem OnlyAsks.mapM {f : α → ExceptT ε SessionM β} (h : ∀ a, OnlyAsks (f a).run) (as : List α) :
    OnlyAsks (as.mapM f).run := by
  induction as with
  | nil => exact .pure _
  | cons a as ih =>
    rw [List.mapM_cons]
    exact (h a).bindExcept fun b => ih.bindExcept fun bs => .pure _

end Laws

/-! ## What is written in terms of them -/

theorem onlyAsks_compile (source : String) (v : Variable) :
    OnlyAsks (Computation.compile source v).run :=
  (OnlyAsks.lift (.tree source v)).bindExcept fun _ => .ofExcept _

theorem onlyAsks_invert (c : Computation) (target : Value) (width : Nat) :
    OnlyAsks (c.invert target width).run := by
  refine (OnlyAsks.lift (.invert c target width)).bindExcept fun outcome => ?_
  cases outcome with
  | found raws => exact .pure _
  | failed fault => exact .throw _

theorem onlyAsks_evaluate (source : String) (v : Variable) (x : Value) :
    OnlyAsks (Computation.evaluate source v x).run :=
  (onlyAsks_compile source v).bindExcept fun _ => .ofExcept _

theorem Argument.onlyAsks_encode (opcode : String) (args : Assignment) (n : Nat) (a : Argument) :
    OnlyAsks (a.encode opcode args n).run := by
  refine (OnlyAsks.ofExcept _).bindExcept fun logical => ?_
  cases a.computation with
  | none => exact .ofExcept _
  | some c =>
    refine (onlyAsks_invert c logical a.bits.width).bindExcept fun raws => ?_
    exact (OnlyAsks.ofExcept _).bindExcept fun _ => .ofExcept _

theorem Record.onlyAsks_build (r : Record) (args : Assignment) (n : Nat) :
    OnlyAsks (r.build args n).run := by
  refine .foldlM (fun w a => .tryCatch ?_ fun _ => .throw _) _ _
  exact (a.onlyAsks_encode r.name args n).bindExcept fun _ => .ofExcept _

theorem onlyAsks_compileOptional (place : Place) (source : Option String) (v : Variable) :
    OnlyAsks (compileOptional place source v).run := by
  unfold compileOptional
  split
  · exact .pure _
  · exact (OnlyAsks.tryCatch (onlyAsks_compile _ v) fun _ => .throw _).bindExcept fun _ => .pure _

theorem ArgumentDocument.onlyAsks_convert (opcode : String) (d : ArgumentDocument) :
    OnlyAsks (d.convert opcode).run := by
  refine (OnlyAsks.ofExcept _).bindExcept fun bits => ?_
  refine (OnlyAsks.ofExcept _).bindExcept fun range => ?_
  exact (onlyAsks_compileOptional _ d.computation .arg).bindExcept fun _ => .pure _

theorem OperandDocument.onlyAsks_convert (opcode : String) (d : OperandDocument) :
    OnlyAsks (d.convert opcode).run := by
  cases d with
  | zero => exact .pure _
  | arguments ds =>
    exact (OnlyAsks.mapM (fun d => d.onlyAsks_convert opcode) ds).bindExcept fun _ => .pure _

theorem InputsDocument.onlyAsks_convert (opcode : String) (d : InputsDocument) :
    OnlyAsks (d.convert opcode).run := by
  unfold InputsDocument.convert
  split
  · exact .pure _
  · refine (OnlyAsks.ofExcept _).bindExcept fun bits => ?_
    exact (onlyAsks_compileOptional _ _ .bits).bindExcept fun _ => .pure _
  · split
    · exact .throw _
    · exact .pure _

theorem OutputsDocument.onlyAsks_convert (opcode : String) (d : OutputsDocument) :
    OnlyAsks (d.convert opcode).run := by
  unfold OutputsDocument.convert
  split
  · exact .pure _
  · refine (OnlyAsks.ofExcept _).bindExcept fun bits => ?_
    exact (onlyAsks_compileOptional _ _ .bits).bindExcept fun _ => .pure _
  · exact .throw _

theorem Document.onlyAsks_convert (d : Document) : OnlyAsks d.convert.run := by
  refine (d.operand.onlyAsks_convert d.name).bindExcept fun operand => ?_
  refine (d.inputs.onlyAsks_convert d.name).bindExcept fun inputs => ?_
  exact (d.outputs.onlyAsks_convert d.name).bindExcept fun _ => .ofExcept _

theorem Opcode.onlyAsks_ofText (text : String) : OnlyAsks (Opcode.ofText text).run :=
  (OnlyAsks.ofExcept _).bindExcept fun d => d.onlyAsks_convert

namespace OpcodeTable

theorem onlyAsks_load {opcodes : ExceptT Error SessionM (List Opcode)} (h : OnlyAsks opcodes.run) :
    OnlyAsks (load opcodes).run :=
  (h.adapt _).bindExcept fun _ => .ofExcept _

theorem onlyAsks_ofText (text : String) : OnlyAsks (ofText text).run :=
  onlyAsks_load ((OnlyAsks.ofExcept _).bindExcept fun _ => .mapM (fun d => d.onlyAsks_convert) _)

theorem onlyAsks_ofDocumentTexts (texts : List String) : OnlyAsks (ofDocumentTexts texts).run :=
  onlyAsks_load (.mapM Opcode.onlyAsks_ofText texts)

end OpcodeTable

theorem OpcodeQuery.onlyAsks_answer (op : Opcode) (q : OpcodeQuery) :
    OnlyAsks (q.answer op).run := by
  cases q with
  | all | describe | argument => exact .pure _
  | read | render | inputs | outputs => exact (OnlyAsks.ofExcept _).bindExcept fun _ => .pure _
  | build args n | roundTrip args n =>
    exact (op.onlyAsks_build (.ofPairs args) n).bindExcept fun _ => .pure _

theorem TableQuery.onlyAsks_answer (t : OpcodeTable) (q : TableQuery) : OnlyAsks (q.answer t) := by
  cases q with
  | summary | primaryName => exact .pure _
  | opcode name q =>
    rw [answer]
    cases t.get? name with
    | none => exact .pure _
    | some op => exact (q.onlyAsks_answer op).bind fun _ => .pure _

theorem Call.onlyAsks_orFailed {α : Type} (f : α → CallAnswer) {x : ExceptT Error SessionM α}
    (h : OnlyAsks x.run) : OnlyAsks (answer.orFailed f x) := by
  refine h.bind fun a => ?_
  cases a <;> exact .pure _

theorem Call.onlyAsks_answer (call : Call) : OnlyAsks call.answer := by
  cases call with
  | compile source v => exact onlyAsks_orFailed _ (onlyAsks_compile source v)
  | evaluate source v x => exact onlyAsks_orFailed _ (onlyAsks_evaluate source v x)
  | invert source v target width =>
    refine onlyAsks_orFailed _ ((onlyAsks_compile source v).bindExcept fun c => ?_)
    exact onlyAsks_invert c target width
  | loadTable text =>
    refine (OpcodeTable.onlyAsks_ofText text).bind fun t => ?_
    cases t <;> exact .pure _

/-- Whether a request does more than ask: it changes what is shared. -/
def Request.changes : Request → Bool
  | setVariable _ _ | currentSettings | installSettings _ | installTable _ => true
  | _ => false

/-- **A request that changes nothing that is shared only asks.** -/
theorem Request.onlyAsks_answer (r : Request) (h : r.changes = false) : OnlyAsks r.answer := by
  cases r with
  | setVariable | currentSettings | installSettings | installTable => cases h
  | defaultSettings => exact .pure _
  | environmentSettings | overrideSettings => exact OnlyAsks.look.bind fun _ => .pure _
  | fileSettings content =>
    refine OnlyAsks.look.bind fun p => ?_
    cases Settings.ofFile p.environment content <;> exact .pure _
  | treeStatistics => exact OnlyAsks.treeCache.bind fun _ => .pure _
  | inversionStatistics => exact OnlyAsks.inversionMemo.bind fun _ => .pure _
  | askTable q =>
    refine OnlyAsks.look.bind fun p => ?_
    cases p.table with
    | none => exact .pure _
    | some t => exact (q.onlyAsks_answer t).bind fun _ => .pure _
  | call c => exact c.onlyAsks_answer.bind fun _ => .pure _

/-- **A call of the library only asks.** -/
theorem LibraryCall.onlyAsks_perform (call : LibraryCall) : OnlyAsks call.perform := by
  cases call with
  | compile source v => exact (onlyAsks_compile source v).bind fun _ => .pure _
  | evaluate source v x => exact (onlyAsks_evaluate source v x).bind fun _ => .pure _
  | apply | opcode => exact .pure _
  | invert c target width => exact (onlyAsks_invert c target width).bind fun _ => .pure _
  | loadOpcode text => exact (Opcode.onlyAsks_ofText text).bind fun _ => .pure _
  | loadTable text => exact (OpcodeTable.onlyAsks_ofText text).bind fun _ => .pure _
  | loadTexts texts => exact (OpcodeTable.onlyAsks_ofDocumentTexts texts).bind fun _ => .pure _
  | ask op q => exact (q.onlyAsks_answer op).bind fun _ => .pure _

end OperandCodec
