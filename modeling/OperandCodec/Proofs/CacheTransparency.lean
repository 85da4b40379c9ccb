import OperandCodec.Proofs.Agreement
/-!
# The caches cannot be seen

Whatever happens in a session, and however large its caches are, every call
has the answer that is found afresh (`caches_invisible`). A run of a session
is any sequence of library calls and requests; each call may use what was
handed out before it, so a caller that decides from the answers so far what
to ask next is covered. The invariant of a run is that its session is
faithful and that the computations handed out are compiled: the calls are
made with no others.
-/

namespace OperandCodec

/-! ## Single calls -/

theorem Settles.map {α β : Type} {x : SessionM α} {a : α} (hx : Settles x a) (f : α → β) :
    Settles (x >>= fun a => Pure.pure (f a)) (f a) :=
  hx.bind (.pure (f a))

/-- **A call of the library with compiled computations has the answer that is found afresh.** -/
theorem LibraryCall.settles_perform {call : LibraryCall}
    (h : ∀ c ∈ call.computations, c.Compiled) : Settles call.perform (Id.run call.answer) := by
  cases call with
  | compile source v => exact (agrees_compile source v).map _
  | evaluate source v x => exact (agrees_evaluate source v x).map _
  | apply c x => exact .pure _
  | invert c target width =>
    exact (agrees_invert (h c (List.mem_singleton.2 rfl)) target width).map _
  | opcode r => exact .pure _
  | loadOpcode text => exact (Opcode.agrees_ofText text).map _
  | loadTable text => exact (OpcodeTable.agrees_ofText text).map _
  | loadTexts texts => exact (OpcodeTable.agrees_ofDocumentTexts texts).map _
  | ask op q => exact (q.agrees_answer h).map _

theorem Call.settles_orFailed {α : Type} {f : α → CallAnswer} {x : ExceptT Error SessionM α}
    {y : ExceptT Error Id α} (h : Agrees x y) :
    Settles (answer.orFailed f x) (Id.run (answer.orFailed f y)) := by
  rw [run_orFailed]
  refine Settles.bind h ?_
  cases afresh y <;> exact .pure _

/-- A call by source has the answer that is found afresh. -/
theorem Call.settles_answer (call : Call) : Settles call.answer (Id.run call.answer) := by
  cases call with
  | compile source v => exact settles_orFailed (agrees_compile source v)
  | evaluate source v x => exact settles_orFailed (agrees_evaluate source v x)
  | invert source v target width =>
    refine settles_orFailed (.bind (agrees_compile source v) fun c hc => ?_)
    exact agrees_invert (Computation.compiled_of_compile hc) target width
  | loadTable text =>
    rw [run_loadTable]
    refine Settles.bind (OpcodeTable.agrees_ofText text) ?_
    cases afresh (OpcodeTable.ofText text) <;> exact .pure _

/-- A question about a compiled table has the answer that is found afresh. -/
theorem TableQuery.settles_answer {t : OpcodeTable} (ht : ∀ c ∈ t.computations, c.Compiled)
    (q : TableQuery) : Settles (q.answer t) (Id.run (q.answer t)) := by
  cases q with
  | summary | primaryName => exact .pure _
  | opcode name q =>
    cases hop : t.get? name with
    | none =>
      simp only [answer, hop]
      exact .pure _
    | some op =>
      simp only [answer, hop]
      refine (q.agrees_answer fun c hc => ?_).map _
      exact ht c (List.mem_flatMap.2 ⟨op, List.mem_of_find?_eq_some hop, hc⟩)

/-! ## Runs -/

/-- What happens in a session, with its answer: a call of the library, or a request, which may be
about the table that is installed when it is made. -/
inductive Event where
  | call (c : LibraryCall) (a : LibraryAnswer)
  | request (r : Request) (table : Option OpcodeTable) (a : Answer)

namespace Event

/-- The computations that the answer hands out. -/
def computations : Event → List Computation
  | call _ a => a.computations
  | request _ _ a => a.computations

/-- The answer is the one that is found afresh. Only about the settings, and about the caches
themselves, nothing is said. -/
def AnsweredAfresh : Event → Prop
  | call c a => a = Id.run c.answer
  | request (.call c) _ a => a = .call (Id.run c.answer)
  | request (.installTable text) table a =>
    a = match afresh (OpcodeTable.ofText text) with
      | .ok t => if table.isSome then .tableRejected t else .tableInstalled t
      | .error e => .tableFailed e
  | request (.askTable q) table a =>
    a = match table with
      | some t => .table (Id.run (q.answer t))
      | none => .noTable
  | request _ _ _ => True

end Event

/-- The runs of a session: what has happened, the latest first, and the session that it leaves. The
settings may be fixed from the start, or by a request. A library call is made with computations that
were handed out before. -/
inductive Session.Run (env : Environment) (settings : Option Settings) :
    List Event → Session → Prop where
  | start : Run env settings [] { Session.start env with settings }
  | call {events : List Event} {p : Session} (c : LibraryCall) :
      (∀ x ∈ c.computations, ∃ e ∈ events, x ∈ e.computations) → Run env settings events p →
      Run env settings (.call c (c.perform.run p).1 :: events) (c.perform.run p).2
  | request {events : List Event} {p : Session} (r : Request) : Run env settings events p →
      Run env settings (.request r p.table (r.answer.run p).1 :: events) (r.answer.run p).2

variable {p : Session}

/-- A request that is answered as afresh, hands out compiled computations and leaves a faithful
session. -/
structure Request.Transparent (p : Session) (r : Request) : Prop where
  answered : (Event.request r p.table (r.answer.run p).1).AnsweredAfresh
  compiled : ∀ c ∈ (r.answer.run p).1.computations, c.Compiled
  faithful : (r.answer.run p).2.Faithful

namespace Request

theorem Transparent.of_run {p' : Session} {r : Request} {a : Answer}
    (hrun : r.answer.run p = (a, p')) (hanswered : (Event.request r p.table a).AnsweredAfresh)
    (hcompiled : ∀ c ∈ a.computations, c.Compiled) (hfaithful : p'.Faithful) :
    r.Transparent p := by
  constructor <;> rw [hrun]
  · exact hanswered
  · exact hcompiled
  · exact hfaithful

theorem transparent_fileSettings (hp : p.Faithful) (content : Except FileError String) :
    (fileSettings content).Transparent p := by
  cases hfile : Settings.ofFile p.environment content with
  | ok s =>
    have hrun : (fileSettings content).answer.run p = (.settings s, p) := by
      simp only [answer, StateT.run_bind, StateT.run_get, pure_bind, hfile]
      rfl
    exact .of_run hrun trivial nofun hp
  | error e =>
    have hrun : (fileSettings content).answer.run p = (.settingsFailed e, p) := by
      simp only [answer, StateT.run_bind, StateT.run_get, pure_bind, hfile]
      rfl
    exact .of_run hrun trivial nofun hp

theorem transparent_installSettings (hp : p.Faithful) (s : Settings) :
    (installSettings s).Transparent p := by
  obtain ⟨env, settings, trees, inversions, table⟩ := p
  cases settings <;> exact ⟨trivial, nofun, hp.trees, hp.inversions, hp.table⟩

/-- Loading settles, and leaves the table as it was; then the new table is installed or refused. -/
theorem transparent_installTable (hp : p.Faithful) (text : String) :
    (installTable text).Transparent p := by
  have hload : Settles _ _ := OpcodeTable.agrees_ofText text
  obtain ⟨-, hp', htable⟩ := hload p hp
  -- what is installed depends on the table behind the loading, which is the one before it
  generalize hrest : (StateT.run (OpcodeTable.ofText text : ExceptT _ SessionM _).run p).2 = p'
    at hp' htable
  obtain ⟨env, settings, trees, inversions, table⟩ := p'
  cases ht : afresh (OpcodeTable.ofText text) with
  | error e =>
    have hrun : (installTable text).answer.run p =
        (.tableFailed e, ⟨env, settings, trees, inversions, table⟩) := by
      rw [answer, hload.run_bind hp, hrest, ht]
      rfl
    refine .of_run hrun ?_ nofun hp'
    rw [Event.AnsweredAfresh, ht]
  | ok t =>
    have hcompiled := OpcodeTable.compiled_of_ofText ht
    cases table with
    | none =>
      have hrun : (installTable text).answer.run p =
          (.tableInstalled t, ⟨env, settings, trees, inversions, some t⟩) := by
        rw [answer, hload.run_bind hp, hrest, ht]
        rfl
      refine .of_run hrun ?_ hcompiled ⟨hp'.trees, hp'.inversions, fun t' h => ?_⟩
      · rw [Event.AnsweredAfresh, ht, ← htable]
        rfl
      · exact Option.some.inj h ▸ hcompiled
    | some t' =>
      have hrun : (installTable text).answer.run p =
          (.tableRejected t, ⟨env, settings, trees, inversions, some t'⟩) := by
        rw [answer, hload.run_bind hp, hrest, ht]
        rfl
      refine .of_run hrun ?_ hcompiled hp'
      rw [Event.AnsweredAfresh, ht, ← htable]
      rfl

theorem transparent_askTable (hp : p.Faithful) (q : TableQuery) : (askTable q).Transparent p := by
  obtain ⟨env, settings, trees, inversions, table⟩ := p
  cases table with
  | none => exact ⟨rfl, nofun, hp⟩
  | some t =>
    have ht := hp.table t rfl
    have hask : Settles _ _ := (q.settles_answer ht).map Answer.table
    obtain ⟨hanswer, hfaithful, -⟩ := hask _ hp
    refine .of_run (Prod.ext hanswer rfl) rfl (fun c hc => ?_) hfaithful
    exact ht c (TableQuery.mem_computations c hc)

theorem transparent_call (hp : p.Faithful) (c : Call) : (call c).Transparent p := by
  have hcall : Settles _ _ := c.settles_answer.map Answer.call
  obtain ⟨hanswer, hfaithful, -⟩ := hcall p hp
  exact .of_run (Prod.ext hanswer rfl) rfl c.answer_compiled hfaithful

/-- **Requests in a faithful session do not show the caches**, but for what asks about them. -/
theorem transparent_of_faithful (hp : p.Faithful) (r : Request) : r.Transparent p := by
  cases r with
  | setVariable => exact ⟨trivial, nofun, hp.trees, hp.inversions, hp.table⟩
  | defaultSettings | environmentSettings | overrideSettings => exact ⟨trivial, nofun, hp⟩
  | currentSettings => exact ⟨trivial, nofun, hp.currentSettings⟩
  | fileSettings content => exact transparent_fileSettings hp content
  | installSettings s => exact transparent_installSettings hp s
  | treeStatistics => exact ⟨trivial, nofun, hp.treeCache.2.1⟩
  | inversionStatistics => exact ⟨trivial, nofun, hp.inversionMemo.2.1⟩
  | installTable text => exact transparent_installTable hp text
  | askTable q => exact transparent_askTable hp q
  | call c => exact transparent_call hp c

end Request

/-- What a run of a session shows, and what it leaves behind. -/
structure CachesInvisible (events : List Event) (p : Session) : Prop where
  /-- Every answer was the one found afresh. -/
  answered : ∀ e ∈ events, e.AnsweredAfresh
  /-- Every computation handed out carries the tree of its source. -/
  compiled : ∀ e ∈ events, ∀ c ∈ e.computations, c.Compiled
  /-- Computations that are compared equal carry the same tree. -/
  expr_eq : ∀ e ∈ events, ∀ c ∈ e.computations, ∀ e' ∈ events, ∀ c' ∈ e'.computations,
    c == c' → c.expr = c'.expr
  trees : ∀ c, p.trees = some c → c.Faithful
  inversions : ∀ m, p.inversions = some m → m.Faithful

namespace Session.Run

variable {env : Environment} {settings : Option Settings} {events : List Event}

/-- The invariant of a run: its session is faithful, and what it has handed out is compiled. -/
theorem invariant (h : Session.Run env settings events p) : p.Faithful ∧
    ∀ e ∈ events, e.AnsweredAfresh ∧ ∀ c ∈ e.computations, c.Compiled := by
  induction h with
  | start => exact ⟨⟨nofun, nofun, nofun⟩, fun e he => absurd he List.not_mem_nil⟩
  | @call events p c hheld _ ih =>
    obtain ⟨hp, hevents⟩ := ih
    -- the call was made with nothing but what was handed out, and that was compiled
    have hcompiled : ∀ x ∈ c.computations, x.Compiled := by
      intro x hx
      obtain ⟨e, he, hxe⟩ := hheld x hx
      exact (hevents e he).2 x hxe
    obtain ⟨hanswer, hp', -⟩ := LibraryCall.settles_perform hcompiled p hp
    refine ⟨hp', List.forall_mem_cons.2 ⟨⟨hanswer, ?_⟩, hevents⟩⟩
    rw [Event.computations, hanswer]
    exact LibraryCall.answer_compiled hcompiled
  | request r _ ih =>
    obtain ⟨hp, hevents⟩ := ih
    obtain ⟨hanswered, hcompiled, hp'⟩ := Request.transparent_of_faithful hp r
    exact ⟨hp', List.forall_mem_cons.2 ⟨⟨hanswered, hcompiled⟩, hevents⟩⟩

/-- A run goes on with a call and the answer that is found afresh. -/
theorem call_afresh (h : Session.Run env settings events p) (c : LibraryCall)
    (hheld : ∀ x ∈ c.computations, ∃ e ∈ events, x ∈ e.computations) :
    ∃ p', Session.Run env settings (.call c (Id.run c.answer) :: events) p' := by
  have hnext := call c hheld h
  have hanswer := (hnext.invariant.2 _ List.mem_cons_self).1
  rw [Event.AnsweredAfresh] at hanswer
  rw [hanswer] at hnext
  exact ⟨_, hnext⟩

theorem cachesInvisible (h : Session.Run env settings events p) : CachesInvisible events p := by
  obtain ⟨hp, hevents⟩ := h.invariant
  refine ⟨fun e he => (hevents e he).1, fun e he => (hevents e he).2, ?_, hp.trees, hp.inversions⟩
  intro e he c hc e' he' c' hc'
  exact ((hevents e he).2 c hc).expr_eq ((hevents e' he').2 c' hc')

end Session.Run

/-- **The caches are invisible.** Whatever has happened in a session, and however large its caches
are, every answer was the one found afresh; and a memo of any size that is used by itself answers
with the outcomes of the searches, where each use brings the tree of its source. -/
theorem caches_invisible {env : Environment} {settings : Option Settings} {events : List Event}
    (hrun : Session.Run env settings events p) {uses : List (InversionKey × Expr)}
    (huses : ∀ u ∈ uses, Expr.ofSource u.1.source u.1.var = .ok u.2) (size : Nat) :
    CachesInvisible events p ∧
      ((uses.mapM fun u => InversionMemo.ask u.1 u.2).run (.ofSize size)).1 =
        uses.map fun u => u.2.search u.1.target u.1.width :=
  ⟨hrun.cachesInvisible, (InversionMemo.faithful_ofSize size).mapM_ask huses⟩

/-- With room for one tree and one outcome, a computation is compiled again after another one has
displaced it, and is then inverted twice. -/
theorem caches_invisible_of_one_entry :
    let c : Computation := ⟨"arg", .arg, .var⟩
    let calls : List LibraryCall := [.invert c 3 2, .invert c 3 2, .compile "arg" .arg,
      .compile "arg / 2" .arg, .compile "arg" .arg]
    let events := calls.map fun c => Event.call c (Id.run c.answer)
    let uses : List (InversionKey × Expr) :=
      [(⟨"arg", .arg, 3, 2⟩, .var), (⟨"arg", .arg, 4, 2⟩, .var)]
    ∃ p, Session.Run [] (some ⟨1, 1⟩) events p ∧ CachesInvisible events p ∧
      ((uses.mapM fun u => InversionMemo.ask u.1 u.2).run (.ofSize 0)).1 =
        [.found [3], .found []] := by
  intro c calls events uses
  have hparse : Expr.ofSource "arg" .arg = .ok .var := by decide +kernel
  have hhanded : c ∈ (Id.run (LibraryCall.compile "arg" .arg).answer).computations := by
    show c ∈ (LibraryAnswer.computation (afresh (Computation.compile "arg" .arg))).computations
    rw [afresh_compile, hparse]
    exact List.mem_singleton.2 rfl
  have h₀ : Session.Run [] (some ⟨1, 1⟩) [] _ := .start
  obtain ⟨p₁, h₁⟩ := h₀.call_afresh (.compile "arg" .arg) (List.forall_mem_nil _)
  obtain ⟨p₂, h₂⟩ := h₁.call_afresh (.compile "arg / 2" .arg) (List.forall_mem_nil _)
  obtain ⟨p₃, h₃⟩ := h₂.call_afresh (.compile "arg" .arg) (List.forall_mem_nil _)
  obtain ⟨p₄, h₄⟩ := h₃.call_afresh (.invert c 3 2)
    (List.forall_mem_singleton.2 ⟨_, List.mem_cons_self, hhanded⟩)
  obtain ⟨p₅, h₅⟩ := h₄.call_afresh (.invert c 3 2)
    (List.forall_mem_singleton.2 ⟨_, List.mem_cons_of_mem _ List.mem_cons_self, hhanded⟩)
  have huses : ∀ u ∈ uses, Expr.ofSource u.1.source u.1.var = .ok u.2 :=
    List.forall_mem_cons.2 ⟨hparse, List.forall_mem_singleton.2 hparse⟩
  obtain ⟨hrun, hmemo⟩ := caches_invisible h₅ huses 0
  exact ⟨p₅, h₅, hrun, hmemo.trans (by decide)⟩

end OperandCodec
