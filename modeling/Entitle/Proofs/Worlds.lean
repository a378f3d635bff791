import Entitle.Proofs.Transcripts
import Entitle.Run.Fault

/-!
# Runs in any world

A run asks, and what it is replied depends on the world it runs in: any repository, which may answer
a call with anything or not at all, and anybody who may cancel the run meanwhile. The passage of a
run through a world is its transcript there, of which the calls and the replies to them are what
concerns the repository.

## Main definitions

* `World`, `Running.through`: a world, and the passage of a program through it.
* `Transcript.exchanges`: the calls of a passage with their replies.
* `World.calm`: the same world, where the run is never cancelled.
* `World.Serves`: the world keeps a repository, and calls have the effect that they have on it, or
  none.
* `Bench.world`: a repository with planned faults as a world.

## Main statements

* `Running.through_calm`: a program that only makes calls does not notice a cancellation.
* `Action.meets_attempt_result`: what is true of an attempted action whatever the replies.
* `PlannedAction.through_runAll_cons`, `Plan.through_execute`: the passage of a plan.
* `World.Serves.mutations_through`: every successful call that changes something is counted.
* `Bench.interpret_run`, `Bench.serves_world`: a run on a repository with planned faults is a run in
  its world, which serves it.
-/
namespace Entitle

/-! ## Passages -/

/-- A call and the reply to it. -/
structure Exchange where
  call : Call
  reply : Except CallError call.Answer

/-- Is it a successful call that may change a repository? -/
def Exchange.isChange (e : Exchange) : Bool :=
  e.call.mutates && e.reply.isOk

/-- A request as a part of a passage. Only calls are kept. -/
def Request.exchanges : (r : Request) → r.Reply → List Exchange
  | call c, reply => [⟨c, reply⟩]
  | cancelled, _ | now, _ => []

/-- What a run may meet. The world replies to every request, and may be another one afterwards. -/
abbrev World (σ : Type) := (r : Request) → StateM σ r.Reply

/-- How a program passed through a world: its result, its requests with their replies, and the world
after it. -/
abbrev Passage (σ α : Type) := Transcript σ Request Request.Reply α

/-- The passage of a program through a world. -/
abbrev Running.through {σ α : Type} (w : World σ) (p : Running α) (x : σ) : Passage σ α :=
  p.transcript w x

/-- The calls among the requests, with their replies. -/
def Answered.exchanges (log : List (Answered Request Request.Reply)) : List Exchange :=
  log.flatMap fun e => e.op.exchanges e.reply

namespace Answered

variable (log log' : List (Answered Request Request.Reply))

@[simp] theorem exchanges_nil : exchanges [] = [] := rfl

theorem exchanges_cons (r : Request) (reply : r.Reply) :
    exchanges (⟨r, reply⟩ :: log) = r.exchanges reply ++ exchanges log := rfl

@[simp] theorem exchanges_call (c : Call) (reply : Except CallError c.Answer) :
    exchanges (⟨.call c, reply⟩ :: log) = ⟨c, reply⟩ :: exchanges log := rfl

@[simp] theorem exchanges_cancelled (b : Bool) :
    exchanges (⟨.cancelled, b⟩ :: log) = exchanges log := rfl

@[simp] theorem exchanges_now (time : String) :
    exchanges (⟨.now, time⟩ :: log) = exchanges log := rfl

@[simp] theorem exchanges_append : exchanges (log ++ log') = exchanges log ++ exchanges log' :=
  List.flatMap_append

end Answered

namespace Transcript

variable {σ α : Type}

/-- The calls of a passage with their replies. -/
def exchanges (t : Passage σ α) : List Exchange :=
  Answered.exchanges t.log

@[simp] theorem exchanges_mk (a : α) (log : List (Answered Request Request.Reply)) (x : σ) :
    (⟨a, log, x⟩ : Passage σ α).exchanges = Answered.exchanges log := rfl

@[simp] theorem exchanges_log (t : Passage σ α) : Answered.exchanges t.log = t.exchanges := rfl

@[simp] theorem exchanges_behind (log : List (Answered Request Request.Reply)) (t : Passage σ α) :
    (t.behind log).exchanges = Answered.exchanges log ++ t.exchanges :=
  Answered.exchanges_append log t.log

/-- Looking at the clock adds no calls. -/
theorem exchanges_clocked (a : α) (started finished : String)
    (log : List (Answered Request Request.Reply)) (x : σ) :
    (⟨a, ⟨.now, started⟩ :: (log ++ [⟨.now, finished⟩]), x⟩ : Passage σ α).exchanges =
      Answered.exchanges log := by
  simp

end Transcript

/-- The result and the calls of a passage have every property that they have whatever the replies
are. -/
theorem Running.through_of_meets {σ α : Type} (w : World σ) {P : Call → Prop} {Q : α → Prop}
    {p : Running α} (hp : p.Meets (Request.Calls P) Q) (x : σ) :
    Q (p.through w x).result ∧ ∀ e ∈ (p.through w x).exchanges, P e.call := by
  obtain ⟨hresult, hlog⟩ := Dialogue.transcript_of_meets w hp x
  refine ⟨hresult, fun e he => ?_⟩
  obtain ⟨⟨r, reply⟩, hmem, he⟩ := List.mem_flatMap.1 he
  have hcall := hlog _ hmem
  cases r with
  | call c =>
    rw [List.mem_singleton.1 he]
    exact hcall
  | cancelled | now => cases he

/-! ## Attempts -/

section

variable {σ α β : Type} (w : World σ)

/-- An attempt of several steps goes on in the world that the first one leaves, unless it fails. -/
theorem Attempt.through_bind (x : Attempt α) (f : α → Attempt β) (y : σ) :
    let first := Running.through w x.run y
    Running.through w (x >>= f).run y =
      (match first.result with
        | .ok a => Running.through w (f a).run first.world
        | .error e => ⟨.error e, [], first.world⟩ : Passage σ (Except Failure β)).behind
          first.log := by
  intro first
  refine (Dialogue.transcript_bind w x.run (ExceptT.bindCont f) y).trans ?_
  show Transcript.behind first.log (Running.through w (ExceptT.bindCont f first.result) _) = _
  cases first.result <;> rfl

/-- One call in an attempt. -/
theorem Attempt.through_call (c : Call) (y : σ) :
    Running.through w (call c).run y =
      ⟨(w (.call c) y).1.mapError CallError.failure, [⟨.call c, (w (.call c) y).1⟩],
        (w (.call c) y).2⟩ := by
  refine (Dialogue.transcript_ask w (.call c) _ y).trans ?_
  cases (w (.call c) y).1 <;> rfl

/-- What an application makes of a finding. -/
def Finding.settle (o : Overlay) : Finding → Attempt (Outcome × Overlay)
  | .settled reason => pure (.skipped reason, o)
  | .due c => do return (.applied (← c.perform), o)

/-- A change that is due is made by one call. -/
theorem Finding.through_settle_due (o : Overlay) (c : Change) (y : σ) :
    Running.through w ((Finding.due c).settle o).run y =
      ⟨((w (.call c.call) y).1.mapError CallError.failure).map fun _ => (.applied c.done, o),
        [⟨.call c.call, (w (.call c.call) y).1⟩], (w (.call c.call) y).2⟩ := by
  have hperform : Running.through w c.perform.run y =
      ⟨((w (.call c.call) y).1.mapError CallError.failure).map fun _ => c.done,
        [⟨.call c.call, (w (.call c.call) y).1⟩], (w (.call c.call) y).2⟩ := by
    refine (Attempt.through_bind w (Entitle.call c.call) _ y).trans ?_
    simp only [Attempt.through_call]
    cases (w (.call c.call) y).1 <;> rfl
  refine (Attempt.through_bind w c.perform _ y).trans ?_
  simp only [hperform]
  cases (w (.call c.call) y).1 <;> rfl

/-- An action is applied by making good what its inspection finds. -/
theorem Action.carryOut_apply (o : Overlay) (a : Action) :
    a.carryOut .apply o = a.inspect o >>= Finding.settle o := by
  rw [carryOut]
  congr 1

/-- The passage of an action that is attempted: a failure becomes its outcome. -/
theorem Action.through_attempt (mode : Mode) (o : Overlay) (a : Action) (y : σ) :
    let p := Running.through w (a.carryOut mode o).run y
    (a.attempt mode o).through w y =
      ⟨match p.result with
        | .ok result => result
        | .error failure => (.failed failure, o), p.log, p.world⟩ := by
  refine (Dialogue.transcript_bind w (a.carryOut mode o).run _ y).trans ?_
  dsimp only [Running.through]
  generalize (a.carryOut mode o).run.transcript w y = p
  obtain ⟨result, log, z⟩ := p
  cases result <;> simp

end

/-! ## Without cancellation -/

/-- The same world for somebody who does not hear that the run was cancelled. -/
def World.calm {σ : Type} (w : World σ) : World σ
  | .cancelled => fun x => (false, (w .cancelled x).2)
  | r => w r

/-- A program that only makes calls does not notice a cancellation. -/
theorem Running.through_calm {σ α : Type} (w : World σ) {P : Call → Prop} {Q : α → Prop}
    {p : Running α} (hp : p.Meets (Request.IsCall P) Q) (x : σ) :
    p.through w.calm x = p.through w x := by
  refine Dialogue.transcript_congr w hp (fun r hr => ?_) x
  cases r with
  | call c => rfl
  | cancelled | now => exact hr.elim

/-! ## Runs of plans -/

/-- An action that is attempted only makes calls, and is not left out. An application notes
nothing. -/
theorem Action.meets_attempt_result (mode : Mode) (o : Overlay) (a : Action) :
    (a.attempt mode o).Meets (Request.IsCall fun _ => True) fun result =>
      result.1.isNotAttempted = false ∧ (mode = .apply → result.2 = o) := by
  have hcarry : (a.carryOut mode o).Meets (fun _ => True) fun result =>
      result.1.isNotAttempted = false ∧ (mode = .apply → result.2 = o) := by
    refine Attempt.meets_bind (a.meets_inspect (fun _ _ => trivial) o) fun finding _ => ?_
    cases finding with
    | settled reason => exact Attempt.meets_pure ⟨rfl, fun _ => rfl⟩
    | due c =>
      cases mode with
      | apply =>
        have hperform : c.perform.Meets (fun _ => True) fun _ => True :=
          Attempt.meets_bind (Attempt.meets_call trivial) fun _ _ => Attempt.meets_pure trivial
        exact Attempt.meets_bind hperform fun _ _ => Attempt.meets_pure ⟨rfl, fun _ => rfl⟩
      | dryRun =>
        refine Attempt.meets_bind (c.meets_foresee (fun _ _ => trivial) o) fun _ _ => ?_
        exact Attempt.meets_pure ⟨rfl, fun h => by cases h⟩
  refine Dialogue.meets_bind hcarry fun r hr => ?_
  cases r with
  | ok result => exact hr result rfl
  | error failure => exact ⟨rfl, fun _ => rfl⟩

section

variable {σ : Type} (w : World σ)

theorem Action.result_through_attempt (mode : Mode) (o : Overlay) (a : Action) (x : σ) :
    ((a.attempt mode o).through w x).result.1.isNotAttempted = false ∧
      (mode = .apply → ((a.attempt mode o).through w x).result.2 = o) :=
  (Running.through_of_meets w
    ((a.meets_attempt_result mode o).mono (fun _ h => h.heeds.calls) fun _ h => h) x).1

/-- The passage of the actions of a plan, from the first one to the others. -/
theorem PlannedAction.through_runAll_cons (mode : Mode) (o : Overlay)
    (a : PlannedAction) (rest : List PlannedAction) (x : σ) :
    let asked := w .cancelled x
    let first := (a.action.attempt mode o).through w asked.2
    let more := (runAll mode first.result.2 rest).through w first.world
    (runAll mode o (a :: rest)).through w x =
      if asked.1 then ⟨(leaveOut (a :: rest), true), [⟨.cancelled, true⟩], asked.2⟩
      else if first.result.1.isFailed && mode == .apply then
        ⟨(⟨a, first.result.1⟩ :: leaveOut rest, false), ⟨.cancelled, false⟩ :: first.log,
          first.world⟩
      else ⟨(⟨a, first.result.1⟩ :: more.result.1, more.result.2),
        ⟨.cancelled, false⟩ :: (first.log ++ more.log), more.world⟩ := by
  intro asked first more
  refine (Dialogue.transcript_ask w .cancelled _ x).trans ?_
  show (Running.through w (if asked.1 = true then _ else _) asked.2).behind
    [⟨.cancelled, asked.1⟩] = _
  by_cases hcancelled : asked.1 = true
  · rw [if_pos hcancelled, if_pos hcancelled, hcancelled]
    rfl
  · rw [if_neg hcancelled, if_neg hcancelled, Bool.eq_false_iff.2 hcancelled]
    refine (congrArg (Transcript.behind _)
      (Dialogue.transcript_bind w (a.action.attempt mode o) _ asked.2)).trans ?_
    show ((Running.through w (if (first.result.1.isFailed && mode == .apply) = true then _ else _)
      first.world).behind first.log).behind _ = _
    by_cases hfailed : (first.result.1.isFailed && mode == .apply) = true
    · rw [if_pos hfailed, if_pos hfailed]
      simp [Transcript.behind, first]
    · rw [if_neg hfailed, if_neg hfailed]
      refine (congrArg (fun p => Transcript.behind _ (Transcript.behind first.log p))
        (Dialogue.transcript_bind w (runAll mode first.result.2 rest) _ first.world)).trans ?_
      simp [Transcript.behind, first, more]

namespace PlannedAction

/-- The passage of an application, from the first action to the others. -/
theorem through_runAll_apply_cons (a : PlannedAction) (rest : List PlannedAction)
    (x : σ) :
    let asked := w .cancelled x
    let first := (a.action.attempt .apply .empty).through w asked.2
    let more := (runAll .apply .empty rest).through w first.world
    (runAll .apply .empty (a :: rest)).through w x =
      if asked.1 then ⟨(leaveOut (a :: rest), true), [⟨.cancelled, true⟩], asked.2⟩
      else if first.result.1.isFailed then
        ⟨(⟨a, first.result.1⟩ :: leaveOut rest, false), ⟨.cancelled, false⟩ :: first.log,
          first.world⟩
      else ⟨(⟨a, first.result.1⟩ :: more.result.1, more.result.2),
        ⟨.cancelled, false⟩ :: (first.log ++ more.log), more.world⟩ := by
  have hmode : (Mode.apply == Mode.apply) = true := rfl
  have hoverlay := (a.action.result_through_attempt w .apply .empty (w .cancelled x).2).2 rfl
  simp only [through_runAll_cons, hoverlay, hmode, Bool.and_true]

/-- An application goes on where its beginning ended, unless it ended there. -/
theorem through_runAll_append (before rest : List PlannedAction) (x : σ) :
    let first := (runAll .apply .empty before).through w x
    let more := (runAll .apply .empty rest).through w first.world
    (runAll .apply .empty (before ++ rest)).through w x =
      if first.result.2 || first.result.1.any (·.outcome.isFailed) then
        ⟨(first.result.1 ++ leaveOut rest, first.result.2), first.log, first.world⟩
      else
        ⟨(first.result.1 ++ more.result.1, more.result.2), first.log ++ more.log, more.world⟩ := by
  induction before generalizing x with
  | nil => rfl
  | cons a before ih =>
    simp only [List.cons_append, through_runAll_apply_cons]
    by_cases hcancelled : (w .cancelled x).1 = true
    · simp [hcancelled, leaveOut]
    · simp only [if_neg hcancelled]
      generalize (a.action.attempt .apply .empty).through w (w .cancelled x).2 = first
      cases hfailed : first.result.1.isFailed with
      | true => simp [hfailed, leaveOut]
      | false =>
        simp only [Bool.false_eq_true, if_false, ih, List.any_cons, hfailed, Bool.false_or]
        split <;> simp

end PlannedAction

/-- The passage of a plan is that of its actions, between two looks at the clock. -/
theorem Plan.through_execute (plan : Plan) (mode : Mode) (x : σ) :
    let started := w .now x
    let actions := (PlannedAction.runAll mode .empty plan.actions).through w started.2
    let finished := w .now actions.world
    (plan.execute mode).through w x =
      ⟨⟨plan.script, plan.checksum, mode, actions.result.2, started.1, finished.1,
        actions.result.1⟩,
        ⟨.now, started.1⟩ :: (actions.log ++ [⟨.now, finished.1⟩]), finished.2⟩ := by
  intro started actions finished
  refine (Dialogue.transcript_request_bind w Request.now _ x).trans ?_
  simp only [Dialogue.transcript_bind]
  rfl

end

/-! ## Worlds with a repository -/

/-- What a repository may reply to a request, and the repository after it. A call may be refused or
not answered at any time, and then has no effect. -/
inductive Repository.Serves : Repository → (r : Request) → r.Reply → Repository → Prop
  | answered {r r' : Repository} {c : Call} {a : c.Answer} (h : r.answerNow c = (.ok a, r')) :
    r.Serves (.call c) (.ok a) r'
  | unanswered (r : Repository) (c : Call) (e : CallError) : r.Serves (.call c) (.error e) r
  | cancelled (r : Repository) (b : Bool) : r.Serves .cancelled b r
  | now (r : Repository) (time : String) : r.Serves .now time r

/-- The world keeps a repository. What happens to it is what the calls do to it, and calls that are
not answered do nothing. -/
def World.Serves {σ : Type} (w : World σ) (view : σ → Repository) : Prop :=
  ∀ (r : Request) (x : σ), (view x).Serves r (w r x).1 (view (w r x).2)

/-- A call that is answered is answered as the state says. -/
theorem Repository.answerNow_eq_ok {r r' : Repository} {c : Call} {a : c.Answer}
    (h : r.answerNow c = (.ok a, r')) :
    ∃ s, r.state.answer c = .ok (a, s) ∧ r' = r.after c s := by
  rw [answerNow] at h
  split at h
  · simp at h
  · next x s hanswer =>
    cases h
    exact ⟨s, hanswer, rfl⟩

/-- After a call that only reads, the repository is the same. -/
theorem Repository.after_of_not_mutates {r : Repository} {c : Call} (hc : c.mutates = false) :
    r.after c r.state = r := by
  simp [after, hc]

/-- What a repository answers by itself is one of the things that it may reply. -/
theorem Repository.serves_answerNow (r : Repository) (c : Call) :
    r.Serves (.call c) ((r.answerNow c).1.mapError .refused) (r.answerNow c).2 := by
  rcases h : r.answerNow c with ⟨reply, r'⟩
  cases reply with
  | ok a => exact .answered h
  | error e =>
    rw [answer_of_error h]
    exact .unanswered r c (.refused e)

/-- A request adds to the number of changes of a repository what it keeps as such. -/
theorem Repository.Serves.mutations_eq {r r' : Repository} {q : Request} {reply : q.Reply}
    (h : r.Serves q reply r') :
    r'.mutations = r.mutations + (q.exchanges reply).countP (·.isChange) := by
  cases h with
  | @answered _ c a h =>
    obtain ⟨s, -, rfl⟩ := answerNow_eq_ok h
    cases hc : c.mutates <;>
      simp [Repository.after, hc, Request.exchanges, Exchange.isChange, Except.isOk, Except.toBool]
  | unanswered c e => simp [Request.exchanges, Exchange.isChange, Except.isOk, Except.toBool]
  | cancelled | now => rfl

namespace World.Serves

variable {σ α : Type} {w : World σ} {view : σ → Repository}

/-- Every successful call that may change something is counted. -/
theorem mutations_through (hw : w.Serves view) (p : Running α) (x : σ) :
    (view (p.through w x).world).mutations =
      (view x).mutations + (p.through w x).exchanges.countP (·.isChange) := by
  induction p generalizing x with
  | done a => rfl
  | ask r next ih =>
    simp only [Dialogue.transcript_ask, Transcript.world_behind, Transcript.exchanges_behind, ih,
      List.countP_append, (hw r x).mutations_eq, Answered.exchanges_cons, Answered.exchanges_nil,
      List.append_nil, Nat.add_assoc]

/-- Looking at the clock does nothing. -/
theorem view_now (hw : w.Serves view) (x : σ) : view (w .now x).2 = view x := by
  have h := hw .now x
  generalize view (w .now x).2 = r' at h
  cases h
  rfl

/-- Asking for a cancellation does nothing. -/
theorem view_cancelled (hw : w.Serves view) (x : σ) : view (w .cancelled x).2 = view x := by
  have h := hw .cancelled x
  generalize view (w .cancelled x).2 = r' at h
  cases h
  rfl

end World.Serves

/-! ## Planned faults -/

/-- A host without files, whose clock stands still. -/
def Host.bare : (r : Host.Request) → Host.Reply r
  | .realName _ | .read _ | .makeDirectory _ | .write _ _ | .openAppend _ | .length _
  | .setLength _ _ | .append _ _ | .sync _ => .error .missing
  | .now => ⟨0, 0⟩

namespace Bench

/-- A repository with planned faults as a world, on a host that replies in a fixed way. -/
def world (host : (r : Host.Request) → Host.Reply r) : World Bench :=
  fun r b => ((answer r).run b).interpret (m := Id) host

section

variable (host : (r : Host.Request) → Host.Reply r)

/-- A program that is run on a repository with planned faults passes through it as a world. -/
theorem interpret_run {α : Type} (p : Running α) (b : Bench) :
    (run p b).interpret (m := Id) host =
      ((p.through (world host) b).result, (p.through (world host) b).world) := by
  induction p generalizing b with
  | done a => rfl
  | ask r next ih =>
    refine (Dialogue.interpret_bind (m := Id) host ((answer r).run b) _).trans ?_
    exact ih _ _

/-- The repository itself is served. -/
theorem serves_reach (c : Call) (b : Bench) :
    b.repository.Serves (.call c) (((reach c).run b).interpret (m := Id) host).1
      (((reach c).run b).interpret (m := Id) host).2.repository := by
  have hnow := b.repository.serves_answerNow c
  cases c with
  | commit =>
    -- writing the state to a file does not change it
    have hcommit : ∃ reply, (b.repository.answer .commit).interpret (m := Id) host =
        (reply, b.repository) := by
      simp only [Repository.answer]
      split
      · exact ⟨_, rfl⟩
      · next file _ =>
        exact ⟨_, Dialogue.interpret_bind (m := Id) host (b.repository.save file) _⟩
    obtain ⟨reply, hreply⟩ := hcommit
    have hreach : ((reach .commit).run b).interpret (m := Id) host =
        (reply.mapError .refused, b) := by
      refine (Dialogue.interpret_bind (m := Id) host (b.repository.answer .commit) _).trans ?_
      rw [hreply]
      rfl
    rw [hreach]
    cases reply with
    | ok a => exact .answered rfl
    | error e => exact .unanswered _ _ (.refused e)
  | _ => exact hnow

/-- A repository with planned faults is served. -/
theorem serves_world : (world host).Serves repository := by
  intro r b
  cases r with
  | call c =>
    have hstrike : ∀ b' : Bench, b'.repository = b.repository → b.repository.Serves (.call c)
        (((reach c).run b').interpret (m := Id) host).1
        (((reach c).run b').interpret (m := Id) host).2.repository := by
      intro b' hb'
      rw [← hb']
      exact serves_reach host c b'
    show b.repository.Serves (.call c) (((answerCall c).run b).interpret (m := Id) host).1
      (((answerCall c).run b).interpret (m := Id) host).2.repository
    rw [answerCall]
    simp only [StateT.run_bind, StateT.run_get, StateT.run_set, pure_bind]
    cases (Fault.strike c b.faults).1 with
    | none => exact hstrike _ rfl
    | some kind =>
      cases kind with
      | refuse refusal => exact .unanswered _ _ (.refused refusal)
      | stall => exact .unanswered _ _ (.timedOut b.limitMs)
      | cancel => exact hstrike _ rfl
  | cancelled => exact .cancelled _ _
  | now => exact .now _ _

end

end Bench

end Entitle
