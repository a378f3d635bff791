import Entitle.Proofs.Worlds

/-!
# Undisturbed runs

When nothing interferes, a run on a repository with a state is determined: every call is answered
as the state says, and the run is not cancelled. What a run does is said here through its outcome,
the state it leaves and the calls it makes, and of an attempt that only reads through what it sees.

## Main definitions

* `State.world`, `Running.on`: a state as a world, and the undisturbed run on it.
* `Running.look`, `Attempt.look`: what a program that only reads makes of a state.

## Main statements

* `Running.on_of_reads`: a program that only reads leaves the state as it is.
* `Running.reaches_on`: an undisturbed run is one of the runs on the state.
* `Attempt.look_bind`, `Attempt.look_call`: what is seen, step by step.
-/
namespace Entitle

/-- What a state makes of a call: an answer or a refusal, and the state after it. -/
def State.reply (s : State) (c : Call) : Except CallError c.Answer × State :=
  match s.answer c with
  | .ok (a, s') => (.ok a, s')
  | .error e => (.error (.refused e), s)

/-- A call that only reads leaves the state as it is. -/
theorem State.reply_of_not_mutates {s : State} {c : Call} (hc : c.mutates = false) :
    (s.reply c).2 = s := by
  rw [State.reply]
  split
  · next h => exact State.answer_of_not_mutates hc h
  · rfl

/-- The world in which nothing interferes with a state: a call is answered as the state says, the
run is not cancelled, and the clock stands still. -/
def State.world (clock : String) : World State
  | .call c => fun s => s.reply c
  | .cancelled => fun s => (false, s)
  | .now => fun s => (clock, s)

/-- The passage of an undisturbed run on a state. -/
abbrev Running.on {α : Type} (clock : String) (p : Running α) (s : State) : Passage State α :=
  p.through (State.world clock) s

namespace Transcript

variable {α : Type}

/-- The state that an undisturbed run leaves. -/
abbrev state (t : Passage State α) : State :=
  t.world

/-- The calls of a passage. -/
def calls {σ : Type} (t : Passage σ α) : List Call :=
  t.exchanges.map (·.call)

@[simp] theorem map_call_exchanges {σ : Type} (t : Passage σ α) :
    t.exchanges.map (·.call) = t.calls := rfl

@[simp] theorem calls_mk {σ : Type} (a : α) (log : List (Answered Request Request.Reply)) (x : σ) :
    (⟨a, log, x⟩ : Passage σ α).calls = (Answered.exchanges log).map (·.call) := rfl

theorem calls_clocked {σ : Type} (a : α) (started finished : String)
    (log : List (Answered Request Request.Reply)) (x : σ) :
    (⟨a, ⟨.now, started⟩ :: (log ++ [⟨.now, finished⟩]), x⟩ : Passage σ α).calls =
      (Answered.exchanges log).map (·.call) := by
  rw [calls, exchanges_clocked]

@[simp] theorem calls_behind {σ : Type} (log : List (Answered Request Request.Reply))
    (t : Passage σ α) :
    (t.behind log).calls = (Answered.exchanges log).map (·.call) ++ t.calls := by
  rw [calls, exchanges_behind, List.map_append, calls]

end Transcript

namespace Running

variable {α β : Type}

/-- An undisturbed run is one of the runs on the state. -/
theorem reaches_on (clock : String) (p : Running α) (s : State) :
    Reaches s p (p.on clock s).state (.done (p.on clock s).result) := by
  induction p generalizing s with
  | done a => exact .refl s _
  | ask r next ih =>
    cases r with
    | call c =>
      have hreply : s.Serves (.call c) (s.reply c).1 (s.reply c).2 := by
        rw [State.reply]
        split
        · next h => exact .answered h
        · exact .unanswered s c _
      exact .step hreply (ih _ _)
    | cancelled => exact .step (.cancelled s false) (ih _ s)
    | now => exact .step (.now s clock) (ih _ s)

/-! ## Reading -/

/-- What a program that only reads makes of a state. -/
def look : Running α → State → α
  | .done a, _ => a
  | .ask (.call c) next, s => look (next (s.reply c).1) s
  | .ask .cancelled next, s => look (next false) s
  | .ask .now next, s => look (next "") s

theorem look_bind (p : Running α) (f : α → Running β) (s : State) :
    look (p >>= f) s = look (f (p.look s)) s := by
  induction p with
  | done a => rfl
  | ask r next ih => cases r <;> simp [look, ih]

/-- A program that only makes calls that read leaves the state as it is. -/
theorem on_of_reads (clock : String) {p : Running α} {Q : α → Prop}
    (hp : p.Meets (Request.IsCall fun c => c.mutates = false) Q) (s : State) :
    (p.on clock s).result = p.look s ∧ (p.on clock s).state = s ∧
      ∀ c ∈ (p.on clock s).calls, c.mutates = false := by
  refine ⟨?_, ?_, ?_⟩
  · induction p with
    | done a => rfl
    | ask r next ih =>
      cases r with
      | call c =>
        show (on clock (next (s.reply c).1) (s.reply c).2).result = look (next (s.reply c).1) s
        rw [State.reply_of_not_mutates hp.1]
        exact ih _ (hp.2 _)
      | cancelled | now => exact hp.1.elim
  · refine Dialogue.world_of_meets (I := (· = s)) (State.world clock) hp (fun r hr t ht => ?_) rfl
    cases r with
    | call c => exact (State.reply_of_not_mutates hr).trans ht
    | cancelled | now => exact hr.elim
  · have hexchanges := (through_of_meets (State.world clock)
      (hp.mono (fun _ h => h.heeds.calls) fun _ h => h) s).2
    exact List.forall_mem_map.2 hexchanges

/-- What is seen has every property that all results of the program have. -/
theorem look_of_meets {P : Request → Prop} {p : Running α} {Q : α → Prop} (hp : p.Meets P Q)
    (s : State) : Q (p.look s) := by
  induction p with
  | done a => exact hp
  | ask r next ih => cases r <;> exact ih _ (hp.2 _)

end Running

/-! ## Attempts that read -/

namespace Attempt

variable {α β : Type}

/-- What an attempt that only reads makes of a state. -/
def look (x : Attempt α) (s : State) : Except Failure α :=
  x.run.look s

@[simp] theorem look_pure (a : α) (s : State) : (pure a : Attempt α).look s = .ok a := rfl

@[simp] theorem look_throw (e : Failure) (s : State) :
    (throw e : Attempt α).look s = .error e := rfl

@[simp] theorem look_bind (x : Attempt α) (f : α → Attempt β) (s : State) :
    Attempt.look (x >>= f) s = (x.look s).bind fun a => (f a).look s := by
  refine (Running.look_bind x.run _ s).trans ?_
  rw [look]
  cases x.run.look s <;> rfl

theorem look_call (c : Call) (s : State) :
    (call c).look s = ((s.answer c).map (·.1)).mapError Refusal.failure := by
  refine (Running.look_bind (Dialogue.request (Request.call c)) _ s).trans ?_
  show Running.look (match (s.reply c).1 with | Except.ok a => _ | Except.error e => _) s = _
  rw [State.reply]
  cases s.answer c with
  | error e => rfl
  | ok r => rfl

/-- An attempt that begins with a call goes on with the answer. -/
theorem look_call_bind {c : Call} {a : c.Answer} {s : State} (h : (call c).look s = .ok a)
    (f : c.Answer → Attempt β) : Attempt.look (call c >>= f) s = (f a).look s := by
  rw [look_bind, h]
  rfl

theorem look_adapt (f : Failure → Failure) (x : Attempt α) (s : State) :
    Attempt.look (x.adapt f) s = (x.look s).mapError f := by
  refine (Running.look_bind x.run _ s).trans ?_
  rw [look]
  cases x.run.look s <;> rfl

end Attempt

end Entitle
