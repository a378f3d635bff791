import Entitle.Proofs.Asking

/-!
# Transcripts

A program is run in a world: a handler with a state of its own, which may remember what it was asked
and may reply anything to any request. The transcript of the program is its result with all the
requests it made and the replies to them, in their order.

## Main definitions

* `Answered`, `Transcript`: a request with its reply; the result and the requests of a program.
* `Dialogue.transcript`: the transcript of a program in a world.
* `Transcript.KeptIf`: the transcript of a program that may break off, beside that of the program.

## Main statements

* `Dialogue.interpret_eq`: a transcript is what the handler makes of the program.
* `Dialogue.transcript_bind`: the transcript of a sequence.
* `Dialogue.transcript_of_meets`: what is true of all requests is true of those in a transcript.
* `Dialogue.world_of_meets`: what all requests preserve, the program preserves.
* `Dialogue.transcript_congr`: worlds that agree on the requests of a program have the same
  transcript of it.
* `Dialogue.transcript_guarded`, `Dialogue.kept_bind`: a program breaks off at a reply that is not
  accepted, and a sequence if one of its parts does.
-/
namespace Entitle

/-- A request and the reply to it. -/
structure Answered (Op : Type) (Reply : Op → Type) where
  op : Op
  reply : Reply op

/-- How a program went: its result, its requests with their replies, and the world after it. -/
structure Transcript (σ : Type) (Op : Type) (Reply : Op → Type) (α : Type) where
  result : α
  log : List (Answered Op Reply)
  world : σ

namespace Transcript

variable {σ Op α : Type} {Reply : Op → Type}

/-- The transcript with earlier requests. -/
def behind (log : List (Answered Op Reply)) (t : Transcript σ Op Reply α) :
    Transcript σ Op Reply α :=
  { t with log := log ++ t.log }

section

variable (log log' : List (Answered Op Reply)) (t : Transcript σ Op Reply α)

@[simp] theorem result_behind : (t.behind log).result = t.result := rfl

@[simp] theorem log_behind : (t.behind log).log = log ++ t.log := rfl

@[simp] theorem world_behind : (t.behind log).world = t.world := rfl

@[simp] theorem behind_nil : t.behind [] = t := rfl

@[simp] theorem behind_behind : (t.behind log').behind log = t.behind (log ++ log') := by
  simp [behind]

end

/-- The transcript of a program that may break off, beside that of the program itself: they are the
same if `kept` is true, and otherwise there is no result. -/
def KeptIf (kept : Bool) (t : Transcript σ Op Reply α) (t' : Transcript σ Op Reply (Option α)) :
    Prop :=
  if kept then t' = ⟨some t.result, t.log, t.world⟩ else t'.result = none

/-- What was kept is kept with earlier requests. -/
theorem KeptIf.behind {kept : Bool} {t : Transcript σ Op Reply α}
    {t' : Transcript σ Op Reply (Option α)} (h : t.KeptIf kept t')
    (log : List (Answered Op Reply)) : (t.behind log).KeptIf kept (t'.behind log) := by
  cases kept with
  | true => exact congrArg (Transcript.behind log) h
  | false => exact h

end Transcript

namespace Dialogue

variable {σ Op α β : Type} {Reply : Op → Type}

/-- The transcript of a program in a world. -/
def transcript (w : (op : Op) → StateM σ (Reply op)) :
    Dialogue Op Reply α → σ → Transcript σ Op Reply α
  | done a, x => ⟨a, [], x⟩
  | ask op next, x =>
    let more := transcript w (next (w op x).1) (w op x).2
    { more with log := ⟨op, (w op x).1⟩ :: more.log }

section

variable (w : (op : Op) → StateM σ (Reply op))

@[simp] theorem transcript_done (a : α) (x : σ) :
    (done a : Dialogue Op Reply α).transcript w x = ⟨a, [], x⟩ := rfl

@[simp] theorem transcript_request (op : Op) (x : σ) :
    (request op : Dialogue Op Reply (Reply op)).transcript w x =
      ⟨(w op x).1, [⟨op, (w op x).1⟩], (w op x).2⟩ := rfl

/-- The transcript of a program that begins with a request. -/
theorem transcript_ask (op : Op) (next : Reply op → Dialogue Op Reply α) (x : σ) :
    (ask op next).transcript w x =
      ((next (w op x).1).transcript w (w op x).2).behind [⟨op, (w op x).1⟩] := rfl

/-- A transcript is what the handler makes of the program. -/
theorem interpret_eq (p : Dialogue Op Reply α) (x : σ) :
    p.interpret w x = ((p.transcript w x).result, (p.transcript w x).world) := by
  induction p generalizing x with
  | done a => rfl
  | ask op next ih => exact ih _ _

/-- The transcript of a sequence: the second part meets the world that the first one leaves. -/
theorem transcript_bind (p : Dialogue Op Reply α) (f : α → Dialogue Op Reply β) (x : σ) :
    let first := p.transcript w x
    let more := (f first.result).transcript w first.world
    (p >>= f).transcript w x = ⟨more.result, first.log ++ more.log, more.world⟩ := by
  induction p generalizing x with
  | done a => rfl
  | ask op next ih => simp [transcript, ih]

theorem transcript_request_bind (op : Op) (f : Reply op → Dialogue Op Reply β) (x : σ) :
    let more := (f (w op x).1).transcript w (w op x).2
    (request op >>= f).transcript w x =
      ⟨more.result, ⟨op, (w op x).1⟩ :: more.log, more.world⟩ := rfl

/-- The result and the requests in a transcript have every property that they have whatever the
replies. -/
theorem transcript_of_meets {P : Op → Prop} {Q : α → Prop} {p : Dialogue Op Reply α}
    (hp : p.Meets P Q) (x : σ) :
    Q (p.transcript w x).result ∧ ∀ e ∈ (p.transcript w x).log, P e.op := by
  induction p generalizing x with
  | done a => exact ⟨hp, by simp [transcript]⟩
  | ask op next ih =>
    obtain ⟨hresult, hlog⟩ := ih (w op x).1 (hp.2 _) (w op x).2
    exact ⟨hresult, List.forall_mem_cons.2 ⟨hp.1, hlog⟩⟩

/-- Every reply in a transcript was given by the world at some time. -/
theorem replied_of_mem_log {p : Dialogue Op Reply α} {x : σ} {e : Answered Op Reply}
    (he : e ∈ (p.transcript w x).log) : ∃ y, (w e.op y).1 = e.reply := by
  induction p generalizing x with
  | done a => cases he
  | ask op next ih =>
    rcases List.mem_cons.1 he with rfl | he
    · exact ⟨x, rfl⟩
    · exact ih _ he

/-- What all requests of a program preserve, the program preserves. -/
theorem world_of_meets {P : Op → Prop} {Q : α → Prop} {I : σ → Prop} {p : Dialogue Op Reply α}
    (hp : p.Meets P Q) (hw : ∀ op, P op → ∀ x, I x → I (w op x).2) {x : σ} (hx : I x) :
    I (p.transcript w x).world := by
  induction p generalizing x with
  | done a => exact hx
  | ask op next ih => exact ih _ (hp.2 _) (hw op hp.1 x hx)

/-- Worlds that agree on the requests of a program have the same transcript of it. -/
theorem transcript_congr {w' : (op : Op) → StateM σ (Reply op)} {P : Op → Prop} {Q : α → Prop}
    {p : Dialogue Op Reply α} (hp : p.Meets P Q) (hw : ∀ op, P op → w' op = w op) (x : σ) :
    p.transcript w' x = p.transcript w x := by
  induction p generalizing x with
  | done a => rfl
  | ask op next ih => simp [transcript, hw op hp.1, ih _ (hp.2 _)]

/-- A program that may break off has the transcript of the program itself if every reply there is
accepted, and otherwise no result. -/
theorem transcript_guarded (accepts : (op : Op) → Reply op → Bool) (p : Dialogue Op Reply α)
    (x : σ) :
    (p.transcript w x).KeptIf ((p.transcript w x).log.all fun e => accepts e.op e.reply)
      ((p.guarded accepts).transcript w x) := by
  induction p generalizing x with
  | done a => rfl
  | ask op next ih =>
    have hnext := ih (w op x).1 (w op x).2
    rw [guarded, transcript_ask, transcript_ask, Transcript.log_behind, List.singleton_append,
      List.all_cons]
    cases haccepts : accepts op (w op x).1 with
    | true => simpa [haccepts] using hnext.behind [⟨op, (w op x).1⟩]
    | false => simp [Transcript.KeptIf]

/-- A program that is lifted to those that may break off does not break off. -/
theorem kept_lift (p : Dialogue Op Reply α) (x : σ) :
    (p.transcript w x).KeptIf true ((OptionT.lift p).run.transcript w x) := by
  refine (transcript_bind w p (fun a => pure (some a)) x).trans ?_
  simp

/-- A sequence is kept if both parts are. -/
theorem kept_bind {kept kept' : Bool} {p : OptionT (Dialogue Op Reply) α}
    {f : α → OptionT (Dialogue Op Reply) β} {x : σ} {first : Transcript σ Op Reply α}
    (more : Transcript σ Op Reply β) (hfirst : first.KeptIf kept (p.run.transcript w x))
    (hmore : more.KeptIf kept' ((f first.result).run.transcript w first.world)) :
    Transcript.KeptIf (kept && kept') ⟨more.result, first.log ++ more.log, more.world⟩
      ((p >>= f).run.transcript w x) := by
  have hbind := transcript_bind w p.run
    (fun r => (r.elim (pure none) fun a => (f a).run : Dialogue Op Reply (Option β))) x
  have heq : (p >>= f).run = p.run >>= fun r => r.elim (pure none) fun a => (f a).run := by
    rw [OptionT.run_bind]
    rfl
  rw [heq, hbind]
  cases kept with
  | true =>
    have heq : p.run.transcript w x = _ := hfirst
    rw [heq]
    cases kept' with
    | true =>
      have heq : (f first.result).run.transcript w first.world = _ := hmore
      simp [Transcript.KeptIf, heq]
    | false => exact hmore
  | false =>
    have hnone : (p.run.transcript w x).result = none := hfirst
    simp [Transcript.KeptIf, hnone]

end

end Dialogue

end Entitle
