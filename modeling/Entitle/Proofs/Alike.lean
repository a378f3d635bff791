import Entitle.Proofs.Keeping
import Entitle.Proofs.Lines
import Entitle.Proofs.WellFormed

/-!
# Runs at different times

The clock decides nothing. Two recorded runs of one plan that are replied the same, time stamps
aside, ask the same, time stamps aside, and come to the same, time stamps aside. So what is said of
two runs can be said request by request: whatever two worlds have in common and keep in common at
every pair of such requests, they have in common after the runs.

## Main definitions

* `Dialogue.Alike`: two programs ask for related things and come to related results, as long as the
  replies are related.
* `Record.undated`, `Report.undated`, `RunOutcome.undated`: results without time stamps.
* `RunRequest.Alike`: requests that are the same but for time stamps.

## Main statements

* `Dialogue.Alike.transcript`: programs that are alike, in worlds that stay related.
* `Plan.alike_launch`: a recorded run of a plan is alike to itself.
* `alike_launch`: so is one that compiles its plan.
-/
namespace Entitle

open Dialogue

/-! ## Related programs -/

namespace Dialogue

variable {Op α β α' β' : Type} {Reply : Op → Type}
  {A : (op op' : Op) → (Reply op → Reply op' → Prop) → Prop}

/-- Two programs ask for things that `A` relates and come to results that `R` relates, as long as
the replies are related in the way that `A` says. -/
inductive Alike (A : (op op' : Op) → (Reply op → Reply op' → Prop) → Prop) (R : α → α' → Prop) :
    Dialogue Op Reply α → Dialogue Op Reply α' → Prop
  | done {a : α} {a' : α'} (h : R a a') : Alike A R (done a) (done a')
  | ask {op op' : Op} {S : Reply op → Reply op' → Prop} {next : Reply op → Dialogue Op Reply α}
    {next' : Reply op' → Dialogue Op Reply α'} (h : A op op' S)
    (hnext : ∀ reply reply', S reply reply' → Alike A R (next reply) (next' reply')) :
    Alike A R (ask op next) (ask op' next')

theorem alike_request {op op' : Op} {S : Reply op → Reply op' → Prop} (h : A op op' S) :
    Alike A S (request op) (request op') :=
  .ask h fun _ _ hreply => .done hreply

theorem alike_bind {R : α → α' → Prop} {R' : β → β' → Prop} {p : Dialogue Op Reply α}
    {p' : Dialogue Op Reply α'} {f : α → Dialogue Op Reply β} {f' : α' → Dialogue Op Reply β'}
    (hp : Alike A R p p') (hf : ∀ a a', R a a' → Alike A R' (f a) (f' a')) :
    Alike A R' (p >>= f) (p' >>= f') := by
  induction hp with
  | done h => exact hf _ _ h
  | ask h _ ih => exact .ask h ih

/-- A program whose requests are related to themselves by equality of the replies. -/
theorem Meets.alike {P : Op → Prop} {Q : α → Prop} {p : Dialogue Op Reply α} (hp : p.Meets P Q)
    (hA : ∀ op, P op → A op op Eq) : Alike A (fun a a' => a = a' ∧ Q a) p p := by
  induction p with
  | done a => exact .done ⟨rfl, hp⟩
  | ask op next ih =>
    refine .ask (hA op hp.1) fun reply reply' h => ?_
    obtain rfl := h
    exact ih reply (hp.2 reply)

/-- Programs that are alike come to related results in worlds that reply to related requests with
related replies, and stay related themselves. -/
theorem Alike.transcript {σ σ' : Type} {w : (op : Op) → StateM σ (Reply op)}
    {w' : (op : Op) → StateM σ' (Reply op)} {I : σ → σ' → Prop}
    (hw : ∀ {op op' S}, A op op' S → ∀ x x', I x x' →
      S (w op x).1 (w' op' x').1 ∧ I (w op x).2 (w' op' x').2)
    {R : α → α' → Prop} {p : Dialogue Op Reply α} {p' : Dialogue Op Reply α'} (hp : Alike A R p p')
    {x : σ} {x' : σ'} (hx : I x x') :
    R (p.transcript w x).result (p'.transcript w' x').result ∧
      I (p.transcript w x).world (p'.transcript w' x').world := by
  induction hp generalizing x x' with
  | done h => exact ⟨h, hx⟩
  | ask h _ ih =>
    obtain ⟨hreply, hafter⟩ := hw h x x' hx
    exact ih _ _ hreply hafter

end Dialogue

/-! ## Time stamps -/

/-- The record without its time stamp. -/
def Record.undated (r : Record) : Record :=
  { r with recordedAt := "" }

/-- The report without its time stamps. -/
def Report.undated (r : Report) : Report :=
  { r with startedAt := "", finishedAt := "" }

/-- What became of a run, without time stamps. -/
def RunOutcome.undated : RunOutcome → RunOutcome
  | executed report audit => executed report.undated (audit.map Record.undated)
  | unchanged previous => unchanged previous.undated

/-- A record may make a run superfluous whenever it was kept. -/
theorem map_undated_settledBy? (found : Option Record) :
    (settledBy? found).map Record.undated = settledBy? (found.map Record.undated) := by
  cases found with
  | none => rfl
  | some r =>
    rw [settledBy?, settledBy?, Option.map_some, Option.filter_some, Option.filter_some]
    exact apply_ite (Option.map Record.undated) _ _ _

/-- What a store does with a record does not depend on time stamps. -/
theorem History.duplicate?_undated (records : List Record) (r : Record) :
    duplicate? (records.map Record.undated) r.undated = duplicate? records r := by
  rw [duplicate?, List.any_map]
  rfl

theorem History.newest?_undated (records : List Record) (identity checksum : String) (mode : Mode) :
    newest? (records.map Record.undated) identity checksum mode =
      (newest? records identity checksum mode).map Record.undated := by
  rw [newest?, newestFirst, ← List.map_reverse, List.filter_map, List.find?_map]
  rfl

theorem Journal.nextId_undated (records : List Record) :
    nextId (records.map Record.undated) = nextId records := by
  rw [nextId, List.map_map]
  rfl

/-! ## Requests -/

/-- Requests that are the same but for time stamps, with the replies that are the same but for time
stamps. Calls are sound, and the numbers of a record are words of 64 bits. -/
inductive RunRequest.Alike :
    (r r' : RunRequest) → (RunReply r → RunReply r' → Prop) → Prop
  | call {c : Call} (h : c.Sound) : Alike (.step (.call c)) (.step (.call c)) Eq
  | cancelled : Alike (.step .cancelled) (.step .cancelled) Eq
  | now : Alike (.step .now) (.step .now) fun _ _ => True
  | latest (identity checksum : String) (mode : Mode) :
    Alike (.history (.latest identity checksum mode)) (.history (.latest identity checksum mode))
      (InvImage Eq (Except.map (Option.map Record.undated)))
  | record {r r' : Record} (h : r.undated = r'.undated) (hwords : r.summary.InWords) :
    Alike (.history (.record r)) (.history (.record r')) (InvImage Eq (Except.map Record.undated))

/-- A request that is neither for the time nor for the history is alike to itself. -/
theorem RunRequest.alike_self {r : RunRequest} (h : r.IsStep (Request.Heeds Call.Sound)) :
    RunRequest.Alike r r Eq := by
  cases r with
  | step r =>
    cases r with
    | call c => exact .call h
    | cancelled => exact .cancelled
    | now => exact h.elim
  | history => exact h.elim

/-! ## Recorded runs -/

/-- The number of actions bounds all the numbers of a summary. -/
theorem Report.inWords_summary {r : Report} (h : r.entries.length < wordBound) :
    r.summary.InWords := by
  have htotal : r.summary.total = r.entries.length :=
    (Summary.total_ofOutcomes _ _).trans (by simp [Report.outcomes])
  rw [Summary.total] at htotal
  exact ⟨by omega, by omega, by omega, by omega⟩

/-- Reports that differ in their time stamps lead to records that do. -/
theorem Report.undated_toRecord {r r' : Report} (h : r.undated = r'.undated) (principal : String)
    (rerun : Bool) (recordedAt recordedAt' : String) :
    (r.toRecord principal rerun recordedAt).undated =
      (r'.toRecord principal rerun recordedAt').undated := by
  have hundated :
      r.undated.toRecord principal rerun "" = r'.undated.toRecord principal rerun "" := by
    rw [h]
  exact hundated

namespace Plan

variable {plan : Plan} (hsound : ∀ a ∈ plan.actions, ∀ c, Change.Of a.action c → c.call.Sound)
  (hlength : plan.actions.length < wordBound)
include hsound hlength

/-- The reports of two runs differ in nothing but their time stamps. -/
theorem alike_execute (mode : Mode) :
    Alike RunRequest.Alike (fun r r' => r.undated = r'.undated ∧ r.summary.InWords)
      (plan.execute mode).recording (plan.execute mode).recording := by
  have hmeets : (PlannedAction.runAll mode .empty plan.actions).Meets (Request.Heeds Call.Sound)
      fun r => r.1.map (·.action) = plan.actions :=
    PlannedAction.meets_runAll
      (fun c hc => Call.sound_of_not_mutates (Call.not_mutates_of_reads hc)) .empty fun _ => hsound
  have hactions := (Running.meets_recording hmeets).alike fun _ => RunRequest.alike_self
  have hclock : Alike RunRequest.Alike (fun _ _ => True) (Dialogue.request (RunRequest.step .now))
      (Dialogue.request (RunRequest.step .now)) := alike_request .now
  simp only [execute, Runner.execute, Running.recording, interpret_bind]
  refine alike_bind hclock fun started started' _ => ?_
  refine alike_bind hactions fun result result' hresult => ?_
  obtain ⟨rfl, hentries⟩ := hresult
  refine alike_bind hclock fun finished finished' _ => .done ⟨rfl, ?_⟩
  refine Report.inWords_summary ?_
  rw [← hentries, List.length_map] at hlength
  exact hlength

omit hsound hlength in
theorem alike_commitChanges :
    Alike RunRequest.Alike (fun a a' => a = a' ∧ True) commitChanges commitChanges := by
  have hmeets : commitChanges.Meets (· = .step (.call .commit)) fun _ => True := by
    refine meets_bind (meets_request.2 ⟨rfl, fun _ => trivial⟩) ?_
    rintro ((refusal | afterMs) | done) - <;> trivial
  refine hmeets.alike ?_
  rintro _ rfl
  exact .call trivial

theorem alike_runAndRecord (mode : Mode) (options : RunOptions) (repeated : Bool) :
    Alike RunRequest.Alike (InvImage Eq (Except.map RunOutcome.undated))
      (plan.runAndRecord mode options repeated) (plan.runAndRecord mode options repeated) := by
  refine alike_bind (alike_execute hsound hlength mode) fun report report' ⟨hreport, hwords⟩ => ?_
  have hrecord : ∀ r r' : Record, r.undated = r'.undated → r.summary.InWords →
      Alike RunRequest.Alike (InvImage Eq (Except.map RunOutcome.undated))
        (do
          let audit ← (History.record r).recording
          pure (.ok (.executed report audit)) : Recording (Except RunError RunOutcome))
        (do
          let audit ← (History.record r').recording
          pure (.ok (.executed report' audit)) : Recording (Except RunError RunOutcome)) := by
    intro r r' hsame hwords
    have hkept : RunRequest.Alike (.history (.record r)) (.history (.record r')) _ :=
      .record hsame hwords
    rw [History.recording_record, History.recording_record]
    refine alike_bind (alike_request (A := RunRequest.Alike) hkept)
      fun audit audit' haudit => .done ?_
    simp only [InvImage, Except.map, RunOutcome.undated, hreport] at haudit ⊢
    rw [haudit]
  have hclock := alike_request (A := RunRequest.Alike) .now
  cases mode with
  | dryRun =>
    simp only [pure_eq, done_bind]
    exact alike_bind hclock fun _ _ _ =>
      hrecord _ _ (Report.undated_toRecord hreport ..) hwords
  | apply =>
    refine alike_bind alike_commitChanges fun committed committed' ⟨hsame, _⟩ => ?_
    subst hsame
    cases committed with
    | error refusal => exact .done rfl
    | ok _ =>
      exact alike_bind hclock fun _ _ _ =>
        hrecord _ _ (Report.undated_toRecord hreport ..) hwords

/-- A run of a plan comes to the same at any time. -/
theorem alike_launch (mode : Mode) (options : RunOptions) :
    Alike RunRequest.Alike (InvImage Eq (Except.map RunOutcome.undated))
      (plan.launch mode options) (plan.launch mode options) := by
  have hprevious : Alike RunRequest.Alike (InvImage Eq (Except.map (Option.map Record.undated)))
      (plan.previous? mode options) (plan.previous? mode options) := by
    rw [previous?]
    split
    · refine alike_bind (alike_request (A := RunRequest.Alike) (.latest ..))
        fun found found' hfound => .done ?_
      cases found with
      | error e => cases found' <;> simp_all [InvImage, Except.map]
      | ok found => cases found' <;> simp_all [InvImage, Except.map, map_undated_settledBy?]
    · exact .done rfl
  refine alike_bind hprevious fun found found' hfound => ?_
  rcases found with e | (_ | previous) <;> rcases found' with e' | (_ | previous') <;>
    simp only [InvImage, Except.map, Option.map, reduceCtorEq, Except.error.injEq, Except.ok.injEq,
      Option.some.injEq] at hfound
  · obtain rfl := hfound
    exact .done rfl
  · -- nothing makes the run superfluous
    refine alike_bind (alike_request (A := RunRequest.Alike) (.latest ..))
      fun found found' hfound => ?_
    rcases found with e | found <;> rcases found' with e' | found'
    · exact .done (by simpa [InvImage, Except.map] using hfound)
    · simp [InvImage, Except.map] at hfound
    · simp [InvImage, Except.map] at hfound
    · have hsome := congrArg Option.isSome (Except.ok.inj hfound)
      simp only [Option.isSome_map] at hsome
      simp only [hsome]
      exact alike_runAndRecord hsound hlength mode options _
  · exact .done (congrArg (Except.ok ∘ RunOutcome.unchanged) hfound)

end Plan

/-- The changes of a plan that was compiled are sound calls. -/
theorem Plan.sound_of_compileScript {load : Loader} {limit : Nat} {identifier : String}
    {cache : Cache} {plan : Plan} (h : (compileScript load limit identifier cache).1 = .ok plan) :
    ∀ a ∈ plan.actions, ∀ c, Change.Of a.action c → c.call.Sound := by
  obtain ⟨script, root, c', e, -, -, he, rfl⟩ := compileScript_eq_ok h
  intro a ha c hc
  obtain ⟨d, hd, rfl⟩ := List.mem_map.1 ha
  exact Action.sound_of_problems (Expansion.sound_of_ofChecked he d hd) hc

/-- A run that compiles its plan comes to the same at any time. -/
theorem alike_launch {load : Loader} {cache : Cache} {identifier : String} {options : RunOptions}
    (hlength : ∀ plan, (compileScript load options.includeLimit identifier cache).1 = .ok plan →
      plan.actions.length < wordBound) (mode : Mode) :
    let program := (launch load cache identifier mode options).1
    Alike RunRequest.Alike (InvImage Eq (Except.map RunOutcome.undated)) program program := by
  simp only [launch]
  split
  · exact .done rfl
  · next plan cache' h =>
    have hplan : (compileScript load options.includeLimit identifier cache).1 = .ok plan := by
      rw [h]
    exact Plan.alike_launch (Plan.sound_of_compileScript hplan) (hlength _ hplan) mode options

end Entitle
