import Entitle.Proofs.Alike
import Entitle.Proofs.Benches
import Entitle.Proofs.Libraries

/-!
# Restarts

Recorded runs one after the other may all use one repository and one journal, which are opened from
their files at the beginning and stay open. Or both files are opened anew for each run, as if the
program had been started again. On a host that keeps the files this makes no difference. Between
runs the state file holds the state of the repository and the history file holds the records of the
journal: a forecast and a run that is found superfluous change neither, an application writes its
changes back before it is recorded, and the id of a record depends on nothing but the records
before it.

## Main definitions

* `Invocation`, `Visit`: a run that is asked for, and what it shows.
* `Invocation.restarted`, `Invocation.keptOpen`: runs with and without restarts between them.
* `Abreast`: two worlds with the same state and, time stamps aside, the same records.
* `Saved`: the state of the repository is what is in its file.

## Main statements

* `Abreast.answer`: requests that are the same but for time stamps keep two worlds abreast.
* `Plan.world_launch`: what holds between recorded runs.
* `Saved.commit`, `Saved.quiet`: what saves the state, and what leaves it saved.
* `Invocation.undated_restarted`: restarts are invisible, time stamps aside.
* `Invocation.restarted_forgetting`: nor is it seen that a restart loses what was compiled.
-/
namespace Entitle

open Dialogue

/-! ## Runs with and without restarts -/

/-- A run that is asked for: all that it does not find in the files. -/
structure Invocation where
  load : Loader
  /-- What the compiler remembers when the run begins. -/
  cache : Cache
  identifier : String
  mode : Mode
  options : RunOptions
  circumstances : Circumstances

/-- What a run shows: its result, and the state and the records after it. -/
structure Visit where
  result : Except RunError RunOutcome
  state : State
  records : List Record

/-- The same without time stamps. -/
def Visit.undated (v : Visit) : Visit where
  result := v.result.map RunOutcome.undated
  state := v.state
  records := v.records.map Record.undated

namespace Invocation

/-- The program of the run. -/
def program (i : Invocation) : Recording (Except RunError RunOutcome) :=
  (Entitle.launch i.load i.cache i.identifier i.mode i.options).1

/-- The repository as the run meets it. -/
def bench (i : Invocation) (repository : Repository) : Bench :=
  ⟨repository, i.circumstances.cancelled, i.circumstances.limitMs, i.circumstances.faults, []⟩

/-- The run, on a repository and a store, and both of them after it. -/
def perform (i : Invocation) (repository : Repository) (store : History.Backend) :
    Hosted (Visit × Repository × History.Backend) := do
  let (result, after) ← Surroundings.run i.program ⟨i.bench repository, store, .none⟩
  pure (⟨result, after.bench.repository.state, after.store.records⟩, after.bench.repository,
    after.store)

/-- Open both files. -/
def opening (stateFile historyFile : String) : Hosted (Option (Repository × Journal)) := do
  match ← Repository.load stateFile with
  | .error _ => pure none
  | .ok repository =>
    match ← Journal.load historyFile with
    | .error _ => pure none
    | .ok journal => pure (some (repository, journal))

/-- Runs one after the other. Both files are opened before each of them, and nothing else stays
between them. There are no visits if the files cannot be opened. -/
def restarted (stateFile historyFile : String) : List Invocation → Hosted (Option (List Visit))
  | [] => pure (some [])
  | i :: rest => do
    match ← opening stateFile historyFile with
    | none => pure none
    | some (repository, journal) =>
      let (visit, _) ← i.perform repository (.journal journal)
      let visits ← restarted stateFile historyFile rest
      pure (visits.map (visit :: ·))

/-- Runs one after the other, on a repository and a store that stay. -/
def inTurn (repository : Repository) (store : History.Backend) :
    List Invocation → Hosted (List Visit)
  | [] => pure []
  | i :: rest => do
    let (visit, repository, store) ← i.perform repository store
    let visits ← inTurn repository store rest
    pure (visit :: visits)

/-- Runs one after the other, on the repository and the journal of files that are opened once. -/
def keptOpen (stateFile historyFile : String) (invocations : List Invocation) :
    Hosted (Option (List Visit)) := do
  match ← opening stateFile historyFile with
  | none => pure none
  | some (repository, journal) =>
    let visits ← inTurn repository (.journal journal) invocations
    pure (some visits)

end Invocation

/-! ## Worlds abreast -/

/-- The host can be trusted with two files, each apart from the other. -/
structure Host.KeepsBoth {σ : Type} (host : (q : Host.Request) → StateM σ (Host.Reply q))
    (stateFile historyFile : String) (contents : σ → String → Option ByteArray) : Prop where
  ne : stateFile ≠ historyFile
  state : Host.Keeps host stateFile (contents · stateFile)
  history : Host.Keeps host historyFile (contents · historyFile)

/-- Two worlds have the same state and, time stamps aside, the same records. The journal of each is
what is in its history file. Their repositories may differ in how often they were changed. -/
structure Abreast {σ σ' : Type} (stateFile historyFile : String)
    (contents : σ → String → Option ByteArray) (contents' : σ' → String → Option ByteArray)
    (x : (Bench × History.Backend) × σ) (x' : (Bench × History.Backend) × σ') : Prop where
  ready : x.1.1.Ready stateFile
  bench : ∃ n, x'.1.1 = x.1.1.counting n
  journals : ∃ j j', x.1.2 = .journal j ∧ x'.1.2 = .journal j' ∧
    Journal.opened historyFile (contents x.2 historyFile) = .ok j ∧
    Journal.opened historyFile (contents' x'.2 historyFile) = .ok j' ∧
    j.records.map Record.undated = j'.records.map Record.undated

/-- What a journal does with a record does not depend on time stamps. -/
theorem Journal.undated_kept {j j' : Journal} {r r' : Record}
    (hj : j.records.map Record.undated = j'.records.map Record.undated)
    (hr : r.undated = r'.undated) :
    (j.kept r).1.map Record.undated = (j'.kept r').1.map Record.undated ∧
      (j.kept r).2.records.map Record.undated = (j'.kept r').2.records.map Record.undated := by
  have hduplicate : History.duplicate? j.records r = History.duplicate? j'.records r' := by
    rw [← History.duplicate?_undated, hj, hr, History.duplicate?_undated]
  have hid : nextId j.records = nextId j'.records := by
    rw [← Journal.nextId_undated, hj, Journal.nextId_undated]
  have hstored : Record.undated { r with id := nextId j.records } =
      Record.undated { r' with id := nextId j'.records } := by
    rw [hid]
    exact congrArg (fun r : Record => { r with id := nextId j'.records }) hr
  rw [kept, kept, hduplicate]
  cases History.duplicate? j'.records r' with
  | some e => exact ⟨rfl, hj⟩
  | none => exact ⟨congrArg Except.ok hstored, by simp [hj, hstored]⟩

section

variable {σ σ' : Type} {host : (q : Host.Request) → StateM σ (Host.Reply q)}
  {host' : (q : Host.Request) → StateM σ' (Host.Reply q)} {stateFile historyFile : String}
  {contents : σ → String → Option ByteArray} {contents' : σ' → String → Option ByteArray}

/-- A commit leaves the history file alone. -/
theorem Host.KeepsBoth.history_commit (h : Host.KeepsBoth host stateFile historyFile contents)
    {b : Bench} (hb : b.Ready stateFile) (y : σ) :
    contents (((Bench.answerCall .commit).run b).transcript host y).world historyFile =
      contents y historyFile :=
  h.history.view_transcript_of_about h.ne (Bench.meets_commit hb.file) y

namespace Abreast

variable {x : (Bench × History.Backend) × σ} {x' : (Bench × History.Backend) × σ'}

/-- Calls are answered the same, and the worlds stay abreast. -/
theorem call (h : Host.KeepsBoth host stateFile historyFile contents)
    (h' : Host.KeepsBoth host' stateFile historyFile contents')
    (hx : Abreast stateFile historyFile contents contents' x x') {c : Call} (hc : c.Sound) :
    let after := Surroundings.world host (.step (.call c)) x
    let after' := Surroundings.world host' (.step (.call c)) x'
    after.1 = after'.1 ∧ Abreast stateFile historyFile contents contents' after.2 after'.2 := by
  obtain ⟨⟨b, store⟩, y⟩ := x
  obtain ⟨⟨b', store'⟩, y'⟩ := x'
  obtain ⟨hready, ⟨n, rfl⟩, hjournals⟩ := hx
  simp only [Surroundings.world_step, Bench.answer]
  -- a commit is the only call that uses the host
  by_cases hcommit : c = .commit
  · subst hcommit
    have hready' : (b.counting n).Ready stateFile := ⟨hready.file, hready.root, hready.faults⟩
    obtain ⟨hresult, -⟩ := h.state.transcript_commit hready y
    obtain ⟨hresult', -⟩ := h'.state.transcript_commit hready' y'
    rw [hresult, hresult']
    refine ⟨rfl, hready.committed, ⟨n, rfl⟩, ?_⟩
    simpa only [h.history_commit hready, h'.history_commit hready'] using hjournals
  · obtain ⟨reply, after, hrun, hcounting, hafter, -⟩ := Bench.exists_run_answerCall hcommit b
    obtain ⟨n', hrun'⟩ := hcounting n
    rw [hrun, hrun']
    exact ⟨rfl, hafter stateFile hc hready, ⟨n', rfl⟩, hjournals⟩

/-- The clocks may differ. -/
theorem now (h : Host.KeepsBoth host stateFile historyFile contents)
    (h' : Host.KeepsBoth host' stateFile historyFile contents')
    (hx : Abreast stateFile historyFile contents contents' x x') :
    Abreast stateFile historyFile contents contents' (Surroundings.world host (.step .now) x).2
      (Surroundings.world host' (.step .now) x').2 := by
  obtain ⟨hready, hbench, j, j', hstore, hstore', hj, hj', hrecords⟩ := hx
  refine ⟨hready, hbench, j, j', hstore, hstore', ?_, ?_, hrecords⟩
  · exact (congrArg (Journal.opened historyFile) (h.history.spares x.2 rfl)).trans hj
  · exact (congrArg (Journal.opened historyFile) (h'.history.spares x'.2 rfl)).trans hj'

theorem latest (hx : Abreast stateFile historyFile contents contents' x x')
    (identity checksum : String) (mode : Mode) :
    let after := Surroundings.world host (.history (.latest identity checksum mode)) x
    let after' := Surroundings.world host' (.history (.latest identity checksum mode)) x'
    after.1.map (Option.map Record.undated) = after'.1.map (Option.map Record.undated) ∧
      Abreast stateFile historyFile contents contents' after.2 after'.2 := by
  have hx₀ := hx
  obtain ⟨⟨b, store⟩, y⟩ := x
  obtain ⟨⟨b', store'⟩, y'⟩ := x'
  obtain ⟨-, -, j, j', rfl, rfl, -, -, hrecords⟩ := hx
  simp only [Surroundings.world_latest]
  refine ⟨congrArg Except.ok ?_, hx₀⟩
  rw [← History.newest?_undated, hrecords, History.newest?_undated]

/-- Two worlds abreast look the same. -/
theorem undated_visit (hx : Abreast stateFile historyFile contents contents' x x')
    {result result' : Except RunError RunOutcome}
    (hresult : result.map RunOutcome.undated = result'.map RunOutcome.undated) :
    Visit.undated ⟨result, x.1.1.repository.state, x.1.2.records⟩ =
      Visit.undated ⟨result', x'.1.1.repository.state, x'.1.2.records⟩ := by
  obtain ⟨-, ⟨n, hbench⟩, j, j', hstore, hstore', -, -, hrecords⟩ := hx
  rw [Visit.undated, Visit.undated, hresult, hbench, hstore, hstore']
  simp only [History.Backend.records, hrecords]
  rfl

theorem record (h : Host.KeepsBoth host stateFile historyFile contents)
    (h' : Host.KeepsBoth host' stateFile historyFile contents')
    (hx : Abreast stateFile historyFile contents contents' x x') {r r' : Record}
    (hr : r.undated = r'.undated) (hwords : r.summary.InWords) :
    let after := Surroundings.world host (.history (.record r)) x
    let after' := Surroundings.world host' (.history (.record r')) x'
    after.1.map Record.undated = after'.1.map Record.undated ∧
      Abreast stateFile historyFile contents contents' after.2 after'.2 := by
  obtain ⟨⟨b, store⟩, y⟩ := x
  obtain ⟨⟨b', store'⟩, y'⟩ := x'
  obtain ⟨hready, hbench, j, j', rfl, rfl, hj, hj', hrecords⟩ := hx
  have hwords' : r'.summary.InWords := by
    have hsummary : r.summary = r'.summary := congrArg (·.summary) hr
    rwa [← hsummary]
  obtain ⟨hresult, hcurrent⟩ := h.history.transcript_append hj hwords
  obtain ⟨hresult', hcurrent'⟩ := h'.history.transcript_append hj' hwords'
  obtain ⟨hreply, hkept⟩ := Journal.undated_kept hrecords hr
  simp only [Surroundings.world_record, hresult, hresult']
  exact ⟨hreply, hready, hbench, _, _, rfl, rfl, hcurrent, hcurrent', hkept⟩

/-- Requests that are the same but for time stamps have replies that are the same but for time
stamps, and keep two worlds abreast. -/
theorem answer (h : Host.KeepsBoth host stateFile historyFile contents)
    (h' : Host.KeepsBoth host' stateFile historyFile contents')
    {r r' : RunRequest} {S : RunReply r → RunReply r' → Prop} (hr : RunRequest.Alike r r' S)
    (x : (Bench × History.Backend) × σ) (x' : (Bench × History.Backend) × σ')
    (hx : Abreast stateFile historyFile contents contents' x x') :
    let after := Surroundings.world host r x
    let after' := Surroundings.world host' r' x'
    S after.1 after'.1 ∧ Abreast stateFile historyFile contents contents' after.2 after'.2 := by
  cases hr with
  | call hc => exact hx.call h h' hc
  | cancelled =>
    obtain ⟨n, hbench⟩ := hx.bench
    refine ⟨?_, hx⟩
    show x.1.1.cancelled = x'.1.1.cancelled
    rw [hbench]
    rfl
  | now => exact ⟨trivial, hx.now h h'⟩
  | latest identity checksum mode => exact hx.latest identity checksum mode
  | record hundated hwords => exact hx.record h h' hundated hwords

end Abreast

end

/-! ## Between runs -/

/-- A request that changes nothing in the repository. Making changes durable is one. -/
def RunRequest.IsQuiet : RunRequest → Prop
  | step r => r.Calls (·.mutates = false)
  | history _ => True

theorem RunRequest.IsLookup.isQuiet {r : RunRequest} (h : r.IsLookup) : r.IsQuiet := by
  cases r with
  | step => exact h.elim
  | history => trivial

theorem RunRequest.IsStep.isQuiet {r : RunRequest}
    (h : r.IsStep (Request.Calls (·.mutates = false))) : r.IsQuiet := by
  cases r with
  | step => exact h
  | history => exact h.elim

/-- Keeping a record changes nothing in the repository. -/
theorem Plan.isQuiet_conclude (outcome : Except RunError (Report × Record ⊕ Record)) :
    (conclude outcome).Meets RunRequest.IsQuiet fun _ => True := by
  rcases outcome with e | (⟨report, record⟩ | previous)
  · trivial
  · exact ⟨trivial, fun _ => trivial⟩
  · trivial

/-- Making changes durable is one request, whatever the reply is. -/
theorem world_commitChanges {σ : Type} (w : RunWorld σ) (x : σ) :
    (commitChanges.transcript w x).world = (w (.step (.call .commit)) x).2 := by
  rw [commitChanges, transcript_request_bind]
  rcases (w (.step (.call .commit)) x).1 with (refusal | afterMs) | done <;> rfl

namespace Plan

section

variable {σ : Type} {w : RunWorld σ} {I J : σ → Prop} {plan : Plan}
  (hquiet : ∀ r : RunRequest, r.IsQuiet → ∀ x, I x → I (w r x).2)
  (hstep : ∀ r : RunRequest, r.IsStep (Request.Calls Call.Sound) → ∀ x, J x → J (w r x).2)
  (hbegin : ∀ x, I x → J x) (hcommit : ∀ x, J x → I (w (.step (.call .commit)) x).2)
  (hsound : ∀ a ∈ plan.actions, ∀ c, Change.Of a.action c → c.call.Sound)
include hquiet hstep hbegin hcommit hsound

/-- An application may leave `I` while it goes on, but keeps `J`, and its commit leads back. -/
theorem world_runToRecord (mode : Mode) (options : RunOptions) (repeated : Bool) {x : σ}
    (hx : I x) : I ((plan.runToRecord mode options repeated).transcript w x).world := by
  rw [runToRecord, transcript_bind]
  cases mode with
  | dryRun =>
    have hexecute : (plan.execute .dryRun).Meets (Request.Calls (·.mutates = false))
        fun _ => True :=
      plan.meets_execute (fun _ h => h) fun happly => by cases happly
    exact hquiet (.step .now) trivial _ (world_of_meets w (Running.meets_recording hexecute)
      (fun r hr => hquiet r hr.isQuiet) hx)
  | apply =>
    have hexecute : (plan.execute .apply).Meets (Request.Calls Call.Sound) fun _ => True :=
      plan.meets_execute (fun _ => Call.sound_of_not_mutates) fun _ => hsound
    have hexecuted := world_of_meets w (Running.meets_recording hexecute) hstep (hbegin x hx)
    simp only [transcript_bind, world_commitChanges]
    have hcommitted := hcommit _ hexecuted
    cases (commitChanges.transcript w _).result with
    | error refusal => exact hcommitted
    | ok _ => exact hquiet (.step .now) trivial _ hcommitted

/-- What holds between recorded runs: what quiet requests keep and a commit leads back to. -/
theorem world_launch (mode : Mode) (options : RunOptions) {x : σ} (hx : I x) :
    I ((plan.launch mode options).transcript w x).world := by
  have hprevious := world_of_meets w
    ((plan.meets_previous? mode options).mono (fun _ h => h.isQuiet) fun _ h => h) hquiet hx
  rw [launch_eq, transcript_bind]
  refine world_of_meets w (isQuiet_conclude _) hquiet ?_
  rw [approach, transcript_bind]
  rcases ((plan.previous? mode options).transcript w x).result with e | (_ | previous)
  · exact hprevious
  · have hlooked := hquiet (.history (.latest plan.script plan.checksum mode)) trivial _ hprevious
    simp only [proceed, History.recording_latest, transcript_request_bind]
    split
    · exact hlooked
    · exact world_runToRecord hquiet hstep hbegin hcommit hsound mode options _ hlooked
  · exact hprevious

end

end Plan

/-- What holds between recorded runs holds after one that compiles its plan. -/
theorem world_launch {σ : Type} {w : RunWorld σ} {I J : σ → Prop}
    (hquiet : ∀ r : RunRequest, r.IsQuiet → ∀ x, I x → I (w r x).2)
    (hstep : ∀ r : RunRequest, r.IsStep (Request.Calls Call.Sound) → ∀ x, J x → J (w r x).2)
    (hbegin : ∀ x, I x → J x) (hcommit : ∀ x, J x → I (w (.step (.call .commit)) x).2)
    (load : Loader) (cache : Cache) (identifier : String) (mode : Mode) (options : RunOptions)
    {x : σ} (hx : I x) :
    I ((launch load cache identifier mode options).1.transcript w x).world := by
  simp only [launch]
  split
  · exact hx
  · next plan cache' h =>
    have hplan : (compileScript load options.includeLimit identifier cache).1 = .ok plan := by
      rw [h]
    exact plan.world_launch hquiet hstep hbegin hcommit (Plan.sound_of_compileScript hplan) mode
      options hx

/-- A repository and a store that belong to two files. -/
structure Equipped (stateFile historyFile : String) (x : Bench × History.Backend) : Prop where
  ready : x.1.Ready stateFile
  journal : ∃ j, x.2 = .journal j ∧ j.file = historyFile

/-- The state is what is in the state file. -/
structure Saved {σ : Type} (stateFile historyFile : String)
    (contents : σ → String → Option ByteArray) (x : (Bench × History.Backend) × σ) : Prop where
  equipped : Equipped stateFile historyFile x.1
  opened : Repository.opened stateFile (contents x.2 stateFile) =
    .ok ⟨x.1.1.repository.state, 0, some stateFile⟩

section

variable {σ : Type} {host : (q : Host.Request) → StateM σ (Host.Reply q)}
  {stateFile historyFile : String} {contents : σ → String → Option ByteArray}
  (h : Host.KeepsBoth host stateFile historyFile contents)
include h

/-- A commit saves the state, whatever was changed before. -/
theorem Saved.commit {x : (Bench × History.Backend) × σ}
    (hx : Equipped stateFile historyFile x.1) :
    Saved stateFile historyFile contents
      (Surroundings.world host (.step (.call .commit)) x).2 := by
  obtain ⟨hready, hjournal⟩ := hx
  obtain ⟨hresult, hview⟩ := h.state.transcript_commit hready x.2
  simp only [Surroundings.world_step, Bench.answer, hresult]
  refine ⟨⟨hready.committed, hjournal⟩, ?_⟩
  rw [hview]
  exact Repository.opened_text stateFile hready.root

/-- A plan that goes on works on the same files. -/
theorem Equipped.step {r : RunRequest} (hr : r.IsStep (Request.Calls Call.Sound))
    (x : (Bench × History.Backend) × σ) (hx : Equipped stateFile historyFile x.1) :
    Equipped stateFile historyFile (Surroundings.world host r x).2.1 := by
  cases r with
  | history => exact hr.elim
  | step r =>
    cases r with
    | cancelled | now => exact hx
    | call c =>
      by_cases hcommit : c = .commit
      · subst hcommit
        exact (Saved.commit h hx).equipped
      · obtain ⟨reply, after, hrun, -, hafter, -⟩ := Bench.exists_run_answerCall hcommit x.1.1
        simp only [Surroundings.world_step, Bench.answer, hrun]
        exact ⟨hafter stateFile hr hx.ready, hx.journal⟩

/-- What changes nothing in the repository leaves the state saved. -/
theorem Saved.quiet {r : RunRequest} (hr : r.IsQuiet) (x : (Bench × History.Backend) × σ)
    (hx : Saved stateFile historyFile contents x) :
    Saved stateFile historyFile contents (Surroundings.world host r x).2 := by
  cases r with
  | step r =>
    cases r with
    | cancelled => exact hx
    | now =>
      refine ⟨hx.equipped, ?_⟩
      exact (congrArg (Repository.opened stateFile) (h.state.spares x.2 rfl)).trans hx.opened
    | call c =>
      by_cases hcommit : c = .commit
      · subst hcommit
        exact Saved.commit h hx.equipped
      · obtain ⟨reply, after, hrun, -, hafter, hsame⟩ :=
          Bench.exists_run_answerCall hcommit x.1.1
        simp only [Surroundings.world_step, Bench.answer, hrun]
        refine ⟨⟨hafter stateFile (Call.sound_of_not_mutates hr) hx.equipped.ready,
          hx.equipped.journal⟩, ?_⟩
        simp only [transcript_done, pure_eq, hsame hr]
        exact hx.opened
  | history q =>
    obtain ⟨⟨b, store⟩, y⟩ := x
    obtain ⟨⟨hready, j, rfl, rfl⟩, hopened⟩ := hx
    cases q with
    | latest | list => exact ⟨⟨hready, j, rfl, rfl⟩, hopened⟩
    | record r =>
      have happend := j.meets_append r
      have hfile := (transcript_of_meets host happend y).1.2
      simp only [Surroundings.world_record]
      refine ⟨⟨hready, _, rfl, hfile⟩, ?_⟩
      simp only
      rw [h.state.view_transcript_of_about h.ne.symm happend]
      exact hopened

end

/-! ## One run after the other -/

section

variable {σ σ' : Type} {host : (q : Host.Request) → StateM σ (Host.Reply q)}
  {host' : (q : Host.Request) → StateM σ' (Host.Reply q)} {stateFile historyFile : String}
  {contents : σ → String → Option ByteArray} {contents' : σ' → String → Option ByteArray}

private theorem Invocation.meets_opening {P : Host.Request → Prop} (hstate : P (.read stateFile))
    (hhistory : P (.read historyFile)) :
    (opening stateFile historyFile).Meets P fun _ => True := by
  refine meets_bind (Host.meets_load hstate (Repository.load_eq stateFile)) fun repository _ => ?_
  cases repository with
  | error e => trivial
  | ok repository =>
    refine meets_bind (Host.meets_load hhistory (Journal.load_eq historyFile)) fun journal _ => ?_
    cases journal <;> trivial

namespace Host.KeepsBoth

variable (h : Host.KeepsBoth host stateFile historyFile contents)
include h

/-- Opening both files gives what is in them. -/
theorem result_opening_iff {y : σ} {r : Repository} {j : Journal} :
    ((Invocation.opening stateFile historyFile).transcript host y).result = some (r, j) ↔
      Repository.opened stateFile (contents y stateFile) = .ok r ∧
        Journal.opened historyFile (contents y historyFile) = .ok j := by
  have hload : (Repository.load stateFile).Meets (·.changes historyFile = false) fun _ => True :=
    Host.meets_load (by rfl) (Repository.load_eq stateFile)
  have hspared := h.history.view_transcript hload y
  rw [Invocation.opening, transcript_bind]
  simp only [h.state.result_load]
  cases Repository.opened stateFile (contents y stateFile) with
  | error e => simp
  | ok repository =>
    simp only [transcript_bind, h.history.result_journal, hspared]
    cases Journal.opened historyFile (contents y historyFile) <;> simp

/-- It changes neither. -/
theorem contents_opening (y : σ) :
    let run := (Invocation.opening stateFile historyFile).transcript host y
    contents run.world stateFile = contents y stateFile ∧
      contents run.world historyFile = contents y historyFile :=
  ⟨h.state.view_transcript (Invocation.meets_opening rfl rfl) y,
    h.history.view_transcript (Invocation.meets_opening rfl rfl) y⟩

end Host.KeepsBoth

/-- What a run on a repository and a store comes to in their world. -/
theorem Invocation.transcript_perform (i : Invocation)
    (host : (q : Host.Request) → StateM σ (Host.Reply q)) (r : Repository)
    (store : History.Backend) (y : σ) :
    let run := (i.perform r store).transcript host y
    let passage := i.program.transcript (Surroundings.world host) ((i.bench r, store), y)
    let (bench, after) := passage.world.1
    run.result =
        (⟨passage.result, bench.repository.state, after.records⟩, bench.repository, after) ∧
      run.world = passage.world.2 := by
  obtain ⟨hresult, hworld⟩ := Surroundings.transcript_run host i.program (i.bench r) store y
  simp only [perform, transcript_bind, hresult, hworld]
  exact ⟨rfl, rfl⟩

/-- The files of a host are opened with the state of a repository and, time stamps aside, with the
records of a store, which is what is in its own history file on another host. -/
structure Reopens (stateFile historyFile : String) (contents : σ → String → Option ByteArray)
    (contents' : σ' → String → Option ByteArray) (y : σ) (r : Repository)
    (store : History.Backend) (y' : σ') : Prop where
  file : r.file = some stateFile
  state : Repository.opened stateFile (contents y stateFile) = .ok ⟨r.state, 0, some stateFile⟩
  journals : ∃ j j', store = .journal j' ∧
    Journal.opened historyFile (contents y historyFile) = .ok j ∧
    Journal.opened historyFile (contents' y' historyFile) = .ok j' ∧
    j.records.map Record.undated = j'.records.map Record.undated

namespace Reopens

variable {y : σ} {r : Repository} {store : History.Backend} {y' : σ'}

/-- Nothing else of the host matters. -/
theorem of_contents_eq {z : σ} (hy : Reopens stateFile historyFile contents contents' y r store y')
    (hstate : contents z stateFile = contents y stateFile)
    (hhistory : contents z historyFile = contents y historyFile) :
    Reopens stateFile historyFile contents contents' z r store y' := by
  obtain ⟨hfile, hopened, hjournals⟩ := hy
  refine ⟨hfile, ?_, ?_⟩
  · rwa [hstate]
  · rwa [hhistory]

/-- A run on what was opened goes on abreast of the other one. -/
theorem abreast (hy : Reopens stateFile historyFile contents contents' y r store y') {j : Journal}
    (hj : Journal.opened historyFile (contents y historyFile) = .ok j) {i : Invocation}
    (hfaults : Fault.SpareCommit i.circumstances.faults) :
    Abreast stateFile historyFile contents contents'
      ((i.bench ⟨r.state, 0, some stateFile⟩, .journal j), y) ((i.bench r, store), y') := by
  obtain ⟨hfile, hopened, j₀, j', rfl, hj₀, hj', hrecords⟩ := hy
  obtain rfl : j = j₀ := Except.ok.inj (hj.symm.trans hj₀)
  obtain ⟨s, hroot, hs⟩ := Repository.opened_eq_ok hopened
  obtain rfl : r.state = s := congrArg Repository.state hs
  refine ⟨⟨rfl, hroot, hfaults⟩, ⟨r.mutations, ?_⟩, j, j', rfl, rfl, hj, hj', hrecords⟩
  obtain ⟨state, mutations, file⟩ := r
  obtain rfl : file = some stateFile := hfile
  rfl

/-- What is saved can be opened. -/
theorem of_abreast {x : (Bench × History.Backend) × σ} {x' : (Bench × History.Backend) × σ'}
    (hsaved : Saved stateFile historyFile contents x)
    (hx : Abreast stateFile historyFile contents contents' x x') :
    Reopens stateFile historyFile contents contents' x.2 x'.1.1.repository x'.1.2 x'.2 := by
  obtain ⟨hready, ⟨n, hbench⟩, j, j', -, hstore', hj, hj', hrecords⟩ := hx
  rw [hbench]
  exact ⟨hready.file, hsaved.opened, j, j', hstore', hj, hj', hrecords⟩

/-- A run on what was opened shows the same as the other one, and the files can be opened again. -/
theorem perform (h : Host.KeepsBoth host stateFile historyFile contents)
    (h' : Host.KeepsBoth host' stateFile historyFile contents') {i : Invocation}
    (hlength : ∀ plan, (compileScript i.load i.options.includeLimit i.identifier i.cache).1 =
      .ok plan → plan.actions.length < wordBound)
    (hfaults : Fault.SpareCommit i.circumstances.faults)
    (hy : Reopens stateFile historyFile contents contents' y r store y') {j : Journal}
    (hj : Journal.opened historyFile (contents y historyFile) = .ok j) :
    let run := (i.perform ⟨r.state, 0, some stateFile⟩ (.journal j)).transcript host y
    let run' := (i.perform r store).transcript host' y'
    run.result.1.undated = run'.result.1.undated ∧
      Reopens stateFile historyFile contents contents' run.world run'.result.2.1
        run'.result.2.2 run'.world := by
  have habreast := hy.abreast hj hfaults
  have hequipped : Equipped stateFile historyFile
      (i.bench ⟨r.state, 0, some stateFile⟩, .journal j) :=
    ⟨habreast.ready, j, rfl, Journal.file_of_opened hj⟩
  have hsaved : Saved stateFile historyFile contents
      ((i.bench ⟨r.state, 0, some stateFile⟩, .journal j), y) := ⟨hequipped, hy.state⟩
  obtain ⟨hresult, hafter⟩ :=
    Alike.transcript (A := RunRequest.Alike) (Abreast.answer h h') (alike_launch hlength i.mode)
      habreast
  have hkept := world_launch (J := fun x => Equipped stateFile historyFile x.1)
    (fun _ => Saved.quiet h) (fun _ => Equipped.step h)
    (fun _ hx => hx.equipped) (fun _ hx => Saved.commit h hx) i.load i.cache i.identifier i.mode
    i.options hsaved
  obtain ⟨hrun, hworld⟩ := i.transcript_perform host ⟨r.state, 0, some stateFile⟩
    (.journal j) y
  obtain ⟨hrun', hworld'⟩ := i.transcript_perform host' r store y'
  simp only [hrun, hworld, hrun', hworld']
  exact ⟨hafter.undated_visit hresult, of_abreast hkept hafter⟩

end Reopens

namespace Invocation

/-- Runs on files that are opened for each of them show the same as runs on what stays open. -/
theorem undated_inTurn (h : Host.KeepsBoth host stateFile historyFile contents)
    (h' : Host.KeepsBoth host' stateFile historyFile contents') {invocations : List Invocation}
    (hlength : ∀ i ∈ invocations, ∀ plan,
      (compileScript i.load i.options.includeLimit i.identifier i.cache).1 = .ok plan →
        plan.actions.length < wordBound)
    (hfaults : ∀ i ∈ invocations, Fault.SpareCommit i.circumstances.faults) {y : σ}
    {r : Repository} {store : History.Backend} {y' : σ'}
    (hy : Reopens stateFile historyFile contents contents' y r store y') :
    ∃ visits, ((restarted stateFile historyFile invocations).transcript host y).result =
        some visits ∧
      visits.map Visit.undated =
        ((inTurn r store invocations).transcript host' y').result.map Visit.undated := by
  induction invocations generalizing y r store y' with
  | nil => exact ⟨[], rfl, rfl⟩
  | cons i rest ih =>
    obtain ⟨hlengthi, hlength⟩ := List.forall_mem_cons.1 hlength
    obtain ⟨hfaultsi, hfaults⟩ := List.forall_mem_cons.1 hfaults
    obtain ⟨j, j', -, hj, -, -⟩ := hy.journals
    have hopening := h.result_opening_iff.2 ⟨hy.state, hj⟩
    obtain ⟨hstate, hhistory⟩ := h.contents_opening y
    obtain ⟨hvisit, hy₁⟩ := (hy.of_contents_eq hstate hhistory).perform h h' hlengthi hfaultsi
      ((congrArg (Journal.opened historyFile) hhistory).trans hj)
    obtain ⟨visits, hvisits, hundated⟩ := ih hlength hfaults hy₁
    simp only [restarted, inTurn, transcript_bind, hopening, hvisits]
    exact ⟨_, rfl, by simpa using ⟨hvisit, hundated⟩⟩

/-- Restarts are invisible. Runs on a repository and a journal that are opened anew for each of them
show the same results, states and records, time stamps aside, as runs on a repository and a journal
that stay open, if the files can be opened at the beginning and everything succeeds that is asked
of them. -/
theorem undated_restarted (h : Host.KeepsBoth host stateFile historyFile contents)
    (h' : Host.KeepsBoth host' stateFile historyFile contents') {y : σ} {y' : σ'}
    (hstate : contents y stateFile = contents' y' stateFile)
    (hhistory : contents y historyFile = contents' y' historyFile)
    (hopens : ((opening stateFile historyFile).transcript host y).result.isSome)
    {invocations : List Invocation}
    (hlength : ∀ i ∈ invocations, ∀ plan,
      (compileScript i.load i.options.includeLimit i.identifier i.cache).1 = .ok plan →
        plan.actions.length < wordBound)
    (hfaults : ∀ i ∈ invocations, Fault.SpareCommit i.circumstances.faults) :
    ∃ visits visits',
      ((restarted stateFile historyFile invocations).transcript host y).result = some visits ∧
      ((keptOpen stateFile historyFile invocations).transcript host' y').result = some visits' ∧
      visits.map Visit.undated = visits'.map Visit.undated := by
  obtain ⟨⟨r, j⟩, hopening⟩ := Option.isSome_iff_exists.1 hopens
  obtain ⟨hr, hj⟩ := h.result_opening_iff.1 hopening
  have hopening' := h'.result_opening_iff.2 ⟨hstate ▸ hr, hhistory ▸ hj⟩
  obtain ⟨s, -, rfl⟩ := Repository.opened_eq_ok hr
  obtain ⟨-, hhistory'⟩ := h'.contents_opening y'
  have hy : Reopens stateFile historyFile contents contents' y ⟨s, 0, some stateFile⟩ (.journal j)
      ((opening stateFile historyFile).transcript host' y').world :=
    ⟨rfl, hr, j, j, rfl, hj, by rwa [hhistory', ← hhistory], rfl⟩
  obtain ⟨visits, hvisits, hundated⟩ := undated_inTurn h h' hlength hfaults hy
  simp only [keptOpen, transcript_bind, hopening', hvisits]
  exact ⟨visits, _, rfl, rfl, hundated⟩

end Invocation

end

namespace Invocation

/-- The run as a compiler meets it that remembers nothing. -/
def forgetting (i : Invocation) : Invocation :=
  { i with cache := .empty }

private theorem program_forgetting {i : Invocation} (hload : i.load.Settled)
    (hcache : i.cache.Faithful i.load) : i.forgetting.program = i.program := by
  have hcompile := compileScript_eq_of_faithful hload (Cache.faithful_empty i.load) hcache
    i.options.includeLimit i.identifier
  simp only [program, forgetting, Entitle.launch]
  generalize compileScript i.load i.options.includeLimit i.identifier .empty = fresh at hcompile ⊢
  generalize compileScript i.load i.options.includeLimit i.identifier i.cache = cached at hcompile ⊢
  obtain ⟨result, c⟩ := fresh
  obtain ⟨result', c'⟩ := cached
  obtain rfl : result = result' := hcompile
  cases result <;> rfl

/-- A restart also loses what the compiler remembers. That makes no difference either. -/
theorem restarted_forgetting (stateFile historyFile : String) {invocations : List Invocation}
    (h : ∀ i ∈ invocations, i.load.Settled ∧ i.cache.Faithful i.load) :
    restarted stateFile historyFile (invocations.map forgetting) =
      restarted stateFile historyFile invocations := by
  induction invocations with
  | nil => rfl
  | cons i rest ih =>
    obtain ⟨⟨hload, hcache⟩, hrest⟩ := List.forall_mem_cons.1 h
    have hperform : i.forgetting.perform = i.perform := by
      funext repository store
      rw [perform, perform, program_forgetting hload hcache]
      rfl
    rw [List.map_cons, restarted, restarted, hperform, ih hrest]

/-- A forecast, an application that is cancelled when its changes are made durable, the same
application once more, and one of an edited script in which a call is refused. -/
def growing : List Invocation :=
  let first := (Shelf.ofList [("main", "create user \"u\";")]).load
  let second := (Shelf.ofList [("main", "create user \"u\"; create group \"g\";")]).load
  let options : RunOptions := ⟨16, "p", false⟩
  let refused : Refusal := .rejected "busy"
  [⟨first, .empty, "main", .dryRun, options, ⟨1000, false, []⟩⟩,
    ⟨first, .empty, "main", .apply, options, ⟨1000, false, [⟨"commit", none, 0, .cancel⟩]⟩⟩,
    ⟨first, .empty, "main", .apply, options, ⟨1000, false, []⟩⟩,
    ⟨second, .empty, "main", .apply, options,
      ⟨1000, false, [⟨"ensure_principal", some "g", 0, .refuse refused⟩]⟩⟩]

/-- Runs with restarts and runs without them, on hosts without files whose clocks differ. -/
theorem undated_restarted_growing :
    let y : Cabinet := ⟨fun _ => none, ⟨0, 0⟩⟩
    let y' : Cabinet := ⟨fun _ => none, ⟨1000000000, 5⟩⟩
    ((opening "state" "history").transcript Cabinet.answer y).result.isSome ∧
      (∀ i ∈ growing, Fault.SpareCommit i.circumstances.faults) ∧
      ∃ visits visits',
        ((restarted "state" "history" growing).transcript Cabinet.answer y).result = some visits ∧
        ((keptOpen "state" "history" growing).transcript Cabinet.answer y').result =
          some visits' ∧
        visits.map Visit.undated = visits'.map Visit.undated := by
  intro y y'
  have hcabinet : Host.KeepsBoth Cabinet.answer "state" "history" Cabinet.contents :=
    ⟨by decide, Cabinet.keeps "state", Cabinet.keeps "history"⟩
  have hopens : ((opening "state" "history").transcript Cabinet.answer y).result.isSome := rfl
  have hshort : ∀ i ∈ growing,
      (compileScript i.load i.options.includeLimit i.identifier i.cache).1.toOption.all
        (·.actions.length < wordBound) = true := by
    decide +kernel
  have hfaults : ∀ i ∈ growing, Fault.SpareCommit i.circumstances.faults := by decide +kernel
  have hsame : ∀ file, y.contents file = y'.contents file := fun _ => rfl
  refine ⟨hopens, hfaults, undated_restarted hcabinet hcabinet (hsame "state") (hsame "history")
    hopens ?_ hfaults⟩
  intro i hi plan hplan
  have hplan' := hshort i hi
  rw [hplan] at hplan'
  exact of_decide_eq_true hplan'

end Invocation

end Entitle
