import Entitle.Proofs.Ledgers
import Entitle.Proofs.Reopening
import Entitle.Proofs.Sessions

/-!
# Audited runs

A run that changed a repository should be on record. A store refuses a record only if it is a
duplicate or cannot be written, and a run marks its record as a rerun if it finds one with its key
before. So when all that is asked of the history file succeeds, the record of every run that is
done is kept, however many runs were there before and however they ended.

## Main definitions

* `History.Backend.Ready`: the store fits to its file.
* `History.Backend.beside`: any repository beside a store.

## Main statements

* `RunWorld.Keeps.executed`: what record a run gives to the store.
* `History.Backend.Ready.record`: a store that is ready refuses duplicates only.
* `recorded_of_executed`: no run that is done loses its record.
-/
namespace Entitle

open Dialogue

/-! ## The record of a run -/

/-- A run that is done has given a record of its plan to the store. It is marked as a rerun exactly
if it was asked for as one or there is a record with its key. -/
theorem RunWorld.Keeps.executed {σ : Type} {w : RunWorld σ} {view : σ → List Record}
    (hw : w.Keeps view) {plan : Plan} {mode : Mode} {options : RunOptions} {x : σ}
    {report : Report} {audit : Except StoreError Record}
    (h : ((plan.launch mode options).transcript w x).result = .ok (.executed report audit)) :
    let z := ((plan.approach mode options).transcript w x).world
    ∃ r, ((w (.history (.record r)) z).1 = audit ∧
        (w (.history (.record r)) z).2 = ((plan.launch mode options).transcript w x).world) ∧
      (r.identity = plan.script ∧ r.checksum = plan.checksum ∧ r.mode = mode) ∧
      (r.rerun = true ↔ options.rerun = true ∨ ∃ r' ∈ view x, r'.sameKey r = true) := by
  rw [plan.launch_eq, transcript_bind] at h ⊢
  rcases happroach : ((plan.approach mode options).transcript w x).result with
    e | (⟨report', record⟩ | previous)
  · simp [happroach, Plan.conclude] at h
  · obtain ⟨found, y, recordedAt, hfound, houtcome⟩ | ⟨previous, hprevious, -⟩ :=
      plan.result_approach w happroach
    · cases houtcome
      have hnewest := hw.newest?_eq hfound
      rw [hw.view_transcript ((plan.meets_previous? mode options).mono
        (fun _ h => h.not_isRecord) fun _ h => h)] at hnewest
      obtain ⟨hscript, hchecksum, hmode⟩ := plan.report_execute w.steps mode y
      simp only [happroach, Plan.conclude, History.recording_record, transcript_request_bind,
        pure_eq, transcript_done, Except.ok.injEq, RunOutcome.executed.injEq] at h ⊢
      refine ⟨_, ⟨h.2, rfl⟩, ⟨hscript, hchecksum, hmode⟩, ?_⟩
      rw [← History.isSome_newest?_iff]
      simp only [Report.toRecord, hscript, hchecksum, hmode, ← hnewest, Bool.or_eq_true]
    · cases hprevious
  · simp [happroach, Plan.conclude] at h

/-! ## Stores beside repositories -/

namespace History.Backend

/-- The store is one in memory, or what opening the file would give. -/
def Opened (file : String) (c : Option ByteArray) : Backend → Prop
  | memory _ => True
  | journal j => Journal.opened file c = .ok j

/-- The store is one in memory, or fits to the file: an unfinished line begins within it. -/
def Ready (file : String) (c : Option ByteArray) : Backend → Prop
  | memory _ => True
  | journal j => j.file = file ∧ Journal.Fits c j

theorem Opened.ready {file : String} {c : Option ByteArray} {b : Backend} (h : b.Opened file c) :
    b.Ready file c := by
  cases b with
  | memory records => trivial
  | journal j =>
    obtain rfl := Journal.file_of_opened h
    obtain ⟨text, hcontent, htext⟩ := Journal.Current.text h
    exact ⟨rfl, Journal.fits_of_ofText hcontent htext⟩

section

variable {η : Type} {host : (q : Host.Request) → StateM η (Host.Reply q)} {file : String}
  {view : η → Option ByteArray} (hkeeps : Host.Keeps host file view)
include hkeeps

/-- A store that is ready refuses duplicates only, and stays ready. -/
theorem Ready.record {b : Backend} {y : η} (h : b.Ready file (view y)) (r : Record) :
    let after := world host (.record r) (b, y)
    (duplicate? b.records r = none → after.1 = .ok { r with id := b.nextId }) ∧
      after.2.1.Ready file (view after.2.2) := by
  cases b with
  | memory records =>
    refine ⟨fun hnew => ?_, trivial⟩
    have hmemory : (world host (.record r) (memory records, y)).1 =
        (Memory.answer (.record r) records).1 := rfl
    have hnone : duplicate? records r = none := hnew
    simp only [hmemory, Memory.answer, Memory.append, hnone]
    rfl
  | journal j =>
    obtain ⟨rfl, hfits⟩ := h
    rw [world_record_journal]
    cases hnew : duplicate? j.records r with
    | some e =>
      rw [Journal.append, hnew]
      exact ⟨fun h => by simp [records, hnew] at h, rfl, hfits⟩
    | none =>
      obtain ⟨hresult, -⟩ := hkeeps.transcript_of_ends
        (Journal.ends_append_of_fits id hfits hnew (Journal.ends_appendLine_ok _ _)) rfl
      simp only [hresult]
      exact ⟨fun _ => rfl, rfl, Journal.fits_of_tornAt rfl⟩

/-- Whatever a store that is ready is asked, it stays ready. -/
theorem Ready.world {b : Backend} {y : η} (h : b.Ready file (view y)) (q : Request) :
    let after := world host q (b, y)
    after.2.1.Ready file (view after.2.2) := by
  cases q with
  | record r => exact (h.record hkeeps r).2
  | latest | list => cases b <;> exact h

end

section

variable {ρ η : Type} (host : (q : Host.Request) → StateM η (Host.Reply q))
  (steps : World (ρ × η))

/-- A repository and a store without defects as a world, on a host that both may use. -/
def beside : RunWorld ((ρ × Backend) × η)
  | .step r => fun x =>
    let after := steps r (x.1.1, x.2)
    (after.1, (after.2.1, x.1.2), after.2.2)
  | .history q => fun x =>
    let after := world host q (x.1.2, x.2)
    (after.1, (x.1.1, after.2.1), after.2.2)

/-- Whatever the repository is, the store keeps its promises. -/
theorem keeps_beside : (beside host steps).Keeps (·.1.2.records) where
  step _ _ := rfl
  history q x := (transcript_of_meets host (x.1.2.meets_answer q) x.2).1

variable {host steps} {file : String} {view : η → Option ByteArray}

/-- A store that is ready stays so, if what the repository is asked leaves its file alone. -/
theorem Ready.beside (hkeeps : Host.Keeps host file view)
    (hspares : ∀ r x, view (steps r x).2.2 = view x.2) (r : RunRequest) {x : (ρ × Backend) × η}
    (h : x.1.2.Ready file (view x.2)) :
    (beside host steps r x).2.1.2.Ready file (view (beside host steps r x).2.2) := by
  cases r with
  | step r =>
    simp only [Backend.beside, hspares]
    exact h
  | history q => exact h.world hkeeps q

/-- If the store is ready, the record of a run that is done comes after the others. -/
theorem Ready.executed (hkeeps : Host.Keeps host file view)
    (hspares : ∀ r x, view (steps r x).2.2 = view x.2) {x : (ρ × Backend) × η}
    (h : x.1.2.Ready file (view x.2)) {plan : Plan} {mode : Mode} {options : RunOptions}
    {report : Report} {audit : Except StoreError Record} :
    let run := (plan.launch mode options).transcript (Backend.beside host steps) x
    run.result = .ok (.executed report audit) →
    ∃ stored, audit = .ok stored ∧ run.world.1.2.records = x.1.2.records ++ [stored] ∧
      (stored.identity = plan.script ∧ stored.checksum = plan.checksum ∧ stored.mode = mode) ∧
      (stored.rerun = true ↔
        options.rerun = true ∨ ∃ r ∈ x.1.2.records, r.sameKey stored = true) := by
  intro run hresult
  have hw := keeps_beside host steps
  obtain ⟨r, ⟨hreply, hworld⟩, hkey, hrerun⟩ := hw.executed hresult
  -- until the record is kept, neither the records nor the file change
  have hview := hw.view_approach plan mode options x
  have hready := world_of_meets (Backend.beside host steps)
    (I := fun x => x.1.2.Ready file (view x.2)) (meets_true (plan.approach mode options))
    (fun r _ _ => Ready.beside hkeeps hspares r) h
  generalize ((plan.approach mode options).transcript (Backend.beside host steps) x).world = z at *
  have hnew : duplicate? z.1.2.records r = none := by
    rw [hview]
    exact duplicate?_eq_none_iff.2 fun r' hr' hsame => hrerun.2 (.inr ⟨r', hr', hsame⟩)
  have hstored := (hready.record hkeeps r).1 hnew
  obtain ⟨-, hafter⟩ := hw.view_of_kept (x := z) hstored
  exact ⟨_, hreply.symm.trans hstored, by rw [← hworld, hafter, hview], hkey, hrerun⟩

end

end History.Backend

/-! ## Sessions -/

/-- What requests and other events preserve, every run of a session meets. -/
theorem Stage.invariant_launches {σ : Type} {w : RunWorld σ} {I : σ → Prop}
    (hw : ∀ r x, I x → I (w r x).2) {turns : List (Turn σ)}
    (hkept : ∀ change, .meanwhile change ∈ turns → ∀ x, I x → I (change x)) {s : Stage σ}
    (hs : I s.world) : ∀ l ∈ s.launches w turns, I l.stage.world := by
  induction turns generalizing s with
  | nil => simp [Stage.launches]
  | cons turn rest ih =>
    have hrest : ∀ change, .meanwhile change ∈ rest → ∀ x, I x → I (change x) :=
      fun change hmem => hkept change (List.mem_cons_of_mem _ hmem)
    cases turn with
    | edit shelf => exact ih hrest hs
    | meanwhile change => exact ih hrest (hkept change List.mem_cons_self _ hs)
    | launch identifier mode options =>
      refine List.forall_mem_cons.2 ⟨hs, ih hrest ?_⟩
      exact world_of_meets w (meets_true _) (fun r _ => hw r) hs

section

open History Backend

variable {ρ η : Type} {host : (q : Host.Request) → StateM η (Host.Reply q)}
  {steps : World (ρ × η)} {file : String} {view : η → Option ByteArray}

/-- No run that is done loses its record. A session begins with a store in memory, or with a journal
that is what opening its file would give, on a host that can be trusted with the file. Whatever the
repository replies, whoever cancels, and however the scripts are edited, the record of every run
that is done is kept after the others, under the key of its plan. It is marked as a rerun exactly if
the run was asked for as one or there was a record with its key. -/
theorem recorded_of_executed (hkeeps : Host.Keeps host file view)
    (hspares : ∀ r x, view (steps r x).2.2 = view x.2) {s : Stage ((ρ × Backend) × η)}
    (hopened : s.world.1.2.Opened file (view s.world.2)) {turns : List (Turn ((ρ × Backend) × η))}
    (hkept : ∀ change, .meanwhile change ∈ turns →
      ∀ x, (change x).1.2 = x.1.2 ∧ view (change x).2 = view x.2)
    {l : Launch ((ρ × Backend) × η)} (hl : l ∈ s.launches (beside host steps) turns)
    {report : Report} {audit : Except StoreError Record}
    (hresult : (l.transcript (beside host steps)).result = .ok (.executed report audit)) :
    let before := l.stage.world.1.2.records
    ∃ plan stored, l.compiled.1 = .ok plan ∧ audit = .ok stored ∧
      (l.after (beside host steps)).world.1.2.records = before ++ [stored] ∧
      (stored.identity = plan.script ∧ stored.checksum = plan.checksum ∧ stored.mode = l.mode) ∧
      (stored.rerun = true ↔
        l.options.rerun = true ∨ ∃ r ∈ before, r.sameKey stored = true) := by
  intro before
  have hready := Stage.invariant_launches
    (I := fun x : (ρ × Backend) × η => x.1.2.Ready file (view x.2))
    (fun r x => Ready.beside hkeeps hspares r) (fun change hchange x hx => by
      obtain ⟨hstore, hview⟩ := hkept change hchange x
      rwa [hstore, hview]) hopened.ready l hl
  cases hcompiled : l.compiled.1 with
  | error e => simp [Launch.transcript_of_not_compiled hcompiled] at hresult
  | ok plan =>
    have hlaunch := Launch.transcript_of_compiled (w := beside host steps) hcompiled
    rw [hlaunch] at hresult
    rw [Launch.after, hlaunch]
    obtain ⟨stored, haudit, hrecords⟩ := hready.executed hkeeps hspares hresult
    exact ⟨plan, stored, rfl, haudit, hrecords⟩

end

/-- The repository with planned faults beside a cabinet that it does not use. -/
def Bench.worldBeside : World (Bench × Cabinet) := fun r x =>
  let after := world Host.bare r x.1
  (after.1, after.2, x.2)

/-- A session with a history file that ends with an unfinished line. -/
def Stage.torn : Stage ((Bench × History.Backend) × Cabinet) :=
  ⟨.ofList [("main", "create user \"u\";\n")], .empty,
    ((.ofRepository (.ofState .initial) 1000,
        .journal ⟨"h", [Journal.idleRun 1 "a"], some (Journal.idleRun 1 "a").line.utf8ByteSize⟩),
      ⟨fun _ => some Journal.idleRunTorn.toUTF8, ⟨0, 0⟩⟩)⟩

/-- Two forecasts of a script. -/
def Turn.forecasts : List (Turn ((Bench × History.Backend) × Cabinet)) :=
  [.launch "main" .dryRun ⟨16, "admin", false⟩, .launch "main" .dryRun ⟨16, "admin", false⟩]

/-- Is the record of the run a rerun, if the run is on record? -/
def Launch.rerun? {σ : Type} (w : RunWorld σ) (l : Launch σ) : Option Bool :=
  match (l.transcript w).result with
  | .ok (.executed _ (.ok stored)) => some stored.rerun
  | _ => none

private theorem Launch.rerun?_eq_some_iff {σ : Type} {w : RunWorld σ} {l : Launch σ}
    {rerun : Bool} :
    l.rerun? w = some rerun ↔ ∃ report stored,
      (l.transcript w).result = .ok (.executed report (.ok stored)) ∧ stored.rerun = rerun := by
  rw [rerun?]
  split <;> simp_all

/-- The second forecast is on record as a rerun. -/
theorem recorded_of_executed_torn :
    let w := History.Backend.beside Cabinet.answer Bench.worldBeside
    Stage.torn.world.1.2.Opened "h" (Stage.torn.world.2.contents "h") ∧
      ∃ first second report stored, Stage.torn.launches w Turn.forecasts = [first, second] ∧
        (second.transcript w).result = .ok (.executed report (.ok stored)) ∧
        (second.after w).world.1.2.records = second.stage.world.1.2.records ++ [stored] ∧
        stored.rerun = true := by
  intro w
  have hopened : Stage.torn.world.1.2.Opened "h" (Stage.torn.world.2.contents "h") :=
    (Journal.opened_text _ _).trans Journal.ofText_idleRunTorn
  have hreruns : (Stage.torn.launches w Turn.forecasts).map (Launch.rerun? w) =
      [some false, some true] := by
    decide +kernel
  obtain ⟨first, second, hlaunches⟩ : ∃ first second,
      Stage.torn.launches w Turn.forecasts = [first, second] := ⟨_, _, rfl⟩
  rw [hlaunches] at hreruns
  have hsecond : second.rerun? w = some true := (List.cons.inj (List.cons.inj hreruns).2).1
  obtain ⟨report, stored, hresult, hrerun⟩ := Launch.rerun?_eq_some_iff.1 hsecond
  have hmem : second ∈ Stage.torn.launches w Turn.forecasts := by simp [hlaunches]
  have hkept : ∀ change, .meanwhile change ∈ Turn.forecasts → ∀ x : (Bench × _) × Cabinet,
      (change x).1.2 = x.1.2 ∧ (change x).2.contents "h" = x.2.contents "h" := by
    simp [Turn.forecasts]
  obtain ⟨_, stored', -, haudit, hrecords, -⟩ := recorded_of_executed (Cabinet.keeps "h")
    (fun _ _ => rfl) hopened hkept hmem hresult
  cases haudit
  exact ⟨hopened, first, second, report, stored, hlaunches, hresult, hrecords, hrerun⟩

end Entitle
