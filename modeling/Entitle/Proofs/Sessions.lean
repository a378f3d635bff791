import Entitle.Proofs.Caching
import Entitle.Proofs.Keeping

/-!
# Sessions

A session is a sequence of recorded runs with one cache, one repository and one store. Between the
runs texts are edited, and something may happen to the repository. What a run finds on record was
put there by an earlier run of the session, and the checksum in the record tells which plan that
was. So a run is found superfluous only after an application of the very same plan that went
through.

## Main definitions

* `Stage`, `Turn`: what a session has, and what happens in it.
* `Launch`: a run of a session with the stage that it meets.
* `Stage.launches`: the runs of a session.
* `Launch.Recorded`: what a record says of the run that it is of.
* `Stage.Traced`: the cache and the records of a stage come from given runs.

## Main statements

* `Stage.Traced.launches`: the cache and the records that a run meets come from the runs before it.
* `Session.transcript_launch`: a run of a session of the program is a launch in such a world.
* `applied_of_unchanged`: if a run is found superfluous, then its plan was applied before.
-/
namespace Entitle

open Dialogue

/-! ## What happens in a session -/

/-- What a session has between its runs. -/
structure Stage (σ : Type) where
  shelf : Shelf
  cache : Cache
  world : σ

/-- What happens in a session. -/
inductive Turn (σ : Type) where
  /-- The texts are replaced by others. -/
  | edit (shelf : Shelf)
  /-- Something happens to the world. -/
  | meanwhile (change : σ → σ)
  | launch (identifier : String) (mode : Mode) (options : RunOptions)

/-- A recorded run, and the stage that it meets. -/
structure Launch (σ : Type) where
  stage : Stage σ
  identifier : String
  mode : Mode
  options : RunOptions

namespace Launch

variable {σ : Type} (l : Launch σ)

/-- The plan of the run, if there is one, and the cache afterwards. -/
def compiled : Except CompileError Plan × Cache :=
  compileScript l.stage.shelf.load l.options.includeLimit l.identifier l.stage.cache

/-- How the run goes in a world. -/
def transcript (w : RunWorld σ) :
    Transcript σ RunRequest RunReply (Except RunError RunOutcome) :=
  (launch l.stage.shelf.load l.stage.cache l.identifier l.mode l.options).1.transcript w
    l.stage.world

/-- The stage after the run. -/
def after (w : RunWorld σ) : Stage σ :=
  { l.stage with cache := l.compiled.2, world := (l.transcript w).world }

/-- The texts that a run may digest: those that it can load, and the bundle of its plan. -/
def messages : List (List UInt8) :=
  l.stage.shelf.normalForms ++
    match l.compiled.1 with
    | .error _ => []
    | .ok plan => [(String.join (plan.sources.map ScriptSource.frame)).toUTF8.toList]

end Launch

/-- The runs of a session, in their order. -/
def Stage.launches {σ : Type} (w : RunWorld σ) : Stage σ → List (Turn σ) → List (Launch σ)
  | _, [] => []
  | s, .edit shelf :: rest => launches w { s with shelf } rest
  | s, .meanwhile change :: rest => launches w { s with world := change s.world } rest
  | s, .launch identifier mode options :: rest =>
    let l : Launch σ := ⟨s, identifier, mode, options⟩
    l :: launches w (l.after w) rest

/-! ## What a run leaves behind -/

section

variable {σ : Type} {w : RunWorld σ} {view : σ → List Record}

/-- The run is done, and the record is of it. -/
def Launch.Recorded (w : RunWorld σ) (l : Launch σ) (r : Record) : Prop :=
  ∃ plan y, let report := ((plan.execute l.mode).through w.steps y).result
    l.compiled.1 = .ok plan ∧ (l.transcript w).result = .ok (.executed report (.ok r)) ∧
      r.identity = report.script ∧ r.checksum = report.checksum ∧ r.mode = report.mode ∧
      r.summary = report.summary

theorem Launch.transcript_of_compiled {l : Launch σ} {plan : Plan} (h : l.compiled.1 = .ok plan) :
    l.transcript w = (plan.launch l.mode l.options).transcript w l.stage.world := by
  rw [transcript, launch]
  split
  · next e _ hcompile => rw [compiled, hcompile] at h; cases h
  · next plan' _ hcompile =>
    rw [compiled, hcompile] at h
    cases h
    rfl

/-- Without a plan nothing is asked. -/
theorem Launch.transcript_of_not_compiled {l : Launch σ} {e : CompileError}
    (h : l.compiled.1 = .error e) : l.transcript w = ⟨.error (.compile e), [], l.stage.world⟩ := by
  rw [transcript, launch]
  split
  · next e _ hcompile =>
    rw [compiled, hcompile] at h
    cases h
    rfl
  · next plan' _ hcompile => rw [compiled, hcompile] at h; cases h

/-- A run leaves the records alone, or adds a record of itself. -/
theorem Launch.records_after (hw : w.Keeps view) (l : Launch σ) :
    view (l.after w).world = view l.stage.world ∨
      ∃ r, l.Recorded w r ∧ view (l.after w).world = view l.stage.world ++ [r] := by
  simp only [after]
  cases hcompiled : l.compiled.1 with
  | error e => exact .inl (by rw [transcript_of_not_compiled hcompiled])
  | ok plan =>
    have htranscript := transcript_of_compiled (w := w) hcompiled
    obtain hview | ⟨y, r, hresult, hview, hkey⟩ :=
      hw.records_launch plan l.mode l.options l.stage.world
    · exact .inl (by rw [htranscript, hview])
    · refine .inr ⟨r, ⟨plan, y, hcompiled, ?_, hkey⟩, ?_⟩
      · rw [htranscript, hresult]
      · rw [htranscript, hview]

/-! ## Sessions on a repository and a store -/

/-- What a run of a session meets. -/
def Session.stage {η : Type} (s : Session) (c : Circumstances) (y : η) :
    Stage ((Bench × History.Backend) × η) :=
  ⟨s.shelf, s.cache, (((s.surroundings c).bench, s.store), y)⟩

/-- A run of a session without defects goes as it does in the world of its repository and its
store. -/
theorem Session.transcript_launch {η : Type} (host : (q : Host.Request) → StateM η (Host.Reply q))
    {s : Session} (hs : s.defect = .none) (identifier : String) (mode : Mode)
    (options : RunOptions) (c : Circumstances) (y : η) :
    let w := Surroundings.world host
    let l : Launch ((Bench × History.Backend) × η) := ⟨s.stage c y, identifier, mode, options⟩
    let run := (s.launch identifier mode options c).transcript host y
    run.result = ((l.transcript w).result, (l.after w).world.1.1.calls,
        { s with
          cache := (l.after w).cache
          repository := (l.after w).world.1.1.repository
          store := (l.after w).world.1.2 }) ∧
      run.world = (l.after w).world.2 := by
  intro w l run
  have hcache : (Entitle.launch s.shelf.load s.cache identifier mode options).2 =
      l.compiled.2 := by
    rw [Entitle.launch]
    split
    · next h => exact (congrArg Prod.snd h).symm
    · next h => exact (congrArg Prod.snd h).symm
  have hsurroundings : s.surroundings c = ⟨(s.surroundings c).bench, s.store, .none⟩ := by
    rw [surroundings, hs]
  have hrun := Surroundings.transcript_run host
    (Entitle.launch s.shelf.load s.cache identifier mode options).1 (s.surroundings c).bench s.store
    y
  rw [← hsurroundings] at hrun
  have hlaunch : s.launch identifier mode options c =
      (s.surroundings c).run (Entitle.launch s.shelf.load s.cache identifier mode options).1 >>=
        fun after => pure (after.1, after.2.bench.calls,
          { s with
            cache := (Entitle.launch s.shelf.load s.cache identifier mode options).2
            repository := after.2.bench.repository
            store := after.2.store }) := rfl
  simp only [run, hlaunch, transcript_bind, pure_eq, transcript_done, hrun.1, hrun.2, hcache]
  exact ⟨rfl, rfl⟩

/-! ## Where everything comes from -/

/-- The cache and the records of a stage come from runs that were done, and so did the caches that
those runs met. -/
structure Stage.Traced (w : RunWorld σ) (view : σ → List Record) (done : List (Launch σ))
    (s : Stage σ) : Prop where
  cache : s.cache.From (done.map (·.stage.shelf))
  caches : ∀ l ∈ done, l.stage.cache.From (done.map (·.stage.shelf))
  records : ∀ r ∈ view s.world, ∃ l ∈ done, l.Recorded w r

namespace Stage.Traced

variable {done : List (Launch σ)} {s : Stage σ}

/-- At the beginning there is nothing that could come from anywhere. -/
theorem start (hcache : s.cache = .empty) (hrecords : view s.world = []) :
    s.Traced w view [] where
  cache := hcache ▸ Cache.from_empty _
  caches := by simp
  records := by simp [hrecords]

/-- One more run adds the scripts that it checks, and at most its record. -/
theorem after (hw : w.Keeps view) {l : Launch σ} (h : l.stage.Traced w view done) :
    (l.after w).Traced w view (done ++ [l]) := by
  have hsub : done.map (·.stage.shelf) ⊆ (done ++ [l]).map (·.stage.shelf) :=
    List.map_subset _ (List.subset_append_left _ _)
  refine ⟨?_, fun l' hl' => ?_, fun r hr => ?_⟩
  · have hmem : l.stage.shelf ∈ (done ++ [l]).map (·.stage.shelf) := by simp
    exact stable_compileScript (Cache.stable_from hmem) (h.cache.mono hsub)
  · obtain hl' | hl' := List.mem_append.1 hl'
    · exact (h.caches l' hl').mono hsub
    · rw [List.mem_singleton.1 hl']
      exact h.cache.mono hsub
  · have hold : r ∈ view l.stage.world → ∃ l' ∈ done ++ [l], l'.Recorded w r := by
      intro hr
      obtain ⟨l', hl', hrecorded⟩ := h.records r hr
      exact ⟨l', List.mem_append_left _ hl', hrecorded⟩
    obtain hview | ⟨r', hrecorded, hview⟩ := l.records_after hw
    · exact hold (hview ▸ hr)
    · rw [hview] at hr
      obtain hr | hr := List.mem_append.1 hr
      · exact hold hr
      · rw [List.mem_singleton.1 hr]
        exact ⟨l, List.mem_append_right _ (List.mem_singleton_self l), hrecorded⟩

/-- The cache and the records that a run meets come from the runs before it. -/
theorem launches (hw : w.Keeps view) {turns : List (Turn σ)}
    (hkept : ∀ change, .meanwhile change ∈ turns → ∀ x, view (change x) = view x)
    (h : s.Traced w view done) {before later : List (Launch σ)} {l : Launch σ}
    (hl : s.launches w turns = before ++ l :: later) :
    l.stage.Traced w view (done ++ before) := by
  induction turns generalizing s done before with
  | nil => simp [Stage.launches] at hl
  | cons turn rest ih =>
    have hrest : ∀ change, .meanwhile change ∈ rest → ∀ x, view (change x) = view x :=
      fun change hmem => hkept change (List.mem_cons_of_mem _ hmem)
    cases turn with
    | edit shelf =>
      have hedited : { s with shelf }.Traced w view done := ⟨h.cache, h.caches, h.records⟩
      rw [Stage.launches] at hl
      exact ih hrest hedited hl
    | meanwhile change =>
      have hchanged : { s with world := change s.world }.Traced w view done := by
        refine ⟨h.cache, h.caches, ?_⟩
        rw [hkept change (List.mem_cons_self ..) s.world]
        exact h.records
      rw [Stage.launches] at hl
      exact ih hrest hchanged hl
    | launch identifier mode options =>
      rw [Stage.launches] at hl
      cases before with
      | nil =>
        obtain rfl := (List.cons.inj hl).1
        simpa using h
      | cons first before =>
        obtain ⟨rfl, hmore⟩ := List.cons.inj hl
        simpa using ih hrest (h.after hw) hmore

end Stage.Traced

/-- What two runs may digest while they make their plans, if all digests are apart, is apart. -/
theorem Launch.apart_digested {ls : List (Launch σ)}
    (hapart : Apart (ls.flatMap Launch.messages)) {l l' : Launch σ} (hl : l ∈ ls) (hl' : l' ∈ ls)
    {plan plan' : Plan} (h : l.compiled.1 = .ok plan) (h' : l'.compiled.1 = .ok plan') :
    Apart (l.stage.shelf.digested plan.sources ++ l'.stage.shelf.digested plan'.sources) := by
  refine hapart.mono fun message hmessage => ?_
  have hdigested : ∀ {l : Launch σ} {plan : Plan}, l ∈ ls → l.compiled.1 = .ok plan →
      message ∈ l.stage.shelf.digested plan.sources → message ∈ ls.flatMap Launch.messages := by
    intro l plan hl h hmessage
    refine List.mem_flatMap.2 ⟨l, hl, ?_⟩
    rw [messages, h]
    exact Shelf.digested_subset _ _ hmessage
  obtain hmessage | hmessage := List.mem_append.1 hmessage
  · exact hdigested hl h hmessage
  · exact hdigested hl' h' hmessage

/-- A run has a faithful cache if the cache comes from runs whose digests are all apart. -/
theorem Launch.faithful {ls : List (Launch σ)} (hapart : Apart (ls.flatMap Launch.messages))
    {l : Launch σ} (hl : l ∈ ls) {done : List (Launch σ)} (hdone : done ⊆ ls)
    (hcache : l.stage.cache.From (done.map (·.stage.shelf))) :
    l.stage.cache.Faithful l.stage.shelf.load := by
  have htexts : Apart ((ls.map (·.stage.shelf)).flatMap Shelf.normalForms) := by
    refine hapart.mono fun message hmessage => ?_
    simp only [List.mem_flatMap, List.mem_map, exists_exists_and_eq_and] at hmessage ⊢
    obtain ⟨l', hl', hmessage⟩ := hmessage
    exact ⟨l', hl', List.mem_append_left _ hmessage⟩
  exact (hcache.mono (List.map_subset _ hdone)).faithful htexts (List.mem_map_of_mem hl)

/-- The run that a record is of had a plan with the key of the record. If the record is of an
application that succeeded, the application was committed, it was not cancelled, and every action
was settled. -/
theorem Launch.Recorded.applied {l : Launch σ} {r : Record} (h : l.Recorded w r)
    (hmode : r.mode = .apply) (hstatus : r.summary.status = .success) :
    ∃ plan report, (l.mode = .apply ∧ l.compiled.1 = .ok plan ∧ r.identity = plan.script ∧
        r.checksum = plan.checksum) ∧
      (l.transcript w).result = .ok (.executed report (.ok r)) ∧
      ⟨.step (.call .commit), .ok ()⟩ ∈ (l.transcript w).log ∧
      report.cancelled = false ∧
      ∀ o ∈ report.outcomes, o.isFailed = false ∧ o.isNotAttempted = false := by
  obtain ⟨plan, y, hcompiled, hresult, hidentity, hchecksum, hmode', hsummary⟩ := h
  obtain ⟨hscript', hchecksum', hreport⟩ := plan.report_execute w.steps l.mode y
  have hshape := plan.shape_execute w.steps l.mode y
  have hlaunch := Launch.transcript_of_compiled (w := w) hcompiled
  have horderly := (plan.log_launch w l.mode l.options l.stage.world).1
  rw [← hlaunch, hresult] at horderly
  generalize ((plan.execute l.mode).through w.steps y).result = report at *
  have hlmode : l.mode = .apply := by rw [← hreport, ← hmode', hmode]
  rw [hlmode] at hshape horderly
  obtain ⟨lookups, execution, recordedAt, record, hlog, -⟩ := horderly
  refine ⟨plan, report, ⟨hlmode, hcompiled, hidentity.trans hscript',
    hchecksum.trans hchecksum'⟩, hresult, ?_, hshape.of_success ?_⟩
  · rw [hlog]
    simp [Mode.committed]
  · rw [hsummary] at hstatus
    exact hstatus

/-- If a run is found superfluous, then the very same plan was applied before. The session begins
without records and with an empty cache, what happens between the runs leaves the records alone,
and no two texts or bundles that its runs may digest have the same digest.

The run is an application, it has only looked up, and it leaves no record. What it found is the
newest application of its script with its checksum. This is the record of an earlier application in
the session, which had the same plan, was committed, was not cancelled, and left no action out and
saw none fail. -/
theorem applied_of_unchanged (hw : w.Keeps view) {turns : List (Turn σ)}
    (hkept : ∀ change, .meanwhile change ∈ turns → ∀ x, view (change x) = view x)
    {s : Stage σ} (hcache : s.cache = .empty) (hrecords : view s.world = [])
    (hapart : Apart ((s.launches w turns).flatMap Launch.messages))
    {before later : List (Launch σ)} {l : Launch σ}
    (hl : s.launches w turns = before ++ l :: later) {previous : Record}
    (hresult : (l.transcript w).result = .ok (.unchanged previous)) :
    (l.mode = .apply ∧ (∀ e ∈ (l.transcript w).log, e.op.IsLookup) ∧
      view (l.after w).world = view l.stage.world) ∧
    ∃ plan, l.compiled.1 = .ok plan ∧
      ((previous.identity = plan.script ∧ previous.checksum = plan.checksum ∧
          previous.mode = .apply) ∧
        ∃ older newer, view l.stage.world = older ++ previous :: newer ∧
          ∀ r ∈ newer, r.sameKey previous = false) ∧
      ∃ first ∈ before, ∃ report, (first.mode = .apply ∧ first.compiled.1 = .ok plan) ∧
        (first.transcript w).result = .ok (.executed report (.ok previous)) ∧
        ⟨.step (.call .commit), .ok ()⟩ ∈ (first.transcript w).log ∧
        report.cancelled = false ∧
        ∀ o ∈ report.outcomes, o.isFailed = false ∧ o.isNotAttempted = false := by
  cases hcompiled : l.compiled.1 with
  | error e => simp [Launch.transcript_of_not_compiled hcompiled] at hresult
  | ok plan =>
    have hl' : l ∈ s.launches w turns := by simp [hl]
    have htraced : l.stage.Traced w view before := by
      simpa using (Stage.Traced.start hcache hrecords).launches hw hkept hl
    have hlaunch := Launch.transcript_of_compiled (w := w) hcompiled
    have horderly := (plan.log_launch w l.mode l.options l.stage.world).1
    rw [← hlaunch, hresult] at horderly
    rw [hlaunch] at hresult
    obtain ⟨hmode, hnewest, hstatus, hview⟩ := hw.unchanged hresult
    obtain ⟨hkey, older, newer, hrecords, hnewer⟩ := History.newest?_eq_some_iff.1 hnewest
    obtain ⟨first, hfirst, hrecorded⟩ := htraced.records previous (by simp [hrecords])
    obtain ⟨plan', report, ⟨hfirstMode, hfirstCompiled, hidentity, hchecksum⟩, hdone⟩ :=
      hrecorded.applied hkey.2.2 hstatus
    have hbefore : before ⊆ s.launches w turns := by simp [hl]
    obtain rfl : plan' = plan := Plan.eq_of_faithful
      (Launch.faithful hapart (hbefore hfirst) hbefore (htraced.caches first hfirst))
      (Launch.faithful hapart hl' hbefore htraced.cache) hfirstCompiled hcompiled
      (Launch.apart_digested hapart (hbefore hfirst) hl' hfirstCompiled hcompiled)
      (hidentity.symm.trans hkey.1) (hchecksum.symm.trans hkey.2.1)
    refine ⟨⟨hmode, horderly, ?_⟩, plan', rfl, ⟨hkey, older, newer, hrecords, hnewer⟩, first,
      hfirst, report, ⟨hfirstMode, hfirstCompiled⟩, hdone⟩
    · rw [Launch.after, hlaunch]
      exact hview

end

/-- The world of a repository and a store on a host without files. -/
def Surroundings.bare : RunWorld ((Bench × History.Backend) × Unit) :=
  world fun q => pure (Host.bare q)

/-- A session that begins with an empty repository and an empty store in memory. -/
def Stage.sample : Stage ((Bench × History.Backend) × Unit) :=
  ⟨.ofList [("main", "create user \"u\";\n")], .empty,
    ((.ofRepository (.ofState .initial) 1000, .memory []), ())⟩

/-- A script is applied, then its line end is edited, and it is applied again. -/
def Turn.sample : List (Turn ((Bench × History.Backend) × Unit)) :=
  [.launch "main" .apply ⟨16, "admin", false⟩,
    .edit (.ofList [("main", "create user \"u\"; \r\n")]),
    .meanwhile fun x => ((.ofRepository x.1.1.repository 1000, x.1.2), x.2),
    .launch "main" .apply ⟨1, "admin", false⟩]

/-- The run was found superfluous. -/
def Launch.isUnchanged {σ : Type} (w : RunWorld σ) (l : Launch σ) : Bool :=
  match (l.transcript w).result with
  | .ok (.unchanged _) => true
  | _ => false

private theorem Launch.isUnchanged_iff {σ : Type} {w : RunWorld σ} {l : Launch σ} :
    l.isUnchanged w = true ↔ ∃ previous, (l.transcript w).result = .ok (.unchanged previous) := by
  rw [isUnchanged]
  split
  · simp_all
  · simp_all

/-- The second application is found superfluous after the first one, which had the same plan. -/
theorem applied_of_unchanged_sample : ∃ first second previous plan,
    Stage.sample.launches Surroundings.bare Turn.sample = [first, second] ∧
      (second.transcript Surroundings.bare).result = .ok (.unchanged previous) ∧
      first.compiled.1 = .ok plan ∧ second.compiled.1 = .ok plan := by
  have hevaluated : Apart ((Stage.sample.launches Surroundings.bare Turn.sample).flatMap
        Launch.messages) ∧
      (Stage.sample.launches Surroundings.bare Turn.sample).map
        (Launch.isUnchanged Surroundings.bare) = [false, true] := by
    decide +kernel
  obtain ⟨hapart, hunchanged⟩ := hevaluated
  obtain ⟨first, second, hlaunches⟩ : ∃ first second,
      Stage.sample.launches Surroundings.bare Turn.sample = [first] ++ [second] := ⟨_, _, rfl⟩
  have hsecond : second.isUnchanged Surroundings.bare = true := by
    rw [hlaunches] at hunchanged
    simpa using (List.cons.inj (List.cons.inj hunchanged).2).1
  obtain ⟨previous, hprevious⟩ := Launch.isUnchanged_iff.1 hsecond
  have hkept : ∀ change, .meanwhile change ∈ Turn.sample → ∀ x : (Bench × History.Backend) × Unit,
      (change x).1.2.records = x.1.2.records := by
    simp [Turn.sample]
  obtain ⟨-, plan, hplan, -, first', hfirst', report, ⟨-, hplan'⟩, -⟩ :=
    applied_of_unchanged (Surroundings.keeps_world _) hkept rfl rfl hapart hlaunches hprevious
  obtain rfl := List.mem_singleton.1 hfirst'
  exact ⟨first', second, previous, plan, hlaunches, hprevious, hplan', hplan⟩

end Entitle
