import Entitle.Proofs.Stepwise
import Entitle.Proofs.Worlds

/-!
# How an action ends

In a world with a repository, where any call may be left without an answer, an action that is
applied ends in one of three ways. It fails, and has changed nothing; it is skipped, because the
state shows that there is nothing to do; or the change that is due is made by one call. This is so
because an inspection gives up at the first call without an answer: what it finds is what the state
shows, or it finds nothing.

## Main definitions

* `Running.Strict`, `Attempt.Strict`: attempts that fail at the first call without an answer.
* `Action.Ends`: the endings of an action.

## Main statements

* `World.Serves.through_of_strict`: what a strict program that reads makes of a world with a
  repository.
* `Action.strict_inspect`: inspections are strict.
* `World.Serves.ends_attempt`: an action that is applied ends in one of the three ways.
-/
namespace Entitle

/-! ## Strict attempts -/

section

variable {α β : Type}

/-- The program makes calls, and fails at the first one without an answer. -/
def Running.Strict : Running (Except Failure α) → Prop
  | .done _ => True
  | .ask (.call _) next =>
    (∀ e, ∃ failure, next (.error e) = .done (.error failure)) ∧ ∀ a, Strict (next (.ok a))
  | .ask .cancelled _ | .ask .now _ => False

/-- A strict program stays strict when it goes on with an answer and hands on a failure. -/
theorem Running.strict_bind {p : Running (Except Failure α)}
    {f : Except Failure α → Running (Except Failure β)} (hp : Running.Strict p)
    (hok : ∀ a, Running.Strict (f (.ok a)))
    (herror : ∀ e, ∃ failure, f (.error e) = .done (.error failure)) :
    Running.Strict (p >>= f) := by
  induction p with
  | done r =>
    cases r with
    | ok a => exact hok a
    | error e =>
      obtain ⟨failure, hfailure⟩ := herror e
      show Running.Strict (f (.error e))
      rw [hfailure]
      trivial
  | ask r next ih =>
    cases r with
    | call c =>
      refine ⟨fun e => ?_, fun a => ih _ (hp.2 a)⟩
      obtain ⟨failure, hfailure⟩ := hp.1 e
      show ∃ failure, next (.error e) >>= f = _
      rw [hfailure]
      exact herror failure
    | cancelled | now => exact hp.elim

namespace Attempt

/-- The attempt fails at the first call without an answer. -/
def Strict (x : Attempt α) : Prop :=
  Running.Strict x.run

theorem strict_pure (a : α) : (pure a : Attempt α).Strict := trivial

theorem strict_throw (e : Failure) : (throw e : Attempt α).Strict := trivial

theorem strict_bind {x : Attempt α} {f : α → Attempt β} (hx : x.Strict)
    (hf : ∀ a, (f a).Strict) : Attempt.Strict (x >>= f) :=
  Running.strict_bind hx hf fun e => ⟨e, rfl⟩

theorem strict_call (c : Call) : (call c).Strict :=
  ⟨fun e => ⟨e.failure, rfl⟩, fun _ => trivial⟩

theorem strict_adapt {x : Attempt α} (f : Failure → Failure) (hx : x.Strict) :
    Attempt.Strict (x.adapt f) :=
  Running.strict_bind hx (fun _ => trivial) fun e => ⟨f e, rfl⟩

end Attempt

end

/-! ## Inspections -/

namespace Overlay

variable (o : Overlay)

theorem strict_kindOf (id : String) : (o.kindOf id).Strict := by
  refine Attempt.strict_bind (Attempt.strict_call _) ?_
  rintro (_ | p)
  · exact Attempt.strict_pure _
  · exact Attempt.strict_pure _

theorem strict_hasNode (path : String) : (o.hasNode path).Strict := by
  rw [hasNode]
  split
  · exact Attempt.strict_call _
  · exact Attempt.strict_pure _

theorem strict_property (path key : String) : (o.property path key).Strict := by
  rw [property]
  split
  · exact Attempt.strict_adapt _ (Attempt.strict_call _)
  · exact Attempt.strict_throw _

theorem strict_permissions (path : String) : (o.permissions path).Strict := by
  rw [permissions]
  split
  · exact Attempt.strict_adapt _ (Attempt.strict_call _)
  · exact Attempt.strict_throw _

theorem strict_collect (sources : List (String × String)) : (o.collect sources).Strict := by
  induction sources with
  | nil => exact Attempt.strict_pure _
  | cons source rest ih =>
    refine Attempt.strict_bind (Attempt.strict_call _) fun _ => ?_
    exact Attempt.strict_bind ih fun _ => Attempt.strict_pure _

theorem strict_subtree (root : String) : (o.subtree root).Strict := by
  rw [subtree]
  split
  · exact Attempt.strict_call _
  · exact Attempt.strict_bind (o.strict_collect _) fun _ => Attempt.strict_pure _

theorem strict_revocations (principal : Option String) (keep : List Grant)
    (nodes : List String) : (o.revocations principal keep nodes).Strict := by
  induction nodes with
  | nil => exact Attempt.strict_pure _
  | cons node rest ih =>
    refine Attempt.strict_bind (o.strict_permissions node) fun _ => ?_
    exact Attempt.strict_bind ih fun _ => Attempt.strict_pure _

theorem strict_newMember (group member : String) : Attempt.Strict (do
    match ← o.kindOf member with
    | some _ => pure (Finding.due (.addMember group member))
    | none => throw (.notFound member)) := by
  refine Attempt.strict_bind (o.strict_kindOf member) ?_
  rintro (_ | _)
  · exact Attempt.strict_throw _
  · exact Attempt.strict_pure _

end Overlay

/-- An inspection fails at the first call without an answer. -/
theorem Action.strict_inspect (o : Overlay) (a : Action) : (a.inspect o).Strict := by
  cases a with
  | ensure kind id path =>
    refine Attempt.strict_bind (o.strict_kindOf id) ?_
    rintro (_ | existing)
    · exact Attempt.strict_pure _
    · show Attempt.Strict (if existing = kind then _ else _)
      split
      · exact Attempt.strict_pure _
      · exact Attempt.strict_throw _
  | addMember group member =>
    have hmember := o.strict_newMember group member
    refine Attempt.strict_bind (Attempt.strict_call _) ?_
    rintro (_ | g)
    · show Attempt.Strict (if _ then _ else _)
      split
      · exact Attempt.strict_throw _
      · exact hmember
    · show Attempt.Strict (if _ then _ else _)
      split
      · exact Attempt.strict_pure _
      · show Attempt.Strict (if _ then _ else _)
        split
        · exact Attempt.strict_throw _
        · exact hmember
  | removeMember group member =>
    refine Attempt.strict_bind (Attempt.strict_call _) ?_
    rintro (_ | g)
    · exact Attempt.strict_pure _
    · show Attempt.Strict (if _ then _ else _)
      split
      · exact Attempt.strict_pure _
      · exact Attempt.strict_pure _
  | setPermission path entry =>
    refine Attempt.strict_bind (o.strict_permissions path) fun acl => ?_
    split
    · exact Attempt.strict_pure _
    · exact Attempt.strict_pure _
  | setProperty path key value =>
    refine Attempt.strict_bind (o.strict_property path key) fun current => ?_
    split
    · exact Attempt.strict_pure _
    · exact Attempt.strict_pure _
  | copy source target =>
    refine Attempt.strict_bind (o.strict_hasNode target) fun atTarget => ?_
    split
    · exact Attempt.strict_pure _
    · refine Attempt.strict_bind (o.strict_hasNode source) fun atSource => ?_
      split
      · exact Attempt.strict_pure _
      · exact Attempt.strict_throw _
  | move source target =>
    refine Attempt.strict_bind (o.strict_hasNode source) fun atSource => ?_
    refine Attempt.strict_bind (o.strict_hasNode target) fun atTarget => ?_
    split
    · exact Attempt.strict_pure _
    · exact Attempt.strict_pure _
    · exact Attempt.strict_throw _
    · exact Attempt.strict_throw _
  | delete path =>
    refine Attempt.strict_bind (o.strict_hasNode path) fun there => ?_
    split
    · exact Attempt.strict_pure _
    · exact Attempt.strict_pure _
  | purge path principal keep =>
    refine Attempt.strict_bind (o.strict_subtree path) fun nodes => ?_
    refine Attempt.strict_bind (o.strict_revocations principal keep nodes) fun batch => ?_
    split
    · exact Attempt.strict_pure _
    · exact Attempt.strict_pure _
  | checkPresent id wanted =>
    refine Attempt.strict_bind (o.strict_kindOf id) ?_
    rintro (_ | kind)
    · exact Attempt.strict_throw _
    · cases wanted with
      | none => exact Attempt.strict_pure _
      | some k =>
        show Attempt.Strict (if _ then _ else _)
        split
        · exact Attempt.strict_pure _
        · exact Attempt.strict_throw _
  | checkAbsent id =>
    refine Attempt.strict_bind (o.strict_kindOf id) ?_
    rintro (_ | kind)
    · exact Attempt.strict_pure _
    · exact Attempt.strict_throw _
  | checkPermission path entry =>
    refine Attempt.strict_bind (o.strict_permissions path) fun acl => ?_
    split
    · exact Attempt.strict_pure _
    · exact Attempt.strict_throw _

/-! ## Reading in a world -/

/-- The program failed, or its result is what it makes of the state. -/
def Running.Shows {α : Type} (p : Running (Except Failure α)) (s : State)
    (result : Except Failure α) : Prop :=
  (∃ failure, result = .error failure) ∨ result = Running.look p s

/-- A call that only reads and is answered shows the state, and leaves the repository as it is. -/
theorem Repository.reply_of_not_mutates {r r' : Repository} {c : Call} {a : c.Answer}
    (hc : c.mutates = false) (h : r.answerNow c = (.ok a, r')) :
    r' = r ∧ (r.state.reply c).1 = .ok a := by
  obtain ⟨s, hanswer, rfl⟩ := answerNow_eq_ok h
  refine ⟨?_, by rw [State.reply, hanswer]⟩
  rw [State.answer_of_not_mutates hc hanswer]
  exact after_of_not_mutates hc

section

variable {σ α β : Type} {w : World σ} {view : σ → Repository}

/-- A strict program that reads leaves the repository as it is. It fails, or its result is what it
makes of the state. -/
theorem World.Serves.through_of_strict (hw : w.Serves view) {Q : Except Failure α → Prop}
    {p : Running (Except Failure α)} (hstrict : Running.Strict p)
    (hreads : p.Meets (Request.IsCall fun c => c.mutates = false) Q) (x : σ) :
    Running.Shows p (view x).state (p.through w x).result ∧
      view (p.through w x).world = view x ∧
      ∀ e ∈ (p.through w x).exchanges, e.isChange = false := by
  induction p generalizing x with
  | done r => exact ⟨.inr rfl, rfl, by simp⟩
  | ask q next ih =>
    cases q with
    | cancelled | now => exact hstrict.elim
    | call c =>
      have hserves := hw (.call c) x
      have hchange : ∀ reply, (Exchange.mk c reply).isChange = false := by
        intro reply
        rw [Exchange.isChange, hreads.1, Bool.false_and]
      dsimp only [Running.through]
      rw [Dialogue.transcript_ask]
      generalize w (.call c) x = replied at hserves ⊢
      obtain ⟨reply, x'⟩ := replied
      generalize hr : view x = r at hserves ⊢
      generalize hr' : view x' = r' at hserves
      cases hserves with
      | @answered _ _ a h =>
        obtain ⟨hsame, hreply⟩ := Repository.reply_of_not_mutates hreads.1 h
        obtain ⟨hshows, hview, hexchanges⟩ := ih (.ok a) (hstrict.2 a) (hreads.2 _) x'
        rw [hr', hsame] at hshows
        refine ⟨?_, by rw [Transcript.world_behind, hview, hr', hsame], ?_⟩
        · rw [Running.Shows, Running.look, hreply]
          exact hshows
        · rintro e he
          rcases List.mem_append.1 he with he | he
          · rw [List.mem_singleton.1 he]
            exact hchange _
          · exact hexchanges e he
      | unanswered _ e =>
        obtain ⟨failure, hfailure⟩ := hstrict.1 e
        simp only [hfailure, Dialogue.transcript_done]
        refine ⟨.inl ⟨failure, rfl⟩, hr', fun e' he' => ?_⟩
        rw [List.mem_singleton.1 he']
        exact hchange _

/-- The passage of an attempt that begins with reading: it fails there, or goes on in the same state
with what the state shows. -/
theorem World.Serves.through_bind_of_strict (hw : w.Serves view) {Q : α → Prop} {a : Attempt α}
    (hstrict : a.Strict) (hreads : a.Meets (fun c => c.mutates = false) Q)
    (f : α → Attempt β) (x : σ) :
    ∃ (reads : List (Answered Request Request.Reply)) (x' : σ),
      (∀ e ∈ Answered.exchanges reads, e.isChange = false) ∧ view x' = view x ∧
      ((∃ failure, Running.through w (a >>= f).run x = ⟨.error failure, reads, x'⟩) ∨
        ∃ b, a.look (view x).state = .ok b ∧
          Running.through w (a >>= f).run x = (Running.through w (f b).run x').behind reads) := by
  obtain ⟨hshows, hview, hexchanges⟩ := hw.through_of_strict hstrict hreads x
  refine ⟨_, _, hexchanges, hview, ?_⟩
  have hbind := Attempt.through_bind w a f x
  rcases hresult : (Running.through w a.run x).result with failure | b
  · refine .inl ⟨failure, hbind.trans ?_⟩
    rw [hresult]
    simp [Transcript.behind]
  · refine .inr ⟨b, ?_, hbind.trans ?_⟩
    · rw [hresult] at hshows
      rcases hshows with ⟨failure, h⟩ | h
      · cases h
      · exact h.symm
    · rw [hresult]

end

/-! ## Endings -/

/-- How an action ends that is applied to a repository: its outcome, the calls that were made with
their replies, and the repository afterwards. -/
inductive Action.Ends (a : Action) (r : Repository) :
    Outcome → List Exchange → Repository → Prop
  /-- Nothing was changed. -/
  | failed (failure : Failure) {es : List Exchange} (hes : ∀ e ∈ es, e.isChange = false) :
    Ends a r (.failed failure) es r
  /-- There was nothing to change. -/
  | skipped (reason : String) {es : List Exchange} (hes : ∀ e ∈ es, e.isChange = false)
    (hverdict : a.verdict .empty r.state = some none) : Ends a r (.skipped reason) es r
  /-- What was due was changed by one call, after reading. -/
  | applied {c : Change} {reads : List Exchange} (hreads : ∀ e ∈ reads, e.isChange = false)
    (hverdict : a.verdict .empty r.state = some (some c)) {x : c.call.Answer} {s : State}
    (hanswer : r.state.answer c.call = .ok (x, s)) :
    Ends a r (.applied c.done) (reads ++ [⟨c.call, .ok x⟩]) (r.after c.call s)

section

variable {σ : Type} {w : World σ} {view : σ → Repository}

/-- An action that is applied ends in one of the three ways. -/
theorem World.Serves.ends_attempt (hw : w.Serves view) (a : Action) (x : σ) :
    let p := (a.attempt .apply .empty).through w x
    a.Ends (view x) p.result.1 p.exchanges (view p.world) := by
  obtain ⟨reads, x', hreads, hview, hinspect⟩ := hw.through_bind_of_strict
    (a.strict_inspect .empty) (a.meets_inspect (fun _ => Call.not_mutates_of_reads) .empty)
    (Finding.settle .empty) x
  intro p
  have hp : p = _ := Action.through_attempt w .apply .empty a x
  rw [hp, Action.carryOut_apply]
  rcases hinspect with ⟨failure, hthrough⟩ | ⟨finding, hlook, hthrough⟩
  · rw [hthrough, hview]
    exact .failed failure hreads
  · have hverdict : a.verdict .empty (view x).state = some finding.change? := by
      rw [Action.verdict, hlook]
      rfl
    rw [hthrough]
    cases finding with
    | settled reason =>
      have hsettle : Running.through w ((Finding.settled reason).settle .empty).run x' =
          ⟨.ok (.skipped reason, .empty), [], x'⟩ := rfl
      rw [hsettle]
      show a.Ends _ (.skipped reason) (Answered.exchanges (reads ++ [])) (view x')
      rw [List.append_nil, hview]
      exact .skipped reason hreads hverdict
    | due c =>
      have hserves := hw (.call c.call) x'
      rw [Finding.through_settle_due]
      generalize w (.call c.call) x' = replied at hserves ⊢
      obtain ⟨reply, x''⟩ := replied
      rw [hview] at hserves
      cases reply with
      | ok answer =>
        have hrepository : ∃ s, (view x).state.answer c.call = .ok (answer, s) ∧
            view x'' = (view x).after c.call s := by
          generalize view x'' = r' at hserves
          cases hserves with
          | answered h => exact Repository.answerNow_eq_ok h
        obtain ⟨s, hanswer, hafter⟩ := hrepository
        show a.Ends _ (.applied c.done) (Answered.exchanges (reads ++ _)) (view x'')
        rw [hafter, Answered.exchanges_append]
        exact .applied hreads hverdict hanswer
      | error e =>
        have hsame : view x'' = view x := by
          generalize view x'' = r' at hserves
          cases hserves with
          | unanswered => rfl
        show a.Ends _ (.failed e.failure) (Answered.exchanges (reads ++ _)) (view x'')
        rw [hsame, Answered.exchanges_append]
        refine .failed e.failure fun e' he' => ?_
        rcases List.mem_append.1 he' with he' | he'
        · exact hreads e' he'
        · rw [List.mem_singleton.1 he', Exchange.isChange]
          exact Bool.and_false _

end

end Entitle
