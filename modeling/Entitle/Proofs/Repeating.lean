import Entitle.Proofs.Convergence

/-!
# Actions that are repeated

An action asks for a state of the repository. Once it went through, the repository is in that state,
so the same action has nothing to do if it is run again at once. This does not depend on what else
the plan asks for. The permission lists may be any, with several permissions for one target and
with permissions without privileges. Only for a move it has to be known that every node has the
node above it: otherwise a subtree might bring along, to the place where it was, a node whose path
is the source.

## Main statements

* `State.hasNode_source_of_move`: after a move there is nothing at the source.
* `Action.settled_of_next?`: an action that goes through is settled.
* `Plan.execute_again`: a plan of one action that is run again skips it and changes nothing.
-/
namespace Entitle

/-! ## Moves -/

namespace State

variable {s s' : State} {source target : String}

/-- After a move there is nothing at the source. What comes to stand there would have come from
within the source to within the target, so the target would be above the source, and would have been
there before. -/
theorem hasNode_source_of_move (hs : s.Closed) (hsource : Path.IsPath source)
    (htarget : Path.IsPath target) (houtside : ¬ Path.within target source = true)
    (h : s.transfer source target false = .ok s') : s'.hasNode source = false := by
  obtain ⟨hnode, hfree, -, rfl⟩ := transfer_eq_ok h
  refine Bool.eq_false_iff.2 fun hstill => ?_
  rcases contains_plant.1 hstill with hkept | ⟨e, he, heq⟩
  · simp [Table.contains_filterKeys, Path.within_refl] at hkept
  · have hmoved := (Table.mem_entries_filterKeys.1 he).1
    have habove := Path.within_rebase (source_ne_root htarget houtside) hmoved target
    rw [heq] at habove
    rw [hs.hasNode_of_within hnode hsource htarget habove] at hfree
    cases hfree

end State

/-! ## Actions -/

namespace Action

variable {s s' : State} {a : Action}

private theorem settled_move {source target : String} :
    (move source target).verdict .empty s = some none ↔
      s.hasNode source = false ∧ s.hasNode target = true := by
  rw [verdict_move, Overlay.isSome_node?_empty, Overlay.isSome_node?_empty]
  cases s.hasNode source <;> cases s.hasNode target <;> simp

/-- An action that goes through is settled. -/
theorem settled_of_next? (hs : s.Closed) (hsound : ∀ {c}, Change.Of a c → c.call.Sound)
    (h : a.next? s = some s') : a.verdict .empty s' = some none := by
  rcases next?_eq_some h with ⟨hsettled, rfl⟩ | ⟨c, x, hverdict, hanswer⟩
  · exact hsettled
  · by_cases hmove : ∃ source target, a = .move source target
    · obtain ⟨source, target, rfl⟩ := hmove
      cases of_verdict_due hverdict
      obtain ⟨hsource, htarget, houtside⟩ := hsound (.move source target)
      have hmoved := State.done_eq_ok hanswer
      exact settled_move.2 ⟨State.hasNode_source_of_move hs hsource htarget houtside hmoved,
        State.hasNode_target hmoved⟩
    · exact settled_of_due (fun source target heq => hmove ⟨source, target, heq⟩) hverdict hanswer

end Action

/-! ## Plans of one action -/

section

variable {plan : Plan} {a : PlannedAction}

/-- An action that is applied or skipped is skipped when it is run again at once. The second run
changes nothing, and makes no call that could. -/
theorem Plan.execute_again (hplan : plan.actions = [a]) {d : Directive} (hd : d.problems = [])
    {grants : List Grant} (ha : a.action = Action.ofDirective grants d) (clock : String) {s : State}
    (hs : s.Closed)
    (hfirst : ∀ outcome ∈ (Running.on clock (plan.execute .apply) s).result.outcomes,
      (outcome.isApplied || outcome.isSkipped) = true) :
    let first := Running.on clock (plan.execute .apply) s
    let again := Running.on clock (plan.execute .apply) first.state
    (∃ reason, again.result.outcomes = [.skipped reason]) ∧ again.state = first.state ∧
      ∀ c ∈ again.calls, c.mutates = false := by
  intro first again
  obtain ⟨houtcomes, hstate, -⟩ := on_execute_single clock hplan s
  obtain ⟨houtcomes', hstate', hcalls'⟩ := on_execute_single clock hplan first.state
  have hnofail := Outcome.isFailed_eq_false (hfirst _ (houtcomes ▸ List.mem_singleton.2 rfl))
  rw [a.action.isFailed_attempt_apply, Option.isNone_eq_false_iff,
    Option.isSome_iff_exists] at hnofail
  obtain ⟨s', hnext⟩ := hnofail
  have hreached : first.state = s' := hstate.trans (a.action.state_attempt_apply clock s hnext)
  have hsettled : a.action.verdict .empty first.state = some none := by
    rw [hreached]
    exact Action.settled_of_next? hs (fun hc => Action.sound_of_problems hd (ha ▸ hc)) hnext
  obtain ⟨hskipped, hsame, hreads⟩ :=
    a.action.attempt_apply_of_settled clock first.state hsettled
  refine ⟨?_, hstate'.trans hsame, hcalls' ▸ hreads⟩
  rw [houtcomes']
  cases houtcome : (Running.on clock (a.action.attempt .apply .empty) first.state).result.1 with
  | skipped reason => exact ⟨reason, rfl⟩
  | _ => simp [houtcome, Outcome.isSkipped] at hskipped

end

/-- A repository with several permissions for one target, one of them without privileges, and with
a node that is under no path. -/
def State.cluttered : State where
  principals := .empty
  nodes := .ofList [("/", .empty), ("aside", .empty),
    ("/a", ⟨.empty, [.ofLists "g" .allow ["jcr:read"] [], .ofLists "g" .allow [] [],
      .ofLists "g" .allow ["jcr:read", "jcr:write"] [], .ofLists "h" .deny ["jcr:all"] []]⟩)]

/-- A plan that only revokes what somebody has beneath a path. -/
def Plan.revoking : Plan where
  script := "main"
  checksum := ""
  sources := []
  actions := [⟨.purge "/a" (some "g") [], ⟨"main", 1, 1⟩⟩]

/-- One purge revokes everything that there is for one target. -/
theorem Plan.execute_again_cluttered : State.cluttered.Closed ∧
    let first := Running.on "" (Plan.revoking.execute .apply) .cluttered
    let again := Running.on "" (Plan.revoking.execute .apply) first.state
    first.result.outcomes = [.applied "revoked 2 entries under '/a'"] ∧
      (first.state.nodes.get? "/a").map (·.acl) =
        some [.ofLists "h" .deny ["jcr:all"] []] ∧
      (∃ reason, again.result.outcomes = [.skipped reason]) ∧ again.state = first.state ∧
      ∀ c ∈ again.calls, c.mutates = false := by
  have hclosed : State.cluttered.Closed := by decide +kernel
  have hfirst : (Running.on "" (Plan.revoking.execute .apply) .cluttered).result.outcomes =
      [.applied "revoked 2 entries under '/a'"] := by decide +kernel
  have hproblems : (Directive.purge "/a" (some "g")).problems = [] := by decide +kernel
  have haction : Action.purge "/a" (some "g") [] =
      Action.ofDirective [] (.purge "/a" (some "g")) := by decide +kernel
  refine ⟨hclosed, hfirst, by decide +kernel, execute_again rfl hproblems haction "" hclosed ?_⟩
  intro outcome houtcome
  rw [hfirst, List.mem_singleton] at houtcome
  rw [houtcome]
  rfl

end Entitle
