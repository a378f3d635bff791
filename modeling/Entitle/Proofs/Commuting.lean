import Entitle.Proofs.Footprints
import Entitle.Proofs.Subtrees

/-!
# Actions in either order

Two actions that name different things may be applied in either order. Neither finds anything else
because of the other one: what it sees is outside of what the other one changes. A path is not
enough to tell subtrees apart; it is the order of paths that does. If neither of two paths is within
the other, no path is within both, and what is above the one is not within the other.

## Main definitions

* `Action.Unrelated`: the actions name subtrees apart from each other, and different principals.

## Main statements

* `Action.Unrelated.not_covers`: what the one action sees, the other one does not change.
* `Action.Unrelated.step_comm`: the outcomes and the last state do not depend on the order.
* `Plan.execute_comm`: the same of two plans of one action.
-/
namespace Entitle

/-- No path of the one action is within a path of the other one, and no principal is one of both. -/
structure Action.Unrelated (a b : Action) : Prop where
  apart : ∀ p ∈ a.subtrees, ∀ q ∈ b.subtrees, Path.apart p q = true
  disjoint : ∀ id ∈ a.ids, id ∉ b.ids

instance (a b : Action) : Decidable (a.Unrelated b) :=
  decidable_of_iff ((∀ p ∈ a.subtrees, ∀ q ∈ b.subtrees, Path.apart p q = true) ∧
    ∀ id ∈ a.ids, id ∉ b.ids) ⟨fun h => ⟨h.1, h.2⟩, fun h => ⟨h.1, h.2⟩⟩

namespace Action.Unrelated

variable {a b : Action} {s : State}

theorem symm (h : a.Unrelated b) : b.Unrelated a where
  apart q hq p hp := by
    have := h.apart p hp q hq
    rwa [Path.apart, Bool.and_comm] at this
  disjoint id hb ha := h.disjoint id ha hb

/-- What the one action sees, the other one does not change. -/
theorem not_covers (h : a.Unrelated b) (ha : a.Proper) (hb : b.Proper) {p : String}
    (hp : Path.IsPath p) (hsees : a.Sees p) : ¬ b.Covers p := by
  rintro ⟨q, hq, hwithin⟩
  have hqPath := hb.isPath hq
  rcases hsees with ⟨r, hr, hpr⟩ | ⟨r, hr, hparent⟩
  · have hapart := h.apart r hr q hq
    rcases hp.within_or_within (ha.isPath hr) hqPath hpr hwithin with hin | hin
    · simp [Path.apart, hin] at hapart
    · simp [Path.apart, hin] at hapart
  · have hapart := h.apart r hr q hq
    have hrPath := ha.isPath hr
    have hin := hrPath.within_trans hp hqPath (hrPath.within_parent hparent) hwithin
    simp [Path.apart, hin] at hapart

/-- After the one action the other one sees what it saw before. -/
theorem sameOn_sees (h : a.Unrelated b) (ha : a.Proper) (hb : b.Proper) (hs : s.Tree) :
    State.SameOn a.Sees (· ∈ a.ids) s (b.step s).2 :=
  (frame_step hs hb).mono (fun _ hp hsees => h.not_covers ha hb hp hsees) h.disjoint

/-- The outcomes of unrelated actions and the last state do not depend on the order. -/
theorem step_comm (h : a.Unrelated b) (ha : a.Proper) (hb : b.Proper) (hs : s.Tree) :
    (a.step (b.step s).2).1 = (a.step s).1 ∧ (b.step (a.step s).2).1 = (b.step s).1 ∧
      (b.step (a.step s).2).2 = (a.step (b.step s).2).2 := by
  have hsa := tree_step hs ha
  have hsb := tree_step hs hb
  obtain ⟨houtcomeA, hchangedA⟩ := sameOn_step ha hs hsb (h.sameOn_sees ha hb hs)
  obtain ⟨houtcomeB, hchangedB⟩ := sameOn_step hb hs hsa (h.symm.sameOn_sees hb ha hs)
  have hframeA := frame_step hs ha
  have hframeB := frame_step hs hb
  have hframeA' := frame_step hsb ha
  have hframeB' := frame_step hsa hb
  refine ⟨houtcomeA.symm, houtcomeB.symm, State.SameOn.eq ⟨fun {p} hp _ => ?_, fun {id} _ => ?_⟩
    (tree_step hsa hb) (tree_step hsb ha)⟩
  · -- a place is in what the one action names, in what the other one names, or in neither
    by_cases hcoversA : a.Covers p
    · have hcoversB := h.not_covers ha hb hp (.inl hcoversA)
      exact (hframeB'.node hp hcoversB).symm.trans (hchangedA.node hp hcoversA)
    · refine Eq.trans ?_ (hframeA'.node hp hcoversA)
      by_cases hcoversB : b.Covers p
      · exact (hchangedB.node hp hcoversB).symm
      · exact ((hframeA.node hp hcoversA).trans (hframeB'.node hp hcoversB)).symm.trans
          (hframeB.node hp hcoversB)
  · by_cases hidA : id ∈ a.ids
    · exact (hframeB'.principal (h.disjoint id hidA)).symm.trans (hchangedA.principal hidA)
    · refine Eq.trans ?_ (hframeA'.principal hidA)
      by_cases hidB : id ∈ b.ids
      · exact (hchangedB.principal hidB).symm
      · exact ((hframeA.principal hidA).trans (hframeB'.principal hidB)).symm.trans
          (hframeB.principal hidB)

end Action.Unrelated

/-- The run of a plan of one action is a step of the action. -/
theorem Plan.on_execute_eq_step {plan : Plan} {a : PlannedAction} (hplan : plan.actions = [a])
    (clock : String) (s : State) :
    (Running.on clock (plan.execute .apply) s).result.outcomes = [(a.action.step s).1] ∧
      (Running.on clock (plan.execute .apply) s).state = (a.action.step s).2 := by
  obtain ⟨houtcomes, hstate, -⟩ := on_execute_single clock hplan s
  obtain ⟨hfirst, hsecond⟩ := Action.on_attempt_apply_eq_step clock s a.action
  exact ⟨hfirst ▸ houtcomes, hstate.trans hsecond⟩

/-- Two plans of one action each, which are unrelated, may be run in either order: each action has
the same outcome, and the last state is the same. -/
theorem Plan.execute_comm {plan plan' : Plan} {a b : PlannedAction} (hplan : plan.actions = [a])
    (hplan' : plan'.actions = [b]) {d d' : Directive} (hd : d.problems = [])
    (hd' : d'.problems = []) {grants grants' : List Grant}
    (ha : a.action = Action.ofDirective grants d) (hb : b.action = Action.ofDirective grants' d')
    (hunrelated : a.action.Unrelated b.action) (clock : String) {s : State} (hs : s.Tree) :
    let first := Running.on clock (plan.execute .apply) s
    let second := Running.on clock (plan'.execute .apply) first.state
    let first' := Running.on clock (plan'.execute .apply) s
    let second' := Running.on clock (plan.execute .apply) first'.state
    second'.result.outcomes = first.result.outcomes ∧
      second.result.outcomes = first'.result.outcomes ∧ second.state = second'.state := by
  intro first second first' second'
  have hproper : a.action.Proper := ha ▸ Action.proper_of_problems hd grants
  have hproper' : b.action.Proper := hb ▸ Action.proper_of_problems hd' grants'
  obtain ⟨houtcomeA, houtcomeB, hstate⟩ := hunrelated.step_comm hproper hproper' hs
  obtain ⟨hfirst, hafter⟩ : first.result.outcomes = [(a.action.step s).1] ∧
      first.state = (a.action.step s).2 := on_execute_eq_step hplan clock s
  obtain ⟨hsecond, hend⟩ : second.result.outcomes = [(b.action.step first.state).1] ∧
      second.state = (b.action.step first.state).2 := on_execute_eq_step hplan' clock first.state
  obtain ⟨hfirst', hafter'⟩ : first'.result.outcomes = [(b.action.step s).1] ∧
      first'.state = (b.action.step s).2 := on_execute_eq_step hplan' clock s
  obtain ⟨hsecond', hend'⟩ : second'.result.outcomes = [(a.action.step first'.state).1] ∧
      second'.state = (a.action.step first'.state).2 := on_execute_eq_step hplan clock first'.state
  refine ⟨?_, ?_, ?_⟩
  · rw [hsecond', hafter', houtcomeA, hfirst]
  · rw [hsecond, hafter, houtcomeB, hfirst']
  · rw [hend, hafter, hstate, hend', hafter']

/-- A plan that moves a subtree. -/
def Plan.moving : Plan where
  script := "main"
  checksum := ""
  sources := []
  actions := [⟨.move "/a" "/c", ⟨"main", 1, 1⟩⟩]

/-- A plan that revokes what is granted on the neighbour of the subtree, whose name begins in the
same way. -/
def Plan.clearing : Plan where
  script := "main"
  checksum := ""
  sources := []
  actions := [⟨.purge "/ab" none [], ⟨"main", 2, 1⟩⟩]

/-- A repository with both of them. -/
def State.neighbours : State where
  principals := .empty
  nodes := .ofList [("/", .empty), ("/a", .empty), ("/a/b", .empty),
    ("/ab", ⟨.empty, [.ofLists "g" .allow ["jcr:read"] []]⟩)]

/-- The subtree is moved and the neighbour is cleared, whichever is first. -/
theorem Plan.execute_comm_neighbours :
    State.neighbours.Tree ∧ (Action.move "/a" "/c").Unrelated (.purge "/ab" none []) ∧
    let first := Running.on "" (Plan.moving.execute .apply) .neighbours
    let second := Running.on "" (Plan.clearing.execute .apply) first.state
    let first' := Running.on "" (Plan.clearing.execute .apply) .neighbours
    let second' := Running.on "" (Plan.moving.execute .apply) first'.state
    first.result.outcomes = [.applied "moved '/a' to '/c'"] ∧
      first'.result.outcomes = [.applied "revoked 1 entry under '/ab'"] ∧
      second.state.nodes.keys = ["/", "/ab", "/c", "/c/b"] ∧
      second'.result.outcomes = first.result.outcomes ∧
      second.result.outcomes = first'.result.outcomes ∧ second.state = second'.state := by
  have htree : State.neighbours.Tree := by decide +kernel
  have hunrelated : (Action.move "/a" "/c").Unrelated (.purge "/ab" none []) := by decide +kernel
  have hmove : (Directive.move "/a" "/c").problems = [] := by decide +kernel
  have hpurge : (Directive.purge "/ab" none).problems = [] := by decide +kernel
  have hmoving : Action.move "/a" "/c" = Action.ofDirective [] (.move "/a" "/c") := rfl
  have hclearing : Action.purge "/ab" none [] = Action.ofDirective [] (.purge "/ab" none) := by
    decide +kernel
  exact ⟨htree, hunrelated, by decide +kernel, by decide +kernel, by decide +kernel,
    execute_comm rfl rfl hmove hpurge hmoving hclearing hunrelated "" htree⟩

end Entitle
