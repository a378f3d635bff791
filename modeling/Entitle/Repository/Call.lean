import Entitle.Repository.State

/-!
# Calls on a repository

A repository is used through calls, each a single round trip with an answer of a known type.
Whoever asks depends on nothing but the calls; what a repository answers may be anything. A
repository that holds a state answers as the operations on states say.

## Main definitions

* `Call`, `Call.Answer`: the calls and the types of their answers.
* `Call.mutates`: the calls that change a repository.
* `State.answer`: the answer of a state, and the state after the call.

## Main statements

* `State.answer_of_not_mutates`: a call that only reads leaves the state as it is.
-/
namespace Entitle

/-- A single round trip to a repository. -/
inductive Call where
  | principal (id : String)
  | ensurePrincipal (kind : PrincipalKind) (id : String) (path : Option String)
  | addMember (group member : String)
  | removeMember (group member : String)
  | readPermissions (path : String)
  | setPermission (path : String) (entry : Permission)
  | revokePermissions (batch : List Grant)
  | descendants (path : String)
  | nodeExists (path : String)
  | property (path key : String)
  | setProperty (path key value : String)
  | copy (source target : String)
  | move (source target : String)
  | delete (path : String)
  /-- Make the changes since the repository was opened durable. -/
  | commit
  deriving DecidableEq, Repr

namespace Call

/-- What a call is answered with when it is not refused. -/
abbrev Answer : Call → Type
  | principal _ => Option Principal
  | readPermissions _ => List Permission
  | descendants _ => List String
  | nodeExists _ => Bool
  | property _ _ => Option String
  | ensurePrincipal _ _ _ | addMember _ _ | removeMember _ _ | setPermission _ _
  | revokePermissions _ | setProperty _ _ _ | copy _ _ | move _ _ | delete _ | commit => Unit

/-- The calls that change the state of a repository. -/
def mutates : Call → Bool
  | ensurePrincipal .. | addMember .. | removeMember .. | setPermission .. | revokePermissions _
  | setProperty .. | copy .. | move .. | delete _ => true
  | principal _ | readPermissions _ | descendants _ | nodeExists _ | property .. | commit => false

end Call

/-! ## Answers of a state -/

/-- The outcome of an operation as the answer to a call. -/
def State.done (outcome : Except Refusal State) : Except Refusal (Unit × State) :=
  outcome.map ((), ·)

/-- The answer of a state to a call, and the state after it. A state has nothing to commit. -/
def State.answer (s : State) : (c : Call) → Except Refusal (c.Answer × State)
  | .principal id => .ok (s.principals.get? id, s)
  | .ensurePrincipal kind id path => done (s.ensurePrincipal kind id path)
  | .addMember group member => done (s.addMember group member)
  | .removeMember group member => done (s.removeMember group member)
  | .readPermissions path => (s.node path).map (·.acl, s)
  | .setPermission path entry => done (s.setPermission path entry)
  | .revokePermissions batch => done (s.revokeAll batch)
  | .descendants path => .ok (s.subtree path, s)
  | .nodeExists path => .ok (s.hasNode path, s)
  | .property path key => (s.node path).map (·.properties.get? key, s)
  | .setProperty path key value => done (s.setProperty path key value)
  | .copy source target => done (s.transfer source target true)
  | .move source target => done (s.transfer source target false)
  | .delete path => done (s.delete path)
  | .commit => .ok ((), s)

/-- A call that only reads leaves the state as it is. -/
theorem State.answer_of_not_mutates {s s' : State} {c : Call} {a : c.Answer}
    (hc : c.mutates = false) (h : s.answer c = .ok (a, s')) : s' = s := by
  cases c <;> simp only [Call.mutates, Bool.true_eq_false] at hc
  case principal => cases h; rfl
  case descendants => cases h; rfl
  case nodeExists => cases h; rfl
  case commit => cases h; rfl
  case readPermissions path =>
    cases hn : s.node path with
    | error e => simp [answer, hn, Except.map] at h
    | ok n =>
      simp only [answer, hn, Except.map, Except.ok.injEq, Prod.mk.injEq] at h
      exact h.2.symm
  case property path key =>
    cases hn : s.node path with
    | error e => simp [answer, hn, Except.map] at h
    | ok n =>
      simp only [answer, hn, Except.map, Except.ok.injEq, Prod.mk.injEq] at h
      exact h.2.symm

end Entitle
