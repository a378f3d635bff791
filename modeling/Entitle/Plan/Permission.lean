import Entitle.NameSet
import Entitle.Script.Statement

/-!
# Permissions

A permission gives privileges to a principal, or denies them, under restrictions. Its target is
everything but the privileges: on a node, permissions with the same target are one permission.

## Main definitions

* `Permission`: a principal, an effect, a set of privileges and a table of restrictions.
* `Permission.sameTarget`, `Permission.covers`: comparison by target, and by privileges too.
* `Permission.compare`: the order of permissions, field by field.
* `Grant`: a permission on a path; `Grant.compare` orders by path first.
* `Grant.insertSorted`, `Grant.sortedOf`: strictly sorted lists of grants.
-/
namespace Entitle

/-- Privileges for a principal, granted or denied under restrictions. -/
structure Permission where
  principal : String
  effect : Effect
  privileges : NameSet
  restrictions : Table String
  deriving DecidableEq, Repr

namespace Permission

/-- The permission of a statement: repeated privileges count once, and of restrictions with the
same name the last one counts. -/
def ofLists (principal : String) (effect : Effect) (privileges : List String)
    (restrictions : List (String × String)) : Permission :=
  ⟨principal, effect, .ofList privileges, .ofList restrictions⟩

/-! ## Targets -/

/-- The same principal, effect and restrictions; the privileges may differ. -/
def sameTarget (a b : Permission) : Bool :=
  a.principal == b.principal && a.effect == b.effect && a.restrictions == b.restrictions

/-- The same target, and every privilege that is `wanted`. -/
def covers (held wanted : Permission) : Bool :=
  held.sameTarget wanted && wanted.privileges.isSubset held.privileges

theorem sameTarget_iff {a b : Permission} : a.sameTarget b = true ↔
    a.principal = b.principal ∧ a.effect = b.effect ∧ a.restrictions = b.restrictions := by
  simp [sameTarget, and_assoc]

@[simp] theorem sameTarget_refl (a : Permission) : a.sameTarget a = true := by
  simp [sameTarget]

theorem sameTarget_symm {a b : Permission} (h : a.sameTarget b = true) :
    b.sameTarget a = true := by
  rw [sameTarget_iff] at *
  exact ⟨h.1.symm, h.2.1.symm, h.2.2.symm⟩

/-- The permission without some of its privileges. -/
def without (p : Permission) (privileges : NameSet) : Permission :=
  { p with privileges := p.privileges.diff privileges }

/-- The permission with more privileges. -/
def withMore (p : Permission) (privileges : NameSet) : Permission :=
  { p with privileges := p.privileges.union privileges }

/-- The privileges with commas between them, as texts show them. -/
def privilegeText (p : Permission) : String :=
  ", ".intercalate p.privileges.toList

/-! ## Order -/

/-- Grants come before denials. -/
def rank : Effect → Nat
  | .allow => 0
  | .deny => 1

/-- Pairs are ordered by key, then by value. -/
def comparePair (a b : String × String) : Ordering :=
  (Ord.compare a.1 b.1).then (Ord.compare a.2 b.2)

/-- Fields are compared one after the other, lists item by item. -/
def compare (a b : Permission) : Ordering :=
  (Ord.compare a.principal b.principal).then <|
    (Ord.compare (rank a.effect) (rank b.effect)).then <|
      (List.compareLex Ord.compare a.privileges.toList b.privileges.toList).then <|
        List.compareLex comparePair a.restrictions.entries b.restrictions.entries

end Permission

/-! ## Grants -/

/-- A permission on a path. -/
structure Grant where
  path : String
  entry : Permission
  deriving DecidableEq, Repr

namespace Grant

/-- Grants are ordered by path, then by permission. -/
def compare (a b : Grant) : Ordering :=
  (Ord.compare a.path b.path).then (a.entry.compare b.entry)

/-- A sorted list with one more grant in its place, unless it is there. -/
def insertSorted (g : Grant) : List Grant → List Grant
  | [] => [g]
  | h :: rest =>
    match g.compare h with
    | .lt => g :: h :: rest
    | .eq => h :: rest
    | .gt => h :: insertSorted g rest

/-- The grants of a list in strictly increasing order. -/
def sortedOf (gs : List Grant) : List Grant :=
  gs.foldl (fun sorted g => insertSorted g sorted) []

end Grant

end Entitle
