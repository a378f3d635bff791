import Entitle.Table

/-!
# Name sets

Finite sets of texts in increasing order: the privileges of a permission, the members of a group.

## Main definitions

* `NameSet`: members in strictly increasing order, without repetition.
* `NameSet.insert`, `NameSet.erase`, `NameSet.union`, `NameSet.diff`: the changes of a set.

## Main statements

* `NameSet.mem_insert`, `NameSet.mem_union`, `NameSet.mem_diff`: the changes through membership.
* `NameSet.ext_mem`: two sets with the same members are equal.
-/
namespace Entitle

/-- A finite set of texts, listed in strictly increasing order. -/
structure NameSet where
  toList : List String
  sorted : toList.Pairwise (· < ·)
  deriving DecidableEq

namespace NameSet

/-! ## Membership -/

/-- The set without members. -/
def empty : NameSet := ⟨[], .nil⟩

instance : Inhabited NameSet := ⟨empty⟩

instance : Repr NameSet := ⟨fun s n => reprPrec s.toList n⟩

instance : Membership String NameSet := ⟨fun s x => x ∈ s.toList⟩

theorem mem_def {s : NameSet} {x : String} : x ∈ s ↔ x ∈ s.toList := Iff.rfl

/-- Is the name a member? -/
def contains (s : NameSet) (x : String) : Bool :=
  s.toList.contains x

@[simp] theorem contains_iff {s : NameSet} {x : String} : s.contains x = true ↔ x ∈ s := by
  simp [contains, mem_def]

/-- No members. -/
def isEmpty (s : NameSet) : Bool :=
  s.toList.isEmpty

/-- Every member of `s` is a member of `t`. -/
def isSubset (s t : NameSet) : Bool :=
  s.toList.all t.contains

theorem isSubset_iff {s t : NameSet} : s.isSubset t = true ↔ ∀ x ∈ s, x ∈ t := by
  simp [isSubset, mem_def, contains]

/-- Sets with the same members are equal. -/
theorem ext_mem {s t : NameSet} (h : ∀ x, x ∈ s ↔ x ∈ t) : s = t := by
  obtain ⟨xs, hs⟩ := s
  obtain ⟨ys, ht⟩ := t
  simp only [mk.injEq]
  simp only [mem_def] at h
  induction xs generalizing ys with
  | nil =>
    cases ys with
    | nil => rfl
    | cons y rest => exact absurd ((h y).2 List.mem_cons_self) List.not_mem_nil
  | cons x rest ih =>
    cases ys with
    | nil => exact absurd ((h x).1 List.mem_cons_self) List.not_mem_nil
    | cons y rest' =>
      rw [List.pairwise_cons] at hs ht
      have hxy : x = y := by
        rcases List.mem_cons.1 ((h x).1 List.mem_cons_self) with e | e
        · exact e
        · rcases List.mem_cons.1 ((h y).2 List.mem_cons_self) with e' | e'
          · exact e'.symm
          · exact absurd (hs.1 _ e') (String.lt_asymm (ht.1 _ e))
      subst hxy
      rw [ih hs.2 rest' ht.2 fun z => ?_]
      constructor
      · intro hz
        rcases List.mem_cons.1 ((h z).1 (List.mem_cons_of_mem _ hz)) with e | e
        · subst e; exact absurd (hs.1 _ hz) (String.lt_irrefl _)
        · exact e
      · intro hz
        rcases List.mem_cons.1 ((h z).2 (List.mem_cons_of_mem _ hz)) with e | e
        · subst e; exact absurd (ht.1 _ hz) (String.lt_irrefl _)
        · exact e

/-! ## Insertion -/

/-- A sorted list with one more name in its place, unless it is there. -/
def insertName (x : String) : List String → List String
  | [] => [x]
  | y :: rest =>
    if x < y then x :: y :: rest
    else if x = y then y :: rest
    else y :: insertName x rest

theorem mem_insertName {x z : String} {ys : List String} :
    z ∈ insertName x ys ↔ z = x ∨ z ∈ ys := by
  induction ys with
  | nil => simp [insertName]
  | cons y rest ih =>
    rw [insertName]
    split
    · simp
    · split
      · next heq => subst heq; simp
      · simp only [List.mem_cons, ih]
        grind

private theorem sorted_insertName (x : String) {ys : List String} (h : ys.Pairwise (· < ·)) :
    (insertName x ys).Pairwise (· < ·) := by
  induction ys with
  | nil => simp [insertName]
  | cons y rest ih =>
    rw [insertName]
    rw [List.pairwise_cons] at h
    split
    · next hlt =>
      refine List.pairwise_cons.2 ⟨fun z hz => ?_, List.pairwise_cons.2 h⟩
      rcases List.mem_cons.1 hz with rfl | hz
      · exact hlt
      · exact String.lt_trans hlt (h.1 _ hz)
    · next hlt =>
      split
      · exact List.pairwise_cons.2 h
      · next hne =>
        refine List.pairwise_cons.2 ⟨fun z hz => ?_, ih h.2⟩
        rcases mem_insertName.1 hz with rfl | hz
        · exact lt_of_not_lt_of_ne hlt hne
        · exact h.1 _ hz

/-- The set with one more member. -/
def insert (s : NameSet) (x : String) : NameSet :=
  ⟨insertName x s.toList, sorted_insertName x s.sorted⟩

@[simp] theorem mem_insert {s : NameSet} {x z : String} : z ∈ s.insert x ↔ z = x ∨ z ∈ s :=
  mem_insertName

/-- The set with the names of a list added. -/
def insertAll (s : NameSet) (xs : List String) : NameSet :=
  xs.foldl insert s

@[simp] theorem mem_insertAll {s : NameSet} {xs : List String} {z : String} :
    z ∈ s.insertAll xs ↔ z ∈ s ∨ z ∈ xs := by
  induction xs generalizing s with
  | nil => simp [insertAll]
  | cons x rest ih =>
    rw [insertAll, List.foldl_cons, ← insertAll, ih, mem_insert, List.mem_cons]
    grind

/-- The set of the names of a list. -/
def ofList (xs : List String) : NameSet :=
  empty.insertAll xs

@[simp] theorem mem_ofList {xs : List String} {z : String} : z ∈ ofList xs ↔ z ∈ xs := by
  simp [ofList, empty, mem_def (s := ⟨[], _⟩)]

/-- The members of either set. -/
def union (s t : NameSet) : NameSet :=
  s.insertAll t.toList

@[simp] theorem mem_union {s t : NameSet} {z : String} : z ∈ s.union t ↔ z ∈ s ∨ z ∈ t :=
  mem_insertAll

/-! ## Removal -/

/-- The members that satisfy `p`. -/
def filter (p : String → Bool) (s : NameSet) : NameSet :=
  ⟨s.toList.filter p, s.sorted.filter p⟩

@[simp] theorem mem_filter {p : String → Bool} {s : NameSet} {z : String} :
    z ∈ s.filter p ↔ z ∈ s ∧ p z = true := by
  simp [filter, mem_def]

/-- The set without one name. -/
def erase (s : NameSet) (x : String) : NameSet :=
  s.filter (· != x)

@[simp] theorem mem_erase {s : NameSet} {x z : String} : z ∈ s.erase x ↔ z ∈ s ∧ z ≠ x := by
  rw [erase, mem_filter, bne_iff_ne]

/-- The members of `s` that are not members of `t`. -/
def diff (s t : NameSet) : NameSet :=
  s.filter fun x => !t.contains x

@[simp] theorem mem_diff {s t : NameSet} {z : String} : z ∈ s.diff t ↔ z ∈ s ∧ ¬ z ∈ t := by
  rw [diff, mem_filter, ← contains_iff (s := t)]
  cases t.contains z <;> simp

end NameSet

end Entitle
