import Entitle.Proofs.WellFormed
import Entitle.Proofs.Inspecting

/-!
# Permissions that are granted and revoked

What a permission list covers after a grant and after a batch of revocations, and what a purge finds
to revoke. A permission of a list is only ever changed in its privileges, so all of this is said
target by target. A batch is read from front to back, and each revocation drops the permissions that
it leaves empty before the next one looks at the list, but what it leaves on a node is one loss for
each permission.

## Main definitions

* `Permission.revokedBy`: what several revocations take from a permission.
* `Grant.onPath`: the revocations of a batch on a path.
* `Node.strip`: a permission list after each permission has lost something.
* `Overlay.Keeps`, `Overlay.lost`: what a purge keeps of a permission, and what it does not.

## Main statements

* `Grant.mem_sortedOf`, `Grant.sorted_sortedOf`: sorting a list of grants keeps its members and
  puts them in order.
* `Node.any_covers_grantIn`: a grant takes nothing away.
* `Node.strip_strip`: to lose twice is to lose both.
* `State.get?_revokeEach`: every node after a batch.
* `State.mem_acl_revokeEach`, `State.any_covers_revokeEach`: what a batch of revocations leaves.
* `Overlay.excess?_eq_none_iff`, `Overlay.of_excess?_eq_some`: what a purge finds.
-/
namespace Entitle

/-! ## Targets -/

namespace Permission

theorem sameTarget_trans {a b c : Permission} (hab : a.sameTarget b = true)
    (hbc : b.sameTarget c = true) : a.sameTarget c = true := by
  rw [sameTarget_iff] at *
  exact ⟨hab.1.trans hbc.1, hab.2.1.trans hbc.2.1, hab.2.2.trans hbc.2.2⟩

theorem covers_iff {held wanted : Permission} : held.covers wanted = true ↔
    held.sameTarget wanted = true ∧ ∀ x ∈ wanted.privileges, x ∈ held.privileges := by
  rw [covers, Bool.and_eq_true, NameSet.isSubset_iff]

theorem covers_trans {a b c : Permission} (hab : a.covers b = true) (hbc : b.covers c = true) :
    a.covers c = true := by
  rw [covers_iff] at *
  exact ⟨sameTarget_trans hab.1 hbc.1, fun x hx => hab.2 x (hbc.2 x hx)⟩

private theorem covers_withMore {held wanted : Permission} (ps : NameSet)
    (h : held.covers wanted = true) : (held.withMore ps).covers wanted = true := by
  rw [covers_iff] at *
  exact ⟨h.1, fun x hx => NameSet.mem_union.2 (.inl (h.2 x hx))⟩

end Permission

/-! ## Sorted grants -/

namespace Permission

instance : Std.LawfulEqCmp comparePair where
  compare_self {a} := by simp [comparePair]
  eq_of_compare {a b} h := by
    rw [comparePair, Ordering.then_eq_eq] at h
    exact Prod.ext (Std.LawfulEqCmp.eq_of_compare h.1) (Std.LawfulEqCmp.eq_of_compare h.2)

private theorem rank_inj {a b : Effect} (h : rank a = rank b) : a = b := by
  cases a <;> cases b <;> first | rfl | cases h

instance : Std.LawfulEqCmp compare where
  compare_self {a} := by simp [compare, Std.ReflCmp.compare_self]
  eq_of_compare {a b} h := by
    simp only [compare, Ordering.then_eq_eq, Std.LawfulEqCmp.compare_eq_iff_eq] at h
    obtain ⟨hprincipal, heffect, hprivileges, hrestrictions⟩ := h
    obtain ⟨p, e, ⟨ps, hps⟩, ⟨rs, hrs⟩⟩ := a
    obtain ⟨p', e', ⟨ps', hps'⟩, ⟨rs', hrs'⟩⟩ := b
    simp only at hprincipal hprivileges hrestrictions
    cases rank_inj heffect
    subst hprincipal hprivileges hrestrictions
    rfl

end Permission

namespace Grant

instance : Std.LawfulEqCmp compare where
  compare_self {a} := by simp [compare, Std.ReflCmp.compare_self]
  eq_of_compare {a b} h := by
    simp only [compare, Ordering.then_eq_eq, Std.LawfulEqCmp.compare_eq_iff_eq] at h
    cases a
    cases b
    simp only [mk.injEq]
    exact h

/-- Comparing one field after the other is transitive if comparing each field is. -/
theorem transCmp_then {α : Type} {cmp cmp' : α → α → Ordering} [Std.TransCmp cmp]
    [Std.TransCmp cmp'] : Std.TransCmp fun a b => (cmp a b).then (cmp' a b) :=
  inferInstanceAs (Std.TransCmp (compareLex cmp cmp'))

/-- Comparing by one field is transitive. -/
theorem transCmp_field {α β : Type} {cmp : β → β → Ordering} [Std.TransCmp cmp] (f : α → β) :
    Std.TransCmp fun a b => cmp (f a) (f b) where
  eq_swap := Std.OrientedCmp.eq_swap
  isLE_trans := Std.TransCmp.isLE_trans

instance : Std.TransCmp compare := by
  have hpair : Std.TransCmp Permission.comparePair :=
    @transCmp_then _ _ _ (transCmp_field Prod.fst) (transCmp_field Prod.snd)
  have hentry : Std.TransCmp Permission.compare :=
    @transCmp_then _ _ _ (transCmp_field Permission.principal) <|
      @transCmp_then _ _ _ (transCmp_field fun p => Permission.rank (Permission.effect p)) <|
        @transCmp_then _ _ _ (transCmp_field fun p => NameSet.toList (Permission.privileges p))
          (transCmp_field fun p => Table.entries (Permission.restrictions p))
  exact @transCmp_then _ _ _ (transCmp_field Grant.path) (transCmp_field Grant.entry)

theorem mem_insertSorted {g x : Grant} {gs : List Grant} :
    x ∈ insertSorted g gs ↔ x = g ∨ x ∈ gs := by
  induction gs with
  | nil => simp [insertSorted]
  | cons h rest ih =>
    rw [insertSorted]
    cases hcompare : g.compare h with
    | lt => simp
    | eq =>
      rw [Std.LawfulEqCmp.eq_of_compare hcompare]
      simp
    | gt =>
      simp only [List.mem_cons, ih]
      exact or_left_comm

theorem mem_sortedOf {x : Grant} {gs : List Grant} : x ∈ sortedOf gs ↔ x ∈ gs := by
  suffices h : ∀ sorted, x ∈ gs.foldl (fun sorted g => insertSorted g sorted) sorted ↔
      x ∈ sorted ∨ x ∈ gs by simpa [sortedOf] using h []
  induction gs with
  | nil => simp
  | cons g rest ih =>
    intro sorted
    rw [List.foldl_cons, ih, mem_insertSorted, List.mem_cons]
    grind

/-- A strictly sorted list is so with one more grant, too. -/
theorem sorted_insertSorted {g : Grant} {gs : List Grant}
    (h : gs.Pairwise fun a b => a.compare b = .lt) :
    (insertSorted g gs).Pairwise fun a b => a.compare b = .lt := by
  induction gs with
  | nil => exact List.pairwise_singleton _ _
  | cons x rest ih =>
    obtain ⟨hx, hrest⟩ := List.pairwise_cons.1 h
    rw [insertSorted]
    split
    · next hlt =>
      refine List.pairwise_cons.2 ⟨fun y hy => ?_, h⟩
      rcases List.mem_cons.1 hy with rfl | hy
      · exact hlt
      · exact Std.TransCmp.lt_trans hlt (hx y hy)
    · exact h
    · next hgt =>
      refine List.pairwise_cons.2 ⟨fun y hy => ?_, ih hrest⟩
      rcases mem_insertSorted.1 hy with rfl | hy
      · exact Std.OrientedCmp.lt_of_gt hgt
      · exact hx y hy

theorem sorted_sortedOf (gs : List Grant) :
    (sortedOf gs).Pairwise fun a b => a.compare b = .lt := by
  suffices h : ∀ sorted : List Grant, sorted.Pairwise (fun a b => a.compare b = .lt) →
      (gs.foldl (fun sorted g => insertSorted g sorted) sorted).Pairwise
        fun a b => a.compare b = .lt from h [] .nil
  induction gs with
  | nil => exact fun _ h => h
  | cons g rest ih => exact fun sorted h => ih _ (sorted_insertSorted h)

end Grant

/-! ## Grants -/

namespace Node

variable {entry wanted : Permission} {acl : List Permission}

/-- What was granted is covered. -/
theorem any_covers_grantIn_self : (grantIn entry acl).any (·.covers entry) = true := by
  induction acl with
  | nil => simp [grantIn, Permission.covers_iff]
  | cons p rest ih =>
    rw [grantIn]
    split
    · next htarget =>
      refine List.any_eq_true.2 ⟨_, List.mem_cons_self, Permission.covers_iff.2 ⟨htarget, ?_⟩⟩
      exact fun x hx => NameSet.mem_union.2 (.inr hx)
    · rw [List.any_cons, ih, Bool.or_true]

/-- What covers a permission covers what that permission does. -/
theorem any_covers_trans (h : acl.any (·.covers entry) = true)
    (hentry : entry.covers wanted = true) : acl.any (·.covers wanted) = true := by
  obtain ⟨held, hheld, hcovers⟩ := List.any_eq_true.1 h
  exact List.any_eq_true.2 ⟨held, hheld, Permission.covers_trans hcovers hentry⟩

/-- A grant takes nothing away. -/
theorem any_covers_grantIn (h : acl.any (·.covers wanted) = true) :
    (grantIn entry acl).any (·.covers wanted) = true := by
  induction acl with
  | nil => simp at h
  | cons p rest ih =>
    rw [List.any_cons, Bool.or_eq_true] at h
    rw [grantIn]
    split <;> rw [List.any_cons, Bool.or_eq_true]
    · exact h.imp_left (Permission.covers_withMore _)
    · exact h.imp_right ih

end Node

/-! ## Revocations -/

/-- The privileges that revocations take from a permission: those of all revocations with the same
target. -/
def Permission.revokedBy (entries : List Permission) (p : Permission) : NameSet :=
  .ofList ((entries.filter p.sameTarget).flatMap (·.privileges.toList))

/-- The revocations of a batch on a path, in their order. -/
def Grant.onPath (batch : List Grant) (path : String) : List Permission :=
  (batch.filter (·.path == path)).map (·.entry)

namespace Permission

variable {entries : List Permission} {p : Permission} {x : String}

theorem mem_revokedBy : x ∈ p.revokedBy entries ↔
    ∃ e ∈ entries, p.sameTarget e = true ∧ x ∈ e.privileges := by
  simp [revokedBy, NameSet.mem_def (s := privileges _), and_assoc]

/-- A permission that has lost privileges has the same target as before. -/
theorem revokedBy_without (ps : NameSet) :
    (p.without ps).revokedBy entries = p.revokedBy entries := rfl

private theorem revokedBy_cons (e : Permission) : p.revokedBy (e :: entries) =
    (p.revokedBy [e]).union (p.revokedBy entries) :=
  NameSet.ext_mem fun x => by simp [mem_revokedBy]

private theorem without_without (ps qs : NameSet) :
    (p.without ps).without qs = p.without (ps.union qs) := by
  have hprivileges : (p.privileges.diff ps).diff qs = p.privileges.diff (ps.union qs) :=
    NameSet.ext_mem fun x => by simp [not_or, and_assoc]
  rw [without, without, without, hprivileges]

end Permission

theorem Grant.mem_onPath {batch : List Grant} {path : String} {e : Permission} :
    e ∈ onPath batch path ↔ ⟨path, e⟩ ∈ batch := by
  constructor
  · intro h
    obtain ⟨⟨q, e'⟩, hg, rfl⟩ := List.mem_map.1 h
    obtain ⟨hmem, hpath⟩ := List.mem_filter.1 hg
    obtain rfl : q = path := by simpa using hpath
    exact hmem
  · intro h
    exact List.mem_map.2 ⟨⟨path, e⟩, List.mem_filter.2 ⟨h, by simp⟩, rfl⟩

namespace Node

variable {lost lost' : Permission → NameSet} {acl entries : List Permission}

/-- A permission list after each permission has lost something. No permission without privileges
stays, and the others stay in their order. -/
def strip (lost : Permission → NameSet) (acl : List Permission) : List Permission :=
  (acl.map fun p => p.without (lost p)).filter fun p => !p.privileges.isEmpty

theorem strip_cons (p : Permission) : strip lost (p :: acl) =
    if (p.without (lost p)).privileges.isEmpty then strip lost acl
    else p.without (lost p) :: strip lost acl := by
  rw [strip, List.map_cons, List.filter_cons]
  cases (p.without (lost p)).privileges.isEmpty <;> rfl

theorem mem_strip {p : Permission} : p ∈ strip lost acl ↔
    p.privileges.isEmpty = false ∧ ∃ q ∈ acl, q.without (lost q) = p := by
  rw [strip, List.mem_filter, List.mem_map, Bool.not_eq_true', and_comm]

/-- A single revocation. -/
theorem revokeIn_eq_strip (entry : Permission) :
    revokeIn entry acl = strip (·.revokedBy [entry]) acl := by
  rw [revokeIn, strip]
  refine congrArg _ (List.map_congr_left fun p _ => ?_)
  split
  · next htarget =>
    have hlost : p.revokedBy [entry] = entry.privileges :=
      NameSet.ext_mem fun x => by simp [Permission.mem_revokedBy, htarget]
    rw [hlost]
  · next htarget =>
    have hprivileges : p.privileges.diff (p.revokedBy [entry]) = p.privileges :=
      NameSet.ext_mem fun x => by simp [Permission.mem_revokedBy, htarget]
    rw [Permission.without, hprivileges]

/-- To lose twice is to lose both, if the second loss does not depend on the first. A permission
that the first loss leaves empty is gone before the second, and would be gone after it. -/
theorem strip_strip (hlost : ∀ p ps, lost' (p.without ps) = lost' p) :
    strip lost' (strip lost acl) = strip (fun p => (lost p).union (lost' p)) acl := by
  induction acl with
  | nil => rfl
  | cons p rest ih =>
    have hboth : (p.without (lost p)).without (lost' (p.without (lost p))) =
        p.without ((lost p).union (lost' p)) := by
      rw [hlost, Permission.without_without]
    rw [strip_cons, strip_cons]
    split
    · next hempty =>
      have hgone : (p.without ((lost p).union (lost' p))).privileges.isEmpty = true := by
        by_contra hleft
        rw [Bool.not_eq_true] at hleft
        obtain ⟨x, hx⟩ := NameSet.isEmpty_eq_false_iff.1 hleft
        rw [← Permission.without_without] at hx
        have hpos := NameSet.isEmpty_eq_false_iff.2 ⟨x, (NameSet.mem_diff.1 hx).1⟩
        rw [hempty] at hpos
        cases hpos
      rw [if_pos hgone, ih]
    · rw [strip_cons, hboth, ih]

/-- Revocations on one node, one after the other, are one loss. -/
theorem foldl_revoke (h : entries ≠ []) (n : Node) : entries.foldl (fun n e => n.revoke e) n =
    { n with acl := strip (·.revokedBy entries) n.acl } := by
  induction entries generalizing n with
  | nil => exact absurd rfl h
  | cons e rest ih =>
    rw [List.foldl_cons]
    by_cases hrest : rest = []
    · subst hrest
      exact congrArg _ (revokeIn_eq_strip e)
    · have hacl : strip (·.revokedBy rest) (n.revoke e).acl =
          strip (·.revokedBy (e :: rest)) n.acl := by
        rw [revoke, revokeIn_eq_strip, strip_strip fun p ps => p.revokedBy_without ps]
        simp only [← Permission.revokedBy_cons]
      rw [ih hrest, hacl]
      rfl

theorem properties_foldl_revoke (entries : List Permission) (n : Node) :
    (entries.foldl (fun n e => n.revoke e) n).properties = n.properties := by
  by_cases h : entries = []
  · rw [h, List.foldl_nil]
  · rw [foldl_revoke h]

end Node

namespace State

variable {s : State} {batch : List Grant} {path : String} {n n' : Node}

/-- A node after a batch has lost what the batch revokes on its path, one after the other. -/
theorem get?_revokeEach (batch : List Grant) (path : String) :
    (s.revokeEach batch).nodes.get? path = (s.nodes.get? path).map fun n =>
      (Grant.onPath batch path).foldl (fun n e => n.revoke e) n := by
  induction batch generalizing s with
  | nil => simp [revokeEach, Grant.onPath]
  | cons g rest ih =>
    refine (ih (s := s.modifyNode g.path (·.revoke g.entry))).trans ?_
    rw [get?_modifyNode]
    by_cases hpath : path = g.path
    · subst hpath
      simp [Grant.onPath, Function.comp_def]
    · simp [Grant.onPath, hpath, Ne.symm hpath]

/-- The node that a batch leaves: as it was if nothing of the batch is on its path, and otherwise
without all that the batch revokes there. -/
theorem revokeEach_cases (hn : s.nodes.get? path = some n)
    (hn' : (s.revokeEach batch).nodes.get? path = some n') :
    Grant.onPath batch path = [] ∧ n' = n ∨ Grant.onPath batch path ≠ [] ∧
      n' = { n with acl := Node.strip (·.revokedBy (Grant.onPath batch path)) n.acl } := by
  rw [get?_revokeEach, hn, Option.map_some, Option.some_inj] at hn'
  by_cases hnone : Grant.onPath batch path = []
  · rw [hnone] at hn'
    exact .inl ⟨hnone, hn'.symm⟩
  · rw [Node.foldl_revoke hnone] at hn'
    exact .inr ⟨hnone, hn'.symm⟩

/-- Revocations leave the properties of a node as they are. -/
theorem properties_revokeEach (hn : s.nodes.get? path = some n)
    (hn' : (s.revokeEach batch).nodes.get? path = some n') : n'.properties = n.properties := by
  rw [get?_revokeEach, hn, Option.map_some, Option.some_inj] at hn'
  rw [← hn', Node.properties_foldl_revoke]

/-- A permission that a batch of revocations leaves had the same target and at least the same
privileges, and none of those that were revoked. -/
theorem mem_acl_revokeEach (hn : s.nodes.get? path = some n)
    (hn' : (s.revokeEach batch).nodes.get? path = some n') {p : Permission} (hp : p ∈ n'.acl) :
    ∃ q ∈ n.acl, q.sameTarget p = true ∧ ∀ x ∈ p.privileges, x ∈ q.privileges ∧
      ∀ g ∈ batch, g.path = path → g.entry.sameTarget p = true → ¬ x ∈ g.entry.privileges := by
  rcases revokeEach_cases hn hn' with ⟨hnone, rfl⟩ | ⟨-, rfl⟩
  · refine ⟨p, hp, Permission.sameTarget_refl p, fun x hx => ⟨hx, ?_⟩⟩
    rintro g hg rfl
    have hmem : g.entry ∈ Grant.onPath batch g.path := Grant.mem_onPath.2 hg
    rw [hnone] at hmem
    cases hmem
  · obtain ⟨-, q, hq, rfl⟩ := Node.mem_strip.1 hp
    refine ⟨q, hq, Permission.sameTarget_refl q, fun x hx => ?_⟩
    obtain ⟨hxq, hkept⟩ := NameSet.mem_diff.1 hx
    refine ⟨hxq, ?_⟩
    rintro g hg rfl htarget hxg
    exact hkept (Permission.mem_revokedBy.2
      ⟨g.entry, Grant.mem_onPath.2 hg, Permission.sameTarget_symm htarget, hxg⟩)

/-- What is covered stays so, if none of its privileges is revoked. -/
theorem any_covers_revokeEach {wanted : Permission} (hwanted : wanted.privileges.isEmpty = false)
    (hkept : ∀ g ∈ batch, g.path = path → g.entry.sameTarget wanted = true →
      ∀ x ∈ wanted.privileges, ¬ x ∈ g.entry.privileges)
    (hn : s.nodes.get? path = some n) (hn' : (s.revokeEach batch).nodes.get? path = some n')
    (h : n.acl.any (·.covers wanted) = true) : n'.acl.any (·.covers wanted) = true := by
  rcases revokeEach_cases hn hn' with ⟨-, rfl⟩ | ⟨-, rfl⟩
  · exact h
  · obtain ⟨q, hq, hcovers⟩ := List.any_eq_true.1 h
    obtain ⟨htarget, hsub⟩ := Permission.covers_iff.1 hcovers
    have hleft : ∀ x ∈ wanted.privileges,
        x ∈ (q.without (q.revokedBy (Grant.onPath batch path))).privileges := by
      refine fun x hx => NameSet.mem_diff.2 ⟨hsub x hx, fun hlost => ?_⟩
      obtain ⟨e, he, hqe, hxe⟩ := Permission.mem_revokedBy.1 hlost
      exact hkept ⟨path, e⟩ (Grant.mem_onPath.1 he) rfl
        (Permission.sameTarget_trans (Permission.sameTarget_symm hqe) htarget) x hx hxe
    obtain ⟨y, hy⟩ := NameSet.isEmpty_eq_false_iff.1 hwanted
    exact List.any_eq_true.2 ⟨_, Node.mem_strip.2
      ⟨NameSet.isEmpty_eq_false_iff.2 ⟨y, hleft y hy⟩, q, hq, rfl⟩,
      Permission.covers_iff.2 ⟨htarget, hleft⟩⟩

/-- A batch whose nodes all exist goes through. -/
theorem revokeAll_of_hasNode (h : ∀ g ∈ batch, s.hasNode g.path = true) :
    s.revokeAll batch = .ok (s.revokeEach batch) := by
  have hfind : batch.find? (fun g => !s.hasNode g.path) = none :=
    List.find?_eq_none.2 fun g hg => by simp [h g hg]
  rw [revokeAll, hfind]

end State

/-! ## Purges -/

namespace Overlay

variable {principal : Option String} {keep : List Grant} {path : String} {held : Permission}

/-- The privilege of a permission on a node is one that a purge keeps. -/
def Keeps (keep : List Grant) (path : String) (held : Permission) (x : String) : Prop :=
  ∃ g ∈ keep, g.path = path ∧ g.entry.sameTarget held = true ∧ x ∈ g.entry.privileges

/-- What a purge does not keep of a permission on a node. -/
def lost (keep : List Grant) (path : String) (held : Permission) : NameSet :=
  let kept := (keep.filter fun g => g.path == path && g.entry.sameTarget held).flatMap
    (·.entry.privileges.toList)
  held.privileges.filter fun p => !kept.contains p

theorem mem_lost {x : String} :
    x ∈ lost keep path held ↔ x ∈ held.privileges ∧ ¬ Keeps keep path held x := by
  rw [lost, NameSet.mem_filter, Bool.not_eq_true', Bool.eq_false_iff, ne_eq, List.contains_iff_mem]
  simp only [Keeps, List.mem_flatMap, List.mem_filter, Bool.and_eq_true, beq_iff_eq, and_assoc,
    NameSet.mem_def]

theorem excess?_eq : excess? principal keep path held =
    if principal.all (· == held.principal) then
      if (lost keep path held).isEmpty then none
      else some ⟨path, { held with privileges := lost keep path held }⟩
    else none := rfl

/-- A purge leaves a permission alone if it is of another principal or all of it is kept. -/
theorem excess?_eq_none_iff : excess? principal keep path held = none ↔
    (principal.all (· == held.principal) = true →
      ∀ x ∈ held.privileges, Keeps keep path held x) := by
  have hlost : (lost keep path held).isEmpty = true ↔
      ∀ x ∈ held.privileges, Keeps keep path held x := by
    rw [← not_iff_not, Bool.not_eq_true, NameSet.isEmpty_eq_false_iff]
    simp only [mem_lost, not_forall, exists_prop]
  rw [excess?_eq, ← hlost]
  by_cases hprincipal : principal.all (· == held.principal) = true
  · rw [if_pos hprincipal]
    split <;> simp_all
  · rw [if_neg hprincipal]
    exact iff_of_true rfl fun h => absurd h hprincipal

/-- What a purge finds is of its principal, and nothing of it is kept. -/
theorem of_excess?_eq_some {g : Grant} (h : excess? principal keep path held = some g) :
    principal.all (· == held.principal) = true ∧ g.path = path ∧
      held.sameTarget g.entry = true ∧
      ∀ x, x ∈ g.entry.privileges ↔ x ∈ held.privileges ∧ ¬ Keeps keep path held x := by
  rw [excess?_eq] at h
  split at h
  · next hprincipal =>
    split at h
    · cases h
    · cases h
      exact ⟨hprincipal, rfl, Permission.sameTarget_refl held, fun x => mem_lost⟩
  · cases h

end Overlay

namespace Action

variable {s : State}

private theorem node?_of_mem_seen {path p : String} (h : p ∈ Overlay.empty.seen s path) :
    ∃ n, s.nodes.get? p = some n ∧ Path.within p path = true := by
  rw [Overlay.seen_empty, State.subtree, List.mem_filter, Table.mem_keys] at h
  obtain ⟨n, hn⟩ := State.hasNode_eq_true_iff.1 h.1
  exact ⟨n, hn, h.2⟩

/-- What a purge comes down to, without notes. -/
theorem look_inspect_purge_empty (path : String) (principal : Option String)
    (keep : List Grant) : ((purge path principal keep).inspect .empty).look s =
      .ok (if Overlay.empty.excess s path principal keep = [] then .settled "nothing to revoke"
        else .due (.revoke path (Overlay.empty.excess s path principal keep))) := by
  refine look_inspect_purge _ _ fun p hp => ?_
  obtain ⟨n, hn, -⟩ := node?_of_mem_seen hp
  rw [Overlay.node?_empty, hn, Option.isSome_some]

/-- The verdict on a purge, without notes. -/
theorem verdict_purge_empty (path : String) (principal : Option String) (keep : List Grant) :
    (purge path principal keep).verdict .empty s =
      if Overlay.empty.excess s path principal keep = [] then some none
      else some (some (.revoke path (Overlay.empty.excess s path principal keep))) := by
  rw [verdict, look_inspect_purge_empty]
  split <;> rfl

/-- What is due for a purge is that all it finds is revoked. -/
theorem due_purge {path : String} {principal : Option String} {keep : List Grant} {c : Change}
    (h : (purge path principal keep).verdict .empty s = some (some c)) :
    c = .revoke path (Overlay.empty.excess s path principal keep) := by
  rw [verdict_purge_empty] at h
  split at h
  · cases h
  · cases h
    rfl

/-- What a purge finds, node by node. -/
theorem mem_excess {path : String} {principal : Option String} {keep : List Grant} {g : Grant} :
    g ∈ Overlay.empty.excess s path principal keep ↔ ∃ p n held, s.nodes.get? p = some n ∧
      Path.within p path = true ∧ held ∈ n.acl ∧
      Overlay.excess? principal keep p held = some g := by
  rw [Overlay.excess, List.mem_flatMap]
  constructor
  · rintro ⟨p, hp, hg⟩
    obtain ⟨n, hn, hwithin⟩ := node?_of_mem_seen hp
    rw [Overlay.acl_eq ((Overlay.node?_empty p).trans hn), List.mem_filterMap] at hg
    obtain ⟨held, hheld, hg⟩ := hg
    exact ⟨p, n, held, hn, hwithin, hheld, hg⟩
  · rintro ⟨p, n, held, hn, hwithin, hheld, hg⟩
    refine ⟨p, ?_, ?_⟩
    · rw [Overlay.seen_empty, State.subtree, List.mem_filter, Table.mem_keys]
      exact ⟨State.hasNode_eq_true_iff.2 ⟨n, hn⟩, hwithin⟩
    · rw [Overlay.acl_eq ((Overlay.node?_empty p).trans hn), List.mem_filterMap]
      exact ⟨held, hheld, hg⟩

end Action

/-- What a purge finds can be revoked. -/
theorem State.revokeAll_excess (s : State) (path : String) (principal : Option String)
    (keep : List Grant) :
    s.revokeAll (Overlay.empty.excess s path principal keep) =
      .ok (s.revokeEach (Overlay.empty.excess s path principal keep)) := by
  refine revokeAll_of_hasNode fun g hg => ?_
  obtain ⟨p, n, held, hn, -, -, hexcess⟩ := Action.mem_excess.1 hg
  rw [(Overlay.of_excess?_eq_some hexcess).2.1, hasNode_eq_true_iff.2 ⟨n, hn⟩]

/-- A permission that a purge leaves was there, and of its privileges stay only those that the purge
keeps. -/
theorem State.mem_acl_revokeEach_excess {s : State} {path p : String} {principal : Option String}
    {keep : List Grant} {n n' : Node} (hn : s.nodes.get? p = some n)
    (hn' : (s.revokeEach (Overlay.empty.excess s path principal keep)).nodes.get? p = some n')
    {held : Permission} (hheld : held ∈ n'.acl) :
    ∃ before ∈ n.acl, before.sameTarget held = true ∧ ∀ x ∈ held.privileges,
      x ∈ before.privileges ∧ (Path.within p path = true →
        principal.all (· == held.principal) = true → Overlay.Keeps keep p held x) := by
  obtain ⟨before, hbefore, htarget, hprivileges⟩ := mem_acl_revokeEach hn hn' hheld
  refine ⟨before, hbefore, htarget, fun x hx => ⟨(hprivileges x hx).1, ?_⟩⟩
  intro hwithin hprincipal
  rw [← (Permission.sameTarget_iff.1 htarget).1] at hprincipal
  by_contra hlost
  have hnotKept : ¬ Overlay.Keeps keep p before x := fun ⟨g, hg, hpath, hentry, hxg⟩ =>
    hlost ⟨g, hg, hpath, Permission.sameTarget_trans hentry htarget, hxg⟩
  cases hexcess : Overlay.excess? principal keep p before with
  | none =>
    exact hnotKept (Overlay.excess?_eq_none_iff.1 hexcess hprincipal x (hprivileges x hx).1)
  | some g =>
    obtain ⟨-, hpath, hentry, hrevoked⟩ := Overlay.of_excess?_eq_some hexcess
    have hmem := Action.mem_excess.2 ⟨p, n, before, hn, hwithin, hbefore, hexcess⟩
    have hentryHeld := Permission.sameTarget_trans (Permission.sameTarget_symm hentry) htarget
    exact (hprivileges x hx).2 g hmem hpath hentryHeld
      ((hrevoked x).2 ⟨(hprivileges x hx).1, hnotKept⟩)

/-- What is covered stays so, if a purge finds nothing in it. -/
theorem State.any_covers_revokeEach_excess {s : State} {path p : String}
    {principal : Option String} {keep : List Grant} {wanted : Permission}
    (hwanted : wanted.privileges.isEmpty = false)
    (hkept : Path.within p path = true → Overlay.excess? principal keep p wanted = none)
    {n n' : Node} (hn : s.nodes.get? p = some n)
    (hn' : (s.revokeEach (Overlay.empty.excess s path principal keep)).nodes.get? p = some n')
    (h : n.acl.any (·.covers wanted) = true) : n'.acl.any (·.covers wanted) = true := by
  refine any_covers_revokeEach hwanted ?_ hn hn' h
  intro g hg hpath htarget x hx hxg
  obtain ⟨q, m, held, -, hwithin, -, hexcess⟩ := Action.mem_excess.1 hg
  obtain ⟨hprincipal, hq, hgtarget, hprivileges⟩ := Overlay.of_excess?_eq_some hexcess
  obtain rfl : q = p := hq.symm.trans hpath
  have hheld : held.sameTarget wanted = true := Permission.sameTarget_trans hgtarget htarget
  rw [(Permission.sameTarget_iff.1 hheld).1] at hprincipal
  obtain ⟨k, hk, hkpath, hktarget, hxk⟩ :=
    Overlay.excess?_eq_none_iff.1 (hkept hwithin) hprincipal x hx
  exact ((hprivileges x).1 hxg).2 ⟨k, hk, hkpath,
    Permission.sameTarget_trans hktarget (Permission.sameTarget_symm hheld), hxk⟩

end Entitle
