import Entitle.Proofs.Overlays
import Entitle.Proofs.Permissions

/-!
# Doubts of a forecast

A forecast notes the principals and the subtrees that earlier actions would create, move and
remove; permissions it reads as they are now. So it does not always see what an application would
find, and what may differ is kept here as doubts: permissions that an earlier action would grant or
revoke, and places in the copy of a subtree in which earlier notes stand. Through an overlay and
but for the doubts, a forecast sees the state that an application has come to.

## Main definitions

* `Doubts`: where an application may not find what a forecast sees.
* `Doubts.mayHold`, `Doubts.mayCover`: estimates from above of what is held and covered at a place.
* `Doubts.after`, `Doubts.spares`: the doubts after an action, and the actions that do not hang on
  them.
* `Node.Mirrors`, `Mirrors`: a node, and a state, are seen as they are, but for the doubts.

## Main statements

* `Node.Mirrors.grant`, `Node.Mirrors.purge`: a node is still mirrored after a grant or a purge.
* `Mirrors.of_principals`, `Mirrors.of_nodes`, `Mirrors.of_tree`: a state is still mirrored when its
  principals, its nodes or its tree change.
-/
namespace Entitle

/-! ## Doubts -/

/-- Would a purge find something in the permission if a node at the place had it? -/
def Permission.isPurged (path : String) (principal : Option String) (keep : List Grant)
    (place : String) (p : Permission) : Bool :=
  Path.within place path && (Overlay.excess? principal keep place p).isSome

/-- The permission with other privileges. -/
def Permission.withOnly (p : Permission) (privileges : NameSet) : Permission :=
  { p with privileges }

/-- A purge finds nothing in a privilege that it keeps. -/
theorem Permission.isPurged_eq_false {path place x : String} {principal : Option String}
    {keep : List Grant} {held wanted : Permission} (htarget : held.sameTarget wanted = true)
    (h : Path.within place path = true → principal.all (· == held.principal) = true →
      Overlay.Keeps keep place held x) :
    (wanted.withOnly (.ofList [x])).isPurged path principal keep place = false := by
  rw [isPurged, Bool.and_eq_false_imp]
  intro hwithin
  have hnone : Overlay.excess? principal keep place (wanted.withOnly (.ofList [x])) = none := by
    refine Overlay.excess?_eq_none_iff.2 fun hprincipal y hy => ?_
    obtain rfl : y = x := by simpa [withOnly] using hy
    obtain ⟨g, hg, hpath, hentry, hy⟩ := h hwithin (by
      rwa [(sameTarget_iff.1 htarget).1])
    exact ⟨g, hg, hpath, sameTarget_trans hentry htarget, hy⟩
  rw [hnone, Option.isSome_none]

/-- Where an application may not find what a forecast sees. -/
structure Doubts where
  /-- Places where a node is seen that may be missing, or the other way around. -/
  places : String → Bool
  /-- Permissions that may not be covered at a place although they seem to be. -/
  lost : String → Permission → Bool
  /-- What was granted at a place with the target of a permission, and was not purged since. -/
  granted : String → Permission → NameSet

namespace Doubts

/-- No doubts. -/
def none : Doubts := ⟨fun _ => false, fun _ _ => false, fun _ _ => .empty⟩

/-- The doubts when a permission is granted: what it covers is there then. -/
def grant (d : Doubts) (path : String) (entry : Permission) : Doubts :=
  { d with
    lost := fun p wanted => d.lost p wanted && !(p == path && entry.covers wanted)
    granted := fun p wanted =>
      if p = path ∧ entry.sameTarget wanted = true then
        (d.granted p wanted).union entry.privileges
      else d.granted p wanted }

/-- The doubts when a subtree is purged: a permission is lost if the purge finds something in it,
and of what was granted stays what the purge does not find. -/
def purge (d : Doubts) (path : String) (principal : Option String) (keep : List Grant) : Doubts :=
  { d with
    lost := fun p wanted => d.lost p wanted || wanted.isPurged path principal keep p
    granted := fun p wanted => (d.granted p wanted).filter fun x =>
      !(wanted.withOnly (.ofList [x])).isPurged path principal keep p }

/-- The doubts when the subtree at a path is gone. -/
def drop (d : Doubts) (path : String) : Doubts :=
  { d with places := fun p => d.places p && !Path.within p path }

/-- The doubts when a subtree is put somewhere: those that there were at its source, and those
about the places that earlier notes decided there. -/
def put (d : Doubts) (o : Overlay) (source target : String) : Doubts where
  places p :=
    if Path.within p target then
      d.places (Path.rebase p target source) || o.divides source (Path.rebase p target source)
    else d.places p
  lost p := d.lost (if Path.within p target then Path.rebase p target source else p)
  granted p := d.granted (if Path.within p target then Path.rebase p target source else p)

/-- The privilege may be held where a permission is seen that is held there: it was granted, or it
is one of that permission and may not have been purged. -/
def mayHold (d : Doubts) (path : String) (held wanted : Permission) (x : String) : Bool :=
  (d.granted path wanted).contains x ||
    (held.privileges.contains x && !d.lost path (wanted.withOnly (.ofList [x])))

/-- May a permission be covered at a place although none that is seen there covers it? Each of its
privileges has to be granted or to be held in one permission with the same target, if any is. -/
def mayCover (d : Doubts) (path : String) (acl : List Permission) (wanted : Permission) : Bool :=
  (wanted.withOnly .empty :: acl).any fun held =>
    held.sameTarget wanted && wanted.privileges.toList.all (d.mayHold path held wanted)

theorem mayHold_iff {d : Doubts} {path x : String} {held wanted : Permission} :
    d.mayHold path held wanted x = true ↔ x ∈ d.granted path wanted ∨
      x ∈ held.privileges ∧ d.lost path (wanted.withOnly (.ofList [x])) = false := by
  simp [mayHold]

/-- What may be held still may be after a grant. -/
theorem mayHold_grant {d : Doubts} {p x : String} {held wanted : Permission} (path : String)
    (entry : Permission) (h : d.mayHold p held wanted x = true) :
    (d.grant path entry).mayHold p held wanted x = true := by
  refine mayHold_iff.2 ((mayHold_iff.1 h).imp (fun hgranted => ?_) fun hheld => ⟨hheld.1, ?_⟩)
  · rw [grant]
    dsimp only
    split
    · exact NameSet.mem_union.2 (.inl hgranted)
    · exact hgranted
  · rw [grant]
    dsimp only
    rw [hheld.2, Bool.false_and]

/-- The privileges of a grant may be held in every permission with its target. -/
theorem mayHold_grant_self {d : Doubts} {path x : String} {entry held wanted : Permission}
    (htarget : entry.sameTarget wanted = true) (hx : x ∈ entry.privileges) :
    (d.grant path entry).mayHold path held wanted x = true := by
  refine mayHold_iff.2 (.inl ?_)
  rw [grant]
  dsimp only
  rw [if_pos ⟨rfl, htarget⟩]
  exact NameSet.mem_union.2 (.inr hx)

private theorem mayCover_iff {d : Doubts} {path : String} {acl : List Permission}
    {wanted : Permission} :
    d.mayCover path acl wanted = true ↔ ∃ held ∈ wanted.withOnly .empty :: acl,
      held.sameTarget wanted = true ∧
        ∀ x ∈ wanted.privileges, d.mayHold path held wanted x = true := by
  simp only [mayCover, List.any_eq_true, Bool.and_eq_true, List.all_eq_true, NameSet.mem_def]

/-- The doubts after an action that does not fail in a forecast. -/
def after (s : State) (o : Overlay) (d : Doubts) : Action → Doubts
  | .setPermission path entry =>
    if (o.acl s path).any (·.covers entry) && !d.lost path entry then d else d.grant path entry
  | .purge path principal keep => d.purge path principal keep
  | .copy source target => if (o.node? s target).isSome then d else d.put o source target
  | .move source target =>
    if (o.node? s target).isSome then d else (d.put o source target).drop source
  | .delete path => if (o.node? s path).isSome then d.drop path else d
  | _ => d

/-- Does nothing hang on a doubt when the action is taken? -/
def spares (s : State) (o : Overlay) (d : Doubts) : Action → Bool
  | .setPermission path _ | .setProperty path _ _ | .delete path => !d.places path
  | .copy source target | .move source target =>
    !d.places source && !d.places target && (Path.parent? target).all (!d.places ·)
  | .checkPermission path entry =>
    !d.places path && (o.node? s path).all fun n =>
      if n.acl.any (·.covers entry) then !d.lost path entry else !d.mayCover path n.acl entry
  | _ => true

end Doubts

/-! ## Mirrored states -/

/-- A node that is seen at a place shows what another one covers, but for the doubts: what it covers
is covered there unless it may be lost, and what is held there it holds, or it may be held. -/
structure Node.Mirrors (d : Doubts) (place : String) (m n : Node) : Prop where
  kept : ∀ {wanted}, wanted.privileges.isEmpty = false → d.lost place wanted = false →
    m.acl.any (·.covers wanted) = true → n.acl.any (·.covers wanted) = true
  bounded : ∀ {wanted held}, held ∈ n.acl → held.sameTarget wanted = true →
    ∃ seen ∈ wanted.withOnly .empty :: m.acl, seen.sameTarget wanted = true ∧
      ∀ x ∈ held.privileges, d.mayHold place seen wanted x = true

namespace Node.Mirrors

variable {d d' : Doubts} {p q : String} {m n : Node}

/-- What is covered is seen to be covered, or may be covered. -/
theorem mayCover (h : m.Mirrors d p n) {wanted : Permission}
    (hcovered : n.acl.any (·.covers wanted) = true) : d.mayCover p m.acl wanted = true := by
  obtain ⟨held, hheld, hcovers⟩ := List.any_eq_true.1 hcovered
  obtain ⟨htarget, hsub⟩ := Permission.covers_iff.1 hcovers
  obtain ⟨seen, hseen, hseenTarget, hmay⟩ := h.bounded hheld htarget
  exact Doubts.mayCover_iff.2 ⟨seen, hseen, hseenTarget, fun x hx => hmay x (hsub x hx)⟩

/-- The same node with the same doubts about permissions at another place. -/
theorem of_eq (h : m.Mirrors d q n) (hlost : d'.lost p = d.lost q)
    (hgranted : d'.granted p = d.granted q) : m.Mirrors d' p n where
  kept := by
    rw [hlost]
    exact h.kept
  bounded := by
    simp only [Doubts.mayHold, hlost, hgranted]
    exact h.bounded

/-- A node mirrors itself. -/
theorem refl (n : Node) : n.Mirrors .none p n where
  kept _ _ hcovered := hcovered
  bounded {_ held} hheld htarget := ⟨held, List.mem_cons_of_mem _ hheld, htarget, fun _ hx =>
    Doubts.mayHold_iff.2 (.inr ⟨hx, rfl⟩)⟩

/-- What was covered, or is by what is granted at the place, is covered after a grant. -/
private theorem kept_grant {n' : Node} {path : String} {entry wanted : Permission}
    (h : m.Mirrors d p n) (hentry : p = path → n'.acl.any (·.covers entry) = true)
    (hmore : n.acl.any (·.covers wanted) = true → n'.acl.any (·.covers wanted) = true)
    (hwanted : wanted.privileges.isEmpty = false)
    (hlost : (d.grant path entry).lost p wanted = false)
    (hcovered : m.acl.any (·.covers wanted) = true) : n'.acl.any (·.covers wanted) = true := by
  rcases Bool.and_eq_false_iff.1 hlost with hlost | hgranted
  · exact hmore (h.kept hwanted hlost hcovered)
  · obtain ⟨hplace, hcovers⟩ : p = path ∧ entry.covers wanted = true := by simpa using hgranted
    exact Node.any_covers_trans (hentry hplace) hcovers

/-- What is held may be held still after a grant. -/
private theorem bounded_grant (h : m.Mirrors d p n) (path : String) (entry : Permission)
    {wanted held : Permission} (hheld : held ∈ n.acl) (htarget : held.sameTarget wanted = true) :
    ∃ seen ∈ wanted.withOnly .empty :: m.acl, seen.sameTarget wanted = true ∧
      ∀ x ∈ held.privileges, (d.grant path entry).mayHold p seen wanted x = true := by
  obtain ⟨seen, hseen, hseenTarget, hmay⟩ := h.bounded hheld htarget
  exact ⟨seen, hseen, hseenTarget, fun x hx => Doubts.mayHold_grant path entry (hmay x hx)⟩

/-- A grant leaves a node alone that is elsewhere, or that covers already what is granted. -/
theorem grant_doubts {path : String} {entry : Permission} (h : m.Mirrors d p n)
    (hentry : p = path → n.acl.any (·.covers entry) = true) :
    m.Mirrors (d.grant path entry) p n where
  kept hwanted hlost hcovered := h.kept_grant hentry id hwanted hlost hcovered
  bounded hheld htarget := h.bounded_grant path entry hheld htarget

/-- A grant that a forecast does not see is kept in mind. -/
theorem grant (h : m.Mirrors d p n) (entry : Permission) :
    m.Mirrors (d.grant p entry) p (n.grant entry) where
  kept hwanted hlost hcovered :=
    h.kept_grant (fun _ => Node.any_covers_grantIn_self) Node.any_covers_grantIn hwanted hlost
      hcovered
  bounded {wanted held} hheld htarget := by
    rcases Node.mem_grantIn hheld with rfl | hheld | ⟨before, hbefore, hentry, rfl⟩
    · exact ⟨_, List.mem_cons_self, Permission.sameTarget_refl wanted, fun x hx =>
        Doubts.mayHold_grant_self htarget hx⟩
    · exact h.bounded_grant p entry hheld htarget
    · -- the permission that was there has the privileges of the grant, too
      have hgranted : entry.sameTarget wanted = true :=
        Permission.sameTarget_trans (Permission.sameTarget_symm hentry) htarget
      obtain ⟨seen, hseen, hseenTarget, hmay⟩ := h.bounded_grant p entry hbefore htarget
      refine ⟨seen, hseen, hseenTarget, fun x hx => ?_⟩
      exact (NameSet.mem_union.1 hx).elim (hmay x) (Doubts.mayHold_grant_self hgranted)

/-- After a purge nothing may be held that the purge finds. -/
theorem purge {n' : Node} (h : m.Mirrors d p n) {path : String} {principal : Option String}
    {keep : List Grant}
    (hkept : ∀ {wanted}, wanted.privileges.isEmpty = false →
      wanted.isPurged path principal keep p = false →
      n.acl.any (·.covers wanted) = true → n'.acl.any (·.covers wanted) = true)
    (hleft : ∀ {held wanted}, held ∈ n'.acl → held.sameTarget wanted = true →
      ∃ before ∈ n.acl, before.sameTarget wanted = true ∧ ∀ x ∈ held.privileges,
        x ∈ before.privileges ∧
          (wanted.withOnly (.ofList [x])).isPurged path principal keep p = false) :
    m.Mirrors (d.purge path principal keep) p n' where
  kept hwanted hlost hcovered := by
    obtain ⟨hbefore, hpurge⟩ := Bool.or_eq_false_iff.1 hlost
    exact hkept hwanted hpurge (h.kept hwanted hbefore hcovered)
  bounded {wanted held} hheld htarget := by
    obtain ⟨before, hbefore, hbeforeTarget, hprivileges⟩ := hleft hheld htarget
    obtain ⟨seen, hseen, hseenTarget, hmay⟩ := h.bounded hbefore hbeforeTarget
    refine ⟨seen, hseen, hseenTarget, fun x hx => ?_⟩
    obtain ⟨hxBefore, hx⟩ := hprivileges x hx
    refine Doubts.mayHold_iff.2 ((Doubts.mayHold_iff.1 (hmay x hxBefore)).imp ?_ ?_)
    · exact fun hgranted => NameSet.mem_filter.2 ⟨hgranted, by simp [hx]⟩
    · exact fun hseen => ⟨hseen.1, Bool.or_eq_false_iff.2 ⟨hseen.2, hx⟩⟩

end Node.Mirrors

/-- Through the overlay a forecast sees of `s₀` what there is in `s`, but for the doubts. -/
structure Mirrors (s₀ : State) (o : Overlay) (d : Doubts) (s : State) : Prop where
  tree : s.Tree
  members : s.MembersSound
  sound : o.Sound
  kind : ∀ id, o.kind? s₀ id = (s.principals.get? id).map (·.kind)
  hasNode : ∀ {p}, Path.IsPath p → d.places p = false → (o.node? s₀ p).isSome = s.hasNode p
  node : ∀ {p m n}, Path.IsPath p → d.places p = false → o.node? s₀ p = some m →
    s.nodes.get? p = some n → m.Mirrors d p n

namespace Mirrors

variable {s₀ s s' : State} {o o' : Overlay} {d d' : Doubts} {path : String}

/-- Without notes and doubts every state is seen as it is. -/
theorem start (htree : s.Tree) (hmembers : s.MembersSound) : Mirrors s .empty .none s where
  tree := htree
  members := hmembers
  sound := .empty
  kind id := Overlay.kind?_empty id
  hasNode {p} _ _ := Overlay.isSome_node?_empty p
  node {p m n} _ _ hm hn := by
    rw [Overlay.node?_empty] at hm
    cases hm.symm.trans hn
    exact .refl m

/-- Another state with the same nodes, seen through the same notes about them. -/
theorem of_principals (h : Mirrors s₀ o d s) (hnodes : s'.nodes = s.nodes)
    (honodes : o'.nodes = o.nodes) (hmembers : s'.MembersSound)
    (hkind : ∀ id, o'.kind? s₀ id = (s'.principals.get? id).map (·.kind)) :
    Mirrors s₀ o' d s' := by
  have hnode : ∀ p, o'.node? s₀ p = o.node? s₀ p := by
    intro p
    simp only [Overlay.node?, Overlay.backing, Overlay.nearest?, honodes]
  have hhas : ∀ p, s'.hasNode p = s.hasNode p := by
    intro p
    rw [State.hasNode, hnodes, State.hasNode]
  refine ⟨h.tree.of_hasNode_eq hhas, hmembers, ⟨?_, ?_⟩, hkind, fun {p} hp hplace => ?_,
    fun {p m n} hp hplace hm hn => ?_⟩
  · rw [honodes]
    exact h.sound.place
  · rw [honodes]
    exact h.sound.origin
  · rw [hnode, hhas, h.hasNode hp hplace]
  · rw [hnode] at hm
    rw [hnodes] at hn
    exact h.node hp hplace hm hn

/-- Another state with the same principals and nodes at the same paths. -/
theorem of_nodes (h : Mirrors s₀ o d s) (hprincipals : s'.principals = s.principals)
    (hhas : ∀ p, s'.hasNode p = s.hasNode p) (hplaces : d'.places = d.places)
    (hnode : ∀ {p} {m n n' : Node}, s.nodes.get? p = some n → s'.nodes.get? p = some n' →
      m.Mirrors d p n → m.Mirrors d' p n') :
    Mirrors s₀ o d' s' where
  tree := h.tree.of_hasNode_eq hhas
  members := h.members.of_principals_eq hprincipals
  sound := h.sound
  kind id := by rw [h.kind, hprincipals]
  hasNode {p} hp hplace := by
    rw [hplaces] at hplace
    rw [hhas, h.hasNode hp hplace]
  node {p m n'} hp hplace hm hn' := by
    rw [hplaces] at hplace
    obtain ⟨n, hn⟩ := State.hasNode_eq_true_iff.1
      ((hhas p).symm.trans (State.hasNode_eq_true_iff.2 ⟨n', hn'⟩))
    exact hnode hn hn' (h.node hp hplace hm hn)

/-- Another tree, seen through other notes, where at every path beyond doubt there is nothing, or
what there was at a path beyond doubt. -/
theorem of_tree (h : Mirrors s₀ o d s) (htree : s'.Tree)
    (hprincipals : s'.principals = s.principals) (hsound : o'.Sound)
    (hoprincipals : o'.principals = o.principals)
    (hnodes : ∀ {p}, Path.IsPath p → d'.places p = false →
      (o'.node? s₀ p = none ∧ s'.nodes.get? p = none) ∨
        ∃ q, Path.IsPath q ∧ d.places q = false ∧ o'.node? s₀ p = o.node? s₀ q ∧
          s'.nodes.get? p = s.nodes.get? q ∧ d'.lost p = d.lost q ∧ d'.granted p = d.granted q) :
    Mirrors s₀ o' d' s' where
  tree := htree
  members := h.members.of_principals_eq hprincipals
  sound := hsound
  kind id := by
    rw [hprincipals, ← h.kind id, Overlay.kind?, hoprincipals, Overlay.kind?]
  hasNode {p} hp hplace := by
    rw [State.hasNode, Table.contains]
    rcases hnodes hp hplace with ⟨hm, hn⟩ | ⟨q, hq, hqplace, hm, hn, -⟩
    · rw [hm, hn]
    · rw [hm, hn]
      exact h.hasNode hq hqplace
  node {p m n} hp hplace hm hn := by
    rcases hnodes hp hplace with ⟨hm', -⟩ | ⟨q, hq, hqplace, hm', hn', hlost, hgranted⟩
    · rw [hm] at hm'
      cases hm'
    · exact (h.node hq hqplace (hm'.symm.trans hm) (hn'.symm.trans hn)).of_eq hlost hgranted

/-- A path beyond doubt has a node both ways, or none. -/
theorem node_cases (h : Mirrors s₀ o d s) {p : String} (hp : Path.IsPath p)
    (hplace : d.places p = false) :
    (o.node? s₀ p = none ∧ s.nodes.get? p = none) ∨
      ∃ m n, o.node? s₀ p = some m ∧ s.nodes.get? p = some n := by
  have hhas := h.hasNode hp hplace
  rw [State.hasNode, Table.contains] at hhas
  cases hm : o.node? s₀ p with
  | none =>
    rw [hm] at hhas
    exact .inl ⟨rfl, Option.not_isSome_iff_eq_none.1 (by simp [← hhas])⟩
  | some m =>
    rw [hm] at hhas
    obtain ⟨n, hn⟩ := Option.isSome_iff_exists.1 hhas.symm
    exact .inr ⟨m, n, rfl, hn⟩

end Mirrors

end Entitle
