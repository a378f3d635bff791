import Mathlib.Control.Monad.Basic
import Entitle.Proofs.Compiling
import Entitle.Proofs.Trees
import Entitle.Proofs.Undisturbed

/-!
# Well-formed states

What a repository promises about its state: the nodes form a tree, principals are found under their
own ids, only groups have members and all of them exist, and a node has no two permissions with the
same target and none without privileges. No run of a compiled plan breaks these promises, however
the repository replies on the way.

## Main definitions

* `Node.Canonical`, `State.MembersSound`, `State.WellFormed`: the promises.
* `Call.Sound`: calls that keep them.
* `Call.rearranges`: calls after which nodes are at other paths.

## Main statements

* `State.WellFormed.answer`: a sound call keeps the promises.
* `Action.sound_of_problems`: the calls of a compiled action are sound.
* `State.WellFormed.execute`: a run of a compiled plan keeps the promises.
-/
namespace Entitle

/-! ## Permission lists -/

/-- No two permissions of the node have the same target, and none is without privileges. -/
structure Node.Canonical (n : Node) : Prop where
  distinct : n.acl.Pairwise fun a b => a.sameTarget b = false
  nonempty : ∀ p ∈ n.acl, p.privileges.isEmpty = false

namespace Permission

@[simp] theorem sameTarget_withMore (a b : Permission) (ps : NameSet) :
    (a.withMore ps).sameTarget b = a.sameTarget b := rfl

@[simp] theorem sameTarget_withMore_right (a b : Permission) (ps : NameSet) :
    a.sameTarget (b.withMore ps) = a.sameTarget b := rfl

@[simp] theorem sameTarget_without (a b : Permission) (ps : NameSet) :
    (a.without ps).sameTarget b = a.sameTarget b := rfl

@[simp] theorem sameTarget_without_right (a b : Permission) (ps : NameSet) :
    a.sameTarget (b.without ps) = a.sameTarget b := rfl

end Permission

theorem NameSet.isEmpty_eq_false_iff {s : NameSet} : s.isEmpty = false ↔ ∃ x, x ∈ s := by
  simp only [isEmpty, mem_def, List.isEmpty_eq_false_iff_exists_mem]

namespace Node

variable {entry : Permission} {acl : List Permission}

/-- A permission of a list to which one was granted. -/
theorem mem_grantIn {p : Permission} (h : p ∈ grantIn entry acl) :
    p = entry ∨ p ∈ acl ∨
      ∃ q ∈ acl, q.sameTarget entry = true ∧ p = q.withMore entry.privileges := by
  induction acl with
  | nil => exact .inl (List.mem_singleton.1 h)
  | cons q rest ih =>
    rw [grantIn] at h
    split at h
    · next htarget =>
      rcases List.mem_cons.1 h with h | h
      · exact .inr (.inr ⟨q, List.mem_cons_self, htarget, h⟩)
      · exact .inr (.inl (List.mem_cons_of_mem _ h))
    · rcases List.mem_cons.1 h with h | h
      · exact .inr (.inl (h ▸ List.mem_cons_self))
      · rcases ih h with h | h | ⟨r, hr, h⟩
        · exact .inl h
        · exact .inr (.inl (List.mem_cons_of_mem _ h))
        · exact .inr (.inr ⟨r, List.mem_cons_of_mem _ hr, h⟩)

private theorem distinct_grantIn (h : acl.Pairwise fun a b => a.sameTarget b = false) :
    (grantIn entry acl).Pairwise fun a b => a.sameTarget b = false := by
  induction acl with
  | nil => simp [grantIn]
  | cons q rest ih =>
    rw [List.pairwise_cons] at h
    rw [grantIn]
    split
    · exact List.pairwise_cons.2 ⟨fun p hp => h.1 p hp, h.2⟩
    · next hq =>
      refine List.pairwise_cons.2 ⟨fun p hp => ?_, ih h.2⟩
      rcases mem_grantIn hp with rfl | hp | ⟨r, hr, -, rfl⟩
      · simpa using hq
      · exact h.1 p hp
      · exact h.1 r hr

theorem Canonical.grant {n : Node} (hn : n.Canonical) (h : entry.privileges.isEmpty = false) :
    (n.grant entry).Canonical := by
  refine ⟨distinct_grantIn hn.distinct, fun p hp => ?_⟩
  rcases mem_grantIn hp with rfl | hp | ⟨q, hq, -, rfl⟩
  · exact h
  · exact hn.nonempty p hp
  · obtain ⟨x, hx⟩ := NameSet.isEmpty_eq_false_iff.1 (hn.nonempty q hq)
    exact NameSet.isEmpty_eq_false_iff.2 ⟨x, NameSet.mem_union.2 (.inl hx)⟩

theorem Canonical.revoke {n : Node} (hn : n.Canonical) : (n.revoke entry).Canonical := by
  refine ⟨?_, fun p hp => ?_⟩
  · refine List.Pairwise.filter _ (List.pairwise_map.2 (hn.distinct.imp fun {a b} hab => ?_))
    split <;> split <;> exact hab
  · have := (List.mem_filter.1 hp).2
    simpa using this

theorem Canonical.setProperty {n : Node} (hn : n.Canonical) (key value : String) :
    (n.setProperty key value).Canonical :=
  ⟨hn.distinct, hn.nonempty⟩

end Node

/-! ## States -/

namespace State

/-- Only groups have members, and all members exist. -/
structure MembersSound (s : State) : Prop where
  user : ∀ {id p}, s.principals.get? id = some p → p.kind = .user → ∀ m, ¬ m ∈ p.members
  member : ∀ {id p m}, s.principals.get? id = some p → m ∈ p.members →
    s.principals.contains m = true

/-- What a repository promises about its state. -/
structure WellFormed (s : State) : Prop where
  tree : s.Tree
  ids : ∀ {id p}, s.principals.get? id = some p → p.id = id
  members : s.MembersSound
  acls : ∀ {path n}, s.nodes.get? path = some n → n.Canonical

end State

/-- A call that keeps what a repository promises. -/
def Call.Sound : Call → Prop
  | setPermission _ entry => entry.privileges.isEmpty = false
  | copy source target | move source target =>
    Path.IsPath source ∧ Path.IsPath target ∧ ¬ Path.within target source = true
  | delete path => Path.IsPath path
  | _ => True

/-- Calls that put nodes at other places or take them away. -/
def Call.rearranges : Call → Bool
  | copy .. | move .. | delete _ => true
  | principal _ | ensurePrincipal .. | addMember .. | removeMember .. | readPermissions _
  | setPermission .. | revokePermissions _ | descendants _ | nodeExists _ | property ..
  | setProperty .. | commit => false

/-- A call that only reads is sound. -/
theorem Call.sound_of_not_mutates {c : Call} (hc : c.mutates = false) : c.Sound := by
  cases c <;> trivial

namespace State

variable {s s' : State}

/-! ### Checking the promises -/

private theorem membersSound_iff : s.MembersSound ↔ ∀ e ∈ s.principals.entries,
    (e.2.kind = .user → e.2.members.toList = []) ∧
      ∀ m ∈ e.2.members.toList, s.principals.contains m = true := by
  constructor
  · rintro hs ⟨id, p⟩ he
    have hp := Table.get?_eq_some_iff.2 he
    exact ⟨fun hkind => List.eq_nil_iff_forall_not_mem.2 (hs.user hp hkind),
      fun m hm => hs.member hp hm⟩
  · intro h
    refine ⟨fun {id p} hp hkind m hm => ?_, fun {id p m} hp hm => ?_⟩
    · have hnil := (h _ (Table.get?_eq_some_iff.1 hp)).1 hkind
      rw [NameSet.mem_def, hnil] at hm
      cases hm
    · exact (h _ (Table.get?_eq_some_iff.1 hp)).2 m hm

instance : Decidable s.MembersSound :=
  decidable_of_iff' _ membersSound_iff

instance (n : Node) : Decidable n.Canonical :=
  decidable_of_iff (n.acl.Pairwise (fun a b => a.sameTarget b = false) ∧
    ∀ p ∈ n.acl, p.privileges.isEmpty = false) ⟨fun h => ⟨h.1, h.2⟩, fun h => ⟨h.1, h.2⟩⟩

private theorem wellFormed_iff :
    s.WellFormed ↔ s.Tree ∧ (∀ e ∈ s.principals.entries, e.2.id = e.1) ∧
      s.MembersSound ∧ ∀ e ∈ s.nodes.entries, e.2.Canonical := by
  constructor
  · intro hs
    exact ⟨hs.tree, fun e he => hs.ids (Table.get?_eq_some_iff.2 he), hs.members,
      fun e he => hs.acls (Table.get?_eq_some_iff.2 he)⟩
  · rintro ⟨htree, hids, hmembers, hacls⟩
    exact ⟨htree, fun hp => hids _ (Table.get?_eq_some_iff.1 hp), hmembers,
      fun hn => hacls _ (Table.get?_eq_some_iff.1 hn)⟩

instance : Decidable s.WellFormed :=
  decidable_of_iff' _ wellFormed_iff

/-! ### Operations that go through -/

theorem done_eq_ok {outcome : Except Refusal State} {u : Unit}
    (h : done outcome = .ok (u, s')) : outcome = .ok s' := by
  cases outcome with
  | error e => simp [done, Except.map] at h
  | ok t =>
    simp only [done, Except.map, Except.ok.injEq, Prod.mk.injEq, true_and] at h
    rw [h]

theorem changeNode_eq_ok {path : String} {f : Node → Node} (h : s.changeNode path f = .ok s') :
    s.hasNode path = true ∧ s' = s.modifyNode path f := by
  rw [changeNode] at h
  split at h
  · next hnode => exact ⟨hnode, (Except.ok.inj h).symm⟩
  · simp at h

theorem revokeAll_eq_ok {batch : List Grant} (h : s.revokeAll batch = .ok s') :
    (∀ g ∈ batch, s.hasNode g.path = true) ∧ s' = s.revokeEach batch := by
  rw [revokeAll] at h
  split at h
  · simp at h
  · next hnone =>
    refine ⟨fun g hg => ?_, (Except.ok.inj h).symm⟩
    simpa using List.find?_eq_none.1 hnone g hg

theorem ensurePrincipal_eq_ok {kind : PrincipalKind} {id : String} {path : Option String}
    (h : s.ensurePrincipal kind id path = .ok s') :
    (s' = s ∧ ∃ p, s.principals.get? id = some p ∧ p.kind = kind) ∨
      (s.principals.get? id = none ∧
        s' = { s with principals := s.principals.insert id ⟨id, kind, path, .empty⟩ }) := by
  rw [ensurePrincipal] at h
  split at h
  · next p hp =>
    split at h
    · next hkind => exact .inl ⟨(Except.ok.inj h).symm, p, hp, hkind⟩
    · simp at h
  · next hnone => exact .inr ⟨hnone, (Except.ok.inj h).symm⟩

theorem changeMembers_eq_ok {group : String} {f : NameSet → NameSet}
    (h : s.changeMembers group f = .ok s') :
    ∃ p, s.principals.get? group = some p ∧ p.kind = .group ∧
      s' = { s with
        principals := s.principals.insert group { p with members := f p.members } } := by
  rw [changeMembers] at h
  split at h
  · simp at h
  · next p hp =>
    split at h
    · simp at h
    · next hkind => exact ⟨p, hp, hkind, (Except.ok.inj h).symm⟩

/-- The members of a group can be changed. -/
theorem exists_changeMembers {group : String} {p : Principal}
    (hp : s.principals.get? group = some p) (hkind : p.kind = .group) (f : NameSet → NameSet) :
    ∃ s', s.changeMembers group f = .ok s' := by
  rw [changeMembers]
  simp only [hp, hkind]
  exact ⟨_, rfl⟩

theorem addMember_eq_ok {group member : String} (h : s.addMember group member = .ok s') :
    s.principals.contains member = true ∧ s.changeMembers group (·.insert member) = .ok s' := by
  rw [addMember] at h
  split at h
  · next hmember => exact ⟨hmember, h⟩
  · simp at h

@[simp] theorem principals_revokeEach (batch : List Grant) :
    (s.revokeEach batch).principals = s.principals := by
  induction batch generalizing s with
  | nil => rfl
  | cons g rest ih => exact ih

@[simp] theorem hasNode_modifyNode (path p : String) (f : Node → Node) :
    (s.modifyNode path f).hasNode p = s.hasNode p := by
  simp only [hasNode, Table.contains, get?_modifyNode]
  split
  · next h => rw [h, Option.isSome_map]
  · rfl

@[simp] theorem hasNode_revokeEach (batch : List Grant) (p : String) :
    (s.revokeEach batch).hasNode p = s.hasNode p := by
  induction batch generalizing s with
  | nil => rfl
  | cons g rest ih => exact (ih (s := s.modifyNode g.path (·.revoke g.entry))).trans (by simp)

/-! ### The tree -/

theorem hasNode_eq_true_iff {path : String} :
    s.hasNode path = true ↔ ∃ n, s.nodes.get? path = some n := by
  rw [hasNode, Table.contains, Option.isSome_iff_exists]

/-- States with nodes at the same paths. -/
theorem Tree.of_hasNode_eq (hs : s.Tree) (h : ∀ p, s'.hasNode p = s.hasNode p) : s'.Tree where
  root := by rw [h, hs.root]
  isPath hp := hs.isPath (by rwa [h] at hp)
  parent hp hup := by
    rw [h] at *
    exact hs.parent hp hup

theorem source_ne_root {source target : String} (htarget : Path.IsPath target)
    (houtside : ¬ Path.within target source = true) : source ≠ "/" := by
  rintro rfl
  exact houtside htarget.within_root

/-- Any other call leaves nodes at the same paths. -/
theorem hasNode_answer {c : Call} {a : c.Answer} (hc : c.rearranges = false)
    (h : s.answer c = .ok (a, s')) (p : String) : s'.hasNode p = s.hasNode p := by
  by_cases hmutates : c.mutates = false
  · rw [answer_of_not_mutates hmutates h]
  · cases c with
    | principal | readPermissions | descendants | nodeExists | property | commit =>
      simp [Call.mutates] at hmutates
    | ensurePrincipal kind id path =>
      rcases ensurePrincipal_eq_ok (done_eq_ok h) with ⟨rfl, -⟩ | ⟨-, rfl⟩ <;> rfl
    | addMember group member =>
      obtain ⟨q, -, -, rfl⟩ := changeMembers_eq_ok (addMember_eq_ok (done_eq_ok h)).2
      rfl
    | removeMember group member =>
      obtain ⟨q, -, -, rfl⟩ := changeMembers_eq_ok (done_eq_ok h)
      rfl
    | setPermission path entry =>
      obtain ⟨-, rfl⟩ := changeNode_eq_ok (done_eq_ok h)
      exact hasNode_modifyNode path p _
    | revokePermissions batch =>
      obtain ⟨-, rfl⟩ := revokeAll_eq_ok (done_eq_ok h)
      exact hasNode_revokeEach batch p
    | setProperty path key value =>
      obtain ⟨-, rfl⟩ := changeNode_eq_ok (done_eq_ok h)
      exact hasNode_modifyNode path p _
    | copy source target | move source target | delete path => simp [Call.rearranges] at hc

/-- After a sound call the nodes form a tree. -/
theorem Tree.answer (hs : s.Tree) {c : Call} {a : c.Answer} (hc : c.Sound)
    (h : s.answer c = .ok (a, s')) : s'.Tree := by
  cases hcall : c.rearranges with
  | false => exact hs.of_hasNode_eq (hasNode_answer hcall h)
  | true =>
    cases c with
    | copy source target | move source target =>
      obtain ⟨hsource, htarget, houtside⟩ := hc
      exact hs.transfer hsource (source_ne_root htarget houtside) htarget houtside (done_eq_ok h)
    | delete path => exact hs.delete hc (done_eq_ok h)
    | _ => cases hcall

/-! ### Principals -/

/-- A call leaves the principals as they are, creates one without members, adds an existing one
to a group or removes members from a group. -/
theorem principals_answer {c : Call} {a : c.Answer} (h : s.answer c = .ok (a, s')) :
    s'.principals = s.principals ∨
      (∃ id kind path, s.principals.get? id = none ∧
        s'.principals = s.principals.insert id ⟨id, kind, path, .empty⟩) ∨
      (∃ group p members, s.principals.get? group = some p ∧ p.kind = .group ∧
        (∀ m ∈ members, m ∈ p.members ∨ s.principals.contains m = true) ∧
        s'.principals = s.principals.insert group { p with members := members }) := by
  by_cases hmutates : c.mutates = false
  · rw [answer_of_not_mutates hmutates h]
    exact .inl rfl
  · cases c with
    | principal | readPermissions | descendants | nodeExists | property | commit =>
      simp [Call.mutates] at hmutates
    | ensurePrincipal kind id path =>
      rcases ensurePrincipal_eq_ok (done_eq_ok h) with ⟨rfl, -⟩ | ⟨hnone, rfl⟩
      · exact .inl rfl
      · exact .inr (.inl ⟨id, kind, path, hnone, rfl⟩)
    | addMember group member =>
      obtain ⟨hmember, h⟩ := addMember_eq_ok (done_eq_ok h)
      obtain ⟨p, hp, hkind, rfl⟩ := changeMembers_eq_ok h
      refine .inr (.inr ⟨group, p, p.members.insert member, hp, hkind, fun m hm => ?_, rfl⟩)
      rcases NameSet.mem_insert.1 hm with rfl | hm
      · exact .inr hmember
      · exact .inl hm
    | removeMember group member =>
      obtain ⟨p, hp, hkind, rfl⟩ := changeMembers_eq_ok (done_eq_ok h)
      refine .inr (.inr ⟨group, p, p.members.erase member, hp, hkind, fun m hm => ?_, rfl⟩)
      exact .inl (NameSet.mem_filter.1 hm).1
    | setPermission path entry =>
      obtain ⟨-, rfl⟩ := changeNode_eq_ok (done_eq_ok h)
      exact .inl rfl
    | revokePermissions batch =>
      obtain ⟨-, rfl⟩ := revokeAll_eq_ok (done_eq_ok h)
      exact .inl (principals_revokeEach batch)
    | setProperty path key value =>
      obtain ⟨-, rfl⟩ := changeNode_eq_ok (done_eq_ok h)
      exact .inl rfl
    | copy source target | move source target =>
      obtain ⟨-, -, -, rfl⟩ := transfer_eq_ok (done_eq_ok h)
      exact .inl rfl
    | delete path =>
      obtain ⟨-, rfl⟩ := delete_eq_ok (done_eq_ok h)
      exact .inl rfl

theorem MembersSound.of_principals_eq (hs : s.MembersSound)
    (h : s'.principals = s.principals) : s'.MembersSound := by
  refine ⟨?_, ?_⟩
  · rw [h]
    exact hs.user
  · rw [h]
    exact hs.member

/-- One more principal, or another one in the place of the first. -/
theorem MembersSound.insert (hs : s.MembersSound) (id : String) {p : Principal}
    (huser : p.kind = .user → ∀ m, ¬ m ∈ p.members)
    (hmember : ∀ m ∈ p.members, s.principals.contains m = true)
    (h : s'.principals = s.principals.insert id p) : s'.MembersSound := by
  refine ⟨fun {k q} hq hkind => ?_, fun {k q m} hq hm => ?_⟩
  · rw [h, Table.get?_insert] at hq
    split at hq
    · cases hq
      exact huser hkind
    · exact hs.user hq hkind
  · rw [h, Table.contains_insert]
    rw [h, Table.get?_insert] at hq
    split at hq
    · cases hq
      exact .inr (hmember m hm)
    · exact .inr (hs.member hq hm)

/-- After any call only groups have members, and all members exist. -/
theorem MembersSound.answer (hs : s.MembersSound) {c : Call} {a : c.Answer}
    (h : s.answer c = .ok (a, s')) : s'.MembersSound := by
  rcases principals_answer h with heq | ⟨id, kind, path, -, heq⟩ | ⟨group, g, members, hg, hkind,
    hmembers, heq⟩
  · exact hs.of_principals_eq heq
  · refine hs.insert id ?_ ?_ heq
    · intro _ m hm
      exact List.not_mem_nil hm
    · intro m hm
      exact absurd hm List.not_mem_nil
  · refine hs.insert group ?_ ?_ heq
    · intro huser
      rw [hkind] at huser
      cases huser
    · intro m hm
      rcases hmembers m hm with hm | hm
      · exact hs.member hg hm
      · exact hm

/-! ### Permissions -/

theorem acls_modifyNode (hs : ∀ {path n}, s.nodes.get? path = some n → n.Canonical)
    {path : String} {f : Node → Node} (hf : ∀ n : Node, n.Canonical → (f n).Canonical)
    {p : String} {n : Node} (hn : (s.modifyNode path f).nodes.get? p = some n) :
    n.Canonical := by
  rw [get?_modifyNode] at hn
  split at hn
  · obtain ⟨m, hm, rfl⟩ := Option.map_eq_some_iff.1 hn
    exact hf m (hs hm)
  · exact hs hn

theorem acls_revokeEach (hs : ∀ {path n}, s.nodes.get? path = some n → n.Canonical)
    {batch : List Grant} {p : String} {n : Node}
    (hn : (s.revokeEach batch).nodes.get? p = some n) : n.Canonical := by
  induction batch generalizing s with
  | nil => exact hs hn
  | cons g rest ih =>
    exact ih (fun hm => acls_modifyNode hs (fun n hn => hn.revoke) hm) hn

/-- A sound call keeps what a repository promises about its state. -/
theorem WellFormed.answer (hs : s.WellFormed) {c : Call} {a : c.Answer} (hc : c.Sound)
    (h : s.answer c = .ok (a, s')) : s'.WellFormed := by
  have htree := hs.tree.answer hc h
  refine ⟨htree, ?_, hs.members.answer h, ?_⟩
  · intro id p hp
    rcases principals_answer h with heq | ⟨id', kind, path, -, heq⟩ | ⟨group, g, members, hg, -, -,
      heq⟩
    · exact hs.ids (heq ▸ hp)
    · rw [heq, Table.get?_insert] at hp
      split at hp
      · next hid =>
        cases hp
        exact hid.symm
      · exact hs.ids hp
    · rw [heq, Table.get?_insert] at hp
      split at hp
      · next hid =>
        cases hp
        rw [hid]
        show g.id = group
        exact hs.ids hg
      · exact hs.ids hp
  · intro path n hn
    by_cases hmutates : c.mutates = false
    · rw [answer_of_not_mutates hmutates h] at hn
      exact hs.acls hn
    · cases c with
      | principal | readPermissions | descendants | nodeExists | property | commit =>
        simp [Call.mutates] at hmutates
      | ensurePrincipal kind id path =>
        rcases ensurePrincipal_eq_ok (done_eq_ok h) with ⟨rfl, -⟩ | ⟨-, rfl⟩ <;> exact hs.acls hn
      | addMember group member =>
        obtain ⟨p, -, -, rfl⟩ := changeMembers_eq_ok (addMember_eq_ok (done_eq_ok h)).2
        exact hs.acls hn
      | removeMember group member =>
        obtain ⟨p, -, -, rfl⟩ := changeMembers_eq_ok (done_eq_ok h)
        exact hs.acls hn
      | setPermission path entry =>
        obtain ⟨-, rfl⟩ := changeNode_eq_ok (done_eq_ok h)
        exact acls_modifyNode hs.acls (fun n hn => hn.grant hc) hn
      | revokePermissions batch =>
        obtain ⟨-, rfl⟩ := revokeAll_eq_ok (done_eq_ok h)
        exact acls_revokeEach hs.acls hn
      | setProperty path key value =>
        obtain ⟨-, rfl⟩ := changeNode_eq_ok (done_eq_ok h)
        exact acls_modifyNode hs.acls (fun n hn => hn.setProperty key value) hn
      | copy source target | move source target =>
        obtain ⟨hsource, htarget, houtside⟩ := hc
        have hpath := htree.isPath (hasNode_eq_true_iff.2 ⟨n, hn⟩)
        rw [get?_transfer hs.tree hsource (source_ne_root htarget houtside) htarget
          (done_eq_ok h) hpath] at hn
        split at hn
        · exact hs.acls hn
        · split at hn
          · simp at hn
          · exact hs.acls hn
      | delete path =>
        rw [get?_delete (done_eq_ok h)] at hn
        split at hn
        · simp at hn
        · exact hs.acls hn

end State

/-! ## Compiled actions -/

theorem Rules.isPath_of_path {subject p : String} (h : Rules.path subject p = []) :
    Path.IsPath p := by
  rw [Rules.path] at h
  rw [Path.IsPath]
  cases hp : Path.problem? p with
  | none => rfl
  | some problem => simp [hp] at h

/-- A transfer without problems goes from one well-formed path to another one outside of it. -/
theorem Rules.sound_of_transfer {verb source target : String}
    (h : Rules.transfer verb source target = []) :
    Path.IsPath source ∧ Path.IsPath target ∧ ¬ Path.within target source = true := by
  simp only [Rules.transfer, List.append_eq_nil_iff] at h
  obtain ⟨⟨hsource, htarget⟩, hends⟩ := h
  refine ⟨isPath_of_path hsource, isPath_of_path htarget, fun hwithin => ?_⟩
  split at hends
  · simp at hends
  · simp at hends

theorem Rules.isPath_of_grant {ps : List String} {p principal : String}
    (h : Rules.grant ps p principal = []) : Path.IsPath p := by
  simp only [Rules.grant, List.append_eq_nil_iff] at h
  exact isPath_of_path h.1.2

theorem Permission.privileges_ofLists {principal : String} {effect : Effect} {ps : List String}
    {rs : List (String × String)} {path : String} (h : Rules.grant ps path principal = []) :
    (Permission.ofLists principal effect ps rs).privileges.isEmpty = false := by
  simp only [Rules.grant, Rules.privileges, List.append_eq_nil_iff] at h
  obtain ⟨⟨⟨hps, -⟩, -⟩, -⟩ := h
  cases ps with
  | nil => simp at hps
  | cons x rest =>
    exact NameSet.isEmpty_eq_false_iff.2 ⟨x, NameSet.mem_ofList.2 List.mem_cons_self⟩

/-- The calls of the action of a directive without problems are sound. -/
theorem Action.sound_of_problems {grants : List Grant} {d : Directive} (h : d.problems = [])
    {c : Change} (hc : Change.Of (Action.ofDirective grants d) c) : c.call.Sound := by
  cases d with
  | create kind id path =>
    cases hc
    trivial
  | addMember member group | removeMember member group | setProperty path key value
  | purge path principal =>
    cases hc
    trivial
  | permission effect ps path principal rs =>
    cases hc
    simp only [Directive.problems, List.append_eq_nil_iff] at h
    exact Permission.privileges_ofLists h.1
  | copy source target | move source target =>
    cases hc
    exact Rules.sound_of_transfer h
  | delete path =>
    cases hc
    simp only [Directive.problems, List.append_eq_nil_iff] at h
    exact Rules.isPath_of_path h.1
  | check check => cases check <;> cases hc

/-! ## Runs of compiled plans -/

/-- A run of a compiled plan keeps what the repository promises about its state, at every point of
the run, whichever calls are refused or not answered and whenever the run is cancelled. -/
theorem State.WellFormed.execute {load : Loader} {limit : Nat} {identifier : String} {cache : Cache}
    {plan : Plan} (hplan : (compileScript load limit identifier cache).1 = .ok plan)
    {s t : State} (hs : s.WellFormed) {mode : Mode} {rest : Running Report}
    (hrun : Running.Reaches s (plan.execute mode) t rest) : t.WellFormed := by
  obtain ⟨script, root, c', e, -, -, he, rfl⟩ := compileScript_eq_ok hplan
  have hsound := Expansion.sound_of_ofChecked he
  have hmeets : ((Plan.ofExpansion e).execute mode).Meets (Request.Calls Call.Sound)
      fun _ => True := by
    refine Plan.meets_execute (fun _ hc => Call.sound_of_not_mutates hc) fun _ a ha c hc => ?_
    obtain ⟨d, hd, rfl⟩ := List.mem_map.1 ha
    exact Action.sound_of_problems (hsound d hd) hc
  exact hrun.invariant (fun hc hs h => hs.answer hc h) hmeets hs

/-- A repository with two nodes beneath the root and a group that may read one of them. -/
def State.sample : State where
  principals := .ofList [("g", ⟨"g", .group, none, .empty⟩)]
  nodes := .ofList [("/", .empty),
    ("/a", ⟨.empty, [.ofLists "g" .allow ["jcr:read"] [("rep:glob", "*")]]⟩), ("/a/b", .empty)]

/-- A plan that moves a subtree by hand and revokes what was granted in it. -/
def Plan.sample : Plan where
  script := "main"
  checksum := "e5a8db8bc20e2f3c67dfc27bad72f636355f90597b6f0bf901ee4a47697634fe"
  sources := [⟨"main", "42e8e047f3423459d7d1887b670f65050764821cd92f2060cbcda9d063f31f04"⟩]
  actions := [⟨.copy "/a" "/c", ⟨"main", 1, 1⟩⟩, ⟨.purge "/c" none [], ⟨"main", 1, 20⟩⟩,
    ⟨.delete "/a", ⟨"main", 1, 32⟩⟩]

theorem State.WellFormed.execute_sample :
    (compileScript (Shelf.ofList [("main",
      "copy \"/a\" to \"/c\"; purge \"/c\"; delete \"/a\";")]).load 16 "main" .empty).1 =
        .ok Plan.sample ∧
    State.sample.WellFormed ∧
    Running.Reaches State.sample (Plan.sample.execute .apply)
      (Running.on "" (Plan.sample.execute .apply) State.sample).state
      (.done (Running.on "" (Plan.sample.execute .apply) State.sample).result) ∧
    (Running.on "" (Plan.sample.execute .apply) State.sample).state.nodes.keys =
      ["/", "/c", "/c/b"] ∧
    (Running.on "" (Plan.sample.execute .apply) State.sample).state.WellFormed := by
  have hplan : (compileScript (Shelf.ofList [("main",
      "copy \"/a\" to \"/c\"; purge \"/c\"; delete \"/a\";")]).load 16 "main" .empty).1 =
        .ok Plan.sample := by
    decide +kernel
  have hsample : State.sample.WellFormed := by decide +kernel
  have hrun := Running.reaches_on "" (Plan.sample.execute .apply) State.sample
  exact ⟨hplan, hsample, hrun, by decide +kernel, execute hplan hsample hrun⟩

end Entitle
