import Entitle.Proofs.Paths
import Entitle.Repository.State

/-!
# Trees of nodes

The nodes of a repository form a tree: their paths are well-formed, and above every node there are
nodes up to the root. Here it is said what the nodes are after a subtree was copied, moved or
deleted, and that they form a tree again.

## Main definitions

* `State.Tree`: the nodes of a state form a tree.
* `State.Closed`: every node has the node above it, whatever its path is.

## Main statements

* `State.Tree.hasNode_of_within`: above every node there are nodes.
* `State.get?_transfer`: the nodes after a transfer.
* `State.Tree.transfer`, `State.Tree.delete`: a tree stays a tree.
-/
namespace Entitle

namespace Table

variable {β : Type}

theorem mem_entries_filterKeys {t : Table β} {p : String → Bool} {k : String} {v : β} :
    (k, v) ∈ (t.filterKeys p).entries ↔ p k = true ∧ t.get? k = some v := by
  rw [← get?_eq_some_iff, get?_filterKeys]
  by_cases h : p k = true <;> simp [h]

theorem contains_filterKeys {t : Table β} {p : String → Bool} {k : String} :
    (t.filterKeys p).contains k = (p k && t.contains k) := by
  rw [contains, get?_filterKeys, contains]
  by_cases h : p k = true <;> simp [h]

theorem contains_insert {t : Table β} {k : String} {v : β} {k' : String} :
    (t.insert k v).contains k' = true ↔ k' = k ∨ t.contains k' = true := by
  rw [contains, contains, get?_insert]
  by_cases h : k' = k <;> simp [h]

end Table

namespace State

/-- The nodes of the state form a tree. -/
structure Tree (s : State) : Prop where
  root : s.hasNode "/" = true
  isPath : ∀ {p}, s.hasNode p = true → Path.IsPath p
  parent : ∀ {p up}, s.hasNode p = true → Path.parent? p = some up → s.hasNode up = true

private theorem tree_iff {s : State} : s.Tree ↔ s.hasNode "/" = true ∧
    ∀ p ∈ s.nodes.keys, Path.IsPath p ∧ ∀ up ∈ Path.parent? p, s.hasNode up = true := by
  constructor
  · intro hs
    refine ⟨hs.root, fun p hp => ?_⟩
    have hnode := Table.mem_keys.1 hp
    exact ⟨hs.isPath hnode, fun up hup => hs.parent hnode hup⟩
  · rintro ⟨hroot, hkeys⟩
    exact ⟨hroot, fun hp => (hkeys _ (Table.mem_keys.2 hp)).1,
      fun hp hup => (hkeys _ (Table.mem_keys.2 hp)).2 _ hup⟩

instance (s : State) : Decidable s.Tree :=
  decidable_of_iff' _ tree_iff

/-- Every node has the node above it, if there is a path above its own. Paths may be any texts. -/
def Closed (s : State) : Prop :=
  ∀ {p up}, s.hasNode p = true → Path.parent? p = some up → s.hasNode up = true

instance (s : State) : Decidable s.Closed :=
  decidable_of_iff (∀ p ∈ s.nodes.keys, ∀ up ∈ Path.parent? p, s.hasNode up = true)
    ⟨fun h p up hp hup => h p (Table.mem_keys.2 hp) up hup,
      fun h _ hp _ hup => h (Table.mem_keys.1 hp) hup⟩

/-- Above every node with a path there are nodes. -/
theorem Closed.hasNode_of_within {s : State} (hs : s.Closed) {p r : String}
    (hp : s.hasNode p = true) (hpath : Path.IsPath p) (hr : Path.IsPath r)
    (h : Path.within p r = true) : s.hasNode r = true := by
  induction hn : p.length using Nat.strong_induction_on generalizing p with
  | h n ih =>
    by_cases heq : r = p
    · rwa [heq]
    · have hroot : p ≠ "/" := by
        rintro rfl
        exact heq (hr.eq_root_of_within h)
      obtain ⟨up, hup⟩ := hpath.exists_parent hroot
      rcases (hpath.within_iff_parent hup hr).1 h with h | h
      · exact absurd h heq
      · exact ih up.length (hn ▸ Path.length_parent hup) (hs hp hup) (hpath.parent hup) h rfl

/-- Above every node there are nodes. -/
theorem Tree.hasNode_of_within {s : State} (hs : s.Tree) {p r : String}
    (hp : s.hasNode p = true) (hr : Path.IsPath r) (h : Path.within p r = true) :
    s.hasNode r = true :=
  Closed.hasNode_of_within hs.parent hp (hs.isPath hp) hr h

/-! ## Transfers -/

section

variable {source target : String} {nodes : Table Node} {moved : List (String × Node)} {p : String}

theorem get?_plant_of_ne (h : ∀ e ∈ moved, Path.rebase e.1 source target ≠ p) :
    (plant source target nodes moved).get? p = nodes.get? p := by
  induction moved generalizing nodes with
  | nil => rfl
  | cons e rest ih =>
    rw [plant, List.foldl_cons, ← plant, ih fun e' he' => h e' (List.mem_cons_of_mem _ he')]
    exact Table.get?_insert_of_ne _ _ (Ne.symm (h e List.mem_cons_self))

theorem get?_plant_of_mem {e : String × Node} (he : e ∈ moved)
    (hp : Path.rebase e.1 source target = p)
    (hunique : ∀ e' ∈ moved, Path.rebase e'.1 source target = p → e' = e) :
    (plant source target nodes moved).get? p = some e.2 := by
  induction moved generalizing nodes with
  | nil => simp at he
  | cons first rest ih =>
    rw [plant, List.foldl_cons, ← plant]
    by_cases hrest : e ∈ rest
    · exact ih hrest fun e' he' => hunique e' (List.mem_cons_of_mem _ he')
    · obtain rfl : e = first := (List.mem_cons.1 he).resolve_right hrest
      rw [get?_plant_of_ne, hp, Table.get?_insert_self]
      intro e' he' heq
      exact hrest (hunique e' (List.mem_cons_of_mem _ he') heq ▸ he')

/-- The places that are taken after nodes were put at theirs. -/
theorem contains_plant : (plant source target nodes moved).contains p = true ↔
    nodes.contains p = true ∨ ∃ e ∈ moved, Path.rebase e.1 source target = p := by
  induction moved generalizing nodes with
  | nil => simp [plant]
  | cons e rest ih =>
    rw [plant, List.foldl_cons, ← plant, ih, Table.contains_insert]
    simp only [List.mem_cons, exists_eq_or_imp]
    grind

end

section

variable {s s' : State} {source target : String} {keepSource : Bool}

/-- When a transfer goes through, and what it leaves. -/
theorem transfer_eq_ok (h : s.transfer source target keepSource = .ok s') :
    s.hasNode source = true ∧ s.hasNode target = false ∧
      (∀ up, Path.parent? target = some up → s.hasNode up = true) ∧
      s' = ⟨s.principals, plant source target
        (if keepSource then s.nodes else s.nodes.filterKeys fun p => !Path.within p source)
        (s.nodes.filterKeys (Path.within · source)).entries⟩ := by
  rw [transfer] at h
  split at h
  · simp at h
  · next hsource =>
    split at h
    · simp at h
    · next htarget =>
      split at h
      · simp at h
      · next hparent =>
        refine ⟨by simpa using hsource, by simpa using htarget, ?_, ?_⟩
        · intro up hup
          simpa [missingParent?, hup] using hparent
        · exact (Except.ok.inj h).symm

/-- The root is there already, so nothing is put there. -/
theorem target_ne_root (hroot : s.hasNode "/" = true)
    (h : s.transfer source target keepSource = .ok s') : target ≠ "/" := by
  rintro rfl
  exact Bool.false_ne_true ((transfer_eq_ok h).2.1.symm.trans hroot)

theorem Tree.target_ne_root (hs : s.Tree) (h : s.transfer source target keepSource = .ok s') :
    target ≠ "/" :=
  State.target_ne_root hs.root h

/-- After a transfer there is a node at the target. -/
theorem hasNode_target (h : s.transfer source target keepSource = .ok s') :
    s'.hasNode target = true := by
  obtain ⟨hsource, -, -, rfl⟩ := transfer_eq_ok h
  obtain ⟨n, hn⟩ := Option.isSome_iff_exists.1 hsource
  refine contains_plant.2 (.inr ⟨(source, n), ?_, Path.rebase_self source target⟩)
  exact Table.mem_entries_filterKeys.2 ⟨Path.within_refl source, hn⟩

/-- When a transfer goes through. -/
theorem exists_transfer (hsource : s.hasNode source = true) (htarget : s.hasNode target = false)
    (hparent : ∀ up, Path.parent? target = some up → s.hasNode up = true) :
    ∃ s', s.transfer source target keepSource = .ok s' := by
  have hmissing : s.missingParent? target = none := by
    rw [missingParent?, Option.bind_eq_none_iff]
    intro up hup
    rw [if_pos (hparent up hup)]
  rw [transfer, hsource, htarget, hmissing]
  exact ⟨_, rfl⟩

/-- A transfer is refused when the parent of the target is missing. -/
theorem transfer_eq_error {up : String} (hsource : s.hasNode source = true)
    (htarget : s.hasNode target = false) (hup : Path.parent? target = some up)
    (hnone : s.hasNode up = false) :
    s.transfer source target keepSource = .error (.notFound up) := by
  have hmissing : s.missingParent? target = some (.notFound up) := by
    simp [missingParent?, hup, hnone]
  rw [transfer, hsource, htarget, hmissing]
  rfl

/-- No path is both within the source and within the target of a transfer. -/
theorem Tree.not_within_source (hs : s.Tree) (hsource : Path.IsPath source)
    (htarget : Path.IsPath target) (houtside : ¬ Path.within target source = true)
    (h : s.transfer source target keepSource = .ok s') {p : String} (hp : Path.IsPath p)
    (hwithin : Path.within p target = true) : Path.within p source = false := by
  obtain ⟨hnode, hfree, -, -⟩ := transfer_eq_ok h
  refine Bool.eq_false_iff.2 fun hpsource => ?_
  rcases hp.within_or_within hsource htarget hpsource hwithin with hin | hin
  · rw [hs.hasNode_of_within hnode htarget hin] at hfree
    cases hfree
  · exact houtside hin

/-- The nodes after a transfer: beneath the target they are those of the source, elsewhere they are
as before, but a source that is not kept is gone. -/
theorem get?_transfer (hs : s.Tree) (hsource : Path.IsPath source) (hroot : source ≠ "/")
    (htarget : Path.IsPath target) (h : s.transfer source target keepSource = .ok s')
    {p : String} (hp : Path.IsPath p) :
    s'.nodes.get? p =
      if Path.within p target then s.nodes.get? (Path.rebase p target source)
      else if !keepSource && Path.within p source then none
      else s.nodes.get? p := by
  have htargetRoot := hs.target_ne_root h
  obtain ⟨-, hfree, -, rfl⟩ := transfer_eq_ok h
  have hkept : ∀ q, Path.IsPath q → (if keepSource then s.nodes
      else s.nodes.filterKeys fun p => !Path.within p source).get? q =
        if !keepSource && Path.within q source then none else s.nodes.get? q := by
    intro q _
    cases keepSource with
    | true => simp
    | false => cases hq : Path.within q source <;> simp [Table.get?_filterKeys, hq]
  by_cases hwithin : Path.within p target = true
  · rw [if_pos hwithin]
    have hback := hp.rebase htarget hsource htargetRoot hwithin
    have hbackWithin := Path.within_rebase htargetRoot hwithin source
    have hforth := hp.rebase_rebase htarget hsource htargetRoot hwithin hroot
    cases hn : s.nodes.get? (Path.rebase p target source) with
    | some n =>
      have hmem : (Path.rebase p target source, n) ∈
          (s.nodes.filterKeys (Path.within · source)).entries :=
        Table.mem_entries_filterKeys.2 ⟨hbackWithin, hn⟩
      refine get?_plant_of_mem hmem hforth ?_
      rintro ⟨q, m⟩ hq rfl
      obtain ⟨hqWithin, hqm⟩ := Table.mem_entries_filterKeys.1 hq
      have hqPath : Path.IsPath q := hs.isPath (by simp [hasNode, Table.contains, hqm])
      rw [hqPath.rebase_rebase hsource htarget hroot hqWithin htargetRoot] at hn ⊢
      rw [Option.some.inj (hqm.symm.trans hn)]
    | none =>
      have hnone : s.nodes.get? p = none := by
        cases hsp : s.nodes.get? p with
        | none => rfl
        | some m =>
          have := hs.hasNode_of_within (by simp [hasNode, Table.contains, hsp]) htarget hwithin
          rw [hfree] at this
          cases this
      rw [get?_plant_of_ne, hkept p hp, hnone, ite_self]
      rintro ⟨q, m⟩ hq rfl
      obtain ⟨hqWithin, hqm⟩ := Table.mem_entries_filterKeys.1 hq
      have hqPath : Path.IsPath q := hs.isPath (by simp [hasNode, Table.contains, hqm])
      rw [hqPath.rebase_rebase hsource htarget hroot hqWithin htargetRoot, hqm] at hn
      cases hn
  · rw [if_neg hwithin, get?_plant_of_ne, hkept p hp]
    rintro ⟨q, m⟩ hq rfl
    obtain ⟨hqWithin, hqm⟩ := Table.mem_entries_filterKeys.1 hq
    have hqPath : Path.IsPath q := hs.isPath (by simp [hasNode, Table.contains, hqm])
    exact hwithin (Path.within_rebase hroot hqWithin target)

theorem hasNode_transfer (hs : s.Tree) (hsource : Path.IsPath source) (hroot : source ≠ "/")
    (htarget : Path.IsPath target) (h : s.transfer source target keepSource = .ok s')
    {p : String} (hp : Path.IsPath p) :
    s'.hasNode p =
      if Path.within p target then s.hasNode (Path.rebase p target source)
      else s.hasNode p && (keepSource || !Path.within p source) := by
  simp only [hasNode, Table.contains, get?_transfer hs hsource hroot htarget h hp]
  by_cases hwithin : Path.within p target = true
  · rw [if_pos hwithin, if_pos hwithin]
  · rw [if_neg hwithin, if_neg hwithin]
    cases keepSource <;> cases Path.within p source <;> simp

/-- After a transfer there are only well-formed paths. -/
theorem isPath_transfer (hs : s.Tree) (hsource : Path.IsPath source) (hroot : source ≠ "/")
    (htarget : Path.IsPath target) (h : s.transfer source target keepSource = .ok s')
    {p : String} (hp : s'.hasNode p = true) : Path.IsPath p := by
  obtain ⟨-, -, -, rfl⟩ := transfer_eq_ok h
  by_cases hmoved : ∃ e ∈ (s.nodes.filterKeys (Path.within · source)).entries,
      Path.rebase e.1 source target = p
  · obtain ⟨⟨q, n⟩, he, rfl⟩ := hmoved
    obtain ⟨hq, hqn⟩ := Table.mem_entries_filterKeys.1 he
    have hqPath : Path.IsPath q := hs.isPath (by simp [hasNode, Table.contains, hqn])
    exact hqPath.rebase hsource htarget hroot hq
  · rw [hasNode, Table.contains,
      get?_plant_of_ne fun e he heq => hmoved ⟨e, he, heq⟩] at hp
    refine hs.isPath ?_
    cases keepSource with
    | true => exact hp
    | false =>
      have hkept : (s.nodes.filterKeys fun p => !Path.within p source).contains p = true := hp
      rw [Table.contains_filterKeys, Bool.and_eq_true] at hkept
      exact hkept.2

/-- After a transfer to a place outside the source, the nodes form a tree. -/
theorem Tree.transfer (hs : s.Tree) (hsource : Path.IsPath source) (hroot : source ≠ "/")
    (htarget : Path.IsPath target) (houtside : ¬ Path.within target source = true)
    (h : s.transfer source target keepSource = .ok s') : s'.Tree := by
  have hnode := fun p => hasNode_transfer hs hsource hroot htarget h (p := p)
  have htargetRoot := hs.target_ne_root h
  obtain ⟨-, -, habove, -⟩ := transfer_eq_ok h
  refine ⟨?_, isPath_transfer hs hsource hroot htarget h, ?_⟩
  · have hnotTarget : ¬ Path.within "/" target = true :=
      fun h => htargetRoot (htarget.eq_root_of_within h)
    rw [hnode _ .root, if_neg hnotTarget, hs.root, hsource.root_not_within hroot]
    simp
  · intro p up hp hup
    have hpPath := isPath_transfer hs hsource hroot htarget h hp
    have hupPath := hpPath.parent hup
    have hpUp := hpPath.within_parent hup
    rw [hnode p hpPath] at hp
    rw [hnode up hupPath]
    by_cases hpTarget : Path.within p target = true
    · rw [if_pos hpTarget] at hp
      by_cases heq : p = target
      · -- The parent of the target is there, and it is no part of what was moved away.
        subst heq
        have hnotTarget := hpPath.not_within_of_parent hup
        have hnotSource : Path.within up source = false :=
          Bool.eq_false_iff.2 fun h => houtside (hpPath.within_trans hupPath hsource hpUp h)
        rw [if_neg hnotTarget, habove up hup, hnotSource]
        simp
      · obtain ⟨up', hup', hwithin, hparent⟩ :=
          hpPath.parent_rebase htarget hsource htargetRoot hpTarget heq
        rw [hup, Option.some.injEq] at hup'
        subst hup'
        rw [if_pos hwithin]
        exact hs.parent hp hparent
    · have hnotTarget : ¬ Path.within up target = true :=
        fun h => hpTarget (hpPath.within_trans hupPath htarget hpUp h)
      rw [if_neg hpTarget, Bool.and_eq_true] at hp
      rw [if_neg hnotTarget, hs.parent hp.1 hup, Bool.true_and]
      cases keepSource with
      | true => rfl
      | false =>
        have hpSource : ¬ Path.within p source = true := by simpa using hp.2
        have hupSource : Path.within up source = false :=
          Bool.eq_false_iff.2 fun h => hpSource (hpPath.within_trans hupPath hsource hpUp h)
        rw [hupSource]
        rfl

end

/-! ## Deletion -/

section

variable {s s' : State} {path : String}

/-- The nodes after a deletion. -/
theorem delete_eq_ok (h : s.delete path = .ok s') : path ≠ "/" ∧
    s' = ⟨s.principals, s.nodes.filterKeys fun p => !Path.within p path⟩ := by
  rw [delete] at h
  split at h
  · simp at h
  · next hroot =>
    split at h
    · simp at h
    · exact ⟨hroot, (Except.ok.inj h).symm⟩

/-- A node other than the root can be deleted. -/
theorem exists_delete (hnode : s.hasNode path = true) (hroot : path ≠ "/") :
    ∃ s', s.delete path = .ok s' := by
  have hmem : path ∈ s.subtree path :=
    List.mem_filter.2 ⟨Table.mem_keys.2 hnode, Path.within_refl path⟩
  rw [delete, if_neg hroot, if_neg (List.ne_nil_of_mem hmem)]
  exact ⟨_, rfl⟩

theorem get?_delete (h : s.delete path = .ok s') (p : String) :
    s'.nodes.get? p = if Path.within p path then none else s.nodes.get? p := by
  obtain ⟨-, rfl⟩ := delete_eq_ok h
  rw [Table.get?_filterKeys]
  cases Path.within p path <;> rfl

theorem hasNode_delete (h : s.delete path = .ok s') (p : String) :
    s'.hasNode p = (!Path.within p path && s.hasNode p) := by
  simp only [hasNode, Table.contains, get?_delete h]
  cases Path.within p path <;> simp

/-- After a deletion the nodes form a tree. -/
theorem Tree.delete (hs : s.Tree) (hpath : Path.IsPath path) (h : s.delete path = .ok s') :
    s'.Tree := by
  obtain ⟨hroot, -⟩ := delete_eq_ok h
  refine ⟨?_, ?_, ?_⟩
  · rw [hasNode_delete h, hpath.root_not_within hroot, hs.root]
    rfl
  · intro p hp
    rw [hasNode_delete h, Bool.and_eq_true] at hp
    exact hs.isPath hp.2
  · intro p up hp hup
    rw [hasNode_delete h, Bool.and_eq_true] at hp
    have hpPath := hs.isPath hp.2
    have hupPath := hpPath.parent hup
    have hnot : Path.within up path = false := by
      refine Bool.eq_false_iff.2 fun h => ?_
      have := hpPath.within_trans hupPath hpath (hpPath.within_parent hup) h
      simp [this] at hp
    rw [hasNode_delete h, hnot, hs.parent hp.2 hup]
    rfl

end

end State

end Entitle
