import Entitle.Proofs.Inspecting
import Entitle.Proofs.Trees

/-!
# Trees seen through an overlay

The nearest note above a path decides what is seen there. So a note about a subtree changes what is
seen in that subtree and nowhere else, and what is seen under a place with an origin is what is
there under the origin.

## Main definitions

* `Overlay.Sound`: the notes are about well-formed paths beneath the root.
* `Overlay.divides`: a note is in the way between a path and a subtree that it is in.

## Main statements

* `Overlay.backing_plan`: what stands behind a path after a further note.
* `Overlay.backing_of_undivided`: a subtree without further notes has one origin.
* `Overlay.node?_dropNode`, `Overlay.node?_putNode`: what is seen after a deletion and a transfer.
-/
namespace Entitle.Overlay

/-- The notes are about well-formed paths beneath the root, and so are their origins. -/
structure Sound (o : Overlay) : Prop where
  place : ∀ {p origin}, o.nodes.get? p = some origin → Path.IsPath p ∧ p ≠ "/"
  origin : ∀ {p real}, o.nodes.get? p = some (some real) → Path.IsPath real ∧ real ≠ "/"

theorem Sound.empty : Overlay.empty.Sound where
  place h := by cases h
  origin h := by cases h

/-- A note strictly within the subtree at `root` is at or above the path. -/
def divides (o : Overlay) (root path : String) : Bool :=
  o.nodes.keys.any fun place =>
    Path.within place root && place != root && Path.within path place

variable {o : Overlay} {p q root source target : String}

/-! ## Nearest notes -/

theorem nearest?_of_undivided (hp : Path.IsPath p) (hroot : Path.IsPath root)
    (hwithin : Path.within p root = true) (hdivides : o.divides root p = false) :
    o.nearest? p = o.nearest? root := by
  obtain ⟨below, hancestors, hbelow⟩ := hp.ancestors_of_within hroot hwithin
  have hnone : below.findSome? (fun q => (o.nodes.get? q).map (q, ·)) = none := by
    refine List.findSome?_eq_none_iff.2 fun q hq => ?_
    obtain ⟨-, hpq, hqroot, hne⟩ := hbelow q hq
    rw [Option.map_eq_none_iff, ← Option.not_isSome_iff_eq_none]
    intro hnote
    have := List.any_eq_false.1 hdivides q (Table.mem_keys.2 hnote)
    simp [hqroot, hne, hpq] at this
  rw [nearest?, hancestors, List.findSome?_append, hnone, Option.none_or, ← nearest?]

/-- Two overlays with the same notes at and above a path. -/
theorem nearest?_congr {o' : Overlay} (hp : Path.IsPath p)
    (h : ∀ q, Path.IsPath q → Path.within p q = true → o'.nodes.get? q = o.nodes.get? q) :
    o'.nearest? p = o.nearest? p := by
  unfold nearest?
  generalize hs : Path.ancestors p = above
  have habove : ∀ q ∈ above, o'.nodes.get? q = o.nodes.get? q := by
    intro q hq
    obtain ⟨hqPath, hpq⟩ := hp.mem_ancestors (hs ▸ hq)
    exact h q hqPath hpq
  clear hs
  induction above with
  | nil => rfl
  | cons q rest ih =>
    rw [List.findSome?_cons, List.findSome?_cons, habove q List.mem_cons_self,
      ih fun r hr => habove r (List.mem_cons_of_mem _ hr)]

theorem nearest?_eq_some {place : String} {origin : Option String} (hp : Path.IsPath p)
    (h : o.nearest? p = some (place, origin)) :
    o.nodes.get? place = some origin ∧ Path.within p place = true := by
  obtain ⟨q, hq, hnote⟩ := List.exists_of_findSome?_eq_some h
  obtain ⟨origin', horigin, heq⟩ := Option.map_eq_some_iff.1 hnote
  cases heq
  exact ⟨horigin, (hp.mem_ancestors hq).2⟩

/-! ## What stands behind a path -/

/-- A subtree without further notes has one origin. -/
theorem backing_of_undivided (ho : o.Sound) (hp : Path.IsPath p) (hroot : Path.IsPath root)
    (hne : root ≠ "/") (hwithin : Path.within p root = true)
    (hdivides : o.divides root p = false) :
    o.backing p = (o.backing root).map (Path.rebase p root) := by
  unfold backing
  rw [nearest?_of_undivided hp hroot hwithin hdivides]
  cases hnearest : o.nearest? root with
  | none => exact congrArg some (hp.rebase_same hroot hne hwithin).symm
  | some note =>
    obtain ⟨place, origin⟩ := note
    obtain ⟨hnote, hrootPlace⟩ := nearest?_eq_some hroot hnearest
    obtain ⟨hplace, hplaceRoot⟩ := ho.place hnote
    cases origin with
    | none => rfl
    | some real =>
      exact congrArg some (hp.rebase_rebase_within hroot hplace (ho.origin hnote).1 hplaceRoot
        hwithin hrootPlace).symm

/-- What stands behind a well-formed path is well-formed, and not the root but for the root. -/
theorem isPath_of_backing (ho : o.Sound) (hp : Path.IsPath p) {real : String}
    (h : o.backing p = some real) : Path.IsPath real ∧ (p ≠ "/" → real ≠ "/") := by
  rw [backing] at h
  cases hnearest : o.nearest? p with
  | none =>
    rw [hnearest] at h
    cases h
    exact ⟨hp, id⟩
  | some note =>
    obtain ⟨place, origin⟩ := note
    obtain ⟨hnote, hwithin⟩ := nearest?_eq_some hp hnearest
    obtain ⟨hplace, hplaceRoot⟩ := ho.place hnote
    rw [hnearest] at h
    cases origin with
    | none => cases h
    | some origin =>
      cases h
      obtain ⟨horigin, horiginRoot⟩ := ho.origin hnote
      refine ⟨hp.rebase hplace horigin hplaceRoot hwithin, fun _ heq => horiginRoot ?_⟩
      have := Path.within_rebase hplaceRoot hwithin origin
      rw [heq] at this
      exact horigin.eq_root_of_within this

/-! ## Further notes -/

theorem get?_plan (o : Overlay) (path : String) (origin : Option String) (q : String) :
    (o.plan path origin).nodes.get? q =
      if q = path then some origin
      else if Path.within q path then none else o.nodes.get? q := by
  rw [plan, Table.get?_insert, Table.get?_filterKeys]
  cases Path.within q path <;> simp

theorem Sound.plan (ho : o.Sound) {path : String} {origin : Option String}
    (hpath : Path.IsPath path) (hroot : path ≠ "/")
    (horigin : ∀ real, origin = some real → Path.IsPath real ∧ real ≠ "/") :
    (o.plan path origin).Sound := by
  refine ⟨fun {q origin'} hq => ?_, fun {q real} hq => ?_⟩
  · rw [get?_plan] at hq
    split at hq
    · next heq => exact heq ▸ ⟨hpath, hroot⟩
    · split at hq
      · cases hq
      · exact ho.place hq
  · rw [get?_plan] at hq
    split at hq
    · exact horigin real (Option.some.inj hq)
    · split at hq
      · cases hq
      · exact ho.origin hq

/-- A note about a subtree decides what is seen in it, and changes nothing elsewhere. -/
theorem backing_plan {path : String} {origin : Option String} (hp : Path.IsPath p)
    (hpath : Path.IsPath path) :
    (o.plan path origin).backing p =
      if Path.within p path then origin.map (Path.rebase p path) else o.backing p := by
  by_cases hwithin : Path.within p path = true
  · have hdivides : (o.plan path origin).divides path p = false := by
      refine List.any_eq_false.2 fun q hq => ?_
      have hnote := Table.mem_keys.1 hq
      rw [Table.contains, get?_plan] at hnote
      by_cases heq : q = path
      · simp [heq]
      · by_cases hq : Path.within q path = true
        · simp [heq, hq] at hnote
        · simp [hq]
    have hhead : (o.plan path origin).nearest? path = some (path, origin) := by
      rw [nearest?]
      rw [Path.ancestors, List.findSome?_cons, get?_plan, if_pos rfl]
      rfl
    rw [if_pos hwithin, backing, nearest?_of_undivided hp hpath hwithin hdivides, hhead]
  · rw [if_neg hwithin, backing, nearest?_congr (o := o) hp, ← backing]
    intro q hq hpq
    have hqPath : ¬ Path.within q path = true := fun h =>
      hwithin (hp.within_trans hq hpath hpq h)
    have hne : q ≠ path := by
      rintro rfl
      exact hqPath (Path.within_refl q)
    rw [get?_plan, if_neg hne, if_neg hqPath]

/-! ## What is seen -/

variable {s : State}

/-- A principal that exists is seen. -/
theorem kind?_of_get? {id : String} {principal : Principal}
    (h : s.principals.get? id = some principal) : o.kind? s id = some principal.kind := by
  rw [kind?, h]

/-- A principal that was not seen is seen once it is noted. -/
theorem kind?_addPrincipal {id : String} (h : o.kind? s id = none) (kind : PrincipalKind)
    (id' : String) :
    (o.addPrincipal id kind).kind? s id' = if id' = id then some kind else o.kind? s id' := by
  unfold kind? at *
  by_cases hid : id' = id
  · subst hid
    rw [if_pos rfl]
    cases hp : s.principals.get? id' with
    | some p => simp [hp] at h
    | none => exact Table.get?_insert_self ..
  · rw [if_neg hid]
    cases s.principals.get? id' with
    | some p => rfl
    | none => exact Table.get?_insert_of_ne _ _ hid

/-- Without notes every path stands for itself. -/
theorem node?_of_isEmpty (hempty : o.nodes.isEmpty = true) (p : String) :
    o.node? s p = s.nodes.get? p := by
  have hnone : o.nearest? p = none := by
    refine List.findSome?_eq_none_iff.2 fun q _ => ?_
    have : o.nodes.get? q = none := by
      rw [Table.get?, List.isEmpty_iff.1 hempty]
      rfl
    rw [this]
    rfl
  rw [node?, backing, hnone]
  rfl

theorem isSome_node?_of_mem_seen (hp : p ∈ o.seen s root) : (o.node? s p).isSome = true := by
  rw [seen] at hp
  split at hp
  · next hempty =>
    rw [State.subtree, List.mem_filter, Table.mem_keys] at hp
    rw [node?_of_isEmpty hempty]
    exact hp.1
  · rw [← NameSet.mem_def, NameSet.mem_ofList, List.mem_flatMap] at hp
    obtain ⟨⟨place, real⟩, -, hp⟩ := hp
    obtain ⟨r, hr, heq⟩ := List.mem_filterMap.1 hp
    simp only at heq
    split at heq
    · next hbacking =>
      cases heq
      rw [State.subtree, List.mem_filter, Table.mem_keys] at hr
      rw [node?, hbacking]
      exact hr.1
    · cases heq

/-- After a subtree is dropped, nothing is seen in it. -/
theorem node?_dropNode (hp : Path.IsPath p) (hroot : Path.IsPath root) :
    (o.dropNode root).node? s p = if Path.within p root then none else o.node? s p := by
  rw [node?, dropNode, backing_plan hp hroot]
  split <;> rfl

/-- After a subtree is put somewhere, there is seen what was seen at its source, as far as no note
was in the way there. -/
theorem node?_putNode (ho : o.Sound) (hp : Path.IsPath p) (hsource : Path.IsPath source)
    (hsourceRoot : source ≠ "/") (htarget : Path.IsPath target) (htargetRoot : target ≠ "/") :
    (Path.within p target = true → o.divides source (Path.rebase p target source) = false →
      (o.putNode source target).node? s p = o.node? s (Path.rebase p target source)) ∧
    (¬ Path.within p target = true → (o.putNode source target).node? s p = o.node? s p) := by
  rw [node?, putNode, backing_plan hp htarget]
  refine ⟨fun hwithin hdivides => ?_, fun hwithin => ?_⟩
  · have hback := hp.rebase htarget hsource htargetRoot hwithin
    have hbackWithin := Path.within_rebase htargetRoot hwithin source
    rw [if_pos hwithin, node?, backing_of_undivided ho hback hsource hsourceRoot hbackWithin
      hdivides]
    cases hreal : o.backing source with
    | none => rfl
    | some real =>
      have hrealPath := (isPath_of_backing ho hsource hreal).1
      show s.nodes.get? _ = s.nodes.get? _
      rw [hp.rebase_via htarget hsource htargetRoot hwithin hsourceRoot hrealPath]
  · rw [if_neg hwithin]
    rfl

end Entitle.Overlay
