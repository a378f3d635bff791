import Entitle.Proofs.Convergence
import Entitle.Proofs.Forecasts
import Entitle.Proofs.Rehearsal
import Entitle.Proofs.Rerooting

/-!
# What is seen of a subtree

To list a subtree through an overlay, the subtrees that make it up are listed where they are now,
their paths are put where they would be seen, and what another note hides is left out. That gives
the nodes that are seen at or beneath the path, with one exception: beneath the root of the tree,
as soon as anything is noted, a node is only listed if a note is at or above it.

## Main definitions

* `Path.apart`: neither of two paths is within the other.
* `Action.roots`, `Action.changes`: the subtrees that an action is about, and the places where it
  changes something.
* `Depicts`: the notes of a forecast show the tree of an application.

## Main statements

* `Overlay.mem_seen`: which nodes are listed.
* `Depicts.step`: what an action copies, moves or deletes is seen afterwards as it will be.
* `Plan.purge_foreseen`: what a forecast says of a purge after such actions.
* `Plan.purge_dryRun_ne_apply`: a purge of the whole tree that the forecast takes for done.
-/
namespace Entitle

/-! ## Texts without a slash at the beginning -/

namespace Path

variable {p q up : String}

theorem IsPath.head? (hp : IsPath p) : p.toList.head? = some '/' := by
  obtain ⟨a, ha, rfl⟩ := isPath_iff.1 hp
  cases a with
  | nil => rfl
  | cons x a => simp [toList_ofSegments]

/-- The text above one that does not begin with a slash does not do so either. -/
theorem head?_parent (hp : p.toList.head? ≠ some '/') (h : parent? p = some up) :
    up.toList.head? ≠ some '/' := by
  obtain ⟨rest, hrest, -⟩ := exists_append_of_parent h
  intro hup
  obtain ⟨more, hmore⟩ := List.head?_eq_some_iff.1 hup
  exact hp (by simp [hrest, hmore])

/-- Above a text that does not begin with a slash there is no well-formed path. -/
theorem not_isPath_of_mem_ancestors (hp : p.toList.head? ≠ some '/') (hq : q ∈ ancestors p) :
    ¬ IsPath q := by
  induction hn : p.length using Nat.strong_induction_on generalizing p with
  | h n ih =>
    rw [ancestors] at hq
    rcases List.mem_cons.1 hq with rfl | hq
    · exact fun hpath => hp hpath.head?
    · split at hq
      · cases hq
      · next up hup => exact ih up.length (hn ▸ length_parent hup) (head?_parent hp hup) hq rfl

/-- A path that is put from beneath the root to beneath the root loses its slash. -/
theorem IsPath.head?_rebase_root (hp : IsPath p) (hne : p ≠ "/") :
    (Path.rebase p "/" "/").toList.head? ≠ some '/' := by
  simpa [within] using hp.not_within_rebase_root hp.within_root hne "/"

end Path

namespace Overlay

variable {o : Overlay} {s : State} {p q root : String}

/-! ## Notes at and above a path -/

/-- If a note is in the way between a path and a subtree that it is in, the nearest one is. -/
theorem exists_nearest?_of_divides (ho : o.Sound) (hp : Path.IsPath p) (hroot : Path.IsPath root)
    (hwithin : Path.within p root = true) (hdivides : o.divides root p = true) :
    ∃ place origin, o.nearest? p = some (place, origin) ∧ Path.within place root = true := by
  obtain ⟨below, hancestors, hbelow⟩ := hp.ancestors_of_within hroot hwithin
  obtain ⟨note, hnote, hbetween⟩ := List.any_eq_true.1 hdivides
  simp only [Bool.and_eq_true, bne_iff_ne] at hbetween
  obtain ⟨⟨hnoteRoot, hne⟩, hpnote⟩ := hbetween
  obtain ⟨origin, horigin⟩ := Option.isSome_iff_exists.1 (Table.mem_keys.1 hnote)
  have hnotePath := (ho.place horigin).1
  have hmem : note ∈ below := by
    obtain ⟨above, habove, -⟩ := hp.ancestors_of_within hnotePath hpnote
    have : note ∈ Path.ancestors p := by
      rw [habove, Path.ancestors]
      exact List.mem_append_right _ List.mem_cons_self
    rw [hancestors] at this
    refine (List.mem_append.1 this).resolve_right fun hup => hne ?_
    exact hnotePath.eq_of_within hroot hnoteRoot (hroot.mem_ancestors hup).2
  have hsome : (below.findSome? fun q => (o.nodes.get? q).map (q, ·)).isSome = true :=
    List.findSome?_isSome_iff.2 ⟨note, hmem, by simp [horigin]⟩
  obtain ⟨⟨place, origin'⟩, hfound⟩ := Option.isSome_iff_exists.1 hsome
  obtain ⟨q, hq, heq⟩ := List.exists_of_findSome?_eq_some hfound
  obtain ⟨_, -, heq⟩ := Option.map_eq_some_iff.1 heq
  cases heq
  refine ⟨place, origin', ?_, (hbelow place hq).2.2.1⟩
  rw [nearest?, hancestors, List.findSome?_append, hfound, Option.some_or]

/-- A note at or above a path is nearest to it, or another one is. -/
theorem isSome_nearest? (ho : o.Sound) (hp : Path.IsPath p) {place : String}
    {origin : Option String} (hnote : o.nodes.get? place = some origin)
    (hwithin : Path.within p place = true) : (o.nearest? p).isSome = true := by
  obtain ⟨below, hancestors, -⟩ := hp.ancestors_of_within (ho.place hnote).1 hwithin
  have hmem : place ∈ Path.ancestors p := by
    rw [hancestors, Path.ancestors]
    exact List.mem_append_right _ List.mem_cons_self
  rw [nearest?, List.findSome?_isSome_iff]
  exact ⟨place, hmem, by simp [hnote]⟩

private theorem isSome_nearest?_iff (ho : o.Sound) (hp : Path.IsPath p) :
    (o.nearest? p).isSome = true ↔
      ∃ place ∈ o.nodes.keys, Path.within p place = true := by
  constructor
  · intro h
    obtain ⟨⟨place, origin⟩, hnearest⟩ := Option.isSome_iff_exists.1 h
    obtain ⟨hnote, hwithin⟩ := nearest?_eq_some hp hnearest
    exact ⟨place, Table.mem_keys.2 (by simp [Table.contains, hnote]), hwithin⟩
  · rintro ⟨place, hplace, hwithin⟩
    obtain ⟨origin, hnote⟩ := Option.isSome_iff_exists.1 (Table.mem_keys.1 hplace)
    exact isSome_nearest? ho hp hnote hwithin

/-- Nothing is noted about a text that does not begin with a slash. -/
theorem backing_of_relative (ho : o.Sound) (hp : p.toList.head? ≠ some '/') :
    o.backing p = some p := by
  have hnone : o.nearest? p = none := by
    refine List.findSome?_eq_none_iff.2 fun q hq => ?_
    cases hnote : o.nodes.get? q with
    | none => rfl
    | some origin => exact absurd (ho.place hnote).1 (Path.not_isPath_of_mem_ancestors hp hq)
  rw [backing, hnone]

/-- Nothing is noted about the root. -/
theorem nearest?_root (ho : o.Sound) : o.nearest? "/" = none := by
  rw [nearest?, Path.ancestors_root, List.findSome?_cons]
  cases hnote : o.nodes.get? "/" with
  | none => rfl
  | some origin => exact absurd rfl (ho.place hnote).2

theorem backing_root (ho : o.Sound) : o.backing "/" = some "/" := by
  rw [backing, nearest?_root ho]

/-! ## What is listed -/

theorem mem_subtree : p ∈ s.subtree root ↔ s.hasNode p = true ∧ Path.within p root = true := by
  rw [State.subtree, List.mem_filter, Table.mem_keys]
  rfl

theorem mem_seenAt {place real : String} :
    q ∈ o.seenAt place real (s.subtree real) ↔
      ∃ r, o.backing q = some r ∧ s.hasNode r = true ∧ Path.within r real = true ∧
        Path.rebase r real place = q := by
  rw [seenAt, List.mem_filterMap]
  constructor
  · rintro ⟨r, hr, heq⟩
    simp only [Option.ite_none_right_eq_some, Option.some.injEq] at heq
    obtain ⟨hbacking, rfl⟩ := heq
    exact ⟨r, hbacking, (mem_subtree.1 hr).1, (mem_subtree.1 hr).2, rfl⟩
  · rintro ⟨r, hbacking, hnode, hwithin, rfl⟩
    exact ⟨r, mem_subtree.2 ⟨hnode, hwithin⟩, by simp [hbacking]⟩

theorem mem_placesWithin {place real : String} : (place, real) ∈ o.placesWithin root ↔
    o.nodes.get? place = some (some real) ∧ Path.within place root = true := by
  rw [placesWithin, List.mem_filterMap]
  constructor
  · rintro ⟨⟨place', origin⟩, hentry, heq⟩
    simp only [Option.ite_none_right_eq_some, Option.map_eq_some_iff, Prod.mk.injEq] at heq
    obtain ⟨hwithin, real', rfl, rfl, rfl⟩ := heq
    exact ⟨Table.get?_eq_some_iff.2 hentry, hwithin⟩
  · rintro ⟨hnote, hwithin⟩
    exact ⟨_, Table.get?_eq_some_iff.1 hnote, by simp [hwithin]⟩

/-- The paths that are listed, by the origins that are listed for them. -/
theorem mem_seen_of_isEmpty_eq_false (hnotes : o.nodes.isEmpty = false) : q ∈ o.seen s root ↔
    ∃ place real, (place, real) ∈ o.sourcesOf root ∧ q ∈ o.seenAt place real (s.subtree real) := by
  rw [seen, hnotes, if_neg Bool.false_ne_true, ← NameSet.mem_def, NameSet.mem_ofList,
    List.mem_flatMap]
  constructor
  · rintro ⟨⟨place, real⟩, hsource, hq⟩
    exact ⟨place, real, hsource, hq⟩
  · rintro ⟨place, real, hsource, hq⟩
    exact ⟨(place, real), hsource, hq⟩

theorem mem_sourcesOf {place real : String} : (place, real) ∈ o.sourcesOf root ↔
    (place = root ∧ o.backing root = some real) ∨
      (o.nodes.get? place = some (some real) ∧ Path.within place root = true) := by
  rw [sourcesOf, List.mem_append, mem_placesWithin, Option.mem_toList, Option.map_eq_some_iff]
  refine or_congr ⟨?_, ?_⟩ Iff.rfl
  · rintro ⟨real, hreal, heq⟩
    cases heq
    exact ⟨rfl, hreal⟩
  · rintro ⟨rfl, hreal⟩
    exact ⟨real, hreal, rfl⟩

private theorem sorted_subtree (s : State) (root : String) : (s.subtree root).Pairwise (· < ·) :=
  (List.pairwise_map.2 s.nodes.sorted).filter _

private theorem sorted_seen (o : Overlay) (s : State) (root : String) :
    (o.seen s root).Pairwise (· < ·) := by
  rw [seen]
  split
  · exact sorted_subtree s root
  · exact NameSet.sorted _

/-- What is listed is seen, and below the root of the tree there is a note at or above it. -/
theorem of_mem_seen (ho : o.Sound) (hs : s.Tree) (hroot : Path.IsPath root)
    (hnotes : o.nodes.isEmpty = false) (hq : q ∈ o.seen s root) :
    Path.IsPath q ∧ Path.within q root = true ∧
      (root ≠ "/" ∨ q = "/" ∨ (o.nearest? q).isSome = true) := by
  obtain ⟨place, real, hsource, hq⟩ := (mem_seen_of_isEmpty_eq_false hnotes).1 hq
  obtain ⟨r, hbacking, hnode, hwithin, rfl⟩ := mem_seenAt.1 hq
  have hr := hs.isPath hnode
  rcases mem_sourcesOf.1 hsource with ⟨rfl, hreal⟩ | ⟨hnote, hplaceRoot⟩
  · obtain ⟨hrealPath, hrealRoot⟩ := isPath_of_backing ho hroot hreal
    by_cases htop : place = "/"
    · subst htop
      obtain rfl : "/" = real := by simpa [backing_root ho] using hreal
      by_cases hrroot : r = "/"
      · subst hrroot
        rw [Path.rebase_self]
        exact ⟨.root, Path.within_refl _, .inr (.inl rfl)⟩
      · -- without its slash the path stands for itself, and not for the node
        have hrelative := hr.head?_rebase_root hrroot
        rw [backing_of_relative ho hrelative, Option.some.injEq] at hbacking
        rw [hbacking] at hrelative
        exact absurd hr.head? hrelative
    · exact ⟨hr.rebase hrealPath hroot (hrealRoot htop) hwithin,
        Path.within_rebase (hrealRoot htop) hwithin _, .inl htop⟩
  · obtain ⟨hplacePath, -⟩ := ho.place hnote
    obtain ⟨hrealPath, hrealRoot⟩ := ho.origin hnote
    have hpath := hr.rebase hrealPath hplacePath hrealRoot hwithin
    have hplace := Path.within_rebase hrealRoot hwithin place
    exact ⟨hpath, hpath.within_trans hplacePath hroot hplace hplaceRoot,
      .inr (.inr (isSome_nearest? ho hpath hnote hplace))⟩

/-- What is seen is listed, but beneath the root of the tree only if a note is at or above it. -/
theorem mem_seen_of_node? (ho : o.Sound) (hroot : Path.IsPath root)
    (hnotes : o.nodes.isEmpty = false) (hq : Path.IsPath q) (hwithin : Path.within q root = true)
    (hseen : (o.node? s q).isSome = true)
    (htop : root ≠ "/" ∨ q = "/" ∨ (o.nearest? q).isSome = true) : q ∈ o.seen s root := by
  obtain ⟨real, hbacking, hnode⟩ : ∃ real, o.backing q = some real ∧ s.hasNode real = true := by
    rw [node?, Option.isSome_bind] at hseen
    obtain ⟨real, hreal, hnode⟩ := (Option.any_eq_true _ _).1 hseen
    exact ⟨real, hreal, hnode⟩
  rw [mem_seen_of_isEmpty_eq_false hnotes]
  cases hdivides : o.divides root q with
  | true =>
    -- the nearest note is within the subtree, so its origin is listed
    obtain ⟨place, origin, hnearest, hplaceRoot⟩ :=
      exists_nearest?_of_divides ho hq hroot hwithin hdivides
    obtain ⟨hnote, hqplace⟩ := nearest?_eq_some hq hnearest
    obtain ⟨hplacePath, hplaceNe⟩ := ho.place hnote
    rw [backing, hnearest] at hbacking
    obtain ⟨from', rfl, rfl⟩ := Option.map_eq_some_iff.1 hbacking
    obtain ⟨hfromPath, hfromNe⟩ := ho.origin hnote
    refine ⟨place, from', mem_sourcesOf.2 (.inr ⟨hnote, hplaceRoot⟩), mem_seenAt.2 ⟨_, ?_, hnode,
      Path.within_rebase hplaceNe hqplace _,
      hq.rebase_rebase hplacePath hfromPath hplaceNe hqplace hfromNe⟩⟩
    rw [backing, hnearest]
    rfl
  | false =>
    have hnearest := nearest?_of_undivided hq hroot hwithin hdivides
    by_cases htop' : root = "/"
    · subst htop'
      rw [nearest?_root ho] at hnearest
      have hqroot : q = "/" := by simpa [hnearest] using htop
      subst hqroot
      obtain rfl : "/" = real := by simpa [backing_root ho] using hbacking
      exact ⟨"/", "/", mem_sourcesOf.2 (.inl ⟨rfl, backing_root ho⟩),
        mem_seenAt.2 ⟨"/", backing_root ho, hnode, Path.within_refl _, Path.rebase_self _ _⟩⟩
    · have hundivided := backing_of_undivided ho hq hroot htop' hwithin hdivides
      rw [hbacking] at hundivided
      obtain ⟨from', hfrom, rfl⟩ := Option.map_eq_some_iff.1 hundivided.symm
      obtain ⟨hfromPath, hfromNe⟩ := isPath_of_backing ho hroot hfrom
      exact ⟨root, from', mem_sourcesOf.2 (.inl ⟨rfl, hfrom⟩), mem_seenAt.2 ⟨_, hbacking, hnode,
        Path.within_rebase htop' hwithin _,
        hq.rebase_rebase hroot hfromPath htop' hwithin (hfromNe htop')⟩⟩

/-- The nodes that are listed for a path are those that are seen at or beneath it; beneath the root
of the tree, as soon as anything is noted, a note has to be at or above them. -/
theorem mem_seen (ho : o.Sound) (hs : s.Tree) (hroot : Path.IsPath root) : q ∈ o.seen s root ↔
    Path.IsPath q ∧ Path.within q root = true ∧ (o.node? s q).isSome = true ∧
      (o.nodes.isEmpty = true ∨ root ≠ "/" ∨ q = "/" ∨ (o.nearest? q).isSome = true) := by
  cases hnotes : o.nodes.isEmpty with
  | true =>
    rw [seen, if_pos hnotes, mem_subtree, node?_of_isEmpty hnotes]
    simp only [true_or, and_true]
    constructor
    · rintro ⟨hnode, hwithin⟩
      exact ⟨hs.isPath hnode, hwithin, hnode⟩
    · rintro ⟨-, hwithin, hnode⟩
      exact ⟨hnode, hwithin⟩
  | false =>
    simp only [Bool.false_eq_true, false_or]
    constructor
    · intro hq
      obtain ⟨hpath, hwithin, htop⟩ := of_mem_seen ho hs hroot hnotes hq
      exact ⟨hpath, hwithin, isSome_node?_of_mem_seen hq, htop⟩
    · rintro ⟨hpath, hwithin, hseen, htop⟩
      exact mem_seen_of_node? ho hroot hnotes hpath hwithin hseen htop

end Overlay

/-! ## Places that are changed -/

/-- Neither path is within the other. -/
def Path.apart (p q : String) : Bool :=
  !within p q && !within q p

namespace Action

/-- The root of the subtree that an action copies, moves or deletes, and the root that a copied or
moved subtree is to have. -/
def roots : Action → List String
  | copy source target | move source target => [source, target]
  | delete path => [path]
  | _ => []

/-- The places where something else is found after the action was applied. -/
def changes : Action → List String
  | copy _ target => [target]
  | move source target => [source, target]
  | delete path => [path]
  | _ => []

end Action

/-- The places that an entry reports to be changed. -/
def ReportEntry.changes (e : ReportEntry) : List String :=
  if e.outcome.isApplied then e.action.action.changes else []

private theorem ReportEntry.changes_eq (e : ReportEntry) :
    e.changes = if e.outcome.kind = .applied then e.action.action.changes else [] := by
  rw [changes]
  cases e.outcome <;> rfl

theorem ReportEntry.mem_roots_of_mem_changes {e : ReportEntry} {place : String}
    (h : place ∈ e.changes) : place ∈ e.action.action.roots := by
  rw [changes] at h
  split at h
  · cases ha : e.action.action <;> simp_all [Action.changes, Action.roots]
  · cases h

/-- A further note is one note more, if no other one is about a place in the subtree. -/
theorem Overlay.mem_keys_plan {o : Overlay} {path : String} {origin : Option String}
    (h : ∀ q ∈ o.nodes.keys, Path.within q path = true → q = path) {place : String} :
    place ∈ (o.plan path origin).nodes.keys ↔ place = path ∨ place ∈ o.nodes.keys := by
  rw [Table.mem_keys, Table.contains, get?_plan]
  by_cases heq : place = path
  · simp [heq]
  · by_cases hwithin : Path.within place path = true
    · simp [heq, hwithin, mt (fun hmem => h place hmem hwithin) heq]
    · simp [heq, hwithin, Table.mem_keys, Table.contains]

/-- Through the notes `o` a forecast sees of `s₀` the nodes of `s`, and the notes are about the
places that were changed. -/
structure Depicts (s₀ : State) (changed : List String) (o : Overlay) (s : State) : Prop where
  tree : s.Tree
  sound : o.Sound
  node : ∀ {p}, Path.IsPath p → o.node? s₀ p = s.nodes.get? p
  noted : ∀ {place}, place ∈ o.nodes.keys ↔ place ∈ changed

namespace Depicts

variable {s₀ s s' : State} {changed : List String} {o : Overlay} {p path source target : String}

theorem start (hs : s.Tree) : Depicts s [] .empty s where
  tree := hs
  sound := .empty
  node _ := Overlay.node?_empty _
  noted := by simp [Overlay.empty, Table.keys, Table.empty]

theorem isSome_node? (h : Depicts s₀ changed o s) (hp : Path.IsPath p) :
    (o.node? s₀ p).isSome = s.hasNode p := by
  rw [h.node hp]
  rfl

/-- The verdict is the same both ways. -/
theorem verdict_eq (h : Depicts s₀ changed o s) {a : Action} (ha : a.isTransplant = true)
    (hlegal : a.Legal) : a.verdict o s₀ = a.verdict .empty s := by
  cases a with
  | copy source target =>
    rw [Action.verdict_copy, Action.verdict_copy, Overlay.isSome_node?_empty,
      Overlay.isSome_node?_empty, h.isSome_node? hlegal.1, h.isSome_node? hlegal.2.1]
  | move source target =>
    rw [Action.verdict_move, Action.verdict_move, Overlay.isSome_node?_empty,
      Overlay.isSome_node?_empty, h.isSome_node? hlegal.1, h.isSome_node? hlegal.2.1]
  | delete path =>
    rw [Action.verdict_delete, Action.verdict_delete, Overlay.isSome_node?_empty,
      h.isSome_node? hlegal.1]
  | _ => cases ha

/-! ### One action -/

theorem of_delete (h : Depicts s₀ changed o s) (hpath : Path.IsPath path)
    (hfree : ∀ q ∈ changed, Path.within q path = true → q = path)
    (hs' : s.delete path = .ok s') : Depicts s₀ (changed ++ [path]) (o.dropNode path) s' where
  tree := h.tree.delete hpath hs'
  sound := h.sound.plan hpath (State.delete_eq_ok hs').1 fun _ hreal => by cases hreal
  node {p} hp := by
    rw [Overlay.node?_dropNode hp hpath, State.get?_delete hs', h.node hp]
  noted {place} := by
    rw [Overlay.dropNode, Overlay.mem_keys_plan fun q hq => hfree q (h.noted.1 hq), h.noted]
    simp [or_comm]

section

variable {keepSource : Bool} (hsource : Path.IsPath source) (htarget : Path.IsPath target)
  (houtside : ¬ Path.within target source = true)
include hsource htarget houtside

private theorem sound_putNode (h : Depicts s₀ changed o s)
    (hs' : s.transfer source target keepSource = .ok s') : (o.putNode source target).Sound :=
  h.sound.plan htarget (h.tree.target_ne_root hs') fun _ hreal =>
    (Overlay.isPath_of_backing h.sound hsource hreal).imp_right
      (· (State.source_ne_root htarget houtside))

variable (hsourceFree : ∀ q ∈ changed, Path.within q source = true → q = source)
include hsourceFree

/-- What is put somewhere is seen there, if nothing was changed inside of it before. -/
theorem node?_putNode (h : Depicts s₀ changed o s)
    (hs' : s.transfer source target keepSource = .ok s') (hp : Path.IsPath p) :
    (o.putNode source target).node? s₀ p =
      if Path.within p target then s.nodes.get? (Path.rebase p target source)
      else s.nodes.get? p := by
  have hsourceRoot := State.source_ne_root htarget houtside
  have htargetRoot := h.tree.target_ne_root hs'
  obtain ⟨hinside, helsewhere⟩ := Overlay.node?_putNode (s := s₀) h.sound hp hsource hsourceRoot
    htarget htargetRoot
  split
  · next hwithin =>
    have hundivided : o.divides source (Path.rebase p target source) = false := by
      refine List.any_eq_false.2 fun q hq hbetween => ?_
      simp only [Bool.and_eq_true, bne_iff_ne] at hbetween
      exact hbetween.1.2 (hsourceFree q (h.noted.1 hq) hbetween.1.1)
    rw [hinside hwithin hundivided, h.node (hp.rebase htarget hsource htargetRoot hwithin)]
  · next hwithin => rw [helsewhere hwithin, h.node hp]

variable (htargetFree : ∀ q ∈ changed, Path.within q target = true → q = target)
include htargetFree

theorem of_copy (h : Depicts s₀ changed o s) (hs' : s.transfer source target true = .ok s') :
    Depicts s₀ (changed ++ [target]) (o.putNode source target) s' where
  tree := h.tree.transfer hsource (State.source_ne_root htarget houtside) htarget houtside hs'
  sound := h.sound_putNode hsource htarget houtside hs'
  node {p} hp := by
    rw [h.node?_putNode hsource htarget houtside hsourceFree hs' hp, State.get?_transfer h.tree
      hsource (State.source_ne_root htarget houtside) htarget hs' hp]
    simp
  noted {place} := by
    rw [Overlay.putNode, Overlay.mem_keys_plan fun q hq => htargetFree q (h.noted.1 hq), h.noted]
    simp [or_comm]

theorem of_move (h : Depicts s₀ changed o s) (hs' : s.transfer source target false = .ok s') :
    Depicts s₀ (changed ++ [source, target]) ((o.putNode source target).dropNode source) s' where
  tree := h.tree.transfer hsource (State.source_ne_root htarget houtside) htarget houtside hs'
  sound := (h.sound_putNode hsource htarget houtside hs').plan hsource
    (State.source_ne_root htarget houtside) fun _ hreal => by cases hreal
  node {p} hp := by
    rw [Overlay.node?_dropNode hp hsource,
      h.node?_putNode hsource htarget houtside hsourceFree hs' hp, State.get?_transfer h.tree
        hsource (State.source_ne_root htarget houtside) htarget hs' hp]
    by_cases hpsource : Path.within p source = true
    · have hptarget : ¬ Path.within p target = true := fun hptarget => Bool.false_ne_true
        ((h.tree.not_within_source hsource htarget houtside hs' hp hptarget).symm.trans hpsource)
      simp [hpsource, hptarget]
    · simp [hpsource]
  noted {place} := by
    have hput : ∀ {place}, place ∈ (o.putNode source target).nodes.keys ↔
        place = target ∨ place ∈ changed := by
      intro place
      rw [Overlay.putNode, Overlay.mem_keys_plan fun q hq => htargetFree q (h.noted.1 hq), h.noted]
    rw [Overlay.dropNode, Overlay.mem_keys_plan, hput]
    · simp only [List.mem_append, List.mem_cons, List.not_mem_nil, or_false]
      tauto
    · rintro q hq hwithin
      rcases hput.1 hq with rfl | hq
      · exact absurd hwithin houtside
      · exact hsourceFree q hq hwithin

end

/-- What is put somewhere both times goes through in the forecast too. -/
theorem foresee?_of_transfer (h : Depicts s₀ changed o s) {a : Action} {c : Change}
    (hverdict : a.verdict o s₀ = some (some c)) (hdestination : c.destination? = some target)
    (htarget : Path.IsPath target) {keepSource : Bool}
    (hs' : s.transfer source target keepSource = .ok s') : a.foresee? s₀ o = some (c.note o) := by
  obtain ⟨-, -, habove, -⟩ := State.transfer_eq_ok hs'
  refine Action.foresee?_of_parent hverdict hdestination fun up hup => ?_
  rw [h.isSome_node? (htarget.parent hup), habove up hup]

/-- What is applied is foreseen, and afterwards what is seen is what there is, if the paths of the
action are those of changes before or apart from them. -/
theorem step (h : Depicts s₀ changed o s) {a : PlannedAction} (ha : a.action.isTransplant = true)
    (hlegal : a.action.Legal)
    (hapart : ∀ p ∈ a.action.roots, ∀ q ∈ changed, q ≠ p → Path.apart q p = true)
    (hnext : a.action.next? s = some s') (clock : String) :
    ∃ o', a.action.foresee? s₀ o = some o' ∧ Depicts s₀ (changed ++ ReportEntry.changes
      ⟨a, (Running.on clock (a.action.attempt .apply .empty) s).result.1⟩) o' s' := by
  obtain ⟨action, origin⟩ := a
  have hverdict := h.verdict_eq ha hlegal
  have hfree : ∀ p ∈ action.roots, ∀ q ∈ changed, Path.within q p = true → q = p := by
    intro p hp q hq hwithin
    by_contra hne
    simpa [Path.apart, hwithin] using hapart p hp q hq hne
  have hkind := action.kind_attempt_apply clock s
  rw [hnext, Option.isSome_some] at hkind
  rw [ReportEntry.changes_eq, hkind]
  rcases Action.next?_eq_some hnext with ⟨hsettled, rfl⟩ | ⟨c, x, hdue, hanswer⟩
  · refine ⟨o, Action.foresee?_of_settled (hverdict.trans hsettled), ?_⟩
    rw [hsettled]
    simpa [Outcome.Kind.ofVerdict] using h
  · rw [hdue] at hverdict ⊢
    cases Action.of_verdict_due hdue with
    | copy source target =>
      obtain ⟨hsource, htarget, houtside⟩ := hlegal
      have hs' := State.done_eq_ok hanswer
      exact ⟨_, h.foresee?_of_transfer hverdict rfl htarget hs', h.of_copy hsource htarget houtside
        (hfree source List.mem_cons_self) (hfree target (by simp [Action.roots])) hs'⟩
    | move source target =>
      obtain ⟨hsource, htarget, houtside⟩ := hlegal
      have hs' := State.done_eq_ok hanswer
      exact ⟨_, h.foresee?_of_transfer hverdict rfl htarget hs', h.of_move hsource htarget houtside
        (hfree source List.mem_cons_self) (hfree target (by simp [Action.roots])) hs'⟩
    | delete path =>
      refine ⟨o.dropNode path, Action.foresee?_of_due hverdict, ?_⟩
      exact h.of_delete hlegal.1 (hfree path List.mem_cons_self) (State.done_eq_ok hanswer)
    | _ => cases ha

/-! ### Listing -/

/-- Is the node listed beneath `root` although only the notes about `changed` show the tree? -/
def listed (changed : List String) (root p : String) : Bool :=
  changed.isEmpty || root != "/" || p == "/" || changed.any (Path.within p ·)

/-- Listed through the notes are the nodes of the tree, but for those beneath the root that no note
is about. -/
theorem seen_eq (h : Depicts s₀ changed o s) (hs₀ : s₀.Tree) (hpath : Path.IsPath path) :
    o.seen s₀ path = (s.subtree path).filter (listed changed path) := by
  have hempty : o.nodes.isEmpty = changed.isEmpty := by
    have hkeys : o.nodes.keys = [] ↔ changed = [] := by
      simp only [List.eq_nil_iff_forall_not_mem, h.noted]
    rw [Bool.eq_iff_iff, List.isEmpty_iff, ← hkeys, Table.keys, List.map_eq_nil_iff,
      Table.isEmpty, List.isEmpty_iff]
  have hmem : ∀ p, p ∈ o.seen s₀ path ↔ p ∈ (s.subtree path).filter (listed changed path) := by
    intro p
    rw [Overlay.mem_seen h.sound hs₀ hpath, List.mem_filter, Overlay.mem_subtree, listed, hempty]
    simp only [Bool.or_eq_true, bne_iff_ne, beq_iff_eq, List.any_eq_true]
    constructor
    · rintro ⟨hp, hwithin, hseen, htop⟩
      rw [h.isSome_node? hp] at hseen
      rw [Overlay.isSome_nearest?_iff h.sound hp] at htop
      simp only [h.noted] at htop
      exact ⟨⟨hseen, hwithin⟩, by tauto⟩
    · rintro ⟨⟨hnode, hwithin⟩, htop⟩
      have hp := h.tree.isPath hnode
      rw [h.isSome_node? hp, Overlay.isSome_nearest?_iff h.sound hp]
      simp only [h.noted]
      exact ⟨hp, hwithin, hnode, by tauto⟩
  have hsets := NameSet.ext_mem (s := ⟨_, Overlay.sorted_seen o s₀ path⟩)
    (t := ⟨_, (Overlay.sorted_subtree s path).filter _⟩) hmem
  exact congrArg NameSet.toList hsets

/-- What a purge finds through the notes is what it would find in the tree, on the nodes that are
listed. -/
theorem excess_eq (h : Depicts s₀ changed o s) (hs₀ : s₀.Tree) (hpath : Path.IsPath path)
    (principal : Option String) (keep : List Grant) :
    o.excess s₀ path principal keep =
      (Overlay.empty.excess s path principal keep).filter (listed changed path ·.path) := by
  have hnode : ∀ p ∈ s.subtree path, ((o.acl s₀ p).filterMap (Overlay.excess? principal keep p)) =
      (Overlay.empty.acl s p).filterMap (Overlay.excess? principal keep p) := by
    intro p hp
    have hacl : o.acl s₀ p = Overlay.empty.acl s p := by
      rw [Overlay.acl, Overlay.acl, h.node (h.tree.isPath (Overlay.mem_subtree.1 hp).1),
        Overlay.node?_empty]
    rw [hacl]
  have hplace : ∀ p (acl : List Permission),
      (acl.filterMap (Overlay.excess? principal keep p)).filter (listed changed path ·.path) =
        if listed changed path p then acl.filterMap (Overlay.excess? principal keep p) else [] := by
    intro p acl
    have hsame : ∀ g ∈ acl.filterMap (Overlay.excess? principal keep p), g.path = p := by
      intro g hg
      obtain ⟨held, -, hexcess⟩ := List.mem_filterMap.1 hg
      exact (Overlay.of_excess?_eq_some hexcess).2.1
    split
    · next hlisted => exact List.filter_eq_self.2 fun g hg => by rw [hsame g hg, hlisted]
    · next hhidden => exact List.filter_eq_nil_iff.2 fun g hg => by rwa [hsame g hg]
  rw [Overlay.excess, h.seen_eq hs₀ hpath, Overlay.excess, Overlay.seen_empty, List.filter_flatMap]
  simp only [hplace]
  clear hplace
  generalize s.subtree path = nodes at hnode
  induction nodes with
  | nil => rfl
  | cons p rest ih =>
    have hrest := ih fun q hq => hnode q (List.mem_cons_of_mem _ hq)
    rw [List.flatMap_cons, ← hrest, List.filter_cons]
    split
    · rw [List.flatMap_cons, hnode p List.mem_cons_self]
    · rfl

end Depicts

/-! ## Purges -/

/-- The outcome of a purge that finds the permissions in `batch`. -/
def Outcome.ofPurge (words : Change → String) (path : String) (batch : List Grant) : Outcome :=
  if batch = [] then .skipped "nothing to revoke" else .applied (words (.revoke path batch))

namespace Action

variable (clock : String) (s : State) (o : Overlay) (path : String) (principal : Option String)
  (keep : List Grant)

/-- A purge always goes through in a forecast, and is not noted. -/
theorem foresee?_purge : (purge path principal keep).foresee? s o = some o := by
  have hverdict : (purge path principal keep).verdict o s =
      some (if o.excess s path principal keep = [] then .settled "nothing to revoke"
        else .due (.revoke path (o.excess s path principal keep)) : Finding).change? := by
    rw [verdict, look_inspect_purge o s fun _ => Overlay.isSome_node?_of_mem_seen]
    rfl
  refine foresee?_of_unnoted hverdict fun c hc => ?_
  cases hc
  exact ⟨rfl, rfl⟩

private theorem attempt_purge_dryRun :
    (Running.on clock ((purge path principal keep).attempt .dryRun o) s).result.1 =
      .ofPurge Change.forecast path (o.excess s path principal keep) := by
  obtain ⟨reads, -, hon⟩ := (purge path principal keep).on_attempt_dryRun clock s o
  rw [hon, look_carryOut_dryRun,
    look_inspect_purge o s fun _ => Overlay.isSome_node?_of_mem_seen, Outcome.ofPurge]
  by_cases hnone : o.excess s path principal keep = []
  · simp only [if_pos hnone]
    rfl
  · simp only [if_neg hnone]
    rfl

private theorem attempt_purge_apply :
    (Running.on clock ((purge path principal keep).attempt .apply .empty) s).result.1 =
      .ofPurge Change.done path (Overlay.empty.excess s path principal keep) := by
  obtain ⟨reads, -, hon⟩ := (purge path principal keep).on_attempt_apply clock s .empty
  have hanswer : s.answer (.revokePermissions (Overlay.empty.excess s path principal keep)) =
      .ok ((), s.revokeEach (Overlay.empty.excess s path principal keep)) := by
    rw [State.answer, State.revokeAll_excess]
    rfl
  rw [hon, look_inspect_purge .empty s fun _ => Overlay.isSome_node?_of_mem_seen, Outcome.ofPurge]
  by_cases hnone : Overlay.empty.excess s path principal keep = []
  · simp only [if_pos hnone]
    rfl
  · simp only [if_neg hnone, Change.call, hanswer]
    rfl

end Action

/-- The path of a purge that a directive without problems comes down to is well-formed. -/
theorem Action.isPath_of_purge {grants : List Grant} {d : Directive} (h : d.problems = [])
    {path : String} {principal : Option String} {keep : List Grant}
    (ha : ofDirective grants d = .purge path principal keep) : Path.IsPath path := by
  cases d with
  | purge path' principal' =>
    cases ha
    simp only [Directive.problems, List.append_eq_nil_iff] at h
    exact Rules.isPath_of_path h.1
  | check check => cases check <;> cases ha
  | _ => cases ha

/-- After actions that copy, move and delete subtrees and went through, a forecast and an
application of a purge find what is seen through the notes and what there is, and the notes show
what there is. -/
theorem PlannedAction.purge_side_by_side (clock : String) {actions before : List PlannedAction}
    {path : String} {principal : Option String} {keep : List Grant} {origin : Origin}
    (hactions : actions = before ++ [⟨.purge path principal keep, origin⟩])
    (hbefore : ∀ a ∈ before, a.action.isTransplant = true ∧ a.action.Legal)
    (hapart : ∀ p ∈ before.flatMap (·.action.roots), ∀ q ∈ before.flatMap (·.action.roots),
      q ≠ p → Path.apart q p = true) {s : State} (hs : s.Tree) :
    let forecast := (Running.on clock (runAll .dryRun .empty actions) s).result.1
    let applied := (Running.on clock (runAll .apply .empty actions) s).result.1
    (∀ e ∈ applied.take before.length, e.outcome.isFailed = false) →
      ∃ o s', applyAll? s before = some s' ∧
        Depicts s ((applied.take before.length).flatMap ReportEntry.changes) o s' ∧
        (forecast[before.length]?).map (·.outcome) =
          some (.ofPurge Change.forecast path (o.excess s path principal keep)) ∧
        (applied[before.length]?).map (·.outcome) =
          some (.ofPurge Change.done path (Overlay.empty.excess s' path principal keep)) := by
  intro forecast applied hnofail
  let I (done : List ReportEntry) (rest : List PlannedAction) (o : Overlay) (s' : State) : Prop :=
    actions = done.map (·.action) ++ rest ∧
      (rest ≠ [] → Depicts s (done.flatMap ReportEntry.changes) o s')
  have hstep : ∀ done a rest o s₁ s₂, I done (a :: rest) o s₁ → a.action.next? s₁ = some s₂ →
      ∃ o', a.action.foresee? s o = some o' ∧
        I (done ++ [⟨a, (Running.on clock (a.action.attempt .apply .empty) s₁).result.1⟩])
          rest o' s₂ := by
    rintro done a rest o s₁ s₂ ⟨hsplit, hdepicts⟩ hnext
    have hnow := hdepicts (List.cons_ne_nil _ _)
    rw [hactions] at hsplit
    rcases List.eq_nil_or_concat rest with rfl | ⟨more, last, rfl⟩
    · -- the purge is the last action, and nothing is said of what comes after it
      obtain ⟨-, heq⟩ := List.append_inj' hsplit rfl
      cases heq
      exact ⟨o, Action.foresee?_purge s o path principal keep, by simp [hactions, hsplit],
        fun hne => absurd rfl hne⟩
    · rw [List.concat_eq_append, ← List.cons_append, ← List.append_assoc] at hsplit
      obtain ⟨hsame, hlast⟩ := List.append_inj' hsplit rfl
      obtain ⟨ha, hlegal⟩ := hbefore a (by simp [hsame])
      have hroots : ∀ p ∈ a.action.roots, ∀ q ∈ done.flatMap ReportEntry.changes, q ≠ p →
          Path.apart q p = true := by
        intro p hp q hq hne
        obtain ⟨e, he, hq⟩ := List.mem_flatMap.1 hq
        refine hapart p ?_ q ?_ hne
        · exact List.mem_flatMap.2 ⟨a, by simp [hsame], hp⟩
        · refine List.mem_flatMap.2 ⟨e.action, ?_, ReportEntry.mem_roots_of_mem_changes hq⟩
          rw [hsame]
          exact List.mem_append_left _ (List.mem_map_of_mem he)
      obtain ⟨o', hforesee, h'⟩ := hnow.step ha hlegal hroots hnext clock
      exact ⟨o', hforesee, by simp [hactions, hsame, hlast], fun _ => by simpa using h'⟩
  have hstart : I [] actions .empty s := ⟨rfl, fun _ => .start hs⟩
  obtain ⟨o, s', ⟨-, hdepicts⟩, hall, hforecast, happlied⟩ :=
    entries_side_by_side clock I hstep [] hstart before.length ⟨.purge path principal keep, origin⟩
      (by simp [hactions]) hnofail
  refine ⟨o, s', by simpa [hactions] using hall, hdepicts (List.cons_ne_nil _ _), ?_, ?_⟩
  · rw [hforecast, Option.map_some, Action.attempt_purge_dryRun]
  · rw [happlied, Option.map_some, Action.attempt_purge_apply]

/-- Let a compiled plan copy, move and delete subtrees whose paths are not within each other, and
then purge a path, and let the copies, moves and deletions be applied without failure. The purge
then revokes what it finds in the tree that they leave. A forecast finds the same there, but beneath
the root of the tree it finds nothing on nodes at and above which nothing was changed. -/
theorem Plan.purge_foreseen {load : Loader} {limit : Nat} {identifier : String} {cache : Cache}
    {plan : Plan} (hplan : (compileScript load limit identifier cache).1 = .ok plan)
    {before : List PlannedAction} {path : String} {principal : Option String} {keep : List Grant}
    {origin : Origin} (hactions : plan.actions = before ++ [⟨.purge path principal keep, origin⟩])
    (hbefore : ∀ a ∈ before, a.action.isTransplant = true)
    (hapart : ∀ p ∈ before.flatMap (·.action.roots), ∀ q ∈ before.flatMap (·.action.roots),
      q ≠ p → Path.apart q p = true)
    {s : State} (hs : s.Tree) (clock : String)
    (hnofail : ∀ e ∈ (Running.on clock (plan.execute .apply) s).result.entries.take before.length,
      e.outcome.isFailed = false) :
    let forecast := (Running.on clock (plan.execute .dryRun) s).result.outcomes
    let applied := (Running.on clock (plan.execute .apply) s).result.outcomes
    let reached := (Running.on clock ((plan.take before.length).execute .apply) s).state
    let changed := ((Running.on clock (plan.execute .apply) s).result.entries.take
      before.length).flatMap ReportEntry.changes
    let batch := Overlay.empty.excess reached path principal keep
    let seen := batch.filter (Depicts.listed changed path ·.path)
    forecast[before.length]? = some (.ofPurge Change.forecast path seen) ∧
      applied[before.length]? = some (.ofPurge Change.done path batch) ∧
      (seen.length = batch.length ↔ path ≠ "/" ∨ changed = [] ∨
        ∀ g ∈ batch, g.path = "/" ∨ ∃ place ∈ changed, Path.within g.path place = true) := by
  intro forecast applied reached changed batch seen
  obtain ⟨script, root, c', e, -, -, he, rfl⟩ := compileScript_eq_ok hplan
  have hsound := Expansion.sound_of_ofChecked he
  have hlegal : ∀ a ∈ before, a.action.isTransplant = true ∧ a.action.Legal := by
    intro a ha
    obtain ⟨d, hd, rfl⟩ := List.mem_map.1 (hactions ▸ List.mem_append_left _ ha)
    exact ⟨hbefore _ ha, Action.legal_of_problems (hsound d hd)⟩
  have hpath : Path.IsPath path := by
    obtain ⟨d, hd, heq⟩ := List.mem_map.1 (hactions ▸ List.mem_concat_self)
    exact Action.isPath_of_purge (hsound d hd) (congrArg PlannedAction.action heq)
  rw [on_execute] at hnofail
  obtain ⟨o, s', hall, hdepicts, hforecast, happlied⟩ :=
    PlannedAction.purge_side_by_side clock hactions hlegal hapart hs hnofail
  have hreached : reached = s' := by
    have hspec := (PlannedAction.runAll_apply_spec clock before s).2
    rw [hall] at hspec
    have htake : (ofExpansion e).actions.take before.length = before := by simp [hactions]
    simp only [reached, on_execute, take, htake]
    exact hspec.2
  have hexcess := hdepicts.excess_eq hs hpath principal keep
  rw [← hreached] at hexcess happlied
  have hchanged : changed = ((Running.on clock (PlannedAction.runAll .apply .empty
      (ofExpansion e).actions) s).result.1.take before.length).flatMap ReportEntry.changes := by
    simp only [changed, on_execute]
  rw [← hchanged] at hexcess
  rw [hexcess] at hforecast
  refine ⟨?_, ?_, ?_⟩
  · simpa only [forecast, on_execute, Report.outcomes, List.getElem?_map] using hforecast
  · simpa only [applied, on_execute, Report.outcomes, List.getElem?_map] using happlied
  · rw [List.length_filter_eq_length_iff]
    simp only [Depicts.listed, Bool.or_eq_true, List.isEmpty_iff, bne_iff_ne, beq_iff_eq,
      List.any_eq_true]
    constructor
    · intro h
      by_cases htop : path ≠ "/"
      · exact .inl htop
      · by_cases hnone : changed = []
        · exact .inr (.inl hnone)
        · exact .inr (.inr fun g hg => by simpa [htop, hnone] using h g hg)
    · rintro (htop | hnone | h) g hg
      · exact .inl (.inl (.inr htop))
      · exact .inl (.inl (.inl hnone))
      · exact (h g hg).elim (fun hroot => .inl (.inr hroot)) .inr

/-- A repository where something is granted on a node that is copied, and on another one. -/
def State.granting : State where
  principals := .empty
  nodes := .ofList [("/", .empty), ("/a", .empty),
    ("/a/b", ⟨.empty, [.ofLists "g" .allow ["jcr:read"] []]⟩),
    ("/d", ⟨.empty, [.ofLists "h" .deny ["jcr:write"] []]⟩)]

theorem Plan.purge_foreseen_copy : ∃ plan,
    compileText "copy \"/a\" to \"/c\"; delete \"/d\"; purge \"/c\" for \"g\";" = .ok plan ∧
    plan.actions = plan.actions.take 2 ++ [⟨.purge "/c" (some "g") [], ⟨"main", 1, 33⟩⟩] ∧
    (∀ a ∈ plan.actions.take 2, a.action.isTransplant = true) ∧ State.granting.Tree ∧
    ∃ seen : List Grant, seen.length = 1 ∧
      (Running.on "" (plan.execute .dryRun) .granting).result.outcomes[2]? =
        some (.ofPurge Change.forecast "/c" seen) := by
  have hrun : ∃ plan,
      compileText "copy \"/a\" to \"/c\"; delete \"/d\"; purge \"/c\" for \"g\";" = .ok plan ∧
      plan.actions = plan.actions.take 2 ++ [⟨.purge "/c" (some "g") [], ⟨"main", 1, 33⟩⟩] ∧
      (plan.actions.take 2).length = 2 ∧
      (∀ a ∈ plan.actions.take 2, a.action.isTransplant = true) ∧
      (∀ p ∈ (plan.actions.take 2).flatMap (·.action.roots),
        ∀ q ∈ (plan.actions.take 2).flatMap (·.action.roots), q ≠ p → Path.apart q p = true) ∧
      (∀ e ∈ (Running.on "" (plan.execute .apply) .granting).result.entries.take 2,
        e.outcome.isFailed = false) ∧
      (Overlay.empty.excess (Running.on "" ((plan.take 2).execute .apply) .granting).state
        "/c" (some "g") []).length = 1 :=
    exists_of_compileText (by decide +kernel)
  obtain ⟨plan, hplan, hactions, htwo, hbefore, hapart, hnofail, hbatch⟩ := hrun
  have htree : State.granting.Tree := by decide +kernel
  have hpurge := purge_foreseen hplan hactions hbefore hapart htree ""
  rw [htwo] at hpurge
  obtain ⟨hforecast, -, hsame⟩ := hpurge hnofail
  exact ⟨plan, hplan, hactions, hbefore, htree, _, (hsame.2 (.inl (by decide))).trans hbatch,
    hforecast⟩

/-- Beneath the root of the tree a forecast does not find what stays where it is. -/
theorem Plan.purge_dryRun_ne_apply : State.granting.WellFormed ∧ ∃ plan,
    compileText "copy \"/a\" to \"/c\"; purge \"/\";" = .ok plan ∧
    (∀ a ∈ plan.actions.take 1, a.action.isTransplant = true) ∧
    ((plan.actions.take 1).flatMap (·.action.roots)).Pairwise (Path.apart · · = true) ∧
    (Running.on "" (plan.execute .dryRun) .granting).result.outcomes =
      [.applied "would copy '/a' to '/c'", .applied "would revoke 1 entry under '/'"] ∧
    (Running.on "" (plan.execute .apply) .granting).result.outcomes =
      [.applied "copied '/a' to '/c'", .applied "revoked 3 entries under '/'"] := by
  refine ⟨?_, exists_of_compileText ?_⟩
  all_goals decide +kernel

end Entitle
