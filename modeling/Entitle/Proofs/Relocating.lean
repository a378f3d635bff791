import Entitle.Proofs.Rerooting
import Entitle.Proofs.WellFormed

/-!
# Copies and moves

To copy or move a subtree is to put the nodes of one branch of the tree at the other place, and to
keep the rest. Both halves are said here of the nodes as a whole: the branch at the target is the
branch at the source with other paths, in the same order, and what is off the target is what was
there before, or what was there off the source. What undoes a copy or a move follows from that. A
state is determined by a branch and by what is off it, and paths that are put at the other place and
back are what they were.

## Main definitions

* `State.branch`, `State.offBranch`: the nodes at or beneath a path, and the others.
* `State.rerooted`: the nodes of a branch with the paths that they get at another place.

## Main statements

* `State.Tree.branch_transfer`, `State.Tree.offBranch_transfer`: the two halves.
* `State.Tree.relocation_reversible`: copies and moves are exact, and each has an inverse.
-/
namespace Entitle

/-! ## Tables in two parts -/

namespace Table

variable {β : Type}

/-- A table is determined by its parts. -/
theorem eq_of_filterKeys_eq {s t : Table β} {p : String → Bool}
    (h : s.filterKeys p = t.filterKeys p)
    (hnot : (s.filterKeys fun k => !p k) = t.filterKeys fun k => !p k) : s = t := by
  refine ext_get? fun k => ?_
  by_cases hk : p k = true
  · simpa [get?_filterKeys, hk] using congrArg (get? · k) h
  · simpa [get?_filterKeys, hk] using congrArg (get? · k) hnot

private theorem length_filterKeys_add (t : Table β) (p : String → Bool) :
    (t.filterKeys p).entries.length + (t.filterKeys fun k => !p k).entries.length =
      t.entries.length :=
  (List.length_eq_length_filter_add _).symm

end Table

/-! ## The order of paths at another place -/

namespace Path

variable {p q s t : String}

private theorem append_lt_append_iff {a rest more : List Char} :
    a ++ rest < a ++ more ↔ rest < more := by
  induction a with
  | nil => rfl
  | cons c a ih => simp [ih]

/-- What stands within a place keeps its order at another place. -/
theorem rebase_lt_rebase (hroot : t ≠ "/") (hp : within p s = true) (hq : within q s = true)
    (h : p < q) : rebase p s t < rebase q s t := by
  obtain ⟨rest, hrest, -⟩ := exists_append_of_within hp
  obtain ⟨more, hmore, -⟩ := exists_append_of_within hq
  rw [String.lt_iff_toList_lt, hrest, hmore, append_lt_append_iff] at h
  rw [String.lt_iff_toList_lt, toList_rebase_of_ne hrest hroot, toList_rebase_of_ne hmore hroot,
    append_lt_append_iff]
  exact h

end Path

namespace State

/-! ## Branches -/

/-- The nodes at or beneath a path. -/
def branch (s : State) (root : String) : Table Node :=
  s.nodes.filterKeys (Path.within · root)

/-- The nodes that are neither at a path nor beneath it. -/
def offBranch (s : State) (root : String) : Table Node :=
  s.nodes.filterKeys fun p => !Path.within p root

/-- The nodes at or beneath `source`, each with the path that it gets under `target`. -/
def rerooted (s : State) (source target : String) : List (String × Node) :=
  (s.branch source).entries.map fun e => (Path.rebase e.1 source target, e.2)

theorem mem_branch {s : State} {root p : String} {n : Node} :
    (p, n) ∈ (s.branch root).entries ↔ Path.within p root = true ∧ s.nodes.get? p = some n :=
  Table.mem_entries_filterKeys

private theorem sorted_rerooted (s : State) {source target : String} (hroot : target ≠ "/") :
    (s.rerooted source target).Pairwise fun e f => e.1 < f.1 := by
  refine List.pairwise_map.2 ((s.branch source).sorted.imp_of_mem ?_)
  intro e f he hf hlt
  exact Path.rebase_lt_rebase hroot (mem_branch.1 he).1 (mem_branch.1 hf).1 hlt

section

variable {s s' : State} {source target : String} {keepSource : Bool}

/-- A place that is free has nothing beneath it. -/
theorem Tree.get?_of_free (hs : s.Tree) (htarget : Path.IsPath target)
    (hfree : s.hasNode target = false) {p : String} (h : Path.within p target = true) :
    s.nodes.get? p = none := by
  cases hp : s.nodes.get? p with
  | none => rfl
  | some n =>
    have hnode := hs.hasNode_of_within (hasNode_eq_true_iff.2 ⟨n, hp⟩) htarget h
    rw [hfree] at hnode
    cases hnode

variable (hs : s.Tree) (hsource : Path.IsPath source) (htarget : Path.IsPath target)
  (houtside : ¬ Path.within target source = true)
  (h : s.transfer source target keepSource = .ok s')
include hs hsource htarget houtside h

/-- The branch at the target is the branch at the source with other paths. -/
theorem Tree.branch_transfer : (s'.branch target).entries = s.rerooted source target := by
  have hroot := source_ne_root htarget houtside
  have htargetRoot := hs.target_ne_root h
  have hs' := hs.transfer hsource hroot htarget houtside h
  let moved : Table Node := ⟨s.rerooted source target, s.sorted_rerooted htargetRoot⟩
  suffices hsame : s'.branch target = moved from congrArg Table.entries hsame
  refine Table.ext_get? fun p => ?_
  ext n
  rw [Table.get?_eq_some_iff, Table.get?_eq_some_iff]
  constructor
  · intro hmem
    have hn := mem_branch.1 hmem
    have hp := hs'.isPath (hasNode_eq_true_iff.2 ⟨n, hn.2⟩)
    rw [get?_transfer hs hsource hroot htarget h hp, if_pos hn.1] at hn
    have hback := mem_branch.2 ⟨Path.within_rebase htargetRoot hn.1 source, hn.2⟩
    refine List.mem_map.2 ⟨_, hback, ?_⟩
    rw [hp.rebase_rebase htarget hsource htargetRoot hn.1 hroot]
  · intro hn
    obtain ⟨⟨q, m⟩, hq, heq⟩ := List.mem_map.1 hn
    cases heq
    have hwithin := (mem_branch.1 hq).1
    have hget := (mem_branch.1 hq).2
    have hpath := hs.isPath (hasNode_eq_true_iff.2 ⟨m, hget⟩)
    have hplace := Path.within_rebase hroot hwithin target
    refine mem_branch.2 ⟨hplace, ?_⟩
    rw [get?_transfer hs hsource hroot htarget h (hpath.rebase hsource htarget hroot hwithin),
      if_pos hplace, hpath.rebase_rebase hsource htarget hroot hwithin htargetRoot]
    exact hget

/-- Off the target there is what was there, off the source if that is not kept. -/
theorem Tree.offBranch_transfer :
    s'.offBranch target = if keepSource then s.nodes else s.offBranch source := by
  have hroot := source_ne_root htarget houtside
  have hs' := hs.transfer hsource hroot htarget houtside h
  obtain ⟨-, hfree, -, -⟩ := transfer_eq_ok h
  refine Table.ext_get? fun p => ?_
  by_cases hp : Path.IsPath p
  · by_cases hwithin : Path.within p target = true
    · have hnone := hs.get?_of_free htarget hfree hwithin
      cases keepSource <;> simp [offBranch, Table.get?_filterKeys, hwithin, hnone]
    · have hget := get?_transfer hs hsource hroot htarget h hp
      rw [if_neg hwithin] at hget
      cases keepSource <;> cases hpsource : Path.within p source <;>
        simp [offBranch, Table.get?_filterKeys, hwithin, hpsource, hget]
  · have hnone : ∀ t : State, t.Tree → t.nodes.get? p = none := by
      intro t ht
      by_contra hsome
      exact hp (ht.isPath (Option.isSome_iff_ne_none.2 hsome))
    cases keepSource <;> simp [offBranch, Table.get?_filterKeys, hnone s hs, hnone s' hs']

/-- Nothing is left within a source that is not kept. -/
theorem Tree.hasNode_within_source (hkeep : keepSource = false) {p : String}
    (hp : Path.within p source = true) : s'.hasNode p = false := by
  have hroot := source_ne_root htarget houtside
  have hs' := hs.transfer hsource hroot htarget houtside h
  by_contra hnode
  have hpath := hs'.isPath (Bool.eq_true_of_not_eq_false hnode)
  have hnot : ¬ Path.within p target = true := by
    intro hwithin
    have hout := hs.not_within_source hsource htarget houtside h hpath hwithin
    rw [hp] at hout
    cases hout
  rw [hasNode_transfer hs hsource hroot htarget h hpath, if_neg hnot, hkeep, hp] at hnode
  simp at hnode

end

/-! ## What undoes a copy and a move -/

section

variable {s s' : State} {source target : String}

theorem principals_transfer {keepSource : Bool}
    (h : s.transfer source target keepSource = .ok s') : s'.principals = s.principals := by
  obtain ⟨-, -, -, rfl⟩ := transfer_eq_ok h
  rfl

/-- A copy is undone by deleting it. -/
theorem Tree.delete_copy (hs : s.Tree) (hsource : Path.IsPath source) (htarget : Path.IsPath target)
    (houtside : ¬ Path.within target source = true)
    (h : s.transfer source target true = .ok s') : s'.delete target = .ok s := by
  obtain ⟨t, ht⟩ := exists_delete (hasNode_target h) (hs.target_ne_root h)
  have hkept : s'.offBranch target = s.nodes :=
    hs.offBranch_transfer hsource htarget houtside h
  obtain ⟨-, rfl⟩ := delete_eq_ok ht
  rw [ht, ← offBranch, hkept, principals_transfer h]

/-- A branch that was put at the target is the branch that it was when it is put back. -/
theorem Tree.rerooted_rerooted {keepSource : Bool} (hs : s.Tree) (hsource : Path.IsPath source)
    (htarget : Path.IsPath target) (houtside : ¬ Path.within target source = true)
    (h : s.transfer source target keepSource = .ok s') :
    s'.rerooted target source = (s.branch source).entries := by
  have hroot := source_ne_root htarget houtside
  have htargetRoot := hs.target_ne_root h
  have hsame : ∀ e ∈ (s.branch source).entries,
      (Path.rebase (Path.rebase e.1 source target) target source, e.2) = e := by
    intro e he
    have hpath := hs.isPath (hasNode_eq_true_iff.2 ⟨e.2, (mem_branch.1 he).2⟩)
    rw [hpath.rebase_rebase hsource htarget hroot (mem_branch.1 he).1 htargetRoot]
  rw [rerooted, hs.branch_transfer hsource htarget houtside h, rerooted, List.map_map]
  exact (List.map_congr_left hsame).trans (List.map_id _)

/-- A move is undone by moving back. -/
theorem Tree.move_move (hs : s.Tree) (hsource : Path.IsPath source) (htarget : Path.IsPath target)
    (houtside : ¬ Path.within target source = true)
    (h : s.transfer source target false = .ok s') : s'.transfer target source false = .ok s := by
  have hroot := source_ne_root htarget houtside
  have htargetRoot := hs.target_ne_root h
  have hs' := hs.transfer hsource hroot htarget houtside h
  obtain ⟨hnode, hfree, -, -⟩ := transfer_eq_ok h
  have hback : ¬ Path.within source target = true := by
    intro hwithin
    rw [hs.hasNode_of_within hnode htarget hwithin] at hfree
    cases hfree
  have hgone : s'.hasNode source = false :=
    hs.hasNode_within_source hsource htarget houtside h rfl (Path.within_refl source)
  have habove : ∀ up, Path.parent? source = some up → s'.hasNode up = true := by
    intro up hup
    have hupPath := hsource.parent hup
    have hupTarget : ¬ Path.within up target = true := by
      intro hwithin
      exact hback (hsource.within_trans hupPath htarget (hsource.within_parent hup) hwithin)
    rw [hasNode_transfer hs hsource hroot htarget h hupPath, if_neg hupTarget, hs.parent hnode hup]
    simp [hsource.not_within_of_parent hup]
  obtain ⟨t, ht⟩ : ∃ t, s'.transfer target source false = .ok t :=
    exists_transfer (hasNode_target h) hgone habove
  have hentries : (t.branch source).entries = (s.branch source).entries :=
    (hs'.branch_transfer htarget hsource hback ht).trans
      (hs.rerooted_rerooted hsource htarget houtside h)
  have hbranch : t.branch source = s.branch source :=
    Table.ext_get? fun k => congrArg (List.lookup k) hentries
  have hoff : t.offBranch source = s.offBranch source :=
    (hs'.offBranch_transfer htarget hsource hback ht).trans
      (hs.offBranch_transfer hsource htarget houtside h)
  have hnodes : t.nodes = s.nodes := Table.eq_of_filterKeys_eq hbranch hoff
  have hprincipals : t.principals = s.principals :=
    (principals_transfer ht).trans (principals_transfer h)
  rw [ht, show t = ⟨t.principals, t.nodes⟩ from rfl, hprincipals, hnodes]

/-- After a move there are as many nodes as before. -/
theorem Tree.length_move (hs : s.Tree) (hsource : Path.IsPath source) (htarget : Path.IsPath target)
    (houtside : ¬ Path.within target source = true)
    (h : s.transfer source target false = .ok s') :
    s'.nodes.entries.length = s.nodes.entries.length := by
  have hbranch := congrArg List.length (hs.branch_transfer hsource htarget houtside h)
  have hoff : s'.offBranch target = s.offBranch source :=
    hs.offBranch_transfer hsource htarget houtside h
  rw [← s'.nodes.length_filterKeys_add (Path.within · target),
    ← s.nodes.length_filterKeys_add (Path.within · source)]
  rw [rerooted, List.length_map] at hbranch
  exact congrArg₂ (· + ·) hbranch (congrArg (·.entries.length) hoff)

/-- A copy that goes through leaves every node as it is, puts exactly the subtree of the source at
the target, and is undone by deleting it. A move that goes through puts the same there, leaves
nothing at the source and as many nodes as there were, and is undone by moving back. -/
theorem Tree.relocation_reversible (hs : s.Tree) (hsource : Path.IsPath source)
    (htarget : Path.IsPath target) (houtside : ¬ Path.within target source = true) :
    (∀ s', s.answer (.copy source target) = .ok ((), s') →
      (∀ p n, s.nodes.get? p = some n → s'.nodes.get? p = some n) ∧
        (s'.branch target).entries = s.rerooted source target ∧
        s'.answer (.delete target) = .ok ((), s)) ∧
    ∀ s', s.answer (.move source target) = .ok ((), s') →
      s'.nodes.entries.length = s.nodes.entries.length ∧
        (∀ p, Path.within p source = true → s'.hasNode p = false) ∧
        (s'.branch target).entries = s.rerooted source target ∧
        s'.answer (.move target source) = .ok ((), s) := by
  refine ⟨fun s' hanswer => ?_, fun s' hanswer => ?_⟩
  · have h : s.transfer source target true = .ok s' := done_eq_ok hanswer
    refine ⟨?_, hs.branch_transfer hsource htarget houtside h, ?_⟩
    · intro p n hn
      have hkept : s'.offBranch target = s.nodes :=
        hs.offBranch_transfer hsource htarget houtside h
      rw [← hkept] at hn
      exact (Table.mem_entries_filterKeys.1 (Table.get?_eq_some_iff.1 hn)).2
    · rw [State.answer, hs.delete_copy hsource htarget houtside h]
      rfl
  · have h : s.transfer source target false = .ok s' := done_eq_ok hanswer
    refine ⟨hs.length_move hsource htarget houtside h, ?_,
      hs.branch_transfer hsource htarget houtside h, ?_⟩
    · intro p hp
      exact hs.hasNode_within_source hsource htarget houtside h rfl hp
    · rw [State.answer, hs.move_move hsource htarget houtside h]
      rfl

end

/-- A repository with a subtree and with a node beside it whose path begins with the same text. -/
def furnished : State where
  principals := .ofList [("g", ⟨"g", .group, none, .empty⟩)]
  nodes := .ofList [("/", .empty), ("/a", ⟨.ofList [("title", "A")], []⟩),
    ("/a/b", ⟨.empty, [.ofLists "g" .allow ["jcr:read"] []]⟩), ("/ab", .empty), ("/x", .empty)]

theorem Tree.relocation_reversible_furnished : furnished.Tree ∧ Path.IsPath "/a" ∧
    Path.IsPath "/x/a" ∧ ¬ Path.within "/x/a" "/a" = true ∧
    (∃ s', furnished.answer (.copy "/a" "/x/a") = .ok ((), s') ∧
      s'.nodes.keys = ["/", "/a", "/a/b", "/ab", "/x", "/x/a", "/x/a/b"] ∧
      (s'.branch "/x/a").entries = furnished.rerooted "/a" "/x/a" ∧
      s'.answer (.delete "/x/a") = .ok ((), furnished)) ∧
    ∃ s', furnished.answer (.move "/a" "/x/a") = .ok ((), s') ∧
      s'.nodes.keys = ["/", "/ab", "/x", "/x/a", "/x/a/b"] ∧
      s'.hasNode "/a/b" = false ∧ s'.answer (.move "/x/a" "/a") = .ok ((), furnished) := by
  have hs : furnished.Tree := by decide +kernel
  have hsource : Path.IsPath "/a" := by decide +kernel
  have htarget : Path.IsPath "/x/a" := by decide +kernel
  have houtside : ¬ Path.within "/x/a" "/a" = true := by decide +kernel
  have h := hs.relocation_reversible hsource htarget houtside
  refine ⟨hs, hsource, htarget, houtside, ⟨_, rfl, by decide +kernel, ?_, ?_⟩,
    ⟨_, rfl, by decide +kernel, ?_, ?_⟩⟩
  · exact (h.1 _ rfl).2.1
  · exact (h.1 _ rfl).2.2
  · exact (h.2 _ rfl).2.1 "/a/b" (by decide +kernel)
  · exact (h.2 _ rfl).2.2.2

end State

end Entitle
