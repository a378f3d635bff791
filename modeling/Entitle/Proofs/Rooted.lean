import Entitle.Proofs.Rerooting
import Entitle.Proofs.WellFormed
import Entitle.Repository.Stored

/-!
# What breaks a tree

A repository is to have a root, and a node above every other node. Of all calls with well-formed
paths there is only one kind that breaks this: a move to a place within the subtree that is moved.
Such a move goes through, although its target is then under nothing. It is asked for the node above
the target before the subtree is taken away, and that node is a part of the subtree. To move the
root is the same thing, because every path is within the root. A copy to such a place does no harm,
and the root cannot be deleted.

The paths of the nodes may be any texts here, as in a state that was read from a file.

## Main definitions

* `State.Rooted`: the root is there, and a node above every node.
* `Call.paths`, `Call.inward`: the paths of nodes that a call names, and moves to within themselves.
* `Repository.afterAll`: a repository after calls.

## Main statements

* `State.Rooted.answer_iff`: what one call does.
* `Repository.rooted_throughout_iff`: what a sequence of calls does.
* `Repository.not_rooted_of_move_root`: two moves that break a tree.
-/
namespace Entitle

/-! ## Calls -/

/-- The paths of nodes that a call names. -/
def Call.paths : Call → List String
  | principal _ | ensurePrincipal .. | addMember .. | removeMember .. | commit => []
  | readPermissions path | setPermission path _ | descendants path | nodeExists path
  | property path _ | setProperty path _ _ | delete path => [path]
  | revokePermissions batch => batch.map (·.path)
  | copy source target | move source target => [source, target]

/-- A move to a place within the subtree that is moved. -/
def Call.inward : Call → Bool
  | move source target => Path.within target source
  | _ => false

namespace State

/-- The root is there, and above every node there is a node. Paths may be any texts. -/
structure Rooted (s : State) : Prop where
  root : s.hasNode "/" = true
  closed : s.Closed

instance (s : State) : Decidable s.Rooted :=
  decidable_of_iff (s.hasNode "/" = true ∧ s.Closed) ⟨fun h => ⟨h.1, h.2⟩, fun h => ⟨h.1, h.2⟩⟩

variable {s s' : State}

/-- States with nodes at the same paths. -/
theorem Rooted.of_hasNode_eq (hs : s.Rooted) (h : ∀ p, s'.hasNode p = s.hasNode p) :
    s'.Rooted := by
  refine ⟨by rw [h, hs.root], fun hp hup => ?_⟩
  rw [h] at *
  exact hs.closed hp hup

/-! ### Transfers and deletions -/

section

variable {source target : String} {keepSource : Bool}

/-- What is there after a transfer: what was kept, and what was put at the target. -/
theorem hasNode_transfer_iff (h : s.transfer source target keepSource = .ok s') {p : String} :
    s'.hasNode p = true ↔
      s.hasNode p = true ∧ (keepSource = true ∨ ¬ Path.within p source = true) ∨
        ∃ q, s.hasNode q = true ∧ Path.within q source = true ∧
          Path.rebase q source target = p := by
  obtain ⟨-, -, -, rfl⟩ := transfer_eq_ok h
  have hmoved : (∃ e ∈ (s.nodes.filterKeys (Path.within · source)).entries,
      Path.rebase e.1 source target = p) ↔ ∃ q, s.hasNode q = true ∧
        Path.within q source = true ∧ Path.rebase q source target = p := by
    constructor
    · rintro ⟨⟨q, n⟩, he, heq⟩
      have hq := Table.mem_entries_filterKeys.1 he
      exact ⟨q, hasNode_eq_true_iff.2 ⟨n, hq.2⟩, hq.1, heq⟩
    · rintro ⟨q, hq, hwithin, heq⟩
      obtain ⟨n, hn⟩ := hasNode_eq_true_iff.1 hq
      exact ⟨(q, n), Table.mem_entries_filterKeys.2 ⟨hwithin, hn⟩, heq⟩
  rw [hasNode, contains_plant, hmoved]
  cases keepSource <;> simp [hasNode, Table.contains_filterKeys, and_comm]

/-- A transfer that keeps its source, or whose target is not within the source. -/
theorem Rooted.transfer (hs : s.Rooted) (hsource : Path.IsPath source)
    (htarget : Path.IsPath target)
    (houtside : keepSource = true ∨ ¬ Path.within target source = true)
    (h : s.transfer source target keepSource = .ok s') : s'.Rooted := by
  have hroot := target_ne_root hs.root h
  have hnode := fun p => hasNode_transfer_iff h (p := p)
  obtain ⟨-, -, habove, -⟩ := transfer_eq_ok h
  refine ⟨(hnode "/").2 (.inl ⟨hs.root, houtside.imp_right ?_⟩), fun {p up} hp hup => ?_⟩
  · intro hnot hwithin
    rw [hsource.eq_root_of_within hwithin] at hnot
    exact hnot htarget.within_root
  · refine (hnode up).2 ?_
    cases (hnode p).1 hp with
    | inl hkept =>
      refine .inl ⟨hs.closed hkept.1 hup, hkept.2.imp_right ?_⟩
      intro hnot hwithin
      exact hnot (Path.within_of_parent hup hwithin)
    | inr hmoved =>
      obtain ⟨q, hq, hwithin, rfl⟩ := hmoved
      cases Path.parent?_rebase hsource.ne_empty htarget.ne_empty hroot hwithin hup with
      | inl hparent =>
        refine .inl ⟨habove up hparent, houtside.imp_right ?_⟩
        intro hnot hupWithin
        exact hnot (Path.within_of_parent hparent hupWithin)
      | inr hparent =>
        obtain ⟨q', hq', hq'Within, heq⟩ := hparent
        exact .inr ⟨q', hs.closed hq hq', hq'Within, heq⟩

/-- A move to a place within the source leaves nothing above the target: what was there is moved
away, and everything that is moved is put at the target or further down. -/
theorem Rooted.not_rooted_of_inward (hs : s.Rooted) (hsource : Path.IsPath source)
    (htarget : Path.IsPath target) (hinward : Path.within target source = true)
    (h : s.transfer source target false = .ok s') : ¬ s'.Rooted := by
  intro hs'
  have hroot := target_ne_root hs.root h
  obtain ⟨hnode, hfree, -, -⟩ := transfer_eq_ok h
  obtain ⟨up, hup⟩ := htarget.exists_parent hroot
  have hne : source ≠ target := by
    intro heq
    rw [heq, hfree] at hnode
    cases hnode
  have hupWithin := ((htarget.within_iff_parent hup hsource).1 hinward).resolve_left hne
  cases (hasNode_transfer_iff h).1 (hs'.closed (hasNode_target h) hup) with
  | inl hkept => simp [hupWithin] at hkept
  | inr hmoved =>
    obtain ⟨q, -, hwithin, heq⟩ := hmoved
    have hle := Path.length_le_rebase hwithin hroot
    have hlt := Path.length_parent hup
    rw [heq] at hle
    omega

end

theorem Rooted.delete {path : String} (hs : s.Rooted) (hpath : Path.IsPath path)
    (h : s.delete path = .ok s') : s'.Rooted := by
  have hroot := hpath.root_not_within (delete_eq_ok h).1
  refine ⟨by simp [hasNode_delete h, hroot, hs.root], fun {p up} hp hup => ?_⟩
  rw [hasNode_delete h, Bool.and_eq_true, Bool.not_eq_true'] at hp ⊢
  refine ⟨Bool.eq_false_iff.2 fun hwithin => ?_, hs.closed hp.2 hup⟩
  rw [Path.within_of_parent hup hwithin] at hp
  exact Bool.false_ne_true hp.1.symm

/-! ### Single calls -/

/-- A call that is answered keeps a tree unless it is a move to within itself. -/
theorem Rooted.answer (hs : s.Rooted) {c : Call} {a : c.Answer}
    (hpaths : ∀ p ∈ c.paths, Path.IsPath p) (hc : c.inward = false)
    (h : s.answer c = .ok (a, s')) : s'.Rooted := by
  cases hcall : c.rearranges with
  | false => exact hs.of_hasNode_eq (hasNode_answer hcall h)
  | true =>
    cases c with
    | copy source target =>
      obtain ⟨hsource, htarget⟩ : Path.IsPath source ∧ Path.IsPath target := by
        simpa [Call.paths] using hpaths
      exact hs.transfer hsource htarget (.inl rfl) (done_eq_ok h)
    | move source target =>
      obtain ⟨hsource, htarget⟩ : Path.IsPath source ∧ Path.IsPath target := by
        simpa [Call.paths] using hpaths
      have houtside : ¬ Path.within target source = true := by simpa [Call.inward] using hc
      exact hs.transfer hsource htarget (.inr houtside) (done_eq_ok h)
    | delete path => exact hs.delete (List.forall_mem_singleton.1 hpaths) (done_eq_ok h)
    | _ => cases hcall

/-- Of the calls that are answered, the moves to within themselves break a tree, and no others. -/
theorem Rooted.answer_iff (hs : s.Rooted) {c : Call} {a : c.Answer}
    (hpaths : ∀ p ∈ c.paths, Path.IsPath p) (h : s.answer c = .ok (a, s')) :
    s'.Rooted ↔ c.inward = false := by
  refine ⟨fun hs' => ?_, fun hc => hs.answer hpaths hc h⟩
  by_contra hc
  cases c with
  | move source target =>
    obtain ⟨hsource, htarget⟩ : Path.IsPath source ∧ Path.IsPath target := by
      simpa [Call.paths] using hpaths
    have hinward : Path.within target source = true := by simpa [Call.inward] using hc
    exact hs.not_rooted_of_inward hsource htarget hinward (done_eq_ok h) hs'
  | _ => simp [Call.inward] at hc

end State

/-! ## Sequences of calls -/

namespace Repository

/-- The repository after calls, one after the other. -/
def afterAll (r : Repository) (calls : List Call) : Repository :=
  calls.foldl (fun r c => (r.answerNow c).2) r

variable {r : Repository} {calls : List Call}

@[simp] theorem afterAll_nil : r.afterAll [] = r := rfl

@[simp] theorem afterAll_concat {c : Call} :
    r.afterAll (calls ++ [c]) = ((r.afterAll calls).answerNow c).2 := by
  simp [afterAll]

private theorem rooted_answerNow_iff (hr : r.state.Rooted) {c : Call}
    (hpaths : ∀ p ∈ c.paths, Path.IsPath p) :
    (r.answerNow c).2.state.Rooted ↔ c.inward = false ∨ ∃ e, (r.answerNow c).1 = .error e := by
  rw [answerNow]
  cases h : r.state.answer c with
  | error e => simp [hr]
  | ok reply => simp [after, hr.answer_iff hpaths h]

/-- Calls with well-formed paths keep a tree, from the first call to the last, exactly if every move
to within itself is refused. -/
theorem rooted_throughout_iff (hr : r.state.Rooted)
    (hpaths : ∀ c ∈ calls, ∀ p ∈ c.paths, Path.IsPath p) :
    (∀ k, (r.afterAll (calls.take k)).state.Rooted) ↔
      ∀ k c, calls[k]? = some c → c.inward = true →
        ∃ e, ((r.afterAll (calls.take k)).answerNow c).1 = .error e := by
  have hstep : ∀ k c, calls[k]? = some c → (r.afterAll (calls.take k)).state.Rooted →
      ((r.afterAll (calls.take (k + 1))).state.Rooted ↔
        c.inward = false ∨ ∃ e, ((r.afterAll (calls.take k)).answerNow c).1 = .error e) := by
    intro k c hc hbefore
    rw [List.take_add_one, hc, Option.toList_some, afterAll_concat]
    exact rooted_answerNow_iff hbefore (hpaths c (List.mem_of_getElem? hc))
  constructor
  · intro hall k c hc hinward
    have hafter := (hstep k c hc (hall k)).1 (hall (k + 1))
    exact hafter.resolve_left (by simp [hinward])
  · intro hrefused k
    induction k with
    | zero => simpa using hr
    | succ k ih =>
      cases hc : calls[k]? with
      | none => simpa [List.take_add_one, hc] using ih
      | some c =>
        refine (hstep k c hc ih).2 ?_
        cases hinward : c.inward with
        | false => exact .inl rfl
        | true => exact .inr (hrefused k c hc hinward)

end Repository

/-- A repository with nodes that are under no path. -/
def Repository.tangled : Repository where
  state := ⟨.empty, .ofList [("/", .empty), ("aside", .empty), ("/a", .empty), ("/a/", .empty),
    ("/a/b", .empty)]⟩
  mutations := 0
  file := none

/-- Calls one of which is a move to within itself, and is refused because its target is taken. -/
def Call.tangle : List Call :=
  [.copy "/a" "/a/c", .move "/a" "/a/c", .copy "/" "/x", .delete "/", .move "/a" "/b"]

theorem Repository.rooted_throughout_tangled : Repository.tangled.state.Rooted ∧
    (∀ c ∈ Call.tangle, ∀ p ∈ c.paths, Path.IsPath p) ∧
    (∀ k, (Repository.tangled.afterAll (Call.tangle.take k)).state.Rooted) ∧
    (Repository.tangled.afterAll Call.tangle).state.nodes.keys =
      ["/", "/b", "/b/", "/b/b", "/b/c", "/b/c/", "/b/c/b", "/x", "/xa", "/xa/", "/xa/b", "/xa/c",
        "/xa/c/", "/xa/c/b", "aside"] := by
  have hr : Repository.tangled.state.Rooted := by decide +kernel
  have hpaths : ∀ c ∈ Call.tangle, ∀ p ∈ c.paths, Path.IsPath p := by decide +kernel
  refine ⟨hr, hpaths, (rooted_throughout_iff hr hpaths).2 ?_, by decide +kernel⟩
  intro k c hc hinward
  match k with
  | 0 | 2 | 3 | 4 =>
    cases hc
    exact absurd hinward (by decide +kernel)
  | 1 =>
    cases hc
    exact ⟨_, rfl⟩
  | k + 5 => cases hc

/-- The root of an empty repository, moved to a place beneath it, is gone. A node that is moved
beneath itself is under nothing. -/
theorem Repository.not_rooted_of_move_root :
    let r := Repository.ofState .initial
    let r' := r.withNode "/a"
    Path.IsPath "/" ∧ Path.IsPath "/x" ∧ Path.IsPath "/a" ∧ Path.IsPath "/a/b" ∧
      r.state.Rooted ∧ (r.afterAll [.move "/" "/x"]).state.nodes.keys = ["/x"] ∧
      ¬ (r.afterAll [.move "/" "/x"]).state.Rooted ∧
      r'.state.Rooted ∧ (r'.afterAll [.move "/a" "/a/b"]).state.nodes.keys = ["/", "/a/b"] ∧
      ¬ (r'.afterAll [.move "/a" "/a/b"]).state.Rooted := by
  decide +kernel

end Entitle
