import Entitle.Proofs.Permissions
import Entitle.Proofs.Rooted
import Entitle.Proofs.Worlds

/-!
# Batches of revocations

A batch of revocations is one change. If one of its nodes is missing, it is refused and nothing
happens. Otherwise it goes through the batch from front to back, and each revocation drops the
permissions that it leaves empty before the next one looks at the list. What comes out does not show
this: every permission on a node of the batch has lost what the whole batch revokes from its target
there, in whatever order, however often and in however many batches that is said.

## Main statements

* `State.revokeEach_congr`: only the members of a batch count.
* `Repository.state_afterAll_revoke`: several batches are one.
* `Repository.revocation_exact`: what a batch of revocations does to a repository.
-/
namespace Entitle

/-! ## Batches -/

private theorem Permission.revokedBy_congr {entries entries' : List Permission} {p : Permission}
    (h : ∀ e, e ∈ entries ↔ e ∈ entries') : p.revokedBy entries = p.revokedBy entries' :=
  NameSet.ext_mem fun x => by simp [mem_revokedBy, h]

namespace State

variable {s s' : State} {batch batch' : List Grant}

/-- Batches with the same members leave the same state. -/
theorem revokeEach_congr (h : ∀ g, g ∈ batch ↔ g ∈ batch') :
    s.revokeEach batch = s.revokeEach batch' := by
  have hnodes : (s.revokeEach batch).nodes = (s.revokeEach batch').nodes := by
    refine Table.ext_get? fun path => ?_
    have hmem : ∀ e, e ∈ Grant.onPath batch path ↔ e ∈ Grant.onPath batch' path := fun e => by
      rw [Grant.mem_onPath, Grant.mem_onPath, h]
    rw [get?_revokeEach, get?_revokeEach]
    congr 1
    funext n
    by_cases hnone : Grant.onPath batch path = []
    · have hnone' : Grant.onPath batch' path = [] :=
        List.eq_nil_iff_forall_not_mem.2 fun e he => by simpa [hnone] using (hmem e).2 he
      rw [hnone, hnone']
    · have hsome' : Grant.onPath batch' path ≠ [] := fun hnone' =>
        hnone (List.eq_nil_iff_forall_not_mem.2 fun e he => by simpa [hnone'] using (hmem e).1 he)
      rw [Node.foldl_revoke hnone, Node.foldl_revoke hsome']
      simp only [Permission.revokedBy_congr hmem]
  have hprincipals : (s.revokeEach batch).principals = (s.revokeEach batch').principals := by
    rw [principals_revokeEach, principals_revokeEach]
  calc s.revokeEach batch
      = ⟨(s.revokeEach batch).principals, (s.revokeEach batch).nodes⟩ := rfl
    _ = s.revokeEach batch' := by rw [hnodes, hprincipals]

private theorem revokeEach_append : s.revokeEach (batch ++ batch') =
    (s.revokeEach batch).revokeEach batch' :=
  List.foldl_append

/-- A batch is refused for the first node that is missing. -/
theorem revokeAll_eq_error_iff {e : Refusal} : s.revokeAll batch = .error e ↔
    ∃ before g rest, batch = before ++ g :: rest ∧ (∀ h ∈ before, s.hasNode h.path = true) ∧
      s.hasNode g.path = false ∧ e = .notFound g.path := by
  rw [revokeAll]
  constructor
  · intro h
    split at h
    · next g hfind =>
      cases h
      obtain ⟨hg, before, rest, rfl, hbefore⟩ := List.find?_eq_some_iff_append.1 hfind
      exact ⟨before, g, rest, rfl, by simpa using hbefore, by simpa using hg, rfl⟩
    · cases h
  · rintro ⟨before, g, rest, rfl, hbefore, hg, rfl⟩
    have hfind : (before ++ g :: rest).find? (fun g => !s.hasNode g.path) = some g :=
      List.find?_eq_some_iff_append.2
        ⟨by simp [hg], before, rest, rfl, fun h hh => by simp [hbefore h hh]⟩
    rw [hfind]

end State

/-! ## Repositories -/

namespace Repository

variable {r r' : Repository} {batch : List Grant} {batches : List (List Grant)}

theorem answerNow_revoke_of_hasNode (h : ∀ g ∈ batch, r.state.hasNode g.path = true) :
    r.answerNow (.revokePermissions batch) =
      (.ok (), r.after (.revokePermissions batch) (r.state.revokeEach batch)) := by
  rw [answerNow, State.answer, State.revokeAll_of_hasNode h]
  rfl

theorem answerNow_revoke_eq_ok
    (h : r.answerNow (.revokePermissions batch) = (.ok (), r')) :
    (∀ g ∈ batch, r.state.hasNode g.path = true) ∧
      r' = r.after (.revokePermissions batch) (r.state.revokeEach batch) := by
  obtain ⟨s, hanswer, rfl⟩ := answerNow_eq_ok h
  obtain ⟨hnodes, rfl⟩ := State.revokeAll_eq_ok (State.done_eq_ok hanswer)
  exact ⟨hnodes, rfl⟩

theorem answerNow_revoke_eq_error_iff {e : Refusal} :
    (r.answerNow (.revokePermissions batch)).1 = .error e ↔
      r.state.revokeAll batch = .error e := by
  rw [answerNow, State.answer]
  cases r.state.revokeAll batch <;> simp [State.done, Except.map]

/-- Batches one after the other are one batch. -/
theorem state_afterAll_revoke
    (h : ∀ g ∈ batches.flatten, r.state.hasNode g.path = true) :
    (r.afterAll (batches.map .revokePermissions)).state =
      r.state.revokeEach batches.flatten := by
  induction batches generalizing r with
  | nil => rfl
  | cons b rest ih =>
    rw [List.flatten_cons] at h ⊢
    have hfirst := answerNow_revoke_of_hasNode fun g hg => h g (List.mem_append_left _ hg)
    have hrest : ∀ g ∈ rest.flatten, (r.after (.revokePermissions b)
        (r.state.revokeEach b)).state.hasNode g.path = true := fun g hg =>
      (State.hasNode_revokeEach b g.path).trans (h g (List.mem_append_right _ hg))
    rw [List.map_cons, afterAll, List.foldl_cons, hfirst, ← afterAll, ih hrest,
      State.revokeEach_append]
    rfl

/-- Each of several batches goes through after those before it, if all together do. -/
theorem answerNow_revoke_of_flatten (h : ∀ g ∈ batches.flatten, r.state.hasNode g.path = true)
    {k : Nat} (hk : batches[k]? = some batch) :
    ((r.afterAll ((batches.take k).map .revokePermissions)).answerNow
      (.revokePermissions batch)).1 = .ok () := by
  have htake : ∀ g ∈ (batches.take k).flatten, r.state.hasNode g.path = true := fun g hg => by
    obtain ⟨b, hb, hg⟩ := List.mem_flatten.1 hg
    exact h g (List.mem_flatten.2 ⟨b, List.mem_of_mem_take hb, hg⟩)
  have hbatch : ∀ g ∈ batch, (r.afterAll
      ((batches.take k).map .revokePermissions)).state.hasNode g.path = true := fun g hg => by
    rw [state_afterAll_revoke htake, State.hasNode_revokeEach]
    exact h g (List.mem_flatten.2 ⟨batch, List.mem_of_getElem? hk, hg⟩)
  rw [answerNow_revoke_of_hasNode hbatch]

/-- Batches of revocations are exact. A batch is refused exactly if one of its nodes is missing, for
the first such node, and nothing changes then. When it goes through, every permission on a node of
the batch is without all that the batch revokes from its target there, those that are empty are
gone, and the rest is as before. The same batch in another order, or in several batches, goes
through as well and leaves the same state. -/
theorem revocation_exact (r : Repository) (batch : List Grant) :
    (∀ e, (r.answerNow (.revokePermissions batch)).1 = .error e ↔
      ∃ before g rest, batch = before ++ g :: rest ∧
        (∀ h ∈ before, r.state.hasNode h.path = true) ∧ r.state.hasNode g.path = false ∧
        e = .notFound g.path) ∧
    (∀ e, (r.answerNow (.revokePermissions batch)).1 = .error e →
      (r.answerNow (.revokePermissions batch)).2 = r) ∧
    ∀ r', r.answerNow (.revokePermissions batch) = (.ok (), r') →
      r'.state.principals = r.state.principals ∧
      (∀ g ∈ batch, ∃ n, r.state.nodes.get? g.path = some n ∧
        r'.state.nodes.get? g.path = some { n with
          acl := (n.acl.map fun p => p.without (p.revokedBy (Grant.onPath batch g.path))).filter
            fun p => !p.privileges.isEmpty }) ∧
      (∀ path, (∀ g ∈ batch, g.path ≠ path) →
        r'.state.nodes.get? path = r.state.nodes.get? path) ∧
      (∀ batch', batch'.Perm batch →
        r.answerNow (.revokePermissions batch') = (.ok (), r')) ∧
      ∀ batches : List (List Grant), batches.flatten = batch →
        (∀ k b, batches[k]? = some b →
          ((r.afterAll ((batches.take k).map .revokePermissions)).answerNow
            (.revokePermissions b)).1 = .ok ()) ∧
        (r.afterAll (batches.map .revokePermissions)).state = r'.state := by
  refine ⟨fun e => answerNow_revoke_eq_error_iff.trans State.revokeAll_eq_error_iff,
    fun e he => answer_of_error (Prod.ext he rfl), fun r' h => ?_⟩
  obtain ⟨hnodes, rfl⟩ := answerNow_revoke_eq_ok h
  refine ⟨State.principals_revokeEach batch, fun g hg => ?_, fun path hpath => ?_,
    fun batch' hperm => ?_, ?_⟩
  · obtain ⟨n, hn⟩ := State.hasNode_eq_true_iff.1 (hnodes g hg)
    have hsome : Grant.onPath batch g.path ≠ [] := List.ne_nil_of_mem (Grant.mem_onPath.2 hg)
    refine ⟨n, hn, (State.get?_revokeEach batch g.path).trans ?_⟩
    rw [hn, Option.map_some, Node.foldl_revoke hsome, Node.strip]
  · have hnone : Grant.onPath batch path = [] :=
      List.eq_nil_iff_forall_not_mem.2 fun e he => hpath _ (Grant.mem_onPath.1 he) rfl
    refine (State.get?_revokeEach batch path).trans ?_
    simp [hnone]
  · rw [answerNow_revoke_of_hasNode fun g hg => hnodes g (hperm.mem_iff.1 hg),
      State.revokeEach_congr fun g => hperm.mem_iff]
    rfl
  · rintro batches rfl
    exact ⟨fun k b hb => answerNow_revoke_of_flatten hnodes hb, state_afterAll_revoke hnodes⟩

end Repository

/-- A repository with permissions that share a target, and one that is empty. -/
def Repository.crowded : Repository where
  state := ⟨.empty, .ofList [("/", .empty),
    ("/a", ⟨.empty, [.ofLists "g" .allow ["jcr:read", "jcr:write"] [],
      .ofLists "g" .deny ["jcr:read"] [], .ofLists "h" .allow [] [],
      .ofLists "g" .allow ["jcr:all", "jcr:write"] []]⟩),
    ("/b", ⟨.empty, [.ofLists "h" .allow [] [], .ofLists "g" .allow ["jcr:read"] []]⟩)]⟩
  mutations := 0
  file := none

/-- A batch that comes back to a node and to a target. -/
def Grant.scattered : List Grant :=
  [⟨"/a", .ofLists "g" .allow ["jcr:read"] []⟩, ⟨"/", .ofLists "g" .allow ["jcr:read"] []⟩,
    ⟨"/a", .ofLists "g" .allow ["jcr:write"] []⟩, ⟨"/a", .ofLists "g" .allow ["jcr:read"] []⟩]

/-- Of four permissions two are left in their order, whether the batch is read forwards, backwards
or in two parts. -/
theorem Repository.revocation_exact_crowded :
    let r := Repository.crowded
    let after := (r.answerNow (.revokePermissions Grant.scattered)).2
    r.answerNow (.revokePermissions Grant.scattered) = (.ok (), after) ∧
      after.state.nodes.get? "/a" = some ⟨.empty, [.ofLists "g" .deny ["jcr:read"] [],
        .ofLists "g" .allow ["jcr:all"] []]⟩ ∧
      after.state.nodes.get? "/b" = r.state.nodes.get? "/b" ∧
      r.answerNow (.revokePermissions Grant.scattered.reverse) = (.ok (), after) ∧
      (r.afterAll ([Grant.scattered.take 1, Grant.scattered.drop 1].map .revokePermissions)).state =
        after.state ∧
      (r.answerNow (.revokePermissions (⟨"/c", .ofLists "g" .allow [] []⟩ :: Grant.scattered))).1 =
        .error (.notFound "/c") := by
  intro r after
  have hok : r.answerNow (.revokePermissions Grant.scattered) = (.ok (), after) := by
    decide +kernel
  obtain ⟨-, -, hgoes⟩ := revocation_exact r Grant.scattered
  obtain ⟨-, -, hothers, hperm, hsplit⟩ := hgoes after hok
  refine ⟨hok, by decide +kernel, hothers "/b" (by decide), hperm _ (List.reverse_perm _),
    (hsplit _ rfl).2, ?_⟩
  exact ((revocation_exact r _).1 _).2 ⟨[], _, _, rfl, by simp, by decide +kernel, rfl⟩

end Entitle
