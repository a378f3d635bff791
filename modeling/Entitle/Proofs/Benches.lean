import Entitle.Proofs.Hosts

/-!
# Repositories on hosts that keep files

What a run meets when nothing is wrong with the files: a repository that belongs to a file and a
journal, on a host that can be trusted with both. Faults may be planned, as long as changes can be
made durable. A call that does not commit is answered by the repository itself, and its number of
changes has no part in that; a commit succeeds, and then the state is what is in the file.

## Main definitions

* `Fault.SpareCommit`: planned faults that let changes be made durable.
* `Bench.Ready`: a repository that belongs to a file, without faults in its commits.
* `Bench.counting`: the same repository with another number of changes.
* `Bench.committed`: what it is after a commit.

## Main statements

* `Bench.exists_run_answerCall`: what a call comes to that does not commit.
* `Host.Keeps.transcript_commit`: what a commit comes to.
* `Surroundings.world_step`, `Surroundings.world_latest`, `Surroundings.world_record`: the replies
  of the world of a repository and a journal.
-/
namespace Entitle

open Dialogue

/-! ## Calls -/

/-- Planned faults that neither refuse to make changes durable nor let it go unanswered. -/
def Fault.SpareCommit (faults : List Fault) : Prop :=
  ∀ f ∈ faults, f.call = "commit" → f.kind = .cancel

instance (faults : List Fault) : Decidable (Fault.SpareCommit faults) :=
  inferInstanceAs (Decidable (∀ f ∈ faults, f.call = "commit" → f.kind = .cancel))

namespace Fault

theorem SpareCommit.strike {faults : List Fault} (h : SpareCommit faults) (c : Call) :
    SpareCommit (Fault.strike c faults).2 := by
  induction faults with
  | nil => exact h
  | cons f rest ih =>
    obtain ⟨hf, hrest⟩ := List.forall_mem_cons.1 h
    rw [Fault.strike]
    split
    · split
      · exact h
      · exact List.forall_mem_cons.2 ⟨hf, ih hrest⟩
    · exact List.forall_mem_cons.2 ⟨hf, ih hrest⟩

/-- What strikes the making durable lets it go through. -/
theorem SpareCommit.kind_eq {faults : List Fault} (h : SpareCommit faults) {kind : FaultKind}
    (hkind : (Fault.strike .commit faults).1 = some kind) : kind = .cancel := by
  induction faults with
  | nil => cases hkind
  | cons f rest ih =>
    obtain ⟨hf, hrest⟩ := List.forall_mem_cons.1 h
    rw [Fault.strike] at hkind
    split at hkind
    · next hconcerns =>
      split at hkind
      · have hcall : f.call = "commit" := by
          simpa [Fault.concerns, Call.words] using (Bool.and_eq_true_iff.1 hconcerns).1
        rw [← hf hcall]
        exact (Option.some.inj hkind).symm
      · exact ih hrest hkind
    · exact ih hrest hkind

end Fault

namespace Bench

/-- The bench with a call noted, and counted by the faults. -/
def noting (b : Bench) (c : Call) : Bench :=
  { b with faults := (Fault.strike c b.faults).2, calls := b.calls ++ [c.describe] }

/-- The bench with another number of changes. -/
def counting (b : Bench) (n : Nat) : Bench :=
  { b with repository := { b.repository with mutations := n } }

/-- The bench after its repository answered a call by itself. -/
def answering (b : Bench) (c : Call) : Bench :=
  { b with repository := (b.repository.answerNow c).2 }

theorem run_answerCall (c : Call) (b : Bench) : (answerCall c).run b =
    match (Fault.strike c b.faults).1 with
    | some (.refuse refusal) => pure (.error (.refused refusal), b.noting c)
    | some .stall => pure (.error (.timedOut b.limitMs), b.noting c)
    | some .cancel => (reach c).run { b.noting c with cancelled := true }
    | none => (reach c).run (b.noting c) := by
  rw [answerCall]
  simp only [StateT.run_bind, StateT.run_get, StateT.run_set, pure_bind]
  cases (Fault.strike c b.faults).1 with
  | none => rfl
  | some kind => cases kind <;> rfl

private theorem run_reach {c : Call} (hc : c ≠ .commit) (b : Bench) : (reach c).run b =
    pure ((b.repository.answerNow c).1.mapError .refused, b.answering c) := by
  cases c with
  | commit => exact absurd rfl hc
  | _ => rfl

/-- The repository of the bench belongs to a file and has a root, and no fault keeps its changes
from being made durable. -/
structure Ready (file : String) (b : Bench) : Prop where
  file : b.repository.file = some file
  root : b.repository.state.hasNode "/" = true
  faults : Fault.SpareCommit b.faults

theorem Ready.noting {file : String} {b : Bench} (h : b.Ready file) (c : Call) :
    (b.noting c).Ready file :=
  ⟨h.file, h.root, h.faults.strike c⟩

theorem Ready.answering {file : String} {b : Bench} (h : b.Ready file) {c : Call} (hc : c.Sound) :
    (b.answering c).Ready file := by
  obtain ⟨hfile, hroot, hfaults⟩ := h
  rw [Bench.answering, Repository.answerNow]
  split
  · exact ⟨hfile, hroot, hfaults⟩
  · next a s hanswer => exact ⟨hfile, State.hasNode_root_answer hc hroot hanswer, hfaults⟩

/-- The answer of a repository does not depend on its number of changes. -/
theorem answering_counting (b : Bench) (n : Nat) (c : Call) :
    ((b.counting n).repository.answerNow c).1 = (b.repository.answerNow c).1 ∧
      ∃ n', (b.counting n).answering c = (b.answering c).counting n' := by
  simp only [answering, counting, Repository.answerNow]
  split
  · exact ⟨rfl, n, rfl⟩
  · exact ⟨rfl, _, rfl⟩

private theorem repository_answering {c : Call} (hc : c.mutates = false) (b : Bench) :
    (b.answering c).repository = b.repository := by
  rw [answering, Repository.answerNow]
  split
  · rfl
  · next a s hanswer =>
    obtain rfl := State.answer_of_not_mutates hc hanswer
    exact Repository.after_of_not_mutates hc

/-- What a call comes to that does not use the host. The number of changes does not matter to it,
and a sound call leaves the bench ready. -/
theorem exists_run_answerCall {c : Call} (hc : c ≠ .commit) (b : Bench) :
    ∃ reply after, (answerCall c).run b = pure (reply, after) ∧
      (∀ n, ∃ n', (answerCall c).run (b.counting n) = pure (reply, after.counting n')) ∧
      (∀ file, c.Sound → b.Ready file → after.Ready file) ∧
      (c.mutates = false → after.repository = b.repository) := by
  have hreach : ∀ b : Bench, ∃ reply after, (reach c).run b = pure (reply, after) ∧
      (∀ n, ∃ n', (reach c).run (b.counting n) = pure (reply, after.counting n')) ∧
      (∀ file, c.Sound → b.Ready file → after.Ready file) ∧
      (c.mutates = false → after.repository = b.repository) := by
    intro b
    refine ⟨_, _, run_reach hc b, fun n => ?_, fun file hsound hb => hb.answering hsound,
      fun hmutates => repository_answering hmutates b⟩
    obtain ⟨hreply, n', hafter⟩ := b.answering_counting n c
    exact ⟨n', by rw [run_reach hc, hreply, hafter]⟩
  simp only [run_answerCall]
  have hfaults : ∀ n, (b.counting n).faults = b.faults := fun _ => rfl
  simp only [hfaults]
  cases (Fault.strike c b.faults).1 with
  | none =>
    obtain ⟨reply, after, hrun, hcounting, hready, hquiet⟩ := hreach (b.noting c)
    exact ⟨reply, after, hrun, hcounting, fun file hsound hb => hready file hsound (hb.noting c),
      hquiet⟩
  | some kind =>
    cases kind with
    | refuse refusal =>
      exact ⟨_, _, rfl, fun n => ⟨n, rfl⟩, fun file _ hb => hb.noting c, fun _ => rfl⟩
    | stall => exact ⟨_, _, rfl, fun n => ⟨n, rfl⟩, fun file _ hb => hb.noting c, fun _ => rfl⟩
    | cancel =>
      obtain ⟨reply, after, hrun, hcounting, hready, hquiet⟩ :=
        hreach { b.noting c with cancelled := true }
      refine ⟨reply, after, hrun, hcounting, fun file hsound hb => hready file hsound ?_, hquiet⟩
      exact ⟨hb.file, hb.root, hb.faults.strike c⟩

/-- The bench after its changes were made durable. The run may have been cancelled meanwhile. -/
def committed (b : Bench) : Bench :=
  { b.noting .commit with
    cancelled := b.cancelled || (Fault.strike .commit b.faults).1.isSome }

theorem Ready.committed {file : String} {b : Bench} (h : b.Ready file) : b.committed.Ready file :=
  ⟨h.file, h.root, h.faults.strike .commit⟩

end Bench

/-! ## Commits -/

namespace Host.Keeps

variable {σ : Type} {host : (q : Host.Request) → StateM σ (Host.Reply q)} {file : String}
  {view : σ → Option ByteArray}

private theorem transcript_reach (hkeeps : Host.Keeps host file view) {b : Bench}
    (hfile : b.repository.file = some file) (x : σ) :
    let run := ((Bench.reach .commit).run b).transcript host x
    run.result = (.ok (), b) ∧ view run.world = some b.repository.state.text.toUTF8 := by
  obtain ⟨hresult, hview⟩ := hkeeps.transcript_save b.repository x
  have hanswer : b.repository.answer .commit =
      b.repository.save file >>= fun reply => pure (reply, b.repository) := by
    rw [Repository.answer, hfile]
  have hreach : (Bench.reach .commit).run b =
      b.repository.answer .commit >>= fun after =>
        pure (after.1.mapError .refused, { b with repository := after.2 }) := rfl
  rw [hreach, hanswer, bind_assoc, transcript_bind]
  simp only [hresult]
  exact ⟨rfl, hview⟩

/-- A commit that no fault strikes succeeds, and then the state is in the file. -/
theorem transcript_commit (hkeeps : Host.Keeps host file view) {b : Bench} (hb : b.Ready file)
    (x : σ) :
    let run := ((Bench.answerCall .commit).run b).transcript host x
    run.result = (.ok (), b.committed) ∧ view run.world = some b.repository.state.text.toUTF8 := by
  rw [Bench.run_answerCall]
  cases hstruck : (Fault.strike .commit b.faults).1 with
  | none =>
    have hcommitted : b.committed = b.noting .commit := by
      rw [Bench.committed, hstruck]
      simp [Bench.noting]
    rw [hcommitted]
    exact hkeeps.transcript_reach (hb.noting .commit).file x
  | some kind =>
    obtain rfl := hb.faults.kind_eq hstruck
    have hcommitted : b.committed = { b.noting .commit with cancelled := true } := by
      rw [Bench.committed, hstruck]
      simp [Bench.noting]
    rw [hcommitted]
    exact hkeeps.transcript_reach (b := { b.noting .commit with cancelled := true }) hb.file x

end Host.Keeps

/-- Making changes durable asks of no other file. -/
theorem Bench.meets_reach {file : String} {b : Bench} (hfile : b.repository.file = some file) :
    ((reach .commit).run b).Meets (Host.Request.About file) fun _ => True := by
  have hanswer : (b.repository.answer .commit).Meets (Host.Request.About file) fun _ => True := by
    rw [Repository.answer, hfile]
    exact meets_bind (b.repository.meets_save file) fun _ _ => trivial
  exact meets_bind hanswer fun _ _ => trivial

theorem Bench.meets_commit {file : String} {b : Bench} (hfile : b.repository.file = some file) :
    ((answerCall .commit).run b).Meets (Host.Request.About file) fun _ => True := by
  rw [run_answerCall]
  cases (Fault.strike .commit b.faults).1 with
  | none => exact meets_reach hfile
  | some kind =>
    cases kind with
    | refuse | stall => trivial
    | cancel => exact meets_reach hfile

/-! ## Worlds with a journal -/

namespace Surroundings

variable {σ : Type} (host : (q : Host.Request) → StateM σ (Host.Reply q))

theorem world_step (r : Request) (x : (Bench × History.Backend) × σ) :
    let run := ((Bench.answer r).run x.1.1).transcript host x.2
    world host (.step r) x = (run.result.1, ((run.result.2, x.1.2), run.world)) := by
  have hanswer : (answer (.step r)).run ⟨x.1.1, x.1.2, .none⟩ =
      (Bench.answer r).run x.1.1 >>= fun after =>
        pure (after.1, ⟨after.2, x.1.2, .none⟩) := rfl
  rw [world, hanswer, transcript_bind]
  rfl

theorem world_latest (identity checksum : String) (mode : Mode) (b : Bench) (j : Journal) (y : σ) :
    world host (.history (.latest identity checksum mode)) ((b, .journal j), y) =
      (.ok (History.newest? j.records identity checksum mode), ((b, .journal j), y)) := rfl

theorem world_record (r : Record) (b : Bench) (j : Journal) (y : σ) :
    let run := (j.append r).transcript host y
    world host (.history (.record r)) ((b, .journal j), y) =
      (run.result.1, ((b, .journal run.result.2), run.world)) := by
  have hanswer : (answer (.history (.record r))).run ⟨b, .journal j, .none⟩ =
      j.append r >>= fun after => pure (after.1, ⟨b, .journal after.2, .none⟩) :=
    Dialogue.bind_assoc (j.append r) (fun after => pure (after.1, History.Backend.journal after.2))
      fun after => pure (after.1, (⟨b, after.2, .none⟩ : Surroundings))
  rw [world, hanswer, transcript_bind]
  rfl

end Surroundings

end Entitle
