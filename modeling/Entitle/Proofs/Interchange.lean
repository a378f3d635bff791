import Entitle.Proofs.Ledgers

/-!
# Interchangeable stores

A store in memory and a history file on a host that can be trusted with it give the same answers to
whatever they are asked, when the one begins empty and the other missing. The file may be closed and
opened again as often as one likes. What is in it is at all times what the other store has in
memory, and with the same ids: one store counts its records, the other looks for the greatest id,
and in a ledger that is the same.

## Main definitions

* `History.Operation`, `History.Answer`: what stores are asked, and what they answer.
* `History.askAll`: ask a store one thing after the other.
* `Journal.sittings`: ask a history file in several sittings, each of which opens it.
* `History.InStep`: a history file holds the same records as a store in memory.

## Main statements

* `History.InStep.next`: one request.
* `History.InStep.transcript`: no program tells the two stores apart.
* `Journal.sittings_eq_memory`: the two stores are interchangeable.
-/
namespace Entitle

open Dialogue

namespace History

/-! ## Operations -/

/-- What a store is asked. -/
inductive Operation where
  | record (r : Record)
  | latest (identity checksum : String) (mode : Mode)
  | lookup (identity checksum : String)
  | list (identity : String) (limit : Nat)
  | lastRun (identity : String)

/-- What a store answers, unless it fails. -/
inductive Answer where
  | kept (r : Record)
  | found (r : Option Record)
  | listed (records : List Record)
  deriving DecidableEq

/-- Ask a store. -/
def Operation.query : Operation → Query Answer
  | .record r => .kept <$> History.record r
  | .latest identity checksum mode => .found <$> History.latest identity checksum mode
  | .lookup identity checksum => .found <$> History.lookup identity checksum
  | .list identity limit => .listed <$> History.list identity limit
  | .lastRun identity => .found <$> History.lastRun identity

/-- Ask a store one thing after the other, whether it fails or not. -/
def askAll : List Operation → Dialogue Request Reply (List (Except StoreError Answer))
  | [] => pure []
  | op :: rest => do
    let answer ← op.query.run
    let more ← askAll rest
    pure (answer :: more)

private theorem askAll_append (ops more : List Operation) : askAll (ops ++ more) =
    askAll ops >>= fun answers => askAll more >>= fun further => pure (answers ++ further) := by
  induction ops with
  | nil => exact (bind_pure _).symm
  | cons op rest ih =>
    simp only [List.cons_append, askAll, ih, LawfulMonad.bind_assoc, LawfulMonad.pure_bind]

/-- The counts in a record that is to be kept are words. -/
def Request.InWords : Request → Prop
  | .record r => r.summary.InWords
  | .latest .. | .list .. => True

def Operation.InWords : Operation → Prop
  | .record r => r.summary.InWords
  | .latest .. | .lookup .. | .list .. | .lastRun .. => True

private theorem Operation.meets_query {op : Operation} (h : op.InWords) :
    op.query.run.Meets Request.InWords fun _ => True := by
  cases op with
  | record r => exact ⟨h, fun reply => by cases reply <;> trivial⟩
  | latest | lookup | list | lastRun => exact ⟨trivial, fun reply => by cases reply <;> trivial⟩

private theorem meets_askAll {ops : List Operation} (h : ∀ op ∈ ops, op.InWords) :
    (askAll ops).Meets Request.InWords fun _ => True := by
  induction ops with
  | nil => trivial
  | cons op rest ih =>
    obtain ⟨hop, hrest⟩ := List.forall_mem_cons.1 h
    exact meets_bind (op.meets_query hop) fun _ _ => meets_bind (ih hrest) fun _ _ => trivial

/-! ## Memory -/

/-- What is run on a store in memory asks nothing of the host. -/
theorem Backend.run_memory {α : Type} (p : Dialogue Request Reply α) (records : List Record) :
    let passage := p.transcript Memory.answer records
    (memory records).run p .none = pure (passage.result, memory passage.world) := by
  induction p generalizing records with
  | done a => rfl
  | ask q next ih =>
    have hrun : (memory records).run (.ask q next) .none =
        (memory (Memory.answer q records).2).run (next (Memory.answer q records).1) .none := by
      simp only [run, Defect.answer_none]
      rfl
    rw [hrun]
    exact ih _ _

/-- A store in memory never loses a record. -/
theorem length_le_memory {α : Type} (p : Dialogue Request Reply α) (records : List Record) :
    records.length ≤ (p.transcript Memory.answer records).world.length := by
  refine world_of_meets (I := fun after : List Record => records.length ≤ after.length)
    Memory.answer p.meets_true (fun q _ after hafter => hafter.trans ?_) (Nat.le_refl _)
  have hserves := serves_memory q after
  generalize (Memory.answer q after).1 = reply at hserves
  generalize (Memory.answer q after).2 = more at hserves ⊢
  cases hserves with
  | kept => simp
  | notKept | found | notFound | listed | notListed => exact Nat.le_refl _

/-! ## Files that hold what is in memory -/

/-- If nothing fails, keeping a record comes to the same in a history file as in memory. -/
theorem Ledger.kept_eq_memory {j : Journal} (h : Ledger j.records) {r : Record}
    (hcount : (Memory.answer (.record r) j.records).2.length < wordBound) :
    (j.kept r).1 = (Memory.answer (.record r) j.records).1 ∧
      (j.kept r).2.records = (Memory.answer (.record r) j.records).2 := by
  simp only [Memory.answer, Memory.append, Journal.kept] at hcount ⊢
  cases hnew : duplicate? j.records r with
  | some e => exact ⟨rfl, rfl⟩
  | none =>
    rw [hnew, List.length_append, List.length_singleton] at hcount
    rw [h.nextId_journal hcount]
    exact ⟨rfl, rfl⟩

/-- The store is what opening its file would give, and its records, which are a ledger, are those of
a store in memory. -/
structure InStep {σ : Type} (file : String) (view : σ → Option ByteArray) (records : List Record)
    (x : Backend × σ) : Prop where
  current : ∃ j, x.1 = .journal j ∧ Journal.opened file (view x.2) = .ok j
  records_eq : x.1.records = records
  ledger : Ledger records

namespace InStep

variable {σ : Type} {host : (q : Host.Request) → StateM σ (Host.Reply q)} {file : String}
  {view : σ → Option ByteArray} {records : List Record} {x : Backend × σ}

/-- One request: the answers are the same, and the file holds what is in memory again. -/
theorem next (h : InStep file view records x) (hkeeps : Host.Keeps host file view) {q : Request}
    (hq : q.InWords) (hcount : (Memory.answer q records).2.length < wordBound) :
    (Backend.world host q x).1 = (Memory.answer q records).1 ∧
      InStep file view (Memory.answer q records).2 (Backend.world host q x).2 := by
  obtain ⟨b, y⟩ := x
  obtain ⟨⟨j, rfl, hj⟩, rfl, hledger⟩ := h
  cases q with
  | latest | list => exact ⟨rfl, ⟨j, rfl, hj⟩, rfl, hledger⟩
  | record r =>
    obtain ⟨hresult, hafter⟩ := hkeeps.transcript_append hj hq
    obtain ⟨hreply, hrecords⟩ := Ledger.kept_eq_memory hledger hcount
    simp only [Backend.world_record_journal, hresult]
    exact ⟨hreply, ⟨_, rfl, hafter⟩, hrecords, hledger.takes (takes_memory r j.records)⟩

/-- No program tells the two stores apart. -/
theorem transcript {α : Type} {p : Dialogue Request Reply α} {Q : α → Prop}
    (hp : p.Meets Request.InWords Q) (hkeeps : Host.Keeps host file view)
    (h : InStep file view records x)
    (hcount : (p.transcript Memory.answer records).world.length < wordBound) :
    let passage := p.transcript (Backend.world host) x
    passage.result = (p.transcript Memory.answer records).result ∧
      InStep file view (p.transcript Memory.answer records).world passage.world := by
  induction p generalizing records x with
  | done a => exact ⟨rfl, h⟩
  | ask q more ih =>
    obtain ⟨hreply, hnext⟩ := h.next hkeeps hp.1
      (Nat.lt_of_le_of_lt (length_le_memory (more (Memory.answer q records).1) _) hcount)
    simp only [Dialogue.transcript, hreply]
    exact ih _ (hp.2 _) hnext hcount

end InStep

end History

/-! ## Sittings -/

namespace Journal

open History

/-- Ask a history file in several sittings. Each begins with opening it. -/
def sittings (file : String) :
    List (List Operation) → Hosted (Except StoreError (List (Except StoreError Answer)))
  | [] => pure (.ok [])
  | ops :: rest => do
    match ← load file with
    | .error e => pure (.error e)
    | .ok j =>
      let (answers, _) ← (Backend.journal j).run (askAll ops) .none
      let more ← sittings file rest
      pure (more.map (answers ++ ·))

variable {σ : Type} {host : (q : Host.Request) → StateM σ (Host.Reply q)} {file : String}
  {view : σ → Option ByteArray}

/-- Sittings with a file that holds the records of a store in memory. -/
theorem result_sittings (hkeeps : Host.Keeps host file view) {all : List (List Operation)}
    (hwords : ∀ op ∈ all.flatten, op.InWords) {records : List Record}
    (hledger : Ledger records)
    (hcount : ((askAll all.flatten).transcript Memory.answer records).world.length < wordBound)
    {j : Journal} {y : σ} (hj : opened file (view y) = .ok j) (hrecords : j.records = records) :
    ((sittings file all).transcript host y).result =
      .ok ((askAll all.flatten).transcript Memory.answer records).result := by
  induction all generalizing records j y with
  | nil => rfl
  | cons ops rest ih =>
    rw [List.flatten_cons] at hwords hcount ⊢
    obtain ⟨hfirst, hrest⟩ := List.forall_mem_append.1 hwords
    rw [askAll_append] at hcount ⊢
    simp only [transcript_bind, pure_eq, transcript_done] at hcount ⊢
    have hmeets : (load file).Meets (·.changes file = false) fun _ => True :=
      Host.meets_load (by rfl) (load_eq file)
    have hload := hkeeps.view_transcript hmeets y
    have hopened := hkeeps.result_journal y
    have hstep : InStep file view records (.journal j, ((load file).transcript host y).world) :=
      ⟨⟨j, rfl, hload ▸ hj⟩, hrecords, hledger⟩
    obtain ⟨hresult, hafter⟩ := hstep.transcript (meets_askAll hfirst) hkeeps
      (Nat.lt_of_le_of_lt (length_le_memory (askAll rest.flatten) _) hcount)
    obtain ⟨hrun, hworld⟩ := Backend.transcript_run host (askAll ops) (.journal j)
      ((load file).transcript host y).world
    rw [sittings, transcript_bind]
    simp only [hopened, hj, transcript_bind, hrun, hresult, hworld]
    obtain ⟨⟨j', hstore, hj'⟩, hrecords', hledger'⟩ := hafter
    rw [hstore] at hrecords'
    have hmore := ih hrest hledger' hcount hj' hrecords'
    simp only [hmore]
    rfl

/-- The two stores are interchangeable. Whatever a missing file and an empty store in memory are
asked, as long as a word counts the records in memory, every answer is the same, with its ids and
its errors, and the file always opens. -/
theorem sittings_eq_memory (hkeeps : Host.Keeps host file view) {x : σ} (hmissing : view x = none)
    {all : List (List Operation)} (hwords : ∀ op ∈ all.flatten, op.InWords)
    (hcount : ((askAll all.flatten).transcript Memory.answer []).world.length < wordBound) :
    ∃ answers store, (Backend.memory []).run (askAll all.flatten) .none = pure (answers, store) ∧
      ((sittings file all).transcript host x).result = .ok answers :=
  ⟨_, _, Backend.run_memory .., result_sittings hkeeps hwords .nil hcount
    (j := ⟨file, [], none⟩) (by rw [hmissing]; rfl) rfl⟩

/-- Three sittings, the second of which only opens the file. -/
def threeSittings : List (List Operation) :=
  [[.record (idleRun 9 "a"), .record (idleRun 0 "a"), .latest "a" "c" .dryRun], [],
    [.record { idleRun 1 "a" with rerun := true }, .lookup "a" "c", .list "a" 1, .lastRun "b"]]

/-- The second record is a duplicate, and the third one is counted in a file that was opened
again. -/
theorem sittings_threeSittings :
    let repeated := { idleRun 2 "a" with rerun := true }
    (∀ op ∈ threeSittings.flatten, op.InWords) ∧
      ((sittings "runs/h" threeSittings).transcript Cabinet.answer
        ⟨fun _ => none, ⟨0, 0⟩⟩).result =
        .ok [.ok (.kept (idleRun 1 "a")), .error (.duplicate "a" "c" .apply), .ok (.found none),
          .ok (.kept repeated), .ok (.found (some repeated)), .ok (.listed [repeated]),
          .ok (.found none)] := by
  have hwords : ∀ op ∈ threeSittings.flatten, op.InWords := by
    simp [threeSittings, Operation.InWords, idleRun, Summary.InWords, wordBound]
  obtain ⟨answers, store, hmemory, hfile⟩ := sittings_eq_memory (Cabinet.keeps "runs/h")
    (x := ⟨fun _ => none, ⟨0, 0⟩⟩) rfl hwords (by decide +kernel)
  refine ⟨hwords, ?_⟩
  rw [hfile]
  rw [Backend.run_memory] at hmemory
  cases hmemory
  decide +kernel

end Journal

end Entitle
