import Entitle.Proofs.Hosts

/-!
# Ledgers

A store that began empty holds a ledger. Records only ever come to its end, their ids count them,
and of records with the same key all but the first are marked as reruns. Everything that is looked
up is a view of this one list: the newest records of a script are its last ones, and the newest
record with a key is the one with the greatest id.

A store in memory counts its records, a journal adds one to the greatest id that it finds. That is
the same for a ledger, as long as ids are words: the greatest id in a ledger is its length.

## Main definitions

* `History.Ledger`: the records of a store that began empty.
* `History.IsNewest`, `History.IsLatest`: what is to be found in a ledger.
* `History.recordAll`: keep records one after the other.
* `History.Backend.world`: a store as a world.

## Main statements

* `History.Ledger.concat`: one more record.
* `History.Ledger.nextId_backend`: both kinds of stores count the records of a ledger.
* `History.Ledger.isNewest`, `History.Ledger.isLatest`: what is looked up is a view of the ledger.
* `History.Backend.appendOnly_recordAll`: stores are append-only, keyed and ordered.
-/
namespace Entitle

open Dialogue

namespace History

/-! ## Records without repetitions -/

/-- A record is no duplicate if it is the first one with its key, or marked as a rerun. -/
theorem duplicate?_eq_none_iff {records : List Record} {r : Record} :
    duplicate? records r = none ↔ ∀ r' ∈ records, r'.sameKey r = true → r.rerun = true := by
  cases hr : r.rerun <;> simp [duplicate?, hr]

/-- A record with a key is found if there is one. -/
theorem isSome_newest?_iff {records : List Record} {r : Record} :
    (newest? records r.identity r.checksum r.mode).isSome = true ↔
      ∃ r' ∈ records, r'.sameKey r = true := by
  simp only [newest?, List.find?_isSome, mem_newestFirst, Record.sameKey_iff, Bool.and_eq_true,
    beq_iff_eq, and_assoc]

/-- The records of a store that began empty. -/
structure Ledger (records : List Record) : Prop where
  ids : records.map (·.id) = List.range' 1 records.length
  reruns : records.Pairwise fun a b => a.sameKey b = true → b.rerun = true

namespace Ledger

variable {records : List Record}

theorem nil : Ledger [] where
  ids := rfl
  reruns := .nil

/-- A record that is no duplicate comes to the end of a ledger. -/
theorem concat (h : Ledger records) {r : Record} (hnew : duplicate? records r = none) :
    Ledger (records ++ [{ r with id := records.length + 1 }]) where
  ids := by
    rw [List.map_append, h.ids, List.length_append, List.length_singleton, List.range'_concat,
      Nat.one_mul, Nat.add_comm 1]
    rfl
  reruns := List.pairwise_append.2 ⟨h.reruns, List.pairwise_singleton .., fun r' hr' _ hmem => by
    rw [List.mem_singleton.1 hmem]
    exact duplicate?_eq_none_iff.1 hnew r' hr'⟩

/-- The ids ascend. -/
theorem ascending (h : Ledger records) : records.Pairwise fun a b => a.id < b.id := by
  rw [← List.pairwise_map, h.ids]
  exact List.pairwise_lt_range'

/-- The greatest id in a ledger is its length. -/
theorem foldl_max (h : Ledger records) : (records.map (·.id)).foldl max 0 = records.length := by
  rw [h.ids]
  induction records.length with
  | zero => rfl
  | succ n ih =>
    rw [List.range'_concat, List.foldl_concat, ih]
    omega

theorem nextId_journal (h : Ledger records) (hlength : records.length + 1 < wordBound) :
    Journal.nextId records = records.length + 1 := by
  rw [Journal.nextId, h.foldl_max, Nat.mod_eq_of_lt hlength]

/-- Both kinds of stores count the records of a ledger. -/
theorem nextId_backend {b : Backend} (h : Ledger b.records)
    (hlength : b.records.length + 1 < wordBound) : b.nextId = b.records.length + 1 := by
  cases b with
  | memory records => rfl
  | journal j => exact h.nextId_journal hlength

/-- Whatever becomes of a record, a ledger stays a ledger. -/
theorem takes (h : Ledger records) {r : Record} {reply : Except StoreError Record}
    {after : List Record} (htakes : Takes records r (records.length + 1) reply after) :
    Ledger after := by
  cases htakes with
  | kept hnew => exact h.concat hnew
  | refused e => exact h

end Ledger

theorem Takes.length_le {records after : List Record} {r : Record} {id : Nat}
    {reply : Except StoreError Record} (h : Takes records r id reply after) :
    after.length ≤ records.length + 1 := by
  cases h <;> simp

/-! ## Looking up -/

/-- The newest records of a script in a ledger, the newest first: as many as there are, but not more
than the limit. -/
structure IsNewest (records : List Record) (identity : String) (limit : Nat)
    (newest : List Record) : Prop where
  last : newest.reverse <:+ records.filter (·.identity == identity)
  length : newest.length = min limit (records.countP (·.identity == identity))
  descending : newest.Pairwise fun a b => b.id < a.id

/-- The record with the greatest id among those with a key in a ledger, if there is one with it. -/
def IsLatest (records : List Record) (identity checksum : String) (mode : Mode) :
    Option Record → Prop
  | some r => r ∈ records ∧ (r.identity = identity ∧ r.checksum = checksum ∧ r.mode = mode) ∧
      ∀ r' ∈ records, r'.identity = identity → r'.checksum = checksum → r'.mode = mode →
        r'.id ≤ r.id
  | none => ∀ r ∈ records, ¬ (r.identity = identity ∧ r.checksum = checksum ∧ r.mode = mode)

namespace Ledger

variable {records : List Record} (h : Ledger records)
include h

/-- What is listed are the last records of the script. -/
theorem isNewest (identity : String) (limit : Nat) :
    IsNewest records identity limit ((newestFirst records identity).take limit) := by
  have htake : (newestFirst records identity).take limit =
      ((records.filter (·.identity == identity)).drop
        ((records.filter (·.identity == identity)).length - limit)).reverse := by
    rw [newestFirst, List.filter_reverse, List.take_reverse]
  refine ⟨?_, ?_, ?_⟩
  · rw [htake, List.reverse_reverse]
    exact List.drop_suffix ..
  · rw [List.length_take, newestFirst, List.filter_reverse, List.length_reverse,
      List.countP_eq_length_filter]
  · rw [htake, List.pairwise_reverse]
    exact h.ascending.sublist ((List.drop_sublist ..).trans List.filter_sublist)

/-- What is found is the record with the greatest id. -/
theorem isLatest (identity checksum : String) (mode : Mode) :
    IsLatest records identity checksum mode (newest? records identity checksum mode) := by
  cases hfound : newest? records identity checksum mode with
  | none =>
    rintro r hr ⟨rfl, rfl, rfl⟩
    have hnone := List.find?_eq_none.1 hfound r (mem_newestFirst.2 ⟨hr, rfl⟩)
    simp at hnone
  | some r =>
    obtain ⟨⟨rfl, rfl, rfl⟩, older, newer, rfl, hnewer⟩ := newest?_eq_some_iff.1 hfound
    refine ⟨by simp, ⟨rfl, rfl, rfl⟩, fun r' hr' hidentity hchecksum hmode => ?_⟩
    obtain hr' | hr' := List.mem_append.1 hr'
    · exact Nat.le_of_lt ((List.pairwise_append.1 h.ascending).2.2 r' hr' r List.mem_cons_self)
    · obtain rfl | hr' := List.mem_cons.1 hr'
      · exact Nat.le_refl _
      · -- no newer record has the key
        have hother := hnewer r' hr'
        rw [Record.sameKey_iff.2 ⟨hidentity, hchecksum, hmode⟩] at hother
        cases hother

end Ledger

/-! ## Stores -/

/-- Keep records one after the other. -/
def recordAll : List Record → Dialogue Request Reply (List (Except StoreError Record))
  | [] => pure []
  | r :: rest => do
    let reply ← (record r).run
    let more ← recordAll rest
    pure (reply :: more)

/-- One more record comes after the others. -/
theorem transcript_recordAll_concat {σ : Type} (w : (q : Request) → StateM σ (Reply q))
    (rs : List Record) (r : Record) (x : σ) :
    let before := (recordAll rs).transcript w x
    let run := (recordAll (rs ++ [r])).transcript w x
    run.result = before.result ++ [(w (.record r) before.world).1] ∧
      run.world = (w (.record r) before.world).2 := by
  induction rs generalizing x with
  | nil => exact ⟨rfl, rfl⟩
  | cons first rest ih =>
    have hcons : ∀ rs, (recordAll (first :: rs)).transcript w x =
        let more := (recordAll rs).transcript w (w (.record first) x).2
        ⟨(w (.record first) x).1 :: more.result,
          ⟨.record first, (w (.record first) x).1⟩ :: more.log, more.world⟩ := by
      intro rs
      have hrun : recordAll (first :: rs) = request (Request.record first) >>= fun reply =>
          recordAll rs >>= fun more => pure (reply :: more) := rfl
      rw [hrun, transcript_request_bind]
      simp only [transcript_bind, pure_eq, transcript_done, List.append_nil]
    obtain ⟨hresult, hworld⟩ := ih (w (.record first) x).2
    simp only [List.cons_append, hcons, hresult, hworld, and_self]

namespace Backend

/-! ### Requests -/

private theorem run_latest (b : Backend) (identity checksum : String) (mode : Mode) :
    b.run (latest identity checksum mode).run .none =
      pure (.ok (newest? b.records identity checksum mode), b) := by
  cases b <;> rfl

private theorem run_list (b : Backend) (identity : String) (limit : Nat) :
    b.run (list identity limit).run .none =
      pure (.ok ((newestFirst b.records identity).take limit), b) := by
  cases b <;> rfl

private theorem run_lastRun (b : Backend) (identity : String) :
    b.run (lastRun identity).run .none =
      pure (.ok ((newestFirst b.records identity).take 1).head?, b) := by
  cases b <;> rfl

section

variable {σ : Type} (host : (q : Host.Request) → StateM σ (Host.Reply q))

/-- A store without defects as a world, on a host with a state of its own. -/
def world (q : Request) : StateM (Backend × σ) (Reply q) := fun x =>
  let after := ((answer q).run x.1).transcript host x.2
  (after.result.1, (after.result.2, after.world))

/-- What is run on a store is run in its world. -/
theorem transcript_run {α : Type} (p : Dialogue Request Reply α) (b : Backend) (y : σ) :
    let run := (b.run p .none).transcript host y
    let passage := p.transcript (world host) (b, y)
    run.result = (passage.result, passage.world.1) ∧ run.world = passage.world.2 := by
  induction p generalizing b y with
  | done a => exact ⟨rfl, rfl⟩
  | ask q next ih =>
    have hrun : b.run (.ask q next) .none =
        (answer q).run b >>= fun after => after.2.run (next after.1) .none := by
      simp only [run, Defect.answer_none]
      rfl
    simp only [hrun, transcript_bind, transcript, world]
    exact ih _ _ _

/-- A record that is given to a history file. -/
theorem world_record_journal (r : Record) (j : Journal) (y : σ) :
    world host (.record r) (.journal j, y) =
      let after := (j.append r).transcript host y
      (after.result.1, .journal after.result.2, after.world) := by
  have hanswer : (answer (.record r)).run (.journal j) =
      j.append r >>= fun after => pure (after.1, .journal after.2) := rfl
  simp only [world, hanswer, transcript_bind, pure_eq, transcript_done]

/-- A record that is given to a store comes to the end under the next id, or is refused. -/
theorem takes_world (r : Record) (x : Backend × σ) :
    Takes x.1.records r x.1.nextId (world host (.record r) x).1
      (world host (.record r) x).2.1.records :=
  (transcript_of_meets host (x.1.meets_record r) x.2).1

/-! ### Many records -/

/-- Records that were kept stay, and in their places. -/
theorem prefix_recordAll {before rs : List Record} (h : before <+: rs) (x : Backend × σ) :
    ((recordAll before).transcript (world host) x).world.1.records <+:
      ((recordAll rs).transcript (world host) x).world.1.records := by
  obtain ⟨more, rfl⟩ := h
  induction more using List.reverseRecOn with
  | nil => simp
  | append_singleton more r ih =>
    rw [← List.append_assoc, (transcript_recordAll_concat _ (before ++ more) r x).2]
    refine ih.trans ?_
    have htakes := takes_world host r ((recordAll (before ++ more)).transcript (world host) x).world
    generalize (world host (.record r) _).1 = reply at htakes
    generalize (world host (.record r) _).2.1.records = after at htakes ⊢
    cases htakes with
    | kept => exact List.prefix_append ..
    | refused e => exact List.prefix_rfl

/-- The records of a store that began empty are a ledger. -/
theorem ledger_recordAll {x : Backend × σ} (hempty : x.1.records = []) {rs : List Record}
    (hlength : rs.length < wordBound) :
    let run := (recordAll rs).transcript (world host) x
    Ledger run.world.1.records ∧ run.world.1.records.length ≤ rs.length := by
  induction rs using List.reverseRecOn with
  | nil =>
    simp only [recordAll, pure_eq, transcript_done, hempty]
    exact ⟨.nil, Nat.le_refl 0⟩
  | append_singleton rs r ih =>
    rw [List.length_append, List.length_singleton] at hlength ⊢
    obtain ⟨hledger, hle⟩ := ih (Nat.lt_of_succ_lt hlength)
    have htakes := takes_world host r ((recordAll rs).transcript (world host) x).world
    rw [hledger.nextId_backend (by omega)] at htakes
    simp only [(transcript_recordAll_concat _ rs r x).2]
    exact ⟨hledger.takes htakes, htakes.length_le.trans (Nat.add_le_add_right hle 1)⟩

/-- Stores are append-only, keyed and ordered. However many records are given to a store of either
kind that began empty, as long as their number is a word, and whatever its host does:

* what was kept stays as it is, a record that is refused leaves everything as it was, and one that
  is accepted comes to the end,
* the ids ascend, and of two records with the same key the later one is a rerun,
* what is listed are the newest records of a script, the newest first, and the last run is the first
  of them,
* what is found is the record with the greatest id among those with the key. -/
theorem appendOnly_recordAll {b : Backend} (hempty : b.records = []) {rs : List Record}
    (hlength : rs.length < wordBound) (y : σ) :
    let run rs := ((b.run (recordAll rs) .none).transcript host y).result
    let store := (run rs).2
    (∀ before, before <+: rs → (run before).2.records <+: store.records) ∧
    (∀ before r, before ++ [r] <+: rs →
      (∃ e, (run (before ++ [r])).1 = (run before).1 ++ [.error e] ∧
        (run (before ++ [r])).2.records = (run before).2.records) ∨
      ∃ id, (run (before ++ [r])).1 = (run before).1 ++ [.ok { r with id }] ∧
        (run (before ++ [r])).2.records = (run before).2.records ++ [{ r with id }]) ∧
    store.records.Pairwise (fun r r' => r.id < r'.id) ∧
    store.records.Pairwise (fun r r' => r.sameKey r' = true → r'.rerun = true) ∧
    (∀ identity limit, ∃ newest,
      store.run (list identity limit).run .none = pure (.ok newest, store) ∧
      IsNewest store.records identity limit newest ∧
      (0 < limit → store.run (lastRun identity).run .none = pure (.ok newest.head?, store))) ∧
    ∀ identity checksum mode, ∃ found,
      store.run (latest identity checksum mode).run .none = pure (.ok found, store) ∧
      IsLatest store.records identity checksum mode found := by
  have hrun : ∀ rs, ((b.run (recordAll rs) .none).transcript host y).result =
      (((recordAll rs).transcript (world host) (b, y)).result,
        ((recordAll rs).transcript (world host) (b, y)).world.1) :=
    fun rs => (transcript_run host (recordAll rs) b y).1
  obtain ⟨hledger, -⟩ := ledger_recordAll host (x := (b, y)) hempty hlength
  simp only [hrun]
  refine ⟨fun before h => prefix_recordAll host h (b, y), fun before r _ => ?_,
    hledger.ascending, hledger.reruns, fun identity limit => ?_, fun identity checksum mode => ?_⟩
  · obtain ⟨hresult, hworld⟩ := transcript_recordAll_concat (world host) before r (b, y)
    have htakes := takes_world host r ((recordAll before).transcript (world host) (b, y)).world
    simp only [hresult, hworld]
    generalize (world host (.record r) _).1 = reply at htakes ⊢
    generalize (world host (.record r) _).2.1.records = after at htakes ⊢
    cases htakes with
    | kept => exact .inr ⟨_, rfl, rfl⟩
    | refused e => exact .inl ⟨e, rfl, rfl⟩
  · refine ⟨_, run_list .., hledger.isNewest identity limit, fun hlimit => ?_⟩
    rw [run_lastRun, List.head?_take, if_neg Nat.one_ne_zero, List.head?_take,
      if_neg (Nat.ne_of_gt hlimit)]
  · exact ⟨_, run_latest .., hledger.isLatest identity checksum mode⟩

end

/-- Runs with ids of their own. The second one repeats the first, the third one says so. -/
def repeatedRuns : List Record :=
  [Journal.idleRun 9 "a", Journal.idleRun 7 "a", { Journal.idleRun 0 "a" with rerun := true },
    Journal.idleRun 0 "b"]

/-- The second record is refused, and the others are counted. The third one is the latest of its
key. -/
theorem appendOnly_recordAll_repeatedRuns :
    let b : Backend := .journal ⟨"runs/h", [], none⟩
    let store := ((b.run (recordAll repeatedRuns) .none).transcript Cabinet.answer
      ⟨fun _ => none, ⟨0, 0⟩⟩).result.2
    repeatedRuns.length < wordBound ∧ store.records.map (·.id) = [1, 2, 3] ∧
      store.records.Pairwise (fun r r' => r.sameKey r' = true → r'.rerun = true) ∧
      IsLatest store.records "a" "c" .apply
        (some { Journal.idleRun 2 "a" with rerun := true }) := by
  have hlength : repeatedRuns.length < wordBound := by decide
  obtain ⟨-, -, -, hreruns, -, hlatest⟩ := appendOnly_recordAll Cabinet.answer
    (b := .journal ⟨"runs/h", [], none⟩) rfl hlength ⟨fun _ => none, ⟨0, 0⟩⟩
  obtain ⟨found, hfound, hlatest⟩ := hlatest "a" "c" .apply
  refine ⟨hlength, by decide +kernel, hreruns, ?_⟩
  obtain rfl : found = some { Journal.idleRun 2 "a" with rerun := true } := by
    rw [run_latest] at hfound
    cases hfound
    decide +kernel
  exact hlatest

end Backend

end History

end Entitle
