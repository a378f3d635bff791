import Entitle.Proofs.Ledgers
import Entitle.Proofs.Reopening

/-!
# The ids in a file

A history file may come from anywhere. Its records may have any ids, in any order, and several of
them the same. A record that is kept gets one more than the greatest of them, so the ids ascend from
then on. But ids are words of 64 bits: where the greatest id is the greatest word there is none
above it, and the next record gets the id 0.

## Main definitions

* `History.topId`: the greatest id of records.
* `Journal.recorded`: records that are given to a journal one after the other.
* `Journal.Ascending`: every record that is kept gets an id above the others.

## Main statements

* `Journal.forall_lt_nextId_iff`: when the next id is above all others.
* `Journal.id_lt_of_load`: ids that are read are words.
* `Journal.recorded_concat`: one more record.
* `Journal.ascending_recordAll_iff`: for how long the ids ascend.
* `Journal.not_ascending_lastId`: a record that gets the least id.
-/
namespace Entitle

open Dialogue

/-! ## Ids that are read -/

theorem Record.id_lt_of_ofJson? {j : Json} {r : Record} (h : ofJson? j = some r) :
    r.id < wordBound := by
  rw [ofJson?] at h
  obtain ⟨fs, -, h⟩ := Option.bind_eq_some_iff.1 h
  obtain ⟨id, hid, h⟩ := Option.bind_eq_some_iff.1 h
  have hbound : id < wordBound := by
    obtain ⟨value, -, hvalue⟩ := Option.bind_eq_some_iff.1 hid
    cases value with
    | nat n =>
      obtain ⟨hlt, hn⟩ := Option.ite_none_right_eq_some.1 hvalue
      cases hn
      exact hlt
    | _ => cases hvalue
  simp only [Option.bind_eq_bind, Option.bind_eq_some_iff, Option.pure_def, Option.some.injEq] at h
  obtain ⟨_, -, _, -, _, -, _, -, _, -, _, -, _, -, rfl⟩ := h
  exact hbound

namespace History

variable {records : List Record} {r : Record}

/-- The greatest id of records, 0 if there are none. -/
def topId (records : List Record) : Nat :=
  (records.map (·.id)).foldl max 0

@[simp] theorem topId_nil : topId [] = 0 := rfl

@[simp] theorem topId_concat (records : List Record) (r : Record) :
    topId (records ++ [r]) = max (topId records) r.id := by
  simp [topId]

/-- No id is above the greatest one. -/
theorem id_le_topId (h : r ∈ records) : r.id ≤ topId records := by
  induction records using List.reverseRecOn with
  | nil => cases h
  | append_singleton records last ih =>
    rw [topId_concat]
    obtain h | h := List.mem_append.1 h
    · exact (ih h).trans (le_max_left ..)
    · rw [List.mem_singleton.1 h]
      exact le_max_right ..

/-- The greatest of ids that are words is a word. -/
theorem topId_lt (h : ∀ r ∈ records, r.id < wordBound) : topId records < wordBound := by
  induction records using List.reverseRecOn with
  | nil => decide
  | append_singleton records last ih =>
    obtain ⟨hrecords, hlast⟩ := List.forall_mem_append.1 h
    rw [topId_concat]
    exact max_lt (ih hrecords) (hlast last List.mem_cons_self)

/-- The greatest id is one of the ids. -/
theorem exists_id_eq_topId (h : topId records ≠ 0) : ∃ r ∈ records, r.id = topId records := by
  induction records using List.reverseRecOn with
  | nil => exact absurd topId_nil h
  | append_singleton records last ih =>
    rw [topId_concat] at h ⊢
    rcases le_total (topId records) last.id with hle | hle
    · exact ⟨last, by simp, (max_eq_right hle).symm⟩
    · rw [max_eq_left hle] at h ⊢
      obtain ⟨r, hr, hid⟩ := ih h
      exact ⟨r, List.mem_append_left _ hr, hid⟩

end History

namespace Journal

open History

variable {records : List Record}

private theorem nextId_eq (h : topId records + 1 < wordBound) :
    nextId records = topId records + 1 :=
  Nat.mod_eq_of_lt h

/-- The next id is above all others unless the greatest one is the greatest word. -/
theorem forall_lt_nextId_iff (h : topId records < wordBound) :
    (∀ r ∈ records, r.id < nextId records) ↔ topId records + 1 < wordBound := by
  constructor
  · intro hall
    by_contra hlast
    have hid : topId records ≠ 0 := by
      rintro hzero
      rw [hzero] at hlast
      exact hlast (by decide)
    obtain ⟨r, hr, heq⟩ := exists_id_eq_topId hid
    have htop : topId records + 1 = wordBound := by omega
    have hwrap : nextId records = 0 := (congrArg (· % wordBound) htop).trans (Nat.mod_self _)
    have hlt := hall r hr
    rw [hwrap] at hlt
    exact Nat.not_lt_zero _ hlt
  · intro hroom r hr
    rw [nextId_eq hroom]
    exact Nat.lt_succ_of_le (id_le_topId hr)

/-- The ids of a file that is opened are words, whatever the host does. -/
theorem id_lt_of_load {σ : Type} (host : (q : Host.Request) → StateM σ (Host.Reply q))
    {file : String} {x : σ} {j : Journal} (h : ((load file).transcript host x).result = .ok j) :
    ∀ r ∈ j.records, r.id < wordBound := by
  rw [load_eq, transcript_bind] at h
  have hread : ofRead file ((Host.readText file).transcript host x).result = .ok j := h
  cases hresult : ((Host.readText file).transcript host x).result with
  | error e =>
    rw [hresult, ofRead] at hread
    obtain ⟨-, hj⟩ := ite_eq_iff.1 hread |>.resolve_right (by simp)
    cases hj
    simp
  | ok text =>
    rw [hresult] at hread
    obtain ⟨records, hlines, rfl⟩ := ofText_eq_ok_iff.1 hread
    intro r hr
    -- every record is read from a line
    have hmem : some r ∈ records.map some := List.mem_map_of_mem hr
    rw [← readLines_eq_ok_iff.1 hlines] at hmem
    obtain ⟨line, -, hline⟩ := List.mem_map.1 hmem
    obtain ⟨json, -, hjson⟩ := Option.bind_eq_some_iff.1 hline
    exact Record.id_lt_of_ofJson? hjson

/-! ## Ids that are given -/

section

variable {σ : Type} (host : (q : Host.Request) → StateM σ (Host.Reply q))

/-- Records are given to a journal one after the other: the replies, and the records that the
journal has afterwards. -/
def recorded (j : Journal) (y : σ) (rs : List Record) :
    List (Except StoreError Record) × List Record :=
  let (replies, after) := (((Backend.journal j).run (recordAll rs) .none).transcript host y).result
  (replies, after.records)

private theorem recorded_eq (j : Journal) (y : σ) (rs : List Record) : recorded host j y rs =
    (((recordAll rs).transcript (Backend.world host) (.journal j, y)).result,
      ((recordAll rs).transcript (Backend.world host) (.journal j, y)).world.1.records) := by
  rw [recorded, (Backend.transcript_run host (recordAll rs) (.journal j) y).1]

/-- A journal stays a journal. -/
theorem exists_journal_recordAll (j : Journal) (y : σ) (rs : List Record) :
    ∃ j', ((recordAll rs).transcript (Backend.world host) (.journal j, y)).world.1 =
      .journal j' := by
  induction rs using List.reverseRecOn with
  | nil => exact ⟨j, rfl⟩
  | append_singleton rs r ih =>
    rw [(transcript_recordAll_concat _ rs r _).2]
    generalize ((recordAll rs).transcript (Backend.world host) (.journal j, y)).world = x at ih ⊢
    obtain ⟨b, z⟩ := x
    obtain ⟨j', rfl⟩ : ∃ j', b = .journal j' := ih
    rw [Backend.world_record_journal]
    exact ⟨_, rfl⟩

/-- One more record is refused, or it comes to the end under the next id. -/
theorem recorded_concat (j : Journal) (y : σ) (rs : List Record) (r : Record) :
    let before := recorded host j y rs
    let stored := { r with id := nextId before.2 }
    (∃ e, recorded host j y (rs ++ [r]) = (before.1 ++ [.error e], before.2)) ∨
      recorded host j y (rs ++ [r]) = (before.1 ++ [.ok stored], before.2 ++ [stored]) := by
  obtain ⟨hresult, hworld⟩ := transcript_recordAll_concat (Backend.world host) rs r (.journal j, y)
  obtain ⟨j', hj'⟩ := exists_journal_recordAll host j y rs
  simp only [recorded_eq, hresult, hworld]
  generalize (recordAll rs).transcript (Backend.world host) (.journal j, y) = t at hj' ⊢
  have htakes := Backend.takes_world host r t.world
  have hid : t.world.1.nextId = nextId t.world.1.records := by
    rw [hj']
    rfl
  rw [hid] at htakes
  generalize (Backend.world host (.record r) t.world).1 = reply at htakes ⊢
  generalize (Backend.world host (.record r) t.world).2.1.records = after at htakes ⊢
  cases htakes with
  | kept => exact .inr rfl
  | refused e => exact .inl ⟨e, rfl⟩

/-- Ids that are words stay words. -/
theorem id_lt_of_recorded {j : Journal} (hwords : ∀ r ∈ j.records, r.id < wordBound) (y : σ)
    (rs : List Record) : ∀ r ∈ (recorded host j y rs).2, r.id < wordBound := by
  induction rs using List.reverseRecOn with
  | nil => exact hwords
  | append_singleton rs r ih =>
    obtain ⟨e, hrun⟩ | hrun := recorded_concat host j y rs r
    · rw [hrun]
      exact ih
    · rw [hrun]
      exact List.forall_mem_append.2
        ⟨ih, List.forall_mem_singleton.2 (Nat.mod_lt _ (by decide))⟩

/-- Every record that is kept gets an id above those of the records before it. -/
def Ascending (j : Journal) (y : σ) (rs : List Record) : Prop :=
  ∀ before r stored, before ++ [r] <+: rs →
    (recorded host j y (before ++ [r])).1 = (recorded host j y before).1 ++ [.ok stored] →
    ∀ r' ∈ (recorded host j y before).2, r'.id < stored.id

theorem ascending_nil (j : Journal) (y : σ) : Ascending host j y [] := fun before r _ h => by
  simp at h

theorem ascending_concat {j : Journal} {y : σ} {rs : List Record} {r : Record} :
    Ascending host j y (rs ++ [r]) ↔ Ascending host j y rs ∧
      ∀ stored, (recorded host j y (rs ++ [r])).1 = (recorded host j y rs).1 ++ [.ok stored] →
        ∀ r' ∈ (recorded host j y rs).2, r'.id < stored.id := by
  constructor
  · exact fun h => ⟨fun before r' stored hstarts => h before r' stored
      (hstarts.trans (List.prefix_append ..)), fun stored => h rs r stored List.prefix_rfl⟩
  · rintro ⟨hrs, hlast⟩ before r' stored hstarts
    obtain heq | hstarts := List.prefix_concat_iff.1 hstarts
    · obtain ⟨rfl, hr⟩ := List.append_inj' heq rfl
      cases hr
      exact hlast stored
    · exact hrs before r' stored hstarts

/-- As long as there are ids left, the greatest one counts the records that are kept. -/
theorem topId_recorded (j : Journal) (y : σ) (rs : List Record) :
    let kept := (recorded host j y rs).1.countP (·.isOk)
    topId j.records + kept < wordBound →
      topId (recorded host j y rs).2 = topId j.records + kept := by
  induction rs using List.reverseRecOn with
  | nil => exact fun _ => rfl
  | append_singleton rs r ih =>
    obtain ⟨e, hrun⟩ | hrun := recorded_concat host j y rs r
    · simpa [hrun, Except.isOk, Except.toBool] using ih
    · intro kept hroom
      have hkept : kept = (recorded host j y rs).1.countP (·.isOk) + 1 := by
        simp [kept, hrun, Except.isOk, Except.toBool]
      rw [hkept, ← Nat.add_assoc] at hroom ⊢
      have htop := ih (Nat.lt_of_succ_lt hroom)
      have hnext := nextId_eq (htop ▸ hroom : topId (recorded host j y rs).2 + 1 < wordBound)
      rw [hrun, topId_concat, hnext, max_eq_right (Nat.le_succ _), htop]

theorem ascending_iff {j : Journal} (hwords : ∀ r ∈ j.records, r.id < wordBound) (y : σ)
    (rs : List Record) : Ascending host j y rs ↔
      topId j.records + (recorded host j y rs).1.countP (·.isOk) < wordBound := by
  induction rs using List.reverseRecOn with
  | nil => exact iff_of_true (ascending_nil host j y) (topId_lt hwords)
  | append_singleton rs r ih =>
    rw [ascending_concat, ih]
    obtain ⟨e, hrun⟩ | hrun := recorded_concat host j y rs r
    · simp [hrun, Except.isOk, Except.toBool]
    · have hlast : (∀ stored,
          (recorded host j y (rs ++ [r])).1 = (recorded host j y rs).1 ++ [.ok stored] →
            ∀ r' ∈ (recorded host j y rs).2, r'.id < stored.id) ↔
          topId (recorded host j y rs).2 + 1 < wordBound := by
        rw [← forall_lt_nextId_iff (topId_lt (id_lt_of_recorded host hwords y rs))]
        simp [hrun]
      have hkept : (recorded host j y (rs ++ [r])).1.countP (·.isOk) =
          (recorded host j y rs).1.countP (·.isOk) + 1 := by
        simp [hrun, Except.isOk, Except.toBool]
      rw [hlast, hkept]
      constructor
      · rintro ⟨hroom, hnext⟩
        rwa [topId_recorded host j y rs hroom] at hnext
      · intro hroom
        have hroom' := Nat.lt_of_succ_lt hroom
        exact ⟨hroom', by rwa [topId_recorded host j y rs hroom']⟩

/-- For how long the ids ascend. Whatever file is opened, and whatever the host does with the
records that the journal is given then: every record that is kept gets an id above those of all
records before it exactly if there are as many words above the greatest id in the file as records
that are kept. -/
theorem ascending_recordAll_iff {file : String} {j : Journal} {x : σ}
    (hload : ((load file).transcript host x).result = .ok j) (y : σ) (rs : List Record) :
    Ascending host j y rs ↔
      topId j.records + (recorded host j y rs).1.countP (·.isOk) < wordBound :=
  ascending_iff host (id_lt_of_load host hload) y rs

end

/-- A cabinet with one history file. -/
def shelved (r : Record) : Cabinet where
  contents := fun name => if name = "h" then some (Record.lines [r]).toUTF8 else none
  now := ⟨0, 0⟩

private theorem load_shelved {r : Record} (hr : r.InWords) :
    ((load "h").transcript Cabinet.answer (shelved r)).result = .ok ⟨"h", [r], none⟩ := by
  rw [(Cabinet.keeps "h").result_journal]
  exact (opened_text "h" _).trans (ofText_lines "h" (List.forall_mem_singleton.2 hr))

/-- Above the id that is in the file there is room for the two records that are kept. -/
theorem ascending_recordAll_oneRun :
    let j : Journal := ⟨"h", [idleRun 7 "a"], none⟩
    let rs := [idleRun 0 "b", idleRun 9 "b", idleRun 3 "c"]
    ((load "h").transcript Cabinet.answer (shelved (idleRun 7 "a"))).result = .ok j ∧
      (recorded Cabinet.answer j (shelved (idleRun 7 "a")) rs).2.map (·.id) = [7, 8, 9] ∧
      Ascending Cabinet.answer j (shelved (idleRun 7 "a")) rs := by
  have hload := load_shelved (r := idleRun 7 "a") ⟨by decide, by decide⟩
  refine ⟨hload, by decide +kernel, (ascending_recordAll_iff Cabinet.answer hload _ _).2 ?_⟩
  decide +kernel

/-- There is no id above the greatest word, and the next record gets the least id of all. -/
theorem not_ascending_lastId :
    let last := idleRun (wordBound - 1) "a"
    ((load "h").transcript Cabinet.answer (shelved last)).result = .ok ⟨"h", [last], none⟩ ∧
      recorded Cabinet.answer ⟨"h", [last], none⟩ (shelved last) [idleRun 5 "b"] =
        ([.ok (idleRun 0 "b")], [last, idleRun 0 "b"]) ∧
      ¬ Ascending Cabinet.answer ⟨"h", [last], none⟩ (shelved last) [idleRun 5 "b"] := by
  intro last
  have hrun : recorded Cabinet.answer ⟨"h", [last], none⟩ (shelved last) [idleRun 5 "b"] =
      ([.ok (idleRun 0 "b")], [last, idleRun 0 "b"]) := by decide +kernel
  refine ⟨load_shelved ⟨by decide, by decide⟩, hrun, fun hascending => ?_⟩
  have hlt := hascending [] (idleRun 5 "b") (idleRun 0 "b") List.prefix_rfl
    (congrArg Prod.fst hrun) last List.mem_cons_self
  exact Nat.not_lt_zero _ hlt

end Journal

end Entitle
