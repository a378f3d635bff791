import Entitle.History.Store

/-!
# Checks of stores

A list of checks that every store should pass. Each is a program that talks to a new, empty store
and says what it finds wrong, so a check can be run on any store.

## Main definitions

* `Conformance.Check`, `Conformance.checks`: the checks.
* `Conformance.Finding`, `Conformance.run`: the checks run on a store, with what each finds.
* `Conformance.report`: the findings as a text.
-/
namespace Entitle.Conformance

/-- A program that talks to a store and may find something wrong. -/
abbrev Probe := ExceptT String (Dialogue History.Request History.Reply)

/-- A check: its place, its name and its program. -/
structure Check where
  category : String
  name : String
  probe : Probe Unit

/-! ## Parts of checks -/

/-- A successful record with fixed circumstances. -/
def sample (identity checksum : String) (mode : Mode) : Record where
  id := 0
  identity := identity
  checksum := checksum
  mode := mode
  summary := ⟨.success, 1, 0, 0, 0, false⟩
  principal := "admin"
  rerun := false
  recordedAt := "2026-01-01T00:00:00Z"

/-- A request that should not fail. -/
def expect {α : Type} (q : History.Query α) : Probe α :=
  ExceptT.adapt StoreError.message q

/-- A request with its error, if it fails. -/
def attempt {α : Type} (q : History.Query α) : Probe (Except StoreError α) :=
  .mk do
    let reply ← q.run
    pure (.ok reply)

/-- Complain if something is wrong. -/
def complainIf (wrong : Bool) (complaint : String) : Probe Unit :=
  if wrong then throw complaint else pure ()

/-- A record that should be there. -/
def require (found : Option Record) (complaint : String) : Probe Record :=
  match found with
  | some r => pure r
  | none => throw complaint

/-! ## Appending -/

/-- Ids grow, whatever id a record comes with. -/
def idsIncrease : Probe Unit := do
  let first ← expect (History.record { sample "a" "c1" .apply with id := 99 })
  let second ← expect (History.record (sample "b" "c1" .apply))
  complainIf (second.id ≤ first.id) s!"ids not increasing: {first.id} then {second.id}"

/-- A second record with the same key is refused, with the key in the error. -/
def duplicateRejected : Probe Unit := do
  let _ ← expect (History.record (sample "a" "c1" .apply))
  match ← attempt (History.record (sample "a" "c1" .apply)) with
  | .ok _ => throw "duplicate record was accepted"
  | .error (.duplicate identity checksum mode) =>
    complainIf (identity != "a" || checksum != "c1" || mode != .apply)
      s!"duplicate error has wrong fields: {identity}/{checksum}/{mode.describe}"
  | .error other => throw s!"expected Duplicate, got {other.message}"

/-- A second record with the same key is kept if it is marked as a rerun. -/
def rerunAccepted : Probe Unit := do
  let _ ← expect (History.record (sample "a" "c1" .apply))
  let _ ← expect (History.record { sample "a" "c1" .apply with rerun := true })
  let listed ← expect (History.list "a" 10)
  complainIf (listed.length != 2 || !(listed.head?.any (·.rerun)))
    s!"expected rerun record first, got {Record.dumpAll listed}"

/-- Records of the two modes have different keys. -/
def modesIndependent : Probe Unit := do
  let _ ← expect (History.record (sample "a" "c1" .dryRun))
  match ← attempt (History.record (sample "a" "c1" .apply)) with
  | .ok _ => pure ()
  | .error e => throw s!"apply after dry-run rejected: {e.message}"

/-- A refused record is not kept. -/
def rejectedNotStored : Probe Unit := do
  let _ ← expect (History.record (sample "a" "c1" .apply))
  let _ ← attempt (History.record (sample "a" "c1" .apply))
  let listed ← expect (History.list "a" 10)
  complainIf (listed.length != 1) s!"expected 1 record, found {listed.length}"

/-! ## Queries -/

/-- Nothing is found in an empty store. -/
def emptyStore : Probe Unit := do
  let found ← expect (History.lookup "a" "c1")
  complainIf found.isSome "empty store returned a record"
  let last ← expect (History.lastRun "a")
  complainIf last.isSome "empty store returned a last run"

/-- A forecast is no application. -/
def dryRunsIgnored : Probe Unit := do
  let _ ← expect (History.record (sample "a" "c1" .dryRun))
  let found ← expect (History.lookup "a" "c1")
  complainIf found.isSome "lookup returned a dry-run record"
  let dry ← expect (History.latest "a" "c1" .dryRun)
  complainIf dry.isNone "latest(DryRun) missed the dry-run record"

/-- The newest application of a version is found. -/
def latestApply : Probe Unit := do
  let r := sample "a" "c1" .apply
  let _ ← expect (History.record { r with summary := { r.summary with status := .failed } })
  let stored ← expect (History.record { r with rerun := true })
  let _ ← expect (History.record (sample "a" "c2" .apply))
  let found ← require (← expect (History.lookup "a" "c1")) "lookup found nothing"
  complainIf (found.id != stored.id || found.summary.status != .success)
    s!"expected record {stored.id}, got {found.dump}"

/-- The newest records come first, and no more than asked for. -/
def newestFirst : Probe Unit := do
  let _ ← expect (History.record (sample "a" "c1" .apply))
  let _ ← expect (History.record (sample "a" "c2" .apply))
  let _ ← expect (History.record (sample "a" "c3" .apply))
  let listed ← expect (History.list "a" 2)
  let checksums := listed.map (·.checksum)
  let shown := ", ".intercalate (checksums.map Text.quoted)
  complainIf (checksums != ["c3", "c2"]) s!"expected [c3, c2], got [{shown}]"

/-- Records of other scripts are not listed. -/
def scopedToIdentity : Probe Unit := do
  let _ ← expect (History.record (sample "a" "c1" .apply))
  let _ ← expect (History.record (sample "b" "c1" .apply))
  let listed ← expect (History.list "a" 10)
  complainIf (listed.length != 1 || !(listed.head?.any (·.identity == "a")))
    s!"expected only 'a' records, got {Record.dumpAll listed}"

/-- The last run may be of any mode and version. -/
def lastRunOfAny : Probe Unit := do
  let _ ← expect (History.record (sample "a" "c1" .apply))
  let _ ← expect (History.record (sample "a" "c2" .dryRun))
  let last ← require (← expect (History.lastRun "a")) "last_run found nothing"
  complainIf (last.checksum != "c2" || last.mode != .dryRun)
    s!"expected c2 dry-run, got {last.dump}"

/-! ## All checks -/

/-- The checks in the order in which they are run. -/
def checks : List Check := [
  ⟨"append", "record_assigns_increasing_ids", idsIncrease⟩,
  ⟨"append", "duplicate_key_is_rejected", duplicateRejected⟩,
  ⟨"append", "rerun_record_is_accepted", rerunAccepted⟩,
  ⟨"append", "modes_are_independent_keys", modesIndependent⟩,
  ⟨"append", "rejected_record_is_not_stored", rejectedNotStored⟩,
  ⟨"query", "lookup_on_empty_store_is_none", emptyStore⟩,
  ⟨"query", "lookup_ignores_dry_runs", dryRunsIgnored⟩,
  ⟨"query", "lookup_returns_latest_apply", latestApply⟩,
  ⟨"query", "list_is_newest_first_and_limited", newestFirst⟩,
  ⟨"query", "list_is_scoped_to_identity", scopedToIdentity⟩,
  ⟨"query", "last_run_spans_modes_and_checksums", lastRunOfAny⟩]

/-- A check and its complaint, if it has one. -/
structure Finding where
  category : String
  name : String
  complaint : Option String
  deriving DecidableEq, Repr

/-- Is the check passed? -/
def Finding.passed (f : Finding) : Bool :=
  f.complaint.isNone

/-- Run checks; `onNewStore` runs a program on a new, empty store. -/
def run {m : Type → Type} [Monad m]
    (onNewStore : Dialogue History.Request History.Reply (Except String Unit) →
      m (Except String Unit)) : List Check → m (List Finding)
  | [] => pure []
  | c :: rest => do
    let complaint := match ← onNewStore c.probe.run with
      | .ok () => none
      | .error text => some text
    let more ← run onNewStore rest
    pure (⟨c.category, c.name, complaint⟩ :: more)

/-- The line of a check that is not passed. -/
def Finding.line? (f : Finding) : Option String :=
  f.complaint.map fun text => s!"  FAIL [{f.category}/{f.name}]: {text}\n"

/-- The number of passed checks and the complaints. -/
def report (findings : List Finding) : String :=
  let passed := findings.countP (·.passed)
  let failed := findings.length - passed
  s!"Conformance: {passed}/{findings.length} passed ({failed} failed)\n" ++
    String.join (findings.filterMap (·.line?))

end Entitle.Conformance
