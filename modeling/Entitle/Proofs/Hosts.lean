import Entitle.Proofs.Cuts
import Entitle.Proofs.Keeping
import Entitle.Proofs.Saving

/-!
# Hosts that keep files

A host may do many things at once, but it can be trusted with a file when everything succeeds that
is asked of the file and nothing else changes it. On such a host it is known what opening the two
kinds of files gives and what is in them after a commit and after an append.

## Main definitions

* `Host.Keeps`: the host can be trusted with a file.
* `Journal.kept`: what keeping a record comes to when nothing fails.
* `Cabinet.answer`: a host without troubles.

## Main statements

* `Host.Keeps.transcript_of_ends`: a program for which everything succeeds.
* `Host.Keeps.view_transcript`: a program that does not change the file.
* `Host.Keeps.result_load`, `Host.Keeps.transcript_save`: state files.
* `Host.Keeps.result_journal`, `Host.Keeps.transcript_append`: history files.
* `Cabinet.keeps`: there is a host that can be trusted with every file.
-/
namespace Entitle

open Dialogue

/-! ## Files of a host -/

/-- Can the request change the file? -/
def Host.Request.changes (file : String) : Host.Request → Bool
  | .write name _ | .openAppend name | .setLength name _ | .append name _ => name == file
  | .realName _ | .read _ | .makeDirectory _ | .length _ | .sync _ | .now => false

/-- What is asked about one file changes no other. -/
theorem Host.Request.About.changes_eq_false {file other : String} {q : Host.Request}
    (h : q.About other) (hne : other ≠ file) : q.changes file = false := by
  cases q with
  | write | openAppend | setLength | append =>
    obtain rfl := h
    exact beq_eq_false_iff_ne.2 hne
  | realName | read | makeDirectory | length | sync | now => rfl

/-- The host can be trusted with a file, which is seen in the state of the host as a content, or as
missing: what is asked of the file succeeds, and nothing else changes it. -/
structure Host.Keeps {σ : Type} (host : (q : Host.Request) → StateM σ (Host.Reply q))
    (file : String) (view : σ → Option ByteArray) : Prop where
  succeeds : ∀ {q : Host.Request} {x : σ} {reply : Host.Reply q} {c : Option ByteArray},
    Host.Succeeds file (view x) q reply c → (host q x).1 = reply ∧ view (host q x).2 = c
  written : ∀ (content : ByteArray) (x : σ), (host (.write file content) x).1 = .ok () ∧
    view (host (.write file content) x).2 = some content
  spares : ∀ {q : Host.Request} (x : σ), q.changes file = false → view (host q x).2 = view x

namespace Host.Keeps

variable {σ α : Type} {host : (q : Host.Request) → StateM σ (Host.Reply q)} {file : String}
  {view : σ → Option ByteArray} (hkeeps : Host.Keeps host file view)
include hkeeps

/-- A program that may end in a way in which everything succeeds does end so. -/
theorem transcript_of_ends {p : Hosted α} {a : α} {c c' : Option ByteArray}
    (h : Ends (Host.Succeeds file) c p a c') {x : σ} (hx : view x = c) :
    (p.transcript host x).result = a ∧ view (p.transcript host x).world = c' := by
  induction h generalizing x with
  | done c a => exact ⟨rfl, hx⟩
  | ask h _ ih =>
    obtain ⟨hreply, hafter⟩ := hkeeps.succeeds (hx ▸ h)
    obtain ⟨hresult, hview⟩ := ih hafter
    rw [← hreply] at hresult hview
    exact ⟨hresult, hview⟩

/-- A program that asks for no change of the file leaves it as it is. -/
theorem view_transcript {Q : α → Prop} {p : Hosted α} (hp : p.Meets (·.changes file = false) Q)
    (x : σ) : view (p.transcript host x).world = view x :=
  world_of_meets (I := (view · = view x)) host hp (fun _ hq y hy => (hkeeps.spares y hq).trans hy)
    rfl

/-- So does a program that is about another file. -/
theorem view_transcript_of_about {other : String} (hne : other ≠ file) {Q : α → Prop}
    {p : Hosted α} (hp : p.Meets (Host.Request.About other) Q) (x : σ) :
    view (p.transcript host x).world = view x :=
  hkeeps.view_transcript (hp.mono (fun _ h => h.changes_eq_false hne) fun _ h => h) x

end Host.Keeps

/-! ## State files -/

/-- A program that reads a file and goes on without requests asks for nothing else. -/
theorem Host.meets_load {α : Type} {P : Host.Request → Prop} {file : String} (h : P (.read file))
    {p : Hosted α} {f : Except FileError String → α}
    (hp : p = Host.readText file >>= fun read => pure (f read)) : p.Meets P fun _ => True := by
  rw [hp]
  refine meets_bind (meets_bind (meets_request.2 ⟨h, fun _ => trivial⟩) fun reply _ => ?_)
    fun _ (_ : True) => trivial
  cases reply <;> trivial

namespace Repository

theorem ends_load_ok (file : String) (c : Option ByteArray) :
    Ends (Host.Succeeds file) c (load file) (opened file c) c := by
  rw [load_eq, ends_bind_iff]
  exact ⟨_, _, Journal.ends_readText_ok file c, .done ..⟩

/-- Write the state to a file in a directory that is there. -/
def put (r : Repository) (file : String) : Hosted (Except Refusal Unit) := do
  match ← Host.ask (.write file r.state.text.toUTF8) with
  | .error e => pure (.error (cannotWrite file e))
  | .ok () => pure (.ok ())

private theorem save_of_not_directory {file : String} (h : FileName.directory? file = none)
    (r : Repository) : r.save file = r.put file := by
  rw [save, h]
  rfl

private theorem save_of_directory {file directory : String}
    (h : FileName.directory? file = some directory) (r : Repository) :
    r.save file = Host.ask (.makeDirectory directory) >>= fun made =>
      match made with
      | .error e => pure (.error (cannotWrite file e))
      | .ok () => r.put file := by
  rw [save, h]
  refine congrArg (Host.ask (.makeDirectory directory) >>= ·) (funext fun made => ?_)
  cases made <;> rfl

private theorem meets_put (r : Repository) (file : String) :
    (r.put file).Meets (Host.Request.About file) fun _ => True := by
  refine meets_bind (meets_request.2 ⟨rfl, fun _ => trivial⟩) fun reply _ => ?_
  cases reply <;> trivial

theorem meets_save (r : Repository) (file : String) :
    (r.save file).Meets (Host.Request.About file) fun _ => True := by
  cases h : FileName.directory? file with
  | none =>
    rw [save_of_not_directory h]
    exact r.meets_put file
  | some directory =>
    rw [save_of_directory h]
    refine meets_bind (meets_request.2 ⟨trivial, fun _ => trivial⟩) fun made _ => ?_
    cases made with
    | error e => trivial
    | ok _ => exact r.meets_put file

end Repository

/-! ## History files -/

namespace Journal

/-- A journal belongs to the file that it was opened from. -/
theorem file_of_opened {file : String} {c : Option ByteArray} {j : Journal}
    (h : opened file c = .ok j) : j.file = file := by
  rw [opened] at h
  cases hread : Host.textIn c with
  | ok text =>
    rw [hread, ofRead, ofText] at h
    split at h
    · cases h
    · rw [← Except.ok.inj h]
  | error e =>
    rw [hread, ofRead] at h
    split at h
    · rw [← Except.ok.inj h]
    · cases h

/-- What keeping a record comes to when nothing fails: the record comes after the others, unless it
is a duplicate. -/
def kept (j : Journal) (r : Record) : Except StoreError Record × Journal :=
  match History.duplicate? j.records r with
  | some e => (.error e, j)
  | none =>
    let stored := { r with id := nextId j.records }
    (.ok stored, ⟨j.file, j.records ++ [stored], none⟩)

end Journal

/-! ## Both kinds of files -/

namespace Host.Keeps

variable {σ : Type} {host : (q : Host.Request) → StateM σ (Host.Reply q)} {file : String}
  {view : σ → Option ByteArray} (hkeeps : Host.Keeps host file view)
include hkeeps

theorem result_load (x : σ) :
    ((Repository.load file).transcript host x).result = Repository.opened file (view x) :=
  (hkeeps.transcript_of_ends (Repository.ends_load_ok file (view x)) rfl).1

theorem result_journal (x : σ) :
    ((Journal.load file).transcript host x).result = Journal.opened file (view x) :=
  (hkeeps.transcript_of_ends (Journal.ends_load_ok file (view x)) rfl).1

theorem transcript_put (r : Repository) (x : σ) :
    ((r.put file).transcript host x).result = .ok () ∧
      view ((r.put file).transcript host x).world = some r.state.text.toUTF8 := by
  obtain ⟨hreply, hview⟩ := hkeeps.written r.state.text.toUTF8 x
  rw [Repository.put, Host.ask, transcript_request_bind, hreply]
  exact ⟨rfl, hview⟩

/-- Whatever was in the file, the state is in it after it was saved. -/
theorem transcript_save (r : Repository) (x : σ) :
    ((r.save file).transcript host x).result = .ok () ∧
      view ((r.save file).transcript host x).world = some r.state.text.toUTF8 := by
  cases h : FileName.directory? file with
  | none =>
    rw [Repository.save_of_not_directory h]
    exact hkeeps.transcript_put r x
  | some directory =>
    have hmade := (hkeeps.succeeds (.directory (view x) h)).1
    rw [Repository.save_of_directory h, Host.ask, transcript_request_bind, hmade]
    exact hkeeps.transcript_put r _

/-- A journal that is what is in the file keeps a record, and is what is in the file again. -/
theorem transcript_append {j : Journal} {x : σ} (hj : Journal.opened file (view x) = .ok j)
    {r : Record} (hr : r.summary.InWords) :
    ((j.append r).transcript host x).result = j.kept r ∧
      Journal.opened file (view ((j.append r).transcript host x).world) = .ok (j.kept r).2 := by
  obtain rfl := Journal.file_of_opened hj
  obtain ⟨text, hcontent, htext⟩ := Journal.Current.text hj
  cases hnew : History.duplicate? j.records r with
  | some e =>
    rw [Journal.append, Journal.kept, hnew]
    exact ⟨rfl, hj⟩
  | none =>
    obtain ⟨hresult, hview⟩ :=
      hkeeps.transcript_of_ends (Journal.ends_append_ok hcontent htext hnew) rfl
    rw [Journal.kept, hnew, hview, Journal.opened_text]
    exact ⟨hresult, Journal.ofText_append htext (Journal.inWords_stored hr _)⟩

end Host.Keeps

/-! ## A host without troubles -/

/-- The contents of files by their names, and a clock. -/
structure Cabinet where
  contents : String → Option ByteArray
  now : Instant

namespace Cabinet

/-- The cabinet with another content of a file. -/
def put (x : Cabinet) (name : String) (content : ByteArray) : Cabinet :=
  { x with contents := fun n => if n = name then some content else x.contents n }

theorem contents_put (x : Cabinet) (name file : String) (content : ByteArray) :
    (x.put name content).contents file = if file = name then some content else x.contents file :=
  rfl

/-- The bytes of a file, none if it is missing. -/
def bytes (x : Cabinet) (name : String) : ByteArray :=
  (x.contents name).getD .empty

/-- Nothing fails but reading a missing file, and the clock moves on each time it is looked at. -/
def answer : (q : Host.Request) → StateM Cabinet (Host.Reply q)
  | .realName name => fun x => (.ok name, x)
  | .read name => fun x => ((x.contents name).elim (.error .missing) .ok, x)
  | .makeDirectory _ => fun x => (.ok (), x)
  | .write name content => fun x => (.ok (), x.put name content)
  | .openAppend name => fun x => (.ok (), x.put name (x.bytes name))
  | .length name => fun x => (.ok (x.bytes name).size, x)
  | .setLength name n => fun x => (.ok (), x.put name ((x.bytes name).extract 0 n))
  | .append name more => fun x => (.ok (), x.put name (x.bytes name ++ more))
  | .sync _ => fun x => (.ok (), x)
  | .now => fun x => (x.now, { x with now := { x.now with seconds := x.now.seconds + 1 } })

/-- A cabinet can be trusted with every file. -/
theorem keeps (file : String) : Host.Keeps answer file (·.contents file) where
  succeeds := by
    intro q x reply c h
    generalize hview : x.contents file = before at h
    cases h with
    | read | missing | length | synced => simp [answer, bytes, hview]
    | directory => exact ⟨rfl, hview⟩
    | opened | cut | appended => simp [answer, contents_put, bytes, hview]
  written content x := by simp [answer, contents_put]
  spares := by
    intro q x h
    cases q with
    | write | openAppend | setLength | append =>
      simp only [answer, contents_put]
      exact if_neg fun hfile => beq_eq_false_iff_ne.1 h hfile.symm
    | realName | read | makeDirectory | length | sync | now => rfl

end Cabinet

end Entitle
