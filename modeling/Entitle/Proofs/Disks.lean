import Entitle.Host.Disk
import Entitle.Proofs.Cuts

/-!
# Files on a disk

The disk in memory is one of the hosts that the theorems about files speak of. A file that a name
leads to, or could be created under it, in directories that are there, is kept on the disk as
everything that is asked about it succeeds: it has the content that it should have, and the name
goes on leading to it.

## Main definitions

* `Disk.Extends`: one disk has all the entries of another one, with other contents at most.
* `Disk.Keeps`: the name leads to a file with a content, or to a vacant place.

## Main statements

* `Disk.Extends.walk_entry`: a name that leads to an entry goes on leading to it.
* `Disk.Keeps.answer`: a request about the file is replied as `Host.Succeeds` says.
* `Disk.Keeps.run_of_ends`: a program for which everything may succeed ends so on the disk.
* `Disk.Keeps.run_append`: a record that is kept on a disk is found there again.
-/
namespace Entitle

open Dialogue

namespace Disk

/-! ## Ways to an entry -/

/-- The other disk has all the entries of the disk, but its files may have other contents. -/
structure Extends (d d' : Disk) : Prop where
  current : d'.current = d.current
  kept : ∀ {key : String} {e : DiskEntry}, d.entries.get? key = some e →
    (∀ content, e ≠ .file content) → d'.entries.get? key = some e
  file : ∀ {key : String} {content : ByteArray}, d.entries.get? key = some (.file content) →
    ∃ content', d'.entries.get? key = some (.file content')

section

variable {d d' : Disk} {follow : Bool} {links : Nat} {key k directory name : String}
  {segments : List String} {e : DiskEntry} {content : ByteArray}

private theorem get?_set (d : Disk) (k key : String) (e : DiskEntry) :
    (d.set k e).entries.get? key = if key = k then some e else d.entries.get? key :=
  d.entries.get?_insert k key e

/-- A file may be changed, and put where nothing is. -/
theorem extends_set (h : ∀ e, d.entries.get? k = some e → ∃ content, e = .file content) :
    d.Extends (d.set k (.file content)) where
  current := rfl
  kept {key e} hkey hfile := by
    rw [get?_set, if_neg]
    · exact hkey
    · rintro rfl
      obtain ⟨content', rfl⟩ := h e hkey
      exact hfile content' rfl
  file {key content'} hkey := by
    rw [get?_set]
    split
    · exact ⟨content, rfl⟩
    · exact ⟨content', hkey⟩

/-- The way to an entry is also a way on a disk with more entries, and there is one at its end. -/
theorem Extends.walk_entry (hd : d.Extends d')
    (h : d.walk follow links key segments = .ok (.entry k e)) :
    ∃ e', d'.entries.get? k = some e' ∧
      d'.walk follow links key segments = .ok (.entry k e') := by
  have hkept := fun key e => @hd.kept key e
  have hfile := fun key content => @hd.file key content
  fun_induction walk d follow links key segments
  case case2 =>
    cases h
    cases e <;> grind [walk]
  all_goals grind [walk]

/-- There is nothing in a vacant place. -/
theorem get?_of_walk_vacant {slash : Bool}
    (h : d.walk follow links key segments = .ok (.vacant directory name slash)) :
    d.entries.get? (child directory name) = none := by
  fun_induction walk d follow links key segments
  all_goals grind

/-- The way to a vacant place is the way to what is put there. -/
theorem Extends.walk_vacant (hd : d.Extends d')
    (h : d.walk follow links key segments = .ok (.vacant directory name false))
    (hput : d'.entries.get? (child directory name) = some (.file content)) :
    d'.walk follow links key segments = .ok (.entry (child directory name) (.file content)) := by
  have hkept := fun key e => @hd.kept key e
  have hfile := fun key content => @hd.file key content
  fun_induction walk d follow links key segments
  all_goals grind [walk]

/-- A name that leads to an entry goes on leading to it. -/
theorem Extends.find_entry (hd : d.Extends d') (h : d.find name follow = .ok (.entry k e)) :
    ∃ e', d'.entries.get? k = some e' ∧ d'.find name follow = .ok (.entry k e') := by
  have hwalk : ∀ {links key segments}, d.walk follow links key segments = .ok (.entry k e) →
      ∃ e', d'.entries.get? k = some e' ∧
        d'.walk follow links key segments = .ok (.entry k e') := hd.walk_entry
  have hcurrent := hd.current
  grind [find, trace]

/-- A name that leads to a vacant place leads to what is put there. -/
theorem Extends.find_vacant {file : String} (hd : d.Extends d')
    (h : d.find file follow = .ok (.vacant directory name false))
    (hput : d'.entries.get? (child directory name) = some (.file content)) :
    d'.find file follow = .ok (.entry (child directory name) (.file content)) := by
  have hwalk : ∀ {links key segments},
      d.walk follow links key segments = .ok (.vacant directory name false) →
      d'.walk follow links key segments = .ok (.entry (child directory name) (.file content)) :=
    fun h => hd.walk_vacant h hput
  have hcurrent := hd.current
  grind [find, trace]

theorem get?_of_find (h : d.find name follow = .ok (.entry k e)) : d.entries.get? k = some e := by
  have hrefl : d.Extends d := ⟨rfl, fun h _ => h, fun h => ⟨_, h⟩⟩
  obtain ⟨e', hget, hfind⟩ := hrefl.find_entry h
  rw [h] at hfind
  cases hfind
  exact hget

private theorem get?_of_find_vacant {file : String} {slash : Bool}
    (h : d.find file follow = .ok (.vacant directory name slash)) :
    d.entries.get? (child directory name) = none := by
  have hwalk : ∀ {links key segments},
      d.walk follow links key segments = .ok (.vacant directory name slash) →
      d.entries.get? (child directory name) = none := get?_of_walk_vacant
  grind [find, trace]

end

/-! ## Files that are kept -/

/-- The name leads to a directory. -/
def Stands (d : Disk) (name : String) : Prop :=
  (∃ key e, d.find name false = .ok (.entry key e)) ∧
    ((∃ key, d.find name true = .ok (.entry key .directory)) ∨
      ∃ key, d.find name true = .ok (.entry key .sealedDirectory))

/-- The name leads to a file with the content, or it is missing and can be created there. -/
def Holds (d : Disk) (file : String) : Option ByteArray → Prop
  | some content => ∃ key, d.find file true = .ok (.entry key (.file content))
  | none => ∃ directory name,
    d.find file true = .ok (.vacant directory name false) ∧ d.isOpen directory = true

/-- The disk keeps a file, and the directory that its name puts it in is there. -/
structure Keeps (d : Disk) (file : String) (c : Option ByteArray) : Prop where
  holds : d.Holds file c
  stands : ∀ folder, FileName.directory? file = some folder →
    ∀ name ∈ (FileName.outward folder).head?, d.Stands name

variable {d d' : Disk} {file name : String} {c c' : Option ByteArray}

/-- Directories are still there when there are more entries. -/
theorem Extends.stands (hd : d.Extends d') (h : d.Stands name) : d'.Stands name := by
  obtain ⟨⟨key, e, hentry⟩, hdirectory⟩ := h
  obtain ⟨e', -, hentry'⟩ := hd.find_entry hentry
  refine ⟨⟨key, e', hentry'⟩, ?_⟩
  have hsame : ∀ key e, d.find name true = .ok (.entry key e) → (∀ content, e ≠ .file content) →
      d'.find name true = .ok (.entry key e) := by
    intro key e hfind hfile
    obtain ⟨e', hget, hfind'⟩ := hd.find_entry hfind
    rw [hd.kept (get?_of_find hfind) hfile] at hget
    cases hget
    exact hfind'
  rcases hdirectory with ⟨key, hfind⟩ | ⟨key, hfind⟩
  · exact .inl ⟨key, hsame key _ hfind nofun⟩
  · exact .inr ⟨key, hsame key _ hfind nofun⟩

/-- A directory that is there need not be created. -/
theorem makeDirectory_of_stands (h : ∀ n ∈ (FileName.outward name).head?, d.Stands n) :
    d.makeDirectory name = (.ok (), d) := by
  rw [makeDirectory]
  cases houtward : FileName.outward name with
  | nil => rfl
  | cons n outer =>
    obtain ⟨⟨key, e, hentry⟩, hdirectory⟩ := h n (by simp [houtward])
    have hcreate : d.find n false >>= d.create = .error alreadyExists := by
      rw [hentry]
      rfl
    have hthere : ∃ key, d.directoryAt n alreadyExists = .ok key := by
      rcases hdirectory with ⟨key, hfind⟩ | ⟨key, hfind⟩ <;>
        exact ⟨key, by rw [directoryAt, entryAt, hfind]; rfl⟩
    obtain ⟨key, hkey⟩ := hthere
    have hmissing : alreadyExists.isMissing = false := rfl
    simp only [makeDirectories, hcreate, hmissing, Bool.false_eq_true, if_false, hkey]
    rfl

namespace Keeps

/-- A file that is there is kept with another content. -/
theorem set_entry {key : String} {content : ByteArray} (h : d.Keeps file c)
    (hfind : d.find file true = .ok (.entry key (.file content))) (content' : ByteArray) :
    (d.set key (.file content')).Keeps file (some content') := by
  have hextends : d.Extends (d.set key (.file content')) := by
    refine extends_set fun e he => ⟨content, ?_⟩
    rw [get?_of_find hfind] at he
    exact (Option.some.inj he).symm
  obtain ⟨e, hget, hfind'⟩ := hextends.find_entry hfind
  rw [get?_set, if_pos rfl, Option.some.injEq] at hget
  subst hget
  exact ⟨⟨key, hfind'⟩, fun folder hfolder name hname =>
    hextends.stands (h.stands folder hfolder name hname)⟩

/-- A file that was missing is kept once it is created. -/
theorem set_vacant {directory name : String} (h : d.Keeps file c)
    (hfind : d.find file true = .ok (.vacant directory name false)) (content : ByteArray) :
    (d.set (child directory name) (.file content)).Keeps file (some content) := by
  have hextends : d.Extends (d.set (child directory name) (.file content)) := by
    refine extends_set fun e he => ?_
    rw [get?_of_find_vacant hfind] at he
    cases he
  have hput : (d.set (child directory name) (.file content)).entries.get? (child directory name) =
      some (.file content) := by
    rw [get?_set, if_pos rfl]
  exact ⟨⟨_, hextends.find_vacant hfind hput⟩, fun folder hfolder name hname =>
    hextends.stands (h.stands folder hfolder name hname)⟩

/-- What is written is what is there then. -/
theorem writeAt (h : d.Keeps file c) (change : ByteArray → ByteArray) :
    ∃ d', d.writeAt file change = .ok d' ∧ d'.Keeps file (some (change (c.getD .empty))) := by
  cases c with
  | some content =>
    obtain ⟨key, hfind⟩ := h.holds
    exact ⟨_, by rw [Disk.writeAt, hfind]; rfl, h.set_entry hfind _⟩
  | none =>
    obtain ⟨directory, name, hfind, hopen⟩ := h.holds
    refine ⟨_, ?_, h.set_vacant hfind _⟩
    rw [Disk.writeAt, hfind]
    exact if_pos hopen

/-- A request about the file is replied as if everything succeeded, and the file is kept. -/
theorem answer {q : Host.Request} {reply : Host.Reply q} (h : d.Keeps file c)
    (hq : Host.Succeeds file c q reply c') :
    ∃ d', (Disk.answer q).run d = (reply, d') ∧ d'.Keeps file c' := by
  cases hq with
  | missing =>
    obtain ⟨directory, name, hfind, -⟩ := h.holds
    refine ⟨d, congrArg (·, d) ?_, h⟩
    rw [contentAt, entryAt, hfind]
    rfl
  | directory _ hfolder => exact ⟨d, makeDirectory_of_stands (h.stands _ hfolder), h⟩
  | opened _ =>
    obtain ⟨d', hwrite, hkeeps⟩ := h.writeAt id
    exact ⟨d', congrArg d.changed hwrite, hkeeps⟩
  | appended content more =>
    obtain ⟨d', hwrite, hkeeps⟩ := h.writeAt (· ++ more)
    exact ⟨d', congrArg d.changed hwrite, hkeeps⟩
  | read content =>
    obtain ⟨key, hfind⟩ := h.holds
    refine ⟨d, congrArg (·, d) ?_, h⟩
    rw [contentAt, entryAt, hfind]
    rfl
  | length content =>
    obtain ⟨key, hfind⟩ := h.holds
    refine ⟨d, congrArg (·, d) ?_, h⟩
    rw [contentAt, entryAt, hfind]
    rfl
  | cut content n hn =>
    obtain ⟨key, hfind⟩ := h.holds
    have hresized : resized n content = content.extract 0 n := by
      rw [resized, Nat.sub_eq_zero_of_le hn]
      exact ByteArray.append_empty
    have hresize : d.resizeAt file n = .ok (d.set key (.file (resized n content))) := by
      rw [resizeAt, entryAt, hfind]
      rfl
    exact ⟨_, congrArg d.changed hresize, hresized ▸ h.set_entry hfind _⟩
  | synced content =>
    obtain ⟨key, hfind⟩ := h.holds
    refine ⟨d, congrArg (·, d) ?_, h⟩
    rw [syncAt, entryAt, hfind]
    rfl

/-- A program that may end in a way in which everything succeeds does end so on the disk. -/
theorem run_of_ends {α : Type} {p : Hosted α} {a : α} (h : d.Keeps file c)
    (hp : Ends (Host.Succeeds file) c p a c') : ∃ d', run p d = (a, d') ∧ d'.Keeps file c' := by
  induction hp generalizing d with
  | done c a => exact ⟨d, rfl, h⟩
  | ask hq _ ih =>
    obtain ⟨d', hanswer, hd'⟩ := h.answer hq
    obtain ⟨d'', hrun, hd''⟩ := ih hd'
    refine ⟨d'', ?_, hd''⟩
    rw [run, interpret_ask, StateT.run_bind, hanswer]
    exact hrun

/-- A new record is kept on the disk and found there when the file is opened again. -/
theorem run_append {j : Journal} {r : Record} (h : d.Keeps j.file c)
    (hj : Journal.opened j.file c = .ok j) (hr : r.summary.InWords)
    (hnew : History.duplicate? j.records r = none) :
    let stored := { r with id := Journal.nextId j.records }
    let j' : Journal := ⟨j.file, j.records ++ [stored], none⟩
    ∃ d', run (j.append r) d = ((.ok stored, j'), d') ∧
      (run (Journal.load j.file) d').1 = .ok j' := by
  intro stored j'
  obtain ⟨text, hcontent, htext⟩ := Journal.Current.text hj
  obtain ⟨d', happend, hd'⟩ := h.run_of_ends (Journal.ends_append_ok hcontent htext hnew)
  obtain ⟨d'', hload, -⟩ := hd'.run_of_ends (Journal.ends_load_ok j.file _)
  refine ⟨d', happend, (congrArg Prod.fst hload).trans ?_⟩
  refine (Journal.opened_text _ _).trans ?_
  exact Journal.ofText_append htext (Journal.inWords_stored hr _)

end Keeps

example : (empty "/work").Keeps "h" none where
  holds := ⟨"/work", "h", by cbv, by cbv⟩
  stands folder h := by
    have hnone : FileName.directory? "h" = none := by decide +kernel
    rw [hnone] at h
    cases h

end Disk

end Entitle
