import Entitle.Proofs.Caching

/-!
# Libraries

A library is a shelf that is read through a cache. Its texts may be replaced between the look-ups,
and the cache goes on being used. Nobody can tell: every reply is the one that a new cache would
give on the texts that are there. A script that is refused is not in the cache, so it is looked at
anew each time, and goes through as soon as its text is mended.

A cached script answers as checking anew would, and what is checked is as good as what is cached. So
two caches that are faithful to one shelf lead every computation to the same result, and edits are
all that has to be looked at: a faithful cache is faithful still when a text is replaced, as long as
the two texts do not have the same digest.

## Main definitions

* `Expanding.Blind`: a computation whose result does not depend on the cache.
* `Library`, `Library.Operation`: a library, and what can be asked of it.
* `Library.replies`: the replies of a library to several operations, one after the other.
* `Shelf.freshReplies`: the same, each time through a new cache.

## Main statements

* `Expansion.blind_ofScript`: an expansion does not depend on which faithful cache it goes through.
* `Library.Within.after`: the cache of a library comes from the shelves that it had.
* `Library.replies_eq_freshReplies`: the cache of a library is transparent.
-/
namespace Entitle

/-! ## Computations that do not notice the cache -/

namespace Expanding

variable {α β : Type}

/-- The result of the computation is the same with all caches that have a property. -/
def Blind (I : Cache → Prop) (m : Expanding α) : Prop :=
  ∀ p c c', I c → I c' → (m.on p c).1 = (m.on p c').1

section

variable {I : Cache → Prop}

theorem blind_pure (a : α) : (pure a : Expanding α).Blind I := fun _ _ _ _ _ => rfl

theorem blind_modify (f : Progress → Progress) : (modify f : Expanding Unit).Blind I :=
  fun _ _ _ _ _ => rfl

theorem blind_get : (get : Expanding Progress).Blind I := fun _ _ _ _ _ => rfl

theorem blind_throw (e : ResolutionError) : (throw e : Expanding α).Blind I :=
  fun _ _ _ _ _ => rfl

/-- The second part begins with caches that have the property because the first part keeps it. -/
theorem blind_bind {m : Expanding α} {f : α → Expanding β} (hm : m.Blind I) (hkeeps : m.Keeps I)
    (hf : ∀ a, (f a).Blind I) : (m >>= f).Blind I := by
  intro p c c' hc hc'
  have hfirst := hm p c c' hc hc'
  have hkept := hkeeps p c hc
  have hkept' := hkeeps p c' hc'
  rw [on_bind, on_bind]
  generalize m.on p c = first at hfirst hkept ⊢
  generalize m.on p c' = first' at hfirst hkept' ⊢
  obtain ⟨r, d⟩ := first
  obtain ⟨r', d'⟩ := first'
  obtain rfl : r = r' := hfirst
  cases r with
  | error e => rfl
  | ok r => exact hf r.1 r.2 d d' hkept hkept'

end

end Expanding

/-! ## Faithful caches -/

namespace Cache.Faithful

variable {load : Loader} {c c' : Cache}

/-- What an inclusion is given is the same with every faithful cache. -/
theorem include?_eq (hc : c.Faithful load) (hc' : c'.Faithful load) (i : String) :
    (c.include? load i).1 = (c'.include? load i).1 := by
  rw [Cache.include?, Cache.include?]
  split
  · rfl
  · rfl
  · next script hscript =>
    have hcheck : (c.check script).1 = (c'.check script).1 :=
      (hc.check_eq hscript).trans (hc'.check_eq hscript).symm
    generalize c.check script = checked at hcheck ⊢
    generalize c'.check script = checked' at hcheck ⊢
    obtain ⟨r, d⟩ := checked
    obtain ⟨r', d'⟩ := checked'
    obtain rfl : r = r' := hcheck
    rcases r with (_ | _) | _ <;> rfl

end Cache.Faithful

namespace Expansion

open Expanding

section

variable {I : Cache → Prop} {enter : Origin → String → Expanding (List Located)}

mutual

theorem blind_ofStatement (hkeeps : ∀ o target, (enter o target).Keeps I)
    (henter : ∀ o target, (enter o target).Blind I) (s : Statement) :
    (ofStatement enter s).Blind I :=
  match s with
  | .directive o d => blind_pure _
  | .inclusion o target => henter o target
  | .define o flag value => blind_bind (blind_modify _) (keeps_modify _) fun _ => blind_pure _
  | .cond o flag negated thenBranch elseBranch => by
    rw [ofStatement]
    refine blind_bind blind_get keeps_get fun p => ?_
    split
    · exact blind_throw _
    · split
      · exact blind_ofStatements hkeeps henter thenBranch
      · exact blind_ofStatements hkeeps henter elseBranch

theorem blind_ofStatements (hkeeps : ∀ o target, (enter o target).Keeps I)
    (henter : ∀ o target, (enter o target).Blind I) (ss : List Statement) :
    (ofStatements enter ss).Blind I :=
  match ss with
  | [] => blind_pure _
  | s :: rest => by
    rw [ofStatements]
    exact blind_bind (blind_ofStatement hkeeps henter s) (keeps_ofStatement hkeeps s) fun _ =>
      blind_bind (blind_ofStatements hkeeps henter rest) (keeps_ofStatements hkeeps rest) fun _ =>
        blind_pure _

end

end

variable {load : Loader}

theorem blind_require (o : Origin) (target : String) :
    (require load o target).Blind (Cache.Faithful load) := by
  intro p c c' hc hc'
  have hinclude := hc.include?_eq hc' target
  rw [on_require, on_require]
  generalize c.include? load target = included at hinclude ⊢
  generalize c'.include? load target = included' at hinclude ⊢
  obtain ⟨r, d⟩ := included
  obtain ⟨r', d'⟩ := included'
  obtain rfl : r = r' := hinclude
  cases r <;> rfl

/-- An expansion does not depend on which faithful cache it goes through, whether it succeeds or
not. -/
theorem blind_ofScript (hl : load.Settled) (limit room : Nat) (stack : List String)
    (script : Checked) : (ofScript load limit room stack script).Blind (Cache.Faithful load) := by
  have hI := Cache.stable_faithful hl.keyed
  induction room generalizing stack script with
  | zero =>
    rw [ofScript]
    split <;> exact blind_throw _
  | succ room ih =>
    rw [ofScript]
    split
    · exact blind_throw _
    · refine blind_bind (blind_modify _) (keeps_modify _) fun _ =>
        blind_ofStatements (fun o target => ?_) (fun o target => ?_) _
      · exact keeps_bind (keeps_require hI o target) fun _ => keeps_ofScript hI _ _ _ _
      · exact blind_bind (blind_require o target) (keeps_require hI o target) fun _ => ih _ _

private theorem ofChecked_eq_of_faithful (hl : load.Settled) {c c' : Cache} (hc : c.Faithful load)
    (hc' : c'.Faithful load) (limit : Nat) (root : Checked) :
    (ofChecked load limit root c).1 = (ofChecked load limit root c').1 := by
  rw [ofChecked_eq, ofChecked_eq, blind_ofScript hl limit (limit + 1) [] root .start c c' hc hc']

end Expansion

/-- A compilation does not depend on which faithful cache it goes through. -/
theorem compileScript_eq_of_faithful {load : Loader} (hl : load.Settled) {c c' : Cache}
    (hc : c.Faithful load) (hc' : c'.Faithful load) (limit : Nat) (i : String) :
    (compileScript load limit i c).1 = (compileScript load limit i c').1 := by
  rw [compileScript, compileScript]
  cases hscript : load i with
  | error e => rfl
  | ok script =>
    have hcheck : (c.check script).1 = (c'.check script).1 :=
      (hc.check_eq hscript).trans (hc'.check_eq hscript).symm
    have hafter := hc.check hl.keyed hscript
    have hafter' := hc'.check hl.keyed hscript
    simp only [compileLoaded]
    generalize c.check script = checked at hcheck hafter ⊢
    generalize c'.check script = checked' at hcheck hafter' ⊢
    obtain ⟨r, d⟩ := checked
    obtain ⟨r', d'⟩ := checked'
    obtain rfl : r = r' := hcheck
    cases r with
    | error e => cases e <;> rfl
    | ok root =>
      have hexpansion := Expansion.ofChecked_eq_of_faithful hl hafter hafter' limit root
      simp only
      generalize Expansion.ofChecked load limit root d = expanded at hexpansion ⊢
      generalize Expansion.ofChecked load limit root d' = expanded' at hexpansion ⊢
      obtain ⟨r, e⟩ := expanded
      obtain ⟨r', e'⟩ := expanded'
      obtain rfl : r = r' := hexpansion
      cases r <;> rfl

/-! ## Libraries -/

/-- A shelf that is read through a cache. -/
structure Library where
  shelf : Shelf
  cache : Cache

namespace Library

/-- What can be asked of a library. -/
inductive Operation where
  /-- Put a text on the shelf, in the place of the one that was there. -/
  | put (identifier text : String)
  /-- The checked script that an inclusion asks for. -/
  | fetch (identifier : String)
  /-- The plan of a script. -/
  | compile (limit : Nat) (identifier : String)

/-- What a library replies. -/
inductive Reply where
  | stored
  | fetched (result : Except IncludeFailure Checked)
  | compiled (result : Except CompileError Plan)

/-- The text that is put on the shelf, as it is digested. -/
def Operation.normalForms : Operation → List (List UInt8)
  | put _ text => [(Text.normalForm text).toUTF8.toList]
  | fetch _ | compile _ _ => []

/-- The reply to an operation, and the library after it. -/
def perform (l : Library) : Operation → Reply × Library
  | .put identifier text => (.stored, { l with shelf := l.shelf.put identifier text })
  | .fetch identifier =>
    let (result, cache) := l.cache.include? l.shelf.load identifier
    (.fetched result, { l with cache })
  | .compile limit identifier =>
    let (result, cache) := compileScript l.shelf.load limit identifier l.cache
    (.compiled result, { l with cache })

/-- The library after several operations. -/
def after (l : Library) (ops : List Operation) : Library :=
  ops.foldl (fun l op => (l.perform op).2) l

/-- The replies to several operations, one after the other. -/
def replies (l : Library) : List Operation → List Reply
  | [] => []
  | op :: rest => (l.perform op).1 :: replies (l.perform op).2 rest

end Library

/-- The replies to several operations, each through a new cache. -/
def Shelf.freshReplies (s : Shelf) : List Library.Operation → List Library.Reply
  | [] => []
  | op :: rest =>
    let (reply, l) := (Library.mk s .empty).perform op
    reply :: l.shelf.freshReplies rest

/-- A text on a shelf after an edit was there before, or is the one that was put. -/
theorem Shelf.normalForms_put (s : Shelf) (identifier text : String) :
    (s.put identifier text).normalForms ⊆
      s.normalForms ++ [(Text.normalForm text).toUTF8.toList] := by
  intro message h
  obtain ⟨entry, hentry, rfl⟩ := List.mem_map.1 h
  obtain rfl | hentry := Table.mem_insertEntry hentry
  · exact List.mem_append_right _ (List.mem_singleton_self _)
  · exact List.mem_append_left _ (List.mem_map_of_mem hentry)

namespace Library

variable {l : Library} {shelves : List Shelf}

/-- The shelf of an operation does not depend on the cache. -/
theorem shelf_perform (s : Shelf) (c c' : Cache) (op : Operation) :
    ((Library.mk s c).perform op).2.shelf = ((Library.mk s c').perform op).2.shelf := by
  cases op <;> rfl

/-- With two faithful caches a library replies the same. -/
theorem reply_eq_of_faithful {s : Shelf} {c c' : Cache} (hc : c.Faithful s.load)
    (hc' : c'.Faithful s.load) (op : Operation) :
    ((Library.mk s c).perform op).1 = ((Library.mk s c').perform op).1 := by
  cases op with
  | put identifier text => rfl
  | fetch identifier => exact congrArg Reply.fetched (hc.include?_eq hc' identifier)
  | compile limit identifier =>
    exact congrArg Reply.compiled
      (compileScript_eq_of_faithful s.settled_load hc hc' limit identifier)

/-- The texts of all shelves that a library had are among the messages. -/
structure Within (messages : List (List UInt8)) (shelves : List Shelf) (l : Library) : Prop where
  shelf : l.shelf ∈ shelves
  cache : l.cache.From shelves
  texts : shelves.flatMap Shelf.normalForms ⊆ messages

namespace Within

variable {messages : List (List UInt8)}

theorem start {s : Shelf} (h : s.normalForms ⊆ messages) :
    (Library.mk s .empty).Within messages [s] where
  shelf := List.mem_singleton_self s
  cache := Cache.from_empty _
  texts := by simpa using h

/-- The cache is faithful to the shelf if all digests are apart. -/
theorem faithful (h : l.Within messages shelves) (hapart : Apart messages) :
    l.cache.Faithful l.shelf.load :=
  h.cache.faithful (hapart.mono h.texts) h.shelf

/-- One more operation makes at most one more shelf. -/
theorem perform (h : l.Within messages shelves) {op : Operation}
    (hop : op.normalForms ⊆ messages) : ∃ more, (l.perform op).2.Within messages more := by
  cases op with
  | put identifier text =>
    refine ⟨l.shelf.put identifier text :: shelves, List.mem_cons_self,
      h.cache.mono (List.subset_cons_self _ _), ?_⟩
    rw [List.flatMap_cons]
    refine List.append_subset.2 ⟨fun message hmessage => ?_, h.texts⟩
    obtain hold | hnew := List.mem_append.1 (l.shelf.normalForms_put identifier text hmessage)
    · exact h.texts (List.mem_flatMap.2 ⟨l.shelf, h.shelf, hold⟩)
    · exact hop hnew
  | fetch identifier =>
    exact ⟨shelves, h.shelf, (Cache.stable_from h.shelf).include? h.cache identifier, h.texts⟩
  | compile limit identifier =>
    exact ⟨shelves, h.shelf, stable_compileScript (Cache.stable_from h.shelf) h.cache, h.texts⟩

theorem after (h : l.Within messages shelves) {ops : List Operation}
    (hops : ops.flatMap Operation.normalForms ⊆ messages) :
    ∃ more, (l.after ops).Within messages more := by
  induction ops generalizing l shelves with
  | nil => exact ⟨shelves, h⟩
  | cons op rest ih =>
    rw [List.flatMap_cons, List.append_subset] at hops
    obtain ⟨more, hmore⟩ := h.perform hops.1
    exact ih hmore hops.2

private theorem replies_eq (h : l.Within messages shelves) (hapart : Apart messages)
    {ops : List Operation} (hops : ops.flatMap Operation.normalForms ⊆ messages) :
    l.replies ops = l.shelf.freshReplies ops := by
  induction ops generalizing l shelves with
  | nil => rfl
  | cons op rest ih =>
    rw [List.flatMap_cons, List.append_subset] at hops
    obtain ⟨more, hmore⟩ := h.perform hops.1
    rw [replies, Shelf.freshReplies, ih hmore hops.2,
      reply_eq_of_faithful (h.faithful hapart) (Cache.faithful_empty _) op,
      shelf_perform l.shelf l.cache .empty op]

end Within

/-- The cache of a library is transparent. Whatever is asked of it and whatever texts are put on its
shelf in between, every reply is the one that a new cache would give, as long as no two of the texts
have the same digest. A script that is refused is never found in the cache. -/
theorem replies_eq_freshReplies {s : Shelf} {ops : List Operation}
    (hapart : Apart (s.normalForms ++ ops.flatMap Operation.normalForms)) :
    (Library.mk s .empty).replies ops = s.freshReplies ops ∧
      ∀ before, before <+: ops → let l := (Library.mk s .empty).after before
        ∀ i script e, l.shelf.load i = .ok script → script.check = .error e →
          l.cache.find? script.identity script.checksum = none := by
  have hstart : (Library.mk s .empty).Within
      (s.normalForms ++ ops.flatMap Operation.normalForms) [s] :=
    .start (List.subset_append_left _ _)
  refine ⟨hstart.replies_eq hapart (List.subset_append_right _ _), ?_⟩
  intro before hbefore l i script e hload hcheck
  have hmessages : before.flatMap Operation.normalForms ⊆
      s.normalForms ++ ops.flatMap Operation.normalForms := by
    obtain ⟨rest, rfl⟩ := hbefore
    rw [List.flatMap_append]
    exact List.Subset.trans (List.subset_append_left _ _) (List.subset_append_right _ _)
  obtain ⟨shelves, hl⟩ := hstart.after hmessages
  refine Option.eq_none_iff_forall_not_mem.2 fun k hk => ?_
  rw [hl.faithful hapart i script k hload hk] at hcheck
  cases hcheck

/-- Did the library do what it was asked? -/
def Reply.isOk : Reply → Bool
  | stored => true
  | fetched result => result.isOk
  | compiled result => result.isOk

/-- A script includes another one, which is missing, then broken, then mended, then put again with
other line ends. -/
def Operation.mending : List Operation :=
  [.compile 16 "main", .put "./lib.warden" "create user \"u\"", .compile 16 "main", .fetch "lib",
    .put "lib" "create user \"u\"; \r\n", .fetch "./lib", .compile 16 "x/../main",
    .put "lib.warden" "create user \"u\";", .compile 16 "main"]

/-- The mended script goes through at once. -/
theorem replies_eq_freshReplies_mending :
    let s := Shelf.ofList [("main", "include \"lib\";")]
    Apart (s.normalForms ++ Operation.mending.flatMap Operation.normalForms) ∧
      (Library.mk s .empty).replies Operation.mending = s.freshReplies Operation.mending ∧
      ((Library.mk s .empty).replies Operation.mending).map Reply.isOk =
        [false, true, false, false, true, true, true, true, true] := by
  intro s
  have hapart : Apart (s.normalForms ++ Operation.mending.flatMap Operation.normalForms) := by
    decide +kernel
  exact ⟨hapart, (replies_eq_freshReplies hapart).1, by decide +kernel⟩

end Library

end Entitle
