import Entitle.Proofs.Inclusions

/-!
# Cycles of inclusions

An expansion goes through the scripts that a root includes, one inside another, and stops where one
of them would be entered inside itself. What it reports is a real chain of scripts: each has an
inclusion that leads to the next one. And it misses none. If everything that is included is there,
if there are no conditions, and if the limit is not too low, the expansion succeeds exactly when no
script that the root leads to leads back to itself. Scripts are told apart by their identities, so
a script that is included twice, or under two names, is no cycle.

## Main definitions

* `Loader.Leads`: the checked scripts that an identifier may lead to.
* `Cache.Of`: a cache with scripts of a loader.
* `Loader.Provides`: a script without conditions of which all inclusions are there.
* `Loader.Cyclic`: a script that leads to itself is reached from the root.
* `Expansion.Succeeds`: a script is entered from a stack, and its expansion succeeds.

## Main statements

* `Expansion.Succeeds.includes`: if a script is entered with success, so is what it includes.
* `Expansion.finds_cycles_ofChecked`: the cycles that are reported are those that are there.
-/
namespace Entitle

/-! ## Where an identifier leads -/

/-- The identifier is loaded as a script with the identity and the checksum of the checked script,
which was made of a script of the loader. -/
def Loader.Leads (load : Loader) (target : String) (k : Checked) : Prop :=
  (∃ s, load target = .ok s ∧ s.identity = k.identity ∧ s.checksum = k.checksum) ∧
    ∃ i, load.checked? i = some k

private theorem Loader.checked?_of_check {load : Loader} {i : String} {s : Script} {k : Checked}
    (hs : load i = .ok s) (hk : s.check = .ok k) : load.checked? i = some k := by
  rw [Loader.checked?, hs]
  simp [hk, Except.toOption]

/-- If scripts are known by their identities and checksums, an identifier leads to one script. -/
theorem Loader.Keyed.leads_iff {load : Loader} (hl : load.Keyed) {target : String} {k : Checked} :
    load.Leads target k ↔ load.checked? target = some k := by
  constructor
  · rintro ⟨⟨s, hs, hidentity, hchecksum⟩, i, hi⟩
    obtain ⟨s', hs', hk⟩ := Loader.checked?_eq_some hi
    obtain ⟨hidentity', hchecksum'⟩ := Script.check_eq_ok hk
    obtain rfl : s = s' := hl target i s s' hs hs' (hidentity.trans hidentity')
      (hchecksum.trans hchecksum')
    exact Loader.checked?_of_check hs hk
  · intro h
    obtain ⟨s, hs, hk⟩ := Loader.checked?_eq_some h
    obtain ⟨hidentity, hchecksum⟩ := Script.check_eq_ok hk
    exact ⟨⟨s, hs, hidentity.symm, hchecksum.symm⟩, target, h⟩

namespace Cache

/-- Every script in the cache was made of a script of the loader. -/
def Of (load : Loader) (c : Cache) : Prop :=
  ∀ k ∈ c.scripts, ∃ i, load.checked? i = some k

private theorem of_empty (load : Loader) : Cache.empty.Of load := by
  simp [Of, empty]

private theorem stable_of (load : Loader) : Stable load (Of load) :=
  stable_forall fun hs hk => ⟨_, Loader.checked?_of_check hs hk⟩

variable {load : Loader} {c : Cache}

/-- An inclusion gives a script that it may lead to. -/
theorem Of.leads {target : String} {k : Checked} {c' : Cache} (hc : c.Of load)
    (h : c.include? load target = (.ok k, c')) : load.Leads target k := by
  have hc' := (stable_of load).include? hc target
  rw [h] at hc'
  obtain ⟨s, hs, hfind⟩ := library_eq_some.1 (include?_eq_ok h).2
  obtain ⟨hmem, hidentity, hchecksum⟩ := find?_eq_some hfind
  exact ⟨⟨s, hs, hidentity.symm, hchecksum.symm⟩, hc' k hmem⟩

theorem Of.faithful (hl : load.Keyed) (hc : c.Of load) : c.Faithful load := by
  intro i s k hs hfind
  obtain ⟨hmem, hidentity, hchecksum⟩ := find?_eq_some hfind
  have hk := hl.leads_iff.1 ⟨⟨s, hs, hidentity.symm, hchecksum.symm⟩, hc k hmem⟩
  obtain ⟨s', hs', hcheck⟩ := Loader.checked?_eq_some hk
  rw [hs] at hs'
  cases hs'
  exact hcheck

end Cache

/-! ## Expansions that succeed -/

/-- The script has no conditions, and each of its inclusions leads to a script without problems. -/
structure Loader.Provides (load : Loader) (k : Checked) : Prop where
  unconditional : ∀ s ∈ k.statements, s.isCond = false
  found : ∀ target ∈ Statement.inclusionsOfAll k.statements, (load.checked? target).isSome

/-- A script that is reached from the root leads to itself. -/
def Loader.Cyclic (load : Loader) (root : Checked) : Prop :=
  ∃ k k', Relation.ReflTransGen (Checked.Includes load.Leads) root k ∧
    Relation.TransGen (Checked.Includes load.Leads) k k' ∧ k'.identity = k.identity

namespace Expansion

open Expanding

section

variable {I : Cache → Prop} {enter : Origin → String → Expanding (List Located)}

/-- If statements without conditions succeed, each of their inclusions was entered and did. -/
theorem entered_of_ofStatements (hkeeps : ∀ o target, (enter o target).Keeps I)
    {ss : List Statement} (hss : ∀ s ∈ ss, s.isCond = false) {p p' : Progress} {c c' : Cache}
    {out : List Located} (hc : I c) (h : (ofStatements enter ss).on p c = (.ok (out, p'), c'))
    {target : String} (htarget : target ∈ Statement.inclusionsOfAll ss) :
    ∃ o q d r, I d ∧ ((enter o target).on q d).1 = .ok r := by
  induction ss generalizing p p' c c' out with
  | nil => simp [Statement.inclusionsOfAll] at htarget
  | cons s rest ih =>
    rw [ofStatements] at h
    obtain ⟨first, p₁, c₁, hfirst, h⟩ := on_bind_eq_ok h
    obtain ⟨more, p₂, c₂, hmore, -⟩ := on_bind_eq_ok h
    rw [Statement.inclusionsOfAll, List.mem_append] at htarget
    obtain ⟨hs, hrest⟩ := List.forall_mem_cons.1 hss
    rcases htarget with htarget | htarget
    · cases s with
      | inclusion o i =>
        obtain rfl : target = i := by simpa [Statement.inclusions] using htarget
        rw [ofStatement] at hfirst
        exact ⟨o, p, c, _, hc, by rw [hfirst]⟩
      | cond => simp [Statement.isCond] at hs
      | _ => simp [Statement.inclusions] at htarget
    · have hkept := keeps_ofStatement hkeeps s p c hc
      rw [hfirst] at hkept
      exact ih hrest hkept hmore htarget

end

variable {load : Loader} {limit : Nat} {stack : List String} {k k' : Checked}

/-- The script is entered from the stack through a faithful cache, and its expansion succeeds. -/
def Succeeds (load : Loader) (limit : Nat) (stack : List String) (k : Checked) : Prop :=
  ∃ room p c r, c.Faithful load ∧ ((ofScript load limit room stack k).on p c).1 = .ok r

theorem Succeeds.notMem (h : Succeeds load limit stack k) : k.identity ∉ stack := by
  intro hmem
  obtain ⟨room, p, c, r, -, h⟩ := h
  rw [ofScript_of_mem hmem, on_throw] at h
  cases h

/-- What is included by a script that is entered with success is entered with success. -/
theorem Succeeds.includes (hl : load.Keyed) (hk : ∀ s ∈ k.statements, s.isCond = false)
    (h : Succeeds load limit stack k) (hincludes : Checked.Includes load.Leads k k') :
    Succeeds load limit (stack ++ [k.identity]) k' := by
  have hmem := h.notMem
  obtain ⟨room, p, c, r, hc, h⟩ := h
  obtain ⟨target, htarget, hleads⟩ := hincludes
  cases room with
  | zero =>
    rw [ofScript_of_full hmem, on_throw] at h
    cases h
  | succ room =>
    rw [ofScript_of_notMem hmem, on_bind, on_modify] at h
    have hI := Cache.stable_faithful hl
    obtain ⟨o, q, d, r', hd, hentered⟩ := entered_of_ofStatements (I := Cache.Faithful load)
      (fun o target => keeps_bind (keeps_require hI o target) fun _ => keeps_ofScript hI _ _ _ _)
      hk hc (Prod.ext h rfl) htarget
    have hinclude := hd.include?_of_checked? (hl.leads_iff.1 hleads)
    have hd' := hI.include? hd target
    rw [on_bind, on_require] at hentered
    generalize d.include? load target = included at hinclude hd' hentered
    obtain ⟨included, d'⟩ := included
    obtain rfl : included = .ok k' := hinclude
    exact ⟨room, q, d', r', hd', hentered⟩

/-- What is reached from there is entered with success too, deeper in the stack. -/
theorem Succeeds.reaches (hl : load.Keyed)
    (hprovides : ∀ i k, load.checked? i = some k → load.Provides k) (hk : load.Provides k)
    (h : Succeeds load limit stack k)
    (hreach : Relation.ReflTransGen (Checked.Includes load.Leads) k k') :
    load.Provides k' ∧ ∃ deeper, stack ⊆ deeper ∧ Succeeds load limit deeper k' := by
  induction hreach with
  | refl => exact ⟨hk, stack, List.Subset.refl _, h⟩
  | tail _ hincludes ih =>
    obtain ⟨hmiddle, deeper, hsub, hsucceeds⟩ := ih
    obtain ⟨target, -, -, i, hi⟩ := id hincludes
    exact ⟨hprovides i _ hi, _, List.subset_append_of_subset_left _ hsub,
      hsucceeds.includes hl hmiddle.unconditional hincludes⟩

/-- From a script that is entered with success, no cycle is reached. -/
theorem Succeeds.not_cyclic (hl : load.Keyed)
    (hprovides : ∀ i k, load.checked? i = some k → load.Provides k) (hk : load.Provides k)
    (h : Succeeds load limit stack k) : ¬ load.Cyclic k := by
  rintro ⟨first, last, hreach, hback, hidentity⟩
  obtain ⟨hfirst, deeper, -, hsucceeds⟩ := h.reaches hl hprovides hk hreach
  obtain ⟨next, hincludes, hreach'⟩ := Relation.TransGen.head'_iff.1 hback
  obtain ⟨target, -, -, i, hi⟩ := id hincludes
  have hnext := hsucceeds.includes hl hfirst.unconditional hincludes
  obtain ⟨-, deeper', hsub, hlast⟩ := hnext.reaches hl hprovides (hprovides i _ hi) hreach'
  exact hlast.notMem (hidentity ▸ hsub (by simp))

/-! ## What is reported -/

variable {root : Checked} {c : Cache} {e : ResolutionError}

/-- The chain of a cycle that is reported leads from a script to itself. -/
theorem cyclic_of_justified {chain : List String}
    (h : ResolutionError.Justified load.Leads root limit (fun _ => False) (.cycle chain)) :
    load.Cyclic root := by
  obtain ⟨hlength, hclosed, -, before, ks, htrail, rfl⟩ := h
  obtain ⟨k, rest, rfl⟩ : ∃ k rest, ks = k :: rest := by
    cases ks with
    | nil => simp at hlength
    | cons k rest => exact ⟨k, rest, rfl⟩
  obtain ⟨middle, last, rfl⟩ : ∃ middle last, rest = middle ++ [last] := by
    rcases List.eq_nil_or_concat rest with rfl | h
    · simp at hlength
    · simpa using h
  have hpairwise := (List.pairwise_append.1 htrail.pairwise).2.1
  refine ⟨k, last, htrail.reaches (by simp), (List.pairwise_cons.1 hpairwise).1 last (by simp), ?_⟩
  rw [← List.cons_append, List.map_append, List.map_singleton, List.getLast?_concat] at hclosed
  simpa using hclosed

/-- With every included script at hand and no conditions, only the stack can make an expansion
fail; and the limit does not, if it is the number of scripts at least. -/
theorem traces_of_provides (hl : load.Keyed)
    (hprovides : ∀ i k, load.checked? i = some k → load.Provides k) (hroot : load.Provides root)
    (hreach : Relation.ReflTransGen (Checked.Includes load.Leads) root k)
    {E : ResolutionError → Prop} : Traces load (Cache.Faithful load) load.Leads E k := by
  have hk : load.Provides k := by
    rcases Relation.ReflTransGen.cases_tail hreach with rfl | ⟨_, -, target, -, -, i, hi⟩
    · exact hroot
    · exact hprovides i k hi
  refine ⟨fun o target htarget p c hc => ?_, .inl hk.unconditional⟩
  obtain ⟨included, hincluded⟩ := Option.isSome_iff_exists.1 (hk.found target htarget)
  have hc' := (Cache.stable_faithful hl).include? hc target
  have hinclude := hc.include?_of_checked? hincluded
  rw [on_require]
  generalize c.include? load target = result at hc' hinclude
  obtain ⟨result, c'⟩ := result
  obtain rfl : result = .ok included := hinclude
  refine ⟨fun a p' d heq => ?_, fun e d heq => ?_⟩
  · cases heq
    exact ⟨hl.leads_iff.2 hincluded, hc'⟩
  · cases heq

/-- Cycles are found where they are.

* The scripts of a cycle that is reported are linked by inclusions, and the last one is the first
  one; the others are told apart.
* The scripts of a chain that exceeds the limit are linked in the same way from the root on, and
  told apart; they are two more than the limit.
* Let scripts be known by their identities and checksums, let them provide what they include, and
  let `ids` be the identities of the scripts, not more than the limit. Then the expansion succeeds
  exactly when no script that the root leads to leads back to itself; otherwise it reports a
  cycle. -/
theorem finds_cycles_ofChecked {load : Loader} {c : Cache} (hc : c.Of load) (limit : Nat)
    (root : Checked) :
    (∀ chain, (ofChecked load limit root c).1 = .error (.cycle chain) →
      2 ≤ chain.length ∧ chain.getLast? = chain.head? ∧ chain.dropLast.Nodup ∧
        ∃ before ks, Checked.Trail load.Leads root (before ++ ks) ∧
          ks.map (·.identity) = chain) ∧
    (∀ limit' chain, (ofChecked load limit root c).1 = .error (.depthExceeded limit' chain) →
      limit' = limit ∧ chain.length = limit + 2 ∧ chain.Nodup ∧
        ∃ ks, Checked.Trail load.Leads root ks ∧ ks.map (·.identity) = chain) ∧
    (load.Keyed → load.Provides root → (∀ i k, load.checked? i = some k → load.Provides k) →
      ∀ ids : List String, (∀ i s, load i = .ok s → s.identity ∈ ids) → ids.length ≤ limit →
        ((∃ e, (ofChecked load limit root c).1 = .ok e) ↔ ¬ load.Cyclic root) ∧
        (load.Cyclic root → ∃ chain, (ofChecked load limit root c).1 = .error (.cycle chain))) := by
  have hjustified {e : ResolutionError} (he : (ofChecked load limit root c).1 = .error e) :
      e.Justified load.Leads root limit fun _ => True :=
    justified_of_ofChecked (I := Cache.Of load) (fun k _ =>
      ⟨fun o target _ => obeys_require (Cache.stable_of load) (fun d k d' hd h => hd.leads h)
        fun _ => trivial, .inr fun _ _ _ => trivial⟩) hc he
  refine ⟨fun chain h => hjustified h, fun limit' chain h => hjustified h, ?_⟩
  intro hl hroot hprovides ids hids hlimit
  have hcycle {e : ResolutionError} (he : (ofChecked load limit root c).1 = .error e) :
      (∃ chain, e = .cycle chain) ∧ load.Cyclic root := by
    have hjustified : e.Justified load.Leads root limit fun _ => False :=
      justified_of_ofChecked (fun k hreach => traces_of_provides hl hprovides hroot hreach)
        (hc.faithful hl) he
    cases e with
    | cycle chain => exact ⟨⟨chain, rfl⟩, cyclic_of_justified hjustified⟩
    | depthExceeded limit' chain =>
      obtain ⟨-, hlength, hnodup, ks, htrail, rfl⟩ := hjustified
      have hloaded : ∀ target k, load.Leads target k → k.identity ∈ ids := by
        rintro target k ⟨⟨s, hs, hidentity, -⟩, -⟩
        exact hidentity ▸ hids target s hs
      have hshort := htrail.length_le hloaded hnodup
      rw [List.length_map] at hlength
      omega
    | _ => exact hjustified.elim
  have hacyclic {e : Expansion} (he : (ofChecked load limit root c).1 = .ok e) :
      ¬ load.Cyclic root := by
    obtain ⟨p, c', hon, -, -⟩ := ofChecked_eq_ok he
    exact Succeeds.not_cyclic hl hprovides hroot
      ⟨limit + 1, .start, c, _, hc.faithful hl, by rw [hon]⟩
  cases hr : (ofChecked load limit root c).1 with
  | ok e => exact ⟨⟨fun _ => hacyclic hr, fun _ => ⟨e, rfl⟩⟩, fun h => (hacyclic hr h).elim⟩
  | error e =>
    obtain ⟨⟨chain, rfl⟩, hcyclic⟩ := hcycle hr
    exact ⟨⟨fun h => (by simp at h), fun h => (h hcyclic).elim⟩, fun _ => ⟨chain, rfl⟩⟩

end Expansion

/-! ## Shelves with cycles and without -/

namespace Shelf

/-- Every script of a shelf provides what it includes, if that can be computed from the texts. -/
theorem provides {s : Shelf}
    (h : ∀ identity ∈ s.texts.keys, Identity.ofIdentifier? identity = some identity ∧
      ((s.load.checked? identity).all fun k => k.statements.all (!·.isCond) &&
        (Statement.inclusionsOfAll k.statements).all fun i => (s.load.checked? i).isSome) = true)
    {i : String} {k : Checked} (hk : s.load.checked? i = some k) : s.load.Provides k := by
  obtain ⟨text, hi, htext, -, -⟩ := checked?_eq_some hk
  obtain ⟨hself, hall⟩ := h k.identity (List.mem_map_of_mem (Table.get?_eq_some_iff.1 htext))
  rw [checked?_of_identity s hself hi, hk, Option.all_some, Bool.and_eq_true] at hall
  exact ⟨by simpa using hall.1, by simpa using hall.2⟩

/-- Two scripts that include each other, the one under a longer name. -/
def ring : Shelf := .ofList [
  ("main", "include \"first\";\n"),
  ("first", "include \"second\";\n"),
  ("second", "include \"x/../first\";\n")]

/-- A script that is included twice, once under a longer name. -/
def diamond : Shelf := .ofList [
  ("main", "include \"left\";\ninclude \"right\";\n"),
  ("left", "include \"base\";\n"),
  ("right", "include \"./base.warden\";\n"),
  ("base", "create user \"u\";\n")]

end Shelf

/-- The two scripts are a cycle, the script that is included twice is none. -/
theorem Expansion.finds_cycles_ring_diamond :
    (∃ root, Shelf.ring.load.checked? "main" = some root ∧
      (ofChecked Shelf.ring.load 3 root .empty).1 = .error (.cycle ["first", "second", "first"]) ∧
      (∃ before ks, Checked.Trail Shelf.ring.load.Leads root (before ++ ks) ∧
        ks.map (·.identity) = ["first", "second", "first"]) ∧
      Shelf.ring.load.Cyclic root) ∧
    ∃ root e, Shelf.diamond.load.checked? "main" = some root ∧
      (ofChecked Shelf.diamond.load 4 root .empty).1 = .ok e ∧
      ¬ Shelf.diamond.load.Cyclic root := by
  have hring {i : String} {k : Checked} (hk : Shelf.ring.load.checked? i = some k) :
      Shelf.ring.load.Provides k := Shelf.provides (by decide +kernel) hk
  have hdiamond {i : String} {k : Checked} (hk : Shelf.diamond.load.checked? i = some k) :
      Shelf.diamond.load.Provides k := Shelf.provides (by decide +kernel) hk
  constructor
  · obtain ⟨root, hroot, hcycle⟩ : ∃ root, Shelf.ring.load.checked? "main" = some root ∧
        (ofChecked Shelf.ring.load 3 root .empty).1 =
          .error (.cycle ["first", "second", "first"]) :=
      Shelf.exists_ofChecked (P := (· = .error (.cycle ["first", "second", "first"])))
        (by decide +kernel)
    obtain ⟨hchain, -, hfinds⟩ := finds_cycles_ofChecked (Cache.of_empty Shelf.ring.load) 3 root
    obtain ⟨hiff, -⟩ := hfinds Shelf.ring.settled_load.keyed (hring hroot) (fun _ _ => hring)
      Shelf.ring.texts.keys (fun _ _ => Shelf.identity_mem_keys) (by decide +kernel)
    refine ⟨root, hroot, hcycle, (hchain _ hcycle).2.2.2, ?_⟩
    by_contra hacyclic
    obtain ⟨e, he⟩ := hiff.2 hacyclic
    rw [hcycle] at he
    cases he
  · obtain ⟨root, hroot, hok⟩ : ∃ root, Shelf.diamond.load.checked? "main" = some root ∧
        (ofChecked Shelf.diamond.load 4 root .empty).1.isOk = true :=
      Shelf.exists_ofChecked (P := fun result => result.isOk = true) (by decide +kernel)
    obtain ⟨e, he⟩ : ∃ e, (ofChecked Shelf.diamond.load 4 root .empty).1 = .ok e := by
      cases he : (ofChecked Shelf.diamond.load 4 root .empty).1 with
      | error e => simp [he, Except.isOk, Except.toBool] at hok
      | ok e => exact ⟨e, rfl⟩
    obtain ⟨-, -, hfinds⟩ := finds_cycles_ofChecked (Cache.of_empty Shelf.diamond.load) 4 root
    obtain ⟨hiff, -⟩ := hfinds Shelf.diamond.settled_load.keyed (hdiamond hroot)
      (fun _ _ => hdiamond) Shelf.diamond.texts.keys (fun _ _ => Shelf.identity_mem_keys)
      (by decide +kernel)
    exact ⟨root, e, hroot, he, hiff.1 ⟨e, he⟩⟩

end Entitle
