import Entitle.Script.Expansion

/-!
# What an expansion comes down to

An expansion goes through a cache and keeps a stack of the scripts it is in. Neither matters for
its result: if it succeeds, its directives are those of a relation on statements that only knows
where inclusions lead. Two expansions, of two libraries, agree as soon as the libraries agree on
the scripts that both visited.

## Main definitions

* `Loader.checked?`: the checked script that an identifier leads to, without a cache.
* `Cache.library`: the checked script that an identifier leads to in a cache.
* `Expands`: the directives of statements, and the progress they make.
* `Loader.Settled`: no two scripts of a loader have the same identity.
* `Loader.Keyed`: no two of them have the same identity and the same checksum.
* `Cache.Faithful`: a cache that holds what checking a script anew would give.
* `Cache.Grows`: a cache in which everything is found that was found before.
* `Cache.Stable`: what checking scripts keeps of a cache.

## Main statements

* `Expansion.expands_library`: a successful expansion is one of the relation, with the scripts that
  are in the cache in the end.
* `Expansion.expands_ofScript`: through a faithful cache it is one with the scripts of the loader.
* `Expansion.keeps_ofScript`: what checking keeps of a cache, an expansion keeps, also if it fails.
* `Expands.agree`: expansions of two libraries that agree on what was visited are the same.
-/
namespace Entitle

/-! ## Computations of an expansion -/

namespace Expanding

variable {α β : Type}

/-- The result of a computation, and the cache after it. -/
def on (m : Expanding α) (p : Progress) (c : Cache) :
    Except ResolutionError (α × Progress) × Cache :=
  m p c

@[simp] theorem on_pure (a : α) (p : Progress) (c : Cache) :
    (pure a : Expanding α).on p c = (.ok (a, p), c) := rfl

@[simp] theorem on_modify (f : Progress → Progress) (p : Progress) (c : Cache) :
    (modify f : Expanding Unit).on p c = (.ok ((), f p), c) := rfl

@[simp] theorem on_get (p : Progress) (c : Cache) :
    (get : Expanding Progress).on p c = (.ok (p, p), c) := rfl

@[simp] theorem on_throw (e : ResolutionError) (p : Progress) (c : Cache) :
    (throw e : Expanding α).on p c = (.error e, c) := rfl

theorem on_bind (m : Expanding α) (f : α → Expanding β) (p : Progress) (c : Cache) :
    (m >>= f).on p c =
      match m.on p c with
      | (.ok (a, p'), c') => (f a).on p' c'
      | (.error e, c') => (.error e, c') := by
  show (StateT.bind m f p : ExceptT ResolutionError (StateM Cache) _) c = _
  simp only [StateT.bind, bind, ExceptT.bind, ExceptT.mk, ExceptT.bindCont, StateT.bind, on]
  rcases h : m p c with ⟨r, c'⟩
  cases r <;> rfl

/-- If a sequence succeeds, so do both of its parts. -/
theorem on_bind_eq_ok {m : Expanding α} {f : α → Expanding β} {p p'' : Progress}
    {c c'' : Cache} {b : β} (h : (m >>= f).on p c = (.ok (b, p''), c'')) :
    ∃ a p' c', m.on p c = (.ok (a, p'), c') ∧ (f a).on p' c' = (.ok (b, p''), c'') := by
  rw [on_bind] at h
  rcases hm : m.on p c with ⟨r, c'⟩
  rw [hm] at h
  cases r with
  | error e => simp at h
  | ok r => exact ⟨r.1, r.2, c', rfl, h⟩

/-- The computation keeps a property of the cache, also when it fails. -/
def Keeps (I : Cache → Prop) (m : Expanding α) : Prop :=
  ∀ p c, I c → I (m.on p c).2

section

variable {I : Cache → Prop}

theorem keeps_pure (a : α) : (pure a : Expanding α).Keeps I := fun _ _ h => h

theorem keeps_modify (f : Progress → Progress) : (modify f : Expanding Unit).Keeps I :=
  fun _ _ h => h

theorem keeps_get : (get : Expanding Progress).Keeps I := fun _ _ h => h

theorem keeps_throw (e : ResolutionError) : (throw e : Expanding α).Keeps I := fun _ _ h => h

theorem keeps_bind {m : Expanding α} {f : α → Expanding β} (hm : m.Keeps I)
    (hf : ∀ a, (f a).Keeps I) : (m >>= f).Keeps I := by
  intro p c hc
  have hfirst := hm p c hc
  rw [on_bind]
  rcases h : m.on p c with ⟨r, c'⟩
  rw [h] at hfirst
  cases r with
  | error e => exact hfirst
  | ok r => exact hf r.1 r.2 c' hfirst

end

end Expanding

/-! ## Libraries and caches -/

/-- The checked script that an identifier leads to. -/
def Loader.checked? (load : Loader) (identifier : String) : Option Checked :=
  match load identifier with
  | .ok script => script.check.toOption
  | .error _ => none

/-- Scripts with the same identity are the same script. -/
def Loader.Settled (load : Loader) : Prop :=
  ∀ i j s t, load i = .ok s → load j = .ok t → s.identity = t.identity → s = t

/-- Scripts with the same identity and the same checksum are the same script. -/
def Loader.Keyed (load : Loader) : Prop :=
  ∀ i j s t, load i = .ok s → load j = .ok t → s.identity = t.identity →
    s.checksum = t.checksum → s = t

theorem Loader.Settled.keyed {load : Loader} (hl : load.Settled) : load.Keyed :=
  fun i j s t hs ht hidentity _ => hl i j s t hs ht hidentity

/-- The cache answers for the scripts of a loader as checking them anew would. -/
def Cache.Faithful (load : Loader) (c : Cache) : Prop :=
  ∀ i s k, load i = .ok s → c.find? s.identity s.checksum = some k → s.check = .ok k

/-- Checking keeps the name and the checksum of a script. -/
theorem Script.check_eq_ok {s : Script} {k : Checked} (h : s.check = .ok k) :
    k.identity = s.identity ∧ k.checksum = s.checksum := by
  rw [Script.check] at h
  split at h
  · simp at h
  · next statements _ =>
    rw [Checked.ofScript] at h
    split at h
    · simp at h
    · next hk =>
      split at hk
      · cases hk
        cases h
        exact ⟨rfl, rfl⟩
      · simp at hk

theorem Loader.checked?_eq_some {load : Loader} {i : String} {k : Checked}
    (h : load.checked? i = some k) : ∃ s, load i = .ok s ∧ s.check = .ok k := by
  rw [Loader.checked?] at h
  split at h
  · next s hs =>
    cases hc : s.check with
    | error e => simp [hc, Except.toOption] at h
    | ok k' =>
      simp only [hc, Except.toOption, Option.some.injEq] at h
      exact ⟨s, hs, h ▸ hc⟩
  · simp at h

/-- In a settled library, a checked script is determined by its identity. -/
theorem Loader.Settled.checked_eq {load : Loader} (hl : load.Settled) {i j : String}
    {k k' : Checked} (h : load.checked? i = some k) (h' : load.checked? j = some k')
    (hk : k.identity = k'.identity) : k = k' := by
  obtain ⟨s, hs, hsk⟩ := Loader.checked?_eq_some h
  obtain ⟨t, ht, htk⟩ := Loader.checked?_eq_some h'
  have hst : s = t := by
    refine hl i j s t hs ht ?_
    rw [← (Script.check_eq_ok hsk).1, ← (Script.check_eq_ok htk).1, hk]
  subst hst
  rw [hsk] at htk
  exact Except.ok.inj htk

namespace Cache

/-- What is found in a cache has the identity and the checksum that it is looked for under. -/
theorem find?_eq_some {c : Cache} {identity checksum : String} {k : Checked}
    (h : c.find? identity checksum = some k) :
    k ∈ c.scripts ∧ k.identity = identity ∧ k.checksum = checksum := by
  rw [find?] at h
  have hkey := List.find?_some h
  rw [Bool.and_eq_true, beq_iff_eq, beq_iff_eq] at hkey
  exact ⟨List.mem_of_find?_eq_some h, hkey⟩

theorem faithful_empty (load : Loader) : Cache.empty.Faithful load := by
  intro i s k _ h
  simp [find?, empty] at h

/-- Through a faithful cache a script is checked as it would be anew. -/
theorem Faithful.check_eq {load : Loader} {c : Cache} (hc : c.Faithful load) {i : String}
    {s : Script} (hs : load i = .ok s) : (c.check s).1 = s.check := by
  rw [Cache.check]
  cases hf : c.find? s.identity s.checksum with
  | some k => exact (hc i s k hs hf).symm
  | none =>
    cases hk : s.check with
    | error e => simp
    | ok k => simp

/-- A cache stays faithful when scripts of the loader are checked through it. -/
theorem Faithful.check {load : Loader} (hl : load.Keyed) {c : Cache} (hc : c.Faithful load)
    {i : String} {s : Script} (hs : load i = .ok s) : (c.check s).2.Faithful load := by
  rw [Cache.check]
  cases hf : c.find? s.identity s.checksum with
  | some k => exact hc
  | none =>
    cases hk : s.check with
    | error e => exact hc
    | ok k =>
      intro j t k' ht hfind
      rw [find?_add] at hfind
      cases hold : c.find? t.identity t.checksum with
      | some old =>
        rw [hold, Option.some_or] at hfind
        cases hfind
        exact hc j t k' ht hold
      | none =>
        rw [hold, Option.none_or] at hfind
        split at hfind
        · next heq =>
          cases hfind
          have hst : s = t := hl i j s t hs ht ((Script.check_eq_ok hk).1 ▸ heq.1)
            ((Script.check_eq_ok hk).2 ▸ heq.2)
          exact hst ▸ hk
        · simp at hfind

/-- Checking scripts of the loader through a cache keeps the property. -/
def Stable (load : Loader) (I : Cache → Prop) : Prop :=
  ∀ i s c, load i = .ok s → I c → I (c.check s).2

/-- What holds of every script that is checked anew holds of all scripts in the cache. -/
theorem stable_forall {load : Loader} {P : Checked → Prop}
    (h : ∀ {i s k}, load i = .ok s → s.check = .ok k → P k) :
    Stable load fun c => ∀ k ∈ c.scripts, P k := by
  intro i s c hs hc
  rw [check]
  split
  · exact hc
  · split
    · exact hc
    · next k hk =>
      intro k' hk'
      rcases List.mem_append.1 hk' with hk' | hk'
      · exact hc k' hk'
      · rw [List.mem_singleton.1 hk']
        exact h hs hk

theorem stable_faithful {load : Loader} (hl : load.Keyed) : Stable load (Faithful load) :=
  fun _ _ _ hs hc => hc.check hl hs

theorem Stable.include? {load : Loader} {I : Cache → Prop} (hI : Stable load I) {c : Cache}
    (hc : I c) (i : String) : I (c.include? load i).2 := by
  rw [Cache.include?]
  split
  · exact hc
  · exact hc
  · next s hs =>
    have := hI i s c hs hc
    split <;> simp_all

/-! ### Growing -/

/-- What was found in the cache is found still. -/
def Grows (c c' : Cache) : Prop :=
  ∀ identity checksum k, c.find? identity checksum = some k → c'.find? identity checksum = some k

theorem Grows.refl (c : Cache) : c.Grows c := fun _ _ _ h => h

theorem Grows.trans {c c' c'' : Cache} (h : c.Grows c') (h' : c'.Grows c'') : c.Grows c'' :=
  fun _ _ _ hk => h' _ _ _ (h _ _ _ hk)

/-- Checking a script only adds to the cache. -/
theorem grows_check (c : Cache) (s : Script) : c.Grows (c.check s).2 := by
  rw [check]
  split
  · exact .refl c
  · split
    · exact .refl c
    · intro identity checksum k hk
      rw [find?_add, hk, Option.some_or]

/-- A script that was checked is found. -/
theorem find?_of_check {c c' : Cache} {s : Script} {k : Checked} (h : c.check s = (.ok k, c')) :
    c'.find? s.identity s.checksum = some k := by
  rw [check] at h
  split at h
  · next hfind =>
    cases h
    exact hfind
  · next hnone =>
    split at h
    · simp at h
    · next hcheck =>
      cases h
      rw [find?_add, hnone, Option.none_or, if_pos (Script.check_eq_ok hcheck)]

/-- The checked script that an identifier leads to in the cache. -/
def library (load : Loader) (c : Cache) (identifier : String) : Option Checked :=
  match load identifier with
  | .ok s => c.find? s.identity s.checksum
  | .error _ => none

theorem library_eq_some {load : Loader} {c : Cache} {i : String} {k : Checked} :
    c.library load i = some k ↔
      ∃ s, load i = .ok s ∧ c.find? s.identity s.checksum = some k := by
  rw [library]
  cases load i <;> simp

theorem Grows.library {load : Loader} {c c' : Cache} (h : c.Grows c') (i : String) (k : Checked)
    (hk : c.library load i = some k) : c'.library load i = some k := by
  obtain ⟨s, hs, hfind⟩ := library_eq_some.1 hk
  exact library_eq_some.2 ⟨s, hs, h _ _ _ hfind⟩

/-- In a faithful cache an identifier leads to the checked script of the loader. -/
theorem Faithful.library {load : Loader} {c : Cache} (hc : c.Faithful load) (i : String)
    (k : Checked) (hk : c.library load i = some k) : load.checked? i = some k := by
  obtain ⟨s, hs, hfind⟩ := library_eq_some.1 hk
  rw [Loader.checked?, hs]
  simp [hc i s k hs hfind, Except.toOption]

/-- An inclusion that succeeds leads to the script that is in the cache from then on. -/
theorem include?_eq_ok {load : Loader} {c c' : Cache} {i : String} {k : Checked}
    (h : c.include? load i = (.ok k, c')) : c.Grows c' ∧ c'.library load i = some k := by
  rw [include?] at h
  split at h
  · simp at h
  · simp at h
  · next s hs =>
    have hcheck : c.check s = (.ok k, c') := by
      split at h <;> simp_all
    have hgrows := c.grows_check s
    rw [hcheck] at hgrows
    exact ⟨hgrows, library_eq_some.2 ⟨s, hs, find?_of_check hcheck⟩⟩

end Cache

/-! ## The relation -/

/-- The directives of statements from a progress, and the progress after them. -/
inductive Expands (library : String → Option Checked) :
    Progress → List Statement → List Located → Progress → Prop
  | nil (p : Progress) : Expands library p [] [] p
  | directive {p p' : Progress} {o : Origin} {d : Directive} {rest : List Statement}
      {out : List Located} (h : Expands library p rest out p') :
      Expands library p (.directive o d :: rest) (⟨o, d⟩ :: out) p'
  | inclusion {p p₁ p₂ : Progress} {o : Origin} {target : String} {script : Checked}
      {rest : List Statement} {first more : List Located} (hscript : library target = some script)
      (hfirst : Expands library (p.visit script) script.statements first p₁)
      (hmore : Expands library p₁ rest more p₂) :
      Expands library p (.inclusion o target :: rest) (first ++ more) p₂
  | define {p p' : Progress} {o : Origin} {flag : String} {value : Bool} {rest : List Statement}
      {out : List Located} (h : Expands library (p.define flag value) rest out p') :
      Expands library p (.define o flag value :: rest) out p'
  | cond {p p₁ p₂ : Progress} {o : Origin} {flag : String} {negated value : Bool}
      {thenBranch elseBranch rest : List Statement} {first more : List Located}
      (hflag : p.flags.get? flag = some value)
      (hfirst : Expands library p (if value != negated then thenBranch else elseBranch) first p₁)
      (hmore : Expands library p₁ rest more p₂) :
      Expands library p (.cond o flag negated thenBranch elseBranch :: rest) (first ++ more) p₂

/-- A library that leads to more scripts leads to the same ones. -/
theorem Expands.mono {library more : String → Option Checked}
    (hsub : ∀ i k, library i = some k → more i = some k) {p p' : Progress} {ss : List Statement}
    {out : List Located} (h : Expands library p ss out p') : Expands more p ss out p' := by
  induction h with
  | nil p => exact .nil p
  | directive _ ih => exact .directive ih
  | inclusion hscript _ _ ihFirst ihMore => exact .inclusion (hsub _ _ hscript) ihFirst ihMore
  | define _ ih => exact .define ih
  | cond hflag _ _ ihFirst ihMore => exact .cond hflag ihFirst ihMore

namespace Expansion

open Expanding

section

variable {I : Cache → Prop} {enter : Origin → String → Expanding (List Located)}

mutual

theorem keeps_ofStatement (henter : ∀ o target, (enter o target).Keeps I) (s : Statement) :
    (ofStatement enter s).Keeps I :=
  match s with
  | .directive o d => keeps_pure _
  | .inclusion o target => henter o target
  | .define o flag value => keeps_bind (keeps_modify _) fun _ => keeps_pure _
  | .cond o flag negated thenBranch elseBranch => by
    rw [ofStatement]
    refine keeps_bind keeps_get fun p => ?_
    split
    · exact keeps_throw _
    · split
      · exact keeps_ofStatements henter thenBranch
      · exact keeps_ofStatements henter elseBranch

theorem keeps_ofStatements (henter : ∀ o target, (enter o target).Keeps I)
    (ss : List Statement) : (ofStatements enter ss).Keeps I :=
  match ss with
  | [] => keeps_pure _
  | s :: rest => by
    rw [ofStatements]
    exact keeps_bind (keeps_ofStatement henter s) fun _ =>
      keeps_bind (keeps_ofStatements henter rest) fun _ => keeps_pure _

end

end

theorem on_require (load : Loader) (o : Origin) (target : String) (p : Progress) (c : Cache) :
    (require load o target).on p c =
      match c.include? load target with
      | (.ok script, c') => (.ok (script, p), c')
      | (.error failure, c') => (.error (failure.at o target), c') := rfl

theorem keeps_require {load : Loader} {I : Cache → Prop} (hI : Cache.Stable load I) (o : Origin)
    (target : String) : (require load o target).Keeps I := by
  intro p c hc
  have := hI.include? hc target
  rw [on_require]
  split <;> simp_all

/-- What checking keeps, an expansion keeps, whether it succeeds or not. -/
theorem keeps_ofScript {load : Loader} {I : Cache → Prop} (hI : Cache.Stable load I)
    (limit room : Nat) (stack : List String) (script : Checked) :
    (ofScript load limit room stack script).Keeps I := by
  induction room generalizing stack script with
  | zero =>
    rw [ofScript]
    split <;> exact keeps_throw _
  | succ room ih =>
    rw [ofScript]
    split
    · exact keeps_throw _
    · refine keeps_bind (keeps_modify _) fun _ => keeps_ofStatements (fun o target => ?_) _
      exact keeps_bind (keeps_require hI o target) fun _ => ih _ _

section

variable {load : Loader} {enter : Origin → String → Expanding (List Located)}

/-- Entering an included script gives the directives of the one that is in the cache from then
on. -/
def Enters (load : Loader) (enter : Origin → String → Expanding (List Located)) : Prop :=
  ∀ o target p c out p' c', (enter o target).on p c = (.ok (out, p'), c') → c.Grows c' ∧
    ∃ script, c'.library load target = some script ∧
      Expands (c'.library load) (p.visit script) script.statements out p'

mutual

theorem expands_ofStatement (henter : Enters load enter) {s : Statement} {p p' : Progress}
    {c c' : Cache} {out : List Located} (h : (ofStatement enter s).on p c = (.ok (out, p'), c')) :
    c.Grows c' ∧ ∀ {d rest more p''}, c'.Grows d → Expands (d.library load) p' rest more p'' →
      Expands (d.library load) p (s :: rest) (out ++ more) p'' :=
  match s with
  | .directive o d => by
    rw [ofStatement, on_pure] at h
    cases h
    exact ⟨.refl c, fun _ hrest => .directive hrest⟩
  | .inclusion o target => by
    rw [ofStatement] at h
    obtain ⟨hgrows, script, hscript, hfirst⟩ := henter o target p c out p' c' h
    exact ⟨hgrows, fun hd hrest => .inclusion (hd.library _ _ hscript) (hfirst.mono hd.library)
      hrest⟩
  | .define o flag value => by
    rw [ofStatement, on_bind, on_modify] at h
    cases h
    exact ⟨.refl c, fun _ hrest => .define hrest⟩
  | .cond o flag negated thenBranch elseBranch => by
    rw [ofStatement, on_bind, on_get] at h
    cases hflag : p.flags.get? flag with
    | none => simp [hflag] at h
    | some value =>
      simp only [hflag] at h
      have hbranch : c.Grows c' ∧ Expands (c'.library load) p
          (if value != negated then thenBranch else elseBranch) out p' := by
        split at h
        · next hv =>
          rw [if_pos hv]
          exact expands_ofStatements henter h
        · next hv =>
          rw [if_neg hv]
          exact expands_ofStatements henter h
      exact ⟨hbranch.1, fun hd hrest => .cond hflag (hbranch.2.mono hd.library) hrest⟩

theorem expands_ofStatements (henter : Enters load enter) {ss : List Statement}
    {p p' : Progress} {c c' : Cache} {out : List Located}
    (h : (ofStatements enter ss).on p c = (.ok (out, p'), c')) :
    c.Grows c' ∧ Expands (c'.library load) p ss out p' :=
  match ss with
  | [] => by
    rw [ofStatements, on_pure] at h
    cases h
    exact ⟨.refl c, .nil p⟩
  | s :: rest => by
    rw [ofStatements] at h
    obtain ⟨first, p₁, c₁, hfirst, h⟩ := on_bind_eq_ok h
    obtain ⟨more, p₂, c₂, hmore, h⟩ := on_bind_eq_ok h
    rw [on_pure] at h
    cases h
    obtain ⟨hgrows₁, hfirst⟩ := expands_ofStatement henter hfirst
    obtain ⟨hgrows₂, hmore⟩ := expands_ofStatements henter hmore
    exact ⟨hgrows₁.trans hgrows₂, hfirst hgrows₂ hmore⟩

end

end

/-- A successful expansion of a script is one of the relation, with the scripts that are in the
cache in the end, whatever the stack and the limit are. -/
theorem expands_library {load : Loader} {limit room : Nat} {stack : List String}
    {script : Checked} {p p' : Progress} {c c' : Cache} {out : List Located}
    (h : (ofScript load limit room stack script).on p c = (.ok (out, p'), c')) :
    c.Grows c' ∧ Expands (c'.library load) (p.visit script) script.statements out p' := by
  induction room generalizing stack script p p' c c' out with
  | zero =>
    rw [ofScript] at h
    split at h <;> simp at h
  | succ room ih =>
    rw [ofScript] at h
    split at h
    · simp at h
    · rw [on_bind, on_modify] at h
      refine expands_ofStatements ?_ h
      intro o target q d out q' d' hq
      obtain ⟨included, q₁, d₁, hrequire, hq⟩ := on_bind_eq_ok hq
      rw [on_require] at hrequire
      split at hrequire
      · next hinclude =>
        cases hrequire
        obtain ⟨hgrows, hincluded⟩ := Cache.include?_eq_ok hinclude
        obtain ⟨hgrows', hexpands⟩ := ih hq
        exact ⟨hgrows.trans hgrows', included, hgrows'.library _ _ hincluded, hexpands⟩
      · simp at hrequire

/-- Through a faithful cache it is one with the scripts of the loader. -/
theorem expands_ofScript {load : Loader} (hl : load.Settled) {limit room : Nat}
    {stack : List String} {script : Checked} {p p' : Progress} {c c' : Cache}
    {out : List Located} (hc : c.Faithful load)
    (h : (ofScript load limit room stack script).on p c = (.ok (out, p'), c')) :
    Expands load.checked? (p.visit script) script.statements out p' := by
  have hc' := keeps_ofScript (Cache.stable_faithful hl.keyed) limit room stack script p c hc
  rw [h] at hc'
  exact (expands_library h).2.mono hc'.library

end Expansion

/-! ## Contributions -/

/-- The contribution of a script. -/
def Checked.contribution (k : Checked) : ScriptSource :=
  ⟨k.identity, k.checksum⟩

/-- In a library, a checked script is determined by its identity. -/
def SettledLibrary (library : String → Option Checked) : Prop :=
  ∀ i j k k', library i = some k → library j = some k' → k.identity = k'.identity → k = k'

namespace Progress

/-- What is noted of a script of the library is its contribution. -/
def Records (library : String → Option Checked) (p : Progress) : Prop :=
  ∀ src ∈ p.sources, ∀ i k, library i = some k → k.identity = src.identity →
    src = k.contribution

theorem records_start (library : String → Option Checked) : start.Records library := by
  intro src h
  simp [start] at h

private theorem sources_subset_visit (p : Progress) (k : Checked) :
    p.sources ⊆ (p.visit k).sources := by
  rw [visit]
  split
  · exact List.Subset.refl _
  · exact List.subset_append_left _ _

variable {library : String → Option Checked} {p : Progress} {i : String} {k : Checked}

theorem Records.visit (hl : SettledLibrary library) (hp : p.Records library)
    (hk : library i = some k) : (p.visit k).Records library := by
  rw [Progress.visit]
  split
  · exact hp
  · intro src hsrc j k' hk' hidentity
    rcases List.mem_append.1 hsrc with hsrc | hsrc
    · exact hp src hsrc j k' hk' hidentity
    · rw [List.mem_singleton] at hsrc
      subst hsrc
      rw [hl j i k' k hk' hk hidentity]
      rfl

/-- A visited script has its contribution on record. -/
theorem Records.mem_visit (hp : p.Records library) (hk : library i = some k) :
    k.contribution ∈ (p.visit k).sources := by
  rw [Progress.visit]
  split
  · next hany =>
    obtain ⟨src, hsrc, hidentity⟩ := List.any_eq_true.1 hany
    rw [beq_iff_eq] at hidentity
    exact hp src hsrc i k hk hidentity.symm ▸ hsrc
  · exact List.mem_append_right _ (List.mem_singleton.2 rfl)

end Progress

namespace Expands

variable {library library₁ library₂ : String → Option Checked}

/-- Scripts that were visited stay visited. -/
theorem sources_subset {p p' : Progress} {ss : List Statement} {out : List Located}
    (h : Expands library p ss out p') : p.sources ⊆ p'.sources := by
  induction h with
  | nil => exact List.Subset.refl _
  | directive _ ih => exact ih
  | inclusion _ _ _ ihFirst ihMore =>
    exact List.Subset.trans (Progress.sources_subset_visit _ _)
      (List.Subset.trans ihFirst ihMore)
  | define _ ih => exact ih
  | cond _ _ _ ihFirst ihMore => exact List.Subset.trans ihFirst ihMore

theorem records {p p' : Progress} {ss : List Statement} {out : List Located}
    (hl : SettledLibrary library) (h : Expands library p ss out p') (hp : p.Records library) :
    p'.Records library := by
  induction h with
  | nil => exact hp
  | directive _ ih => exact ih hp
  | inclusion hscript _ _ ihFirst ihMore => exact ihMore (ihFirst (hp.visit hl hscript))
  | define _ ih => exact ih hp
  | cond _ _ _ ihFirst ihMore => exact ihMore (ihFirst hp)

/-- What is visited on the way was asked for by an inclusion without problems. -/
theorem exists_sources_eq {p p' : Progress} {ss : List Statement} {out : List Located}
    (h : Expands library p ss out p') (hss : Statement.errorsOfAll ss = []) :
    ∃ more, p'.sources = p.sources ++ more ∧ ∀ src ∈ more, ∃ target k,
      Rules.inclusion target = [] ∧ library target = some k ∧ src = k.contribution := by
  induction h with
  | nil => exact ⟨[], by simp, by simp⟩
  | directive _ ih =>
    simp only [Statement.errorsOfAll, List.append_eq_nil_iff] at hss
    exact ih hss.2
  | @inclusion p _ _ _ target script _ _ _ hscript _ _ ihFirst ihMore =>
    simp only [Statement.errorsOfAll, Statement.errors, List.append_eq_nil_iff,
      List.map_eq_nil_iff] at hss
    obtain ⟨first, hfirst, hmemFirst⟩ := ihFirst script.errors_eq_nil
    obtain ⟨more, hmore, hmemMore⟩ := ihMore hss.2
    have hvisit : ∃ new, (p.visit script).sources = p.sources ++ new ∧
        ∀ src ∈ new, src = script.contribution := by
      rw [Progress.visit]
      split
      · exact ⟨[], by simp, by simp⟩
      · exact ⟨[script.contribution], rfl, by simp⟩
    obtain ⟨new, hnew, hmemNew⟩ := hvisit
    refine ⟨new ++ first ++ more, by rw [hmore, hfirst, hnew]; simp, ?_⟩
    intro src hsrc
    simp only [List.mem_append] at hsrc
    rcases hsrc with (hsrc | hsrc) | hsrc
    · exact ⟨target, script, hss.1, hscript, hmemNew src hsrc⟩
    · exact hmemFirst src hsrc
    · exact hmemMore src hsrc
  | define _ ih =>
    simp only [Statement.errorsOfAll, List.append_eq_nil_iff] at hss
    exact ih hss.2
  | @cond _ _ _ _ _ _ value _ _ _ _ _ _ _ _ ihFirst ihMore =>
    simp only [Statement.errorsOfAll, Statement.errors, List.append_eq_nil_iff] at hss
    obtain ⟨first, hfirst, hmemFirst⟩ := ihFirst (by split <;> simp [hss])
    obtain ⟨more, hmore, hmemMore⟩ := ihMore hss.2
    refine ⟨first ++ more, by rw [hmore, hfirst]; simp, ?_⟩
    intro src hsrc
    rcases List.mem_append.1 hsrc with hsrc | hsrc
    · exact hmemFirst src hsrc
    · exact hmemMore src hsrc

/-! ## Two libraries -/

/-- Two libraries lead to the same script wherever both of their scripts contributed. -/
def AgreeOn (library₁ library₂ : String → Option Checked) (sources : List ScriptSource) : Prop :=
  ∀ i k₁ k₂, library₁ i = some k₁ → library₂ i = some k₂ → k₁.contribution ∈ sources →
    k₂.contribution ∈ sources → k₁ = k₂

/-- Expansions of two libraries that agree on what was visited are the same. The induction is on
the first expansion; at an inclusion both scripts are on record, so they are the same. -/
theorem agree (hl₁ : SettledLibrary library₁) (hl₂ : SettledLibrary library₂)
    {sources : List ScriptSource} (hagree : AgreeOn library₁ library₂ sources)
    {p p₁ p₂ : Progress} {ss : List Statement} {out₁ out₂ : List Located}
    (h₁ : Expands library₁ p ss out₁ p₁) (h₂ : Expands library₂ p ss out₂ p₂)
    (hp₁ : p.Records library₁) (hp₂ : p.Records library₂) (hs₁ : p₁.sources ⊆ sources)
    (hs₂ : p₂.sources ⊆ sources) : out₁ = out₂ ∧ p₁ = p₂ := by
  induction h₁ generalizing out₂ p₂ with
  | nil =>
    cases h₂
    exact ⟨rfl, rfl⟩
  | directive _ ih =>
    cases h₂ with
    | directive h₂ =>
      obtain ⟨rfl, rfl⟩ := ih h₂ hp₁ hp₂ hs₁ hs₂
      exact ⟨rfl, rfl⟩
  | inclusion hscript₁ hfirst₁ hmore₁ ihFirst ihMore =>
    cases h₂ with
    | inclusion hscript₂ hfirst₂ hmore₂ =>
      have hsub₁ := List.Subset.trans hmore₁.sources_subset hs₁
      have hsub₂ := List.Subset.trans hmore₂.sources_subset hs₂
      have hmem₁ := hsub₁ (hfirst₁.sources_subset (hp₁.mem_visit hscript₁))
      have hmem₂ := hsub₂ (hfirst₂.sources_subset (hp₂.mem_visit hscript₂))
      obtain rfl := hagree _ _ _ hscript₁ hscript₂ hmem₁ hmem₂
      obtain ⟨rfl, rfl⟩ := ihFirst hfirst₂ (hp₁.visit hl₁ hscript₁) (hp₂.visit hl₂ hscript₂)
        hsub₁ hsub₂
      obtain ⟨rfl, rfl⟩ := ihMore hmore₂ (hfirst₁.records hl₁ (hp₁.visit hl₁ hscript₁))
        (hfirst₂.records hl₂ (hp₂.visit hl₂ hscript₂)) hs₁ hs₂
      exact ⟨rfl, rfl⟩
  | define _ ih =>
    cases h₂ with
    | define h₂ => exact ih h₂ hp₁ hp₂ hs₁ hs₂
  | cond hflag₁ hfirst₁ hmore₁ ihFirst ihMore =>
    cases h₂ with
    | cond hflag₂ hfirst₂ hmore₂ =>
      rw [hflag₁] at hflag₂
      cases hflag₂
      obtain ⟨rfl, rfl⟩ := ihFirst hfirst₂ hp₁ hp₂
        (List.Subset.trans hmore₁.sources_subset hs₁)
        (List.Subset.trans hmore₂.sources_subset hs₂)
      obtain ⟨rfl, rfl⟩ := ihMore hmore₂ (hfirst₁.records hl₁ hp₁) (hfirst₂.records hl₂ hp₂)
        hs₁ hs₂
      exact ⟨rfl, rfl⟩

end Expands

end Entitle
