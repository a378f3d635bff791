import Entitle.Proofs.Bundle

/-!
# Statements in a script of their own

A run of statements may be moved into a script of its own, and an inclusion of that script put in
its place. This changes nothing but origins. The inclusion is expanded where it stands, so the flags
that the run sets are there for what follows. The new script is on the stack only while the run is
expanded, and then the script that the run was taken from is there too, so every cycle that is found
was one before. Only the nesting is one deeper, which may be more than the limit allows.

## Main definitions

* `Statement.Rewritten`: statements in which runs were replaced by inclusions.
* `Checked.Edited`, `Extraction`: a script, and a library, from which a run was moved.
* `Expansion.Agrees`: the same directives, and the same actions, wherever they were written.
* `Expanding.Follows`: a computation goes as another one goes that succeeds.

## Main statements

* `Expansion.follows_ofStatements`: rewritten statements go as the statements before.
* `Expansion.follows_script`: so does entering a script with rewritten statements.
* `Extraction.follows_ofScript`: after the edit every script that is entered goes as before.
* `Extraction.agrees_ofChecked`: moving statements into a script of their own keeps the plan.
-/
namespace Entitle

/-! ## Rewritten statements -/

namespace Statement

/-- Statements of which runs were replaced by inclusions. Which runs may be replaced by which
inclusions is given by `moved`; all other statements stay, but may have other origins. -/
inductive Rewritten (moved : List Statement → String → Prop) :
    List Statement → List Statement → Prop
  | nil : Rewritten moved [] []
  | directive {o o' : Origin} {d : Directive} {rest rest' : List Statement}
      (h : Rewritten moved rest rest') :
      Rewritten moved (.directive o d :: rest) (.directive o' d :: rest')
  | inclusion {o o' : Origin} {target : String} {rest rest' : List Statement}
      (h : Rewritten moved rest rest') :
      Rewritten moved (.inclusion o target :: rest) (.inclusion o' target :: rest')
  | define {o o' : Origin} {flag : String} {value : Bool} {rest rest' : List Statement}
      (h : Rewritten moved rest rest') :
      Rewritten moved (.define o flag value :: rest) (.define o' flag value :: rest')
  | cond {o o' : Origin} {flag : String} {negated : Bool}
      {thenBranch thenBranch' elseBranch elseBranch' rest rest' : List Statement}
      (hthen : Rewritten moved thenBranch thenBranch')
      (helse : Rewritten moved elseBranch elseBranch') (h : Rewritten moved rest rest') :
      Rewritten moved (.cond o flag negated thenBranch elseBranch :: rest)
        (.cond o' flag negated thenBranch' elseBranch' :: rest')
  | moved {o : Origin} {target : String} {run rest rest' : List Statement}
      (hrun : moved run target) (h : Rewritten moved rest rest') :
      Rewritten moved (run ++ rest) (.inclusion o target :: rest')

/-- The same statements, which may have other origins. -/
def Same : List Statement → List Statement → Prop :=
  Rewritten fun _ _ => False

namespace Rewritten

variable {moved : List Statement → String → Prop}

theorem refl : ∀ ss : List Statement, Rewritten moved ss ss
  | [] => .nil
  | .directive _ _ :: rest => .directive (refl rest)
  | .inclusion _ _ :: rest => .inclusion (refl rest)
  | .define _ _ _ :: rest => .define (refl rest)
  | .cond _ _ _ thenBranch elseBranch :: rest =>
    .cond (refl thenBranch) (refl elseBranch) (refl rest)

theorem append {ss ss' more more' : List Statement} (h : Rewritten moved ss ss')
    (hmore : Rewritten moved more more') : Rewritten moved (ss ++ more) (ss' ++ more') := by
  induction h with
  | nil => exact hmore
  | directive _ ih => exact .directive ih
  | inclusion _ ih => exact .inclusion ih
  | define _ ih => exact .define ih
  | cond hthen helse _ _ _ ih => exact .cond hthen helse ih
  | moved hrun _ ih =>
    rw [List.append_assoc]
    exact .moved hrun ih

/-- One run is replaced by an inclusion. -/
theorem extract (before run after : List Statement) (o : Origin) {target : String}
    (hrun : moved run target) :
    Rewritten moved (before ++ (run ++ after)) (before ++ .inclusion o target :: after) :=
  (refl before).append (.moved hrun (refl after))

end Rewritten

end Statement

/-- Through a faithful cache an inclusion is given the script that it leads to. -/
theorem Cache.Faithful.include?_of_checked? {load : Loader} {c : Cache} (hc : c.Faithful load)
    {target : String} {k : Checked} (h : load.checked? target = some k) :
    (c.include? load target).1 = .ok k := by
  obtain ⟨s, hs, hcheck⟩ := Loader.checked?_eq_some h
  have hresult := (hc.check_eq hs).trans hcheck
  simp only [Cache.include?, hs]
  generalize c.check s = checked at hresult ⊢
  obtain ⟨result, c'⟩ := checked
  obtain rfl : result = .ok k := hresult
  rfl

/-! ## Following computations -/

@[simp] theorem Progress.flags_visit (p : Progress) (s : Checked) :
    (p.visit s).flags = p.flags := by
  rw [visit]
  split <;> rfl

namespace Expanding

/-- Whenever the first computation succeeds, the second one does from the same flags, with the same
directives, and sets the same flags. Only if there is no `ample` room for it, it may exceed the
limit instead. Faithful caches stay faithful. -/
structure Follows (load load' : Loader) (limit : Nat) (ample : Prop)
    (m m' : Expanding (List Located)) : Prop where
  on : ∀ {p p' q : Progress} {c c' d : Cache} {out : List Located}, c.Faithful load →
    d.Faithful load' → q.flags = p.flags → m.on p c = (.ok (out, p'), c') →
    c'.Faithful load ∧ (m'.on q d).2.Faithful load' ∧
      ((∃ out' q', (m'.on q d).1 = .ok (out', q') ∧ q'.flags = p'.flags ∧
          out'.map (·.directive) = out.map (·.directive)) ∨
        ¬ ample ∧ ∃ chain, (m'.on q d).1 = .error (.depthExceeded limit chain))

variable {load load' : Loader} {limit : Nat} {ample : Prop} {m m' n n' : Expanding (List Located)}

theorem follows_pure {out out' : List Located}
    (h : out'.map (·.directive) = out.map (·.directive)) :
    Follows load load' limit ample (pure out) (pure out') := by
  refine ⟨fun {p p' q c c' d out₁} hc hd hflags hm => ?_⟩
  cases hm
  exact ⟨hc, hd, .inl ⟨out', q, rfl, hflags, h⟩⟩

theorem follows_throw (e : ResolutionError) : Follows load load' limit ample (throw e) m' := by
  refine ⟨fun {p p' q c c' d out} hc hd hflags hm => ?_⟩
  cases hm

/-- The limit may be exceeded only if there is no ample room. -/
theorem follows_exceeded (hm : m.Keeps (Cache.Faithful load)) (hample : ¬ ample)
    (chain : List String) :
    Follows load load' limit ample m (throw (.depthExceeded limit chain)) := by
  refine ⟨fun {p p' q c c' d out} hc hd hflags h => ?_⟩
  have hc' := hm p c hc
  rw [h] at hc'
  exact ⟨hc', hd, .inr ⟨hample, chain, rfl⟩⟩

/-- Two parts that follow two others give their directives one after the other. -/
theorem Follows.append (hm : Follows load load' limit ample m m')
    (hn : Follows load load' limit ample n n') :
    Follows load load' limit ample (do let a ← m; let b ← n; pure (a ++ b))
      (do let a ← m'; let b ← n'; pure (a ++ b)) := by
  refine ⟨fun {p p' q c c' d out} hc hd hflags h => ?_⟩
  obtain ⟨first, p₁, c₁, hfirst, h⟩ := on_bind_eq_ok h
  obtain ⟨more, p₂, c₂, hmore, h⟩ := on_bind_eq_ok h
  cases h
  obtain ⟨hc₁, hd₁, hfirst'⟩ := hm.on hc hd hflags hfirst
  rw [on_bind]
  generalize m'.on q d = r₁ at hd₁ hfirst' ⊢
  obtain ⟨r₁, d₁⟩ := r₁
  obtain ⟨first', q₁, rfl, hflags₁, hdirectives₁⟩ | ⟨hample, chain, rfl⟩ := hfirst'
  · obtain ⟨hc₂, hd₂, hmore'⟩ := hn.on hc₁ hd₁ hflags₁ hmore
    simp only [on_bind]
    generalize n'.on q₁ d₁ = r₂ at hd₂ hmore' ⊢
    obtain ⟨r₂, d₂⟩ := r₂
    obtain ⟨more', q₂, rfl, hflags₂, hdirectives₂⟩ | ⟨hample, chain, rfl⟩ := hmore'
    · refine ⟨hc₂, hd₂, .inl ⟨_, q₂, rfl, hflags₂, ?_⟩⟩
      rw [List.map_append, List.map_append, hdirectives₁, hdirectives₂]
    · exact ⟨hc₂, hd₂, .inr ⟨hample, chain, rfl⟩⟩
  · exact ⟨(hn.on hc₁ hd₁ rfl hmore).1, hd₁, .inr ⟨hample, chain, rfl⟩⟩

/-- Both set flags in the same way. -/
theorem Follows.define (flag : String) (value : Bool) :
    Follows load load' limit ample (do modify (·.define flag value); pure [])
      (do modify (·.define flag value); pure []) := by
  refine ⟨fun {p p' q c c' d out} hc hd hflags hm => ?_⟩
  cases hm
  exact ⟨hc, hd, .inl ⟨[], q.define flag value, rfl, by simp [Progress.define, hflags], rfl⟩⟩

/-- Both go on with the same flags. -/
theorem follows_get {f f' : Progress → Expanding (List Located)}
    (h : ∀ p q : Progress, q.flags = p.flags → Follows load load' limit ample (f p) (f' q)) :
    Follows load load' limit ample (get >>= f) (get >>= f') := by
  refine ⟨fun {p p' q c c' d out} hc hd hflags hm => ?_⟩
  rw [on_bind, on_get] at hm ⊢
  exact (h p q hflags).on hc hd hflags hm

/-- A visit on the one side. -/
theorem Follows.visit_left (h : Follows load load' limit ample m m') (s : Checked) :
    Follows load load' limit ample (modify (·.visit s) >>= fun _ => m) m' := by
  refine ⟨fun {p p' q c c' d out} hc hd hflags hm => ?_⟩
  rw [on_bind, on_modify] at hm
  exact h.on hc hd (by rw [hflags, Progress.flags_visit]) hm

/-- A visit on the other side. -/
theorem Follows.visit_right (h : Follows load load' limit ample m m') (s : Checked) :
    Follows load load' limit ample m (modify (·.visit s) >>= fun _ => m') := by
  refine ⟨fun {p p' q c c' d out} hc hd hflags hm => ?_⟩
  rw [on_bind, on_modify]
  exact h.on hc hd (by rw [Progress.flags_visit, hflags]) hm

/-- An inclusion on the one side, of whatever script it leads to. -/
theorem Follows.require_left (hload : load.Keyed) {o : Origin} {target : String}
    {f : Checked → Expanding (List Located)}
    (h : ∀ k, load.checked? target = some k → Follows load load' limit ample (f k) m') :
    Follows load load' limit ample (Expansion.require load o target >>= f) m' := by
  refine ⟨fun {p p' q c c' d out} hc hd hflags hm => ?_⟩
  obtain ⟨k, p₁, c₁, hrequire, hm⟩ := on_bind_eq_ok hm
  have hc₁ := (Cache.stable_faithful hload).include? hc target
  rw [Expansion.on_require] at hrequire
  split at hrequire
  · next hinclude =>
    cases hrequire
    rw [hinclude] at hc₁
    exact (h k (hc₁.library _ _ (Cache.include?_eq_ok hinclude).2)).on hc₁ hd hflags hm
  · simp at hrequire

/-- An inclusion on the other side that leads to a script. -/
theorem Follows.require_right (hload' : load'.Keyed) {o : Origin} {target : String} {k : Checked}
    (hk : load'.checked? target = some k) {f : Checked → Expanding (List Located)}
    (h : Follows load load' limit ample m (f k)) :
    Follows load load' limit ample m (Expansion.require load' o target >>= f) := by
  refine ⟨fun {p p' q c c' d out} hc hd hflags hm => ?_⟩
  have hd₁ := (Cache.stable_faithful hload').include? hd target
  have hinclude := hd.include?_of_checked? hk
  rw [on_bind, Expansion.on_require]
  generalize d.include? load' target = included at hd₁ hinclude ⊢
  obtain ⟨result, d₁⟩ := included
  obtain rfl : result = .ok k := hinclude
  exact h.on hc hd₁ hflags hm

end Expanding

/-! ## Statements -/

namespace Expansion

open Expanding

private theorem ofStatements_append (enter : Origin → String → Expanding (List Located))
    (ss more : List Statement) : ofStatements enter (ss ++ more) = (do
      let first ← ofStatements enter ss
      let further ← ofStatements enter more
      pure (first ++ further)) := by
  induction ss with
  | nil => simp [ofStatements]
  | cons s rest ih =>
    simp only [List.cons_append, ofStatements, ih, bind_assoc, pure_bind, List.append_assoc]

/-- Rewritten statements go as the statements before, if what is entered does, and every inclusion
that replaces a run goes as the run. The induction is on the rewriting, so a run that was replaced
is met as a whole. -/
theorem follows_ofStatements {load load' : Loader} {limit : Nat} {ample : Prop}
    {enter enter' : Origin → String → Expanding (List Located)}
    {moved : List Statement → String → Prop}
    (henter : ∀ o o' target,
      Follows load load' limit ample (enter o target) (enter' o' target))
    (hmoved : ∀ run target o, moved run target →
      Follows load load' limit ample (ofStatements enter run) (enter' o target))
    {ss ss' : List Statement} (h : Statement.Rewritten moved ss ss') :
    Follows load load' limit ample (ofStatements enter ss) (ofStatements enter' ss') := by
  induction h with
  | nil => exact follows_pure rfl
  | directive _ ih =>
    rw [ofStatements, ofStatements]
    exact .append (follows_pure rfl) ih
  | inclusion _ ih =>
    rw [ofStatements, ofStatements]
    exact .append (henter _ _ _) ih
  | define _ ih =>
    rw [ofStatements, ofStatements]
    exact .append (.define _ _) ih
  | cond _ _ _ ihThen ihElse ih =>
    rw [ofStatements, ofStatements]
    refine .append (follows_get fun p q hflags => ?_) ih
    rw [hflags]
    split
    · exact follows_throw _
    · split
      · exact ihThen
      · exact ihElse
  | moved hrun _ ih =>
    rw [ofStatements_append, ofStatements]
    exact .append (hmoved _ _ _ hrun) ih

/-- Enter the script that an inclusion in the innermost script of the stack leads to. -/
def entering (load : Loader) (limit room : Nat) (stack : List String) (o : Origin)
    (target : String) : Expanding (List Located) :=
  require load o target >>= ofScript load limit room stack

/-- A script that is on the stack already is a cycle, whether there is room or not. -/
theorem ofScript_of_mem {load : Loader} {limit room : Nat} {stack : List String}
    {script : Checked} (h : script.identity ∈ stack) : ofScript load limit room stack script =
      throw (.cycle (stack.dropWhile (· != script.identity) ++ [script.identity])) := by
  cases room <;> rw [ofScript, if_pos (by simpa using h)]

/-- A script that is not on the stack is not entered if there is no room. -/
theorem ofScript_of_full {load : Loader} {limit : Nat} {stack : List String} {script : Checked}
    (h : script.identity ∉ stack) : ofScript load limit 0 stack script =
      throw (.depthExceeded limit (stack ++ [script.identity])) := by
  rw [ofScript, if_neg (by simpa using h)]

/-- What entering a script that is not on the stack comes down to. -/
theorem ofScript_of_notMem {load : Loader} {limit room : Nat} {stack : List String}
    {script : Checked} (h : script.identity ∉ stack) :
    ofScript load limit (room + 1) stack script = modify (·.visit script) >>= fun _ =>
      ofStatements (entering load limit room (stack ++ [script.identity])) script.statements := by
  rw [ofScript, if_neg (by simpa using h)]
  rfl

/-- Entering a script that is not on the stack goes as statements of which its own are a rewriting,
unless there is no room. -/
theorem follows_script {load load' : Loader} {limit room : Nat} {ample : Prop}
    {enter : Origin → String → Expanding (List Located)}
    {moved : List Statement → String → Prop} {stack : List String} {script : Checked}
    {ss : List Statement} (hmem : script.identity ∉ stack)
    (hkeeps : ∀ o target, (enter o target).Keeps (Cache.Faithful load))
    (hss : Statement.Rewritten moved ss script.statements) (hroom : ample → 0 < room)
    (henter : ∀ below, room = below + 1 → ∀ o o' target,
      Follows load load' limit ample (enter o target)
        (entering load' limit below (stack ++ [script.identity]) o' target))
    (hmoved : ∀ below, room = below + 1 → ∀ run target o, moved run target →
      Follows load load' limit ample (ofStatements enter run)
        (entering load' limit below (stack ++ [script.identity]) o target)) :
    Follows load load' limit ample (ofStatements enter ss)
      (ofScript load' limit room stack script) := by
  cases room with
  | zero =>
    rw [ofScript_of_full hmem]
    exact follows_exceeded (keeps_ofStatements hkeeps ss) (fun h => Nat.lt_irrefl 0 (hroom h)) _
  | succ room =>
    rw [ofScript_of_notMem hmem]
    exact .visit_right (follows_ofStatements (henter room rfl) (hmoved room rfl) hss) script

end Expansion

/-! ## Extractions -/

/-- A script after the edit: in the script `host`, runs of statements that are those of `fresh` were
replaced by inclusions of `target`. -/
structure Checked.Edited (host target : String) (fresh k k' : Checked) : Prop where
  identity : k'.identity = k.identity
  statements : Statement.Rewritten
    (fun run i => k.identity = host ∧ i = target ∧ Statement.Same run fresh.statements)
    k.statements k'.statements

/-- A library after the edit. The script `fresh` is new, and `target` leads to it. -/
structure Extraction (host target : String) (fresh : Checked)
    (library library' : String → Option Checked) : Prop where
  edited : ∀ {i k}, library i = some k →
    ∃ k', library' i = some k' ∧ Checked.Edited host target fresh k k'
  leads : library' target = some fresh
  new : ∀ {i k}, library i = some k → k.identity ≠ fresh.identity

/-- The scripts that are entered one inside another, without and with the edit. -/
structure Nested (host fresh : String) (stack stack' : List String) : Prop where
  mem : ∀ i ∈ stack', i ∈ stack ∨ i = fresh
  host_mem : fresh ∈ stack' → host ∈ stack

namespace Nested

theorem nil {host fresh : String} : Nested host fresh [] [] where
  mem := by simp
  host_mem := by simp

variable {host fresh : String} {stack stack' : List String} (h : Nested host fresh stack stack')
include h

theorem notMem {i : String} (hi : i ∉ stack) (hne : i ≠ fresh) : i ∉ stack' :=
  fun hmem => (h.mem i hmem).elim hi hne

/-- Another script is entered on both sides. -/
theorem concat {i : String} (hne : i ≠ fresh) :
    Nested host fresh (stack ++ [i]) (stack' ++ [i]) where
  mem := by
    intro j hj
    obtain hj | hj := List.mem_append.1 hj
    · exact (h.mem j hj).imp_left (List.mem_append_left _)
    · exact .inl (List.mem_append_right _ hj)
  host_mem := by
    intro hmem
    obtain hmem | hmem := List.mem_append.1 hmem
    · exact List.mem_append_left _ (h.host_mem hmem)
    · exact absurd (List.mem_singleton.1 hmem).symm hne

/-- The new script is entered from its host. -/
theorem enter (hhost : host ∈ stack) : Nested host fresh stack (stack' ++ [fresh]) where
  mem := by
    intro j hj
    obtain hj | hj := List.mem_append.1 hj
    · exact h.mem j hj
    · exact .inr (List.mem_singleton.1 hj)
  host_mem := fun _ => hhost

end Nested

namespace Extraction

open Expansion Expanding

variable {host target : String} {fresh : Checked} {load load' : Loader}
  (h : Extraction host target fresh load.checked? load'.checked?)
  (hload : load.Keyed) (hload' : load'.Keyed)
include h hload hload'

/-- Every script that is entered goes as before. There is ample room if there is room for one more
script, or if the new script was entered already. The induction is on the room without the edit. -/
theorem follows_ofScript {limit limit' : Nat} {ample : Prop} {room room' : Nat}
    {stack stack' : List String} {k k' : Checked} (hk : Checked.Edited host target fresh k k')
    (hne : k.identity ≠ fresh.identity) (hstack : Nested host fresh.identity stack stack')
    (hroom : ample → room < room' ∨ fresh.identity ∈ stack' ∧ room ≤ room') :
    Follows load load' limit' ample (ofScript load limit room stack k)
      (ofScript load' limit' room' stack' k') := by
  have hI := Cache.stable_faithful hload
  induction room generalizing room' stack stack' k k' with
  | zero =>
    rw [ofScript]
    split <;> exact follows_throw _
  | succ room ih =>
    by_cases hmem : k.identity ∈ stack
    · rw [ofScript_of_mem hmem]
      exact follows_throw _
    have hmem' : k'.identity ∉ stack' := hk.identity ▸ hstack.notMem hmem hne
    have hbelow : Nested host fresh.identity (stack ++ [k.identity]) (stack' ++ [k'.identity]) := by
      rw [hk.identity]
      exact hstack.concat hne
    have hkeeps : ∀ o i, (entering load limit room (stack ++ [k.identity]) o i).Keeps
        (Cache.Faithful load) := fun o i =>
      keeps_bind (keeps_require hI o i) fun _ => keeps_ofScript hI _ _ _ _
    -- what is included is entered as before, wherever the inclusion is
    have henter : ∀ {room'' stack''}, Nested host fresh.identity (stack ++ [k.identity]) stack'' →
        (ample → room < room'' ∨ fresh.identity ∈ stack'' ∧ room ≤ room'') → ∀ o o' i,
        Follows load load' limit' ample (entering load limit room (stack ++ [k.identity]) o i)
          (entering load' limit' room'' stack'' o' i) := by
      intro room'' stack'' hstack'' hroom'' o o' i
      refine .require_left hload fun included hincluded => ?_
      obtain ⟨included', hincluded', hedited⟩ := h.edited hincluded
      exact .require_right hload' hincluded' (ih hedited (h.new hincluded) hstack'' hroom'')
    rw [ofScript_of_notMem hmem]
    refine .visit_left (follows_script hmem' hkeeps hk.statements (fun hample => ?_) ?_ ?_) k
    · have := hroom hample
      omega
    · rintro room' rfl
      exact henter hbelow fun hample => (hroom hample).imp Nat.lt_of_succ_lt_succ
        (And.imp (List.mem_append_left _) Nat.le_of_succ_le_succ)
    · rintro room' rfl run i o ⟨rfl, rfl, hrun⟩
      -- the host was not on the stack, so the new script is not entered yet
      have hfresh : fresh.identity ∉ stack' := fun hfresh => hmem (hstack.host_mem hfresh)
      have hfresh' : fresh.identity ∉ stack' ++ [k'.identity] := by
        simpa [hfresh, hk.identity] using hne.symm
      have hdeeper : ample → room < room' := fun hample =>
        Nat.lt_of_succ_lt_succ ((hroom hample).resolve_right fun h => hfresh h.1)
      refine .require_right hload' h.leads (follows_script hfresh' hkeeps hrun
        (fun hample => Nat.zero_lt_of_lt (hdeeper hample)) ?_ fun _ _ _ _ _ h => h.elim)
      rintro room' rfl
      exact henter (hbelow.enter (by simp)) fun hample =>
        .inr ⟨by simp, Nat.le_of_lt_succ (hdeeper hample)⟩

end Extraction

/-! ## The plan -/

/-- The actions of a plan depend on the directives, and not on where they are written. -/
theorem Plan.actions_ofExpansion (e : Expansion) :
    let directives := e.directives.map (·.directive)
    (ofExpansion e).actions.map (·.action) =
      directives.map (Action.ofDirective (directives.filterMap Directive.grant?)) := by
  simp [ofExpansion, Expansion.grants, List.filterMap_map, Function.comp_def]

/-- Two expansions of a script have the same directives, and their plans the same actions, wherever
they are written. -/
structure Expansion.Agrees (e e' : Expansion) : Prop where
  identity : e'.identity = e.identity
  directives : e'.directives.map (·.directive) = e.directives.map (·.directive)
  actions : (Plan.ofExpansion e').actions.map (·.action) =
    (Plan.ofExpansion e).actions.map (·.action)

namespace Extraction

open Expansion

variable {host target : String} {fresh root root' : Checked} {load load' : Loader} {c c' : Cache}
  {e : Expansion}

/-- An expansion that succeeds agrees with the one after the edit. Only if that one is not allowed
to go one deeper, it may exceed its limit. -/
theorem follows_ofChecked (h : Extraction host target fresh load.checked? load'.checked?)
    (hload : load.Keyed) (hload' : load'.Keyed)
    (hroot : Checked.Edited host target fresh root root') (hne : root.identity ≠ fresh.identity)
    (hc : c.Faithful load) (hc' : c'.Faithful load')
    {limit limit' : Nat} (he : (ofChecked load limit root c).1 = .ok e) :
    (∃ e', (ofChecked load' limit' root' c').1 = .ok e' ∧ e.Agrees e') ∨
      ¬ limit < limit' ∧
        ∃ chain, (ofChecked load' limit' root' c').1 = .error (.depthExceeded limit' chain) := by
  obtain ⟨p, d, hon, hidentity, -⟩ := ofChecked_eq_ok he
  have hfollows : Expanding.Follows load load' limit' (limit < limit')
      (ofScript load limit (limit + 1) [] root) (ofScript load' limit' (limit' + 1) [] root') :=
    h.follows_ofScript hload hload' hroot hne .nil fun hlt => .inl (Nat.succ_lt_succ hlt)
  rw [ofChecked_eq]
  obtain ⟨-, -, ⟨out, q, hresult, -, hdirectives⟩ | ⟨hlimit, chain, hresult⟩⟩ :=
    hfollows.on (q := .start) hc hc' rfl hon
  · refine .inl ⟨⟨root'.identity, out, q.sources⟩, by rw [hresult]; rfl, ?_, hdirectives, ?_⟩
    · rw [hroot.identity, hidentity]
    · rw [Plan.actions_ofExpansion, Plan.actions_ofExpansion, hdirectives]
  · exact .inr ⟨hlimit, chain, by rw [hresult]; rfl⟩

/-- Moving a run of statements into a script of its own keeps the plan. If the expansion of a script
succeeds, then with the same limit the one after the edit has the same directives, and its plan the
same actions, or it exceeds the limit; and if it is allowed to go one deeper, it always has them. -/
theorem agrees_ofChecked (h : Extraction host target fresh load.checked? load'.checked?)
    (hload : load.Keyed) (hload' : load'.Keyed)
    (hroot : Checked.Edited host target fresh root root') (hne : root.identity ≠ fresh.identity)
    (hc : c.Faithful load) (hc' : c'.Faithful load')
    {limit : Nat} (he : (ofChecked load limit root c).1 = .ok e) :
    ((∃ e', (ofChecked load' limit root' c').1 = .ok e' ∧ e.Agrees e') ∨
        ∃ chain, (ofChecked load' limit root' c').1 = .error (.depthExceeded limit chain)) ∧
      ∃ e', (ofChecked load' (limit + 1) root' c').1 = .ok e' ∧ e.Agrees e' :=
  ⟨(h.follows_ofChecked hload hload' hroot hne hc hc' he).imp_right And.right,
    (h.follows_ofChecked hload hload' hroot hne hc hc' he).resolve_right
      fun hdeeper => hdeeper.1 (Nat.lt_succ_self limit)⟩

end Extraction

/-! ## An edit of a shelf -/

namespace Statement

mutual

/-- Are the statements equal? -/
def beq : Statement → Statement → Bool
  | directive o d, directive o' d' => o == o' && d == d'
  | inclusion o target, inclusion o' target' => o == o' && target == target'
  | define o flag value, define o' flag' value' => o == o' && flag == flag' && value == value'
  | cond o flag negated thenBranch elseBranch, cond o' flag' negated' thenBranch' elseBranch' =>
    o == o' && flag == flag' && negated == negated' && beqAll thenBranch thenBranch' &&
      beqAll elseBranch elseBranch'
  | _, _ => false

/-- Are the lists of statements equal? -/
def beqAll : List Statement → List Statement → Bool
  | [], [] => true
  | s :: rest, s' :: rest' => beq s s' && beqAll rest rest'
  | _, _ => false

end

mutual

private theorem eq_of_beq : ∀ {s s' : Statement}, s.beq s' = true → s = s'
  | directive _ _, directive _ _, h => by simp_all [beq]
  | inclusion _ _, inclusion _ _, h => by simp_all [beq]
  | define _ _ _, define _ _ _, h => by simp_all [beq]
  | cond _ _ _ _ _, cond _ _ _ _ _, h => by
    simp only [beq, Bool.and_eq_true, beq_iff_eq] at h
    rw [h.1.1.1.1, h.1.1.1.2, h.1.1.2, eq_of_beqAll h.1.2, eq_of_beqAll h.2]

theorem eq_of_beqAll : ∀ {ss ss' : List Statement}, beqAll ss ss' = true → ss = ss'
  | [], [], _ => rfl
  | _ :: _, _ :: _, h => by
    simp only [beqAll, Bool.and_eq_true] at h
    rw [eq_of_beq h.1, eq_of_beqAll h.2]

end

end Statement

namespace Shelf

/-- What an identifier leads to depends on the identity that it stands for. -/
theorem checked?_of_identity (s : Shelf) {i j identity : String}
    (hi : Identity.ofIdentifier? i = some identity)
    (hj : Identity.ofIdentifier? j = some identity) :
    s.load.checked? i = s.load.checked? j := by
  simp only [Loader.checked?, load, hi, hj]
  cases s.texts.get? identity <;> rfl

/-- A script is on the shelf with given statements if that can be computed. -/
theorem exists_checked {s : Shelf} {identity : String} {ss : List Statement}
    (h : (s.load.checked? identity).any
      (fun k => k.identity == identity && Statement.beqAll k.statements ss) = true) :
    ∃ k, s.load.checked? identity = some k ∧ k.identity = identity ∧ k.statements = ss := by
  cases hk : s.load.checked? identity with
  | none => simp [hk] at h
  | some k =>
    simp only [hk, Option.any_some, Bool.and_eq_true, beq_iff_eq] at h
    exact ⟨k, rfl, h.1, Statement.eq_of_beqAll h.2⟩

/-- A script that is included twice. The first time a flag is set. -/
def twice : Shelf := .ofList [
  ("main", "define f = true;\ninclude \"part\";\ninclude \"part\";\n"),
  ("part", "if f \x7b\n  create group \"g\";\n  define f = false;\n\x7d\ncreate user \"u\";\n")]

/-- The branch is in a script of its own. -/
def twiceMoved : Shelf := .ofList [
  ("main", "define f = true;\ninclude \"part\";\ninclude \"part\";\n"),
  ("part", "if f \x7b\n  include \"moved\";\n\x7d\ncreate user \"u\";\n"),
  ("moved", "create group \"g\";\ndefine f = false;\n")]

/-- The script that includes the other one is the same on both shelves. -/
theorem exists_main : (∃ k, twice.load.checked? "main" = some k ∧ k.identity = "main" ∧
      k.statements = [.define ⟨"main", 1, 1⟩ "f" true, .inclusion ⟨"main", 2, 1⟩ "part",
        .inclusion ⟨"main", 3, 1⟩ "part"]) ∧
    ∃ k, twiceMoved.load.checked? "main" = some k ∧ k.identity = "main" ∧
      k.statements = [.define ⟨"main", 1, 1⟩ "f" true, .inclusion ⟨"main", 2, 1⟩ "part",
        .inclusion ⟨"main", 3, 1⟩ "part"] :=
  ⟨exists_checked (by decide +kernel), exists_checked (by decide +kernel)⟩

/-- The other one is edited, and a new script is there. -/
theorem exists_part : (∃ k, twice.load.checked? "part" = some k ∧ k.identity = "part" ∧
      k.statements = [.cond ⟨"part", 1, 1⟩ "f" false
          [.directive ⟨"part", 2, 3⟩ (.create .group "g" none),
            .define ⟨"part", 3, 3⟩ "f" false] [],
        .directive ⟨"part", 5, 1⟩ (.create .user "u" none)]) ∧
    (∃ k, twiceMoved.load.checked? "part" = some k ∧ k.identity = "part" ∧
      k.statements = [.cond ⟨"part", 1, 1⟩ "f" false [.inclusion ⟨"part", 2, 3⟩ "moved"] [],
        .directive ⟨"part", 4, 1⟩ (.create .user "u" none)]) ∧
    ∃ k, twiceMoved.load.checked? "moved" = some k ∧ k.identity = "moved" ∧
      k.statements = [.directive ⟨"moved", 1, 1⟩ (.create .group "g" none),
        .define ⟨"moved", 2, 1⟩ "f" false] :=
  ⟨exists_checked (by decide +kernel), exists_checked (by decide +kernel),
    exists_checked (by decide +kernel)⟩

/-- Both shelves are asked for these two scripts. -/
theorem identity_of_twice {i : String} {k : Checked} (h : twice.load.checked? i = some k) :
    (k.identity = "main" ∨ k.identity = "part") ∧ twice.load.checked? k.identity = some k ∧
      twiceMoved.load.checked? k.identity = twiceMoved.load.checked? i := by
  obtain ⟨text, hi, htext, -, -⟩ := checked?_eq_some h
  have hentries : twice.texts.entries.map (·.1) = ["main", "part"] := by decide +kernel
  have hmem := List.mem_map_of_mem (f := (·.1)) (Table.get?_eq_some_iff.1 htext)
  rw [hentries] at hmem
  have hidentity : k.identity = "main" ∨ k.identity = "part" := by simpa using hmem
  have hself : Identity.ofIdentifier? k.identity = some k.identity := by
    obtain hk | hk := hidentity <;> rw [hk] <;> decide +kernel
  exact ⟨hidentity, (checked?_of_identity _ hself hi).trans h, checked?_of_identity _ hself hi⟩

end Shelf

/-- With the limit that was enough before, the new script is too deep; one deeper, everything is as
it was. -/
theorem Extraction.agrees_ofChecked_twice : ∃ root root' e e',
    Shelf.twice.load.checked? "main" = some root ∧
      Shelf.twiceMoved.load.checked? "main" = some root' ∧
      (Expansion.ofChecked Shelf.twice.load 1 root .empty).1 = .ok e ∧
      (Expansion.ofChecked Shelf.twiceMoved.load 1 root' .empty).1 =
        .error (.depthExceeded 1 ["main", "part", "moved"]) ∧
      (Expansion.ofChecked Shelf.twiceMoved.load 2 root' .empty).1 = .ok e' ∧ e.Agrees e' := by
  obtain ⟨⟨main, hmain, hmainIdentity, hmainStatements⟩,
    main', hmain', hmainIdentity', hmainStatements'⟩ := Shelf.exists_main
  obtain ⟨⟨part, hpart, hpartIdentity, hpartStatements⟩,
    ⟨part', hpart', hpartIdentity', hpartStatements'⟩,
    fresh, hfresh, hfreshIdentity, hfreshStatements⟩ := Shelf.exists_part
  have heditedMain : Checked.Edited "part" "moved" fresh main main' :=
    ⟨hmainIdentity'.trans hmainIdentity.symm, by
      rw [hmainStatements, hmainStatements']
      exact .refl _⟩
  have heditedPart : Checked.Edited "part" "moved" fresh part part' := by
    refine ⟨hpartIdentity'.trans hpartIdentity.symm, ?_⟩
    rw [hpartStatements, hpartStatements', hfreshStatements]
    exact .cond (.extract [] [_, _] [] _ ⟨hpartIdentity, rfl, .directive (.define .nil)⟩) .nil
      (.directive .nil)
  have hextraction : Extraction "part" "moved" fresh Shelf.twice.load.checked?
      Shelf.twiceMoved.load.checked? := by
    refine ⟨fun {i k} hk => ?_, hfresh, fun {i k} hk => ?_⟩
    · obtain ⟨hidentity | hidentity, hself, hsame⟩ := Shelf.identity_of_twice hk
      · rw [hidentity, hmain] at hself
        cases hself
        exact ⟨main', by rw [← hsame, hidentity, hmain'], heditedMain⟩
      · rw [hidentity, hpart] at hself
        cases hself
        exact ⟨part', by rw [← hsame, hidentity, hpart'], heditedPart⟩
    · obtain ⟨hidentity | hidentity, -⟩ := Shelf.identity_of_twice hk
      · rw [hidentity, hfreshIdentity]
        decide
      · rw [hidentity, hfreshIdentity]
        decide
  obtain ⟨e, he⟩ : ∃ e, (Expansion.ofChecked Shelf.twice.load 1 main .empty).1 = .ok e := by
    have hevaluated : ((Shelf.twice.load.checked? "main").any fun k =>
        (Expansion.ofChecked Shelf.twice.load 1 k .empty).1.isOk) = true := by decide +kernel
    rw [hmain, Option.any_some] at hevaluated
    cases he : (Expansion.ofChecked Shelf.twice.load 1 main .empty).1 with
    | error e => simp [he, Except.isOk, Except.toBool] at hevaluated
    | ok e => exact ⟨e, rfl⟩
  have hexceeded : (Expansion.ofChecked Shelf.twiceMoved.load 1 main' .empty).1 =
      .error (.depthExceeded 1 ["main", "part", "moved"]) := by
    have hevaluated : ((Shelf.twiceMoved.load.checked? "main").any fun k =>
        decide ((Expansion.ofChecked Shelf.twiceMoved.load 1 k .empty).1 =
          .error (.depthExceeded 1 ["main", "part", "moved"]))) = true := by decide +kernel
    rwa [hmain', Option.any_some, decide_eq_true_iff] at hevaluated
  obtain ⟨-, e', he', hagrees⟩ := hextraction.agrees_ofChecked Shelf.twice.settled_load.keyed
    Shelf.twiceMoved.settled_load.keyed heditedMain (by rw [hmainIdentity, hfreshIdentity]; decide)
    (Cache.faithful_empty _) (Cache.faithful_empty _) he
  exact ⟨main, main', e, e', hmain, hmain', he, hexceeded, he', hagrees⟩

end Entitle
