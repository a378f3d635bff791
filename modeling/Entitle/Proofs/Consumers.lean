import Entitle.Plan.Schema
import Entitle.Proofs.Bundle
import Entitle.Proofs.Permissions
import Entitle.Proofs.Places
import Entitle.Proofs.Spelling

/-!
# What plans promise to other programs

A plan is carried out by programs that know nothing of scripts. They may rely on its form: it
satisfies the schema of plans. They may also rely on what the schema does not say: paths are
well-formed, nothing is copied or moved into itself, the root is not deleted, no restriction of a
statement is lost, and what a purge keeps is sorted and concerns the purge. All this holds for every
script that is compiled, whatever the loader and the cache are, as long as the scripts are checked
from texts that are short enough for the words that positions are kept in.

## Main definitions

* `Checked.Genuine`, `Loader.Genuine`, `Cache.Genuine`: scripts that are made from texts.
* `Loader.Gives`: what an inclusion may lead to.
* `Located.Yields`: an action stands for a directive.
* `Action.Reliable`: what the schema does not say of an action.

## Main statements

* `Expands.placed`: the directives of an expansion are in its scripts.
* `Table.perm_ofList`: a table loses nothing of restrictions without problems.
* `Action.reliable_of_problems`: the action of a directive without problems is reliable.
* `Action.accepts_schema`: it satisfies the schema of actions.
* `Plan.fit_of_compileScript`: compiled plans keep their promises.
-/
namespace Entitle

open Json (field)
open Json.Schema (accepts closed name matching arrayOf)

/-! ## Scripts from texts -/

/-- The script has a name and was checked from a text whose positions fit in their words. -/
def Checked.Genuine (k : Checked) : Prop :=
  k.identity ≠ "" ∧ ∃ text : String, text.length + 1 < positionBound ∧
    (Script.ofText k.identity text).check = .ok k

/-- All scripts have names, as the identities of identifiers do, and are made from texts whose
positions fit in their words. -/
def Loader.Genuine (load : Loader) : Prop :=
  ∀ i s, load i = .ok s → s.identity ≠ "" ∧
    ∃ text : String, text.length + 1 < positionBound ∧ s = .ofText s.identity text

/-- All scripts in the cache are genuine. -/
def Cache.Genuine (c : Cache) : Prop :=
  ∀ k ∈ c.scripts, k.Genuine

/-- An identifier may lead to the script: it was checked from a text with the identity and the
checksum of the script that is loaded. -/
def Loader.Gives (load : Loader) (i : String) (k : Checked) : Prop :=
  k.Genuine ∧ ∃ s, load i = .ok s ∧ s.identity = k.identity ∧ s.checksum = k.checksum

theorem Loader.Genuine.check {load : Loader} (hl : load.Genuine) {i : String} {s : Script}
    {k : Checked} (hs : load i = .ok s) (hk : s.check = .ok k) : k.Genuine := by
  obtain ⟨hname, text, hlength, htext⟩ := hl i s hs
  rw [Checked.Genuine, (Script.check_eq_ok hk).1]
  exact ⟨hname, text, hlength, htext ▸ hk⟩

namespace Cache

private theorem genuine_empty : Cache.empty.Genuine := by
  simp [Genuine, empty]

private theorem stable_genuine {load : Loader} (hl : load.Genuine) : Stable load Genuine :=
  stable_forall hl.check

/-- What is found in a genuine cache may be what the identifier leads to. -/
theorem Genuine.gives {load : Loader} {c : Cache} (hc : c.Genuine) {i : String} {k : Checked}
    (hk : c.library load i = some k) : load.Gives i k := by
  obtain ⟨s, hs, hfind⟩ := library_eq_some.1 hk
  obtain ⟨hmem, hidentity, hchecksum⟩ := find?_eq_some hfind
  exact ⟨hc k hmem, s, hs, hidentity.symm, hchecksum.symm⟩

end Cache

namespace Identity

private theorem mem_join {segments : List (List Char)} {segment : List Char} {c : Char}
    (hs : segment ∈ segments) (hc : c ∈ segment) : c ∈ (join segments).toList := by
  rw [join, String.toList_ofList]
  induction segments with
  | nil => cases hs
  | cons first rest ih =>
    cases rest with
    | nil =>
      rw [List.intercalate_singleton]
      exact List.mem_singleton.1 hs ▸ hc
    | cons second rest =>
      rw [List.intercalate_cons_cons]
      obtain rfl | hs := List.mem_cons.1 hs
      · exact List.mem_append_left _ (List.mem_append_left _ hc)
      · exact List.mem_append_right _ (ih hs)

/-- An identity ends in a name. -/
theorem ne_empty_of_ofIdentifier? {identifier identity : String}
    (h : ofIdentifier? identifier = some identity) : identity ≠ "" := by
  rw [ofIdentifier?] at h
  split at h
  · cases h
  · cases h
  · next last outer _ =>
    split at h
    · cases h
    · next hstem =>
      cases h
      obtain ⟨c, hc⟩ := List.exists_mem_of_ne_nil _ hstem
      have hmem : c ∈ (join (stem last :: outer).reverse).toList :=
        mem_join (List.mem_reverse.2 List.mem_cons_self) hc
      intro hempty
      rw [hempty] at hmem
      cases hmem

end Identity

/-- The loader of a shelf with short texts is genuine. -/
theorem Shelf.genuine_load {s : Shelf}
    (hs : ∀ e ∈ s.texts.entries, e.2.length + 1 < positionBound) : s.load.Genuine := by
  intro i script hscript
  obtain ⟨identity, text, hidentity, htext, rfl⟩ := load_eq_ok hscript
  exact ⟨Identity.ne_empty_of_ofIdentifier? hidentity, text,
    hs _ (Table.get?_eq_some_iff.1 htext), rfl⟩

/-! ## Origins -/

/-- The line and the column are counted from one and fit in their words. -/
def Origin.Fits (o : Origin) : Prop :=
  (1 ≤ o.line ∧ o.line < positionBound) ∧ 1 ≤ o.column ∧ o.column < positionBound

private theorem Origin.IsIn.fits {file : String} {n : Nat} {o : Origin} (h : o.IsIn file n)
    (hn : n < positionBound) : o.Fits :=
  ⟨⟨h.line.1, Nat.lt_of_le_of_lt h.line.2 hn⟩, h.column.1, Nat.lt_of_le_of_lt h.column.2 hn⟩

namespace Statement

mutual

theorem Placed.imp {P Q : Origin → Prop} (hPQ : ∀ o, P o → Q o) :
    ∀ s : Statement, s.Placed P → s.Placed Q
  | directive o _, h => hPQ o h
  | inclusion o _, h => hPQ o h
  | define o _ _, h => hPQ o h
  | cond o _ _ thenBranch elseBranch, h =>
    ⟨hPQ o h.1, AllPlaced.imp hPQ thenBranch h.2.1, AllPlaced.imp hPQ elseBranch h.2.2⟩

theorem AllPlaced.imp {P Q : Origin → Prop} (hPQ : ∀ o, P o → Q o) :
    ∀ ss : List Statement, AllPlaced P ss → AllPlaced Q ss
  | [], _ => trivial
  | s :: rest, h => ⟨Placed.imp hPQ s h.1, AllPlaced.imp hPQ rest h.2⟩

end

end Statement

theorem Checked.Genuine.placed {k : Checked} (hk : k.Genuine) :
    Statement.AllPlaced Origin.Fits k.statements := by
  obtain ⟨-, text, hlength, hcheck⟩ := hk
  exact Statement.AllPlaced.imp (fun o ho => ho.fits hlength) _ (Script.placed_of_check hcheck)

/-- The directives of an expansion are where their statements are. -/
theorem Expands.placed {library : String → Option Checked} {P : Origin → Prop}
    (hlibrary : ∀ i k, library i = some k → Statement.AllPlaced P k.statements) {p p' : Progress}
    {ss : List Statement} {out : List Located} (h : Expands library p ss out p')
    (hss : Statement.AllPlaced P ss) : ∀ d ∈ out, P d.origin := by
  induction h with
  | nil => simp
  | directive _ ih => exact List.forall_mem_cons.2 ⟨hss.1, ih hss.2⟩
  | inclusion hscript _ _ ihFirst ihMore =>
    exact List.forall_mem_append.2 ⟨ihFirst (hlibrary _ _ hscript), ihMore hss.2⟩
  | define _ ih => exact ih hss.2
  | cond hflag _ _ ihFirst ihMore =>
    refine List.forall_mem_append.2 ⟨ihFirst ?_, ihMore hss.2⟩
    split
    · exact hss.1.2.1
    · exact hss.1.2.2

/-! ## Restrictions -/

namespace Table

variable {β : Type}

private theorem perm_insertEntry {k : String} {v : β} {es : List (String × β)}
    (h : ∀ e ∈ es, e.1 ≠ k) : (insertEntry k v es).Perm ((k, v) :: es) := by
  induction es with
  | nil => exact .refl _
  | cons e rest ih =>
    obtain ⟨he, hrest⟩ := List.forall_mem_cons.1 h
    rw [insertEntry]
    split
    · exact .refl _
    · rw [if_neg (Ne.symm he)]
      exact ((ih hrest).cons e).trans (.swap _ _ _)

end Table

/-- Restrictions without problems are all in their table. -/
theorem Table.perm_ofList {rs : List (String × String)} (h : Rules.restrictions [] rs = []) :
    (Table.ofList rs).entries.Perm rs := by
  suffices ∀ (seen : List String) (t : Table String), (∀ e ∈ t.entries, e.1 ∈ seen) →
      Rules.restrictions seen rs = [] →
      (rs.foldl (fun t e => t.insert e.1 e.2) t).entries.Perm (t.entries ++ rs) from
    this [] .empty (by simp [empty]) h
  clear h
  induction rs with
  | nil => simp
  | cons r rest ih =>
    intro seen t hseen h
    obtain ⟨key, value⟩ := r
    simp only [Rules.restrictions, List.append_eq_nil_iff] at h
    obtain ⟨⟨hkey, -⟩, hrest⟩ := h
    have hnew : key ∉ seen := by
      intro hmem
      split at hkey
      · cases hkey
      · rw [if_pos (List.contains_iff_mem.2 hmem)] at hkey
        cases hkey
    have hperm : (t.insert key value).entries.Perm ((key, value) :: t.entries) :=
      perm_insertEntry fun e he heq => hnew (heq ▸ hseen e he)
    have hseen' : ∀ e ∈ (t.insert key value).entries, e.1 ∈ key :: seen := by
      intro e he
      obtain rfl | he := List.mem_cons.1 (hperm.mem_iff.1 he)
      · exact List.mem_cons_self
      · exact List.mem_cons_of_mem _ (hseen e he)
    exact (ih _ _ hseen' hrest).trans ((hperm.append_right rest).trans List.perm_middle.symm)

private theorem Rules.value_of_restrictions {seen : List String} {rs : List (String × String)}
    (h : Rules.restrictions seen rs = []) : ∀ r ∈ rs, r.2 ≠ "" := by
  induction rs generalizing seen with
  | nil => simp
  | cons r rest ih =>
    obtain ⟨key, value⟩ := r
    simp only [restrictions, List.append_eq_nil_iff] at h
    refine List.forall_mem_cons.2 ⟨fun hempty => ?_, ih h.2⟩
    have hvalue := h.1.2
    rw [if_pos hempty] at hvalue
    cases hvalue

/-! ## Actions -/

/-- The paths that an action names. -/
def Action.paths : Action → List String
  | ensure _ _ path => path.toList
  | addMember .. | removeMember .. | checkPresent .. | checkAbsent .. => []
  | setPermission path _ | setProperty path _ _ | delete path | checkPermission path _ => [path]
  | copy source target | move source target => [source, target]
  | purge path _ keep => path :: keep.map (·.path)

/-- What may be relied on in an action beyond its schema. -/
structure Action.Reliable (a : Action) : Prop where
  paths : ∀ p ∈ a.paths, Path.problem? p = none
  transfer : ∀ source target, a = .copy source target ∨ a = .move source target →
    source ≠ target ∧ ¬ Path.within target source = true
  delete : ∀ path, a = .delete path → path ≠ "/"
  keep : ∀ path principal keep, a = .purge path principal keep →
    keep.Pairwise (fun g h => g.compare h = .lt) ∧
      ∀ g ∈ keep, Path.within g.path path = true ∧ ∀ id ∈ principal, g.entry.principal = id

/-- The action stands for the directive. A permission has all restrictions of its statement. -/
structure Located.Yields (grants : List Grant) (d : Located) (a : PlannedAction) : Prop where
  origin : a.origin = d.origin
  action : a.action = .ofDirective grants d.directive
  restrictions : ∀ effect ps path principal rs,
    d.directive = .permission effect ps path principal rs →
      ∃ entry, a.action = .setPermission path entry ∧ entry.restrictions.entries.Perm rs

private theorem Located.yields_of_problems (grants : List Grant) {d : Located}
    (h : d.directive.problems = []) :
    d.Yields grants ⟨.ofDirective grants d.directive, d.origin⟩ := by
  refine ⟨rfl, rfl, fun effect ps path principal rs hd => ?_⟩
  rw [hd] at h ⊢
  exact ⟨_, rfl, Table.perm_ofList (List.append_eq_nil_iff.1 h).2⟩

/-- The grants come from statements without problems. -/
def Grant.AllDeclared (grants : List Grant) : Prop :=
  ∀ g ∈ grants, ∃ effect ps principal rs, g.entry = .ofLists principal effect ps rs ∧
    Rules.grant ps g.path principal = [] ∧ Rules.restrictions [] rs = []

private theorem Expansion.declared_grants {ds : List Located} (h : SoundDirectives ds) :
    Grant.AllDeclared (grants ds) := by
  intro g hg
  obtain ⟨d, hd, hgrant⟩ := List.mem_filterMap.1 hg
  have hproblems := h d hd
  cases hdirective : d.directive with
  | permission effect ps path principal rs =>
    rw [hdirective] at hgrant hproblems
    cases hgrant
    obtain ⟨htarget, hrestrictions⟩ := List.append_eq_nil_iff.1 hproblems
    exact ⟨effect, ps, principal, rs, rfl, htarget, hrestrictions⟩
  | _ =>
    rw [hdirective] at hgrant
    cases hgrant

private theorem Path.ne_of_not_within {source target : String}
    (h : ¬ Path.within target source = true) : source ≠ target := by
  rintro rfl
  exact h (Path.within_refl source)

/-- The action of a directive without problems is reliable. -/
theorem Action.reliable_of_problems {grants : List Grant} (hgrants : Grant.AllDeclared grants)
    {d : Directive} (h : d.problems = []) : (ofDirective grants d).Reliable := by
  cases d with
  | create kind id path =>
    refine ⟨fun p hp => ?_, nofun, nofun, nofun⟩
    obtain rfl : path = some p := Option.mem_toList.1 hp
    exact Rules.isPath_of_path (List.append_eq_nil_iff.1 h).2
  | addMember member group | removeMember member group => exact ⟨nofun, nofun, nofun, nofun⟩
  | permission effect ps path principal rs =>
    refine ⟨List.forall_mem_singleton.2 ?_, nofun, nofun, nofun⟩
    exact Rules.isPath_of_grant (List.append_eq_nil_iff.1 h).1
  | setProperty path key value =>
    refine ⟨List.forall_mem_singleton.2 ?_, nofun, nofun, nofun⟩
    exact Rules.isPath_of_path (List.append_eq_nil_iff.1 h).1
  | copy source target | move source target =>
    obtain ⟨hsource, htarget, houtside⟩ := Rules.sound_of_transfer h
    refine ⟨List.forall_mem_cons.2 ⟨hsource, List.forall_mem_singleton.2 htarget⟩, ?_, nofun, nofun⟩
    rintro _ _ (heq | heq) <;> cases heq
    exact ⟨Path.ne_of_not_within houtside, houtside⟩
  | delete path =>
    obtain ⟨hpath, hroot⟩ := List.append_eq_nil_iff.1 h
    refine ⟨List.forall_mem_singleton.2 (Rules.isPath_of_path hpath), nofun, ?_, nofun⟩
    rintro _ ⟨⟩ rfl
    cases hroot
  | purge path principal =>
    have hkeep : ∀ g ∈ Grant.sortedOf (grants.filter (Grant.concerns path principal)),
        g ∈ grants ∧ Grant.concerns path principal g = true := fun g hg =>
      List.mem_filter.1 (Grant.mem_sortedOf.1 hg)
    refine ⟨List.forall_mem_cons.2 ⟨Rules.isPath_of_path (List.append_eq_nil_iff.1 h).1, ?_⟩,
      nofun, nofun, ?_⟩
    · refine List.forall_mem_map.2 fun g hg => ?_
      obtain ⟨_, _, _, _, -, htarget, -⟩ := hgrants g (hkeep g hg).1
      exact Rules.isPath_of_grant htarget
    · rintro _ _ _ ⟨⟩
      refine ⟨Grant.sorted_sortedOf _, fun g hg => ?_⟩
      obtain ⟨hwithin, hprincipal⟩ := Bool.and_eq_true_iff.1 (hkeep g hg).2
      refine ⟨hwithin, fun id hid => ?_⟩
      obtain rfl : principal = some id := hid
      exact (beq_iff_eq.1 hprincipal).symm
  | check c =>
    cases c with
    | present | absent => exact ⟨nofun, nofun, nofun, nofun⟩
    | permission effect ps path principal =>
      exact ⟨List.forall_mem_singleton.2 (Rules.isPath_of_grant h), nofun, nofun, nofun⟩

/-! ## The schema -/

namespace Json.Schema

@[simp] theorem accepts_name {text : String} : name.accepts (.str text) = true ↔ text ≠ "" := by
  simp [name, Kind.accepts, Nat.one_le_iff_ne_zero, String.length_eq_zero_iff]

@[simp] theorem accepts_matching {p : Pattern} {text : String} :
    (matching p).accepts (.str text) = p.accepts text := by
  simp [matching, Kind.accepts]

@[simp] theorem accepts_arrayOf {s : Schema} {js : List Json} :
    (arrayOf s).accepts (.arr js) = true ↔ ∀ j ∈ js, s.accepts j = true := by
  simp [arrayOf, Kind.accepts]

/-- Different names are different values. -/
theorem accepts_uniqueItems {texts : List String} (h : texts.Nodup) :
    uniqueItems.accepts (.arr (texts.map .str)) = true := by
  rw [accepts, List.map_map, decide_eq_true_eq]
  have hread : ∀ text : String, read? (Json.str text).compact = some (.str text) := fun text =>
    read?_compact rfl
  refine List.Pairwise.map _ (fun a b hne hab => hne ?_) h
  exact Json.str.inj (Option.some.inj ((hread a).symm.trans ((congrArg read? hab).trans (hread b))))

end Json.Schema

theorem Rules.accepts_id {subject i : String} (h : Rules.id subject i = []) :
    Principal.idSchema.accepts (.str i) = true := by
  rw [id] at h
  split at h
  · cases h
  · next hne =>
    rw [Option.toList_eq_nil_iff, Option.map_eq_none_iff, List.find?_eq_none] at h
    have hlength : 1 ≤ i.length := by
      rwa [Nat.one_le_iff_ne_zero, Ne, String.length_eq_zero_iff]
    rw [Principal.idSchema, Json.Schema.accepts_matching, Json.Pattern.accepts, Bool.and_eq_true,
      Bool.and_eq_true, List.all_eq_true]
    refine ⟨⟨fun c hc => ?_, decide_eq_true hlength⟩, rfl⟩
    have hlegal := h c hc
    simp only [isIllegalInId, Bool.or_eq_true, not_or] at hlegal
    simp [hlegal]

theorem Path.accepts_schema {p : String} (h : Path.problem? p = none) :
    Path.schema.accepts (.str p) = true := by
  rw [problem?] at h
  split at h
  · cases h
  · next c rest hp =>
    split at h
    · cases h
    · next hc => simpa [schema, Json.Pattern.accepts, hp] using hc

theorem Digest.accepts_schema (text : String) :
    Digest.schema.accepts (.str (hexDigest text)) = true := by
  have hdigits : ∀ c ∈ "0123456789abcdef".toList,
      (('0' ≤ c && c ≤ '9') || ('a' ≤ c && c ≤ 'f')) = true := List.all_eq_true.1 rfl
  have hlength : (hexDigest text).length = 64 := length_hex _
  rw [schema, Json.Schema.accepts_matching, Json.Pattern.accepts, hlength, Bool.and_eq_true,
    Bool.and_eq_true, List.all_eq_true]
  exact ⟨⟨fun c hc => hdigits c (mem_hex hc), rfl⟩, rfl⟩

theorem Origin.Fits.accepts_schema {o : Origin} (h : o.Fits) :
    Origin.schema.accepts o.toJson = true := by
  simp [schema, closed, toJson, Json.objOf, field,
    Json.Kind.accepts, h.1.1, h.2.1]

theorem ScriptSource.accepts_schema {s : ScriptSource} (hname : s.identity ≠ "") {text : String}
    (hchecksum : s.checksum = hexDigest text) : ScriptSource.schema.accepts s.toJson = true := by
  simp [schema, closed, toJson, Json.objOf, field,
    Json.Kind.accepts, hname, hchecksum, Digest.accepts_schema]

private theorem Rules.name_of_privileges {ps : List String} (h : Rules.privileges ps = []) :
    ∀ p ∈ ps, p ≠ "" := by
  rintro _ hp rfl
  have hblank := List.map_eq_nil_iff.1 (List.append_eq_nil_iff.1 h).2
  exact List.filter_eq_nil_iff.1 hblank _ hp rfl

theorem NameSet.accepts_schema {s : NameSet} (hsome : s.isEmpty = false)
    (hnames : ∀ x ∈ s, x ≠ "") : schema.accepts s.toJson = true := by
  have hnodup : s.toList.Nodup := s.sorted.imp fun {a b} (hlt : a < b) => String.ne_of_lt hlt
  have hlength : 1 ≤ s.toList.length := List.length_pos_iff.2 (by simpa [isEmpty] using hsome)
  simpa [schema, toJson, Json.Kind.accepts, Json.Schema.accepts_uniqueItems hnodup, hlength,
    mem_def] using hnames

theorem Table.accepts_schema {t : Table String} (hvalues : ∀ e ∈ t.entries, e.2 ≠ "") :
    schema.accepts t.toJson = true := by
  simpa [schema, toJson, Json.Kind.accepts] using fun k v h => hvalues (k, v) h

/-- The permission of a statement without problems satisfies its schema. -/
theorem Permission.accepts_schema {principal : String} {effect : Effect} {ps : List String}
    {rs : List (String × String)} {path : String} (htarget : Rules.grant ps path principal = [])
    (hrestrictions : Rules.restrictions [] rs = []) :
    Permission.schema.accepts (Permission.ofLists principal effect ps rs).toJson = true := by
  obtain ⟨hps, hid⟩ := List.append_eq_nil_iff.1 htarget
  have hprincipal := Rules.accepts_id hid
  have hsome : (Permission.ofLists principal effect ps rs).privileges.isEmpty = false :=
    Permission.privileges_ofLists htarget
  have hprivileges : NameSet.schema.accepts (NameSet.ofList ps).toJson = true :=
    NameSet.accepts_schema hsome fun x hx =>
      Rules.name_of_privileges (List.append_eq_nil_iff.1 hps).1 x (NameSet.mem_ofList.1 hx)
  have htable : Table.schema.accepts (Table.ofList rs).toJson = true :=
    Table.accepts_schema fun e he =>
      Rules.value_of_restrictions hrestrictions e ((Table.perm_ofList hrestrictions).mem_iff.1 he)
  have heffect : effect.name ∈ ["allow", "deny"] := by cases effect <;> decide
  cases hempty : (Table.ofList rs).isEmpty <;>
    simp [schema, closed, toJson, ofLists, Json.objOf, field,
      Json.optional, Json.unlessEmpty, Json.Kind.accepts, hempty, hprincipal, hprivileges, htable,
      heffect]

theorem Grant.accepts_schema {grants : List Grant} (hgrants : AllDeclared grants) {g : Grant}
    (hg : g ∈ grants) : schema.accepts g.toJson = true := by
  obtain ⟨effect, ps, principal, rs, hentry, htarget, hrestrictions⟩ := hgrants g hg
  have hpath := Path.accepts_schema (Rules.isPath_of_grant htarget)
  have hentry : Permission.schema.accepts g.entry.toJson = true :=
    hentry ▸ Permission.accepts_schema htarget hrestrictions
  simp [schema, closed, toJson, Json.objOf, field, Json.Kind.accepts, hpath, hentry]

namespace Action

/-- The parts of an action satisfy their schemas. -/
def PartsFit : Action → Prop
  | ensure _ id path => Principal.idSchema.accepts (.str id) = true ∧
    ∀ p ∈ path, Path.schema.accepts (.str p) = true
  | addMember group member | removeMember group member =>
    Principal.idSchema.accepts (.str group) = true ∧ Principal.idSchema.accepts (.str member) = true
  | setPermission path entry | checkPermission path entry =>
    Path.schema.accepts (.str path) = true ∧ Permission.schema.accepts entry.toJson = true
  | setProperty path key _ => Path.schema.accepts (.str path) = true ∧ key ≠ ""
  | copy source target | move source target =>
    Path.schema.accepts (.str source) = true ∧ Path.schema.accepts (.str target) = true
  | delete path => Path.schema.accepts (.str path) = true
  | purge path principal keep => Path.schema.accepts (.str path) = true ∧
    (∀ id ∈ principal, Principal.idSchema.accepts (.str id) = true) ∧
      ∀ g ∈ keep, Grant.schema.accepts g.toJson = true
  | checkPresent id _ | checkAbsent id => Principal.idSchema.accepts (.str id) = true

private theorem partsFit_of_problems {grants : List Grant} (hgrants : Grant.AllDeclared grants)
    {d : Directive} (h : d.problems = []) : (ofDirective grants d).PartsFit := by
  cases d with
  | create kind id path =>
    obtain ⟨hid, hpath⟩ := List.append_eq_nil_iff.1 h
    refine ⟨Rules.accepts_id hid, ?_⟩
    rintro p rfl
    exact Path.accepts_schema (Rules.isPath_of_path hpath)
  | addMember member group | removeMember member group =>
    obtain ⟨hmember, hgroup⟩ := List.append_eq_nil_iff.1 (List.append_eq_nil_iff.1 h).1
    exact ⟨Rules.accepts_id hgroup, Rules.accepts_id hmember⟩
  | permission effect ps path principal rs =>
    obtain ⟨htarget, hrestrictions⟩ := List.append_eq_nil_iff.1 h
    exact ⟨Path.accepts_schema (Rules.isPath_of_grant htarget),
      Permission.accepts_schema htarget hrestrictions⟩
  | setProperty path key value =>
    obtain ⟨hpath, hkey⟩ := List.append_eq_nil_iff.1 h
    refine ⟨Path.accepts_schema (Rules.isPath_of_path hpath), ?_⟩
    rintro rfl
    cases hkey
  | copy source target | move source target =>
    obtain ⟨hsource, htarget, -⟩ := Rules.sound_of_transfer h
    exact ⟨Path.accepts_schema hsource, Path.accepts_schema htarget⟩
  | delete path =>
    exact Path.accepts_schema (Rules.isPath_of_path (List.append_eq_nil_iff.1 h).1)
  | purge path principal =>
    obtain ⟨hpath, hprincipal⟩ := List.append_eq_nil_iff.1 h
    refine ⟨Path.accepts_schema (Rules.isPath_of_path hpath), ?_, fun g hg => ?_⟩
    · rintro id rfl
      exact Rules.accepts_id hprincipal
    · exact Grant.accepts_schema hgrants (List.mem_filter.1 (Grant.mem_sortedOf.1 hg)).1
  | check c =>
    cases c with
    | present id kind | absent id => exact Rules.accepts_id h
    | permission effect ps path principal =>
      exact ⟨Path.accepts_schema (Rules.isPath_of_grant h), Permission.accepts_schema h rfl⟩

/-- An action with such parts satisfies the schema of actions: its kind selects one of the cases. -/
theorem PartsFit.accepts_schema {a : Action} (h : a.PartsFit) {o : Origin} (ho : o.Fits) :
    schema.accepts (PlannedAction.toJson ⟨a, o⟩) = true := by
  have horigin := ho.accepts_schema
  cases a with
  | ensure kind id path =>
    cases kind <;> cases path <;>
      simp_all [schema, caseSchema, PartsFit, PlannedAction.toJson, members, Json.objOf, field,
        Json.optional, ActionKind.names, Json.Kind.accepts]
  | purge path principal keep =>
    cases principal <;>
      simp_all [schema, caseSchema, PartsFit, PlannedAction.toJson, members, Json.objOf, field,
        Json.optional, ActionKind.names, Json.Kind.accepts]
  | checkPresent id kind =>
    rcases kind with _ | _ | _ <;>
      simp_all [schema, caseSchema, PartsFit, PlannedAction.toJson, members, Json.objOf, field,
        Json.optional, ActionKind.names, Json.Kind.accepts, PrincipalKind.name]
  | _ =>
    simp_all [schema, caseSchema, PartsFit, PlannedAction.toJson, members, Json.objOf, field,
      ActionKind.names, Json.Kind.accepts]

end Action

/-! ## Compiled plans -/

/-- How the directives of a compiled plan come about, whatever the loader and the cache are. -/
theorem expands_of_compileScript {load : Loader} (hl : load.Genuine) {c : Cache} (hc : c.Genuine)
    {limit : Nat} {i : String} {plan : Plan}
    (h : (compileScript load limit i c).1 = .ok plan) :
    ∃ library root e p, (∀ j k, library j = some k → load.Gives j k) ∧ library i = some root ∧
      Expands library (Progress.start.visit root) root.statements e.directives p ∧
      e.Sound ∧ e.identity = root.identity ∧ e.sources = p.sources ∧ plan = .ofExpansion e := by
  obtain ⟨script, root, c', e, hload, hroot, he, rfl⟩ := compileScript_eq_ok h
  obtain ⟨p, c'', hon, hidentity, hsources⟩ := Expansion.ofChecked_eq_ok he
  obtain ⟨hgrows, hexpands⟩ := Expansion.expands_library hon
  have hc' : c'.Genuine := by
    have := Cache.stable_genuine hl i script c hload hc
    rwa [hroot] at this
  have hc'' : c''.Genuine := by
    have :=
      Expansion.keeps_ofScript (Cache.stable_genuine hl) limit (limit + 1) [] root .start c' hc'
    rwa [hon] at this
  refine ⟨c''.library load, root, e, p, fun j k hk => hc''.gives hk, ?_, hexpands,
    Expansion.sound_of_ofChecked he, hidentity, hsources, rfl⟩
  exact hgrows.library _ _ (Cache.library_eq_some.2 ⟨script, hload, Cache.find?_of_check hroot⟩)

theorem Checked.Genuine.accepts_contribution {k : Checked} (hk : k.Genuine) :
    ScriptSource.schema.accepts k.contribution.toJson = true := by
  obtain ⟨hname, text, -, hcheck⟩ := hk
  exact ScriptSource.accepts_schema hname (Script.check_eq_ok hcheck).2

/-- The first contribution to an expansion is its root, and all of them are genuine. -/
theorem Expands.contributions {library : String → Option Checked}
    (hlibrary : ∀ j k, library j = some k → k.Genuine) {root : Checked} (hroot : root.Genuine)
    {directives : List Located} {p : Progress}
    (h : Expands library (Progress.start.visit root) root.statements directives p) :
    p.sources ≠ [] ∧ ∀ src ∈ p.sources, ∃ k : Checked, k.Genuine ∧ src = k.contribution := by
  obtain ⟨more, hmore, hmem⟩ := h.exists_sources_eq root.errors_eq_nil
  have hstart : (Progress.start.visit root).sources = [root.contribution] := rfl
  rw [hmore, hstart]
  refine ⟨by simp, List.forall_mem_append.2
    ⟨List.forall_mem_singleton.2 ⟨root, hroot, rfl⟩, fun src hsrc => ?_⟩⟩
  obtain ⟨target, k, -, hk, rfl⟩ := hmem src hsrc
  exact ⟨k, hlibrary target k hk, rfl⟩

theorem Plan.accepts_schema {library : String → Option Checked}
    (hlibrary : ∀ j k, library j = some k → k.Genuine) {root : Checked} (hroot : root.Genuine)
    {e : Expansion} {p : Progress}
    (hexpands : Expands library (Progress.start.visit root) root.statements e.directives p)
    (hsound : e.Sound) (hidentity : e.identity = root.identity) (hsources : e.sources = p.sources) :
    Plan.schema.accepts (Plan.ofExpansion e).toJson = true := by
  obtain ⟨hne, hgenuine⟩ := hexpands.contributions hlibrary hroot
  have hname : e.identity ≠ "" := hidentity ▸ hroot.1
  have hchecksum := Digest.accepts_schema (String.join (e.sources.map ScriptSource.frame))
  have hlength : 1 ≤ e.sources.length := List.length_pos_iff.2 (hsources ▸ hne)
  have hcontributions : ∀ src ∈ e.sources, ScriptSource.schema.accepts src.toJson = true := by
    rw [hsources]
    intro src hsrc
    obtain ⟨k, hk, rfl⟩ := hgenuine src hsrc
    exact hk.accepts_contribution
  have hfits : ∀ d ∈ e.directives, d.origin.Fits :=
    hexpands.placed (fun j k hk => (hlibrary j k hk).placed) hroot.placed
  have hactions : ∀ d ∈ e.directives, Action.schema.accepts (PlannedAction.toJson
      ⟨.ofDirective (Expansion.grants e.directives) d.directive, d.origin⟩) = true := fun d hd =>
    (Action.partsFit_of_problems (Expansion.declared_grants hsound) (hsound d hd)).accepts_schema
      (hfits d hd)
  simpa [schema, closed, toJson, ofExpansion, bundleChecksum, Json.objOf, field, Json.Kind.accepts,
    hname, hchecksum, hlength] using And.intro hcontributions hactions

/-- Compiled plans keep their promises. -/
theorem Plan.fit_of_compileScript {load : Loader} (hl : load.Genuine) {c : Cache} (hc : c.Genuine)
    {limit : Nat} {i : String} {plan : Plan} (h : (compileScript load limit i c).1 = .ok plan) :
    ∃ library root directives progress, (∀ j k, library j = some k → load.Gives j k) ∧
      library i = some root ∧
      Expands library (Progress.start.visit root) root.statements directives progress ∧
      List.Forall₂ (Located.Yields (Expansion.grants directives)) directives plan.actions ∧
      Plan.schema.accepts plan.toJson = true ∧
      ∀ a ∈ plan.actions, a.action.Reliable ∧ a.origin.Fits := by
  obtain ⟨library, root, e, p, hgives, hroot, hexpands, hsound, hidentity, hsources, rfl⟩ :=
    expands_of_compileScript hl hc h
  have hlibrary : ∀ j k, library j = some k → k.Genuine := fun j k hk => (hgives j k hk).1
  have hfits : ∀ d ∈ e.directives, d.origin.Fits :=
    hexpands.placed (fun j k hk => (hlibrary j k hk).placed) (hlibrary i root hroot).placed
  have hdeclared := Expansion.declared_grants hsound
  refine ⟨library, root, e.directives, p, hgives, hroot, hexpands, ?_,
    Plan.accepts_schema hlibrary (hlibrary i root hroot) hexpands hsound hidentity hsources, ?_⟩
  · rw [Plan.ofExpansion, List.forall₂_map_right_iff, List.forall₂_same]
    exact fun d hd => Located.yields_of_problems _ (hsound d hd)
  · rw [Plan.ofExpansion]
    exact List.forall_mem_map.2 fun d hd =>
      ⟨Action.reliable_of_problems hdeclared (hsound d hd), hfits d hd⟩

/-- A shelf with a script that includes a group and purges what it does not grant. -/
def Shelf.site : Shelf :=
  .ofList [("lib", "create group \"g\" at \"/h\";\ndefine f = true;\n"),
    ("site", "include \"lib\";\nif f \x7b\n" ++
      "  allow read on \"/a/b\" for \"g\" with k = \"v\";\n\x7d\npurge \"/a\";\n")]

/-- What the plan of `site` does. -/
def Shelf.siteActions : List PlannedAction :=
  let entry := .ofLists "g" .allow ["read"] [("k", "v")]
  [⟨.ensure .group "g" (some "/h"), ⟨"lib", 1, 1⟩⟩, ⟨.setPermission "/a/b" entry, ⟨"site", 3, 3⟩⟩,
    ⟨.purge "/a" none [⟨"/a/b", entry⟩], ⟨"site", 5, 1⟩⟩]

theorem Plan.fit_of_compileScript_site : Shelf.site.load.Genuine ∧ Cache.empty.Genuine ∧
    ∃ plan, (compileScript Shelf.site.load 16 "site" .empty).1 = .ok plan ∧
      plan.actions = Shelf.siteActions ∧
      ∃ library root directives progress, (∀ j k, library j = some k → Shelf.site.load.Gives j k) ∧
        library "site" = some root ∧
        Expands library (Progress.start.visit root) root.statements directives progress ∧
        List.Forall₂ (Located.Yields (Expansion.grants directives)) directives plan.actions ∧
        Plan.schema.accepts plan.toJson = true ∧
        ∀ a ∈ plan.actions, a.action.Reliable ∧ a.origin.Fits := by
  have hshort : Shelf.site.load.Genuine := Shelf.genuine_load (by decide +kernel)
  have hactions : (compileScript Shelf.site.load 16 "site" .empty).1.toOption.map (·.actions) =
      some Shelf.siteActions := by
    decide +kernel
  obtain ⟨plan, hplan, hactions⟩ := Option.map_eq_some_iff.1 hactions
  have hplan : (compileScript Shelf.site.load 16 "site" .empty).1 = .ok plan := by
    cases h : (compileScript Shelf.site.load 16 "site" .empty).1 <;>
      simp_all [Except.toOption]
  exact ⟨hshort, Cache.genuine_empty, plan, hplan, hactions,
    fit_of_compileScript hshort Cache.genuine_empty hplan⟩

end Entitle
