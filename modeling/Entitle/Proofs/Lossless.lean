import Entitle.Proofs.Rearranging

/-!
# The JSON form of plans read back

Nothing of a plan is lost in its JSON form, not even if a program that it goes through puts the
members of objects in an order of its own.

A planned action is one record for two things, the action and its origin, and an action is one of
thirteen records that a tag tells apart. Both are read by setting members aside, so what has to be
known of an action is that no field of it has the name of the tag, of the origin or of another
field, and that none nests too deeply to be set aside.

## Main definitions

* `Action.kind`, `Action.fields`: what the tag of an action says, and the members beside it.
* `Plan.Bounded`: the positions in a plan are words of 32 bits.

## Main statements

* `Action.nodup_keys`, `Action.fields_fit`: the names and the values of the fields.
* `Action.ofFields?_of_hasFields`, `PlannedAction.ofJson?_rearranged`, `Plan.ofJson?_rearranged`:
  reading gives back what was written.
* `Plan.bounded_of_ofJson?`: whatever is read as a plan is one whose form can be read.
* `Plan.form_lossless`: the form of plans is lossless.
-/
namespace Entitle

open Json (field)

/-! ## The parts of a plan -/

/-- The line and the column are words of 32 bits, which is all that an origin is read as. -/
def Origin.Bounded (o : Origin) : Prop :=
  o.line < positionBound ∧ o.column < positionBound

instance (o : Origin) : Decidable o.Bounded :=
  inferInstanceAs (Decidable (_ ∧ _))

/-- The positions in the plan are words of 32 bits. -/
def Plan.Bounded (p : Plan) : Prop :=
  ∀ a ∈ p.actions, a.origin.Bounded

instance (p : Plan) : Decidable p.Bounded :=
  inferInstanceAs (Decidable (∀ a ∈ p.actions, a.origin.Bounded))

section

variable {f : Json → Json} (hf : Json.Rearranges f)
include hf

theorem Origin.ofJson?_rearranged {o : Origin} (ho : o.Bounded) :
    ofJson? (f o.toJson) = some o := by
  have hfields : Json.HasFields (f o.toJson) _ := hf.hasFields (by simp [field])
  obtain ⟨fs, hfs, hlookup⟩ := hfields ["file", "line", "column"]
  rw [ofJson?, hfs]
  simp [Json.Fields.required, hlookup, field, List.lookup_cons, hf.str, hf.nat, Json.asString?,
    Json.asNatBelow?, ho.1, ho.2]

theorem ScriptSource.ofJson?_rearranged (s : ScriptSource) : ofJson? (f s.toJson) = some s := by
  have hfields : Json.HasFields (f s.toJson) _ := hf.hasFields (by simp [field])
  obtain ⟨fs, hfs, hlookup⟩ := hfields ["identity", "checksum"]
  rw [ofJson?, hfs]
  simp [Json.Fields.required, hlookup, field, List.lookup_cons, hf.str, Json.asString?]

theorem Grant.ofJson?_rearranged (m : Json.Manner) (g : Grant) :
    ofJson? m (f g.toJson) = some g := by
  have hfields : Json.HasFields (f g.toJson) _ := hf.hasFields (by simp [field])
  obtain ⟨fs, hfs, hlookup⟩ := hfields ["path", "entry"]
  rw [ofJson?, hfs]
  simp [Json.Fields.required, hlookup, field, List.lookup_cons, hf.str, Json.asString?,
    Permission.ofJson?_rearranged hf]

end

theorem Grant.depth_toJson_le (g : Grant) : g.toJson.depth ≤ 3 := by
  have hentry := g.entry.depth_toJson_le
  refine Nat.succ_le_succ (Json.depthOfMembers_le_iff.2 ?_)
  simp [field, Json.depth, hentry]

theorem Grant.isWritable_toJson (g : Grant) : g.toJson.isWritable = true := by
  refine Json.membersWritable_iff.2 ?_
  simp [field, Json.isWritable, g.entry.isWritable_toJson]

/-! ## Actions -/

namespace Action

/-- The kind that the tag of the action names. -/
def kind : Action → ActionKind
  | ensure .user .. => .ensureUser
  | ensure .group .. => .ensureGroup
  | addMember .. => .addMember
  | removeMember .. => .removeMember
  | setPermission .. => .setPermission
  | setProperty .. => .setProperty
  | copy .. => .copy
  | move .. => .move
  | delete .. => .delete
  | purge .. => .purge
  | checkPresent .. => .checkExists
  | checkAbsent .. => .checkNotExists
  | checkPermission .. => .checkPermission

/-- The members of an action beside its tag. -/
def fields (a : Action) : List (String × Json) :=
  a.members.tail.filterMap id

/-- An action is written with its tag first. -/
theorem members_eq (a : Action) : ∃ name, ActionKind.names.lookup name = some a.kind ∧
    a.members.filterMap id = ("kind", .str name) :: a.fields := by
  cases a with
  | ensure k id path => cases k <;> exact ⟨_, rfl, rfl⟩
  | _ => exact ⟨_, rfl, rfl⟩

/-- No field of an action has the name of another one, of the tag or of the origin beside them. -/
theorem nodup_keys (a : Action) : ("origin" :: "kind" :: a.fields.map (·.1)).Nodup := by
  cases a with
  | ensure k id path => cases k <;> cases path <;> simp [fields, members, field, Json.optional]
  | purge path principal keep => cases principal <;> simp [fields, members, field, Json.optional]
  | checkPresent id k => cases k <;> simp [fields, members, field, Json.optional]
  | _ => simp [fields, members, field]

/-- The fields of an action give back the action. -/
theorem ofFields?_of_hasFields {f : Json → Json} (hf : Json.Rearranges f) {a : Action} {body : Json}
    (h : body.HasFields (a.fields.map fun m => (m.1, f m.2))) :
    ofFields? body a.kind = some a := by
  -- The cases differ in the names that the reader of their kind looks for.
  cases a with
  | ensure k id path =>
    obtain ⟨fs, hfs, hlookup⟩ := h ["id", "path"]
    cases k <;> cases path <;> rw [kind, ofFields?, hfs] <;>
      simp [Json.Fields.required, Json.Fields.optional, hlookup, fields, members, field,
        Json.optional, List.lookup_cons, hf.str, Json.asString?, Json.asOption?]
  | addMember group member | removeMember group member =>
    obtain ⟨fs, hfs, hlookup⟩ := h ["group", "member"]
    rw [kind, ofFields?, hfs]
    simp [Json.Fields.required, hlookup, fields, members, field, List.lookup_cons, hf.str,
      Json.asString?]
  | setPermission path entry | checkPermission path entry =>
    obtain ⟨fs, hfs, hlookup⟩ := h ["path", "entry"]
    rw [kind, ofFields?, hfs]
    simp [Json.Fields.required, hlookup, fields, members, field, List.lookup_cons, hf.str,
      Json.asString?, Permission.ofJson?_rearranged hf]
  | setProperty path key value =>
    obtain ⟨fs, hfs, hlookup⟩ := h ["path", "key", "value"]
    rw [kind, ofFields?, hfs]
    simp [Json.Fields.required, hlookup, fields, members, field, List.lookup_cons, hf.str,
      Json.asString?]
  | copy source target | move source target =>
    obtain ⟨fs, hfs, hlookup⟩ := h ["from", "to"]
    rw [kind, ofFields?, hfs]
    simp [Json.Fields.required, hlookup, fields, members, field, List.lookup_cons, hf.str,
      Json.asString?]
  | delete path =>
    obtain ⟨fs, hfs, hlookup⟩ := h ["path"]
    rw [kind, ofFields?, hfs]
    simp [Json.Fields.required, hlookup, fields, members, field, hf.str, Json.asString?]
  | purge path principal keep =>
    obtain ⟨fs, hfs, hlookup⟩ := h ["path", "principal", "keep"]
    have hkeep := Json.asList?_rearranged hf fun g (_ : g ∈ keep) =>
      g.ofJson?_rearranged hf .lenient
    cases principal <;> rw [kind, ofFields?, hfs] <;>
      simp [Json.Fields.required, Json.Fields.optional, hlookup, fields, members, field,
        Json.optional, List.lookup_cons, hf.str, Json.asString?, Json.asOption?, hkeep]
  | checkPresent id k =>
    obtain ⟨fs, hfs, hlookup⟩ := h ["id", "principal_kind"]
    cases k <;> rw [kind, ofFields?, hfs] <;>
      simp [Json.Fields.required, Json.Fields.optional, hlookup, fields, members, field,
        Json.optional, List.lookup_cons, hf.str, Json.asString?, Json.asOption?,
        PrincipalKind.ofJson?_name]
  | checkAbsent id =>
    obtain ⟨fs, hfs, hlookup⟩ := h ["id"]
    rw [kind, ofFields?, hfs]
    simp [Json.Fields.required, hlookup, fields, members, field, hf.str, Json.asString?]

/-- Whatever stands beside the tag can be written, and is no deeper than a list of grants. -/
theorem fields_fit (a : Action) :
    ∀ m ∈ a.fields, m.2.isWritable = true ∧ m.2.depth ≤ 4 := by
  have htext : ∀ s : String, (Json.str s).isWritable = true ∧ (Json.str s).depth ≤ 4 := fun s =>
    ⟨rfl, Nat.zero_le 4⟩
  have hentry : ∀ p : Permission, p.toJson.isWritable = true ∧ p.toJson.depth ≤ 4 := fun p =>
    ⟨p.isWritable_toJson, Nat.le_trans p.depth_toJson_le (by decide)⟩
  cases a with
  | ensure k id path =>
    cases k <;> cases path <;> simp [fields, members, field, Json.optional, htext]
  | purge path principal keep =>
    have hkeep : (Json.arr (keep.map Grant.toJson)).isWritable = true ∧
        (Json.arr (keep.map Grant.toJson)).depth ≤ 4 := by
      refine ⟨Json.itemsWritable_map fun g _ => g.isWritable_toJson, Nat.succ_le_succ ?_⟩
      exact Json.depthOfItems_le_iff.2 (List.forall_mem_map.2 fun g _ => g.depth_toJson_le)
    cases principal <;> simp [fields, members, field, Json.optional, htext, hkeep]
  | checkPresent id k => cases k <;> simp [fields, members, field, Json.optional, htext]
  | _ => simp [fields, members, field, htext, hentry]

end Action

/-! ## Plans -/

/-- Fields that were set aside are all readable, and none nests too deeply. -/
theorem Action.setAside_fields {f : Json → Json} (hf : Json.Rearranges f) (a : Action) :
    ∀ m ∈ a.fields.map fun m => (m.1, f m.2),
      (m.2.isReadable && decide (m.2.depth ≤ nestingLimit)) = true := by
  refine List.forall_mem_map.2 fun m hm => ?_
  obtain ⟨hwritable, hdepth⟩ := a.fields_fit m hm
  have hlimit : (f m.2).depth ≤ nestingLimit := hf.depth_le (Nat.le_trans hdepth (by decide))
  simp [Json.isReadable_of_isWritable (hf.isWritable hwritable), hlimit]

/-- The members of a planned action are its origin, its tag and the fields of the action. -/
theorem PlannedAction.exists_members {f : Json → Json} (hf : Json.Rearranges f)
    (a : PlannedAction) : ∃ (name : String) (ms : List (String × Json)),
      ActionKind.names.lookup name = some a.action.kind ∧ f a.toJson = .obj ms ∧
      ms.Perm (("origin", f a.origin.toJson) :: ("kind", .str name) ::
        a.action.fields.map fun m => (m.1, f m.2)) := by
  obtain ⟨name, hname, hmembers⟩ := a.action.members_eq
  obtain ⟨ms, hms, hperm⟩ :=
    hf.obj ((a.action.members ++ [field "origin" a.origin.toJson]).filterMap id)
  refine ⟨name, ms, hname, hms, ?_⟩
  rw [List.filterMap_append, hmembers, List.map_append] at hperm
  simpa [field, hf.str] using hperm.trans List.perm_append_comm

/-- A planned action is taken apart into its origin, its tag and the fields of the action, whatever
order these stand in. -/
theorem PlannedAction.ofJson?_rearranged {f : Json → Json} (hf : Json.Rearranges f)
    {a : PlannedAction} (ha : a.origin.Bounded) : ofJson? (f a.toJson) = some a := by
  obtain ⟨name, ms, hname, hms, hall⟩ := a.exists_members hf
  set fs := a.action.fields.map fun m => (m.1, f m.2) with hfs
  have hkeys : (("origin" :: "kind" :: fs.map (·.1))).Nodup := by
    simpa [hfs, Function.comp_def] using a.action.nodup_keys
  obtain ⟨horigin, hkind, hnodup⟩ := by simpa only [List.nodup_cons] using hkeys
  -- The members beside the origin are set aside, then those beside the tag.
  have hown := Json.perm_filter_ne hall horigin
  set own := ms.filter (·.1 != "origin") with hownEq
  obtain ⟨rest, htag, hrest⟩ := Json.tagged?_of_perm hown hkind
  have hfit : own.all (fun m => m.2.isReadable && decide (m.2.depth ≤ nestingLimit)) = true :=
    List.all_eq_true.2 fun m hm => by
      obtain rfl | hm := List.mem_cons.1 (hown.mem_iff.1 hm)
      · rfl
      · exact a.action.setAside_fields hf m hm
  obtain ⟨known, hknown, hlookup⟩ := Json.hasFields_of_perm hall hkeys ["origin"]
  have haction := Action.ofFields?_of_hasFields hf (Json.hasFields_of_perm hrest hnodup)
  have hkind? : ActionKind.ofJson? .lenient (.str name) = some a.action.kind := hname
  rw [hms, ofJson?, ← hownEq, if_pos hfit, hknown]
  simp [Json.Fields.required, hlookup, Origin.ofJson?_rearranged hf ha, htag, hkind?, haction]

theorem Origin.isWritable_toJson {o : Origin} (ho : o.Bounded) : o.toJson.isWritable = true := by
  have hline : o.line < UInt64.size := Nat.lt_trans ho.1 (by decide)
  have hcolumn : o.column < UInt64.size := Nat.lt_trans ho.2 (by decide)
  refine Json.membersWritable_iff.2 ?_
  simp [field, Json.isWritable, hline, hcolumn]

theorem ScriptSource.isWritable_toJson (s : ScriptSource) : s.toJson.isWritable = true :=
  rfl

theorem PlannedAction.isWritable_toJson {a : PlannedAction} (ha : a.origin.Bounded) :
    a.toJson.isWritable = true := by
  obtain ⟨name, -, hmembers⟩ := a.action.members_eq
  have hfields := fun m hm => (a.action.fields_fit m hm).1
  refine Json.membersWritable_iff.2 ?_
  rw [List.filterMap_append, hmembers]
  simpa [field, Json.isWritable, Origin.isWritable_toJson ha, or_imp, forall_and] using hfields

/-! ### What can be read -/

theorem Origin.bounded_of_ofJson? {j : Json} {o : Origin} (h : ofJson? j = some o) : o.Bounded := by
  obtain ⟨fs, -, h⟩ := Option.bind_eq_some_iff.1 h
  obtain ⟨file, -, h⟩ := Option.bind_eq_some_iff.1 h
  obtain ⟨line, hline, h⟩ := Option.bind_eq_some_iff.1 h
  obtain ⟨column, hcolumn, h⟩ := Option.bind_eq_some_iff.1 h
  obtain rfl := Option.some.inj h
  exact ⟨Json.lt_of_required hline, Json.lt_of_required hcolumn⟩

theorem PlannedAction.bounded_of_ofJson? {j : Json} {a : PlannedAction} (h : ofJson? j = some a) :
    a.origin.Bounded := by
  cases j with
  | obj members =>
    rw [ofJson?] at h
    split at h
    · obtain ⟨fs, -, h⟩ := Option.bind_eq_some_iff.1 h
      obtain ⟨origin, horigin, h⟩ := Option.bind_eq_some_iff.1 h
      obtain ⟨⟨kind, body⟩, -, h⟩ := Option.bind_eq_some_iff.1 h
      obtain ⟨k, -, h⟩ := Option.bind_eq_some_iff.1 h
      obtain ⟨action, -, h⟩ := Option.bind_eq_some_iff.1 h
      obtain rfl := Option.some.inj h
      obtain ⟨j, -, hj⟩ := Option.bind_eq_some_iff.1 horigin
      exact Origin.bounded_of_ofJson? hj
    · cases h
  | _ => cases h

namespace Plan

/-- The positions of a plan that was read are words of 32 bits. -/
theorem bounded_of_ofJson? {j : Json} {p : Plan} (h : ofJson? j = some p) : p.Bounded := by
  obtain ⟨fs, -, h⟩ := Option.bind_eq_some_iff.1 h
  obtain ⟨script, -, h⟩ := Option.bind_eq_some_iff.1 h
  obtain ⟨checksum, -, h⟩ := Option.bind_eq_some_iff.1 h
  obtain ⟨sources, -, h⟩ := Option.bind_eq_some_iff.1 h
  obtain ⟨actions, hactions, h⟩ := Option.bind_eq_some_iff.1 h
  obtain rfl := Option.some.inj h
  obtain ⟨j, -, hj⟩ := Option.bind_eq_some_iff.1 hactions
  exact Json.forall_of_asList? (fun _ _ => PlannedAction.bounded_of_ofJson?) hj

theorem ofJson?_rearranged {f : Json → Json} (hf : Json.Rearranges f) {p : Plan}
    (hp : p.Bounded) : ofJson? (f p.toJson) = some p := by
  have hsources := Json.asList?_rearranged hf fun s (_ : s ∈ p.sources) =>
    s.ofJson?_rearranged hf
  have hactions := Json.asList?_rearranged hf fun a ha =>
    PlannedAction.ofJson?_rearranged hf (hp a ha)
  have hfields : Json.HasFields (f p.toJson) _ := hf.hasFields (by simp [field])
  obtain ⟨fs, hfs, hlookup⟩ := hfields ["script", "checksum", "sources", "actions"]
  rw [ofJson?, hfs]
  simp [Json.Fields.required, hlookup, field, List.lookup_cons, hf.str, Json.asString?, hsources,
    hactions]

theorem isWritable_toJson {p : Plan} (hp : p.Bounded) : p.toJson.isWritable = true := by
  have hsources := Json.itemsWritable_map fun s (_ : s ∈ p.sources) => s.isWritable_toJson
  have hactions := Json.itemsWritable_map fun a ha => PlannedAction.isWritable_toJson (hp a ha)
  refine Json.membersWritable_iff.2 ?_
  simp [field, Json.isWritable, hsources, hactions]

/-- The form of a plan is lossless, also if the members of its objects are put in another order:
it is read as the plan, different plans have different forms, and a plan that was read from any text
is the one that is read from the texts that it is written as. -/
theorem form_lossless {f : Json → Json} (hf : Json.Rearranges f) :
    (∀ p : Plan, p.Bounded → ofJson? (f p.toJson) = some p) ∧
    (∀ p q : Plan, p.Bounded → q.Bounded → p ≠ q → f p.toJson ≠ f q.toJson) ∧
    ∀ (text : String) (p : Plan), (Json.read? text).bind ofJson? = some p →
      (Json.read? (f p.toJson).compact).bind ofJson? = some p ∧
      (Json.read? ((f p.toJson).pretty ++ "\n")).bind ofJson? = some p := by
  have hback : ∀ p : Plan, p.Bounded → ofJson? (f p.toJson) = some p := fun p hp =>
    ofJson?_rearranged hf hp
  refine ⟨hback, fun p q hp hq hne heq => hne ?_, fun text p hread => ?_⟩
  · refine Option.some.inj ?_
    rw [← hback p hp, heq, hback q hq]
  · obtain ⟨j, -, hj⟩ := Option.bind_eq_some_iff.1 hread
    have hp := bounded_of_ofJson? hj
    have hwritable := hf.isWritable (isWritable_toJson hp)
    rw [Json.read?_compact hwritable, Json.read?_pretty hwritable]
    exact ⟨hback p hp, hback p hp⟩

/-- A plan with optional parts that are there and optional parts that are not. -/
def varied : Plan where
  script := "s"
  checksum := "0c"
  sources := [⟨"lib", "1d"⟩, ⟨"s", "0c"⟩]
  actions := [
    ⟨.ensure .user "u" none, ⟨"s", 1, 1⟩⟩,
    ⟨.ensure .group "g" (some "/groups"), ⟨"s", 2, 1⟩⟩,
    ⟨.setPermission "/a" (.ofLists "g" .allow ["w", "r"] [("glob", "*")]), ⟨"lib", 7, 4294967295⟩⟩,
    ⟨.purge "/" none [⟨"/a", .ofLists "g" .deny ["r"] []⟩], ⟨"s", 4, 1⟩⟩,
    ⟨.checkPresent "u" (some .user), ⟨"s", 5, 1⟩⟩]

/-- A plan of one action. -/
def brief : Plan :=
  ⟨"s", "0c", [], [⟨.ensure .user "u" none, ⟨"s", 1, 1⟩⟩]⟩

/-- A text of that plan, in an order of its own, with an absent part spelled out and a member that
nobody knows. -/
def briefText : String :=
  "\x7b \"sources\": [], \"actions\": [" ++
  "\x7b\"origin\": \x7b\"column\": 1, \"file\": \"s\", \"line\": 1\x7d, \"path\": null, " ++
  "\"note\": [true], \"id\": \"u\", \"kind\": \"ensure_user\"\x7d], " ++
  "\"script\": \"s\", \"checksum\": \"0c\" \x7d"

theorem form_lossless_varied :
    Json.Rearranges Json.sortKeys ∧ varied.Bounded ∧
      ofJson? varied.toJson.sortKeys = some varied ∧
    brief.Bounded ∧ varied ≠ brief ∧ varied.toJson.sortKeys ≠ brief.toJson.sortKeys ∧
    (Json.read? briefText).bind ofJson? = some brief ∧
      (Json.read? brief.toJson.sortKeys.compact).bind ofJson? = some brief ∧
      (Json.read? (brief.toJson.sortKeys.pretty ++ "\n")).bind ofJson? = some brief := by
  obtain ⟨hback, hdistinct, htext⟩ := form_lossless .sortKeys
  have hvaried : varied.Bounded := by decide
  have hbrief : brief.Bounded := by decide
  have hne : varied ≠ brief := by decide
  have hread : (Json.read? briefText).bind ofJson? = some brief := by decide +kernel
  exact ⟨.sortKeys, hvaried, hback varied hvaried, hbrief, hne,
    hdistinct varied brief hvaried hbrief hne, hread, htext briefText brief hread⟩

end Plan

end Entitle
