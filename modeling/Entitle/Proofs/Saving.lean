import Entitle.Proofs.Files
import Entitle.Proofs.Rearranging
import Entitle.Proofs.WellFormed
import Entitle.Repository.Stored

/-!
# State files

A state that is written to its file is read back as the same state, provided that it has a root:
whoever reads a state file adds a root where there is none. A state that was read has a root, and no
sound call takes it away, so the states that a repository comes to are all kept by their files.

## Main definitions

* `Repository.opened`: what opening a file with a content gives.

## Main statements

* `State.ofJson?_toJson`: a state is read back from its JSON form.
* `State.ofText?_text`: a state with a root is read back from its text.
* `State.hasNode_root_answer`: a sound call leaves the root.
* `Repository.opened_text`: opening the file of a state.
-/
namespace Entitle

open Json (field)

/-! ## The parts of a state -/

namespace Principal

theorem ofJson?_toJson (p : Principal) : ofJson? p.toJson = some p := by
  obtain ⟨id, kind, path, members⟩ := p
  cases hempty : members.isEmpty with
  | true =>
    obtain rfl := NameSet.eq_empty_of_isEmpty hempty
    cases path <;>
      simp [toJson, ofJson?, Json.objOf, field, Json.optional, Json.unlessEmpty, hempty,
        Json.fields?, Json.Fields.required, Json.Fields.optional, Json.Fields.withDefault,
        List.lookup_cons, Json.asString?, Json.asOption?, PrincipalKind.ofJson?_name]
  | false =>
    cases path <;>
      simp [toJson, ofJson?, Json.objOf, field, Json.optional, Json.unlessEmpty, hempty,
        Json.fields?, Json.Fields.required, Json.Fields.optional, Json.Fields.withDefault,
        List.lookup_cons, Json.asString?, Json.asOption?, PrincipalKind.ofJson?_name,
        Json.asNames?_toJson]

theorem isWritable_toJson (p : Principal) : p.toJson.isWritable = true := by
  cases hpath : p.path <;> cases hempty : p.members.isEmpty <;>
    simp [toJson, Json.objOf, field, Json.optional, Json.unlessEmpty, hpath, hempty,
      Json.isWritable, Json.membersWritable, Json.isWritable_names]

end Principal

namespace Node

theorem ofJson?_toJson (n : Node) : ofJson? n.toJson = some n := by
  obtain ⟨properties, acl⟩ := n
  have hacl : Json.asList? (Permission.ofJson? .strict) (.arr (acl.map Permission.toJson)) =
      some acl := Json.asList?_map fun p _ => p.ofJson?_rearranged .id .strict
  cases hproperties : properties.isEmpty with
  | true =>
    obtain rfl := Table.eq_empty_of_isEmpty hproperties
    cases acl <;>
      simp_all [toJson, ofJson?, Json.objOf, Json.optional, Json.unlessEmpty, Json.fields?,
        Json.Fields.withDefault, List.lookup_cons]
  | false =>
    cases acl <;>
      simp_all [toJson, ofJson?, Json.objOf, Json.optional, Json.unlessEmpty, Json.fields?,
        Json.Fields.withDefault, List.lookup_cons, Json.asTable?_toJson]

theorem isWritable_toJson (n : Node) : n.toJson.isWritable = true := by
  have hacl : Json.itemsWritable (n.acl.map Permission.toJson) = true :=
    Json.itemsWritable_map fun p _ => p.isWritable_toJson
  cases hproperties : n.properties.isEmpty <;> cases hempty : n.acl.isEmpty <;>
    simp [toJson, Json.objOf, Json.optional, Json.unlessEmpty, hproperties, hempty, Json.isWritable,
      Json.membersWritable, Json.isWritable_table, hacl]

end Node

/-! ## States -/

namespace State

/-- A state is read back from its JSON form. -/
theorem ofJson?_toJson (s : State) : ofJson? s.toJson = some s := by
  have hprincipals := Json.asTable?_map (t := s.principals) fun e _ => e.2.ofJson?_toJson
  have hnodes := Json.asTable?_map (t := s.nodes) fun e _ => e.2.ofJson?_toJson
  simp [toJson, ofJson?, Json.objOf, field, Json.fields?, Json.Fields.withDefault,
    List.lookup_cons, hprincipals, hnodes]

theorem isWritable_toJson (s : State) : s.toJson.isWritable = true := by
  have hprincipals := Json.membersWritable_map s.principals.entries fun e _ =>
    e.2.isWritable_toJson
  have hnodes := Json.membersWritable_map s.nodes.entries fun e _ => e.2.isWritable_toJson
  simp [toJson, Json.objOf, field, Json.isWritable, Json.membersWritable, hprincipals, hnodes]

private theorem addNode_root (s : State) :
    s.addNode "/" = { s with nodes := addTo s.nodes "/" } := by
  have hancestors : Path.ancestors "/" = ["/"] := by decide +kernel
  rw [addNode, hancestors]
  rfl

private theorem hasNode_addNode_root (s : State) : (s.addNode "/").hasNode "/" = true := by
  rw [addNode_root, hasNode, addTo]
  split
  · assumption
  · exact Table.contains_insert.2 (.inl rfl)

/-- A root is not added twice. -/
theorem addNode_root_eq_self {s : State} (h : s.hasNode "/" = true) : s.addNode "/" = s := by
  rw [addNode_root, addTo, ← hasNode, if_pos h]

/-- A state with a root is read back from its text. -/
theorem ofText?_text {s : State} (h : s.hasNode "/" = true) : ofText? s.text = some s := by
  rw [ofText?, text, Json.read?_pretty s.isWritable_toJson, Option.bind_some, ofJson?_toJson,
    Option.map_some, addNode_root_eq_self h]

/-- What is read has a root. -/
theorem hasNode_root_of_ofText? {text : String} {s : State} (h : ofText? text = some s) :
    s.hasNode "/" = true := by
  obtain ⟨j, -, h⟩ := Option.bind_eq_some_iff.1 h
  obtain ⟨t, -, rfl⟩ := Option.map_eq_some_iff.1 h
  exact t.hasNode_addNode_root

/-- A sound call leaves the root. -/
theorem hasNode_root_answer {s s' : State} {c : Call} {a : c.Answer} (hc : c.Sound)
    (hs : s.hasNode "/" = true) (h : s.answer c = .ok (a, s')) : s'.hasNode "/" = true := by
  cases hcall : c.rearranges with
  | false => rw [hasNode_answer hcall h, hs]
  | true =>
    cases c with
    | copy source target =>
      obtain ⟨-, -, -, rfl⟩ := transfer_eq_ok (done_eq_ok h)
      exact contains_plant.2 (.inl hs)
    | move source target =>
      obtain ⟨hsource, htarget, houtside⟩ := hc
      have hroot := hsource.root_not_within (source_ne_root htarget houtside)
      obtain ⟨-, -, -, rfl⟩ := transfer_eq_ok (done_eq_ok h)
      refine contains_plant.2 (.inl ?_)
      rw [if_neg Bool.false_ne_true, Table.contains_filterKeys, hroot]
      exact hs
    | delete path =>
      have hroot := Path.IsPath.root_not_within hc (delete_eq_ok (done_eq_ok h)).1
      rw [hasNode_delete (done_eq_ok h), hroot, hs]
      rfl
    | _ => cases hcall

end State

/-! ## Opening -/

namespace Repository

/-- What opening a state file gives, by what is read of it. -/
def ofRead (file : String) : Except FileError String → Except Refusal Repository
  | .ok text =>
    match State.ofText? text with
    | some s => .ok ⟨s, 0, some file⟩
    | none => .error (.rejected s!"invalid state file {file}: not a repository state")
  | .error e =>
    if e.isMissing then .ok ⟨.initial, 0, some file⟩
    else .error (.rejected s!"cannot read state file {file}: {e.message}")

theorem load_eq (file : String) :
    load file = Host.readText file >>= fun read => pure (ofRead file read) := by
  refine congrArg (Host.readText file >>= ·) (funext fun read => ?_)
  cases read with
  | ok text => cases h : State.ofText? text <;> simp [ofRead, h]
  | error e => exact (apply_ite pure _ _ _).symm

/-- What opening a state file gives that has a content or is missing. -/
def opened (file : String) (c : Option ByteArray) : Except Refusal Repository :=
  ofRead file (Host.textIn c)

/-- The file of a state with a root is opened with that state. -/
theorem opened_text (file : String) {s : State} (h : s.hasNode "/" = true) :
    opened file (some s.text.toUTF8) = .ok ⟨s, 0, some file⟩ := by
  rw [opened, Host.textIn_eq_ok_iff.2 rfl, ofRead, State.ofText?_text h]

/-- A repository that was opened has a root, and belongs to its file. -/
theorem opened_eq_ok {file : String} {c : Option ByteArray} {r : Repository}
    (h : opened file c = .ok r) : ∃ s, s.hasNode "/" = true ∧ r = ⟨s, 0, some file⟩ := by
  rw [opened] at h
  cases hread : Host.textIn c with
  | ok text =>
    rw [hread, ofRead] at h
    split at h
    · next s hs => exact ⟨s, State.hasNode_root_of_ofText? hs, (Except.ok.inj h).symm⟩
    · cases h
  | error e =>
    rw [hread, ofRead] at h
    split at h
    · exact ⟨.initial, rfl, (Except.ok.inj h).symm⟩
    · cases h

end Repository

end Entitle
