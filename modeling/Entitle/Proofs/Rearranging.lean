import Entitle.Plan.Form
import Entitle.Proofs.Spelling
import Mathlib.Data.List.Perm.Basic

/-!
# Values read back in whatever order

Some of the programs that JSON goes through put the members of objects in an order of their own.
Whoever reads a record, a set of names or a table does not depend on that order as long as no key is
repeated, so the values of the library are read back from any writing that keeps strings, numbers
and the order of items.

## Main definitions

* `Json.Rearranges`: writings that at most put the members of objects in another order.
* `Json.HasFields`: the fields of a record, in whatever order they stand.

## Main statements

* `Table.ofList_of_perm`: a table is made of its entries, in whatever order they come.
* `Json.Rearranges.id`, `Json.Rearranges.sortKeys`: writings that put members in no other order, and
  in increasing order of their keys.
* `Json.Rearranges.isWritable`, `Json.Rearranges.depth_le`: what they do not change.
* `Json.hasFields_of_perm`, `Json.tagged?_of_perm`: records and their tags.
* `Json.asNames?_rearranged`, `Json.asTable?_rearranged`, `Json.asList?_rearranged`: collections.
* `Permission.ofJson?_rearranged`: permissions.
-/
namespace Entitle

open Json (field)

/-! ## Lists of entries and names -/

namespace Table

variable {β : Type}

/-- Entries with different keys are all found after they were inserted one after the other. -/
theorem get?_foldl_insert {es : List (String × β)} (hes : (es.map (·.1)).Nodup) (t : Table β)
    (k : String) :
    (es.foldl (fun t e => t.insert e.1 e.2) t).get? k = (es.lookup k).or (t.get? k) := by
  induction es generalizing t with
  | nil => rfl
  | cons e rest ih =>
    rw [List.map_cons, List.nodup_cons] at hes
    rw [List.foldl_cons, ih hes.2, get?_insert, List.lookup_cons]
    by_cases hk : k = e.1
    · have hrest : rest.lookup k = none := by
        refine List.lookup_eq_none_iff.2 fun f hf => ?_
        have hne : k ≠ f.1 := fun h => hes.1 (hk ▸ h ▸ List.mem_map_of_mem (f := (·.1)) hf)
        simpa using hne
      simp [hk ▸ hrest, hk]
    · have hne : (k == e.1) = false := by simp [hk]
      rw [hne, if_neg hk]

/-- A table is made of its entries, in whatever order they come. -/
theorem ofList_of_perm {t : Table β} {es : List (String × β)} (h : es.Perm t.entries) :
    ofList es = t := by
  have hes : (es.map (·.1)).Nodup := (h.map _).nodup_iff.2 t.nodup_keys
  refine ext_get? fun k => Option.ext fun v => ?_
  rw [ofList, get?_foldl_insert hes, get?_empty, Option.or_none, lookup_eq_some_iff_mem hes,
    get?_eq_some_iff, h.mem_iff]

theorem eq_empty_of_isEmpty {t : Table β} (h : t.isEmpty = true) : t = .empty := by
  obtain ⟨es, hs⟩ := t
  obtain rfl : es = [] := by simpa [isEmpty] using h
  rfl

end Table

namespace NameSet

/-- A set is made of its members. -/
theorem ofList_toList (s : NameSet) : ofList s.toList = s :=
  ext_mem fun _ => mem_ofList

theorem eq_empty_of_isEmpty {s : NameSet} (h : s.isEmpty = true) : s = .empty := by
  obtain ⟨xs, hs⟩ := s
  obtain rfl : xs = [] := by simpa [isEmpty] using h
  rfl

end NameSet

/-! ## Collections in JSON -/

namespace Json

variable {α : Type} {write : α → Json} {read : Json → Option α}

private theorem mapM_map_eq_some {β γ : Type} {f : β → γ} {g : γ → Option β} {xs : List β}
    (h : ∀ x ∈ xs, g (f x) = some x) : (xs.map f).mapM g = some xs := by
  induction xs with
  | nil => rfl
  | cons x xs ih =>
    obtain ⟨hx, hxs⟩ := List.forall_mem_cons.1 h
    simp [hx, ih hxs]

/-- An array is read back if its items are. -/
theorem asList?_map {xs : List α} (h : ∀ x ∈ xs, read (write x) = some x) :
    asList? read (.arr (xs.map write)) = some xs :=
  mapM_map_eq_some h

/-- An object is read back as the table that it was written for if the values are, in whatever
order its members stand. -/
theorem asTable?_of_perm {t : Table α} {members : List (String × Json)}
    (hperm : members.Perm (t.entries.map fun (k, v) => (k, write v)))
    (h : ∀ e ∈ t.entries, read (write e.2) = some e.2) :
    asTable? read (.obj members) = some t := by
  obtain ⟨es, rfl, hes⟩ := (congrFun₂ (List.eq_map_comp_perm _) _ _).mpr hperm
  have hentries : (es.map fun (k, v) => (k, write v)).mapM
      (fun m : String × Json => (read m.2).map (m.1, ·)) = some es :=
    mapM_map_eq_some fun e he => by simp [h e (hes.mem_iff.1 he)]
  rw [asTable?, hentries, Option.map_some, Table.ofList_of_perm hes]

theorem asTable?_map {t : Table α} (h : ∀ e ∈ t.entries, read (write e.2) = some e.2) :
    asTable? read (.obj (t.entries.map fun (k, v) => (k, write v))) = some t :=
  asTable?_of_perm (.refl _) h

/-- What holds of everything that an item may be read as holds of the items of a list. -/
theorem forall_of_asList? {P : α → Prop}
    (h : ∀ j x, read j = some x → P x) {j : Json} {xs : List α} (hread : asList? read j = some xs) :
    ∀ x ∈ xs, P x := by
  cases j with
  | arr items =>
    rw [asList?] at hread
    induction items generalizing xs with
    | nil =>
      obtain rfl : xs = [] := (Option.some.inj hread).symm
      simp
    | cons j rest ih =>
      rw [List.mapM_cons] at hread
      obtain ⟨x, hx, hread⟩ := Option.bind_eq_some_iff.1 hread
      obtain ⟨xs, hxs, hread⟩ := Option.bind_eq_some_iff.1 hread
      obtain rfl := Option.some.inj hread
      exact List.forall_mem_cons.2 ⟨h j x hx, ih hxs⟩
  | _ => cases hread

theorem lt_of_required {fs : Fields} {name : String} {bound n : Nat}
    (h : fs.required name (asNatBelow? bound) = some n) : n < bound := by
  obtain ⟨j, -, h⟩ := Option.bind_eq_some_iff.1 h
  cases j with
  | nat m =>
    rw [asNatBelow?] at h
    split at h
    · exact Option.some.inj h ▸ ‹m < bound›
    · cases h
  | _ => cases h

/-! ## Extent of values -/

/-- What holds of the values that hold no others, and of arrays and objects when it holds of what
they hold, holds of all values. -/
theorem parts_induction {P : Json → Prop} (leaf : ∀ j : Json, j.depth = 0 → P j)
    (arr : ∀ items, (∀ j ∈ items, P j) → P (.arr items))
    (obj : ∀ members : List (String × Json), (∀ m ∈ members, P m.2) → P (.obj members)) :
    (j : Json) → P j
  | .arr items => arr items fun j _ => parts_induction leaf arr obj j
  | .obj members => obj members fun m _ => parts_induction leaf arr obj m.2
  | .null | .bool _ | .nat _ | .numeral _ | .str _ | .unreadable => leaf _ rfl
termination_by j => sizeOf j
decreasing_by
  · have hj := List.sizeOf_lt_of_mem ‹j ∈ items›
    simp only [Json.arr.sizeOf_spec]
    omega
  · have hm := List.sizeOf_lt_of_mem ‹m ∈ members›
    obtain ⟨k, j⟩ := m
    simp only [Json.obj.sizeOf_spec, Prod.mk.sizeOf_spec] at hm ⊢
    omega

private theorem itemsReadable_iff {items : List Json} :
    itemsReadable items = true ↔ ∀ j ∈ items, j.isReadable = true := by
  induction items with
  | nil => simp [itemsReadable]
  | cons j rest ih => simp [itemsReadable, ih]

private theorem membersReadable_iff {members : List (String × Json)} :
    membersReadable members = true ↔ ∀ m ∈ members, m.2.isReadable = true := by
  induction members with
  | nil => simp [membersReadable]
  | cons m rest ih => simp [membersReadable, ih]

theorem depthOfItems_le_iff {items : List Json} {d : Nat} :
    depthOfItems items ≤ d ↔ ∀ j ∈ items, j.depth ≤ d := by
  induction items with
  | nil => simp [depthOfItems]
  | cons j rest ih => rw [depthOfItems, Nat.max_le, List.forall_mem_cons, ih]

theorem depthOfMembers_le_iff {members : List (String × Json)} {d : Nat} :
    depthOfMembers members ≤ d ↔ ∀ m ∈ members, m.2.depth ≤ d := by
  induction members with
  | nil => simp [depthOfMembers]
  | cons m rest ih => rw [depthOfMembers, Nat.max_le, List.forall_mem_cons, ih]

theorem itemsWritable_iff {items : List Json} :
    itemsWritable items = true ↔ ∀ j ∈ items, j.isWritable = true := by
  induction items with
  | nil => simp [itemsWritable]
  | cons j rest ih => simp [itemsWritable, ih]

theorem membersWritable_iff {members : List (String × Json)} :
    membersWritable members = true ↔ ∀ m ∈ members, m.2.isWritable = true := by
  induction members with
  | nil => simp [membersWritable]
  | cons m rest ih => simp [membersWritable, ih]

theorem itemsWritable_map {xs : List α} (h : ∀ x ∈ xs, (write x).isWritable = true) :
    itemsWritable (xs.map write) = true :=
  itemsWritable_iff.2 (List.forall_mem_map.2 h)

theorem membersWritable_map (es : List (String × α))
    (h : ∀ e ∈ es, (write e.2).isWritable = true) :
    membersWritable (es.map fun (k, v) => (k, write v)) = true :=
  membersWritable_iff.2 (List.forall_mem_map.2 h)

theorem isReadable_of_isWritable {j : Json} (h : j.isWritable = true) : j.isReadable = true := by
  induction j using parts_induction with
  | leaf j hj =>
    cases j with
    | null | bool | nat | str => rfl
    | numeral | unreadable => cases h
    | arr | obj => cases hj
  | arr items ih => exact itemsReadable_iff.2 fun j hj => ih j hj (itemsWritable_iff.1 h j hj)
  | obj members ih => exact membersReadable_iff.2 fun m hm => ih m hm (membersWritable_iff.1 h m hm)

theorem isWritable_names (s : NameSet) : s.toJson.isWritable = true :=
  itemsWritable_map fun _ _ => rfl

theorem isWritable_table (t : Table String) : t.toJson.isWritable = true :=
  membersWritable_map _ fun _ _ => rfl

/-! ## Members in another order -/

/-- A writing of values that keeps all of them and at most puts the members of objects in another
order. -/
structure Rearranges (f : Json → Json) : Prop where
  /-- What holds no other value stays. -/
  leaf : ∀ j : Json, j.depth = 0 → f j = j
  /-- The items of an array stay in their order. -/
  arr : ∀ items, f (.arr items) = .arr (items.map f)
  /-- The members of an object are kept. -/
  obj : ∀ members, ∃ ms : List (String × Json), f (.obj members) = .obj ms ∧
    ms.Perm (members.map fun m => (m.1, f m.2))

namespace Rearranges

variable {f : Json → Json}

/-- A value may be written as it is. -/
protected theorem id : Rearranges id :=
  ⟨fun _ _ => rfl, fun items => by rw [List.map_id, id], fun members => ⟨members, rfl, by simp⟩⟩

private theorem perm_insertMember (m : String × Json) (ms : List (String × Json)) :
    (insertMember m ms).Perm (m :: ms) := by
  induction ms with
  | nil => exact .refl _
  | cons n rest ih =>
    rw [insertMember]
    split
    · exact (ih.cons n).trans (.swap _ _ _)
    · exact .refl _

/-- A value may be written with sorted keys. -/
protected theorem sortKeys : Rearranges sortKeys where
  leaf j h := by
    cases j with
    | null | bool | nat | numeral | str | unreadable => rfl
    | arr | obj => cases h
  arr items := by
    have hitems : sortKeysInItems items = items.map sortKeys := by
      induction items with
      | nil => rfl
      | cons j rest ih => rw [sortKeysInItems, ih, List.map_cons]
    rw [Json.sortKeys, hitems]
  obj members := by
    refine ⟨sortKeysInMembers members, rfl, ?_⟩
    induction members with
    | nil => exact .refl _
    | cons m rest ih => exact (perm_insertMember _ _).trans (ih.cons _)

variable (hf : Rearranges f)
include hf

theorem str (s : String) : f (.str s) = .str s :=
  hf.leaf _ rfl

theorem nat (n : Nat) : f (.nat n) = .nat n :=
  hf.leaf _ rfl

theorem isWritable {j : Json} (h : j.isWritable = true) : (f j).isWritable = true := by
  induction j using parts_induction with
  | leaf j hj => rwa [hf.leaf j hj]
  | arr items ih =>
    rw [hf.arr]
    exact itemsWritable_map fun j hj => ih j hj (itemsWritable_iff.1 h j hj)
  | obj members ih =>
    obtain ⟨ms, hms, hperm⟩ := hf.obj members
    rw [hms]
    refine membersWritable_iff.2 fun m hm => ?_
    obtain ⟨n, hn, rfl⟩ := List.mem_map.1 (hperm.mem_iff.1 hm)
    exact ih n hn (membersWritable_iff.1 h n hn)

theorem depth_le {j : Json} {d : Nat} (h : j.depth ≤ d) : (f j).depth ≤ d := by
  induction j using parts_induction generalizing d with
  | leaf j hj => rwa [hf.leaf j hj]
  | arr items ih =>
    cases d with
    | zero => cases h
    | succ d =>
      rw [hf.arr]
      refine Nat.succ_le_succ (depthOfItems_le_iff.2 (List.forall_mem_map.2 fun j hj => ?_))
      exact ih j hj (depthOfItems_le_iff.1 (Nat.le_of_succ_le_succ h) j hj)
  | obj members ih =>
    cases d with
    | zero => cases h
    | succ d =>
      obtain ⟨ms, hms, hperm⟩ := hf.obj members
      rw [hms]
      refine Nat.succ_le_succ (depthOfMembers_le_iff.2 fun m hm => ?_)
      obtain ⟨n, hn, rfl⟩ := List.mem_map.1 (hperm.mem_iff.1 hm)
      exact ih n hn (depthOfMembers_le_iff.1 (Nat.le_of_succ_le_succ h) n hn)

end Rearranges

/-! ## Records in whatever order -/

/-- The fields of a record: of the names that are known to its reader, those are found that stand
there. -/
def HasFields (j : Json) (ms : List (String × Json)) : Prop :=
  ∀ names, ∃ fs, j.fields? names = some fs ∧ ∀ k ∈ names, fs.lookup k = ms.lookup k

theorem hasFields_of_perm {ms ns : List (String × Json)} (hperm : ns.Perm ms)
    (h : (ms.map (·.1)).Nodup) : HasFields (.obj ns) ms := by
  intro names
  have hns : (ns.map (·.1)).Nodup := (hperm.map _).nodup_iff.2 h
  have hknown : ((ns.filter fun m => names.contains m.1).map (·.1)).Nodup :=
    hns.sublist (List.filter_sublist.map _)
  refine ⟨_, if_pos hknown, fun k hk => Option.ext fun v => ?_⟩
  rw [Table.lookup_eq_some_iff_mem hknown, Table.lookup_eq_some_iff_mem h, List.mem_filter,
    hperm.mem_iff]
  simp [hk]

theorem Rearranges.hasFields {f : Json → Json} (hf : Rearranges f)
    {members : List (Option (String × Json))} (h : ((members.filterMap id).map (·.1)).Nodup) :
    HasFields (f (.objOf members)) ((members.filterMap id).map fun m => (m.1, f m.2)) := by
  obtain ⟨ms, hms, hperm⟩ := hf.obj (members.filterMap id)
  rw [objOf, hms]
  exact hasFields_of_perm hperm (by rwa [List.map_map])

/-- A member of a name of its own is taken out of the others, in whatever order they stand. -/
theorem perm_filter_ne {key : String} {j : Json} {ms ns : List (String × Json)}
    (hperm : ns.Perm ((key, j) :: ms)) (h : key ∉ ms.map (·.1)) :
    (ns.filter (·.1 != key)).Perm ms := by
  have hall : ms.filter (·.1 != key) = ms := by
    refine List.filter_eq_self.2 fun m hm => bne_iff_ne.2 fun heq => h ?_
    exact heq ▸ List.mem_map_of_mem (f := (·.1)) hm
  have hfilter := hperm.filter (·.1 != key)
  rwa [List.filter_cons_of_neg (by simp), hall] at hfilter

/-- The tag of a record and what stands beside it, in whatever order. -/
theorem tagged?_of_perm {tag : String} {j : Json} {ms ns : List (String × Json)}
    (hperm : ns.Perm ((tag, j) :: ms)) (h : tag ∉ ms.map (·.1)) :
    ∃ rest : List (String × Json), tagged? tag (.obj ns) = some (j, .obj rest) ∧ rest.Perm ms := by
  refine ⟨ns.filter (·.1 != tag), ?_, perm_filter_ne hperm h⟩
  have hnone : ms.filter (·.1 == tag) = [] := by
    refine List.filter_eq_nil_iff.2 fun m hm heq => h ?_
    exact beq_iff_eq.1 heq ▸ List.mem_map_of_mem (f := (·.1)) hm
  have htag := hperm.filter (·.1 == tag)
  rw [List.filter_cons_of_pos (by simp), hnone] at htag
  rw [tagged?, List.perm_singleton.1 htag]

/-! ## Collections in whatever order -/

section

variable {f : Json → Json} (hf : Rearranges f)
include hf

theorem asNames?_rearranged (s : NameSet) : asNames? (f s.toJson) = some s := by
  have hitems : (s.toList.map Json.str).map f = s.toList.map Json.str := by
    rw [List.map_map]
    exact List.map_congr_left fun _ _ => hf.str _
  have hnames : asList? asString? (f s.toJson) = some s.toList := by
    rw [NameSet.toJson, hf.arr, hitems]
    exact asList?_map fun _ _ => rfl
  rw [asNames?, hnames, Option.map_some, NameSet.ofList_toList]

theorem asTable?_rearranged (t : Table String) : asTable? asString? (f t.toJson) = some t := by
  obtain ⟨ms, hms, hperm⟩ := hf.obj (t.entries.map fun e => (e.1, .str e.2))
  have hsame : ms.Perm (t.entries.map fun e => (e.1, .str e.2)) := by
    rw [List.map_map] at hperm
    exact hperm.trans (.of_eq (List.map_congr_left fun e _ => by simp [hf.str]))
  have hwritten : f t.toJson = .obj ms := hms
  rw [hwritten]
  exact asTable?_of_perm hsame fun _ _ => rfl

/-- An array is read back if its items are. -/
theorem asList?_rearranged {α : Type} {write : α → Json} {read : Json → Option α} {xs : List α}
    (h : ∀ x ∈ xs, read (f (write x)) = some x) :
    asList? read (f (.arr (xs.map write))) = some xs := by
  rw [hf.arr, List.map_map]
  exact asList?_map h

end

theorem asNames?_toJson (s : NameSet) : asNames? s.toJson = some s :=
  asNames?_rearranged .id s

theorem asTable?_toJson (t : Table String) : asTable? asString? t.toJson = some t :=
  asTable?_rearranged .id t

end Json

/-! ## Permissions -/

theorem Effect.ofJson?_name (m : Json.Manner) (e : Effect) :
    Effect.ofJson? m (.str e.name) = some e := by
  cases e <;> rfl

theorem PrincipalKind.ofJson?_name (m : Json.Manner) (k : PrincipalKind) :
    PrincipalKind.ofJson? m (.str k.name) = some k := by
  cases k <;> rfl

/-- Restrictions are left out if there are none, and there are none if they are left out. -/
theorem Permission.ofJson?_rearranged {f : Json → Json} (hf : Json.Rearranges f) (m : Json.Manner)
    (p : Permission) : ofJson? m (f p.toJson) = some p := by
  obtain ⟨principal, effect, privileges, restrictions⟩ := p
  have hfields : Json.HasFields (f (toJson ⟨principal, effect, privileges, restrictions⟩)) _ :=
    hf.hasFields (by cases restrictions.isEmpty <;>
      simp [field, Json.optional, Json.unlessEmpty])
  obtain ⟨fs, hfs, hlookup⟩ := hfields ["principal", "effect", "privileges", "restrictions"]
  rw [ofJson?, hfs]
  cases hempty : restrictions.isEmpty with
  | true =>
    obtain rfl := Table.eq_empty_of_isEmpty hempty
    simp [Json.Fields.required, Json.Fields.withDefault, hlookup, field, Json.optional,
      Json.unlessEmpty, hempty, List.lookup_cons, hf.str, Json.asString?, Effect.ofJson?_name,
      Json.asNames?_rearranged hf]
  | false =>
    simp [Json.Fields.required, Json.Fields.withDefault, hlookup, field, Json.optional,
      Json.unlessEmpty, hempty, List.lookup_cons, hf.str, Json.asString?, Effect.ofJson?_name,
      Json.asNames?_rearranged hf, Json.asTable?_rearranged hf]

theorem Permission.isWritable_toJson (p : Permission) : p.toJson.isWritable = true := by
  cases hempty : p.restrictions.isEmpty <;>
    simp [toJson, Json.objOf, field, Json.optional, Json.unlessEmpty, hempty, Json.isWritable,
      Json.membersWritable, Json.isWritable_names, Json.isWritable_table]

theorem NameSet.depth_toJson_le (s : NameSet) : s.toJson.depth ≤ 1 :=
  Nat.succ_le_succ (Json.depthOfItems_le_iff.2 (List.forall_mem_map.2 fun _ _ => Nat.le_refl 0))

theorem Table.depth_toJson_le (t : Table String) : t.toJson.depth ≤ 1 :=
  Nat.succ_le_succ (Json.depthOfMembers_le_iff.2 (List.forall_mem_map.2 fun _ _ => Nat.le_refl 0))

theorem Permission.depth_toJson_le (p : Permission) : p.toJson.depth ≤ 2 := by
  have hprivileges := p.privileges.depth_toJson_le
  have hrestrictions := p.restrictions.depth_toJson_le
  refine Nat.succ_le_succ (Json.depthOfMembers_le_iff.2 ?_)
  cases p.restrictions.isEmpty <;>
    simp [field, Json.optional, Json.unlessEmpty, Json.depth, hprivileges, hrestrictions]

end Entitle
