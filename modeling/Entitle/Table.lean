/-!
# Tables

Finite maps with text keys, in increasing order of the keys, so that a table has one
representation. Text is ordered by code points, which is also the order of its UTF-8 bytes.

## Main definitions

* `Table`: entries in increasing order of their keys.
* `Table.get?`, `Table.insert`, `Table.erase`, `Table.filterKeys`: look-up and changes.

## Main statements

* `Table.get?_insert`, `Table.get?_erase`, `Table.get?_filterKeys`: the changes through look-ups.
* `Table.ext_get?`: two tables with the same look-ups are equal.
-/
namespace Entitle

/-- Of two different texts one precedes the other. -/
theorem lt_of_not_lt_of_ne {a b : String} (h : ¬ a < b) (hne : a ≠ b) : b < a := by
  by_cases hba : b < a
  · exact hba
  · exact absurd (String.le_antisymm (String.not_lt.1 hba) (String.not_lt.1 h)) hne

/-- A finite map from texts, its entries in strictly increasing order of their keys. -/
structure Table (β : Type) where
  entries : List (String × β)
  sorted : entries.Pairwise fun e f => e.1 < f.1
  deriving DecidableEq

namespace Table

variable {β γ : Type}

/-! ## Look-up -/

/-- The table without entries. -/
def empty : Table β := ⟨[], .nil⟩

instance : Inhabited (Table β) := ⟨empty⟩

instance [Repr β] : Repr (Table β) := ⟨fun t n => reprPrec t.entries n⟩

/-- The value at a key. -/
def get? (t : Table β) (k : String) : Option β :=
  t.entries.lookup k

/-- Is there an entry at the key? -/
def contains (t : Table β) (k : String) : Bool :=
  (t.get? k).isSome

/-- The keys in increasing order. -/
def keys (t : Table β) : List String :=
  t.entries.map (·.1)

/-- No entries. -/
def isEmpty (t : Table β) : Bool :=
  t.entries.isEmpty

@[simp] theorem get?_empty (k : String) : (empty : Table β).get? k = none := rfl

/-- Of entries with different keys, a look-up finds exactly those that are there. -/
theorem lookup_eq_some_iff_mem {es : List (String × β)} (hes : (es.map (·.1)).Nodup) {k : String}
    {v : β} : es.lookup k = some v ↔ (k, v) ∈ es := by
  induction es with
  | nil => simp
  | cons e rest ih =>
    obtain ⟨k', v'⟩ := e
    rw [List.map_cons, List.nodup_cons] at hes
    by_cases hk : k = k'
    · subst hk
      have : (k, v) ∉ rest := fun h => hes.1 (List.mem_map_of_mem (f := (·.1)) h)
      simp [this, eq_comm]
    · have hne : (k == k') = false := by simp [hk]
      simp [List.lookup_cons, hne, ih hes.2, hk]

/-- No key is repeated. -/
theorem nodup_keys (t : Table β) : t.keys.Nodup :=
  List.pairwise_map.2 (t.sorted.imp String.ne_of_lt)

/-- A look-up finds exactly the entries. -/
theorem get?_eq_some_iff {t : Table β} {k : String} {v : β} :
    t.get? k = some v ↔ (k, v) ∈ t.entries :=
  lookup_eq_some_iff_mem t.nodup_keys

theorem mem_keys {t : Table β} {k : String} : k ∈ t.keys ↔ t.contains k = true := by
  rw [contains, Option.isSome_iff_exists, keys, List.mem_map]
  constructor
  · rintro ⟨⟨k', v⟩, h, rfl⟩
    exact ⟨v, get?_eq_some_iff.2 h⟩
  · rintro ⟨v, h⟩
    exact ⟨(k, v), get?_eq_some_iff.1 h, rfl⟩

/-- Tables with the same look-ups are equal: entries in increasing order are determined by the
set of them. -/
theorem ext_get? {s t : Table β} (h : ∀ k, s.get? k = t.get? k) : s = t := by
  have mem : ∀ e, e ∈ s.entries ↔ e ∈ t.entries := fun e => by
    rw [← get?_eq_some_iff (k := e.1), ← get?_eq_some_iff (k := e.1), h]
  obtain ⟨es, hs⟩ := s
  obtain ⟨fs, ht⟩ := t
  simp only [mk.injEq]
  clear h
  simp only at mem
  induction es generalizing fs with
  | nil =>
    cases fs with
    | nil => rfl
    | cons f rest => exact absurd ((mem f).2 List.mem_cons_self) List.not_mem_nil
  | cons e rest ih =>
    cases fs with
    | nil => exact absurd ((mem e).1 List.mem_cons_self) List.not_mem_nil
    | cons f rest' =>
      rw [List.pairwise_cons] at hs ht
      have hef : e = f := by
        rcases List.mem_cons.1 ((mem e).1 List.mem_cons_self) with h | h
        · exact h
        · rcases List.mem_cons.1 ((mem f).2 List.mem_cons_self) with h' | h'
          · exact h'.symm
          · exact absurd (hs.1 _ h') (String.lt_asymm (ht.1 _ h))
      subst hef
      rw [ih hs.2 rest' ht.2 fun g => ?_]
      constructor
      · intro hg
        rcases List.mem_cons.1 ((mem g).1 (List.mem_cons_of_mem _ hg)) with h | h
        · subst h; exact absurd (hs.1 _ hg) (String.lt_irrefl _)
        · exact h
      · intro hg
        rcases List.mem_cons.1 ((mem g).2 (List.mem_cons_of_mem _ hg)) with h | h
        · subst h; exact absurd (ht.1 _ hg) (String.lt_irrefl _)
        · exact h

/-! ## Insertion -/

/-- The entries with one more in its place, in the place of an entry with the same key. -/
def insertEntry (k : String) (v : β) : List (String × β) → List (String × β)
  | [] => [(k, v)]
  | e :: rest =>
    if k < e.1 then (k, v) :: e :: rest
    else if k = e.1 then (k, v) :: rest
    else e :: insertEntry k v rest

theorem mem_insertEntry {k : String} {v : β} {f : String × β} {es : List (String × β)}
    (h : f ∈ insertEntry k v es) : f = (k, v) ∨ f ∈ es := by
  induction es with
  | nil => simpa [insertEntry] using h
  | cons e rest ih =>
    rw [insertEntry] at h
    split at h
    · simpa using h
    · split at h
      · rcases List.mem_cons.1 h with h | h
        · exact .inl h
        · exact .inr (List.mem_cons_of_mem _ h)
      · rcases List.mem_cons.1 h with h | h
        · exact .inr (h ▸ List.mem_cons_self)
        · exact (ih h).imp id (List.mem_cons_of_mem _)

private theorem sorted_insertEntry (k : String) (v : β) {es : List (String × β)}
    (h : es.Pairwise fun e f => e.1 < f.1) :
    (insertEntry k v es).Pairwise fun e f => e.1 < f.1 := by
  induction es with
  | nil => simp [insertEntry]
  | cons e rest ih =>
    rw [insertEntry]
    rw [List.pairwise_cons] at h
    split
    · next hlt =>
      refine List.pairwise_cons.2 ⟨fun f hf => ?_, List.pairwise_cons.2 h⟩
      rcases List.mem_cons.1 hf with rfl | hf
      · exact hlt
      · exact String.lt_trans hlt (h.1 _ hf)
    · next hlt =>
      split
      · next heq => exact List.pairwise_cons.2 ⟨fun f hf => heq ▸ h.1 _ hf, h.2⟩
      · next hne =>
        refine List.pairwise_cons.2 ⟨fun f hf => ?_, ih h.2⟩
        rcases mem_insertEntry hf with rfl | hf
        · exact lt_of_not_lt_of_ne hlt hne
        · exact h.1 _ hf

/-- The table with a value at a key, in the place of the value that was there. -/
def insert (t : Table β) (k : String) (v : β) : Table β :=
  ⟨insertEntry k v t.entries, sorted_insertEntry k v t.sorted⟩

theorem get?_insert (t : Table β) (k k' : String) (v : β) :
    (t.insert k v).get? k' = if k' = k then some v else t.get? k' := by
  obtain ⟨es, hs⟩ := t
  simp only [get?, insert]
  induction es with
  | nil =>
    by_cases h : k' = k
    · simp [insertEntry, h]
    · have : (k' == k) = false := by simp [h]
      simp [insertEntry, List.lookup_cons, h, this]
  | cons e rest ih =>
    obtain ⟨ke, ve⟩ := e
    simp only [List.pairwise_cons] at hs
    rw [insertEntry]
    split
    · by_cases h : k' = k
      · simp [h]
      · have : (k' == k) = false := by simp [h]
        simp [List.lookup_cons, h, this]
    · split
      · next heq =>
        simp only at heq
        subst heq
        by_cases h : k' = k
        · simp [h]
        · have : (k' == k) = false := by simp [h]
          simp [List.lookup_cons, h, this]
      · next hne =>
        simp only at hne
        by_cases h : k' = ke
        · subst h
          simp [Ne.symm hne]
        · have : (k' == ke) = false := by simp [h]
          simp only [List.lookup_cons, this]
          exact ih hs.2

@[simp] theorem get?_insert_self (t : Table β) (k : String) (v : β) :
    (t.insert k v).get? k = some v := by
  simp [get?_insert]

theorem get?_insert_of_ne (t : Table β) {k k' : String} (v : β) (h : k' ≠ k) :
    (t.insert k v).get? k' = t.get? k' := by
  simp [get?_insert, h]

/-- The table of a list of entries; of entries with the same key the last one counts. -/
def ofList (es : List (String × β)) : Table β :=
  es.foldl (fun t e => t.insert e.1 e.2) empty

/-! ## Removal -/

/-- The entries whose keys satisfy `p`. -/
def filterKeys (p : String → Bool) (t : Table β) : Table β :=
  ⟨t.entries.filter fun e => p e.1, t.sorted.filter _⟩

theorem get?_filterKeys (p : String → Bool) (t : Table β) (k : String) :
    (t.filterKeys p).get? k = if p k then t.get? k else none := by
  ext v
  rw [get?_eq_some_iff, filterKeys, List.mem_filter, ← get?_eq_some_iff]
  by_cases h : p k = true <;> simp [h]

/-- The table without the entry at a key. -/
def erase (t : Table β) (k : String) : Table β :=
  t.filterKeys (· != k)

theorem get?_erase (t : Table β) (k k' : String) :
    (t.erase k).get? k' = if k' = k then none else t.get? k' := by
  rw [erase, get?_filterKeys]
  by_cases h : k' = k <;> simp [h]

/-! ## Change of one value -/

/-- The table with the value at a key changed by `f`, if there is one. -/
def modify (t : Table β) (k : String) (f : β → β) : Table β :=
  match t.get? k with
  | none => t
  | some v => t.insert k (f v)

theorem get?_modify (t : Table β) (k k' : String) (f : β → β) :
    (t.modify k f).get? k' = if k' = k then (t.get? k).map f else t.get? k' := by
  unfold modify
  cases h : t.get? k with
  | none => by_cases hk : k' = k <;> simp [hk, h]
  | some v => simp [get?_insert]

end Table

end Entitle
