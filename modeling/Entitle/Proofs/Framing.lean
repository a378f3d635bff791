import Entitle.Script.Expansion

/-!
# Frames of contributions

A bundle is digested as one text: the frames of its contributions, one after the other. The text
determines the contributions. A frame is cut out in two steps, the identity at the first zero
character and the checksum by its length, and nothing but these two facts about a contribution is
needed.

## Main definitions

* `ScriptSource.Delimited`: a contribution whose frame can be cut out of a bundle.

## Main statements

* `Digest.hex_inj`: two digests are not written alike.
* `ScriptSource.eq_of_bundle_eq`: equal bundles that begin with the same identity have the same
  contributions.
-/
namespace Entitle

/-! ## Written digests -/

/-- Lists of equal length whose members are written with `n` characters each are determined by
the characters. -/
theorem eq_of_flatMap_eq {α β : Type} {f : α → List β} (n : Nat)
    (hlen : ∀ a, (f a).length = n) (hinj : ∀ a b, f a = f b → a = b) {as bs : List α}
    (hl : as.length = bs.length) (h : as.flatMap f = bs.flatMap f) : as = bs := by
  induction as generalizing bs with
  | nil =>
    cases bs with
    | nil => rfl
    | cons b bs => simp at hl
  | cons a as ih =>
    cases bs with
    | nil => simp at hl
    | cons b bs =>
      rw [List.flatMap_cons, List.flatMap_cons] at h
      obtain ⟨hab, hrest⟩ := List.append_inj h (by rw [hlen, hlen])
      rw [hinj a b hab, ih (by simpa using hl) hrest]

private theorem digitChar_inj {a b : Nat} (ha : a < 16) (hb : b < 16)
    (h : Nat.digitChar a = Nat.digitChar b) : a = b := by
  have key : ∀ x y : Fin 16, Nat.digitChar x = Nat.digitChar y → x = y := by decide
  exact congrArg Fin.val (key ⟨a, ha⟩ ⟨b, hb⟩ h)

/-- A word is determined by its eight digits. -/
theorem hexOfWord_inj {v w : UInt32} (h : hexOfWord v = hexOfWord w) : v = w := by
  have hv := v.toNat_lt
  have hw := w.toNat_lt
  have digit : ∀ n m : Nat, Nat.digitChar (n % 16) = Nat.digitChar (m % 16) → n % 16 = m % 16 :=
    fun n m => digitChar_inj (Nat.mod_lt _ (by decide)) (Nat.mod_lt _ (by decide))
  simp only [hexOfWord, List.map_cons, List.map_nil, List.cons.injEq, and_true] at h
  obtain ⟨h0, h1, h2, h3, h4, h5, h6, h7⟩ := h
  have := digit _ _ h0
  have := digit _ _ h1
  have := digit _ _ h2
  have := digit _ _ h3
  have := digit _ _ h4
  have := digit _ _ h5
  have := digit _ _ h6
  have := digit _ _ h7
  simp only [Nat.shiftRight_eq_div_pow] at *
  apply UInt32.toNat_inj.1
  omega

/-- A digest is determined by its hexadecimal digits. -/
theorem Digest.hex_inj {d e : Digest} (h : d.hex = e.hex) : d = e := by
  have hwords : d.words = e.words :=
    eq_of_flatMap_eq 8 (fun _ => rfl) (fun _ _ => hexOfWord_inj) rfl (String.ofList_injective h)
  cases d
  cases e
  simpa [Digest.words] using hwords

/-! ## Texts as bytes -/

private theorem toList_loop (bs : ByteArray) (i : Nat) (r : List UInt8) :
    ByteArray.toList.loop bs i r = r.reverse ++ bs.data.toList.drop i := by
  fun_induction ByteArray.toList.loop bs i r with
  | case1 i r h ih =>
    have hi : i < bs.data.toList.length := h
    have hget : bs.get! i = bs.data.toList[i] := by
      simp only [ByteArray.get!, Array.getElem_toList]
      grind
    rw [ih, List.drop_eq_getElem_cons hi, hget]
    simp
  | case2 i r h =>
    have hi : bs.data.toList.length ≤ i := Nat.le_of_not_lt h
    rw [List.drop_eq_nil_of_le hi, List.append_nil]

/-- A text is determined by its bytes. -/
theorem bytes_inj {s t : String} (h : s.toUTF8.toList = t.toUTF8.toList) : s = t := by
  have data : ∀ bs : ByteArray, bs.toList = bs.data.toList := fun bs => toList_loop bs 0 []
  rw [data, data, Array.toList_inj] at h
  exact String.toByteArray_inj.1 (ByteArray.ext h)

/-! ## Bundles -/

/-- The two sides of the first `c` of a list are determined by the list. -/
theorem eq_of_append_cons_eq {α : Type} {c : α} {xs ys as bs : List α} (hx : c ∉ xs)
    (hy : c ∉ ys) (h : xs ++ c :: as = ys ++ c :: bs) : xs = ys ∧ as = bs := by
  induction xs generalizing ys with
  | nil =>
    cases ys with
    | nil => exact ⟨rfl, by simpa using h⟩
    | cons y ys =>
      obtain ⟨rfl, -⟩ := List.cons.inj h
      exact absurd List.mem_cons_self hy
  | cons x xs ih =>
    cases ys with
    | nil =>
      obtain ⟨rfl, -⟩ := List.cons.inj h
      exact absurd List.mem_cons_self hx
    | cons y ys =>
      obtain ⟨rfl, htail⟩ := List.cons.inj h
      obtain ⟨rfl, rfl⟩ := ih (fun m => hx (List.mem_cons_of_mem _ m))
        (fun m => hy (List.mem_cons_of_mem _ m)) htail
      exact ⟨rfl, rfl⟩

private theorem toList_join (ss : List String) :
    (String.join ss).toList = ss.flatMap String.toList := by
  have key : ∀ (ss : List String) (init : String),
      (ss.foldl (· ++ ·) init).toList = init.toList ++ ss.flatMap String.toList := by
    intro ss
    induction ss with
    | nil => simp
    | cons s rest ih =>
      intro init
      simp [ih]
  simpa [String.join] using key ss ""

namespace ScriptSource

/-- A contribution whose frame can be cut out of a bundle. -/
structure Delimited (s : ScriptSource) : Prop where
  no_zero : '\x00' ∉ s.identity.toList
  length_checksum : s.checksum.length = 64

/-- The characters of a bundle. -/
def bundle (ss : List ScriptSource) : List Char :=
  ss.flatMap (·.frame.toList)

theorem toList_join_frame (ss : List ScriptSource) :
    (String.join (ss.map frame)).toList = bundle ss := by
  rw [toList_join, bundle, List.flatMap_map]

theorem bundle_cons (s : ScriptSource) (ss : List ScriptSource) :
    bundle (s :: ss) =
      s.identity.toList ++ '\x00' :: (s.checksum.toList ++ '\n' :: bundle ss) := by
  simp [bundle, frame]

private theorem bundle_cons_ne_nil (s : ScriptSource) (ss : List ScriptSource) :
    bundle (s :: ss) ≠ [] := by
  simp [bundle_cons]

/-- Behind the identity, the rest of a frame is as long as a checksum and a line feed. -/
theorem checksum_eq_of_append_eq {s t : ScriptSource} {as bs : List Char}
    (hs : s.checksum.length = 64) (ht : t.checksum.length = 64)
    (h : s.checksum.toList ++ '\n' :: as = t.checksum.toList ++ '\n' :: bs) :
    s.checksum = t.checksum ∧ as = bs := by
  obtain ⟨hchecksum, hrest⟩ := List.append_inj h (by
    rw [String.length_toList, String.length_toList, hs, ht])
  exact ⟨String.toList_injective hchecksum, (List.cons.inj hrest).2⟩

theorem eq_of_delimited {ss ts : List ScriptSource} (hs : ∀ s ∈ ss, s.Delimited)
    (ht : ∀ t ∈ ts, t.Delimited) (h : bundle ss = bundle ts) : ss = ts := by
  induction ss generalizing ts with
  | nil =>
    cases ts with
    | nil => rfl
    | cons t ts => exact absurd h.symm (bundle_cons_ne_nil t ts)
  | cons s ss ih =>
    cases ts with
    | nil => exact absurd h (bundle_cons_ne_nil s ss)
    | cons t ts =>
      have hsd := hs s List.mem_cons_self
      have htd := ht t List.mem_cons_self
      rw [bundle_cons, bundle_cons] at h
      obtain ⟨hidentity, h⟩ := eq_of_append_cons_eq hsd.no_zero htd.no_zero h
      obtain ⟨hchecksum, h⟩ :=
        checksum_eq_of_append_eq hsd.length_checksum htd.length_checksum h
      have hst : s = t := by
        cases s
        cases t
        rw [mk.injEq]
        exact ⟨String.toList_injective hidentity, hchecksum⟩
      rw [hst, ih (fun s h => hs s (List.mem_cons_of_mem _ h))
        (fun t h => ht t (List.mem_cons_of_mem _ h)) h]

/-- Bundles that begin with the same identity, whatever characters it has, are equal only if their
contributions are. -/
theorem eq_of_bundle_eq {s t : ScriptSource} {ss ts : List ScriptSource}
    (hidentity : s.identity = t.identity) (hs : s.checksum.length = 64)
    (ht : t.checksum.length = 64) (hss : ∀ s ∈ ss, s.Delimited) (hts : ∀ t ∈ ts, t.Delimited)
    (h : bundle (s :: ss) = bundle (t :: ts)) : s :: ss = t :: ts := by
  rw [bundle_cons, bundle_cons, hidentity, List.append_cancel_left_eq] at h
  obtain ⟨hchecksum, h⟩ := checksum_eq_of_append_eq hs ht (List.cons.inj h).2
  have hst : s = t := by
    cases s
    cases t
    rw [mk.injEq]
    exact ⟨hidentity, hchecksum⟩
  rw [hst, eq_of_delimited hss hts h]

end ScriptSource

end Entitle
