/-!
# Segments of a text

Identifiers and paths are texts cut at separators.

## Main definitions

* `splitAt`: the segments between separators, empty ones included.

## Main statements

* `splitAt_ne_nil`: there is always a segment.
* `not_mem_splitAt`: no segment holds a separator.
* `mem_of_mem_splitAt`: a segment has no characters of its own.
-/
namespace Entitle.Text

/-- The segments of a text between its separators. -/
def splitAt (separator : Char → Bool) : List Char → List (List Char)
  | [] => [[]]
  | c :: rest =>
    if separator c then [] :: splitAt separator rest
    else match splitAt separator rest with
      | [] => [[c]]
      | segment :: more => (c :: segment) :: more

theorem splitAt_ne_nil (separator : Char → Bool) (cs : List Char) :
    splitAt separator cs ≠ [] := by
  cases cs with
  | nil => simp [splitAt]
  | cons c rest =>
    rw [splitAt]
    split
    · simp
    · split <;> simp

/-- A segment holds no separator. -/
theorem not_mem_splitAt {separator : Char → Bool} {cs segment : List Char}
    (h : segment ∈ splitAt separator cs) : ∀ c ∈ segment, separator c = false := by
  induction cs generalizing segment with
  | nil =>
    simp only [splitAt, List.mem_singleton] at h
    simp [h]
  | cons c rest ih =>
    rw [splitAt] at h
    split at h
    · rcases List.mem_cons.1 h with rfl | h
      · simp
      · exact ih h
    · next hc =>
      split at h
      · next heq => exact absurd heq (splitAt_ne_nil separator rest)
      · next first more heq =>
        rw [heq] at ih
        rcases List.mem_cons.1 h with rfl | h
        · intro d hd
          rcases List.mem_cons.1 hd with rfl | hd
          · simpa using hc
          · exact ih List.mem_cons_self d hd
        · exact ih (List.mem_cons_of_mem _ h)

/-- A segment has no characters of its own. -/
theorem mem_of_mem_splitAt {separator : Char → Bool} {cs segment : List Char} {c : Char}
    (h : segment ∈ splitAt separator cs) (hc : c ∈ segment) : c ∈ cs := by
  induction cs generalizing segment with
  | nil =>
    simp only [splitAt, List.mem_singleton] at h
    simp [h] at hc
  | cons d rest ih =>
    rw [splitAt] at h
    split at h
    · rcases List.mem_cons.1 h with rfl | h
      · simp at hc
      · exact List.mem_cons_of_mem _ (ih h hc)
    · split at h
      · next heq => exact absurd heq (splitAt_ne_nil separator rest)
      · next first more heq =>
        rw [heq] at ih
        rcases List.mem_cons.1 h with rfl | h
        · rcases List.mem_cons.1 hc with rfl | hc
          · exact List.mem_cons_self
          · exact List.mem_cons_of_mem _ (ih List.mem_cons_self hc)
        · exact List.mem_cons_of_mem _ (ih (List.mem_cons_of_mem _ h) hc)

end Entitle.Text
