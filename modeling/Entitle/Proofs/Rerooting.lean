import Mathlib.Data.List.TakeWhile
import Entitle.Proofs.Paths

/-!
# Paths at other places

What stands within a path begins with the text of that path, and to put it at another place is to
put another text in front of the rest. The rest begins with a slash, except beneath the root, whose
text is that slash. So the root is different: a path that comes from beneath it loses a slash, and
one that goes there does not come back.

All but the last section is about texts of any kind, since the paths of a state may be any texts.

## Main statements

* `Path.exists_append_of_within`, `Path.toList_rebase`: the rest of a path, and what becomes of it.
* `Path.within_of_parent`, `Path.parent?_rebase`: what is above a path, here and at another place.
* `Path.IsPath.rebase_invertible_iff`: which paths come to stand within their target, and which of
  them come back.
* `Path.not_invertible_beneath_root`: paths beneath the root for which this fails.
-/
namespace Entitle.Path

variable {p q s t up : String} {rest : List Char}

/-! ## Texts within a text -/

/-- What is within a text begins with that text. What follows begins with a slash, but after the
root, which is itself a slash, anything may follow. -/
theorem exists_append_of_within (h : within p s = true) :
    ∃ rest, p.toList = s.toList ++ rest ∧ (s ≠ "/" → rest = [] ∨ rest.head? = some '/') := by
  by_cases hroot : s = "/"
  · subst hroot
    have hhead : p.toList.head? = some '/' := by simpa [within] using h
    cases hp : p.toList with
    | nil => simp [hp] at hhead
    | cons c rest =>
      have hc : c = '/' := by simpa [hp] using hhead
      exact ⟨rest, by simp [hc], fun hne => absurd rfl hne⟩
  · simp only [within, if_neg hroot, Bool.or_eq_true, beq_iff_eq, List.isPrefixOf_iff_prefix] at h
    cases h with
    | inl heq => exact ⟨[], by simp [heq], fun _ => .inl rfl⟩
    | inr hprefix =>
      obtain ⟨rest, hrest⟩ := hprefix
      exact ⟨'/' :: rest, by simp [← hrest], fun _ => .inr rfl⟩

private theorem within_of_append (h : p.toList = s.toList ++ rest)
    (hrest : rest = [] ∨ rest.head? = some '/') : within p s = true := by
  by_cases hroot : s = "/"
  · simp [within, hroot, h]
  · rw [within, if_neg hroot, Bool.or_eq_true, beq_iff_eq]
    cases hrest with
    | inl hnil => exact .inl (String.toList_injective (by simp [h, hnil]))
    | inr hhead =>
      obtain ⟨more, rfl⟩ := List.head?_eq_some_iff.1 hhead
      exact .inr (List.isPrefixOf_iff_prefix.2 ⟨more, by simp [h]⟩)

/-- To put a text at another place is to put the other place in front of the rest. Beneath the root
the rest stands for itself. -/
theorem toList_rebase (h : p.toList = s.toList ++ rest) (t : String) :
    (rebase p s t).toList =
      if t = "/" then if rest = [] then ['/'] else rest else t.toList ++ rest := by
  have hsuffix : dropBytes s.utf8ByteSize p.toList = rest := by
    rw [h, ← String.utf8Len_toList, dropBytes_append]
  rw [rebase, hsuffix]
  by_cases hroot : t = "/"
  · by_cases hnil : rest = [] <;> simp [hroot, hnil]
  · simp [hroot]

theorem toList_rebase_of_ne (h : p.toList = s.toList ++ rest) (ht : t ≠ "/") :
    (rebase p s t).toList = t.toList ++ rest := by
  rw [toList_rebase h, if_neg ht]

/-- A text at another place is no shorter than that place. -/
theorem length_le_rebase (h : within p s = true) (ht : t ≠ "/") :
    t.length ≤ (rebase p s t).length := by
  obtain ⟨rest, hrest, -⟩ := exists_append_of_within h
  rw [← String.length_toList, ← String.length_toList, toList_rebase_of_ne hrest ht]
  simp

/-! ## What is above -/

/-- A text with a slash ends with what follows its last one. -/
theorem exists_last_slash {cs : List Char} (h : '/' ∈ cs) :
    ∃ above name, cs = above ++ '/' :: name ∧ '/' ∉ name := by
  obtain ⟨as, bs, hreverse, has⟩ := List.eq_append_cons_of_mem (List.mem_reverse.2 h)
  refine ⟨bs.reverse, as.reverse, ?_, by simpa using has⟩
  rw [← List.reverse_reverse cs, hreverse]
  simp

/-- Above a text is what precedes its last slash, or the root if that is nothing. -/
theorem parent?_of_toList {above name : List Char} (h : p.toList = above ++ '/' :: name)
    (hname : '/' ∉ name) (hp : p ≠ "/") :
    parent? p = some (if above = [] then "/" else String.ofList above) := by
  have hall : ∀ c ∈ name.reverse, (c != '/') = true := by
    intro c hc
    have hmem : c ∈ name := List.mem_reverse.1 hc
    simpa using fun heq : c = '/' => hname (heq ▸ hmem)
  have hdrop : p.toList.reverse.dropWhile (· != '/') = '/' :: above.reverse := by
    rw [h, List.reverse_append, List.reverse_cons, List.append_assoc,
      List.dropWhile_append_of_pos hall]
    rfl
  rw [parent?, if_neg hp, hdrop]
  cases hreverse : above.reverse with
  | nil => simp [List.reverse_eq_nil_iff.1 hreverse]
  | cons c before =>
    have hne : above ≠ [] := by
      intro hnil
      simp [hnil] at hreverse
    simp [hne, ← hreverse]

theorem parent?_of_noSlash (h : '/' ∉ p.toList) : parent? p = none := by
  have hdrop : p.toList.reverse.dropWhile (· != '/') = [] := by
    rw [List.dropWhile_eq_nil_iff]
    intro c hc
    have hmem : c ∈ p.toList := List.mem_reverse.1 hc
    simpa using fun heq : c = '/' => h (heq ▸ hmem)
  rw [parent?, hdrop]
  simp

/-- A text begins with what is above it, and goes on with a slash if that is not the root. -/
theorem exists_append_of_parent (h : parent? p = some up) :
    ∃ rest, p.toList = up.toList ++ rest ∧ (up ≠ "/" → rest.head? = some '/') := by
  by_cases hslash : '/' ∈ p.toList
  · obtain ⟨above, name, hcut, hname⟩ := exists_last_slash hslash
    have hp : p ≠ "/" := by
      intro heq
      simp [heq] at h
    rw [parent?_of_toList hcut hname hp, Option.some.injEq] at h
    by_cases hnil : above = []
    · subst hnil
      exact ⟨name, by simp [← h, hcut], fun hne => absurd h.symm hne⟩
    · rw [if_neg hnil] at h
      exact ⟨'/' :: name, by simp [← h, hcut], fun _ => rfl⟩
  · simp [parent?_of_noSlash hslash] at h

/-- What is under a text that is within a place is within that place too. -/
theorem within_of_parent (h : parent? p = some up) (hup : within up s = true) :
    within p s = true := by
  obtain ⟨rest, hrest, hhead⟩ := exists_append_of_parent h
  by_cases hroot : s = "/"
  · have hslash : up.toList.head? = some '/' := by simpa [within, hroot] using hup
    obtain ⟨more, hmore⟩ := List.head?_eq_some_iff.1 hslash
    simp [within, hroot, hrest, hmore]
  · obtain ⟨more, hmore, hmoreHead⟩ := exists_append_of_within hup
    have hcut : p.toList = s.toList ++ (more ++ rest) := by simp [hrest, hmore]
    refine within_of_append hcut (.inr ?_)
    cases hmoreHead hroot with
    | inl hnil =>
      have hne : up ≠ "/" := by
        intro heq
        exact hroot (String.toList_injective (by simpa [hnil, heq] using hmore.symm))
      simpa [hnil] using hhead hne
    | inr hmoreHead =>
      obtain ⟨tail, rfl⟩ := List.head?_eq_some_iff.1 hmoreHead
      rfl

/-- What follows a text that is not the root leads no further up, unless there is a slash in it. -/
theorem parent?_append_of_noSlash (hrest : '/' ∉ rest) (h : q.toList = t.toList ++ rest)
    (ht : t ≠ "/") (hq : q ≠ "/") : parent? q = parent? t := by
  by_cases hslash : '/' ∈ t.toList
  · obtain ⟨above, name, hcut, hname⟩ := exists_last_slash hslash
    have hq' : q.toList = above ++ '/' :: (name ++ rest) := by simp [h, hcut]
    rw [parent?_of_toList hcut hname ht, parent?_of_toList hq' (by simp [hname, hrest]) hq]
  · rw [parent?_of_noSlash hslash, parent?_of_noSlash (by simp [h, hslash, hrest])]

/-- What is above a text that was put at another place is what is above that place, or it was put
there too. -/
theorem parent?_rebase (hs : s ≠ "") (ht : t ≠ "") (hroot : t ≠ "/")
    (h : within p s = true) (hup : parent? (rebase p s t) = some up) :
    parent? t = some up ∨
      ∃ q, parent? p = some q ∧ within q s = true ∧ rebase q s t = up := by
  obtain ⟨rest, hp, hrest⟩ := exists_append_of_within h
  have hr := toList_rebase_of_ne hp hroot
  have hne : rebase p s t ≠ "/" := by
    intro heq
    simp [heq] at hup
  by_cases hslash : '/' ∈ rest
  · right
    obtain ⟨above, name, rfl, hname⟩ := exists_last_slash hslash
    have hsne : s.toList ≠ [] := by simpa using hs
    have htne : t.toList ≠ [] := by simpa using ht
    have hpne : p ≠ "/" := by
      intro heq
      have hlength := congrArg List.length hp
      have hpos := List.length_pos_iff.2 hsne
      simp [heq] at hlength
      omega
    have hq : (String.ofList (s.toList ++ above)).toList = s.toList ++ above := by simp
    have hcut : p.toList = (s.toList ++ above) ++ '/' :: name := by simp [hp]
    have hcut' : (rebase p s t).toList = (t.toList ++ above) ++ '/' :: name := by simp [hr]
    have hparent : parent? p = some (String.ofList (s.toList ++ above)) := by
      rw [parent?_of_toList hcut hname hpne, if_neg (by simp [hsne])]
    have hparent' : parent? (rebase p s t) = some (String.ofList (t.toList ++ above)) := by
      rw [parent?_of_toList hcut' hname hne, if_neg (by simp [htne])]
    refine ⟨_, hparent, ?_, ?_⟩
    · by_cases hsroot : s = "/"
      · simp [within, hsroot]
      · refine within_of_append hq ?_
        cases above with
        | nil => simp
        | cons c above => simpa using hrest hsroot
    · rw [hparent', Option.some.injEq] at hup
      refine String.toList_injective ?_
      rw [toList_rebase_of_ne hq hroot, ← hup, String.toList_ofList]
  · left
    rwa [parent?_append_of_noSlash hslash hr hroot hne] at hup

/-! ## There and back -/

private theorem length_dropBytes_le (n : Nat) (cs : List Char) :
    (dropBytes n cs).length ≤ cs.length := by
  induction cs generalizing n with
  | nil => simp [dropBytes]
  | cons c cs ih =>
    by_cases hn : n = 0
    · simp [dropBytes, hn]
    · have := ih (n - c.utf8Size)
      simp only [dropBytes, if_neg hn, List.length_cons]
      omega

/-- What goes to the root or comes from beneath it is shorter when it comes back. -/
theorem length_rebase_rebase_lt (h : within p s = true) (hne : p ≠ s)
    (hroot : s = "/" ∨ t = "/") : (rebase (rebase p s t) t s).length < p.length := by
  obtain ⟨rest, hrest, hhead⟩ := exists_append_of_within h
  have hnil : rest ≠ [] := by
    intro hnil
    exact hne (String.toList_injective (by simp [hrest, hnil]))
  have hpos := List.length_pos_iff.2 hnil
  rw [← String.length_toList, ← String.length_toList (s := p), hrest, List.length_append]
  by_cases ht : t = "/"
  · subst ht
    have hr : (rebase p s "/").toList = rest := by simp [toList_rebase hrest, hnil]
    by_cases hs : s = "/"
    · subst hs
      have hdrop := length_dropBytes_le "/".utf8ByteSize rest
      rw [rebase, hr]
      by_cases hempty : String.ofList (dropBytes "/".utf8ByteSize rest) = ""
      · simpa [hempty] using hpos
      · simp only [if_pos, if_neg hempty, String.toList_ofList]
        exact Nat.lt_of_le_of_lt hdrop (by simp)
    · obtain ⟨more, rfl⟩ := List.head?_eq_some_iff.1 ((hhead hs).resolve_left hnil)
      have hcut : (rebase p s "/").toList = "/".toList ++ more := by simp [hr]
      rw [toList_rebase_of_ne hcut hs]
      simp
  · obtain rfl : s = "/" := hroot.resolve_right ht
    rw [toList_rebase (toList_rebase_of_ne hrest ht)]
    simp [hnil]

/-! ## Well-formed paths -/

namespace IsPath

theorem ne_empty (hp : IsPath p) : p ≠ "" := by
  intro heq
  subst heq
  exact absurd hp (by decide)

/-- The text of a path is a slash and then something that does not begin with a slash. -/
theorem head?_of_toList (hp : IsPath p) (h : p.toList = '/' :: rest) :
    rest.head? ≠ some '/' := by
  obtain ⟨a, ha, rfl⟩ := isPath_iff.1 hp
  cases a with
  | nil =>
    have hnil : rest = [] := by simpa using h.symm
    simp [hnil]
  | cons x a =>
    have hx := ha x List.mem_cons_self
    rw [toList_ofSegments (List.cons_ne_nil x a), spell_cons, List.cons.injEq] at h
    rw [← h.2, List.head?_append_of_ne_nil _ hx.ne_nil]
    intro hhead
    exact hx.noSlash (List.mem_of_head? hhead)

/-- A path that comes from beneath the root does not come to stand within its target: nothing parts
the texts of the two. -/
theorem not_within_rebase_root (hp : IsPath p) (h : within p "/" = true) (hne : p ≠ "/")
    (t : String) : ¬ within (Path.rebase p "/" t) t = true := by
  obtain ⟨rest, hrest, -⟩ := exists_append_of_within h
  have hhead := hp.head?_of_toList (by simpa using hrest)
  have hnil : rest ≠ [] := by
    intro hnil
    exact hne (String.toList_injective (by simp [hrest, hnil]))
  intro hwithin
  by_cases hroot : t = "/"
  · have hslash : rest.head? = some '/' := by
      simpa [within, hroot, toList_rebase hrest, hnil] using hwithin
    exact hhead hslash
  · obtain ⟨more, hmore, hmoreHead⟩ := exists_append_of_within hwithin
    rw [toList_rebase_of_ne hrest hroot, List.append_cancel_left_eq] at hmore
    subst hmore
    exact (hmoreHead hroot).elim hnil hhead

/-- A path comes to stand within its target, as a path, unless it comes from beneath the root. It
comes back unless it does so or goes there. The place itself is always put at the other place. -/
theorem rebase_invertible_iff (hp : IsPath p) (hs : IsPath s) (ht : IsPath t)
    (h : within p s = true) :
    (IsPath (Path.rebase p s t) ∧ within (Path.rebase p s t) t = true ↔ s ≠ "/" ∨ p = s) ∧
      (Path.rebase (Path.rebase p s t) t s = p ↔ s ≠ "/" ∧ t ≠ "/" ∨ p = s) ∧
      (Path.rebase p s s = p ↔ s ≠ "/" ∨ p = s) := by
  by_cases hne : p = s
  · subst hne
    simp [rebase_self, ht, within_refl]
  · have hroot : s = "/" → ∀ u, ¬ within (Path.rebase p s u) u = true := by
      intro hroot u
      subst hroot
      exact hp.not_within_rebase_root h hne u
    simp only [hne, or_false]
    refine ⟨⟨?_, ?_⟩, ⟨?_, ?_⟩, ⟨?_, ?_⟩⟩
    · intro hr hsroot
      exact hroot hsroot t hr.2
    · intro hsroot
      exact ⟨hp.rebase hs ht hsroot h, within_rebase hsroot h t⟩
    · intro hback
      refine ⟨fun hsroot => ?_, fun htroot => ?_⟩
      · have := length_rebase_rebase_lt (t := t) h hne (.inl hsroot)
        rw [hback] at this
        omega
      · have := length_rebase_rebase_lt h hne (.inr htroot)
        rw [hback] at this
        omega
    · intro hroots
      exact hp.rebase_rebase hs ht hroots.1 h hroots.2
    · intro hsame hsroot
      exact hroot hsroot s (hsame.symm ▸ h)
    · intro hsroot
      exact hp.rebase_same hs hsroot h

theorem rebase_invertible_iff_nested : IsPath "/a/b/c" ∧ IsPath "/a/b" ∧ IsPath "/x" ∧
    within "/a/b/c" "/a/b" = true ∧ Path.rebase "/a/b/c" "/a/b" "/x" = "/x/c" ∧
    IsPath (Path.rebase "/a/b/c" "/a/b" "/x") ∧
    within (Path.rebase "/a/b/c" "/a/b" "/x") "/x" = true ∧
    Path.rebase (Path.rebase "/a/b/c" "/a/b" "/x") "/x" "/a/b" = "/a/b/c" ∧
    Path.rebase "/a/b/c" "/a/b" "/a/b" = "/a/b/c" := by
  have hp : IsPath "/a/b/c" := by decide +kernel
  have hs : IsPath "/a/b" := by decide +kernel
  have ht : IsPath "/x" := by decide +kernel
  have h : within "/a/b/c" "/a/b" = true := by decide +kernel
  obtain ⟨hplace, hback, hsame⟩ := rebase_invertible_iff hp hs ht h
  obtain ⟨hpath, hwithin⟩ := hplace.2 (.inl (by decide))
  exact ⟨hp, hs, ht, h, by decide +kernel, hpath, hwithin,
    hback.2 (.inl ⟨by decide, by decide⟩), hsame.2 (.inl (by decide))⟩

end IsPath

/-- A path beneath the root is not the same when it is put from the root to the root, and is not
found within another place when it is put there. A path that is put at the root does not come
back. -/
theorem not_invertible_beneath_root : IsPath "/a" ∧ IsPath "/x" ∧ within "/a" "/" = true ∧
    rebase "/a" "/" "/" = "a" ∧ ¬ IsPath (rebase "/a" "/" "/") ∧
    rebase "/a" "/" "/x" = "/xa" ∧ ¬ within (rebase "/a" "/" "/x") "/x" = true ∧
    within "/x/a" "/x" = true ∧ rebase (rebase "/x/a" "/x" "/") "/" "/x" = "/xa" := by
  decide +kernel

end Entitle.Path
