import Entitle.Proofs.Bundle

/-!
# Caches and edits

The texts of a shelf may be edited while a cache goes on being used. Every script in the cache was
checked from a text that was on the shelf at some time, and a script is looked for under the
checksum of the text that is there now. As long as no two of all those texts have the same digest,
the cache gives what checking the text anew would give, and the plans of two shelves can be told
apart by their checksums.

## Main definitions

* `Shelf.normalForms`: what is digested of the texts of a shelf.
* `Cache.From`: a cache with scripts of several shelves.

## Main statements

* `Cache.From.faithful`: a cache that was filled from several shelves is faithful to each of them.
* `Plan.eq_of_faithful`: plans with the same script and the same checksum are equal.
-/
namespace Entitle

theorem Apart.mono {messages more : List (List UInt8)} (h : Apart more)
    (hsub : messages ⊆ more) : Apart messages :=
  fun a ha b hb => h a (hsub ha) b (hsub hb)

/-! ## Several shelves -/

/-- The normal forms of the texts on a shelf. -/
def Shelf.normalForms (s : Shelf) : List (List UInt8) :=
  s.texts.entries.map fun e => (Text.normalForm e.2).toUTF8.toList

theorem Shelf.mem_normalForms {s : Shelf} {identity text : String}
    (h : s.texts.get? identity = some text) :
    (Text.normalForm text).toUTF8.toList ∈ s.normalForms :=
  List.mem_map.2 ⟨(identity, text), Table.get?_eq_some_iff.1 h, rfl⟩

/-- What compiling a plan digests are texts of the shelf and the bundle. -/
theorem Shelf.digested_subset (s : Shelf) (sources : List ScriptSource) :
    s.digested sources ⊆
      s.normalForms ++ [(String.join (sources.map ScriptSource.frame)).toUTF8.toList] := by
  intro message h
  rcases List.mem_append.1 h with h | h
  · obtain ⟨src, -, hsrc⟩ := List.mem_filterMap.1 h
    obtain ⟨text, htext, rfl⟩ := Option.map_eq_some_iff.1 hsrc
    exact List.mem_append_left _ (mem_normalForms htext)
  · exact List.mem_append_right _ h

namespace Cache

/-- Every script in the cache was checked from a text on one of the shelves. -/
def From (shelves : List Shelf) (c : Cache) : Prop :=
  ∀ k ∈ c.scripts, ∃ s ∈ shelves, ∃ i script, s.load i = .ok script ∧ script.check = .ok k

theorem from_empty (shelves : List Shelf) : Cache.empty.From shelves := by
  simp [From, empty]

theorem From.mono {shelves more : List Shelf} {c : Cache} (h : c.From shelves)
    (hsub : shelves ⊆ more) : c.From more := by
  intro k hk
  obtain ⟨s, hs, hloaded⟩ := h k hk
  exact ⟨s, hsub hs, hloaded⟩

/-- Checking the scripts of one more of the shelves makes no difference. -/
theorem stable_from {shelves : List Shelf} {s : Shelf} (hs : s ∈ shelves) :
    Stable s.load (From shelves) :=
  stable_forall fun hload hk => ⟨s, hs, _, _, hload, hk⟩

/-- A cache that was filled from several shelves is faithful to each of them. -/
theorem From.faithful {shelves : List Shelf} {c : Cache} (hc : c.From shelves)
    (hapart : Apart (shelves.flatMap Shelf.normalForms)) {s : Shelf} (hs : s ∈ shelves) :
    c.Faithful s.load := by
  intro i script k hload hfind
  obtain ⟨identity, text, -, htext, rfl⟩ := Shelf.load_eq_ok hload
  obtain ⟨hk, hfoundIdentity, hfoundChecksum⟩ := find?_eq_some hfind
  obtain ⟨s', hs', j, script', hload', hcheck⟩ := hc k hk
  obtain ⟨identity', text', -, htext', rfl⟩ := Shelf.load_eq_ok hload'
  obtain ⟨hidentity', hchecksum'⟩ := Script.check_eq_ok hcheck
  have hidentity : identity' = identity := hidentity'.symm.trans hfoundIdentity
  have hchecksum : hexDigest (Text.normalForm text') = hexDigest (Text.normalForm text) :=
    hchecksum'.symm.trans hfoundChecksum
  have hmem : (Text.normalForm text).toUTF8.toList ∈ shelves.flatMap Shelf.normalForms :=
    List.mem_flatMap.2 ⟨s, hs, Shelf.mem_normalForms htext⟩
  have hmem' : (Text.normalForm text').toUTF8.toList ∈ shelves.flatMap Shelf.normalForms :=
    List.mem_flatMap.2 ⟨s', hs', Shelf.mem_normalForms htext'⟩
  have hnormal : Text.normalForm text' = Text.normalForm text :=
    bytes_inj (hapart _ hmem' _ hmem (Digest.hex_inj hchecksum))
  have hscript : Script.ofText identity text = Script.ofText identity' text' := by
    simp only [Script.ofText, Script.checksumOf, hidentity, hnormal]
  rw [hscript]
  exact hcheck

end Cache

/-! ## Plans -/

/-- Two expansions of a script with the same checksum of their bundles are the same. -/
theorem Shelf.directives_eq_of_checksum_eq {s₁ s₂ : Shelf} {root₁ root₂ : Checked}
    {p₁ p₂ : Progress} {i₁ i₂ : String} {out₁ out₂ : List Located}
    (hroot₁ : s₁.load.checked? i₁ = some root₁) (hroot₂ : s₂.load.checked? i₂ = some root₂)
    (h₁ : Expands s₁.load.checked? (Progress.start.visit root₁) root₁.statements out₁ p₁)
    (h₂ : Expands s₂.load.checked? (Progress.start.visit root₂) root₂.statements out₂ p₂)
    (hapart : Apart (s₁.digested p₁.sources ++ s₂.digested p₂.sources))
    (hidentity : root₁.identity = root₂.identity)
    (hchecksum : bundleChecksum p₁.sources = bundleChecksum p₂.sources) :
    p₁.sources = p₂.sources ∧ out₁ = out₂ := by
  have hsources : p₁.sources = p₂.sources :=
    sources_eq_of_checksum_eq hroot₁ hroot₂ h₁ h₂ hapart hidentity hchecksum
  refine ⟨hsources, ?_⟩
  rw [← hsources] at hapart
  have hstart₁ := (Progress.records_start _).visit s₁.settledLibrary hroot₁
  have hstart₂ := (Progress.records_start _).visit s₂.settledLibrary hroot₂
  have hrecords := h₁.records s₁.settledLibrary hstart₁
  have hmem₁ := h₁.sources_subset ((Progress.records_start _).mem_visit hroot₁)
  have hmem₂ := h₂.sources_subset ((Progress.records_start _).mem_visit hroot₂)
  rw [← hsources] at hmem₂
  -- the root is on record under its identity, so both shelves have the same root
  obtain rfl : root₁ = root₂ := eq_of_contribution_eq hapart hroot₁ hroot₂ hmem₁
    (hrecords _ hmem₂ i₁ root₁ hroot₁ hidentity).symm
  exact (Expands.agree s₁.settledLibrary s₂.settledLibrary (agreeOn_of_apart hapart hrecords)
    h₁ h₂ hstart₁ hstart₂ (List.Subset.refl _) (hsources ▸ List.Subset.refl _)).1

/-- Plans with the same script and the same checksum are equal, whatever caches they were compiled
with, if the caches were faithful. -/
theorem Plan.eq_of_faithful {s₁ s₂ : Shelf} {c₁ c₂ : Cache} (hc₁ : c₁.Faithful s₁.load)
    (hc₂ : c₂.Faithful s₂.load) {limit₁ limit₂ : Nat} {i₁ i₂ : String} {plan₁ plan₂ : Plan}
    (h₁ : (compileScript s₁.load limit₁ i₁ c₁).1 = .ok plan₁)
    (h₂ : (compileScript s₂.load limit₂ i₂ c₂).1 = .ok plan₂)
    (hapart : Apart (s₁.digested plan₁.sources ++ s₂.digested plan₂.sources))
    (hscript : plan₁.script = plan₂.script) (hchecksum : plan₁.checksum = plan₂.checksum) :
    plan₁ = plan₂ := by
  obtain ⟨root₁, e₁, p₁, hroot₁, rfl, hidentity₁, hsources₁, hexp₁⟩ :=
    Shelf.expands_of_faithful hc₁ h₁
  obtain ⟨root₂, e₂, p₂, hroot₂, rfl, hidentity₂, hsources₂, hexp₂⟩ :=
    Shelf.expands_of_faithful hc₂ h₂
  simp only [Plan.ofExpansion, hsources₁, hsources₂] at hapart hscript hchecksum
  have hidentity : root₁.identity = root₂.identity := by
    rw [← hidentity₁, ← hidentity₂, hscript]
  obtain ⟨hsources, hdirectives⟩ := Shelf.directives_eq_of_checksum_eq hroot₁ hroot₂ hexp₁ hexp₂
    hapart hidentity hchecksum
  simp only [Plan.ofExpansion, hscript, hsources₁, hsources₂, hsources, hdirectives]

end Entitle
