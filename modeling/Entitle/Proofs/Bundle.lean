import Mathlib.Control.Monad.Basic
import Entitle.Proofs.Compiling
import Entitle.Proofs.Framing

/-!
# The checksum of a plan

A plan is kept on record under its script and its checksum. Here it is shown that the two determine
the plan: an edit that would change what is applied changes the checksum of the bundle. The only
assumption is that no two of the texts that the two compilations digest have the same digest.

## Main definitions

* `Apart`: no two of several messages have the same digest.
* `Shelf.digested`: the messages that compiling a plan from a shelf digests.

## Main statements

* `Identity.mem_of_ofIdentifier?`: an identity has no characters of its own but slashes.
* `Plan.eq_of_checksum_eq`: plans with the same script and the same checksum are equal.
-/
namespace Entitle

/-! ## Characters of identities -/

namespace Identity

/-- Resolving segments makes no new ones. -/
theorem mem_of_resolve {entered segments left : List (List Char)}
    (h : resolve entered segments = some left) {segment : List Char} (hs : segment ∈ left) :
    segment ∈ entered ∨ segment ∈ segments := by
  induction segments generalizing entered with
  | nil =>
    cases h
    exact .inl hs
  | cons first rest ih =>
    simp only [resolve] at h
    split at h
    · exact (ih h).imp_right (List.mem_cons_of_mem _)
    · split at h
      · split at h
        · simp at h
        · rcases ih h with hs | hs
          · exact .inl (List.mem_cons_of_mem _ hs)
          · exact .inr (List.mem_cons_of_mem _ hs)
      · rcases ih h with hs | hs
        · rcases List.mem_cons.1 hs with rfl | hs
          · exact .inr List.mem_cons_self
          · exact .inl hs
        · exact .inr (List.mem_cons_of_mem _ hs)

theorem mem_of_mem_stem {name : List Char} {c : Char} (h : c ∈ stem name) : c ∈ name := by
  rw [stem] at h
  split at h
  · exact List.mem_of_mem_take h
  · exact h

theorem mem_of_mem_join {segments : List (List Char)} {c : Char}
    (h : c ∈ (join segments).toList) : c = '/' ∨ ∃ segment ∈ segments, c ∈ segment := by
  rw [join, String.toList_ofList] at h
  induction segments with
  | nil => simp at h
  | cons first rest ih =>
    cases rest with
    | nil =>
      rw [List.intercalate_singleton] at h
      exact .inr ⟨first, List.mem_cons_self, h⟩
    | cons second rest =>
      rw [List.intercalate_cons_cons, List.mem_append, List.mem_append] at h
      rcases h with (h | h) | h
      · exact .inr ⟨first, List.mem_cons_self, h⟩
      · exact .inl (by simpa using h)
      · rcases ih h with h | ⟨segment, hs, hc⟩
        · exact .inl h
        · exact .inr ⟨segment, List.mem_cons_of_mem _ hs, hc⟩

/-- The characters of an identity are slashes and characters of the identifier. -/
theorem mem_of_ofIdentifier? {identifier identity : String}
    (h : ofIdentifier? identifier = some identity) {c : Char} (hc : c ∈ identity.toList) :
    c = '/' ∨ c ∈ identifier.toList := by
  rw [ofIdentifier?] at h
  split at h
  · simp at h
  · simp at h
  · next last outer hresolve =>
    split at h
    · simp at h
    · cases h
      rcases mem_of_mem_join hc with hc | ⟨segment, hs, hc⟩
      · exact .inl hc
      · have htext : ∀ s ∈ last :: outer, ∀ d ∈ s, d ∈ identifier.toList := by
          intro s hs d hd
          rcases mem_of_resolve hresolve hs with hs | hs
          · simp at hs
          · exact Text.mem_of_mem_splitAt hs hd
        rw [List.mem_reverse, List.mem_cons] at hs
        rcases hs with rfl | hs
        · exact .inr (htext last List.mem_cons_self c (mem_of_mem_stem hc))
        · exact .inr (htext segment (List.mem_cons_of_mem _ hs) c hc)

end Identity

/-- An inclusion without problems has no zero character in its target. -/
theorem Rules.zero_notMem_of_inclusion {target : String} (h : Rules.inclusion target = []) :
    '\x00' ∉ target.toList := by
  intro hzero
  rw [Rules.inclusion] at h
  split at h
  · simp at h
  · split at h
    · simp at h
    · next hnone =>
      refine hnone (List.any_eq_true.2 ⟨'\x00', hzero, ?_⟩)
      decide

/-! ## Contributions from a shelf -/

/-- No two of the messages have the same digest. -/
def Apart (messages : List (List UInt8)) : Prop :=
  ∀ a ∈ messages, ∀ b ∈ messages, sha256 a = sha256 b → a = b

instance (messages : List (List UInt8)) : Decidable (Apart messages) :=
  inferInstanceAs (Decidable (∀ a ∈ messages, ∀ b ∈ messages, sha256 a = sha256 b → a = b))

namespace Shelf

/-- The messages that compiling a plan with these contributions digests: the normal form of every
text that contributed, and the bundle. -/
def digested (s : Shelf) (sources : List ScriptSource) : List (List UInt8) :=
  (sources.filterMap fun src => (s.texts.get? src.identity).map fun text =>
    (Text.normalForm text).toUTF8.toList) ++
  [(String.join (sources.map ScriptSource.frame)).toUTF8.toList]

private theorem text_mem_digested {s : Shelf} {sources : List ScriptSource} {src : ScriptSource}
    {text : String} (hsrc : src ∈ sources) (htext : s.texts.get? src.identity = some text) :
    (Text.normalForm text).toUTF8.toList ∈ s.digested sources := by
  refine List.mem_append_left _ (List.mem_filterMap.2 ⟨src, hsrc, ?_⟩)
  rw [htext, Option.map_some]

private theorem bundle_mem_digested (s : Shelf) (sources : List ScriptSource) :
    (String.join (sources.map ScriptSource.frame)).toUTF8.toList ∈ s.digested sources :=
  List.mem_append_right _ (List.mem_singleton.2 rfl)

variable {s : Shelf} {identifier : String} {k : Checked}

/-- A checked script of the shelf was read from the text under its identity. -/
theorem checked?_eq_some (h : s.load.checked? identifier = some k) : ∃ text,
    Identity.ofIdentifier? identifier = some k.identity ∧
      s.texts.get? k.identity = some text ∧
      k.checksum = hexDigest (Text.normalForm text) ∧
      (Script.ofText k.identity text).check = .ok k := by
  obtain ⟨script, hload, hcheck⟩ := Loader.checked?_eq_some h
  obtain ⟨identity, text, hidentity, htext, rfl⟩ := load_eq_ok hload
  obtain ⟨hi, hc⟩ := Script.check_eq_ok hcheck
  obtain rfl : k.identity = identity := hi
  exact ⟨text, hidentity, htext, hc, hcheck⟩

theorem length_checksum (h : s.load.checked? identifier = some k) : k.checksum.length = 64 := by
  obtain ⟨text, -, -, hchecksum, -⟩ := checked?_eq_some h
  rw [hchecksum, hexDigest, Digest.length_hex]

/-- The contribution of an included script can be cut out of a bundle. -/
theorem delimited_contribution (htarget : Rules.inclusion identifier = [])
    (h : s.load.checked? identifier = some k) : k.contribution.Delimited where
  no_zero hzero := by
    obtain ⟨text, hidentity, -, -, -⟩ := checked?_eq_some h
    rcases Identity.mem_of_ofIdentifier? hidentity hzero with hc | hc
    · simp at hc
    · exact Rules.zero_notMem_of_inclusion htarget hc
  length_checksum := length_checksum h

theorem settledLibrary (s : Shelf) : SettledLibrary s.load.checked? :=
  fun _ _ _ _ h h' hk => s.settled_load.checked_eq h h' hk

/-- A contribution determines the script that it comes from, if no two of the digested messages
have the same digest. -/
theorem eq_of_contribution_eq {s₁ s₂ : Shelf} {sources : List ScriptSource}
    (hapart : Apart (s₁.digested sources ++ s₂.digested sources)) {i₁ i₂ : String}
    {k₁ k₂ : Checked} (h₁ : s₁.load.checked? i₁ = some k₁) (h₂ : s₂.load.checked? i₂ = some k₂)
    (hmem : k₁.contribution ∈ sources) (h : k₁.contribution = k₂.contribution) : k₁ = k₂ := by
  obtain ⟨text₁, -, htext₁, hsum₁, hcheck₁⟩ := checked?_eq_some h₁
  obtain ⟨text₂, -, htext₂, hsum₂, hcheck₂⟩ := checked?_eq_some h₂
  have hidentity : k₁.identity = k₂.identity := congrArg ScriptSource.identity h
  have hchecksum : k₁.checksum = k₂.checksum := congrArg ScriptSource.checksum h
  rw [hsum₁, hsum₂] at hchecksum
  have hdigest : sha256 (Text.normalForm text₁).toUTF8.toList =
      sha256 (Text.normalForm text₂).toUTF8.toList := Digest.hex_inj hchecksum
  have hmem₁ := List.mem_append_left (s₂.digested sources) (text_mem_digested hmem htext₁)
  have hmem₂ := List.mem_append_right (s₁.digested sources) (text_mem_digested (h ▸ hmem) htext₂)
  have hnormal : Text.normalForm text₁ = Text.normalForm text₂ :=
    bytes_inj (hapart _ hmem₁ _ hmem₂ hdigest)
  have hscript : Script.ofText k₁.identity text₁ = Script.ofText k₂.identity text₂ := by
    simp only [Script.ofText, Script.checksumOf, hidentity, hnormal]
  rw [hscript, hcheck₂] at hcheck₁
  exact (Except.ok.inj hcheck₁).symm

/-- Two shelves agree on the scripts that contributed to both of two bundles. -/
theorem agreeOn_of_apart {s₁ s₂ : Shelf} {p : Progress}
    (hapart : Apart (s₁.digested p.sources ++ s₂.digested p.sources))
    (hrecords : p.Records s₁.load.checked?) :
    Expands.AgreeOn s₁.load.checked? s₂.load.checked? p.sources := by
  intro i k₁ k₂ h₁ h₂ hmem₁ hmem₂
  obtain ⟨-, hi₁, -⟩ := checked?_eq_some h₁
  obtain ⟨-, hi₂, -⟩ := checked?_eq_some h₂
  have hidentity : k₁.identity = k₂.identity := Option.some.inj (hi₁.symm.trans hi₂)
  exact eq_of_contribution_eq hapart h₁ h₂ hmem₁ (hrecords _ hmem₂ i k₁ h₁ hidentity).symm

end Shelf

/-! ## The plan -/

/-- What the contributions of a plan compiled from a shelf are, and how its directives come
about. -/
theorem Shelf.expands_of_faithful {s : Shelf} {c : Cache} (hc : c.Faithful s.load) {limit : Nat}
    {identifier : String} {plan : Plan}
    (h : (compileScript s.load limit identifier c).1 = .ok plan) :
    ∃ root e p', s.load.checked? identifier = some root ∧ plan = .ofExpansion e ∧
      e.identity = root.identity ∧ e.sources = p'.sources ∧
      Expands s.load.checked? (Progress.start.visit root) root.statements e.directives p' := by
  obtain ⟨script, root, c', e, hload, hroot, he, rfl⟩ := compileScript_eq_ok h
  have hcheck : script.check = .ok root := by
    rw [← hc.check_eq hload, hroot]
  have hc' : c'.Faithful s.load := by
    have := hc.check s.settled_load.keyed hload
    rwa [hroot] at this
  obtain ⟨p', c'', hon, hidentity, hsources⟩ := Expansion.ofChecked_eq_ok he
  refine ⟨root, e, p', ?_, rfl, hidentity, hsources,
    Expansion.expands_ofScript s.settled_load hc' hon⟩
  simp [Loader.checked?, hload, hcheck, Except.toOption]

theorem Shelf.expands_of_compileScript {s : Shelf} {c : Cache} (hc : s.Fills c) {limit : Nat}
    {identifier : String} {plan : Plan}
    (h : (compileScript s.load limit identifier c).1 = .ok plan) :
    ∃ root e p', s.load.checked? identifier = some root ∧ plan = .ofExpansion e ∧
      e.identity = root.identity ∧ e.sources = p'.sources ∧
      Expands s.load.checked? (Progress.start.visit root) root.statements e.directives p' :=
  Shelf.expands_of_faithful hc.faithful h

/-- The contributions to two plans of one script are the same if their bundles have the same
checksum. The root goes first in both, so its identity need not be free of zero characters. -/
theorem Shelf.sources_eq_of_checksum_eq {s₁ s₂ : Shelf} {root₁ root₂ : Checked} {p₁ p₂ : Progress}
    {i₁ i₂ : String} {out₁ out₂ : List Located}
    (hroot₁ : s₁.load.checked? i₁ = some root₁) (hroot₂ : s₂.load.checked? i₂ = some root₂)
    (h₁ : Expands s₁.load.checked? (Progress.start.visit root₁) root₁.statements out₁ p₁)
    (h₂ : Expands s₂.load.checked? (Progress.start.visit root₂) root₂.statements out₂ p₂)
    (hapart : Apart (s₁.digested p₁.sources ++ s₂.digested p₂.sources))
    (hidentity : root₁.identity = root₂.identity)
    (hchecksum : bundleChecksum p₁.sources = bundleChecksum p₂.sources) :
    p₁.sources = p₂.sources := by
  have hbundle : String.join (p₁.sources.map ScriptSource.frame) =
      String.join (p₂.sources.map ScriptSource.frame) := by
    refine bytes_inj (hapart _ ?_ _ ?_ (Digest.hex_inj hchecksum))
    · exact List.mem_append_left _ (bundle_mem_digested s₁ p₁.sources)
    · exact List.mem_append_right _ (bundle_mem_digested s₂ p₂.sources)
  obtain ⟨more₁, hmore₁, hmem₁⟩ := h₁.exists_sources_eq root₁.errors_eq_nil
  obtain ⟨more₂, hmore₂, hmem₂⟩ := h₂.exists_sources_eq root₂.errors_eq_nil
  have hdelimited₁ : ∀ src ∈ more₁, src.Delimited := by
    intro src hsrc
    obtain ⟨target, k, htarget, hk, rfl⟩ := hmem₁ src hsrc
    exact delimited_contribution htarget hk
  have hdelimited₂ : ∀ src ∈ more₂, src.Delimited := by
    intro src hsrc
    obtain ⟨target, k, htarget, hk, rfl⟩ := hmem₂ src hsrc
    exact delimited_contribution htarget hk
  have hsources₁ : p₁.sources = root₁.contribution :: more₁ := hmore₁
  have hsources₂ : p₂.sources = root₂.contribution :: more₂ := hmore₂
  rw [hsources₁, hsources₂]
  refine ScriptSource.eq_of_bundle_eq hidentity (length_checksum hroot₁) (length_checksum hroot₂)
    hdelimited₁ hdelimited₂ ?_
  rw [← hsources₁, ← hsources₂, ← ScriptSource.toList_join_frame, hbundle,
    ScriptSource.toList_join_frame]

/-- The script and the checksum of a plan determine the plan, whichever shelves, limits and caches
it was compiled with. -/
theorem Plan.eq_of_checksum_eq {s₁ s₂ : Shelf} {c₁ c₂ : Cache} (hc₁ : s₁.Fills c₁)
    (hc₂ : s₂.Fills c₂) {limit₁ limit₂ : Nat} {i₁ i₂ : String} {plan₁ plan₂ : Plan}
    (h₁ : (compileScript s₁.load limit₁ i₁ c₁).1 = .ok plan₁)
    (h₂ : (compileScript s₂.load limit₂ i₂ c₂).1 = .ok plan₂)
    (hapart : Apart (s₁.digested plan₁.sources ++ s₂.digested plan₂.sources))
    (hscript : plan₁.script = plan₂.script) (hchecksum : plan₁.checksum = plan₂.checksum) :
    plan₁ = plan₂ := by
  obtain ⟨root₁, e₁, p₁, hroot₁, rfl, hidentity₁, hsources₁, hexp₁⟩ :=
    Shelf.expands_of_compileScript hc₁ h₁
  obtain ⟨root₂, e₂, p₂, hroot₂, rfl, hidentity₂, hsources₂, hexp₂⟩ :=
    Shelf.expands_of_compileScript hc₂ h₂
  simp only [Plan.ofExpansion, hsources₁, hsources₂] at hapart hscript hchecksum
  have hidentity : root₁.identity = root₂.identity := by
    rw [← hidentity₁, ← hidentity₂, hscript]
  have hsources : p₁.sources = p₂.sources :=
    Shelf.sources_eq_of_checksum_eq hroot₁ hroot₂ hexp₁ hexp₂ hapart hidentity hchecksum
  rw [← hsources] at hapart
  have hlibrary₁ := s₁.settledLibrary
  have hlibrary₂ := s₂.settledLibrary
  have hstart₁ := (Progress.records_start s₁.load.checked?).visit hlibrary₁ hroot₁
  have hrecords₁ := hexp₁.records hlibrary₁ hstart₁
  have hmem₁ : root₁.contribution ∈ p₁.sources :=
    hexp₁.sources_subset ((Progress.records_start _).mem_visit hroot₁)
  have hmem₂ : root₂.contribution ∈ p₁.sources :=
    hsources ▸ hexp₂.sources_subset ((Progress.records_start _).mem_visit hroot₂)
  obtain rfl : root₁ = root₂ := Shelf.eq_of_contribution_eq hapart hroot₁ hroot₂ hmem₁
    (hrecords₁ _ hmem₂ i₁ root₁ hroot₁ hidentity).symm
  have hstart₂ := (Progress.records_start s₂.load.checked?).visit hlibrary₂ hroot₂
  obtain ⟨hdirectives, -⟩ := Expands.agree hlibrary₁ hlibrary₂
    (Shelf.agreeOn_of_apart hapart hrecords₁) hexp₁ hexp₂ hstart₁ hstart₂ (List.Subset.refl _)
    (hsources ▸ List.Subset.refl _)
  simp only [Plan.ofExpansion, Plan.mk.injEq]
  refine ⟨hscript, ?_, ?_, ?_⟩
  · rw [hsources₁, hsources₂, hsources]
  · rw [hsources₁, hsources₂, hsources]
  · rw [hdirectives]

/-- A shelf with a script that includes another one. -/
def Shelf.accounts : Shelf :=
  .ofList [("main", "include \"lib/users\";\ncheck exists \"u\";"),
    ("lib/users", "create user \"u\";\n")]

/-- The same scripts with other line ends, beside a script that the first one does not include. -/
def Shelf.accountsRespaced : Shelf :=
  .ofList [("other", "purge \"/\";"), ("lib/users.warden", "create user \"u\"; \r\n"),
    ("main.warden", "include \"lib/users\";\r\ncheck exists \"u\";\t\r\n")]

/-- The plan of `main` on both shelves. -/
def Shelf.accountsPlan : Plan where
  script := "main"
  checksum := "6a18065f8aebfa1e79fd25e7785cef2304e4ea03d26d52d1cabd17b274128ecb"
  sources :=
    [⟨"main", "e54c49b0544bc1519967f95fc661fa2d7f4432f0f813176bc85ff2d4a2ec8e7c"⟩,
      ⟨"lib/users", "9c4df431f9b2a1daec98c440c86a502d5d80fb425530bf09678073acea02d37f"⟩]
  actions :=
    [⟨.ensure .user "u" none, ⟨"lib/users", 1, 1⟩⟩, ⟨.checkPresent "u" none, ⟨"main", 2, 1⟩⟩]

theorem Plan.eq_of_checksum_eq_accounts : ∃ plan₁ plan₂ : Plan,
    (compileScript Shelf.accounts.load 16 "main" .empty).1 = .ok plan₁ ∧
    (compileScript Shelf.accountsRespaced.load 1 "x/../main.warden" .empty).1 = .ok plan₂ ∧
    Apart (Shelf.accounts.digested plan₁.sources ++
      Shelf.accountsRespaced.digested plan₂.sources) ∧
    plan₁.script = plan₂.script ∧ plan₁.checksum = plan₂.checksum ∧ plan₁ = plan₂ := by
  have h₁ : (compileScript Shelf.accounts.load 16 "main" .empty).1 = .ok Shelf.accountsPlan := by
    decide +kernel
  have h₂ : (compileScript Shelf.accountsRespaced.load 1 "x/../main.warden" .empty).1 =
      .ok Shelf.accountsPlan := by
    decide +kernel
  have hapart : Apart (Shelf.accounts.digested Shelf.accountsPlan.sources ++
      Shelf.accountsRespaced.digested Shelf.accountsPlan.sources) := by
    decide +kernel
  exact ⟨_, _, h₁, h₂, hapart, rfl, rfl, eq_of_checksum_eq .empty .empty h₁ h₂ hapart rfl rfl⟩

end Entitle
