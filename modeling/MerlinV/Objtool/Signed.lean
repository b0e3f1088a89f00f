import MerlinV.Objtool.Digest
import MerlinV.Objtool.Reads
import MerlinV.Sign.Embed

/-! # Signed objects in front of `merlin-objtool`

`merlin-sign` takes an object apart and writes it anew.  The validators of `merlin-objtool` look at a section by
its size and its data, which the copy keeps: a signed object is judged as the object was, with the same facts, the
same error texts and the same digest.
-/
namespace MerlinV.Objtool
open Lib

variable {C : SignCrypto} {L : Libelf} {o o' : ElfObject} {header : SigHeader} {sigBytes name : Bytes}

def validatedSections : List Bytes := [".merlin.meta", ".merlin.license", ".merlin.maps", ".merlin.relocs"].map cstr

def optionalSections : List Bytes := [".merlin.btf", ".merlin.btf_ext", ".merlin.core_v_pending"].map cstr

/-- What libelf has written it can read: `elf_getdata` does not fail on a section of the file, also where it is
empty. -/
def ReadableBack (L : Libelf) : Prop :=
  ∀ c m s off, (L.finish c m (newSection s off)).data.isSome = true

/-- The sections that `merlin-objtool` looks at are there for the copy: none has the type `SHT_NULL`, and those
that are validated have their data in the file, as long as their header says. -/
structure Copied (o : ElfObject) : Prop extends SignedNotNull o where
  optional : ∀ name ∈ optionalSections, ∀ s ∈ o.findNamed name, s.shType ≠ shtNull
  validated : ∀ name ∈ validatedSections, ∀ s ∈ o.findNamed name,
    s.shType ≠ shtNull ∧ s.shType ≠ shtNobits ∧ ∃ bytes, s.data = some bytes ∧ bytes.length = s.shSize

def probe (o : ElfObject) (name : Bytes) : Option (Option ElfData × ℕ) :=
  (o.findNamed name).map fun s => (elfGetdata s, s.shSize)

section Congruence

structure SameProbes (o o' : ElfObject) : Prop where
  machine : o'.eMachine = o.eMachine
  validated : ∀ name ∈ validatedSections, probe o' name = probe o name
  optional : ∀ name ∈ optionalSections, (o'.findNamed name).isSome = (o.findNamed name).isSome

theorem probe_cases (h : probe o' name = probe o name) :
    (o.findNamed name = none ∧ o'.findNamed name = none) ∨
      ∃ s s', o.findNamed name = some s ∧ o'.findNamed name = some s' ∧ elfGetdata s' = elfGetdata s ∧
        s'.shSize = s.shSize := by
  unfold probe at h
  cases hs : o.findNamed name with
  | none =>
    rw [hs, Option.map_none, Option.map_eq_none_iff] at h
    exact .inl ⟨rfl, h⟩
  | some s =>
    rw [hs, Option.map_some, Option.map_eq_some_iff] at h
    obtain ⟨s', hs', heq⟩ := h
    obtain ⟨hdata, hsize⟩ := Prod.mk.inj heq
    exact .inr ⟨s, s', rfl, hs', hdata, hsize⟩

theorem requiredSection_congr {name tooSmall : String} {verbose : Bool} {min : ℕ}
    {read : ElfSection → ElfData → Rd (Option String) ValidateCtx}
    (hread : ∀ s s' d, s'.shSize = s.shSize → read s' d = read s d)
    (h : probe o' (cstr name) = probe o (cstr name)) :
    requiredSection o' name verbose tooSmall min read = requiredSection o name verbose tooSmall min read := by
  unfold requiredSection
  rcases probe_cases h with ⟨hs, hs'⟩ | ⟨s, s', hs, hs', hdata, hsize⟩
  · rw [hs, hs']
  · rw [hs, hs']
    dsimp only
    rw [hdata]
    cases elfGetdata s with
    | none => rfl
    | some d =>
      dsimp only
      rw [hread s s' d hsize]

theorem validateMeta_congr (h : SameProbes o o') (verbose : Bool) (ctx : ValidateCtx) :
    validateMeta o' verbose ctx = validateMeta o verbose ctx := by
  apply requiredSection_congr
  · intro s s' d hsize
    rw [hsize]
  · exact h.validated _ (by simp [validatedSections])

theorem validateLicense_congr (h : SameProbes o o') (verbose : Bool) (ctx : ValidateCtx) :
    validateLicense o' verbose ctx = validateLicense o verbose ctx := by
  apply requiredSection_congr
  · intro _ _ _ _
    rfl
  · exact h.validated _ (by simp [validatedSections])

theorem validateMaps_congr (h : SameProbes o o') (ctx : ValidateCtx) : validateMaps o' ctx = validateMaps o ctx := by
  unfold validateMaps
  rcases probe_cases (h.validated (cstr ".merlin.maps") (by simp [validatedSections])) with
    ⟨hs, hs'⟩ | ⟨s, s', hs, hs', hdata, hsize⟩
  · rw [hs, hs']
  · rw [hs, hs']
    dsimp only
    rw [hdata, hsize]

theorem validateRelocs_congr (h : SameProbes o o') (ctx : ValidateCtx) :
    validateRelocs o' ctx = validateRelocs o ctx := by
  unfold validateRelocs
  rcases probe_cases (h.validated (cstr ".merlin.relocs") (by simp [validatedSections])) with
    ⟨hs, hs'⟩ | ⟨s, s', hs, hs', hdata, hsize⟩
  · rw [hs, hs']
  · rw [hs, hs']
    dsimp only
    rw [hdata, hsize]

theorem Validation.val_bind {α β : Type} (x : Validation α) (f : α → Validation β) :
    (x >>= f).val = x.val.bind fun a => (f a).val := by
  cases x with
  | mk v reads => cases v <;> rfl

theorem map_bind {ε α β γ : Type} (g : β → γ) (x : Except ε α) (f : α → Except ε β) :
    (x.bind f).map g = x.bind fun a => (f a).map g := by
  cases x <;> rfl

theorem runValidate_congr (h : SameProbes o o') (hsig : (o'.findNamed sigName).isSome = true) (eiData : BitVec 8)
    (verbose strictMachine : Bool) : (runValidate ⟨eiData, o'⟩ verbose strictMachine).val =
      (runValidate ⟨eiData, o⟩ verbose strictMachine).val.map fun ctx => { ctx with hasSig := true } := by
  unfold runValidate
  dsimp only
  rw [h.machine]
  split_ifs with hdata hmachine
  · rfl
  · rfl
  · have hoptional := h.optional
    simp only [optionalSections, List.map_cons, List.map_nil, List.mem_cons, List.not_mem_nil, or_false,
      forall_eq_or_imp, forall_eq] at hoptional
    simp only [validateMeta_congr h, validateLicense_congr h, validateMaps_congr h, validateRelocs_congr h,
      hoptional, hsig, Validation.val_bind, map_bind]
    rfl

end Congruence

section Copy

theorem embed_findView (hL : L.Faithful) (hfit : o.Fits) (hembed : merlinSigEmbed L o header sigBytes = some o')
    (hkept : Kept name) (hnull : ∀ s ∈ o.findNamed name, s.shType ≠ shtNull) :
    findView o'.views name = findView o.views name := by
  obtain ⟨table, hviews⟩ := embed_views hL hfit hembed
  have htail : [(sigSection header sigBytes).view, (shstrtabSection table).view].find?
      (fun v => v.name = some name) = none := by
    rw [List.find?_eq_none]
    intro w hw
    rcases List.mem_pair.mp hw with rfl | rfl
    · simpa [SecIn.view, sigSection] using hkept.2.2.symm
    · simpa [SecIn.view, shstrtabSection] using hkept.2.1.symm
  rw [hviews, findView, List.find?_append, htail, Option.or_none]
  apply find?_filterMap_keep
  · intro v w hv hw
    simpa using keep_name hkept (by simpa using hv) hw
  · intro v hv
    change findView o.views name = some v at hv
    have hn : v.name = some name := by simpa using List.find?_some hv
    rw [findView_views] at hv
    obtain ⟨s, hs, rfl⟩ := Option.map_eq_some_iff.mp hv
    exact keep_self hn hkept.2.1 hkept.2.2 (hnull s hs)

/-- A section of a signed object is as long as its contents, which can be read. -/
theorem embed_backed (hL : L.Faithful) (hback : ReadableBack L) (hfit : o.Fits)
    (hembed : merlinSigEmbed L o header sigBytes = some o') :
    ∀ s' ∈ o'.sections, s'.shSize = s'.contents.length ∧ s'.data.isSome = true := by
  obtain ⟨table, es, hwritten, -, hsections, -, -⟩ := embed_written hL hfit hembed
  intro s' hs'
  rw [hsections] at hs'
  obtain ⟨e, he, rfl⟩ := List.mem_map.mp hs'
  obtain ⟨i, hi, rfl⟩ := List.getElem_of_mem he
  have hi' := hwritten.length_eq.symm ▸ hi
  obtain ⟨off, hnew, -, hcontents⟩ := hwritten.get hi' hi
  simp only [List.get_eq_getElem] at hnew hcontents
  rw [hnew] at hcontents ⊢
  exact ⟨by rw [hL.shSize, hL.contents, hcontents], hback _ _ _ _⟩

theorem elfGetdata_of_contents {s : ElfSection} (hnobits : s.shType ≠ shtNobits) (hdata : s.data.isSome = true) :
    elfGetdata s = some ⟨some s.contents, s.contents.length⟩ := by
  obtain ⟨bytes, hbytes⟩ := Option.isSome_iff_exists.mp hdata
  simp [elfGetdata, ElfSection.contents, ElfSection.getdata, hnobits, hbytes]

theorem validated_kept : ∀ name ∈ validatedSections, Kept name := by
  unfold Kept
  decide +kernel

theorem optional_kept : ∀ name ∈ optionalSections, Kept name := by
  unfold Kept
  decide +kernel

theorem writeSections_count (sht : Bytes) (ss : List SecIn) : (writeSections sht ss).2.length = ss.length := by
  induction ss generalizing sht with
  | nil => rfl
  | cons s ss ih => exact congrArg (· + 1) (ih (appendName sht s.name))

theorem embed_machine (hL : L.Faithful) (hfit : o.Fits) (hembed : merlinSigEmbed L o header sigBytes = some o') :
    o'.eMachine = o.eMachine := by
  have hcount := hfit.count
  have hlen : (assembleObject o.eClass o.eMachine
      (o.readAllSections ++ [sigSection header sigBytes])).sections.length = o.readAllSections.length + 2 := by
    simp [assembleObject, writeSections_count]
  rw [hL.write _ _ (by omega) hembed]
  rfl

/-- The validators see of a signed object what they saw of the object. -/
theorem embed_probes (hL : L.Faithful) (hback : ReadableBack L) (hfit : o.Fits) (hcopied : Copied o)
    (hembed : merlinSigEmbed L o header sigBytes = some o') : SameProbes o o' where
  machine := embed_machine hL hfit hembed
  validated := by
    intro name hname
    have hfind := embed_findView hL hfit hembed (validated_kept name hname)
      fun s hs => (hcopied.validated name hname s hs).1
    rw [findView_views, findView_views] at hfind
    unfold probe
    cases hs : o.findNamed name with
    | none =>
      rw [hs, Option.map_none, Option.map_eq_none_iff] at hfind
      rw [hfind]
    | some s =>
      rw [hs, Option.map_some, Option.map_eq_some_iff] at hfind
      obtain ⟨s', hs', hview⟩ := hfind
      obtain ⟨-, htype, hcontents⟩ := SectionView.mk.inj hview
      obtain ⟨-, hnobits, bytes, hbytes, hlen⟩ := hcopied.validated name hname s hs
      obtain ⟨hsize, hdata⟩ := embed_backed hL hback hfit hembed s' (List.mem_of_find?_eq_some hs')
      have hsame : s.contents = bytes := by
        simp [ElfSection.contents, ElfSection.getdata, hnobits, hbytes]
      rw [hs', Option.map_some, Option.map_some, elfGetdata_of_contents (htype ▸ hnobits) hdata,
        elfGetdata_of_contents hnobits (by rw [hbytes]; rfl), hsize, hcontents, hsame, hlen]
  optional := by
    intro name hname
    have hfind := embed_findView hL hfit hembed (optional_kept name hname)
      fun s hs => hcopied.optional name hname s hs
    rw [findView_views, findView_views] at hfind
    simpa using congrArg Option.isSome hfind

/-- The digest that is printed for a signed object is the one of the object. -/
theorem embed_cmdSha256 (hL : L.Faithful) (hfit : o.Fits) (hnull : SignedNotNull o)
    (hembed : merlinSigEmbed L o header sigBytes = some o') (C : SignCrypto) : cmdSha256 C o' = cmdSha256 C o := by
  have hpieces : canonicalFixedSections.map o'.fixedPiece ++ (o'.sections.filter o'.isText).map ElfSection.contents =
      canonicalFixedSections.map o.fixedPiece ++ (o.sections.filter o.isText).map ElfSection.contents :=
    embed_pieces hL hfit hnull hembed
  obtain ⟨hfixed, htexts⟩ := List.append_inj hpieces (by simp)
  have hpiece : ∀ name ∈ canonicalFixedSections, o'.fixedPiece name = o.fixedPiece name :=
    List.map_inj_left.mp hfixed
  have hlengths : (canonicalFixedSections.map fun name => (o'.fixedPiece name).length % 2 ^ 32) =
      canonicalFixedSections.map fun name => (o.fixedPiece name).length % 2 ^ 32 := by
    apply List.map_congr_left
    intro name hname
    rw [hpiece name hname]
  have hint : (∀ name ∈ canonicalFixedSections, (o'.fixedPiece name).length % 2 ^ 32 < 2 ^ 31) ↔
      ∀ name ∈ canonicalFixedSections, (o.fixedPiece name).length % 2 ^ 32 < 2 ^ 31 :=
    forall₂_congr fun name hname => by rw [hpiece name hname]
  unfold cmdSha256
  rw [objtoolRegion_eq, objtoolRegion_eq, signedRegion_eq, signedRegion_eq, hfixed, htexts, hlengths]
  simp only [hint]

end Copy

/-- A signed object is validated as the object was: with the same facts, apart from the signature that is now
there, or with the same error; and the digest that `merlin-objtool` prints has not changed. -/
theorem signed_validates (C : SignCrypto) (L : Libelf) (hL : L.Faithful) (hback : ReadableBack L)
    (priv : Option C.scheme.Priv) (keyId : BitVec 32) (o o' : ElfObject) (hfit : o.Fits) (hcopied : Copied o)
    (hsign : cmdSign C L priv keyId o = some o') (verbose strictMachine : Bool) :
    (runValidate ⟨elfdata2lsb, o'⟩ verbose strictMachine).val =
        (runValidate ⟨elfdata2lsb, o⟩ verbose strictMachine).val.map (fun ctx => { ctx with hasSig := true }) ∧
      cmdSha256 C o' = cmdSha256 C o := by
  cases priv with
  | none => cases hsign
  | some sk =>
    have hembed : merlinSigEmbed L o (signHeader keyId o.signedTotal)
        (C.scheme.sign sk (C.sha256 o.signedRegion)).toList = some o' := hsign
    have hsig : (o'.findNamed sigName).isSome = true := by
      obtain ⟨s, hs, -⟩ := List.map_eq_singleton_iff.mp (embed_named_sig hL hfit hembed)
      rw [findNamed_eq_head?, hs]
      rfl
    exact ⟨runValidate_congr (embed_probes hL hback hfit hcopied hembed) hsig _ _ _,
      embed_cmdSha256 hL hfit hcopied.toSignedNotNull hembed C⟩

section Samples

/-- `plainLibelf`, with the data of empty sections read back. -/
def readingLibelf : Libelf where
  write img := (plainLibelf.write img).map fun out =>
    { out with sections := out.sections.map fun s => { s with data := some (s.data.getD []) } }
  finish c m s := { plainLibelf.finish c m s with data := some (s.data.getD []) }

theorem readingLibelf_faithful : readingLibelf.Faithful where
  write img out _ h := by
    obtain rfl := Option.some.inj h
    simp [plainLibelf, readingLibelf]
  shName _ _ _ _ := rfl
  shType _ _ _ _ := rfl
  shFlags _ _ _ _ := rfl
  shSize _ _ _ _ := rfl
  shLink _ _ _ _ := rfl
  shInfo _ _ _ _ := rfl
  contents c m s off := by
    by_cases hn : s.shType = shtNobits <;>
      simp [readingLibelf, plainLibelf, ElfSection.contents, ElfSection.getdata, newSection, hn]

/-- A program with its license, and a table of maps that is empty. -/
def mapsObject : ElfObject :=
  (readingLibelf.write (assembleObject 2 243
    [⟨cstr ".merlin.meta", sampleMeta 24 [0, 0, 0, 0, 1, 0, 0, 0, 3, 0, 0, 0], shtProgbits, 0⟩,
      ⟨cstr ".merlin.license", [71, 80, 76, 0], shtProgbits, 0⟩,
      ⟨cstr ".merlin.maps", [], shtProgbits, 0⟩])).getD (assembleObject 2 243 [])

theorem mapsObject_validates :
    ∃ o', cmdSign openSignCrypto readingLibelf (some ()) 7 mapsObject = some o' ∧
      (runValidate ⟨elfdata2lsb, o'⟩ true true).val =
        (runValidate ⟨elfdata2lsb, mapsObject⟩ true true).val.map fun ctx => { ctx with hasSig := true } := by
  obtain ⟨o', hsign⟩ : ∃ o', cmdSign openSignCrypto readingLibelf (some ()) 7 mapsObject = some o' := ⟨_, rfl⟩
  have hdata : ∀ name ∈ validatedSections, ∀ s ∈ mapsObject.findNamed name,
      s.shType ≠ shtNull ∧ s.shType ≠ shtNobits ∧ s.data.map List.length = some s.shSize := by decide +kernel
  have hcopied : Copied mapsObject := by
    refine ⟨⟨by decide +kernel, by decide +kernel⟩, by decide +kernel, fun name hname s hs => ?_⟩
    obtain ⟨hnull, hnobits, hlen⟩ := hdata name hname s hs
    exact ⟨hnull, hnobits, Option.map_eq_some_iff.mp hlen⟩
  exact ⟨o', hsign, (signed_validates openSignCrypto readingLibelf readingLibelf_faithful (fun _ _ _ _ => rfl)
    (some ()) 7 mapsObject o' ⟨by decide +kernel, by decide +kernel⟩ hcopied hsign true true).1⟩

end Samples

end MerlinV.Objtool
