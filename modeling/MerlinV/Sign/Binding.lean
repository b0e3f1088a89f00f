import MerlinV.Sign.Object

/-! # What a signature binds

The digest is taken over the concatenation of the signed sections, so it fixes their bytes and not
where one section ends and the next begins, nor their names, nor a second section of a fixed name.
-/
namespace MerlinV
open Lib

variable {C : SignCrypto} {o o' : ElfObject}

def ElfObject.named (o : ElfObject) (name : Bytes) : List ElfSection :=
  o.sections.filter fun s => o.nameOf s = some name

def ElfObject.texts (o : ElfObject) : List ElfSection := o.sections.filter o.isText

/-- Two objects agree on the name and the contents of every section of a fixed name and of every text
section, the text sections in file order: a text section that changes places is renamed. -/
structure SectionsAgree (o o' : ElfObject) : Prop where
  fixed : ∀ name ∈ canonicalFixedSections,
    (o.named name).map ElfSection.contents = (o'.named name).map ElfSection.contents
  text : o.texts.map (fun s => (o.nameOf s, s.contents)) = o'.texts.map fun s => (o'.nameOf s, s.contents)

/-- Two objects have their section boundaries in the same places: the first sections of each fixed
name have the same length, the further ones are equal, and the text sections have, in file order, the
same names and lengths. -/
structure SameLayout (o o' : ElfObject) : Prop where
  first : ∀ name ∈ canonicalFixedSections,
    (o.findNamed name).map (·.contents.length) = (o'.findNamed name).map (·.contents.length)
  rest : ∀ name ∈ canonicalFixedSections,
    (o.named name).tail.map ElfSection.contents = (o'.named name).tail.map ElfSection.contents
  text : o.texts.map (fun s => (o.nameOf s, s.contents.length)) =
    o'.texts.map fun s => (o'.nameOf s, s.contents.length)

theorem findNamed_eq_head? (o : ElfObject) (name : Bytes) : o.findNamed name = (o.named name).head? := by
  rw [ElfObject.named, List.head?_filter, ElfObject.findNamed]

theorem SectionsAgree.sameLayout (h : SectionsAgree o o') : SameLayout o o' where
  first name hname := by
    have hhead := congrArg (fun l => l.head?.map List.length) (h.fixed name hname)
    simpa [findNamed_eq_head?, List.head?_map, Function.comp_def] using hhead
  rest name hname := by
    have htail := congrArg List.tail (h.fixed name hname)
    simpa [List.map_tail] using htail
  text := by
    have hmap := congrArg (List.map fun p : Option Bytes × Bytes => (p.1, p.2.length)) h.text
    simpa [Function.comp_def] using hmap

theorem SameLayout.lengths (h : SameLayout o o') : o.pieces.map List.length = o'.pieces.map List.length := by
  have hpiece : ∀ (r : Option ElfSection),
      (r.elim [] ElfSection.contents).length = (r.map (·.contents.length)).getD 0 := by
    intro r
    cases r <;> rfl
  have htext := congrArg (List.map Prod.snd) h.text
  simp only [List.map_map] at htext
  simp only [ElfObject.pieces, List.map_append, List.map_map]
  congr 1
  apply List.map_congr_left
  intro name hname
  simp only [Function.comp_apply, hpiece, h.first name hname]

theorem SameLayout.agree (h : SameLayout o o') (hregion : o.signedRegion = o'.signedRegion) :
    SectionsAgree o o' := by
  have hpieces : o.pieces = o'.pieces := List.eq_iff_flatten_eq.mpr ⟨hregion, h.lengths⟩
  obtain ⟨hfixed, htext⟩ := List.append_inj hpieces (by simp)
  rw [List.map_inj_left] at hfixed
  constructor
  · intro name hname
    have hfirst := h.first name hname
    have hrest := h.rest name hname
    have hpiece := hfixed name hname
    rw [findNamed_eq_head?, findNamed_eq_head?] at hfirst hpiece
    cases hn : o.named name with
    | nil =>
      cases hn' : o'.named name with
      | nil => rfl
      | cons s' ss' => simp [hn, hn'] at hfirst
    | cons s ss =>
      cases hn' : o'.named name with
      | nil => simp [hn, hn'] at hfirst
      | cons s' ss' =>
        simp only [hn, hn', List.head?_cons, Option.elim_some, List.tail_cons] at hpiece hrest
        rw [List.map_cons, List.map_cons, hpiece, hrest]
  · have hnames := congrArg (List.map Prod.fst) h.text
    simp only [List.map_map] at hnames
    calc o.texts.map (fun s => (o.nameOf s, s.contents))
        = (o.texts.map o.nameOf).zip (o.texts.map ElfSection.contents) := List.zip_map'.symm
      _ = (o'.texts.map o'.nameOf).zip (o'.texts.map ElfSection.contents) := by
          rw [show o.texts.map o.nameOf = o'.texts.map o'.nameOf from hnames,
            show o.texts.map ElfSection.contents = o'.texts.map ElfSection.contents from htext]
      _ = o'.texts.map (fun s => (o'.nameOf s, s.contents)) := List.zip_map'

section Verify

def ElfObject.sigData (o : ElfObject) : Option (Option Bytes) := (o.findNamed sigName).map ElfSection.getdata

theorem merlinSigExtract_congr (h : o.sigData = o'.sigData) (cap : ℕ) :
    merlinSigExtract o cap = merlinSigExtract o' cap := by
  unfold merlinSigExtract
  unfold ElfObject.sigData at h
  cases hs : o.findNamed sigName with
  | none =>
    cases hs' : o'.findNamed sigName with
    | none => rfl
    | some s' => simp [hs, hs'] at h
  | some s =>
    cases hs' : o'.findNamed sigName with
    | none => simp [hs, hs'] at h
    | some s' =>
      have hdata : s.getdata = s'.getdata := by simpa [hs, hs'] using h
      simp only [hdata]

theorem cmdVerify_found {header : SigHeader} {sigBytes : Bytes} {pk : C.scheme.Pub} {stale : Vector Byte 64}
    (hx : merlinSigExtract o sigEd25519Len = .found header sigBytes) :
    cmdVerify C (some pk) stale o =
      if header.algo ≠ sigAlgoEd25519 then false
      else if o.signedTotal ≠ header.signedBlobLen then false
      else C.scheme.verify pk (sigBuffer sigBytes stale) (C.sha256 o.signedRegion) := by
  rw [cmdVerify, hx]
  rfl

theorem cmdVerify_accepts {pub : Option C.scheme.Pub} {stale : Vector Byte 64}
    (h : cmdVerify C pub stale o = true) :
    ∃ header sigBytes pk, merlinSigExtract o sigEd25519Len = .found header sigBytes ∧ pub = some pk ∧
      C.scheme.verify pk (sigBuffer sigBytes stale) (C.sha256 o.signedRegion) = true := by
  cases hx : merlinSigExtract o sigEd25519Len with
  | failed => simp [cmdVerify, hx] at h
  | unsigned => simp [cmdVerify, hx] at h
  | found header sigBytes =>
    cases pub with
    | none => simp [cmdVerify, hx] at h
    | some pk =>
      rw [cmdVerify_found hx] at h
      split_ifs at h
      exact ⟨header, sigBytes, pk, rfl, rfl, h⟩

theorem sigBuffer_full {sigBytes : Bytes} (h : sigBytes.length = 64) (stale : Vector Byte 64) :
    sigBuffer sigBytes stale = sigBytes := by
  rw [sigBuffer, List.drop_of_length_le (by simp [h]), List.append_nil]

end Verify

/-- Two accepted objects with the same signature agree on the signed sections exactly when their
sections have the same layout. -/
theorem cmdVerify_binds_iff (C : SignCrypto) (hsha : Function.Injective C.sha256)
    (hbinding : C.scheme.Binding) (pub : Option C.scheme.Pub) (stale stale' : Vector Byte 64)
    (o o' : ElfObject) (hsig : o.sigData = o'.sigData)
    (hstale : (∀ header sigBytes, merlinSigExtract o sigEd25519Len = .found header sigBytes →
      sigBytes.length = 64) ∨ stale = stale')
    (h : cmdVerify C pub stale o = true) (h' : cmdVerify C pub stale' o' = true) :
    SectionsAgree o o' ↔ SameLayout o o' := by
  obtain ⟨header, sigBytes, pk, hx, hpub, hv⟩ := cmdVerify_accepts h
  obtain ⟨header', sigBytes', pk', hx', hpub', hv'⟩ := cmdVerify_accepts h'
  rw [merlinSigExtract_congr hsig, hx'] at hx
  obtain ⟨rfl, rfl⟩ := Extracted.found.inj hx
  obtain rfl : pk = pk' := Option.some.inj (hpub.symm.trans hpub')
  have hbuf : sigBuffer sigBytes' stale = sigBuffer sigBytes' stale' := by
    rcases hstale with hfull | rfl
    · rw [merlinSigExtract_congr hsig] at hfull
      have hlen := hfull _ _ hx'
      rw [sigBuffer_full hlen, sigBuffer_full hlen]
    · rfl
  rw [hbuf] at hv
  have hregion : o.signedRegion = o'.signedRegion := hsha (hbinding _ _ _ _ hv hv')
  exact ⟨SectionsAgree.sameLayout, fun hlayout => hlayout.agree hregion⟩

section Samples

/-- A scheme under which only the digest of the bytes `1, 2` has been signed. -/
def sampleSignCrypto : SignCrypto where
  Digest := Bytes
  sha256 := id
  scheme :=
    { Priv := Unit
      Pub := Unit
      pubOf := id
      sign := fun _ _ => Vector.replicate 64 0
      verify := fun _ sig m => sig = List.replicate 64 0 && m = [1, 2] }

theorem sampleSignCrypto_binding : sampleSignCrypto.scheme.Binding := by
  intro pk sig m m' h h'
  simp only [sampleSignCrypto, Bool.and_eq_true, decide_eq_true_eq] at h h'
  exact h.2.trans h'.2.symm

def sampleObject (eMachine : BitVec 16) (metaBytes mapsBytes : Bytes) : ElfObject :=
  assembleObject 2 eMachine
    [⟨cstr ".merlin.meta", metaBytes, shtProgbits, 0⟩, ⟨cstr ".merlin.maps", mapsBytes, shtProgbits, 0⟩,
      sigSection (signHeader 7 2) (List.replicate 64 0)]

theorem sampleObjects_agree : SectionsAgree (sampleObject 243 [1] [2]) (sampleObject 62 [1] [2]) :=
  (cmdVerify_binds_iff sampleSignCrypto Function.injective_id sampleSignCrypto_binding (some ())
    (Vector.replicate 64 5) (Vector.replicate 64 5) (sampleObject 243 [1] [2]) (sampleObject 62 [1] [2])
    (by decide +kernel) (.inr rfl) (by decide +kernel) (by decide +kernel)).mpr
    ⟨by decide +kernel, by decide +kernel, by decide +kernel⟩

/-- A byte moved from `.merlin.meta` to `.merlin.maps` leaves the signature valid. -/
theorem sampleObjects_move_byte :
    Function.Injective sampleSignCrypto.sha256 ∧ sampleSignCrypto.scheme.Binding ∧
      (sampleObject 243 [1, 2] []).sigData = (sampleObject 243 [1] [2]).sigData ∧
      cmdVerify sampleSignCrypto (some ()) (Vector.replicate 64 5) (sampleObject 243 [1, 2] []) = true ∧
      cmdVerify sampleSignCrypto (some ()) (Vector.replicate 64 5) (sampleObject 243 [1] [2]) = true ∧
      ¬SectionsAgree (sampleObject 243 [1, 2] []) (sampleObject 243 [1] [2]) := by
  refine ⟨Function.injective_id, sampleSignCrypto_binding, by decide +kernel, by decide +kernel,
    by decide +kernel, fun h => ?_⟩
  have hmeta := h.fixed (cstr ".merlin.meta") (by decide +kernel)
  revert hmeta
  decide +kernel

end Samples

end MerlinV
