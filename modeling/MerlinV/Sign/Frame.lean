import MerlinV.Sign.Embed

/-! # What signing leaves as it was

`merlin_sig_embed` sets out to copy its input verbatim.  Its record of a section holds the name, the
type, the flags and the contents; the rest of the section header, and the type and the flags of the
object, are written anew.
-/
namespace MerlinV
open Lib

variable {L : Libelf} {o o' : ElfObject} {header : SigHeader} {sigBytes : Bytes}

section Statement

def ElfObject.sectionAt (o : ElfObject) : ℕ → Option ElfSection
  | 0 => none
  | k + 1 => o.sections[k]?

def ElfObject.readName (o : ElfObject) (s : ElfSection) : Bytes := (o.nameOf s).getD []

def ElfObject.isOther (o : ElfObject) (s : ElfSection) : Bool :=
  o.readName s ≠ shstrtabName && o.readName s ≠ sigName

/-- `SHT_RELA`, `SHT_REL`, `SHF_INFO_LINK`. -/
def shtRela : BitVec 32 := 4
def shtRel : BitVec 32 := 9
def shfInfoLink : BitVec 64 := 0x40

def ElfSection.infoIsLink (s : ElfSection) : Bool :=
  s.shType = shtRela || s.shType = shtRel || s.shFlags &&& shfInfoLink ≠ 0

/-- Section `k` of `o` has become section `f k` of `o'`: every section leads to one of its name, and the
others keep their order.  What is no index of a section stays as it is. -/
structure Renumbering (o o' : ElfObject) (f : ℕ → ℕ) : Prop where
  undef : f 0 = 0
  beyond : ∀ k, o.sections.length < k → f k = k
  name : ∀ k s, o.sectionAt k = some s → ∃ s', o'.sectionAt (f k) = some s' ∧ o'.readName s' = o.readName s
  order : ∀ j k s t, o.sectionAt j = some s → o.sectionAt k = some t → o.isOther s → o.isOther t → j < k →
    f j < f k

/-- The section `s'` of `o'` means what `s` meant in `o`.  No alignment is the alignment 1. -/
structure SameSection (o o' : ElfObject) (f : ℕ → ℕ) (s s' : ElfSection) : Prop where
  name : o'.readName s' = o.readName s
  type : s'.shType = s.shType
  flags : s'.shFlags = s.shFlags
  size : s'.shSize = s.shSize
  contents : s'.contents = s.contents
  link : s'.shLink = f s.shLink
  info : s'.shInfo = if s.infoIsLink then f s.shInfo else s.shInfo
  align : max 1 s'.shAddralign = max 1 s.shAddralign
  entsize : s'.shEntsize = s.shEntsize

/-- Apart from `.shstrtab` and `.merlin.sig` the two objects are the same. -/
structure SameOtherwise (o o' : ElfObject) : Prop where
  sections : ∃ f, Renumbering o o' f ∧ ∀ k s, o.sectionAt k = some s → o.isOther s →
    ∃ s', o'.sectionAt (f k) = some s' ∧ SameSection o o' f s s'
  eType : o'.eType = o.eType
  eFlags : o'.eFlags = o.eFlags

def Libelf.entsize (L : Libelf) (eClass : BitVec 8) (eMachine : BitVec 16) (shType : BitVec 32) : ℕ :=
  (L.finish eClass eMachine (newSection ⟨[], [], shType, 0⟩ 0)).shEntsize

/-- libelf aligns a section to its data, whose alignment is 1, and an entry size that is not given
follows from the type. -/
structure Libelf.FillsIn (L : Libelf) : Prop where
  shAddralign : ∀ c m s off, (L.finish c m (newSection s off)).shAddralign = 1
  shEntsize : ∀ c m s off, (L.finish c m (newSection s off)).shEntsize = L.entsize c m s.shType

/-- The section header has nothing the copy loses. -/
@[mk_iff] structure ElfSection.Plain (L : Libelf) (o : ElfObject) (s : ElfSection) : Prop where
  notNull : s.shType ≠ shtNull
  size : s.shSize = s.contents.length
  link : s.shLink = 0
  info : s.shInfo = 0
  align : s.shAddralign ≤ 1
  entsize : s.shEntsize = L.entsize o.eClass o.eMachine s.shType

instance (L : Libelf) (o : ElfObject) (s : ElfSection) : Decidable (s.Plain L o) :=
  decidable_of_iff' _ (ElfSection.plain_iff L o s)

structure ElfObject.Plain (L : Libelf) (o : ElfObject) : Prop where
  others : ∀ s ∈ o.sections, o.isOther s → s.Plain L o
  eType : o.eType = etRel
  eFlags : o.eFlags = 0

end Statement

theorem mem_of_sectionAt {k : ℕ} {s : ElfSection} (h : o.sectionAt k = some s) : s ∈ o.sections := by
  cases k with
  | zero => cases h
  | succ i => exact List.mem_of_getElem? h

section Output

theorem readSection_isOther {s : ElfSection} {si : SecIn} (h : o.readSection s = some si) :
    o.isOther s ∧ si.shType ≠ shtNull := by
  simp only [ElfObject.readSection] at h
  split_ifs at h with hstr hsig hnull
  obtain rfl := Option.some.inj h
  exact ⟨by simp [ElfObject.isOther, ElfObject.readName, hstr, hsig], hnull⟩

theorem embed_section_at (hL : L.Faithful) (hfit : o.Fits)
    (hembed : merlinSigEmbed L o header sigBytes = some o') :
    ∃ table, o'.sections.length = o.readAllSections.length + 2 ∧
      ∀ (i : ℕ) si, (o.readAllSections ++ [sigSection header sigBytes, shstrtabSection table])[i]? = some si →
        ∃ off, o'.sections[i]? = some (L.finish o.eClass o.eMachine (newSection si off)) ∧
          o'.nameOf (L.finish o.eClass o.eMachine (newSection si off)) = some si.name ∧
          (L.finish o.eClass o.eMachine (newSection si off)).contents = si.buf := by
  obtain ⟨table, es, hwritten, htable, hsections, -, -⟩ := embed_written hL hfit hembed
  have hlength := hwritten.length_eq
  simp only [List.append_assoc, List.cons_append, List.nil_append] at hwritten
  refine ⟨table, ?_, ?_⟩
  · rw [hsections, List.length_map, ← hlength]
    simp
  · intro i si hsi
    obtain ⟨hi, rfl⟩ := List.getElem?_eq_some_iff.mp hsi
    have hi' : i < es.length := hwritten.length_eq ▸ hi
    obtain ⟨off, he, hname, hcontents⟩ := hwritten.get hi hi'
    simp only [List.get_eq_getElem] at he hname hcontents
    refine ⟨off, ?_, ?_, ?_⟩
    · rw [hsections, List.getElem?_map, List.getElem?_eq_getElem hi', he, Option.map_some]
    · rw [ElfObject.nameOf, htable, Option.bind_some, hL.shName, hname]
    · rw [hL.contents, ← he, hcontents]

theorem embed_plain (hL : L.Faithful) (hfill : L.FillsIn) (hfit : o.Fits)
    (hembed : merlinSigEmbed L o header sigBytes = some o') : ∀ s' ∈ o'.sections, s'.Plain L o := by
  obtain ⟨table, hlength, hat⟩ := embed_section_at hL hfit hembed
  have htypes : ∀ si ∈ o.readAllSections ++ [sigSection header sigBytes, shstrtabSection table],
      si.shType ≠ shtNull := by
    intro si hsi
    rcases List.mem_append.mp hsi with hsi | hsi
    · obtain ⟨s, -, hs⟩ := List.mem_filterMap.mp hsi
      exact (readSection_isOther hs).2
    · rcases List.mem_pair.mp hsi with rfl | rfl
      · exact (by decide : shtProgbits ≠ shtNull)
      · exact (by decide : shtStrtab ≠ shtNull)
  intro s' hs'
  obtain ⟨i, hi, rfl⟩ := List.getElem_of_mem hs'
  have hi' : i < (o.readAllSections ++ [sigSection header sigBytes, shstrtabSection table]).length := by
    simp only [List.length_append, List.length_cons, List.length_nil]
    omega
  obtain ⟨off, hsection, -, hcontents⟩ := hat i _ (List.getElem?_eq_getElem hi')
  rw [List.getElem?_eq_getElem hi] at hsection
  rw [Option.some.inj hsection]
  have hnull := htypes _ (List.getElem_mem hi')
  generalize (o.readAllSections ++ [sigSection header sigBytes, shstrtabSection table])[i] = si at hnull hcontents
  constructor
  · rw [hL.shType]
    exact hnull
  · rw [hL.shSize, hcontents]
  · exact hL.shLink _ _ _ _
  · exact hL.shInfo _ _ _ _
  · rw [hfill.shAddralign]
  · rw [hfill.shEntsize, hL.shType]

end Output

section Necessary

theorem Renumbering.eq_zero {f : ℕ → ℕ} (hf : Renumbering o o' f) {k : ℕ} (h : f k = 0) : k = 0 := by
  cases k with
  | zero => rfl
  | succ i =>
    by_cases hi : i < o.sections.length
    · obtain ⟨s', hs', -⟩ := hf.name (i + 1) o.sections[i] (List.getElem?_eq_getElem hi)
      rw [h] at hs'
      cases hs'
    · have := hf.beyond (i + 1) (by omega)
      omega

theorem SameSection.plain {f : ℕ → ℕ} (hf : Renumbering o o' f) {s s' : ElfSection}
    (h : SameSection o o' f s s') (hplain : s'.Plain L o) : s.Plain L o := by
  constructor
  · rw [← h.type]
    exact hplain.notNull
  · rw [← h.size, ← h.contents]
    exact hplain.size
  · exact hf.eq_zero (h.link.symm.trans hplain.link)
  · have hinfo := h.info.symm.trans hplain.info
    split_ifs at hinfo
    · exact hf.eq_zero hinfo
    · exact hinfo
  · have halign := h.align
    have := hplain.align
    omega
  · rw [← h.entsize, ← h.type]
    exact hplain.entsize

end Necessary

section Filtering
variable {α : Type*} {p : α → Bool}

/-- An element that passes a filter stands behind those before it that pass. -/
theorem getElem?_filter_rank {l : List α} {i : ℕ} {a : α} (hi : l[i]? = some a) (ha : p a = true) :
    (l.filter p)[((l.take i).filter p).length]? = some a := by
  obtain ⟨hlt, rfl⟩ := List.getElem?_eq_some_iff.mp hi
  have hsplit : l.filter p = (l.take i).filter p ++ l[i] :: (l.drop (i + 1)).filter p := by
    conv_lhs => rw [← List.take_append_drop i l, List.drop_eq_getElem_cons hlt]
    rw [List.filter_append, List.filter_cons_of_pos ha]
  rw [hsplit, List.getElem?_append_right le_rfl, Nat.sub_self, List.getElem?_cons_zero]

theorem rank_lt_rank {l : List α} {i j : ℕ} {a : α} (hi : l[i]? = some a) (ha : p a = true) (hij : i < j) :
    ((l.take i).filter p).length < ((l.take j).filter p).length := by
  obtain ⟨hlt, rfl⟩ := List.getElem?_eq_some_iff.mp hi
  have hone : ((l.take (i + 1)).filter p).length = ((l.take i).filter p).length + 1 := by
    rw [List.take_succ_eq_append_getElem hlt, List.filter_append, List.filter_cons_of_pos ha]
    simp
  have hle : ((l.take (i + 1)).filter p).length ≤ ((l.take j).filter p).length :=
    ((List.take_prefix_take_left (by omega)).sublist.filter p).length_le
  omega

end Filtering

section Sufficient

def ElfObject.others (o : ElfObject) : List ElfSection := o.sections.filter o.isOther

/-- Where a section ends up: the others in their order, then the signature and the string table. -/
def ElfObject.newIndex (o : ElfObject) (k : ℕ) : ℕ :=
  match o.sectionAt k with
  | none => k
  | some s =>
    if o.isOther s then ((o.sections.take (k - 1)).filter o.isOther).length + 1
    else if o.readName s = sigName then o.others.length + 1
    else o.others.length + 2

def ElfObject.record (o : ElfObject) (s : ElfSection) : SecIn := ⟨o.readName s, s.contents, s.shType, s.shFlags⟩

theorem readSection_of_notNull {s : ElfSection} (hnull : o.isOther s → s.shType ≠ shtNull) :
    o.readSection s = if o.isOther s then some (o.record s) else none := by
  by_cases hother : o.isOther s = true
  · obtain ⟨hstr, hsig⟩ : o.readName s ≠ shstrtabName ∧ o.readName s ≠ sigName := by
      simpa [ElfObject.isOther] using hother
    rw [if_pos hother]
    simp only [ElfObject.readName] at hstr hsig
    simp only [ElfObject.readSection]
    rw [if_neg hstr, if_neg hsig, if_neg (hnull hother)]
    rfl
  · rw [if_neg hother]
    cases hread : o.readSection s with
    | none => rfl
    | some si => exact absurd (readSection_isOther hread).1 hother

theorem readAllSections_of_plain (h : o.Plain L) : o.readAllSections = o.others.map o.record := by
  rw [ElfObject.readAllSections, ElfObject.others, ← List.filterMap_eq_map, List.filterMap_filter]
  apply List.filterMap_congr
  intro s hs
  exact readSection_of_notNull fun hother => (h.others s hs hother).notNull

theorem record_newIndex (h : o.Plain L) (rest : List SecIn) {k : ℕ} {s : ElfSection}
    (hs : o.sectionAt k = some s) (hother : o.isOther s = true) :
    ∃ i, o.newIndex k = i + 1 ∧ (o.readAllSections ++ rest)[i]? = some (o.record s) := by
  cases k with
  | zero => cases hs
  | succ j =>
    refine ⟨((o.sections.take j).filter o.isOther).length, ?_, ?_⟩
    · simp only [ElfObject.newIndex, hs, hother, if_true, Nat.add_sub_cancel]
    · have hrank := getElem?_filter_rank (p := o.isOther) (l := o.sections) hs hother
      have hmap : o.readAllSections[((o.sections.take j).filter o.isOther).length]? = some (o.record s) := by
        rw [readAllSections_of_plain h, List.getElem?_map, ElfObject.others, hrank, Option.map_some]
      obtain ⟨hlt, -⟩ := List.getElem?_eq_some_iff.mp hmap
      rw [List.getElem?_append_left hlt, hmap]

/-- The sections of a plain object are found again under their new indices. -/
theorem newIndex_renumbering (hL : L.Faithful) (hfit : o.Fits) (h : o.Plain L)
    (hembed : merlinSigEmbed L o header sigBytes = some o') : Renumbering o o' o.newIndex := by
  obtain ⟨table, -, hat⟩ := embed_section_at hL hfit hembed
  have hlength : o.readAllSections.length = o.others.length := by
    rw [readAllSections_of_plain h, List.length_map]
  have hname : ∀ i si, (o.readAllSections ++ [sigSection header sigBytes, shstrtabSection table])[i]? = some si →
      ∃ s', o'.sectionAt (i + 1) = some s' ∧ o'.readName s' = si.name := by
    intro i si hsi
    obtain ⟨off, hsection, hn, -⟩ := hat i si hsi
    exact ⟨_, hsection, by rw [ElfObject.readName, hn, Option.getD_some]⟩
  constructor
  · rfl
  · intro k hk
    cases k with
    | zero => rfl
    | succ j =>
      have hnone : o.sectionAt (j + 1) = none := List.getElem?_eq_none (by omega)
      simp only [ElfObject.newIndex, hnone]
  · intro k s hs
    cases hother : o.isOther s with
    | true =>
      obtain ⟨i, hi, hrecord⟩ := record_newIndex h _ hs hother
      rw [hi]
      exact hname i _ hrecord
    | false =>
      by_cases hsig : o.readName s = sigName
      · have hi : o.newIndex k = o.readAllSections.length + 1 := by
          simp [ElfObject.newIndex, hs, hother, hsig, hlength]
        rw [hi, hsig]
        exact hname _ (sigSection header sigBytes) (by simp)
      · have hstr : o.readName s = shstrtabName := by
          by_contra hne
          simp [ElfObject.isOther, hsig, hne] at hother
        have hi : o.newIndex k = o.readAllSections.length + 1 + 1 := by
          simp [ElfObject.newIndex, hs, hother, hsig, hlength]
        rw [hi, hstr]
        exact hname _ (shstrtabSection table) (by simp)
  · intro j k s t hs ht hso hto hjk
    cases j with
    | zero => cases hs
    | succ i =>
      cases k with
      | zero => cases ht
      | succ l =>
        have hrank := rank_lt_rank (p := o.isOther) (l := o.sections) (j := l) hs hso (by omega)
        simp only [ElfObject.newIndex, hs, ht, hso, hto, if_true, Nat.add_sub_cancel]
        omega

theorem plain_sameSection (hL : L.Faithful) (hfill : L.FillsIn) (hfit : o.Fits) (h : o.Plain L)
    (hembed : merlinSigEmbed L o header sigBytes = some o') {k : ℕ} {s : ElfSection}
    (hs : o.sectionAt k = some s) (hother : o.isOther s = true) :
    ∃ s', o'.sectionAt (o.newIndex k) = some s' ∧ SameSection o o' o.newIndex s s' := by
  obtain ⟨table, -, hat⟩ := embed_section_at hL hfit hembed
  obtain ⟨i, hi, hrecord⟩ := record_newIndex h [sigSection header sigBytes, shstrtabSection table] hs hother
  obtain ⟨off, hsection, hname, hbuf⟩ := hat i _ hrecord
  have hplain := h.others s (mem_of_sectionAt hs) hother
  have hnew := embed_plain hL hfill hfit hembed _ (List.mem_of_getElem? hsection)
  have htype : (L.finish o.eClass o.eMachine (newSection (o.record s) off)).shType = s.shType := hL.shType _ _ _ _
  have hcontents : (L.finish o.eClass o.eMachine (newSection (o.record s) off)).contents = s.contents := hbuf
  refine ⟨_, by rw [hi]; exact hsection, ?_⟩
  constructor
  · rw [ElfObject.readName, hname, Option.getD_some]
    rfl
  · exact htype
  · exact hL.shFlags _ _ _ _
  · rw [hnew.size, hcontents, hplain.size]
  · exact hcontents
  · rw [hnew.link, hplain.link]
    rfl
  · rw [hnew.info, hplain.info]
    split_ifs <;> rfl
  · have := hnew.align
    have := hplain.align
    omega
  · rw [hnew.entsize, htype, hplain.entsize]

end Sufficient

/-- What the copy keeps had nothing to lose. -/
theorem SameOtherwise.plain (hL : L.Faithful) (hfill : L.FillsIn) (hfit : o.Fits)
    (hembed : merlinSigEmbed L o header sigBytes = some o') (h : SameOtherwise o o') : o.Plain L := by
  obtain ⟨-, -, -, -, -, heType, heFlags⟩ := embed_written hL hfit hembed
  obtain ⟨f, hf, hsame⟩ := h.sections
  refine ⟨?_, h.eType.symm.trans heType, h.eFlags.symm.trans heFlags⟩
  intro s hs hother
  obtain ⟨i, hi, rfl⟩ := List.getElem_of_mem hs
  obtain ⟨s', hs', hsec⟩ := hsame (i + 1) _ (List.getElem?_eq_getElem hi) hother
  exact hsec.plain hf (embed_plain hL hfill hfit hembed s' (mem_of_sectionAt hs'))

/-- Signing changes nothing else exactly when there is nothing the copy loses. -/
theorem merlinSigEmbed_sameOtherwise_iff (L : Libelf) (hL : L.Faithful) (hfill : L.FillsIn)
    (header : SigHeader) (sigBytes : Bytes) (o o' : ElfObject) (hfit : o.Fits)
    (hembed : merlinSigEmbed L o header sigBytes = some o') : SameOtherwise o o' ↔ o.Plain L := by
  refine ⟨SameOtherwise.plain hL hfill hfit hembed, fun h => ?_⟩
  obtain ⟨-, -, -, -, -, heType, heFlags⟩ := embed_written hL hfit hembed
  refine ⟨⟨o.newIndex, newIndex_renumbering hL hfit h hembed, ?_⟩, heType.trans h.eType.symm,
    heFlags.trans h.eFlags.symm⟩
  intro k s hs hother
  exact plain_sameSection hL hfill hfit h hembed hs hother

section Samples

theorem plainLibelf_fillsIn : plainLibelf.FillsIn where
  shAddralign _ _ _ _ := rfl
  shEntsize _ _ _ _ := rfl

theorem sampleObject_sameOtherwise :
    ∃ o', merlinSigEmbed plainLibelf (sampleObject 243 [1] [2]) (signHeader 7 2) (List.replicate 64 0) = some o' ∧
      SameOtherwise (sampleObject 243 [1] [2]) o' := by
  refine ⟨_, rfl, ?_⟩
  refine (merlinSigEmbed_sameOtherwise_iff plainLibelf plainLibelf_faithful plainLibelf_fillsIn _ _
    (sampleObject 243 [1] [2]) _ ⟨by decide +kernel, by decide +kernel⟩ rfl).mpr ⟨?_, rfl, rfl⟩
  decide +kernel

/-- A symbol table that names its string table by `sh_link`. -/
def linkedObject : ElfObject where
  eClass := 2
  eType := etRel
  eMachine := 243
  eFlags := 0
  shstrndx := 3
  sections :=
    [⟨1, 2, 0, 24, 2, 1, 8, 24, some (List.replicate 24 0)⟩, ⟨9, shtStrtab, 0, 1, 0, 0, 1, 0, some [0]⟩,
      ⟨17, shtStrtab, 0, 27, 0, 0, 1, 0, some ([0] ++ cstr ".symtab" ++ [0] ++ cstr ".strtab" ++ [0] ++
        shstrtabName ++ [0])⟩]

/-- A signed symbol table no longer leads to its string table. -/
theorem linkedObject_changes :
    ∃ o', merlinSigEmbed plainLibelf linkedObject (signHeader 7 0) (List.replicate 64 0) = some o' ∧
      ¬SameOtherwise linkedObject o' := by
  refine ⟨_, rfl, fun h => ?_⟩
  have hplain := h.plain plainLibelf_faithful plainLibelf_fillsIn ⟨by decide +kernel, by decide +kernel⟩ rfl
  have hlink := (hplain.others ⟨1, 2, 0, 24, 2, 1, 8, 24, some (List.replicate 24 0)⟩ List.mem_cons_self
    (by decide +kernel)).link
  revert hlink
  decide

end Samples

end MerlinV
