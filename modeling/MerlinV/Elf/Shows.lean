import MerlinV.Elf.Layout
import MerlinV.Sign.Embed

/-! # Objects and their files

`merlin-sign` sees an object through libelf, the loaders read the bytes of its file.  Where libelf shows an object for
a file, the program that the format names in the file is the first text section of the object with bits in the file.
-/
namespace MerlinV.Elf

open Lib (Byte Bytes)

section Shown

/-- A little-endian file of the class, with a section table behind an unnamed section zero; the header has the number
of the sections where it can. -/
structure Layout.Framed (L : Layout) (blob : Bytes) : Prop where
  magic : blob.take 4 = elfMag
  cls : blob.getD eiClass 0 = L.cls
  data : blob.getD eiData 0 = elfData2Lsb
  ehdr : L.ehdrSize ≤ blob.length
  shdr : L.shdrSize ≤ L.shentsize blob
  table : L.hdr blob (L.count blob) ≤ blob.length
  counted : L.count blob < shnLoreserve → L.shnum blob = L.count blob
  escape : L.shstrndx blob = shnXindex → shnLoreserve ≤ L.link blob 0
  null : L.type blob 0 = shtNull
  unnamed : L.name blob 0 = 0

/-- libelf shows section `i` of the file as `s`; its data lie inside the file and start before its end. -/
structure Layout.ShowsSection (L : Layout) (blob : Bytes) (i : ℕ) (s : ElfSection) : Prop where
  name : s.shName = L.name blob i
  type : s.shType.toNat = L.type blob i
  data : s.shType ≠ MerlinV.shtNobits → L.Loadable blob i ∧ s.contents = L.contents blob i

/-- libelf shows the file `blob` as the object `o`. -/
structure Layout.Shows (L : Layout) (blob : Bytes) (o : ElfObject) : Prop extends L.Framed blob where
  eClass : o.eClass = L.cls
  eType : o.eType.toNat = num 2 blob Elf.eType
  eMachine : o.eMachine.toNat = num 2 blob Elf.eMachine
  shstrndx : o.shstrndx = L.strndx blob
  count : o.sections.length + 1 = L.count blob
  sections : ∀ p ∈ o.sections.zipIdx, L.ShowsSection blob (p.2 + 1) p.1

instance (L : Layout) (blob : Bytes) (i : ℕ) (s : ElfSection) : Decidable (L.ShowsSection blob i s) :=
  decidable_of_iff
    (s.shName = L.name blob i ∧ s.shType.toNat = L.type blob i ∧
      (s.shType ≠ MerlinV.shtNobits → L.Loadable blob i ∧ s.contents = L.contents blob i))
    ⟨fun h => ⟨h.1, h.2.1, h.2.2⟩, fun h => ⟨h.name, h.type, h.data⟩⟩

/-- The program among the sections: the first text section of type `SHT_PROGBITS`. -/
def program (vs : List SectionView) : Option Bytes :=
  ((vs.filter SectionView.isText).find? fun v => v.shType = MerlinV.shtProgbits).map SectionView.contents

end Shown

section Names

variable {L : Layout} {blob : Bytes} {o : ElfObject} {tab : Bytes} {i : ℕ} {s : ElfSection}

theorem Layout.Shows.section (h : L.Shows blob o) (hi : o.sections[i]? = some s) : L.ShowsSection blob (i + 1) s :=
  h.sections (s, i) (List.mem_zipIdx_iff_getElem?.mpr hi)

theorem Layout.ShowsSection.dataOf (hs : L.ShowsSection blob i s) {t : BitVec 32} (htype : s.shType = t)
    (ht : t ≠ MerlinV.shtNobits) : L.Loadable blob i ∧ s.contents = L.contents blob i :=
  hs.data (htype ▸ ht)

/-- The table that libelf takes the names from is the one the header of the file names. -/
theorem Layout.Shows.of_nameTable (h : L.Shows blob o) (ht : o.nameTable = some tab) :
    0 < L.strndx blob ∧ L.strndx blob < L.count blob ∧ L.type blob (L.strndx blob) = shtStrtab ∧
      L.Loadable blob (L.strndx blob) ∧ L.contents blob (L.strndx blob) = tab := by
  unfold ElfObject.nameTable at ht
  split_ifs at ht with hzero
  obtain ⟨s, hs, hdata⟩ := Option.bind_eq_some_iff.mp ht
  split_ifs at hdata with htype
  have hshown := h.section hs
  have hlt := (List.getElem?_eq_some_iff.mp hs).1
  have hcount := h.count
  have hndx : o.shstrndx - 1 + 1 = L.strndx blob := by
    rw [← h.shstrndx]
    omega
  rw [hndx] at hshown
  obtain ⟨hin, hcontents⟩ := hshown.dataOf htype (by decide)
  refine ⟨by omega, by omega, ?_, hin, ?_⟩
  · rw [← hshown.type, htype]
    rfl
  · rw [← hcontents, ElfSection.contents, hdata]
    rfl

theorem Layout.Shows.nameTable (h : L.Shows blob o) (hw : L.WellFormed blob) :
    o.nameTable = some (L.contents blob (L.strndx blob)) := by
  have hpos := hw.strndx_pos
  have hlt := hw.strndx_lt
  have hcount := h.count
  have hndx : L.strndx blob - 1 + 1 = L.strndx blob := by omega
  obtain ⟨s, hs⟩ : ∃ s, o.sections[L.strndx blob - 1]? = some s := ⟨_, List.getElem?_eq_getElem (by omega)⟩
  have hshown := h.section hs
  rw [hndx] at hshown
  have htype : s.shType = MerlinV.shtStrtab := by
    apply BitVec.eq_of_toNat_eq
    rw [hshown.type, hw.strtab]
    rfl
  have hcontents := (hshown.dataOf htype (by decide)).2
  have hne : s.contents ≠ [] := by
    intro hnil
    have hzero := hw.names 0 (by omega)
    rw [← hcontents, hnil, List.drop_nil] at hzero
    cases hzero
  rw [ElfObject.nameTable, h.shstrndx, if_neg hpos.ne', hs, Option.bind_some, if_pos htype,
    ElfSection.getdata_of_contents hne, hcontents]

theorem Layout.ShowsSection.nameOf (hs : L.ShowsSection blob i s)
    (ht : o.nameTable = some (L.contents blob (L.strndx blob))) :
    o.nameOf s = stringAt (L.contents blob (L.strndx blob)) (L.name blob i) := by
  rw [ElfObject.nameOf, ht, Option.bind_some, hs.name]

theorem stringAt_eq_some {off : ℕ} {name : Bytes} :
    stringAt tab off = some name ↔ 0 ∈ tab.drop off ∧ name = (tab.drop off).takeWhile (· ≠ 0) := by
  unfold stringAt
  dsimp only
  split_ifs with h
  · rw [Option.some.injEq, and_iff_right h, eq_comm]
  · exact ⟨nofun, fun hname => absurd hname.1 h⟩

end Names

section Program

variable {L : Layout} {blob : Bytes} {o : ElfObject} {i : ℕ} {s : ElfSection}

/-- A search through the positions of a list is a search through the list. -/
theorem find?_range_eq {α β : Type*} {l : List α} {p : ℕ → Bool} {q : α → Bool} {f : ℕ → β} {g : α → β}
    (h : ∀ i a, l[i]? = some a → p i = q a ∧ (q a = true → f i = g a)) :
    ((List.range l.length).find? p).map f = (l.find? q).map g := by
  induction l generalizing p f with
  | nil => rfl
  | cons a l ih =>
    obtain ⟨hpq, hfg⟩ := h 0 a rfl
    have hrest := @ih (p ∘ Nat.succ) (f ∘ Nat.succ) fun i b hb => h (i + 1) b hb
    rw [List.length_cons, List.range_succ_eq_map, List.find?_cons, List.find?_cons, hpq]
    cases hq : q a with
    | true =>
      dsimp only
      rw [Option.map_some, Option.map_some, hfg hq]
    | false =>
      dsimp only
      rw [List.find?_map, Option.map_map]
      exact hrest

theorem Layout.ShowsSection.isText_iff (hs : L.ShowsSection blob i s)
    (ht : o.nameTable = some (L.contents blob (L.strndx blob))) (hname : (o.nameOf s).isSome = true) :
    L.IsText blob i ↔ (o.viewOf s).isText = true ∧ s.shType = MerlinV.shtProgbits := by
  obtain ⟨name, hn⟩ := Option.isSome_iff_exists.mp hname
  obtain ⟨-, hsec⟩ := stringAt_eq_some.mp ((hs.nameOf ht).symm.trans hn)
  have hsame : (o.viewOf s).isText = true ↔ merlinTextPrefix <+: L.secName blob i := by
    rw [SectionView.isText, ElfObject.viewOf, hn, hsec]
    exact List.isPrefixOf_iff_prefix
  have htype : s.shType = MerlinV.shtProgbits ↔ L.type blob i = shtProgbits := by
    rw [← hs.type]
    exact ⟨fun h => by rw [h]; rfl, fun h => BitVec.eq_of_toNat_eq h⟩
  rw [hsame, htype]
  constructor
  · rintro ⟨hprog, -, hpre⟩
    exact ⟨hpre, hprog⟩
  · rintro ⟨hpre, hprog⟩
    exact ⟨hprog, (hs.dataOf (htype.mpr hprog) (by decide)).1.inFile, hpre⟩

/-- The program of the file is the program among the sections of the object. -/
theorem Layout.Shows.text_eq (h : L.Shows blob o) (ht : o.nameTable = some (L.contents blob (L.strndx blob)))
    (hnames : ∀ s ∈ o.sections, (o.nameOf s).isSome = true) : L.text blob = program o.views := by
  have hzero : decide (L.IsText blob 0) = false := by
    apply decide_eq_false
    rintro ⟨hprog, -⟩
    exact absurd (h.null.symm.trans hprog) (by decide)
  rw [program, List.find?_filter, Layout.text, Layout.textIndex, ← h.count, List.range_succ_eq_map, List.find?_cons, hzero]
  dsimp only
  rw [List.find?_map, Option.map_map, ElfObject.views, List.find?_map, Option.map_map]
  apply find?_range_eq
  intro i s hi
  have hshown := h.section hi
  have hiff := hshown.isText_iff ht (hnames s (List.mem_of_getElem? hi))
  constructor
  · simp only [Function.comp_apply, Nat.succ_eq_add_one]
    rw [Bool.eq_iff_iff, decide_eq_true_iff, decide_eq_true_iff, decide_eq_true_iff, hiff]
    exact Iff.rfl
  · intro hq
    have hprog : s.shType = MerlinV.shtProgbits := by
      simp only [Function.comp_apply, decide_eq_true_iff] at hq
      exact hq.2
    exact (hshown.dataOf hprog (by decide)).2.symm

theorem Layout.Shows.named (h : L.Shows blob o) (hw : L.WellFormed blob) :
    ∀ s ∈ o.sections, (o.nameOf s).isSome = true := by
  intro s hs
  obtain ⟨i, hi⟩ := List.mem_iff_getElem?.mp hs
  have hlt := (List.getElem?_eq_some_iff.mp hi).1
  have hcount := h.count
  rw [(h.section hi).nameOf (h.nameTable hw), Option.isSome_iff_exists]
  exact ⟨_, stringAt_eq_some.mpr ⟨hw.names (i + 1) (by omega), rfl⟩⟩

/-- A file is well formed where libelf shows a relocatable object for RISC-V with named sections and a program. -/
theorem Layout.Shows.wellFormed (h : L.Shows blob o) (hrel : o.eType = MerlinV.etRel)
    (hriscv : o.eMachine.toNat = emRiscv) (hcount : L.count blob < shnLoreserve)
    (hnames : ∀ s ∈ o.sections, (o.nameOf s).isSome = true) (hprog : (program o.views).isSome = true) :
    L.WellFormed blob := by
  obtain ⟨s₀, hs₀⟩ : ∃ s, s ∈ o.sections := by
    apply List.exists_mem_of_ne_nil
    intro hnil
    simp [program, ElfObject.views, hnil] at hprog
  obtain ⟨name₀, hname₀⟩ := Option.isSome_iff_exists.mp (hnames s₀ hs₀)
  obtain ⟨tab, htab, hat₀⟩ := Option.bind_eq_some_iff.mp hname₀
  obtain ⟨hpos, hlt, hstrtab, hin, rfl⟩ := h.of_nameTable htab
  have htext := (h.text_eq htab hnames).symm ▸ hprog
  refine ⟨h.magic, h.cls, h.data, ?_, ?_, h.ehdr, h.shdr, h.table, ?_, h.escape, h.null, hpos, hlt, hstrtab, ?_, ?_, ?_⟩
  · rw [← h.eType, hrel]
    rfl
  · rw [← h.eMachine, hriscv]
  · rw [h.counted hcount]
    exact hcount
  · unfold Layout.Loadable at hin
    omega
  · intro i hi
    cases i with
    | zero =>
      rw [h.unnamed, List.drop_zero]
      exact List.mem_of_mem_drop (stringAt_eq_some.mp hat₀).1
    | succ i =>
      have hi' : i < o.sections.length := by
        have := h.count
        omega
      have hget := List.getElem?_eq_getElem hi'
      obtain ⟨name, hname⟩ := Option.isSome_iff_exists.mp (hnames _ (List.mem_of_getElem? hget))
      exact (stringAt_eq_some.mp (((h.section hget).nameOf htab).symm.trans hname)).1
  · obtain ⟨c, hc⟩ := Option.isSome_iff_exists.mp htext
    obtain ⟨i, hi, -⟩ := Option.map_eq_some_iff.mp hc
    obtain ⟨hlt', hi', -⟩ := Layout.textIndex_eq_some.mp hi
    exact ⟨i, hlt', hi'⟩

theorem Layout.Shows.loadable (h : L.Shows blob o) (hi : i < L.count blob) (hprog : L.type blob i = shtProgbits) :
    L.Loadable blob i := by
  cases i with
  | zero => exact absurd (h.null.symm.trans hprog) (by decide)
  | succ i =>
    have hcount := h.count
    have hshown := h.section (List.getElem?_eq_getElem (show i < o.sections.length by omega))
    apply (hshown.data ?_).1
    intro hnobits
    rw [← hshown.type, hnobits] at hprog
    exact absurd hprog (by decide)

end Program

section Headers

variable {L : Layout} {blob : Bytes}

theorem Layout.WellFormed.text_isSome (hw : L.WellFormed blob) : (L.text blob).isSome = true := by
  rw [Layout.text, Option.isSome_map, Option.isSome_iff_exists]
  exact hw.exists_textIndex

theorem Layout.WellFormed.header (hw : L.WellFormed blob) (hn : L.shnum blob ≠ 0) :
    L.count blob = L.shnum blob ∧ L.strndx blob = L.shstrndx blob := by
  have hcount : L.count blob = L.shnum blob := if_pos hn
  refine ⟨hcount, if_neg fun hx => ?_⟩
  have hlt := hw.strndx_lt
  have hge := hw.escape hx
  have hplain := hw.plain
  rw [hcount, Layout.strndx, if_pos hx] at hlt
  omega

end Headers

end MerlinV.Elf
