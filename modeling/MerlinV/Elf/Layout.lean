import MerlinV.Lib.ByteReads

/-! # Relocatable objects

Where the two classes of the ELF format keep the fields that the loaders use, what a section of an
object is, and which section holds the program: the first `SHT_PROGBITS` section inside the file
whose name starts with `.text.merlin.`.
-/
namespace MerlinV.Elf

open Lib (Byte Bytes Rd leValue)

/-- The positions of the fields in the file header and in a section header, and the width of an
offset. -/
structure Layout where
  cls : Byte
  ehdrSize : ℕ
  shdrSize : ℕ
  addr : ℕ
  eShoff : ℕ
  eShentsize : ℕ
  eShnum : ℕ
  eShstrndx : ℕ
  shOffset : ℕ
  shSize : ℕ
  shLink : ℕ
  deriving DecidableEq, Repr

def elf32 : Layout := ⟨1, 52, 40, 4, 32, 46, 48, 50, 16, 20, 24⟩

def elf64 : Layout := ⟨2, 64, 64, 8, 40, 58, 60, 62, 24, 32, 40⟩

def elfMag : Bytes := [0x7f, 0x45, 0x4c, 0x46]

def merlinTextPrefix : Bytes := [0x2e, 0x74, 0x65, 0x78, 0x74, 0x2e, 0x6d, 0x65, 0x72, 0x6c, 0x69, 0x6e, 0x2e]

theorem zero_notMem_merlinTextPrefix : (0 : Byte) ∉ merlinTextPrefix := by decide

/-- `EI_CLASS`, `EI_DATA` and the positions of `e_type` and `e_machine`. -/
def eiClass : ℕ := 4
def eiData : ℕ := 5
def eType : ℕ := 16
def eMachine : ℕ := 18

def elfData2Lsb : Byte := 1
def etRel : ℕ := 1
def emRiscv : ℕ := 243
def shtNull : ℕ := 0
def shtProgbits : ℕ := 1
def shtStrtab : ℕ := 3
def shtNobits : ℕ := 8
def shnXindex : ℕ := 0xffff
def shnLoreserve : ℕ := 0xff00

def num (k : ℕ) (blob : Bytes) (off : ℕ) : ℕ := leValue k (blob.drop off)

namespace Layout

variable (L : Layout) (blob : Bytes)

def shoff : ℕ := num L.addr blob L.eShoff
def shentsize : ℕ := num 2 blob L.eShentsize
def shnum : ℕ := num 2 blob L.eShnum
def shstrndx : ℕ := num 2 blob L.eShstrndx

def hdr (i : ℕ) : ℕ := L.shoff blob + i * L.shentsize blob

def name (i : ℕ) : ℕ := num 4 blob (L.hdr blob i)
def type (i : ℕ) : ℕ := num 4 blob (L.hdr blob i + 4)
def offset (i : ℕ) : ℕ := num L.addr blob (L.hdr blob i + L.shOffset)
def size (i : ℕ) : ℕ := num L.addr blob (L.hdr blob i + L.shSize)
def link (i : ℕ) : ℕ := num 4 blob (L.hdr blob i + L.shLink)

/-- The number of sections, which the first header holds when the field is too small for it. -/
def count : ℕ := if L.shnum blob ≠ 0 then L.shnum blob else L.size blob 0

/-- The section with the section names, with the same escape. -/
def strndx : ℕ := if L.shstrndx blob = shnXindex then L.link blob 0 else L.shstrndx blob

/-- The data of section `i` lie inside the file, those of an empty section also at its very end. -/
def InFile (i : ℕ) : Prop := L.offset blob i + L.size blob i ≤ blob.length

instance (i : ℕ) : Decidable (L.InFile blob i) := inferInstanceAs (Decidable (_ ≤ _))

/-- They lie inside the file and start before its end, which is what the kernel loader asks for. -/
def Loadable (i : ℕ) : Prop := L.offset blob i < blob.length ∧ L.size blob i ≤ blob.length - L.offset blob i

instance (i : ℕ) : Decidable (L.Loadable blob i) := inferInstanceAs (Decidable (_ ∧ _))

def contents (i : ℕ) : Bytes := (blob.drop (L.offset blob i)).take (L.size blob i)

def secName (i : ℕ) : Bytes := ((L.contents blob (L.strndx blob)).drop (L.name blob i)).takeWhile (· ≠ 0)

def IsText (i : ℕ) : Prop :=
  L.type blob i = shtProgbits ∧ L.InFile blob i ∧ merlinTextPrefix <+: L.secName blob i

instance (i : ℕ) : Decidable (L.IsText blob i) := inferInstanceAs (Decidable (_ ∧ _ ∧ _))

/-- The first section that holds a program. -/
def textIndex : Option ℕ := (List.range (L.count blob)).find? (L.IsText blob ·)

def text : Option Bytes := (L.textIndex blob).map (L.contents blob)

/-- The first section that holds a program and starts before the end of the file. -/
def loadIndex : Option ℕ := (List.range (L.count blob)).find? fun i => L.IsText blob i ∧ L.Loadable blob i

/-- A little-endian relocatable object for RISC-V with sections, names and a program. -/
structure WellFormed : Prop where
  magic : blob.take 4 = elfMag
  cls : blob.getD eiClass 0 = L.cls
  data : blob.getD eiData 0 = elfData2Lsb
  rel : num 2 blob eType = etRel
  riscv : num 2 blob eMachine = emRiscv
  ehdr : L.ehdrSize ≤ blob.length
  shdr : L.shdrSize ≤ L.shentsize blob
  table : L.hdr blob (L.count blob) ≤ blob.length
  plain : L.shnum blob < shnLoreserve
  escape : L.shstrndx blob = shnXindex → shnLoreserve ≤ L.link blob 0
  null : L.type blob 0 = shtNull
  strndx_pos : 0 < L.strndx blob
  strndx_lt : L.strndx blob < L.count blob
  strtab : L.type blob (L.strndx blob) = shtStrtab
  strtab_inFile : L.offset blob (L.strndx blob) + L.size blob (L.strndx blob) ≤ blob.length
  names : ∀ i < L.count blob, 0 ∈ (L.contents blob (L.strndx blob)).drop (L.name blob i)
  hasText : ∃ i < L.count blob, L.IsText blob i

variable {L blob} {i : ℕ}

theorem Loadable.inFile (h : L.Loadable blob i) : L.InFile blob i := by
  unfold Loadable at h
  unfold InFile
  omega

/-- Only an empty section at the end of the file lies inside it and is not loadable. -/
theorem InFile.size_eq_zero (h : L.InFile blob i) (hno : ¬ L.Loadable blob i) : L.size blob i = 0 := by
  unfold InFile at h
  unfold Loadable at hno
  omega

theorem InFile.length_contents (h : L.InFile blob i) : (L.contents blob i).length = L.size blob i := by
  unfold InFile at h
  rw [contents, List.length_take, List.length_drop]
  omega

theorem textIndex_eq_some : L.textIndex blob = some i ↔
    i < L.count blob ∧ L.IsText blob i ∧ ∀ j < i, ¬ L.IsText blob j := by
  rw [textIndex, List.find?_range_eq_some, List.mem_range, decide_eq_true_iff]
  simp only [Bool.not_eq_true', decide_eq_false_iff_not]
  exact and_left_comm

theorem loadIndex_eq_some : L.loadIndex blob = some i ↔ i < L.count blob ∧
    (L.IsText blob i ∧ L.Loadable blob i) ∧ ∀ j < i, ¬ (L.IsText blob j ∧ L.Loadable blob j) := by
  rw [loadIndex, List.find?_range_eq_some, List.mem_range, decide_eq_true_iff]
  simp only [Bool.not_eq_true', decide_eq_false_iff_not]
  exact and_left_comm

/-- Where the programs start before the end of the file, the first one is taken. -/
theorem loadIndex_eq_textIndex (h : ∀ i < L.count blob, L.type blob i = shtProgbits → L.Loadable blob i) :
    L.loadIndex blob = L.textIndex blob := by
  apply List.find?_congr
  intro i hi
  rw [decide_eq_decide]
  exact and_iff_left_of_imp fun ht => h i (List.mem_range.mp hi) ht.1

theorem WellFormed.exists_textIndex (hw : L.WellFormed blob) : ∃ i, L.textIndex blob = some i := by
  obtain ⟨i, hi, ht⟩ := hw.hasText
  rw [← Option.isSome_iff_exists, textIndex, List.find?_isSome]
  exact ⟨i, List.mem_range.mpr hi, decide_eq_true ht⟩

end Layout

section Readers

variable (L : Layout) (blob : Bytes) {ε β : Type}

def Layout.readShoff : Rd ε ℕ := Rd.word L.addr blob L.eShoff
def Layout.readShentsize : Rd ε ℕ := Rd.word 2 blob L.eShentsize
def Layout.readShnum : Rd ε ℕ := Rd.word 2 blob L.eShnum
def Layout.readShstrndx : Rd ε ℕ := Rd.word 2 blob L.eShstrndx

def Layout.readName (sh : ℕ) : Rd ε ℕ := Rd.word 4 blob sh
def Layout.readType (sh : ℕ) : Rd ε ℕ := Rd.word 4 blob (sh + 4)
def Layout.readOffset (sh : ℕ) : Rd ε ℕ := Rd.word L.addr blob (sh + L.shOffset)
def Layout.readSize (sh : ℕ) : Rd ε ℕ := Rd.word L.addr blob (sh + L.shSize)

variable {L blob}

/-- The headers of a table inside the file lie inside the file. -/
theorem Layout.hdr_le (hsize : L.shdrSize ≤ L.shentsize blob)
    (htable : L.shoff blob + L.shnum blob * L.shentsize blob ≤ blob.length) {i : ℕ} (hi : i < L.shnum blob) :
    L.hdr blob i + L.shdrSize ≤ blob.length := by
  have hmul : (i + 1) * L.shentsize blob ≤ L.shnum blob * L.shentsize blob := Nat.mul_le_mul_right _ hi
  rw [Nat.succ_mul] at hmul
  unfold Layout.hdr
  omega

@[simp] theorem val_readShoff_bind (f : ℕ → Rd ε β) :
    (L.readShoff blob >>= f).val = (f (L.shoff blob)).val :=
  Rd.val_word_bind _ _ _ f

@[simp] theorem val_readShentsize_bind (f : ℕ → Rd ε β) :
    (L.readShentsize blob >>= f).val = (f (L.shentsize blob)).val :=
  Rd.val_word_bind _ _ _ f

@[simp] theorem val_readShnum_bind (f : ℕ → Rd ε β) :
    (L.readShnum blob >>= f).val = (f (L.shnum blob)).val :=
  Rd.val_word_bind _ _ _ f

@[simp] theorem val_readShstrndx_bind (f : ℕ → Rd ε β) :
    (L.readShstrndx blob >>= f).val = (f (L.shstrndx blob)).val :=
  Rd.val_word_bind _ _ _ f

variable {i : ℕ}

@[simp] theorem val_readName_bind (f : ℕ → Rd ε β) :
    (Layout.readName blob (L.hdr blob i) >>= f).val = (f (L.name blob i)).val :=
  Rd.val_word_bind _ _ _ f

@[simp] theorem val_readType_bind (f : ℕ → Rd ε β) :
    (Layout.readType blob (L.hdr blob i) >>= f).val = (f (L.type blob i)).val :=
  Rd.val_word_bind _ _ _ f

@[simp] theorem val_readOffset_bind (f : ℕ → Rd ε β) :
    (L.readOffset blob (L.hdr blob i) >>= f).val = (f (L.offset blob i)).val :=
  Rd.val_word_bind _ _ _ f

@[simp] theorem val_readSize_bind (f : ℕ → Rd ε β) :
    (L.readSize blob (L.hdr blob i) >>= f).val = (f (L.size blob i)).val :=
  Rd.val_word_bind _ _ _ f

structure Layout.Fits (L : Layout) : Prop where
  shoff : L.eShoff + L.addr ≤ L.ehdrSize
  shentsize : L.eShentsize + 2 ≤ L.ehdrSize
  shnum : L.eShnum + 2 ≤ L.ehdrSize
  shstrndx : L.eShstrndx + 2 ≤ L.ehdrSize
  type : 8 ≤ L.shdrSize
  offset : L.shOffset + L.addr ≤ L.shdrSize
  size : L.shSize + L.addr ≤ L.shdrSize
  ident : 20 ≤ L.ehdrSize

theorem elf32_fits : elf32.Fits := by constructor <;> decide

theorem elf64_fits : elf64.Fits := by constructor <;> decide

section Within

variable {n : ℕ} (hL : L.Fits) (hn : L.ehdrSize ≤ n)

include hL hn

theorem within_readShoff_bind (f : ℕ → Rd ε β) :
    Rd.Within n (L.readShoff blob >>= f) ↔ Rd.Within n (f (L.shoff blob)) :=
  Rd.within_word_bind (hL.shoff.trans hn)

theorem within_readShentsize_bind (f : ℕ → Rd ε β) :
    Rd.Within n (L.readShentsize blob >>= f) ↔ Rd.Within n (f (L.shentsize blob)) :=
  Rd.within_word_bind (hL.shentsize.trans hn)

theorem within_readShnum_bind (f : ℕ → Rd ε β) :
    Rd.Within n (L.readShnum blob >>= f) ↔ Rd.Within n (f (L.shnum blob)) :=
  Rd.within_word_bind (hL.shnum.trans hn)

theorem within_readShstrndx_bind (f : ℕ → Rd ε β) :
    Rd.Within n (L.readShstrndx blob >>= f) ↔ Rd.Within n (f (L.shstrndx blob)) :=
  Rd.within_word_bind (hL.shstrndx.trans hn)

end Within

section WithinHdr

variable {n : ℕ} (hL : L.Fits) (hn : L.hdr blob i + L.shdrSize ≤ n)

include hL hn

theorem within_readName_bind (f : ℕ → Rd ε β) :
    Rd.Within n (Layout.readName blob (L.hdr blob i) >>= f) ↔ Rd.Within n (f (L.name blob i)) :=
  Rd.within_word_bind (by have := hL.type; omega)

theorem within_readType_bind (f : ℕ → Rd ε β) :
    Rd.Within n (Layout.readType blob (L.hdr blob i) >>= f) ↔ Rd.Within n (f (L.type blob i)) :=
  Rd.within_word_bind (by have := hL.type; omega)

theorem within_readOffset_bind (f : ℕ → Rd ε β) :
    Rd.Within n (L.readOffset blob (L.hdr blob i) >>= f) ↔ Rd.Within n (f (L.offset blob i)) :=
  Rd.within_word_bind (by have := hL.offset; omega)

theorem within_readSize_bind (f : ℕ → Rd ε β) :
    Rd.Within n (L.readSize blob (L.hdr blob i) >>= f) ↔ Rd.Within n (f (L.size blob i)) :=
  Rd.within_word_bind (by have := hL.size; omega)

end WithinHdr

end Readers

/-- The layout that `EI_CLASS` announces. -/
def layoutOf (blob : Bytes) : Layout := if blob.getD eiClass 0 = elf32.cls then elf32 else elf64

section Values

/-- A number is built from its low and its high bytes. -/
theorem leValue_add (j k : ℕ) (bs : Bytes) :
    leValue (j + k) bs = leValue j bs + 256 ^ j * leValue k (bs.drop j) := by
  induction j generalizing bs with
  | zero => simp [Lib.leValue]
  | succ j ih =>
    cases bs with
    | nil =>
      rw [Nat.succ_add, List.drop_nil]
      cases k <;> simp [Lib.leValue]
    | cons b bs =>
      rw [Nat.succ_add, Lib.leValue, Lib.leValue, ih, List.drop_succ_cons, pow_succ]
      ring

/-- The string at a position starts with `p` when the bytes do. -/
theorem prefix_takeWhile_iff {p l : Bytes} (hp : (0 : Byte) ∉ p) :
    p <+: l.takeWhile (· ≠ 0) ↔ p <+: l := by
  constructor
  · exact fun h => h.trans (List.takeWhile_prefix _)
  · rintro ⟨t, rfl⟩
    rw [List.takeWhile_append_of_pos]
    · exact List.prefix_append _ _
    · intro b hb
      simp only [ne_eq, decide_not, Bool.not_eq_eq_eq_not, Bool.not_true, decide_eq_false_iff_not]
      exact fun h0 => hp (h0 ▸ hb)

end Values

end MerlinV.Elf
