import MerlinV.Kernel.LoadedText
import MerlinV.Zephyr.Runtime

/-! # Where the loaders read

The header checks of `find_first_text_section` keep every header of the table inside the object.
The section names are strings of the object and not of the string table: a comparison or a copy
leaves the object when the object ends first.
-/
namespace MerlinV.Zephyr

open Lib (Byte Bytes Rd)
open Elf

section Header

variable {blob : Bytes}

/-- What `find_first_text_section` checks in front of its loop. -/
structure StrtabOk (blob : Bytes) : Prop where
  ehdr : elf32.ehdrSize ≤ blob.length
  magic : blob.take 4 = elfMag
  cls : blob.getD eiClass 0 = elf32.cls
  data : blob.getD eiData 0 = elfData2Lsb
  rel : num 2 blob eType = Elf.etRel
  riscv : num 2 blob eMachine = emRiscv
  shentsize : elf32.shdrSize ≤ elf32.shentsize blob
  table : elf32.shoff blob + elf32.shnum blob * elf32.shentsize blob ≤ blob.length
  strndx : elf32.shstrndx blob ≠ 0 ∧ elf32.shstrndx blob < elf32.shnum blob
  strtab : elf32.type blob (elf32.shstrndx blob) = Elf.shtStrtab
  inFile : elf32.offset blob (elf32.shstrndx blob) + elf32.size blob (elf32.shstrndx blob) ≤ blob.length

theorem val_checkHeader_of_ok (h : StrtabOk blob) : (checkHeader blob).val =
    .ok (elf32.offset blob (elf32.shstrndx blob), elf32.size blob (elf32.shstrndx blob)) := by
  unfold checkHeader
  simp only [Rd.val_slice_bind, Rd.val_byte_bind, Rd.val_word_bind, Rd.val_require_bind,
    val_readShentsize_bind, val_readShoff_bind, val_readShnum_bind, val_readShstrndx_bind, List.drop_zero]
  rw [if_pos h.ehdr, if_pos h.magic, if_pos h.cls, if_pos h.data, if_pos (by exact h.rel),
    if_pos (by exact h.riscv), if_pos h.shentsize, if_pos h.table, if_pos h.strndx]
  change (Layout.readType blob (elf32.hdr blob (elf32.shstrndx blob)) >>= _ : Rd Status _).val = _
  rw [val_readType_bind, Rd.val_require_bind, if_pos h.strtab]
  change (elf32.readOffset blob (elf32.hdr blob (elf32.shstrndx blob)) >>= _ : Rd Status _).val = _
  rw [val_readOffset_bind]
  change (elf32.readSize blob (elf32.hdr blob (elf32.shstrndx blob)) >>= _ : Rd Status _).val = _
  rw [val_readSize_bind, Rd.val_require_bind, if_pos h.inFile]
  rfl

theorem strtabOk_of_val {strtab : ℕ × ℕ} (hv : (checkHeader blob).val = .ok strtab) : StrtabOk blob := by
  unfold checkHeader at hv
  simp only [Rd.val_slice_bind, Rd.val_byte_bind, Rd.val_word_bind, Rd.val_require_bind,
    val_readShentsize_bind, val_readShoff_bind, val_readShnum_bind, val_readShstrndx_bind,
    List.drop_zero] at hv
  split_ifs at hv with h₀ h₁ h₂ h₃ h₄ h₅ h₆ h₇ h₈
  change (Layout.readType blob (elf32.hdr blob (elf32.shstrndx blob)) >>= _ : Rd Status _).val = _ at hv
  rw [val_readType_bind, Rd.val_require_bind] at hv
  split_ifs at hv with h₉
  change (elf32.readOffset blob (elf32.hdr blob (elf32.shstrndx blob)) >>= _ : Rd Status _).val = _ at hv
  rw [val_readOffset_bind] at hv
  change (elf32.readSize blob (elf32.hdr blob (elf32.shstrndx blob)) >>= _ : Rd Status _).val = _ at hv
  rw [val_readSize_bind, Rd.val_require_bind] at hv
  split_ifs at hv with h₁₀
  exact ⟨h₀, h₁, h₂, h₃, h₄, h₅, h₆, h₇, h₈, h₉, h₁₀⟩

theorem within_checkHeader : Rd.Within blob.length (checkHeader blob) := by
  unfold checkHeader
  rw [Rd.within_require_bind]
  intro hehdr
  have h52 : 52 ≤ blob.length := hehdr
  have hident : eiClass = 4 ∧ eiData = 5 ∧ eType = 16 ∧ eMachine = 18 := by decide
  simp (disch := omega) only [Rd.within_slice_bind, Rd.within_byte_bind, Rd.within_word_bind,
    within_readShentsize_bind elf32_fits hehdr, within_readShoff_bind elf32_fits hehdr,
    within_readShnum_bind elf32_fits hehdr, within_readShstrndx_bind elf32_fits hehdr,
    Rd.within_require_bind]
  intro _ _ _ _ _ hsize htable hndx
  have hle := Layout.hdr_le hsize htable hndx.2
  change Rd.Within _ (Layout.readType blob (elf32.hdr blob (elf32.shstrndx blob)) >>= _ : Rd Status _)
  rw [within_readType_bind elf32_fits hle, Rd.within_require_bind]
  intro _
  change Rd.Within _ (elf32.readOffset blob (elf32.hdr blob (elf32.shstrndx blob)) >>= _ : Rd Status _)
  rw [within_readOffset_bind elf32_fits hle]
  change Rd.Within _ (elf32.readSize blob (elf32.hdr blob (elf32.shstrndx blob)) >>= _ : Rd Status _)
  rw [within_readSize_bind elf32_fits hle, Rd.within_require_bind]
  exact fun _ => Rd.within_pure _

end Header

section Walk

variable {blob : Bytes}

/-- The name of section `i`, which starts at `p`, may be compared with the prefix. -/
def Compared (blob : Bytes) (i p : ℕ) : Prop :=
  0 < i ∧ i < elf32.shnum blob ∧ elf32.type blob i = Elf.shtProgbits ∧
    elf32.name blob i < elf32.size blob (elf32.shstrndx blob) ∧
    p = elf32.offset blob (elf32.shstrndx blob) + elf32.name blob i

def Taken (blob : Bytes) (i : ℕ) : Prop := ∃ p, Compared blob i p ∧ merlinTextPrefix <+: blob.drop p

/-- The name of section `i` ends inside the object, if the loop gets to it: the object does not end
inside the prefix, and a name that is copied has a terminator or 63 bytes. -/
def NameEnds (blob : Bytes) (i : ℕ) : Prop :=
  ∀ p, Compared blob i p → (∀ j < i, ¬ Taken blob j) → ¬ Rd.CutShort blob merlinTextPrefix p ∧
    (merlinTextPrefix <+: blob.drop p → elf32.offset blob i + elf32.size blob i ≤ blob.length →
      0 ∈ blob.drop p ∨ p + 63 ≤ blob.length)

def walk (blob : Bytes) : List ℕ → Rd Status TextSection :=
  walkSections blob (elf32.shoff blob) (elf32.shentsize blob) (elf32.offset blob (elf32.shstrndx blob))
    (elf32.size blob (elf32.shstrndx blob))

theorem walk_cons (i : ℕ) (is : List ℕ) : walk blob (i :: is) = (do
    let type ← Layout.readType blob (elf32.hdr blob i)
    if type ≠ Elf.shtProgbits then walk blob is else do
    let name ← Layout.readName blob (elf32.hdr blob i)
    if name ≥ elf32.size blob (elf32.shstrndx blob) then walk blob is else do
    let isText ← Rd.strncmp blob merlinTextPrefix (elf32.offset blob (elf32.shstrndx blob) + name)
    if !isText then walk blob is else do
    let off ← elf32.readOffset blob (elf32.hdr blob i)
    let len ← elf32.readSize blob (elf32.hdr blob i)
    Rd.require (off + len ≤ blob.length) .inval
    let secName ← Rd.copyString blob 63 (elf32.offset blob (elf32.shstrndx blob) + name)
    pure ⟨off, len, secName⟩) := rfl

theorem Compared.le (h : StrtabOk blob) {i p : ℕ} (hc : Compared blob i p) : p ≤ blob.length := by
  obtain ⟨-, -, -, hlt, rfl⟩ := hc
  have := h.inFile
  omega

theorem walk_of_not_compared (h : StrtabOk blob) {i : ℕ} (hpos : 0 < i) (hlt : i < elf32.shnum blob)
    (hi : ∀ p, ¬ Compared blob i p) (is : List ℕ) :
    (walk blob (i :: is)).val = (walk blob is).val ∧
      (Rd.Within blob.length (walk blob (i :: is)) ↔ Rd.Within blob.length (walk blob is)) := by
  have hle := Layout.hdr_le h.shentsize h.table hlt
  rw [walk_cons, val_readType_bind, within_readType_bind elf32_fits hle]
  by_cases htype : elf32.type blob i ≠ Elf.shtProgbits
  · rw [if_pos htype]
    exact ⟨rfl, Iff.rfl⟩
  · rw [if_neg htype, val_readName_bind, within_readName_bind elf32_fits hle]
    by_cases hname : elf32.name blob i ≥ elf32.size blob (elf32.shstrndx blob)
    · rw [if_pos hname]
      exact ⟨rfl, Iff.rfl⟩
    · exact absurd ⟨hpos, hlt, not_not.mp htype, not_le.mp hname, rfl⟩ (hi _)

theorem walk_of_compared (h : StrtabOk blob) {i p : ℕ} (hc : Compared blob i p) (is : List ℕ) :
    (¬ merlinTextPrefix <+: blob.drop p →
      (walk blob (i :: is)).val = (walk blob is).val ∧
      (Rd.Within blob.length (walk blob (i :: is)) ↔
        ¬ Rd.CutShort blob merlinTextPrefix p ∧ Rd.Within blob.length (walk blob is))) ∧
    (merlinTextPrefix <+: blob.drop p →
      (∀ sec, (walk blob (i :: is)).val = .ok sec → sec.off + sec.len ≤ blob.length) ∧
      (Rd.Within blob.length (walk blob (i :: is)) ↔
        ¬ Rd.CutShort blob merlinTextPrefix p ∧
          (elf32.offset blob i + elf32.size blob i ≤ blob.length →
            0 ∈ blob.drop p ∨ p + 63 ≤ blob.length))) := by
  have hp := hc.le h
  obtain ⟨hpos, hlt, htype, hname, rfl⟩ := hc
  have hle := Layout.hdr_le h.shentsize h.table hlt
  generalize hq : elf32.offset blob (elf32.shstrndx blob) + elf32.name blob i = q at hp ⊢
  have hcmp : (Rd.strncmp blob merlinTextPrefix q : Rd Status Bool).val = _ :=
    Rd.val_strncmp zero_notMem_merlinTextPrefix blob q
  obtain ⟨nm, hcopy⟩ := @Rd.exists_val_copyString Status blob 63 q
  rw [walk_cons, val_readType_bind, within_readType_bind elf32_fits hle, if_neg (not_not.mpr htype),
    val_readName_bind, within_readName_bind elf32_fits hle, if_neg (not_le.mpr hname), hq,
    Rd.val_bind_ok hcmp, Rd.within_bind, Rd.within_strncmp merlinTextPrefix hp]
  simp only [hcmp, Except.ok.injEq, forall_eq']
  by_cases hpre : merlinTextPrefix <+: blob.drop q
  · simp only [hpre, not_true_eq_false, false_implies, true_implies, decide_true, Bool.not_true,
      Bool.false_eq_true, if_false, true_and]
    rw [val_readOffset_bind, val_readSize_bind, Rd.val_require_bind, within_readOffset_bind elf32_fits hle,
      within_readSize_bind elf32_fits hle, Rd.within_require_bind, Rd.within_bind,
      Rd.within_copyString 63 hp]
    constructor
    · intro sec hsec
      split_ifs at hsec with hin
      rw [Rd.val_bind_ok hcopy] at hsec
      obtain rfl := Except.ok.inj hsec
      exact hin
    · simp
  · simp [hpre]

theorem Compared.unique {i p q : ℕ} (hp : Compared blob i p) (hq : Compared blob i q) : p = q :=
  hp.2.2.2.2.trans hq.2.2.2.2.symm

/-- The loop over the last `k` sections, when the ones in front of them are not taken. -/
theorem walk_within (h : StrtabOk blob) (k : ℕ) {s : ℕ} (hpos : 0 < s) (hk : s + k ≤ elf32.shnum blob)
    (hs : ∀ j < s, ¬ Taken blob j) :
    Rd.Within blob.length (walk blob (List.range' s k)) ↔ ∀ i, s ≤ i → i < s + k → NameEnds blob i := by
  induction k generalizing s with
  | zero =>
    constructor
    · intro _ i h₁ h₂
      omega
    · exact fun _ => Rd.within_fail _
  | succ k ih =>
    rw [List.range'_succ, Lib.forall_window_succ]
    by_cases htaken : Taken blob s
    · -- the loop ends here, and what follows is not looked at
      obtain ⟨p, hp, hpre⟩ := htaken
      have hlater : ∀ i, s + 1 ≤ i → i < s + 1 + k → NameEnds blob i := fun i hi _ q _ hno =>
        absurd ⟨p, hp, hpre⟩ (hno s hi)
      rw [((walk_of_compared h hp _).2 hpre).2]
      constructor
      · rintro ⟨hcut, hcopy⟩
        refine ⟨fun q hq _ => ?_, hlater⟩
        obtain rfl := hp.unique hq
        exact ⟨hcut, fun _ => hcopy⟩
      · rintro ⟨hends, -⟩
        obtain ⟨hcut, hcopy⟩ := hends p hp hs
        exact ⟨hcut, hcopy hpre⟩
    · have hnext : ∀ j < s + 1, ¬ Taken blob j := Nat.forall_lt_succ_right.mpr ⟨hs, htaken⟩
      rw [← ih (by omega) (by omega) hnext]
      by_cases hcomp : ∃ p, Compared blob s p
      · obtain ⟨p, hp⟩ := hcomp
        have hpre : ¬ merlinTextPrefix <+: blob.drop p := fun hpre => htaken ⟨p, hp, hpre⟩
        rw [((walk_of_compared h hp _).1 hpre).2]
        refine and_congr_left fun _ => ?_
        constructor
        · intro hcut q hq _
          obtain rfl := hp.unique hq
          exact ⟨hcut, fun hpre' => absurd hpre' hpre⟩
        · exact fun hends => (hends p hp hs).1
      · have hnone : ∀ p, ¬ Compared blob s p := fun p hp => hcomp ⟨p, hp⟩
        rw [(walk_of_not_compared h hpos (by omega) hnone _).2]
        exact ⟨fun hw => ⟨fun p hp => absurd hp (hnone p), hw⟩, fun hw => hw.2⟩

/-- The text that the loop finds lies inside the object. -/
theorem walk_val (h : StrtabOk blob) (k : ℕ) {s : ℕ} (hpos : 0 < s) (hk : s + k ≤ elf32.shnum blob)
    {sec : TextSection} (hv : (walk blob (List.range' s k)).val = .ok sec) :
    sec.off + sec.len ≤ blob.length := by
  induction k generalizing s with
  | zero => cases hv
  | succ k ih =>
    rw [List.range'_succ] at hv
    by_cases hcomp : ∃ p, Compared blob s p
    · obtain ⟨p, hp⟩ := hcomp
      by_cases hpre : merlinTextPrefix <+: blob.drop p
      · exact ((walk_of_compared h hp _).2 hpre).1 sec hv
      · rw [((walk_of_compared h hp _).1 hpre).1] at hv
        exact ih (by omega) (by omega) hv
    · have hnone : ∀ p, ¬ Compared blob s p := fun p hp => hcomp ⟨p, hp⟩
      rw [(walk_of_not_compared h hpos (by omega) hnone _).1] at hv
      exact ih (by omega) (by omega) hv

end Walk

section Load

variable {blob : Bytes} {n : ℕ}

/-- Where the reads of `find_first_text_section` stay inside the object. -/
def NamesEnd (blob : Bytes) : Prop := StrtabOk blob → ∀ i, NameEnds blob i

theorem findFirstTextSection_within :
    Rd.Within blob.length (findFirstTextSection blob) ↔ NamesEnd blob := by
  unfold findFirstTextSection NamesEnd
  rw [Rd.within_bind]
  by_cases h : StrtabOk blob
  · have hwalk := walk_within h (elf32.shnum blob - 1) Nat.one_pos (by have := h.strndx; omega) (by
      rintro j hj ⟨p, hc, -⟩
      have := hc.1
      omega)
    rw [val_checkHeader_of_ok h]
    simp only [Except.ok.injEq, forall_eq', within_checkHeader, true_and,
      within_readShoff_bind elf32_fits h.ehdr, within_readShentsize_bind elf32_fits h.ehdr,
      within_readShnum_bind elf32_fits h.ehdr, h, true_implies]
    refine hwalk.trans ⟨fun hw i p hc => ?_, fun hw i _ _ => hw i⟩
    exact hw i hc.1 (by have := hc.2.1; omega) p hc
  · refine ⟨fun _ hok => absurd hok h, fun _ => ⟨within_checkHeader, fun strtab hv => ?_⟩⟩
    exact absurd (strtabOk_of_val hv) h

theorem findFirstTextSection_val {sec : TextSection} (hv : (findFirstTextSection blob).val = .ok sec) :
    sec.off + sec.len ≤ blob.length := by
  unfold findFirstTextSection at hv
  cases hc : (checkHeader blob).val with
  | error e =>
    rw [Rd.val_bind_error hc] at hv
    cases hv
  | ok strtab =>
    have h := strtabOk_of_val hc
    obtain rfl := Except.ok.inj (hc.symm.trans (val_checkHeader_of_ok h))
    rw [Rd.val_bind_ok hc, val_readShoff_bind, val_readShentsize_bind, val_readShnum_bind] at hv
    exact walk_val h (elf32.shnum blob - 1) Nat.one_pos (by have := h.strndx; omega) hv

/-- Every byte that `merlin_prog_load` reads lies inside the object exactly when it is refused for
its arguments or size, or the names end. -/
theorem merlinProgLoad_within (K : Kconfig) (rt : Runtime n) (call : LoadCall) (hblob : call.blob = some blob) :
    Rd.Within blob.length (merlinProgLoad K rt call) ↔
      (call.hasProgOut = true → call.hasInfo = true → blob.length ≤ 64 * 1024 → NamesEnd blob) := by
  have htail : ∀ sec, (findFirstTextSection blob).val = .ok sec → Rd.Within blob.length (do
      Rd.require (sec.len ≠ 0 ∧ sec.len % 4 = 0) Status.inval
      Rd.require (sec.len ≤ K.maxProgBytes) Status.e2big
      Rd.slice blob sec.off sec.len) := by
    intro sec hsec
    rw [Rd.within_require_bind, Rd.within_require_bind]
    exact fun _ _ => Rd.within_slice (findFirstTextSection_val hsec)
  rw [merlinProgLoad, Rd.within_bind, and_iff_left fun _ _ => Rd.within_pure _, readText, hblob]
  dsimp only
  rw [Rd.within_require_bind, Rd.within_require_bind, Rd.within_bind, findFirstTextSection_within]
  constructor
  · intro hw hout hinfo hsize hok
    have hlen : blob.length ≠ 0 := by
      have h52 : 52 ≤ blob.length := hok.ehdr
      omega
    exact (hw ⟨hlen, hout, hinfo⟩ hsize).1 hok
  · rintro hw ⟨-, hout, hinfo⟩ hsize
    exact ⟨hw hout hinfo hsize, htail⟩

/-- Both loaders read inside the object exactly when the names that they look at end there. -/
theorem loaders_within_iff (env : Kernel.LoadEnv) (attr : Kernel.LoadAttr) (K : Kconfig) (rt : Runtime n)
    (call : LoadCall) (blob : Bytes) :
    (Rd.Within blob.length (Kernel.parseAndLoad env blob attr) ∧
      Rd.Within blob.length (merlinProgLoad K rt { call with blob := some blob })) ↔
    (Kernel.NamesEnd blob ∧
      (call.hasProgOut = true → call.hasInfo = true → blob.length ≤ 64 * 1024 → NamesEnd blob)) := by
  rw [Kernel.parseAndLoad_within, merlinProgLoad_within K rt { call with blob := some blob } rfl]

/-- An object of class `L` that ends with its string table, which is `.text` without a terminator;
a section with contents has that name. -/
def cutObject (L : Elf.Layout) : Bytes :=
  elfMag ++ [L.cls, elfData2Lsb, 1] ++ List.replicate 9 0 ++ Lib.leBytes 2 Elf.etRel ++ Lib.leBytes 2 emRiscv ++
    Lib.leBytes 4 1 ++ List.replicate (L.eShoff - 24) 0 ++ Lib.leBytes L.addr L.ehdrSize ++
    Lib.leBytes 4 0 ++ Lib.leBytes 2 L.ehdrSize ++ Lib.leBytes 2 0 ++ Lib.leBytes 2 0 ++
    Lib.leBytes 2 L.shdrSize ++ Lib.leBytes 2 3 ++ Lib.leBytes 2 1 ++
    Kernel.sampleShdr L 0 Elf.shtNull 0 0 ++
    Kernel.sampleShdr L 0 Elf.shtStrtab (L.ehdrSize + 3 * L.shdrSize) 5 ++
    Kernel.sampleShdr L 0 Elf.shtProgbits 0 4 ++ merlinTextPrefix.take 5

def sampleKconfig : Kconfig := ⟨1, 16384, 256, true⟩

/-- The comparison reads the byte behind the object, in the kernel and on the RTOS. -/
theorem cutObject_not_within :
    ¬ Rd.Within (cutObject elf64).length
      (Kernel.parseAndLoad Kernel.sampleEnv (cutObject elf64) Kernel.sampleAttr) ∧
    ¬ Rd.Within (cutObject elf32).length
      (merlinProgLoad sampleKconfig (merlinInit 1) ⟨some (cutObject elf32), none, true, true, true⟩) := by
  have hkernel : (cutObject elf64).length ∈
      (Kernel.parseAndLoad Kernel.sampleEnv (cutObject elf64) Kernel.sampleAttr).reads := by
    decide +kernel
  have hzephyr : (cutObject elf32).length ∈
      (merlinProgLoad sampleKconfig (merlinInit 1)
        ⟨some (cutObject elf32), none, true, true, true⟩).reads := by
    decide +kernel
  exact ⟨fun h => lt_irrefl _ (h _ hkernel), fun h => lt_irrefl _ (h _ hzephyr)⟩

end Load

end MerlinV.Zephyr
