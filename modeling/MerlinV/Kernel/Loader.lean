import MerlinV.Elf.Layout

/-! # The kernel loader

`kernel/merlin/loader.c`: the header check, the section walk and the load itself.  The object is
read through `Elf64_Ehdr` and `Elf64_Shdr` whatever its class is.  The verifier, the translator and
the allocators are parameters; `pr_debug` is compiled out.
-/
namespace MerlinV.Kernel

open Lib (Byte Bytes Rd leValue)
open Elf

/-- The error codes of the loader; `code` is one handed on from the translator or the registry. -/
inductive Errno where
  | einval | e2big | eacces | enodev | enomem
  | code (rc : ℤ)
  deriving DecidableEq, Repr

def maxElfSize : ℕ := 16 * 1024 * 1024
def maxInsns : ℕ := 1024 * 1024

section Walk

variable (blob : Bytes)

def validateElfHeader : Rd Errno Unit := do
  let magic ← Rd.slice blob 0 4
  Rd.require (magic = elfMag) .einval
  let cls ← Rd.byte blob eiClass
  Rd.require (cls = elf64.cls ∨ cls = elf32.cls) .einval
  let data ← Rd.byte blob eiData
  Rd.require (data = elfData2Lsb) .einval
  let type ← Rd.word 2 blob eType
  Rd.require (type = Elf.etRel) .einval
  let machine ← Rd.word 2 blob eMachine
  Rd.require (machine = emRiscv) .einval
  let shentsize ← elf64.readShentsize blob
  Rd.require (elf64.shdrSize ≤ shentsize) .einval
  let shoff ← elf64.readShoff blob
  let shnum ← elf64.readShnum blob
  Rd.require (shoff < blob.length ∧ shnum * shentsize ≤ blob.length - shoff) .einval

/-- `find_section_hdr`: where the header of section `idx` starts, if its data are in bounds. -/
def findSectionHdr (idx : ℕ) : Rd Errno (Option ℕ) := do
  let shnum ← elf64.readShnum blob
  if idx = 0 ∨ idx ≥ shnum then pure none else do
  let shoff ← elf64.readShoff blob
  let shentsize ← elf64.readShentsize blob
  let sh := shoff + idx * shentsize
  if sh + elf64.shdrSize > blob.length then pure none else do
  let type ← Layout.readType blob sh
  if type = Elf.shtNobits then pure (some sh) else do
  let offset ← elf64.readOffset blob sh
  if offset ≥ blob.length then pure none else do
  let size ← elf64.readSize blob sh
  if size > blob.length - offset then pure none else pure (some sh)

/-- What the walk remembers of the section it takes: `text_data`, `text_len`, `prog_sec_name`. -/
structure TextSection where
  off : ℕ
  len : ℕ
  name : Bytes
  deriving DecidableEq, Repr

/-- The walk at section `i`, with the string table at `strOff`.  It goes on behind the section that
it takes. -/
def walkStep (strOff strLen : ℕ) (found : Option TextSection) (i : ℕ) : Rd Errno (Option TextSection) := do
  let sh? ← findSectionHdr blob i
  match sh? with
  | none => pure found
  | some sh => do
    let type ← Layout.readType blob sh
    if type ≠ Elf.shtProgbits then pure found else do
    let name ← Layout.readName blob sh
    if name ≥ strLen then pure found else do
    let isText ← Rd.strncmp blob merlinTextPrefix (strOff + name)
    if !isText then pure found else
    match found with
    | some _ => pure found
    | none => do
      let off ← elf64.readOffset blob sh
      let len ← elf64.readSize blob sh
      let secName ← Rd.copyString blob 64 (strOff + name)
      pure (some ⟨off, len, secName.take 63⟩)

def locateStrtab : Rd Errno (ℕ × ℕ) := do
  Rd.require (elf64.ehdrSize ≤ blob.length) .einval
  validateElfHeader blob
  let shstrndx ← elf64.readShstrndx blob
  Rd.require (shstrndx ≠ shnXindex ∧ shstrndx ≠ 0) .einval
  let sh? ← findSectionHdr blob shstrndx
  match sh? with
  | none => Rd.fail .einval
  | some sh => do
    let type ← Layout.readType blob sh
    Rd.require (type = Elf.shtStrtab) .einval
    let strOff ← elf64.readOffset blob sh
    let strLen ← elf64.readSize blob sh
    pure (strOff, strLen)

def locateText : Rd Errno TextSection := do
  let strtab ← locateStrtab blob
  let shnum ← elf64.readShnum blob
  let found ← (List.range' 1 (shnum - 1)).foldlM (walkStep blob strtab.1 strtab.2) none
  match found with
  | none => Rd.fail .einval
  | some sec => do
    Rd.require (sec.len ≤ maxInsns * 4) .e2big
    pure sec

end Walk

structure LoadAttr where
  progType : BitVec 32
  expectedAttachType : BitVec 32
  profile : BitVec 32
  logLevel : BitVec 32
  logBuf : BitVec 64
  logSize : BitVec 32
  progFlags : BitVec 32
  progName : Bytes
  deriving DecidableEq, Repr

structure LoadedProg where
  id : ℕ
  bytecode : Bytes
  bytecodeLen : ℕ
  progType : BitVec 32
  expectedAttachType : BitVec 32
  profile : BitVec 32
  progFlags : BitVec 32
  loadTimeNs : ℕ
  createdByUid : ℕ
  name : Bytes
  refs : ℕ
  deriving DecidableEq, Repr

/-- What the loader calls: allocators, the verifier under the configuration of the request, the
translators by profile, the program registry, the clock and the caller's uid. -/
structure LoadEnv where
  logAlloc : Bool
  verify : LoadAttr → Bytes → Bool
  selectJit : BitVec 32 → Option (Bytes → Except ℤ Unit)
  progAlloc : Bool
  dupAlloc : Bool
  allocId : Except ℤ ℕ
  now : ℕ
  uid : ℕ

/-- What a load hands to the verifier and to the translator, and how it ends. -/
structure Outcome where
  verified : Bytes
  translated : Option Bytes
  result : Except Errno LoadedProg

/-- `parse_and_load` from the call of the verifier on. -/
def verifyAndInstall (env : LoadEnv) (attr : LoadAttr) (text : Bytes) : Outcome :=
  if !env.verify attr text then ⟨text, none, .error .eacces⟩
  else match env.selectJit attr.profile with
    | none => ⟨text, none, .error .enodev⟩
    | some translate =>
      if !env.progAlloc then ⟨text, none, .error .enomem⟩
      else if !env.dupAlloc then ⟨text, none, .error .enomem⟩
      else match translate text with
        | .error rc => ⟨text, some text, .error (.code rc)⟩
        | .ok () =>
          match env.allocId with
          | .error rc => ⟨text, some text, .error (.code rc)⟩
          | .ok id => ⟨text, some text, .ok
              { id
                bytecode := text
                bytecodeLen := text.length
                progType := attr.progType
                expectedAttachType := attr.expectedAttachType
                profile := attr.profile
                progFlags := attr.progFlags
                loadTimeNs := env.now
                createdByUid := env.uid
                name := (attr.progName.takeWhile (· ≠ 0)).take 15
                refs := 1 }⟩

/-- `parse_and_load`.  An error here ends the load before the verifier is called. -/
def parseAndLoad (env : LoadEnv) (blob : Bytes) (attr : LoadAttr) : Rd Errno Outcome := do
  let sec ← locateText blob
  Rd.require (attr.logBuf = 0 ∨ attr.logSize = 0 ∨ env.logAlloc = true) .enomem
  let text ← Rd.slice blob sec.off sec.len
  pure (verifyAndInstall env attr text)

section Header

variable {blob : Bytes}

structure HeaderOk (blob : Bytes) : Prop where
  magic : blob.take 4 = elfMag
  cls : blob.getD eiClass 0 = elf64.cls ∨ blob.getD eiClass 0 = elf32.cls
  data : blob.getD eiData 0 = elfData2Lsb
  rel : num 2 blob eType = Elf.etRel
  riscv : num 2 blob eMachine = emRiscv
  shentsize : elf64.shdrSize ≤ elf64.shentsize blob
  shoff : elf64.shoff blob < blob.length
  table : elf64.shnum blob * elf64.shentsize blob ≤ blob.length - elf64.shoff blob

theorem val_validateElfHeader : ((validateElfHeader blob).val = .ok () ↔ HeaderOk blob) ∧
    ∀ e, (validateElfHeader blob).val = .error e → e = .einval := by
  simp only [validateElfHeader, Rd.val_slice_bind, Rd.val_byte_bind, Rd.val_word_bind,
    Rd.val_require_bind, val_readShentsize_bind, val_readShoff_bind, val_readShnum_bind, List.drop_zero]
  constructor
  · constructor
    · intro h
      split_ifs at h with h₁ h₂ h₃ h₄ h₅ h₆
      rw [Rd.require] at h
      split_ifs at h with h₇
      · exact ⟨h₁, h₂, h₃, h₄, h₅, h₆, h₇.1, h₇.2⟩
      · cases h
    · intro h
      rw [if_pos h.magic, if_pos h.cls, if_pos h.data, if_pos (by exact h.rel),
        if_pos (by exact h.riscv), if_pos h.shentsize]
      exact Rd.val_require_pos ⟨h.shoff, h.table⟩ _
  · intro e h
    split_ifs at h
    · rw [Rd.require] at h
      split_ifs at h
      exact (Except.error.inj h).symm
    all_goals exact (Except.error.inj h).symm

theorem within_validateElfHeader (h : elf64.ehdrSize ≤ blob.length) :
    Rd.Within blob.length (validateElfHeader blob) := by
  have h64 : 64 ≤ blob.length := h
  have hident : eiClass = 4 ∧ eiData = 5 ∧ eType = 16 ∧ eMachine = 18 := by decide
  simp (disch := omega) only [validateElfHeader, Rd.within_slice_bind, Rd.within_byte_bind,
    Rd.within_word_bind, within_readShentsize_bind elf64_fits h, within_readShoff_bind elf64_fits h,
    within_readShnum_bind elf64_fits h, Rd.within_require_bind, Rd.within_require, implies_true]

theorem HeaderOk.hdr_le (h : HeaderOk blob) {i : ℕ} (hi : i < elf64.shnum blob) :
    elf64.hdr blob i + elf64.shdrSize ≤ blob.length := by
  have hoff := h.shoff
  have htable := h.table
  exact Layout.hdr_le h.shentsize (by omega) hi

def Findable (blob : Bytes) (i : ℕ) : Prop :=
  0 < i ∧ i < elf64.shnum blob ∧ (elf64.type blob i = Elf.shtNobits ∨ elf64.Loadable blob i)

instance (i : ℕ) : Decidable (Findable blob i) := inferInstanceAs (Decidable (_ ∧ _ ∧ _))

theorem val_findSectionHdr (h : HeaderOk blob) (i : ℕ) :
    (findSectionHdr blob i).val = .ok (if Findable blob i then some (elf64.hdr blob i) else none) := by
  unfold findSectionHdr
  rw [val_readShnum_bind]
  split_ifs with hrange hfind hfind
  · obtain ⟨h₁, h₂, -⟩ := hfind
    omega
  · rfl
  all_goals
    have hfit : ¬ elf64.hdr blob i + elf64.shdrSize > blob.length := not_lt.mpr (h.hdr_le (by omega))
    rw [val_readShoff_bind, val_readShentsize_bind]
    change (if elf64.hdr blob i + elf64.shdrSize > blob.length then _ else _ : Rd Errno _).val = _
    rw [if_neg hfit]
    change (Layout.readType blob (elf64.hdr blob i) >>= _ : Rd Errno _).val = _
    rw [val_readType_bind]
  · by_cases hno : elf64.type blob i = Elf.shtNobits
    · rw [if_pos hno]
      rfl
    · obtain hno' | hin := hfind.2.2
      · exact absurd hno' hno
      rw [if_neg hno]
      change (elf64.readOffset blob (elf64.hdr blob i) >>= _ : Rd Errno _).val = _
      rw [val_readOffset_bind, if_neg (not_le.mpr hin.1)]
      change (elf64.readSize blob (elf64.hdr blob i) >>= _ : Rd Errno _).val = _
      rw [val_readSize_bind, if_neg (not_lt.mpr hin.2)]
      rfl
  · have hout : ¬ (elf64.type blob i = Elf.shtNobits ∨ elf64.Loadable blob i) := fun hf =>
      hfind ⟨by omega, by omega, hf⟩
    rw [not_or] at hout
    rw [if_neg hout.1]
    change (elf64.readOffset blob (elf64.hdr blob i) >>= _ : Rd Errno _).val = _
    rw [val_readOffset_bind]
    split_ifs with hoff
    · rfl
    change (elf64.readSize blob (elf64.hdr blob i) >>= _ : Rd Errno _).val = _
    rw [val_readSize_bind]
    split_ifs with hsize
    · rfl
    · exact absurd ⟨not_le.mp hoff, not_lt.mp hsize⟩ hout.2

theorem within_findSectionHdr (hehdr : elf64.ehdrSize ≤ blob.length) (i : ℕ) :
    Rd.Within blob.length (findSectionHdr blob i) := by
  unfold findSectionHdr
  rw [within_readShnum_bind elf64_fits hehdr]
  split_ifs
  · exact Rd.within_pure _
  rw [within_readShoff_bind elf64_fits hehdr, within_readShentsize_bind elf64_fits hehdr]
  change Rd.Within _ (if elf64.hdr blob i + elf64.shdrSize > blob.length then _ else _ : Rd Errno _)
  split_ifs with hfit
  · exact Rd.within_pure _
  rw [not_lt] at hfit
  change Rd.Within _ (Layout.readType blob (elf64.hdr blob i) >>= _ : Rd Errno _)
  rw [within_readType_bind elf64_fits hfit]
  split_ifs
  · exact Rd.within_pure _
  change Rd.Within _ (elf64.readOffset blob (elf64.hdr blob i) >>= _ : Rd Errno _)
  rw [within_readOffset_bind elf64_fits hfit]
  split_ifs
  · exact Rd.within_pure _
  change Rd.Within _ (elf64.readSize blob (elf64.hdr blob i) >>= _ : Rd Errno _)
  rw [within_readSize_bind elf64_fits hfit]
  split_ifs
  · exact Rd.within_pure _
  · exact Rd.within_pure _

end Header

section Strtab

variable {blob : Bytes}

/-- The header is accepted and leads to a string table. -/
structure StrtabOk (blob : Bytes) : Prop extends HeaderOk blob where
  ehdr : elf64.ehdrSize ≤ blob.length
  plain : elf64.shstrndx blob ≠ shnXindex ∧ elf64.shstrndx blob ≠ 0
  lt : elf64.shstrndx blob < elf64.shnum blob
  strtab : elf64.type blob (elf64.shstrndx blob) = Elf.shtStrtab
  loadable : elf64.Loadable blob (elf64.shstrndx blob)

theorem val_locateStrtab_of_ok (h : StrtabOk blob) : (locateStrtab blob).val =
    .ok (elf64.offset blob (elf64.shstrndx blob), elf64.size blob (elf64.shstrndx blob)) := by
  have hfind : Findable blob (elf64.shstrndx blob) :=
    ⟨Nat.pos_of_ne_zero h.plain.2, h.lt, .inr h.loadable⟩
  unfold locateStrtab
  rw [Rd.val_require_bind, if_pos h.ehdr, Rd.val_bind_ok (val_validateElfHeader.1.mpr h.toHeaderOk),
    val_readShstrndx_bind, Rd.val_require_bind, if_pos h.plain,
    Rd.val_bind_ok (val_findSectionHdr h.toHeaderOk _), if_pos hfind]
  dsimp only
  rw [val_readType_bind, Rd.val_require_bind, if_pos h.strtab, val_readOffset_bind, val_readSize_bind]
  rfl

theorem val_locateStrtab_of_not (h : ¬ StrtabOk blob) : (locateStrtab blob).val = .error .einval := by
  unfold locateStrtab
  rw [Rd.val_require_bind]
  split_ifs with hehdr
  · cases hv : (validateElfHeader blob).val with
    | error e =>
      rw [Rd.val_bind_error hv, val_validateElfHeader.2 e hv]
    | ok u =>
      have hok := val_validateElfHeader.1.mp hv
      rw [Rd.val_bind_ok hv, val_readShstrndx_bind, Rd.val_require_bind]
      split_ifs with hplain
      · rw [Rd.val_bind_ok (val_findSectionHdr hok _)]
        split_ifs with hfind
        · dsimp only
          rw [val_readType_bind, Rd.val_require_bind]
          split_ifs with htype
          · refine absurd ⟨hok, hehdr, hplain, hfind.2.1, htype, ?_⟩ h
            rcases hfind.2.2 with hno | hin
            · exact absurd (htype.symm.trans hno) (by decide)
            · exact hin
          · rfl
        · rfl
      · rfl
  · rfl

theorem within_locateStrtab : Rd.Within blob.length (locateStrtab blob) := by
  unfold locateStrtab
  rw [Rd.within_require_bind]
  intro hehdr
  rw [Rd.within_bind]
  refine ⟨within_validateElfHeader hehdr, fun u hu => ?_⟩
  have hok := val_validateElfHeader.1.mp hu
  rw [within_readShstrndx_bind elf64_fits hehdr, Rd.within_require_bind]
  intro _
  rw [Rd.within_bind_ok (val_findSectionHdr hok _) (within_findSectionHdr hehdr _)]
  split_ifs with hfind
  · have hle := hok.hdr_le hfind.2.1
    dsimp only
    rw [within_readType_bind elf64_fits hle, Rd.within_require_bind]
    intro _
    rw [within_readOffset_bind elf64_fits hle, within_readSize_bind elf64_fits hle]
    exact Rd.within_pure _
  · exact Rd.within_fail _

end Strtab

section Walk

variable {blob : Bytes}

/-- The walk compares the name of section `i`, which starts at `p`, with the prefix. -/
def Compared (blob : Bytes) (i p : ℕ) : Prop :=
  0 < i ∧ i < elf64.shnum blob ∧ elf64.type blob i = Elf.shtProgbits ∧ elf64.Loadable blob i ∧
    elf64.name blob i < elf64.size blob (elf64.shstrndx blob) ∧
    p = elf64.offset blob (elf64.shstrndx blob) + elf64.name blob i

def Taken (blob : Bytes) (i : ℕ) : Prop := ∃ p, Compared blob i p ∧ merlinTextPrefix <+: blob.drop p

def walk (blob : Bytes) : Option TextSection → ℕ → Rd Errno (Option TextSection) :=
  walkStep blob (elf64.offset blob (elf64.shstrndx blob)) (elf64.size blob (elf64.shstrndx blob))

theorem walk_of_not_compared (h : StrtabOk blob) {i : ℕ} (hi : ∀ p, ¬ Compared blob i p)
    (found : Option TextSection) :
    (walk blob found i).val = .ok found ∧ Rd.Within blob.length (walk blob found i) := by
  unfold walk walkStep
  rw [Rd.val_bind_ok (val_findSectionHdr h.toHeaderOk i),
    Rd.within_bind_ok (val_findSectionHdr h.toHeaderOk i) (within_findSectionHdr h.ehdr i)]
  split_ifs with hfind
  · have hle := h.hdr_le hfind.2.1
    dsimp only
    rw [val_readType_bind, within_readType_bind elf64_fits hle]
    split_ifs with htype
    · exact ⟨rfl, Rd.within_pure _⟩
    rw [not_not] at htype
    rw [val_readName_bind, within_readName_bind elf64_fits hle]
    split_ifs with hname
    · exact ⟨rfl, Rd.within_pure _⟩
    refine absurd ⟨hfind.1, hfind.2.1, htype, ?_, not_le.mp hname, rfl⟩ (hi _)
    rcases hfind.2.2 with hno | hin
    · exact absurd (htype.symm.trans hno) (by decide)
    · exact hin
  · exact ⟨rfl, Rd.within_pure _⟩

theorem Compared.le (h : StrtabOk blob) {i p : ℕ} (hc : Compared blob i p) : p ≤ blob.length := by
  obtain ⟨-, -, -, -, hlt, rfl⟩ := hc
  have hin := h.loadable
  unfold Layout.Loadable at hin
  omega

theorem walk_of_compared (h : StrtabOk blob) {i p : ℕ} (hc : Compared blob i p)
    (found : Option TextSection) :
    (∃ found', (walk blob found i).val = .ok found' ∧
      ((merlinTextPrefix <+: blob.drop p ∧ found = none) →
        ∃ nm, found' = some ⟨elf64.offset blob i, elf64.size blob i, nm⟩) ∧
      (¬ (merlinTextPrefix <+: blob.drop p ∧ found = none) → found' = found)) ∧
    (Rd.Within blob.length (walk blob found i) ↔ ¬ Rd.CutShort blob merlinTextPrefix p ∧
      (merlinTextPrefix <+: blob.drop p → found = none → 0 ∈ blob.drop p ∨ p + 64 ≤ blob.length)) := by
  have hp := hc.le h
  obtain ⟨hpos, hlt, htype, hin, hname, rfl⟩ := hc
  have hfind : Findable blob i := ⟨hpos, hlt, .inr hin⟩
  have hle := h.hdr_le hlt
  generalize hq : elf64.offset blob (elf64.shstrndx blob) + elf64.name blob i = q at hp ⊢
  have hcmp : (Rd.strncmp blob merlinTextPrefix q : Rd Errno Bool).val = _ :=
    Rd.val_strncmp zero_notMem_merlinTextPrefix blob q
  obtain ⟨nm, hcopy⟩ := @Rd.exists_val_copyString Errno blob 64 q
  unfold walk walkStep
  rw [Rd.val_bind_ok (val_findSectionHdr h.toHeaderOk i),
    Rd.within_bind_ok (val_findSectionHdr h.toHeaderOk i) (within_findSectionHdr h.ehdr i), if_pos hfind]
  dsimp only
  rw [val_readType_bind, within_readType_bind elf64_fits hle, if_neg (not_not.mpr htype),
    val_readName_bind, within_readName_bind elf64_fits hle, if_neg (not_le.mpr hname), hq,
    Rd.val_bind_ok hcmp, Rd.within_bind, Rd.within_strncmp merlinTextPrefix hp]
  simp only [hcmp, Except.ok.injEq, forall_eq']
  by_cases hpre : merlinTextPrefix <+: blob.drop q
  · cases found with
    | some sec =>
      simp [hpre]
    | none =>
      simp only [hpre, decide_true, Bool.not_true, Bool.false_eq_true, if_false, and_self,
        true_implies, not_true_eq_false, false_implies, and_true]
      rw [val_readOffset_bind, val_readSize_bind, Rd.val_bind_ok hcopy, within_readOffset_bind elf64_fits hle,
        within_readSize_bind elf64_fits hle, Rd.within_bind, Rd.within_copyString 64 hp]
      simp
  · simp [hpre]

theorem Compared.unique {i p q : ℕ} (hp : Compared blob i p) (hq : Compared blob i q) : p = q :=
  hp.2.2.2.2.2.trans hq.2.2.2.2.2.symm

/-- One step of the walk: the first program is taken, everything else is passed over. -/
theorem walk_val (h : StrtabOk blob) (found : Option TextSection) (i : ℕ) :
    ∃ found', (walk blob found i).val = .ok found' ∧
      (Taken blob i ∧ found = none →
        ∃ nm, found' = some ⟨elf64.offset blob i, elf64.size blob i, nm⟩) ∧
      (¬ (Taken blob i ∧ found = none) → found' = found) := by
  by_cases hi : ∃ p, Compared blob i p
  · obtain ⟨p, hp⟩ := hi
    have htaken : Taken blob i ↔ merlinTextPrefix <+: blob.drop p := by
      constructor
      · rintro ⟨q, hq, hpre⟩
        exact hp.unique hq ▸ hpre
      · exact fun hpre => ⟨p, hp, hpre⟩
    rw [htaken]
    exact (walk_of_compared h hp found).1
  · have hnone : ∀ p, ¬ Compared blob i p := fun p hp => hi ⟨p, hp⟩
    refine ⟨found, (walk_of_not_compared h hnone found).1, ?_, fun _ => rfl⟩
    rintro ⟨⟨p, hp, -⟩, -⟩
    exact absurd hp (hnone p)

theorem walk_within (h : StrtabOk blob) (found : Option TextSection) (i : ℕ) :
    Rd.Within blob.length (walk blob found i) ↔ ∀ p, Compared blob i p →
      ¬ Rd.CutShort blob merlinTextPrefix p ∧
        (merlinTextPrefix <+: blob.drop p → found = none → 0 ∈ blob.drop p ∨ p + 64 ≤ blob.length) := by
  by_cases hi : ∃ p, Compared blob i p
  · obtain ⟨p, hp⟩ := hi
    rw [(walk_of_compared h hp found).2]
    constructor
    · exact fun hw q hq => hp.unique hq ▸ hw
    · exact fun hw => hw p hp
  · have hnone : ∀ p, ¬ Compared blob i p := fun p hp => hi ⟨p, hp⟩
    constructor
    · exact fun _ p hp => absurd hp (hnone p)
    · exact fun _ => (walk_of_not_compared h hnone found).2

/-- The name of section `i` ends inside the object: the object does not end inside the prefix, and
the name of the first program has a terminator or 64 bytes. -/
def NameEnds (blob : Bytes) (i : ℕ) : Prop :=
  ∀ p, Compared blob i p → ¬ Rd.CutShort blob merlinTextPrefix p ∧
    (merlinTextPrefix <+: blob.drop p → (∀ j < i, ¬ Taken blob j) →
      0 ∈ blob.drop p ∨ p + 64 ≤ blob.length)

theorem walkLoop_val (h : StrtabOk blob) (k : ℕ) {s : ℕ} (hs : ∀ j < s, ¬ Taken blob j) :
    ∃ found, ((List.range' s k).foldlM (walk blob) none).val = .ok found ∧
      ((found = none ∧ ∀ j < s + k, ¬ Taken blob j) ∨
        ∃ i nm, i < s + k ∧ Taken blob i ∧ (∀ j < i, ¬ Taken blob j) ∧
          found = some ⟨elf64.offset blob i, elf64.size blob i, nm⟩) := by
  induction k generalizing s with
  | zero => exact ⟨none, rfl, .inl ⟨rfl, hs⟩⟩
  | succ k ih =>
    obtain ⟨found', hval, htake, hpass⟩ := walk_val h none s
    rw [List.range'_succ, List.foldlM_cons, Rd.val_bind_ok hval]
    by_cases hs' : Taken blob s
    · obtain ⟨nm, rfl⟩ := htake ⟨hs', rfl⟩
      have hrest : ∀ (m t : ℕ) (sec : TextSection),
          ((List.range' t m).foldlM (walk blob) (some sec)).val = .ok (some sec) := by
        intro m
        induction m with
        | zero => exact fun t sec => rfl
        | succ m ihm =>
          intro t sec
          obtain ⟨found, hv, -, hkeep⟩ := walk_val h (some sec) t
          rw [List.range'_succ, List.foldlM_cons, Rd.val_bind_ok hv, hkeep (by simp)]
          exact ihm _ _
      exact ⟨_, hrest k _ _, .inr ⟨s, nm, by omega, hs', hs, rfl⟩⟩
    · rw [hpass fun hc => hs' hc.1]
      have hnext : ∀ j < s + 1, ¬ Taken blob j := Nat.forall_lt_succ_right.mpr ⟨hs, hs'⟩
      have hsum : s + (k + 1) = s + 1 + k := by omega
      rw [hsum]
      exact ih hnext

theorem walkLoop_within (h : StrtabOk blob) (k : ℕ) {s : ℕ} {found : Option TextSection}
    (hs : found = none ↔ ∀ j < s, ¬ Taken blob j) :
    Rd.Within blob.length ((List.range' s k).foldlM (walk blob) found) ↔
      ∀ i, s ≤ i → i < s + k → NameEnds blob i := by
  induction k generalizing s found with
  | zero =>
    constructor
    · intro _ i h₁ h₂
      omega
    · exact fun _ => Rd.within_pure found
  | succ k ih =>
    obtain ⟨found', hval, htake, hpass⟩ := walk_val h found s
    have hnext : found' = none ↔ ∀ j < s + 1, ¬ Taken blob j := by
      have hsplit : (∀ j < s + 1, ¬ Taken blob j) ↔ found = none ∧ ¬ Taken blob s := by
        rw [hs, Nat.forall_lt_succ_right]
      rw [hsplit]
      by_cases hc : Taken blob s ∧ found = none
      · obtain ⟨nm, rfl⟩ := htake hc
        simp [hc.1]
      · rw [hpass hc]
        constructor
        · exact fun hf => ⟨hf, fun ht => hc ⟨ht, hf⟩⟩
        · exact fun hf => hf.1
    have hhere : Rd.Within blob.length (walk blob found s) ↔ NameEnds blob s := by
      rw [walk_within h, hs]
      rfl
    rw [List.range'_succ, List.foldlM_cons, Rd.within_bind, hval, hhere, Lib.forall_window_succ]
    simp only [Except.ok.injEq, forall_eq']
    rw [ih hnext]

theorem not_taken_zero : ∀ j < 1, ¬ Taken blob j := by
  rintro j hj ⟨p, hc, -⟩
  have := hc.1
  omega

end Walk

section Reads

variable {blob : Bytes}

/-- Where the kernel's reads stay inside the object. -/
def NamesEnd (blob : Bytes) : Prop := StrtabOk blob → ∀ i, NameEnds blob i

theorem locateText_within : Rd.Within blob.length (locateText blob) ↔ NamesEnd blob := by
  unfold locateText NamesEnd
  by_cases h : StrtabOk blob
  · rw [Rd.within_bind_ok (val_locateStrtab_of_ok h) within_locateStrtab,
      within_readShnum_bind elf64_fits h.ehdr, Rd.within_bind]
    have hloop := @walkLoop_within blob h (elf64.shnum blob - 1) 1 none (by simpa using not_taken_zero)
    have hfinish : ∀ found : Option TextSection, Rd.Within blob.length (match found with
        | none => (Rd.fail .einval : Rd Errno TextSection)
        | some sec => do
          Rd.require (sec.len ≤ maxInsns * 4) .e2big
          pure sec) := by
      intro found
      cases found with
      | none => exact Rd.within_fail _
      | some sec => exact Rd.within_require_bind.mpr fun _ => Rd.within_pure _
    constructor
    · rintro ⟨hw, -⟩ - i p hc
      exact hloop.mp hw i hc.1 (by have := hc.2.1; omega) p hc
    · intro hw
      exact ⟨hloop.mpr fun i _ _ => hw h i, fun found _ => hfinish found⟩
  · constructor
    · exact fun _ hok => absurd hok h
    · intro _
      rw [Rd.within_bind, val_locateStrtab_of_not h]
      exact ⟨within_locateStrtab, nofun⟩

/-- The section that the walk takes lies inside the object. -/
theorem locateText_val {sec : TextSection} (hv : (locateText blob).val = .ok sec) :
    StrtabOk blob ∧ ∃ i < elf64.shnum blob, Taken blob i ∧ (∀ j < i, ¬ Taken blob j) ∧
      sec.off = elf64.offset blob i ∧ sec.len = elf64.size blob i ∧ sec.len ≤ maxInsns * 4 := by
  unfold locateText at hv
  by_cases h : StrtabOk blob
  · rw [Rd.val_bind_ok (val_locateStrtab_of_ok h), val_readShnum_bind] at hv
    obtain ⟨found, hval, hcase⟩ := walkLoop_val h (elf64.shnum blob - 1) not_taken_zero
    have hval' : ((List.range' 1 (elf64.shnum blob - 1)).foldlM
        (walkStep blob (elf64.offset blob (elf64.shstrndx blob)) (elf64.size blob (elf64.shstrndx blob)))
        none).val = .ok found := hval
    rw [Rd.val_bind_ok hval'] at hv
    rcases hcase with ⟨rfl, -⟩ | ⟨i, nm, -, ht, hfirst, rfl⟩
    · cases hv
    · dsimp only at hv
      rw [Rd.val_require_bind] at hv
      split_ifs at hv with hcap
      obtain rfl := Except.ok.inj hv
      obtain ⟨p, hc, -⟩ := id ht
      exact ⟨h, i, hc.2.1, ht, hfirst, rfl, rfl, hcap⟩
  · rw [Rd.val_bind_error (val_locateStrtab_of_not h)] at hv
    cases hv

/-- Every byte that the kernel loader reads lies inside the object exactly when the names end. -/
theorem parseAndLoad_within (env : LoadEnv) (attr : LoadAttr) :
    Rd.Within blob.length (parseAndLoad env blob attr) ↔ NamesEnd blob := by
  unfold parseAndLoad
  rw [Rd.within_bind, locateText_within]
  refine and_iff_left fun sec hsec => ?_
  obtain ⟨-, i, -, ⟨p, hc, -⟩, -, hoff, hlen, -⟩ := locateText_val hsec
  have hin := hc.2.2.2.1
  unfold Layout.Loadable at hin
  rw [Rd.within_require_bind]
  intro _
  rw [Rd.within_slice_bind (by omega)]
  exact Rd.within_pure _

end Reads

end MerlinV.Kernel
