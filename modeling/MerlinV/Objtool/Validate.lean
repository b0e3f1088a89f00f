import MerlinV.Lib.ByteReads
import MerlinV.Sign.Object

/-! # Object validation

`run_validate` of `tools/merlin-objtool/merlin-objtool.c` with its four validators.  A validator reads
the buffer that libelf returned for its section through a structure laid over it, and each byte that it
reads is recorded.  The notes that are printed to `stdout` are left out.
-/
namespace MerlinV.Objtool
open Lib

/-- `Elf_Data`: a section of type `SHT_NOBITS` has a size and no buffer. -/
structure ElfData where
  buf : Option Bytes
  size : ℕ

def elfGetdata (s : ElfSection) : Option ElfData :=
  if s.shType = shtNobits then some ⟨none, s.shSize⟩ else s.data.map fun bytes => ⟨some bytes, bytes.length⟩

def ElfData.bytes (d : ElfData) : Bytes := d.buf.getD []

structure ByteRead where
  data : ElfData
  off : ℕ

def ByteRead.There (r : ByteRead) : Prop := r.data.buf.isSome = true ∧ r.off < r.data.size

/-- What the validation of an object gives, with the bytes it has read.  The error is the line that
was printed, if one was. -/
structure Validation (α : Type) where
  val : Except (Option String) α
  reads : List ByteRead

namespace Validation

variable {α β : Type}

instance : Monad Validation where
  pure a := ⟨.ok a, []⟩
  bind x f := match x.val with
    | .error e => ⟨.error e, x.reads⟩
    | .ok a => ⟨(f a).val, x.reads ++ (f a).reads⟩

def fail (e : Option String) : Validation α := ⟨.error e, []⟩

def on (d : ElfData) (x : Rd (Option String) α) : Validation α := ⟨x.val, x.reads.map fun off => ⟨d, off⟩⟩

def InBuffers (x : Validation α) : Prop := ∀ r ∈ x.reads, r.There

@[simp] theorem val_pure (a : α) : (pure a : Validation α).val = .ok a := rfl

@[simp] theorem val_fail (e : Option String) : (fail e : Validation α).val = .error e := rfl

@[simp] theorem val_on (d : ElfData) (x : Rd (Option String) α) : (on d x).val = x.val := rfl

theorem val_bind_eq_ok {x : Validation α} {f : α → Validation β} {b : β} :
    (x >>= f).val = .ok b ↔ ∃ a, x.val = .ok a ∧ (f a).val = .ok b := by
  change (match x.val with
    | .error e => (⟨.error e, x.reads⟩ : Validation β)
    | .ok a => ⟨(f a).val, x.reads ++ (f a).reads⟩).val = .ok b ↔ _
  cases x.val with
  | error e => simp
  | ok a => simp

@[simp] theorem inBuffers_pure (a : α) : InBuffers (pure a : Validation α) := nofun

@[simp] theorem inBuffers_fail (e : Option String) : InBuffers (fail e : Validation α) := nofun

theorem inBuffers_bind {x : Validation α} {f : α → Validation β} :
    InBuffers (x >>= f) ↔ InBuffers x ∧ ∀ a, x.val = .ok a → InBuffers (f a) := by
  have hreads : (x >>= f).reads = x.reads ++ match x.val with
      | .error _ => []
      | .ok a => (f a).reads := by
    change (match x.val with
      | .error e => (⟨.error e, x.reads⟩ : Validation β)
      | .ok a => ⟨(f a).val, x.reads ++ (f a).reads⟩).reads = _
    cases x.val with
    | error e => exact (List.append_nil _).symm
    | ok a => rfl
  unfold InBuffers
  rw [hreads]
  cases x.val with
  | error e => simp
  | ok a => simp [or_imp, forall_and]

theorem inBuffers_on {d : ElfData} {bytes : Bytes} (h : d.buf = some bytes) (x : Rd (Option String) α) :
    InBuffers (on d x) ↔ Rd.Within d.size x := by
  simp [InBuffers, on, ByteRead.There, Rd.Within, h]

theorem inBuffers_on_none {d : ElfData} (h : d.buf = none) (x : Rd (Option String) α) :
    InBuffers (on d x) ↔ Rd.Within 0 x := by
  simp [InBuffers, on, ByteRead.There, Rd.Within, h]

end Validation

structure ValidateCtx where
  hasMeta : Bool := false
  hasLicense : Bool := false
  hasMaps : Bool := false
  hasRelocs : Bool := false
  hasBtf : Bool := false
  hasBtfExt : Bool := false
  hasCoreVPending : Bool := false
  hasSig : Bool := false
  profile : ℕ := 0
  progType : ℕ := 0
  versionMajor : ℕ := 0
  versionMinor : ℕ := 0
  metaSizeAdvertised : ℕ := 0
  metaSectionSize : ℕ := 0
  mapCount : ℕ := 0
  relocCount : ℕ := 0

/-- `MERLIN_META_MAGIC`, `MERLIN_META_VERSION_MAJOR`, `MERLIN_MAP_TYPE_RINGBUF`. -/
def metaMagic : ℕ := 0x564C524D
def metaVersionMajor : ℕ := 1
def mapTypeRingbuf : ℕ := 7

/-- `sizeof(struct merlin_map_desc_v1)` and `sizeof(struct merlin_reloc_v1)`. -/
def mapDescSize : ℕ := 80
def relocSize : ℕ := 24

def hex8 (n : ℕ) : String :=
  let digits := Nat.toDigits 16 n
  String.ofList (List.replicate (8 - digits.length) '0' ++ digits)

section Validators

def readMeta (d : ElfData) (ctx : ValidateCtx) : Rd (Option String) ValidateCtx := do
  let magic ← Rd.word 4 d.bytes 0
  Rd.require (magic = metaMagic)
    (some (".merlin.meta: bad magic 0x" ++ hex8 magic ++ " (expect 0x" ++ hex8 metaMagic ++ ")"))
  let versionMajor ← Rd.word 2 d.bytes 4
  Rd.require (versionMajor = metaVersionMajor)
    (some (".merlin.meta: unsupported version_major " ++ toString versionMajor))
  let metaSize ← Rd.word 4 d.bytes 8
  Rd.require (metaSize ≤ d.size)
    (some (".merlin.meta: meta_size " ++ toString metaSize ++ " exceeds section size " ++ toString d.size))
  Rd.require (12 ≤ metaSize)
    (some (".merlin.meta: meta_size " ++ toString metaSize ++ " below minimum (12)"))
  let profile ← Rd.word 4 d.bytes 16
  let progType ← Rd.word 4 d.bytes 20
  let versionMinor ← Rd.word 2 d.bytes 6
  return { ctx with
    profile := profile
    progType := progType
    versionMajor := versionMajor
    versionMinor := versionMinor
    metaSizeAdvertised := metaSize }

/-- What `validate_meta` and `validate_license` do around their fields: the section has to be there, with
`min` bytes of data. -/
def requiredSection (o : ElfObject) (name : String) (verbose : Bool) (tooSmall : String) (min : ℕ)
    (read : ElfSection → ElfData → Rd (Option String) ValidateCtx) : Validation ValidateCtx :=
  match o.findNamed (cstr name) with
  | none => .fail (if verbose then some ("missing required section " ++ name) else none)
  | some s =>
    match elfGetdata s with
    | none => .fail (some tooSmall)
    | some d => if d.size < min then .fail (some tooSmall) else .on d (read s d)

def validateMeta (o : ElfObject) (verbose : Bool) (ctx : ValidateCtx) : Validation ValidateCtx :=
  requiredSection o ".merlin.meta" verbose ".merlin.meta too small" 12 fun s d =>
    readMeta d { ctx with hasMeta := true, metaSectionSize := s.shSize % 2 ^ 32 }

/-- `memchr(s, 0, n)` from offset `off` on: whether a terminator was found. -/
def memchrZero (bytes : Bytes) : ℕ → ℕ → Rd (Option String) Bool
  | 0, _ => pure false
  | n + 1, off => do
    let b ← Rd.byte bytes off
    if b = 0 then pure true else memchrZero bytes n (off + 1)

def readLicense (d : ElfData) (ctx : ValidateCtx) : Rd (Option String) ValidateCtx := do
  let terminated ← memchrZero d.bytes d.size 0
  Rd.require (terminated = true) (some ".merlin.license not NUL-terminated")
  return { ctx with hasLicense := true }

def validateLicense (o : ElfObject) (verbose : Bool) (ctx : ValidateCtx) : Validation ValidateCtx :=
  requiredSection o ".merlin.license" verbose ".merlin.license empty" 1 fun _ d => readLicense d ctx

def checkMaps (bytes : Bytes) : ℕ → ℕ → Rd (Option String) Unit
  | 0, _ => pure ()
  | n + 1, i => do
    let ty ← Rd.word 4 bytes (mapDescSize * i + 32)
    Rd.require (ty ≠ 0) (some (".merlin.maps[" ++ toString i ++ "]: type MERLIN_MAP_TYPE_UNSPEC"))
    let maxEntries ← Rd.word 4 bytes (mapDescSize * i + 44)
    Rd.require (maxEntries ≠ 0 ∨ ty = mapTypeRingbuf)
      (some (".merlin.maps[" ++ toString i ++ "]: max_entries=0 for non-ringbuf"))
    checkMaps bytes n (i + 1)

def validateMaps (o : ElfObject) (ctx : ValidateCtx) : Validation ValidateCtx :=
  match o.findNamed (cstr ".merlin.maps") with
  | none => pure { ctx with mapCount := 0 }
  | some s =>
    if s.shSize % mapDescSize ≠ 0 then
      .fail (some (".merlin.maps size " ++ toString s.shSize ++ " is not a multiple of " ++ toString mapDescSize))
    else
      match elfGetdata s with
      | none => .fail none
      | some d => do
        Validation.on d (checkMaps d.bytes (s.shSize / mapDescSize) 0)
        pure { ctx with hasMaps := true, mapCount := s.shSize / mapDescSize }

/-- The loop of `validate_relocs` over the `n` records from `i` on; `prev` is the offset of the record
before them. -/
def checkRelocs (bytes : Bytes) : ℕ → ℕ → Option ℕ → Rd (Option String) Unit
  | 0, _, _ => pure ()
  | n + 1, i, prev => do
    let ty ← Rd.word 4 bytes (relocSize * i + 4)
    Rd.require (ty ≠ 0) (some (".merlin.relocs[" ++ toString i ++ "]: R_MERLIN_NONE encoded"))
    Rd.require (¬(8 < ty ∧ ty < 64))
      (some (".merlin.relocs[" ++ toString i ++ "]: reserved r_type " ++ toString ty))
    let off ← Rd.word 4 bytes (relocSize * i)
    Rd.require (∀ p ∈ prev, p < off)
      (some (".merlin.relocs[" ++ toString i ++ "]: not sorted (offset " ++ toString off ++ " <= prev " ++
        toString (prev.getD 0) ++ ")"))
    checkRelocs bytes n (i + 1) (some off)

/-- `validate_relocs`.  The count is recorded before the data is looked at. -/
def validateRelocs (o : ElfObject) (ctx : ValidateCtx) : Validation ValidateCtx :=
  match o.findNamed (cstr ".merlin.relocs") with
  | none => pure { ctx with relocCount := 0 }
  | some s =>
    let ctx := { ctx with hasRelocs := true, relocCount := s.shSize / relocSize }
    if s.shSize % relocSize ≠ 0 then
      .fail (some (".merlin.relocs size " ++ toString s.shSize ++ " is not a multiple of " ++ toString relocSize))
    else
      match elfGetdata s with
      | none => pure ctx
      | some d =>
        if d.size = 0 then pure ctx
        else do
          Validation.on d (checkRelocs d.bytes (s.shSize / relocSize) 0 none)
          pure ctx

end Validators

/-! ## What the validators accept -/

structure MetaHeader (d : ElfData) : Prop where
  magic : leValue 4 (d.bytes.drop 0) = metaMagic
  versionMajor : leValue 2 (d.bytes.drop 4) = metaVersionMajor
  le_size : leValue 4 (d.bytes.drop 8) ≤ d.size
  minimum : 12 ≤ leValue 4 (d.bytes.drop 8)

def MapDescOk (bytes : Bytes) (i : ℕ) : Prop :=
  leValue 4 (bytes.drop (mapDescSize * i + 32)) ≠ 0 ∧
    (leValue 4 (bytes.drop (mapDescSize * i + 44)) ≠ 0 ∨
      leValue 4 (bytes.drop (mapDescSize * i + 32)) = mapTypeRingbuf)

def relocType (bytes : Bytes) (i : ℕ) : ℕ := leValue 4 (bytes.drop (relocSize * i + 4))
def relocOffset (bytes : Bytes) (i : ℕ) : ℕ := leValue 4 (bytes.drop (relocSize * i))

def RelocTypeOk (ty : ℕ) : Prop := ty ≠ 0 ∧ ¬(8 < ty ∧ ty < 64)

section Values

variable {bytes : Bytes}

theorem readMeta_eq_ok {d : ElfData} {ctx ctx' : ValidateCtx} :
    (readMeta d ctx).val = .ok ctx' ↔ MetaHeader d ∧ { ctx with
      profile := leValue 4 (d.bytes.drop 16)
      progType := leValue 4 (d.bytes.drop 20)
      versionMajor := leValue 2 (d.bytes.drop 4)
      versionMinor := leValue 2 (d.bytes.drop 6)
      metaSizeAdvertised := leValue 4 (d.bytes.drop 8) } = ctx' := by
  simp only [readMeta, Rd.val_word_bind, Rd.val_require_bind, Rd.val_pure]
  constructor
  · intro h
    split_ifs at h with h₁ h₂ h₃ h₄
    exact ⟨⟨h₁, h₂, h₃, h₄⟩, Except.ok.inj h⟩
  · rintro ⟨⟨h₁, h₂, h₃, h₄⟩, rfl⟩
    rw [if_pos h₁, if_pos h₂, if_pos h₃, if_pos h₄]

theorem memchrZero_val (n off : ℕ) :
    (memchrZero bytes n off).val = .ok (decide (∃ i < n, bytes.getD (off + i) 0 = 0)) := by
  induction n generalizing off with
  | zero => simp [memchrZero]
  | succ n ih =>
    rw [memchrZero, Rd.val_byte_bind]
    by_cases hb : bytes.getD off 0 = 0
    · rw [if_pos hb, Rd.val_pure, decide_eq_true ⟨0, Nat.succ_pos n, hb⟩]
    · have hstep : (∃ i < n + 1, bytes.getD (off + i) 0 = 0) ↔ ∃ i < n, bytes.getD (off + 1 + i) 0 = 0 := by
        constructor
        · rintro ⟨i, hi, hz⟩
          cases i with
          | zero => exact absurd hz hb
          | succ i => exact ⟨i, by omega, by rwa [Nat.add_assoc, Nat.add_comm 1 i]⟩
        · rintro ⟨i, hi, hz⟩
          exact ⟨i + 1, by omega, by rwa [Nat.add_comm i 1, ← Nat.add_assoc]⟩
      rw [if_neg hb, ih]
      simp only [hstep]

theorem readLicense_eq_ok {d : ElfData} {ctx ctx' : ValidateCtx} :
    (readLicense d ctx).val = .ok ctx' ↔ (∃ i < d.size, d.bytes.getD i 0 = 0) ∧
      { ctx with hasLicense := true } = ctx' := by
  rw [readLicense, Rd.val_bind_ok (memchrZero_val d.size 0), Rd.val_require_bind]
  simp only [decide_eq_true_eq, Nat.zero_add, Rd.val_pure]
  split
  · rename_i h
    exact ⟨fun hok => ⟨h, Except.ok.inj hok⟩, fun hok => congrArg Except.ok hok.2⟩
  · rename_i h
    constructor
    · nofun
    · exact fun hok => absurd hok.1 h

theorem checkMaps_eq_ok (n i : ℕ) :
    (checkMaps bytes n i).val = .ok () ↔ ∀ j, i ≤ j → j < i + n → MapDescOk bytes j := by
  induction n generalizing i with
  | zero =>
    simp only [checkMaps, Rd.val_pure, true_iff]
    intro j h₁ h₂
    omega
  | succ n ih =>
    rw [forall_window_succ, ← ih]
    simp only [checkMaps, Rd.val_word_bind, Rd.val_require_bind]
    constructor
    · intro h
      split_ifs at h with h₁ h₂
      exact ⟨⟨h₁, h₂⟩, h⟩
    · rintro ⟨⟨h₁, h₂⟩, h⟩
      rw [if_pos h₁, if_pos h₂]
      exact h

theorem checkRelocs_succ_eq_ok (n i : ℕ) (prev : Option ℕ) :
    (checkRelocs bytes (n + 1) i prev).val = .ok () ↔ RelocTypeOk (relocType bytes i) ∧
      (∀ p ∈ prev, p < relocOffset bytes i) ∧
        (checkRelocs bytes n (i + 1) (some (relocOffset bytes i))).val = .ok () := by
  simp only [checkRelocs, Rd.val_word_bind, Rd.val_require_bind]
  constructor
  · intro h
    split_ifs at h with h₁ h₂ h₃
    exact ⟨⟨h₁, h₂⟩, h₃, h⟩
  · rintro ⟨⟨h₁, h₂⟩, h₃, h⟩
    exact (if_pos h₁).trans ((if_pos h₂).trans ((if_pos h₃).trans h))

/-- The loop accepts records of accepted types whose offsets ascend from one to the next. -/
theorem checkRelocs_eq_ok (n i : ℕ) (prev : Option ℕ) :
    (checkRelocs bytes n i prev).val = .ok () ↔
      (∀ j, i ≤ j → j < i + n → RelocTypeOk (relocType bytes j)) ∧
        (∀ p ∈ prev, 0 < n → p < relocOffset bytes i) ∧
          ∀ j, i ≤ j → j + 1 < i + n → relocOffset bytes j < relocOffset bytes (j + 1) := by
  induction n generalizing i prev with
  | zero =>
    simp only [checkRelocs, Rd.val_pure, true_iff]
    refine ⟨fun j h₁ h₂ => ?_, fun p _ h => absurd h (lt_irrefl 0), fun j h₁ h₂ => ?_⟩
    · omega
    · omega
  | succ n ih =>
    rw [checkRelocs_succ_eq_ok, ih]
    constructor
    · rintro ⟨htype, hprev, htypes, hnext, hchain⟩
      refine ⟨fun j hj hlt => ?_, fun p hp _ => hprev p hp, fun j hj hlt => ?_⟩
      · rcases Nat.eq_or_lt_of_le hj with rfl | hj
        · exact htype
        · exact htypes j hj (by omega)
      · rcases Nat.eq_or_lt_of_le hj with rfl | hj
        · exact hnext _ rfl (by omega)
        · exact hchain j hj (by omega)
    · rintro ⟨htypes, hprev, hchain⟩
      refine ⟨htypes i le_rfl (by omega), fun p hp => hprev p hp (Nat.succ_pos n),
        fun j hj hlt => htypes j (by omega) (by omega), ?_, fun j hj hlt => hchain j (by omega) (by omega)⟩
      rintro p hp hpos
      obtain rfl := Option.some.inj hp
      exact hchain i le_rfl (by omega)

end Values

/-- What validation uses of `struct elf_obj`; `eiData` is `e_ident[EI_DATA]`. -/
structure ElfObj where
  eiData : BitVec 8
  object : ElfObject

def elfdata2lsb : BitVec 8 := 1
def emNone : BitVec 16 := 0
def emRiscv : BitVec 16 := 243

def runValidate (o : ElfObj) (verbose strictMachine : Bool) : Validation ValidateCtx := do
  if o.eiData ≠ elfdata2lsb then
    Validation.fail (some "ELF is not little-endian (MERLIN-V wire format is LE)")
  else if strictMachine ∧ o.object.eMachine ≠ emRiscv ∧ o.object.eMachine ≠ emNone then
    Validation.fail (some ("e_machine = " ++ toString o.object.eMachine.toNat ++ "; expected EM_RISCV (243)"))
  else do
    let ctx ← validateMeta o.object verbose {}
    let ctx ← validateLicense o.object verbose ctx
    let ctx ← validateMaps o.object ctx
    let ctx ← validateRelocs o.object ctx
    return { ctx with
      hasBtf := (o.object.findNamed (cstr ".merlin.btf")).isSome
      hasBtfExt := (o.object.findNamed (cstr ".merlin.btf_ext")).isSome
      hasCoreVPending := (o.object.findNamed (cstr ".merlin.core_v_pending")).isSome
      hasSig := (o.object.findNamed sigName).isSome }

end MerlinV.Objtool
