import MerlinV.Objtool.Validate

/-! # What validation reads

Each validator takes a size from the section header or from `d_size` and the bytes from `d_buf`.  The
two belong together for a section that libelf has read; a section of type `SHT_NOBITS` has a size and
no buffer, and the structure laid over `.merlin.meta` is longer than the prefix that is asked for.
-/
namespace MerlinV.Objtool
open Lib

/-- The data of a section that is read from the file has the size that its header gives. -/
def Sized (o : ElfObject) : Prop := ∀ s ∈ o.sections, ∀ bytes, s.data = some bytes → bytes.length = s.shSize

/-- The data that libelf returned for the section of a name. -/
def DataOf (o : ElfObject) (name : String) (s : ElfSection) (d : ElfData) : Prop :=
  o.findNamed (cstr name) = some s ∧ elfGetdata s = some d

/-- The facts that were recorded come from bytes that are there. -/
structure FactsRead (o : ElfObject) (ctx : ValidateCtx) : Prop where
  fromMeta : ∃ s d, DataOf o ".merlin.meta" s d ∧ d.buf.isSome = true ∧ 24 ≤ d.size ∧
    ctx.profile = leValue 4 (d.bytes.drop 16) ∧ ctx.progType = leValue 4 (d.bytes.drop 20) ∧
      ctx.versionMajor = leValue 2 (d.bytes.drop 4) ∧ ctx.versionMinor = leValue 2 (d.bytes.drop 6) ∧
        ctx.metaSizeAdvertised = leValue 4 (d.bytes.drop 8)
  maps : ctx.mapCount = 0 ∨ ∃ s d, DataOf o ".merlin.maps" s d ∧ d.buf.isSome = true ∧
    mapDescSize * ctx.mapCount ≤ d.size
  relocs : ctx.relocCount = 0 ∨ ∃ s d, DataOf o ".merlin.relocs" s d ∧ d.buf.isSome = true ∧
    relocSize * ctx.relocCount ≤ d.size

/-- Validation reads only what is there, and what it records was read. -/
structure ReadsBacked (o : ElfObj) (verbose strictMachine : Bool) : Prop where
  reads : (runValidate o verbose strictMachine).InBuffers
  facts : ∀ ctx, (runValidate o verbose strictMachine).val = .ok ctx → FactsRead o.object ctx

section Conditions

variable (o : ElfObject)

/-- `.merlin.meta` has a buffer, and one that holds the fields behind an accepted header. -/
def MetaThere : Prop := ∀ s d, DataOf o ".merlin.meta" s d → 12 ≤ d.size →
  d.buf.isSome = true ∧ (MetaHeader d → 24 ≤ d.size)

/-- `.merlin.meta` is accepted. -/
def MetaOk : Prop := ∃ s d, DataOf o ".merlin.meta" s d ∧ 12 ≤ d.size ∧ MetaHeader d

def LicenseThere : Prop := ∀ s d, DataOf o ".merlin.license" s d → 1 ≤ d.size → d.buf.isSome = true

def LicenseOk : Prop := ∃ s d, DataOf o ".merlin.license" s d ∧ ∃ i < d.size, d.bytes.getD i 0 = 0

def MapsThere : Prop := ∀ s d, DataOf o ".merlin.maps" s d → mapDescSize ∣ s.shSize → s.shSize ≠ 0 →
  d.buf.isSome = true

def MapsOk : Prop := o.findNamed (cstr ".merlin.maps") = none ∨ ∃ s d, DataOf o ".merlin.maps" s d ∧
  mapDescSize ∣ s.shSize ∧ ∀ i < s.shSize / mapDescSize, MapDescOk d.bytes i

/-- `.merlin.relocs` can be read when it has records. -/
def RelocsThere : Prop := ∀ s, o.findNamed (cstr ".merlin.relocs") = some s → relocSize ∣ s.shSize →
  s.shSize ≠ 0 → ∃ d, elfGetdata s = some d ∧ d.buf.isSome = true

def HeaderOk (o : ElfObj) (strictMachine : Bool) : Prop :=
  o.eiData = elfdata2lsb ∧ ¬(strictMachine ∧ o.object.eMachine ≠ emRiscv ∧ o.object.eMachine ≠ emNone)

def SectionsThere (o : ElfObj) (strictMachine : Bool) : Prop :=
  HeaderOk o strictMachine → MetaThere o.object ∧ (MetaOk o.object →
    LicenseThere o.object ∧ (LicenseOk o.object →
      MapsThere o.object ∧ (MapsOk o.object → RelocsThere o.object)))

end Conditions

section Buffers

variable {o : ElfObject} {s : ElfSection} {d : ElfData} {name : String}

theorem DataOf.shSize_eq (hs : Sized o) (h : DataOf o name s d) : d.size = s.shSize := by
  have hd := h.2
  unfold elfGetdata at hd
  split at hd
  · cases hd
    rfl
  · obtain ⟨bytes, hbytes, rfl⟩ := Option.map_eq_some_iff.mp hd
    exact hs s (List.mem_of_find?_eq_some h.1) bytes hbytes

theorem not_within_zero_word {α : Type} {k : ℕ} (hk : 0 < k) (bytes : Bytes) (off : ℕ)
    (f : ℕ → Rd (Option String) α) : ¬Rd.Within 0 (Rd.word k bytes off >>= f) := by
  intro h
  rw [Rd.within_bind, Rd.within_word_iff hk] at h
  omega

end Buffers

section Within

variable {bytes : Bytes} {n : ℕ}

theorem readMeta_within {d : ElfData} (hd : 12 ≤ d.size) (ctx : ValidateCtx) :
    (readMeta d ctx).Within d.size ↔ (MetaHeader d → 24 ≤ d.size) := by
  simp only [readMeta]
  rw [Rd.within_word_bind (by omega), Rd.within_require_bind]
  constructor
  · intro h hheader
    have h := h hheader.magic
    rw [Rd.within_word_bind (by omega), Rd.within_require_bind] at h
    have h := h hheader.versionMajor
    rw [Rd.within_word_bind (by omega), Rd.within_require_bind] at h
    have h := h hheader.le_size
    rw [Rd.within_require_bind] at h
    have h := h hheader.minimum
    rw [Rd.within_bind, Rd.within_word_iff (by omega)] at h
    have h := h.2 _ rfl
    rw [Rd.within_bind, Rd.within_word_iff (by omega)] at h
    exact h.1
  · intro h h₁
    rw [Rd.within_word_bind (by omega), Rd.within_require_bind]
    intro h₂
    rw [Rd.within_word_bind (by omega), Rd.within_require_bind]
    intro h₃
    rw [Rd.within_require_bind]
    intro h₄
    have h24 := h ⟨h₁, h₂, h₃, h₄⟩
    rw [Rd.within_word_bind (by omega), Rd.within_word_bind (by omega), Rd.within_word_bind (by omega)]
    exact Rd.within_pure _

theorem memchrZero_within (k off : ℕ) (h : off + k ≤ n) : (memchrZero bytes k off).Within n := by
  induction k generalizing off with
  | zero => exact Rd.within_pure _
  | succ k ih =>
    rw [memchrZero, Rd.within_byte_bind (by omega)]
    split
    · exact Rd.within_pure _
    · exact ih (off + 1) (by omega)

theorem checkMaps_within (k i : ℕ) (h : mapDescSize * (i + k) ≤ n) : (checkMaps bytes k i).Within n := by
  induction k generalizing i with
  | zero => exact Rd.within_pure _
  | succ k ih =>
    simp only [mapDescSize] at h
    simp only [checkMaps, mapDescSize]
    rw [Rd.within_word_bind (by omega), Rd.within_require_bind]
    intro _
    rw [Rd.within_word_bind (by omega), Rd.within_require_bind]
    intro _
    exact ih (i + 1) (by simp only [mapDescSize]; omega)

theorem checkRelocs_within (k i : ℕ) (prev : Option ℕ) (h : relocSize * (i + k) ≤ n) :
    (checkRelocs bytes k i prev).Within n := by
  induction k generalizing i prev with
  | zero => exact Rd.within_pure _
  | succ k ih =>
    simp only [relocSize] at h
    simp only [checkRelocs, relocSize]
    rw [Rd.within_word_bind (by omega), Rd.within_require_bind]
    intro _
    rw [Rd.within_require_bind]
    intro _
    rw [Rd.within_word_bind (by omega), Rd.within_require_bind]
    intro _
    exact ih (i + 1) _ (by simp only [relocSize]; omega)

end Within

section Stages

variable {o : ElfObject} {s : ElfSection} {d : ElfData} {name : String} {verbose : Bool} {ctx ctx' : ValidateCtx}

theorem DataOf.unique {s' : ElfSection} {d' : ElfData} (h : DataOf o name s d) (h' : DataOf o name s' d') :
    s' = s ∧ d' = d := by
  obtain rfl : s' = s := Option.some.inj (h'.1.symm.trans h.1)
  exact ⟨rfl, Option.some.inj (h'.2.symm.trans h.2)⟩

theorem DataOf.forall_iff (h : DataOf o name s d) {P : ElfSection → ElfData → Prop} :
    (∀ s' d', DataOf o name s' d' → P s' d') ↔ P s d := by
  refine ⟨fun hall => hall s d h, fun hp s' d' h' => ?_⟩
  obtain ⟨rfl, rfl⟩ := h.unique h'
  exact hp

theorem DataOf.exists_iff (h : DataOf o name s d) {P : ElfSection → ElfData → Prop} :
    (∃ s' d', DataOf o name s' d' ∧ P s' d') ↔ P s d := by
  refine ⟨?_, fun hp => ⟨s, d, h, hp⟩⟩
  rintro ⟨s', d', h', hp⟩
  obtain ⟨rfl, rfl⟩ := h.unique h'
  exact hp

section Required

variable {tooSmall : String} {min : ℕ} {read : ElfSection → ElfData → Rd (Option String) ValidateCtx}

theorem requiredSection_of_data (h : DataOf o name s d) : requiredSection o name verbose tooSmall min read =
    if d.size < min then .fail (some tooSmall) else .on d (read s d) := by
  simp only [requiredSection, h.1, h.2]

theorem requiredSection_of_not_data (h : ∀ s d, ¬DataOf o name s d) :
    ∃ e, requiredSection o name verbose tooSmall min read = .fail e := by
  unfold requiredSection
  cases hs : o.findNamed (cstr name) with
  | none => exact ⟨_, rfl⟩
  | some s =>
    cases hd : elfGetdata s with
    | none => exact ⟨_, by simp only [hd]; rfl⟩
    | some d => exact absurd ⟨hs, hd⟩ (h s d)

theorem requiredSection_eq_ok : (requiredSection o name verbose tooSmall min read).val = .ok ctx' ↔
    ∃ s d, DataOf o name s d ∧ min ≤ d.size ∧ (read s d).val = .ok ctx' := by
  by_cases hdata : ∃ s d, DataOf o name s d
  · obtain ⟨s, d, h⟩ := hdata
    rw [requiredSection_of_data h, h.exists_iff]
    split
    · rename_i hsmall
      exact ⟨nofun, fun hok => absurd hok.1 (not_le.mpr hsmall)⟩
    · rename_i hsmall
      exact (and_iff_right (not_lt.mp hsmall)).symm
  · have hno : ∀ s d, ¬DataOf o name s d := fun s d h => hdata ⟨s, d, h⟩
    obtain ⟨e, he⟩ := @requiredSection_of_not_data o name verbose tooSmall min read hno
    rw [he]
    constructor
    · nofun
    · rintro ⟨s, d, h, -⟩
      exact absurd h (hno s d)

theorem requiredSection_inBuffers : (requiredSection o name verbose tooSmall min read).InBuffers ↔
    ∀ s d, DataOf o name s d → min ≤ d.size → (Validation.on d (read s d)).InBuffers := by
  by_cases hdata : ∃ s d, DataOf o name s d
  · obtain ⟨s, d, h⟩ := hdata
    rw [requiredSection_of_data h, h.forall_iff]
    split
    · rename_i hsmall
      exact ⟨fun _ hmin => absurd hmin (not_le.mpr hsmall), fun _ => Validation.inBuffers_fail _⟩
    · rename_i hsmall
      exact ⟨fun hin _ => hin, fun hin => hin (not_lt.mp hsmall)⟩
  · have hno : ∀ s d, ¬DataOf o name s d := fun s d h => hdata ⟨s, d, h⟩
    obtain ⟨e, he⟩ := @requiredSection_of_not_data o name verbose tooSmall min read hno
    rw [he]
    exact ⟨fun _ s d h => absurd h (hno s d), fun _ => Validation.inBuffers_fail _⟩

end Required

theorem validateMeta_inBuffers : (validateMeta o verbose ctx).InBuffers ↔ MetaThere o := by
  rw [validateMeta, requiredSection_inBuffers]
  refine forall_congr' fun s => forall_congr' fun d => forall_congr' fun h => forall_congr' fun hmin => ?_
  cases hbuf : d.buf with
  | none =>
    rw [Validation.inBuffers_on_none hbuf]
    exact ⟨fun hin => absurd hin (not_within_zero_word (by omega) _ _ _), fun hin => absurd hin.1 (by simp)⟩
  | some bytes =>
    rw [Validation.inBuffers_on hbuf, readMeta_within hmin]
    simp

theorem validateLicense_inBuffers : (validateLicense o verbose ctx).InBuffers ↔ LicenseThere o := by
  rw [validateLicense, requiredSection_inBuffers]
  refine forall_congr' fun s => forall_congr' fun d => forall_congr' fun h => forall_congr' fun hmin => ?_
  cases hbuf : d.buf with
  | none =>
    obtain ⟨n, hn⟩ : ∃ n, d.size = n + 1 := ⟨d.size - 1, by omega⟩
    have hout : ¬Rd.Within 0 (readLicense d ctx) := by
      rw [readLicense, hn, memchrZero, Rd.within_bind, Rd.within_bind, Rd.within_byte]
      simp
    rw [Validation.inBuffers_on_none hbuf]
    exact ⟨fun hin => absurd hin hout, fun hin => absurd hin (by simp)⟩
  | some bytes =>
    have hin : (readLicense d ctx).Within d.size := by
      rw [readLicense, Rd.within_bind_ok (memchrZero_val _ _) (memchrZero_within d.size 0 (by omega)),
        Rd.within_require_bind]
      exact fun _ => Rd.within_pure _
    rw [Validation.inBuffers_on hbuf]
    exact ⟨fun _ => rfl, fun _ => hin⟩

/-- A table of records is read inside its data exactly when it has a buffer or no record. -/
theorem table_inBuffers (hsized : Sized o) (h : DataOf o name s d) {size : ℕ} {read : ℕ → Rd (Option String) Unit}
    (hsize : 0 < size) (hdvd : size ∣ s.shSize) (hzero : read 0 = pure ())
    (hnull : ∀ n, ¬Rd.Within 0 (read (n + 1))) (hread : ∀ n m, size * n ≤ m → (read n).Within m) :
    (Validation.on d (read (s.shSize / size))).InBuffers ↔ (s.shSize ≠ 0 → d.buf.isSome = true) := by
  cases hbuf : d.buf with
  | none =>
    rw [Validation.inBuffers_on_none hbuf]
    obtain ⟨n, hn⟩ := hdvd
    rw [hn, Nat.mul_div_cancel_left n hsize]
    cases n with
    | zero =>
      rw [hzero]
      simp
    | succ n =>
      exact ⟨fun hin => absurd hin (hnull n), fun hin => absurd (hin (by positivity)) (by simp)⟩
  | some bytes =>
    rw [Validation.inBuffers_on hbuf]
    refine ⟨fun _ _ => rfl, fun _ => hread _ _ ?_⟩
    rw [Nat.mul_div_cancel' hdvd, h.shSize_eq hsized]

section Table

variable (ctx)

theorem validateMaps_of_data (h : DataOf o ".merlin.maps" s d) (hdvd : mapDescSize ∣ s.shSize) :
    validateMaps o ctx = (Validation.on d (checkMaps d.bytes (s.shSize / mapDescSize) 0) >>= fun _ =>
      pure { ctx with hasMaps := true, mapCount := s.shSize / mapDescSize }) := by
  unfold validateMaps
  simp only [h.1, h.2]
  rw [if_neg (not_not.mpr (Nat.mod_eq_zero_of_dvd hdvd))]

theorem validateMaps_of_not_data (hs : o.findNamed (cstr ".merlin.maps") = some s)
    (h : mapDescSize ∣ s.shSize → elfGetdata s = none) : ∃ e, validateMaps o ctx = .fail e := by
  unfold validateMaps
  simp only [hs]
  split
  · exact ⟨_, rfl⟩
  · rename_i hmod
    exact ⟨none, by rw [h (Nat.dvd_of_mod_eq_zero (not_not.mp hmod))]⟩

theorem validateRelocs_of_not_dvd (hs : o.findNamed (cstr ".merlin.relocs") = some s)
    (h : ¬relocSize ∣ s.shSize) : ∃ e, validateRelocs o ctx = .fail e := by
  unfold validateRelocs
  simp only [hs]
  rw [if_pos fun hmod => h (Nat.dvd_of_mod_eq_zero hmod)]
  exact ⟨_, rfl⟩

/-- Without data, or with no byte of it, the records are counted and not looked at. -/
theorem validateRelocs_of_not_data (hs : o.findNamed (cstr ".merlin.relocs") = some s)
    (hdvd : relocSize ∣ s.shSize) (h : ∀ d, elfGetdata s = some d → d.size = 0) :
    validateRelocs o ctx = pure { ctx with hasRelocs := true, relocCount := s.shSize / relocSize } := by
  unfold validateRelocs
  simp only [hs]
  rw [if_neg (not_not.mpr (Nat.mod_eq_zero_of_dvd hdvd))]
  cases hd : elfGetdata s with
  | none => rfl
  | some d =>
    dsimp only
    rw [if_pos (h d hd)]

theorem validateRelocs_of_data (h : DataOf o ".merlin.relocs" s d) (hdvd : relocSize ∣ s.shSize)
    (hne : d.size ≠ 0) :
    validateRelocs o ctx = (Validation.on d (checkRelocs d.bytes (s.shSize / relocSize) 0 none) >>= fun _ =>
      pure { ctx with hasRelocs := true, relocCount := s.shSize / relocSize }) := by
  unfold validateRelocs
  simp only [h.1, h.2]
  rw [if_neg (not_not.mpr (Nat.mod_eq_zero_of_dvd hdvd)), if_neg hne]

end Table

theorem validateMaps_inBuffers (hsized : Sized o) : (validateMaps o ctx).InBuffers ↔ MapsThere o := by
  unfold MapsThere
  cases hs : o.findNamed (cstr ".merlin.maps") with
  | none =>
    rw [validateMaps, hs]
    exact ⟨fun _ s d h => absurd (hs.symm.trans h.1) nofun, fun _ => Validation.inBuffers_pure _⟩
  | some s =>
    by_cases hdata : ∃ d, DataOf o ".merlin.maps" s d ∧ mapDescSize ∣ s.shSize
    · obtain ⟨d, hdata, hdvd⟩ := hdata
      rw [validateMaps_of_data ctx hdata hdvd, hdata.forall_iff, Validation.inBuffers_bind]
      have htable := @table_inBuffers o s d ".merlin.maps" hsized hdata mapDescSize (fun n => checkMaps d.bytes n 0)
        (by decide) hdvd rfl (fun n => not_within_zero_word (by omega) _ _ _)
        (fun n m hle => checkMaps_within n 0 (by simpa using hle))
      rw [htable]
      exact ⟨fun hin _ => hin.1, fun hin => ⟨hin hdvd, fun _ _ => Validation.inBuffers_pure _⟩⟩
    · obtain ⟨e, he⟩ := validateMaps_of_not_data ctx hs fun hdvd =>
        Option.eq_none_iff_forall_ne_some.mpr fun d hd => hdata ⟨d, ⟨hs, hd⟩, hdvd⟩
      rw [he]
      refine ⟨fun _ s' d h hdvd => ?_, fun _ => Validation.inBuffers_fail _⟩
      obtain rfl : s' = s := Option.some.inj (h.1.symm.trans hs)
      exact absurd ⟨d, h, hdvd⟩ hdata

theorem validateRelocs_inBuffers (hsized : Sized o) : (validateRelocs o ctx).InBuffers ↔
    ∀ s d, DataOf o ".merlin.relocs" s d → relocSize ∣ s.shSize → s.shSize ≠ 0 → d.buf.isSome = true := by
  cases hs : o.findNamed (cstr ".merlin.relocs") with
  | none =>
    rw [validateRelocs, hs]
    exact ⟨fun _ s d h => absurd (hs.symm.trans h.1) nofun, fun _ => Validation.inBuffers_pure _⟩
  | some s =>
    by_cases hdvd : relocSize ∣ s.shSize
    · by_cases hdata : ∃ d, DataOf o ".merlin.relocs" s d ∧ d.size ≠ 0
      · obtain ⟨d, hdata, hne⟩ := hdata
        rw [validateRelocs_of_data ctx hdata hdvd hne, hdata.forall_iff, Validation.inBuffers_bind]
        have htable := @table_inBuffers o s d ".merlin.relocs" hsized hdata relocSize
          (fun n => checkRelocs d.bytes n 0 none) (by decide) hdvd rfl
          (fun n => not_within_zero_word (by omega) _ _ _)
          (fun n m hle => checkRelocs_within n 0 none (by simpa using hle))
        rw [htable]
        exact ⟨fun hin _ => hin.1, fun hin => ⟨hin hdvd, fun _ _ => Validation.inBuffers_pure _⟩⟩
      · rw [validateRelocs_of_not_data ctx hs hdvd fun d hd => by_contra fun hne => hdata ⟨d, ⟨hs, hd⟩, hne⟩]
        refine ⟨fun _ s' d h _ hne => ?_, fun _ => Validation.inBuffers_pure _⟩
        obtain rfl : s' = s := Option.some.inj (h.1.symm.trans hs)
        exact absurd ⟨d, h, (h.shSize_eq hsized).trans_ne hne⟩ hdata
    · obtain ⟨e, he⟩ := validateRelocs_of_not_dvd ctx hs hdvd
      rw [he]
      refine ⟨fun _ s' d h hdvd' => ?_, fun _ => Validation.inBuffers_fail _⟩
      obtain rfl : s' = s := Option.some.inj (h.1.symm.trans hs)
      exact absurd hdvd' hdvd

theorem validateMeta_eq_ok : (validateMeta o verbose ctx).val = .ok ctx' ↔
    ∃ s d, DataOf o ".merlin.meta" s d ∧ 12 ≤ d.size ∧ MetaHeader d ∧ { ctx with
      hasMeta := true
      metaSectionSize := s.shSize % 2 ^ 32
      profile := leValue 4 (d.bytes.drop 16)
      progType := leValue 4 (d.bytes.drop 20)
      versionMajor := leValue 2 (d.bytes.drop 4)
      versionMinor := leValue 2 (d.bytes.drop 6)
      metaSizeAdvertised := leValue 4 (d.bytes.drop 8) } = ctx' := by
  rw [validateMeta, requiredSection_eq_ok]
  refine exists_congr fun s => exists_congr fun d => and_congr_right fun _ => and_congr_right fun _ => ?_
  exact readMeta_eq_ok

theorem validateLicense_eq_ok : (validateLicense o verbose ctx).val = .ok ctx' ↔
    LicenseOk o ∧ { ctx with hasLicense := true } = ctx' := by
  rw [validateLicense, requiredSection_eq_ok]
  constructor
  · rintro ⟨s, d, h, -, hok⟩
    obtain ⟨hterm, hctx⟩ := readLicense_eq_ok.mp hok
    exact ⟨⟨s, d, h, hterm⟩, hctx⟩
  · rintro ⟨⟨s, d, h, hterm⟩, hctx⟩
    obtain ⟨i, hi, -⟩ := id hterm
    exact ⟨s, d, h, by omega, readLicense_eq_ok.mpr ⟨hterm, hctx⟩⟩

/-- What `validate_maps` records: no descriptors without a section, else the quotient. -/
theorem validateMaps_eq_ok : (validateMaps o ctx).val = .ok ctx' ↔
    o.findNamed (cstr ".merlin.maps") = none ∧ { ctx with mapCount := 0 } = ctx' ∨
      ∃ s d, DataOf o ".merlin.maps" s d ∧ mapDescSize ∣ s.shSize ∧
        (∀ i < s.shSize / mapDescSize, MapDescOk d.bytes i) ∧
          { ctx with hasMaps := true, mapCount := s.shSize / mapDescSize } = ctx' := by
  cases hs : o.findNamed (cstr ".merlin.maps") with
  | none =>
    have hno : ∀ s d, ¬DataOf o ".merlin.maps" s d := fun s d h => by simp [DataOf, hs] at h
    rw [validateMaps, hs]
    simp [hno]
  | some s =>
    by_cases hdata : ∃ d, DataOf o ".merlin.maps" s d ∧ mapDescSize ∣ s.shSize
    · obtain ⟨d, hdata, hdvd⟩ := hdata
      have hcheck := @checkMaps_eq_ok d.bytes (s.shSize / mapDescSize) 0
      rw [validateMaps_of_data ctx hdata hdvd, hdata.exists_iff, Validation.val_bind_eq_ok]
      simp only [Validation.val_on, Validation.val_pure, Except.ok.injEq, reduceCtorEq, false_and,
        false_or, hdvd, true_and, exists_and_right]
      refine and_congr_left' (Iff.trans ⟨fun ⟨_, h⟩ => h, fun h => ⟨(), h⟩⟩ (hcheck.trans ?_))
      simp
    · obtain ⟨e, he⟩ := validateMaps_of_not_data ctx hs fun hdvd =>
        Option.eq_none_iff_forall_ne_some.mpr fun d hd => hdata ⟨d, ⟨hs, hd⟩, hdvd⟩
      rw [he]
      constructor
      · nofun
      · rintro (⟨h, -⟩ | ⟨s', d, h, hdvd, -⟩)
        · cases h
        · obtain rfl : s' = s := Option.some.inj (h.1.symm.trans hs)
          exact absurd ⟨d, h, hdvd⟩ hdata

theorem validateRelocs_eq_ok : (validateRelocs o ctx).val = .ok ctx' ↔
    o.findNamed (cstr ".merlin.relocs") = none ∧ { ctx with relocCount := 0 } = ctx' ∨
      ∃ s, o.findNamed (cstr ".merlin.relocs") = some s ∧ relocSize ∣ s.shSize ∧
        (∀ d, elfGetdata s = some d → d.size ≠ 0 →
          (checkRelocs d.bytes (s.shSize / relocSize) 0 none).val = .ok ()) ∧
            { ctx with hasRelocs := true, relocCount := s.shSize / relocSize } = ctx' := by
  cases hs : o.findNamed (cstr ".merlin.relocs") with
  | none =>
    rw [validateRelocs, hs]
    simp
  | some s =>
    simp only [reduceCtorEq, false_and, false_or, Option.some.injEq, exists_eq_left']
    by_cases hdvd : relocSize ∣ s.shSize
    · by_cases hdata : ∃ d, DataOf o ".merlin.relocs" s d ∧ d.size ≠ 0
      · obtain ⟨d, hdata, hne⟩ := hdata
        rw [validateRelocs_of_data ctx hdata hdvd hne, Validation.val_bind_eq_ok]
        simp only [Validation.val_on, Validation.val_pure, Except.ok.injEq, hdvd, true_and, hdata.2,
          Option.some.injEq, forall_eq', hne, ne_eq, not_false_eq_true, forall_const, exists_and_right]
        exact and_congr_left' ⟨fun ⟨_, h⟩ => h, fun h => ⟨(), h⟩⟩
      · have hempty : ∀ d, elfGetdata s = some d → d.size = 0 :=
          fun d hd => by_contra fun hne => hdata ⟨d, ⟨hs, hd⟩, hne⟩
        rw [validateRelocs_of_not_data ctx hs hdvd hempty, Validation.val_pure, Except.ok.injEq]
        refine ⟨fun h => ⟨hdvd, fun d hd hne => absurd (hempty d hd) hne, h⟩, fun h => h.2.2⟩
    · obtain ⟨e, he⟩ := validateRelocs_of_not_dvd ctx hs hdvd
      rw [he]
      exact ⟨nofun, fun h => absurd h.1 hdvd⟩

theorem metaOk_iff : (∃ ctx', (validateMeta o verbose ctx).val = .ok ctx') ↔ MetaOk o := by
  constructor
  · rintro ⟨ctx', h⟩
    obtain ⟨s, d, hdata, hmin, hheader, -⟩ := validateMeta_eq_ok.mp h
    exact ⟨s, d, hdata, hmin, hheader⟩
  · rintro ⟨s, d, hdata, hmin, hheader⟩
    exact ⟨_, validateMeta_eq_ok.mpr ⟨s, d, hdata, hmin, hheader, rfl⟩⟩

theorem mapsOk_iff : (∃ ctx', (validateMaps o ctx).val = .ok ctx') ↔ MapsOk o := by
  constructor
  · rintro ⟨ctx', h⟩
    rcases validateMaps_eq_ok.mp h with ⟨hnone, -⟩ | ⟨s, d, hdata, hdvd, hdescs, -⟩
    · exact .inl hnone
    · exact .inr ⟨s, d, hdata, hdvd, hdescs⟩
  · rintro (hnone | ⟨s, d, hdata, hdvd, hdescs⟩)
    · exact ⟨_, validateMaps_eq_ok.mpr (.inl ⟨hnone, rfl⟩)⟩
    · exact ⟨_, validateMaps_eq_ok.mpr (.inr ⟨s, d, hdata, hdvd, hdescs, rfl⟩)⟩

end Stages

section Run

variable {o : ElfObj} {verbose strictMachine : Bool}

def runSections (o : ElfObject) (verbose : Bool) : Validation ValidateCtx := do
  let ctx ← validateMeta o verbose {}
  let ctx ← validateLicense o verbose ctx
  let ctx ← validateMaps o ctx
  let ctx ← validateRelocs o ctx
  return { ctx with
    hasBtf := (o.findNamed (cstr ".merlin.btf")).isSome
    hasBtfExt := (o.findNamed (cstr ".merlin.btf_ext")).isSome
    hasCoreVPending := (o.findNamed (cstr ".merlin.core_v_pending")).isSome
    hasSig := (o.findNamed sigName).isSome }

theorem runValidate_of_headerOk (h : HeaderOk o strictMachine) :
    runValidate o verbose strictMachine = runSections o.object verbose := by
  rw [runValidate, if_neg (not_not.mpr h.1), if_neg h.2]
  rfl

theorem runValidate_of_not_headerOk (h : ¬HeaderOk o strictMachine) :
    ∃ e, runValidate o verbose strictMachine = .fail e := by
  unfold runValidate
  split
  · exact ⟨_, rfl⟩
  · rename_i hdata
    split
    · exact ⟨_, rfl⟩
    · rename_i hmachine
      exact absurd ⟨not_not.mp hdata, hmachine⟩ h

/-- A validator reads inside its data; the next one runs when it accepts. -/
theorem runSections_inBuffers {o : ElfObject} (hsized : Sized o) : (runSections o verbose).InBuffers ↔
    MetaThere o ∧ (MetaOk o → LicenseThere o ∧ (LicenseOk o → MapsThere o ∧ (MapsOk o →
      ∀ s d, DataOf o ".merlin.relocs" s d → relocSize ∣ s.shSize → s.shSize ≠ 0 → d.buf.isSome = true))) := by
  have hswitch : ∀ {P : Prop} {x : Validation ValidateCtx}, (∀ a, x.val = .ok a → P) ↔ (∃ a, x.val = .ok a) → P :=
    ⟨fun h ⟨a, ha⟩ => h a ha, fun h a ha => h ⟨a, ha⟩⟩
  have hlicense : ∀ ctx, (∃ a, (validateLicense o verbose ctx).val = .ok a) ↔ LicenseOk o := by
    intro ctx
    simp only [validateLicense_eq_ok, exists_and_left, exists_eq', and_true]
  unfold runSections
  simp only [Validation.inBuffers_bind, validateMeta_inBuffers, validateLicense_inBuffers,
    validateMaps_inBuffers hsized, validateRelocs_inBuffers hsized, Validation.inBuffers_pure, implies_true, and_true,
    hswitch, metaOk_iff, hlicense, mapsOk_iff]

/-- What a successful validation has gone through; `ctx` is the record in front of the optional
sections. -/
theorem runSections_eq_ok {o : ElfObject} {ctx' : ValidateCtx} : (runSections o verbose).val = .ok ctx' ↔
    ∃ ctx₁ ctx₂ ctx₃ ctx, (validateMeta o verbose {}).val = .ok ctx₁ ∧
      (validateLicense o verbose ctx₁).val = .ok ctx₂ ∧ (validateMaps o ctx₂).val = .ok ctx₃ ∧
        (validateRelocs o ctx₃).val = .ok ctx ∧ { ctx with
          hasBtf := (o.findNamed (cstr ".merlin.btf")).isSome
          hasBtfExt := (o.findNamed (cstr ".merlin.btf_ext")).isSome
          hasCoreVPending := (o.findNamed (cstr ".merlin.core_v_pending")).isSome
          hasSig := (o.findNamed sigName).isSome } = ctx' := by
  unfold runSections
  simp only [Validation.val_bind_eq_ok, Validation.val_pure, Except.ok.injEq]
  constructor
  · rintro ⟨ctx₁, h₁, ctx₂, h₂, ctx₃, h₃, ctx, h, hctx⟩
    exact ⟨ctx₁, ctx₂, ctx₃, ctx, h₁, h₂, h₃, h, hctx⟩
  · rintro ⟨ctx₁, ctx₂, ctx₃, ctx, h₁, h₂, h₃, h, hctx⟩
    exact ⟨ctx₁, h₁, ctx₂, h₂, ctx₃, h₃, ctx, h, hctx⟩

theorem runSections_factsRead {o : ElfObject} (hsized : Sized o) (hmeta : MetaThere o) (hmaps : MapsThere o)
    (hrelocs : RelocsThere o) {ctx' : ValidateCtx} (h : (runSections o verbose).val = .ok ctx') :
    FactsRead o ctx' := by
  obtain ⟨ctx₁, ctx₂, ctx₃, ctx, h₁, h₂, h₃, h₄, rfl⟩ := runSections_eq_ok.mp h
  obtain ⟨s, d, hdata, hmin, hheader, rfl⟩ := validateMeta_eq_ok.mp h₁
  obtain ⟨-, rfl⟩ := validateLicense_eq_ok.mp h₂
  obtain ⟨hthere, hlong⟩ := hmeta s d hdata hmin
  have htable : ∀ {name : String} {s : ElfSection} {d : ElfData} {size : ℕ}, DataOf o name s d → size ∣ s.shSize →
      size * (s.shSize / size) ≤ d.size := by
    intro name s d size hdata hdvd
    rw [Nat.mul_div_cancel' hdvd, hdata.shSize_eq hsized]
  have hfields : ∀ c, (validateMaps o c).val = .ok ctx₃ → ctx.profile = c.profile ∧ ctx.progType = c.progType ∧
      ctx.versionMajor = c.versionMajor ∧ ctx.versionMinor = c.versionMinor ∧
        ctx.metaSizeAdvertised = c.metaSizeAdvertised ∧ ctx.mapCount = ctx₃.mapCount := by
    intro c hc
    rcases validateMaps_eq_ok.mp hc with ⟨-, rfl⟩ | ⟨_, _, -, -, -, rfl⟩
    · rcases validateRelocs_eq_ok.mp h₄ with ⟨-, rfl⟩ | ⟨_, -, -, -, rfl⟩
      · exact ⟨rfl, rfl, rfl, rfl, rfl, rfl⟩
      · exact ⟨rfl, rfl, rfl, rfl, rfl, rfl⟩
    · rcases validateRelocs_eq_ok.mp h₄ with ⟨-, rfl⟩ | ⟨_, -, -, -, rfl⟩
      · exact ⟨rfl, rfl, rfl, rfl, rfl, rfl⟩
      · exact ⟨rfl, rfl, rfl, rfl, rfl, rfl⟩
  obtain ⟨hprofile, htype, hmajor, hminor, hadvertised, hcount⟩ := hfields _ h₃
  refine ⟨⟨s, d, hdata, hthere, hlong hheader, hprofile, htype, hmajor, hminor, hadvertised⟩, ?_, ?_⟩
  · change ctx.mapCount = 0 ∨ ∃ s d, DataOf o ".merlin.maps" s d ∧ d.buf.isSome = true ∧
      mapDescSize * ctx.mapCount ≤ d.size
    rw [hcount]
    rcases validateMaps_eq_ok.mp h₃ with ⟨-, rfl⟩ | ⟨s', d', hdata', hdvd, -, rfl⟩
    · exact .inl rfl
    · by_cases hzero : s'.shSize = 0
      · exact .inl (by simp [hzero])
      · exact .inr ⟨s', d', hdata', hmaps s' d' hdata' hdvd hzero, htable hdata' hdvd⟩
  · change ctx.relocCount = 0 ∨ ∃ s d, DataOf o ".merlin.relocs" s d ∧ d.buf.isSome = true ∧
      relocSize * ctx.relocCount ≤ d.size
    rcases validateRelocs_eq_ok.mp h₄ with ⟨-, rfl⟩ | ⟨s', hs', hdvd, -, rfl⟩
    · exact .inl rfl
    · by_cases hzero : s'.shSize = 0
      · exact .inl (by simp [hzero])
      · obtain ⟨d', hd', hbuf⟩ := hrelocs s' hs' hdvd hzero
        exact .inr ⟨s', d', ⟨hs', hd'⟩, hbuf, htable ⟨hs', hd'⟩ hdvd⟩

/-- Records that are counted without data to read them from are the one fact that is not backed. -/
theorem relocsThere_of_facts {o : ElfObject} (hmeta : MetaOk o) (hlicense : LicenseOk o) (hmaps : MapsOk o)
    (hin : ∀ s d, DataOf o ".merlin.relocs" s d → relocSize ∣ s.shSize → s.shSize ≠ 0 → d.buf.isSome = true)
    (hfacts : ∀ ctx, (runSections o verbose).val = .ok ctx → FactsRead o ctx) : RelocsThere o := by
  intro s hs hdvd hne
  cases hd : elfGetdata s with
  | some d => exact ⟨d, rfl, hin s d ⟨hs, hd⟩ hdvd hne⟩
  | none =>
    obtain ⟨ctx₁, h₁⟩ := (@metaOk_iff o verbose {}).mpr hmeta
    have h₂ := (@validateLicense_eq_ok o verbose ctx₁ _).mpr ⟨hlicense, rfl⟩
    obtain ⟨ctx₃, h₃⟩ := (@mapsOk_iff o { ctx₁ with hasLicense := true }).mpr hmaps
    have h₄ := (@validateRelocs_eq_ok o ctx₃ _).mpr (.inr ⟨s, hs, hdvd, by simp [hd], rfl⟩)
    have hrun := runSections_eq_ok.mpr ⟨ctx₁, _, ctx₃, _, h₁, h₂, h₃, h₄, rfl⟩
    rcases (hfacts _ hrun).relocs with hzero | ⟨s', d', hdata', -⟩
    · have hpos : 0 < s.shSize / relocSize := Nat.div_pos (Nat.le_of_dvd (Nat.pos_of_ne_zero hne) hdvd) (by decide)
      exact absurd hzero hpos.ne'
    · obtain rfl : s' = s := Option.some.inj (hdata'.1.symm.trans hs)
      rw [hdata'.2] at hd
      cases hd

end Run

/-- Validation reads only what is there if and only if each section that it comes to is there. -/
theorem runValidate_readsBacked_iff (o : ElfObj) (verbose strictMachine : Bool) (hsized : Sized o.object) :
    ReadsBacked o verbose strictMachine ↔ SectionsThere o strictMachine := by
  by_cases hheader : HeaderOk o strictMachine
  · have hrun : runValidate o verbose strictMachine = runSections o.object verbose := runValidate_of_headerOk hheader
    constructor
    · rintro ⟨hreads, hfacts⟩ -
      rw [hrun] at hreads hfacts
      obtain ⟨hmeta, hrest⟩ := (runSections_inBuffers hsized).mp hreads
      refine ⟨hmeta, fun hmetaOk => ⟨(hrest hmetaOk).1, fun hlicenseOk => ?_⟩⟩
      obtain ⟨hmaps, hrelocs⟩ := (hrest hmetaOk).2 hlicenseOk
      exact ⟨hmaps, fun hmapsOk => relocsThere_of_facts hmetaOk hlicenseOk hmapsOk (hrelocs hmapsOk) hfacts⟩
    · intro h
      obtain ⟨hmeta, hrest⟩ := h hheader
      refine ⟨?_, fun ctx hok => ?_⟩
      · rw [hrun, runSections_inBuffers hsized]
        refine ⟨hmeta, fun hmetaOk => ⟨(hrest hmetaOk).1, fun hlicenseOk => ?_⟩⟩
        obtain ⟨hmaps, hrelocs⟩ := (hrest hmetaOk).2 hlicenseOk
        refine ⟨hmaps, fun hmapsOk s d hdata hdvd hne => ?_⟩
        obtain ⟨d', hd', hbuf⟩ := hrelocs hmapsOk s hdata.1 hdvd hne
        obtain rfl : d = d' := Option.some.inj (hdata.2.symm.trans hd')
        exact hbuf
      · rw [hrun] at hok
        obtain ⟨ctx₁, ctx₂, ctx₃, ctx₄, h₁, h₂, h₃, -, -⟩ := runSections_eq_ok.mp hok
        obtain ⟨hmaps, hrelocs⟩ := (hrest (metaOk_iff.mp ⟨ctx₁, h₁⟩)).2 (validateLicense_eq_ok.mp h₂).1
        exact runSections_factsRead hsized hmeta hmaps (hrelocs (mapsOk_iff.mp ⟨ctx₃, h₃⟩)) hok
  · obtain ⟨e, he⟩ := @runValidate_of_not_headerOk o verbose strictMachine hheader
    refine ⟨fun _ h => absurd h hheader, fun _ => ⟨?_, fun ctx hok => ?_⟩⟩
    · rw [he]
      exact Validation.inBuffers_fail e
    · rw [he] at hok
      cases hok

section Samples

theorem sized_assembleObject (eClass : BitVec 8) (eMachine : BitVec 16) (secs : List SecIn) :
    Sized (assembleObject eClass eMachine secs) := by
  have hnew : ∀ (s : SecIn) (shName : ℕ) (bytes : Bytes), (newSection s shName).data = some bytes →
      bytes.length = (newSection s shName).shSize := by
    intro s shName bytes h
    simp only [newSection] at h ⊢
    split at h
    · cases h
    · rw [Option.some.inj h]
  have hwrite : ∀ (secs : List SecIn) (sht : Bytes), ∀ s ∈ (writeSections sht secs).2, ∀ bytes,
      s.data = some bytes → bytes.length = s.shSize := by
    intro secs
    induction secs with
    | nil => exact fun _ _ h => absurd h List.not_mem_nil
    | cons sec secs ih =>
      intro sht s hs
      rcases List.mem_cons.mp hs with rfl | hs
      · exact hnew sec _
      · exact ih _ s hs
  intro s hs
  rcases List.mem_append.mp hs with hs | hs
  · exact hwrite secs [0] s hs
  · rw [List.mem_singleton.mp hs]
    exact hnew _ _

/-- A `.merlin.meta` whose header is accepted, followed by the given bytes. -/
def sampleMeta (size : Byte) (rest : Bytes) : Bytes := [0x4D, 0x52, 0x4C, 0x56, 1, 0, 0, 0, size, 0, 0, 0] ++ rest

def validateObject (metaBytes license : Bytes) : ElfObj where
  eiData := elfdata2lsb
  object := assembleObject 2 243
    [⟨cstr ".merlin.meta", metaBytes, shtProgbits, 0⟩, ⟨cstr ".merlin.license", license, shtProgbits, 0⟩]

theorem validateObject_dataOf (size : Byte) (rest license : Bytes) (b : Byte) :
    DataOf (validateObject (sampleMeta size rest) (b :: license)).object ".merlin.meta"
        (newSection ⟨cstr ".merlin.meta", sampleMeta size rest, shtProgbits, 0⟩ 1)
        ⟨some (sampleMeta size rest), (sampleMeta size rest).length⟩ ∧
      DataOf (validateObject (sampleMeta size rest) (b :: license)).object ".merlin.license"
        (newSection ⟨cstr ".merlin.license", b :: license, shtProgbits, 0⟩ 14)
        ⟨some (b :: license), (b :: license).length⟩ ∧
      (validateObject (sampleMeta size rest) (b :: license)).object.findNamed (cstr ".merlin.maps") = none ∧
      (validateObject (sampleMeta size rest) (b :: license)).object.findNamed (cstr ".merlin.relocs") = none :=
  ⟨⟨rfl, rfl⟩, ⟨rfl, rfl⟩, rfl, rfl⟩

theorem validateObject_readsBacked :
    ReadsBacked (validateObject (sampleMeta 24 [0, 0, 0, 0, 1, 0, 0, 0, 3, 0, 0, 0]) [71, 80, 76, 0]) true true := by
  refine (runValidate_readsBacked_iff _ true true (sized_assembleObject 2 243 _)).mpr fun _ => ?_
  obtain ⟨hmeta, hlicense, hmaps, hrelocs⟩ :=
    validateObject_dataOf 24 [0, 0, 0, 0, 1, 0, 0, 0, 3, 0, 0, 0] [80, 76, 0] 71
  refine ⟨hmeta.forall_iff.mpr fun _ => ⟨rfl, fun _ => by decide⟩, fun _ => ⟨hlicense.forall_iff.mpr fun _ => rfl,
    fun _ => ⟨fun s d h => ?_, fun _ s hs => ?_⟩⟩⟩
  · exact absurd (hmaps.symm.trans h.1) (by nofun)
  · exact absurd (hrelocs.symm.trans hs) (by nofun)

/-- A `.merlin.meta` of 12 bytes is accepted, and its profile is read 16 bytes in. -/
theorem validateObject_short_meta :
    Sized (validateObject (sampleMeta 12 []) [71, 80, 76, 0]).object ∧
      ¬ReadsBacked (validateObject (sampleMeta 12 []) [71, 80, 76, 0]) true true := by
  have hsized : Sized (validateObject (sampleMeta 12 []) [71, 80, 76, 0]).object := sized_assembleObject 2 243 _
  refine ⟨hsized, fun h => ?_⟩
  have hreads := h.reads
  rw [runValidate_of_headerOk ⟨rfl, by decide⟩, runSections_inBuffers hsized] at hreads
  have hmeta := (validateObject_dataOf 12 [] [80, 76, 0] 71).1.forall_iff.mp hreads.1 (by decide)
  exact absurd (hmeta.2 ⟨by decide, by decide, by decide, by decide⟩) (by decide)

end Samples

end MerlinV.Objtool
