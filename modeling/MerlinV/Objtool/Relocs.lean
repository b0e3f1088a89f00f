import MerlinV.Objtool.Reads

/-! # The format of relocation tables

The rules of the design document for `.merlin.relocs`, against what `validate_relocs` accepts.  It has
no upper end of the vendor types and does not look at the text.
-/
namespace MerlinV.Objtool
open Lib

section Format

variable (o : ElfObject) (s : ElfSection)

def recordCount : ℕ := s.shSize / relocSize

def InProgramText (off : ℕ) : Prop :=
  ∃ t ∈ o.sections, (o.nameOf t = some (cstr ".text") ∨ o.isText t = true) ∧ off < t.contents.length

/-- The types that the document assigns, and the range it leaves to vendors. -/
def RelocTypeKnown (ty : ℕ) : Prop := 1 ≤ ty ∧ ty ≤ 8 ∨ 64 ≤ ty ∧ ty ≤ 127

def OffsetsAscend : Prop :=
  ∀ i j, i < j → j < recordCount s → relocOffset s.contents i < relocOffset s.contents j

/-- The table follows the format. -/
structure RelocFormat : Prop where
  whole : relocSize ∣ s.shSize
  types : ∀ i < recordCount s, RelocTypeKnown (relocType s.contents i)
  ascend : OffsetsAscend s
  inText : ∀ i < recordCount s, InProgramText o (relocOffset s.contents i)

/-- A table of whole records is readable or empty, and if its types are none of 0 and 9 to 63 and its
offsets ascend, no type is 128 or more and no offset lies outside the text. -/
def RelocsJudged : Prop :=
  relocSize ∣ s.shSize → (elfGetdata s = none → s.shSize = 0) ∧
    ((∀ i < recordCount s, RelocTypeOk (relocType s.contents i)) → OffsetsAscend s →
      ∀ i < recordCount s, relocType s.contents i < 128 ∧ InProgramText o (relocOffset s.contents i))

end Format

section Accept

variable {o : ElfObject} {s : ElfSection} {ctx : ValidateCtx}

theorem ascend_of_step {f : ℕ → ℕ} {n : ℕ} (h : ∀ j, j + 1 < n → f j < f (j + 1)) :
    ∀ i j, i < j → j < n → f i < f j := by
  intro i j hij
  induction j, hij using Nat.le_induction with
  | base => exact h i
  | succ j hij ih => exact fun hlt => (ih (by omega)).trans (h j hlt)

theorem RelocTypeKnown.ok {ty : ℕ} (h : RelocTypeKnown ty) : RelocTypeOk ty := by
  rcases h with h | h
  · exact ⟨by omega, by omega⟩
  · exact ⟨by omega, by omega⟩

theorem relocTypeKnown_iff {ty : ℕ} (h : RelocTypeOk ty) : RelocTypeKnown ty ↔ ty < 128 := by
  obtain ⟨h₁, h₂⟩ := h
  unfold RelocTypeKnown
  omega

theorem bytes_eq_contents {d : ElfData} (h : elfGetdata s = some d) : d.bytes = s.contents := by
  unfold elfGetdata at h
  unfold ElfSection.contents ElfSection.getdata
  split at h
  · rename_i hnobits
    cases h
    rw [if_pos hnobits]
    rfl
  · rename_i hbits
    obtain ⟨bytes, hbytes, rfl⟩ := Option.map_eq_some_iff.mp h
    rw [if_neg hbits, hbytes]
    rfl

theorem contents_eq_nil (h : elfGetdata s = none) : s.contents = [] := by
  unfold elfGetdata at h
  split at h
  · cases h
  · rename_i hbits
    rw [ElfSection.contents, ElfSection.getdata, if_neg hbits, Option.map_eq_none_iff.mp h]
    rfl

theorem validateRelocs_accepts_iff (hs : o.findNamed (cstr ".merlin.relocs") = some s) :
    (∃ ctx', (validateRelocs o ctx).val = .ok ctx') ↔ relocSize ∣ s.shSize ∧
      ∀ d, elfGetdata s = some d → d.size ≠ 0 →
        (∀ i < recordCount s, RelocTypeOk (relocType s.contents i)) ∧ OffsetsAscend s := by
  have hloop : ∀ d, elfGetdata s = some d → ((checkRelocs d.bytes (s.shSize / relocSize) 0 none).val = .ok () ↔
      (∀ i < recordCount s, RelocTypeOk (relocType s.contents i)) ∧ OffsetsAscend s) := by
    intro d hd
    rw [checkRelocs_eq_ok, bytes_eq_contents hd]
    constructor
    · rintro ⟨htypes, -, hchain⟩
      exact ⟨fun i hi => htypes i (Nat.zero_le i) (by simpa [recordCount] using hi),
        ascend_of_step fun j hj => hchain j (Nat.zero_le j) (by simpa [recordCount] using hj)⟩
    · rintro ⟨htypes, hascend⟩
      refine ⟨fun j _ hj => htypes j (by simpa [recordCount] using hj), fun p hp => (nomatch hp), fun j _ hj => ?_⟩
      exact hascend j (j + 1) (Nat.lt_succ_self j) (by simpa [recordCount] using hj)
  constructor
  · rintro ⟨ctx', h⟩
    rcases validateRelocs_eq_ok.mp h with ⟨hnone, -⟩ | ⟨s', hs', hdvd, hread, -⟩
    · rw [hs] at hnone
      cases hnone
    · obtain rfl : s' = s := Option.some.inj (hs'.symm.trans hs)
      exact ⟨hdvd, fun d hd hne => (hloop d hd).mp (hread d hd hne)⟩
  · rintro ⟨hdvd, hread⟩
    exact ⟨_, validateRelocs_eq_ok.mpr (.inr ⟨s, hs, hdvd, fun d hd hne => (hloop d hd).mpr (hread d hd hne), rfl⟩)⟩

theorem relocFormat_of_empty (h : s.shSize = 0) : RelocFormat o s := by
  have hzero : recordCount s = 0 := by simp [recordCount, h]
  refine ⟨by simp [h], fun i hi => ?_, fun i j _ hj => ?_, fun i hi => ?_⟩
  · omega
  · omega
  · omega

/-- Records without bytes have type 0. -/
theorem RelocFormat.readable (h : RelocFormat o s) (hnone : elfGetdata s = none) : s.shSize = 0 := by
  by_contra hne
  have hpos : 0 < recordCount s := Nat.div_pos (Nat.le_of_dvd (Nat.pos_of_ne_zero hne) h.whole) (by decide)
  have htype := (h.types 0 hpos).ok.1
  rw [contents_eq_nil hnone] at htype
  exact htype (by simp [relocType, leValue])

theorem RelocFormat.accepted (h : RelocFormat o s) (hs : o.findNamed (cstr ".merlin.relocs") = some s) :
    ∃ ctx', (validateRelocs o ctx).val = .ok ctx' :=
  (validateRelocs_accepts_iff hs).mpr ⟨h.whole, fun _ _ _ => ⟨fun i hi => (h.types i hi).ok, h.ascend⟩⟩

end Accept

/-- `validate_relocs` accepts exactly the tables of the format if and only if the table is readable and
has no unknown type and no offset outside the text that it would pass. -/
theorem validateRelocs_exact_iff (o : ElfObject) (s : ElfSection) (ctx : ValidateCtx) (hsized : Sized o)
    (hs : o.findNamed (cstr ".merlin.relocs") = some s) :
    ((∃ ctx', (validateRelocs o ctx).val = .ok ctx') ↔ RelocFormat o s) ↔ RelocsJudged o s := by
  constructor
  · intro hexact hdvd
    refine ⟨fun hnone => ?_, fun htypes hascend i hi => ?_⟩
    · have haccept := (@validateRelocs_accepts_iff o s ctx hs).mpr ⟨hdvd, fun d hd => by rw [hnone] at hd; cases hd⟩
      exact (hexact.mp haccept).readable hnone
    · have hformat := hexact.mp ((validateRelocs_accepts_iff hs).mpr ⟨hdvd, fun _ _ _ => ⟨htypes, hascend⟩⟩)
      exact ⟨(relocTypeKnown_iff (htypes i hi)).mp (hformat.types i hi), hformat.inText i hi⟩
  · intro hjudged
    refine ⟨fun haccept => ?_, fun hformat => hformat.accepted hs⟩
    obtain ⟨hdvd, hread⟩ := (validateRelocs_accepts_iff hs).mp haccept
    obtain ⟨hreadable, hknown⟩ := hjudged hdvd
    by_cases hempty : s.shSize = 0
    · exact relocFormat_of_empty hempty
    · cases hd : elfGetdata s with
      | none => exact absurd (hreadable hd) hempty
      | some d =>
        have hdata : DataOf o ".merlin.relocs" s d := ⟨hs, hd⟩
        have hne : d.size ≠ 0 := by rwa [hdata.shSize_eq hsized]
        obtain ⟨htypes, hascend⟩ := hread d hd hne
        have hrest := hknown htypes hascend
        exact ⟨hdvd, fun i hi => (relocTypeKnown_iff (htypes i hi)).mpr (hrest i hi).1, hascend,
          fun i hi => (hrest i hi).2⟩

section Samples

def relocObject (ty off : Byte) : ElfObject :=
  assembleObject 2 243
    [⟨cstr ".text.merlin.x", List.replicate 8 0, shtProgbits, 0⟩,
      ⟨cstr ".merlin.relocs", [off, 0, 0, 0, ty, 0, 0, 0] ++ List.replicate 16 0, shtProgbits, 0⟩]

def relocSection (ty off : Byte) : ElfSection :=
  newSection ⟨cstr ".merlin.relocs", [off, 0, 0, 0, ty, 0, 0, 0] ++ List.replicate 16 0, shtProgbits, 0⟩ 16

theorem relocObject_findNamed (ty off : Byte) :
    (relocObject ty off).findNamed (cstr ".merlin.relocs") = some (relocSection ty off) := rfl

theorem relocObject_inText {off : ℕ} (ty b : Byte) (h : off < 8) : InProgramText (relocObject ty b) off :=
  ⟨newSection ⟨cstr ".text.merlin.x", List.replicate 8 0, shtProgbits, 0⟩ 1, List.mem_cons_self, .inr rfl, h⟩

theorem relocObject_exact : (∃ ctx', (validateRelocs (relocObject 64 4) {}).val = .ok ctx') ↔
    RelocFormat (relocObject 64 4) (relocSection 64 4) := by
  refine (validateRelocs_exact_iff _ _ {} (sized_assembleObject 2 243 _) (relocObject_findNamed 64 4)).mpr
    fun _ => ⟨by nofun, fun _ _ i hi => ?_⟩
  obtain rfl : i = 0 := Nat.lt_one_iff.mp hi
  exact ⟨by decide, relocObject_inText 64 4 (by decide)⟩

/-- A record of type 200 at an offset behind the text is accepted. -/
theorem relocObject_unknown_type : Sized (relocObject 200 80) ∧
    (∃ ctx', (validateRelocs (relocObject 200 80) {}).val = .ok ctx') ∧
      ¬RelocFormat (relocObject 200 80) (relocSection 200 80) := by
  refine ⟨sized_assembleObject 2 243 _, ?_, fun h => ?_⟩
  · refine (validateRelocs_accepts_iff (relocObject_findNamed 200 80)).mpr ⟨by decide, fun _ _ _ => ⟨fun i hi => ?_,
      fun i j hij hj => ?_⟩⟩
    · obtain rfl : i = 0 := Nat.lt_one_iff.mp hi
      exact ⟨by decide, by decide⟩
    · have hj' : j < 1 := hj
      omega
  · have htype := h.types 0 (by decide)
    rcases htype with ⟨-, h⟩ | ⟨-, h⟩
    · exact absurd h (by decide)
    · exact absurd h (by decide)

end Samples

end MerlinV.Objtool
