import MerlinV.Kernel.Loader

/-! # Which bytes the kernel loader loads

The section that the ELF format names as the program, for either class, against the bytes that
`parse_and_load` hands to the verifier and to the translator.  An object of class 32 has its
`e_ehsize`, `e_phentsize`, `e_phnum` and `e_shentsize` where `Elf64_Ehdr` has `e_shoff`.
-/
namespace MerlinV.Kernel

open Lib (Byte Bytes Rd leValue)
open Elf

/-- The log buffer is not asked for, or there is memory for it. -/
def LogReady (env : LoadEnv) (attr : LoadAttr) : Prop :=
  attr.logBuf = 0 ∨ attr.logSize = 0 ∨ env.logAlloc = true

/-- Nothing between the verdict and the translator ends the load. -/
def ReachesJit (env : LoadEnv) (attr : LoadAttr) (text : Bytes) : Prop :=
  env.verify attr text = true ∧ (env.selectJit attr.profile).isSome = true ∧ env.progAlloc = true ∧
    env.dupAlloc = true

/-- A load of the program `c`: the verifier is called on `c`, the translator on `c` and on nothing
else, and a loaded program holds `c`.  Only the size cap and a lack of memory for the log end the
load before the verifier. -/
def LoadsText (env : LoadEnv) (attr : LoadAttr) (x : Rd Errno Outcome) (c : Bytes) : Prop :=
  match x.val with
  | .error e => (e = .e2big ∧ maxInsns * 4 < c.length) ∨ (e = .enomem ∧ ¬ LogReady env attr)
  | .ok out => out.verified = c ∧ (∀ t, out.translated = some t → t = c) ∧
      (ReachesJit env attr c → out.translated = some c) ∧
      ∀ p, out.result = .ok p → p.bytecode = c ∧ out.translated = some c

theorem verifyAndInstall_text (env : LoadEnv) (attr : LoadAttr) (text : Bytes) :
    (verifyAndInstall env attr text).verified = text ∧
      (∀ t, (verifyAndInstall env attr text).translated = some t → t = text) ∧
      (ReachesJit env attr text → (verifyAndInstall env attr text).translated = some text) ∧
      ∀ p, (verifyAndInstall env attr text).result = .ok p →
        p.bytecode = text ∧ (verifyAndInstall env attr text).translated = some text := by
  unfold verifyAndInstall ReachesJit
  cases hv : env.verify attr text with
  | false => simp
  | true =>
    cases hj : env.selectJit attr.profile with
    | none => simp
    | some translate =>
      cases ha : env.progAlloc with
      | false => simp
      | true =>
        cases hd : env.dupAlloc with
        | false => simp
        | true =>
          cases ht : translate text with
          | error rc => simp [ht]
          | ok u =>
            cases hi : env.allocId with
            | error rc => simp [ht]
            | ok id =>
              simp only [Bool.not_true, Bool.false_eq_true, if_false, ht]
              refine ⟨trivial, fun t h => (Option.some.inj h).symm, fun _ => trivial, fun p h => ⟨?_, trivial⟩⟩
              rw [← Except.ok.inj h]

/-- A load that finds no program ends before the verifier. -/
theorem not_loadsText_of_locateText {blob : Bytes} (h : (locateText blob).val = .error .einval) (env : LoadEnv)
    (attr : LoadAttr) (c : Bytes) : ¬ LoadsText env attr (parseAndLoad env blob attr) c := by
  rw [LoadsText, parseAndLoad, Rd.val_bind_error h]
  simp

section Strings

/-- A string without zeros in front of a zero lies before it. -/
theorem prefix_take_iff {p l : Bytes} {m : ℕ} (hp : (0 : Byte) ∉ p) (hz : 0 ∈ l.take m) :
    p <+: l.take m ↔ p <+: l := by
  constructor
  · exact fun h => h.trans (List.take_prefix m l)
  · intro h
    obtain ⟨k, hk, hzero⟩ := List.mem_iff_getElem.mp hz
    rw [List.length_take] at hk
    rw [List.getElem_take] at hzero
    have hle : p.length ≤ m := by
      by_contra hlt
      have hkp : k < p.length := by omega
      have hpk : p[k] = l[k] := List.IsPrefix.getElem h hkp
      exact hp (hzero ▸ hpk ▸ List.getElem_mem hkp)
    exact (List.prefix_take_iff.mpr ⟨h, hle⟩)

end Strings

section Class64

variable {blob : Bytes}

/-- An object of class 64 that keeps its section count in the header passes the checks. -/
theorem strtabOk_of_wellFormed (hw : elf64.WellFormed blob) (hn : elf64.shnum blob ≠ 0) :
    StrtabOk blob ∧ elf64.count blob = elf64.shnum blob ∧ elf64.strndx blob = elf64.shstrndx blob := by
  have hcount : elf64.count blob = elf64.shnum blob := if_pos hn
  have hplain : elf64.shstrndx blob ≠ shnXindex := by
    intro hx
    have hlt := hw.strndx_lt
    have hge := hw.escape hx
    have hlow := hw.plain
    rw [hcount, Layout.strndx, if_pos hx] at hlt
    omega
  have hndx : elf64.strndx blob = elf64.shstrndx blob := if_neg hplain
  have hpos := hw.strndx_pos
  have hlt := hw.strndx_lt
  have htable := hw.table
  have hshdr := hw.shdr
  have hstr := hw.strtab_inFile
  -- the name of section 0 ends inside the string table, which is therefore not empty
  have hmem := hw.names 0 (by omega)
  rw [hcount] at hlt htable
  rw [hndx] at hpos hlt hstr hmem
  have hbytes : 0 < elf64.size blob (elf64.shstrndx blob) := by
    have hlen := List.length_pos_of_mem hmem
    simp only [Layout.contents, List.length_drop, List.length_take] at hlen
    omega
  have h64 : 64 ≤ elf64.shentsize blob := hshdr
  have hmul : elf64.shentsize blob ≤ elf64.shnum blob * elf64.shentsize blob :=
    Nat.le_mul_of_pos_left _ (by omega)
  unfold Layout.hdr at htable
  refine ⟨⟨⟨hw.magic, .inl hw.cls, hw.data, hw.rel, hw.riscv, hshdr, by omega, by omega⟩, hw.ehdr,
    ⟨hplain, hpos.ne'⟩, hlt, hndx ▸ hw.strtab, ⟨by omega, by omega⟩⟩, hcount, hndx⟩

theorem taken_iff (hw : elf64.WellFormed blob) (hn : elf64.shnum blob ≠ 0) {i : ℕ} (hi : i < elf64.shnum blob) :
    Taken blob i ↔ elf64.IsText blob i ∧ elf64.Loadable blob i := by
  obtain ⟨-, hcount, hndx⟩ := strtabOk_of_wellFormed hw hn
  have hzero := hw.names i (by omega)
  have hlist : (elf64.contents blob (elf64.strndx blob)).drop (elf64.name blob i) =
      (blob.drop (elf64.offset blob (elf64.shstrndx blob) + elf64.name blob i)).take
        (elf64.size blob (elf64.shstrndx blob) - elf64.name blob i) := by
    rw [hndx, Layout.contents, List.drop_take, List.drop_drop]
  have hname : elf64.name blob i < elf64.size blob (elf64.shstrndx blob) := by
    have hlen := List.length_pos_of_mem hzero
    rw [hlist, List.length_take] at hlen
    omega
  rw [hlist] at hzero
  have hpre : merlinTextPrefix <+: elf64.secName blob i ↔
      merlinTextPrefix <+: blob.drop (elf64.offset blob (elf64.shstrndx blob) + elf64.name blob i) := by
    rw [Layout.secName, hlist, prefix_takeWhile_iff zero_notMem_merlinTextPrefix,
      prefix_take_iff zero_notMem_merlinTextPrefix hzero]
  unfold Layout.IsText
  rw [hpre]
  constructor
  · rintro ⟨p, ⟨-, -, htype, hload, -, rfl⟩, hp⟩
    exact ⟨⟨htype, hload.inFile, hp⟩, hload⟩
  · rintro ⟨⟨htype, -, hp⟩, hload⟩
    refine ⟨_, ⟨?_, hi, htype, hload, hname, rfl⟩, hp⟩
    by_contra h0
    obtain rfl : i = 0 := by omega
    exact absurd (htype.symm.trans hw.null) (by decide)

/-- The walk takes the first program that starts before the end of the file. -/
theorem walk_loadIndex (hw : elf64.WellFormed blob) (hn : elf64.shnum blob ≠ 0) :
    ∃ found, ((List.range' 1 (elf64.shnum blob - 1)).foldlM (walk blob) none).val = .ok found ∧
      ((found = none ∧ elf64.loadIndex blob = none) ∨
        ∃ i nm, elf64.loadIndex blob = some i ∧ found = some ⟨elf64.offset blob i, elf64.size blob i, nm⟩) := by
  obtain ⟨hok, hcount, -⟩ := strtabOk_of_wellFormed hw hn
  obtain ⟨found, hval, hcase⟩ := walkLoop_val hok (elf64.shnum blob - 1) not_taken_zero
  refine ⟨found, hval, ?_⟩
  rcases hcase with ⟨rfl, hnone⟩ | ⟨i, nm, hi, ht, hfirst, rfl⟩
  · refine .inl ⟨rfl, ?_⟩
    rw [Layout.loadIndex, List.find?_eq_none]
    intro j hj htext
    rw [List.mem_range, hcount] at hj
    exact hnone j (by omega) ((taken_iff hw hn hj).mpr (of_decide_eq_true htext))
  · have hlt : i < elf64.shnum blob := by omega
    have htaken := (taken_iff hw hn hlt).mp ht
    refine .inr ⟨i, nm, Layout.loadIndex_eq_some.mpr ⟨hcount ▸ hlt, htaken, fun j hj htext => ?_⟩, rfl⟩
    exact hfirst j hj ((taken_iff hw hn (hj.trans hlt)).mpr htext)

theorem locateText_of_loadIndex_none (hw : elf64.WellFormed blob) (hn : elf64.shnum blob ≠ 0)
    (h : elf64.loadIndex blob = none) : (locateText blob).val = .error .einval := by
  obtain ⟨hok, -, -⟩ := strtabOk_of_wellFormed hw hn
  obtain ⟨found, hval, ⟨rfl, -⟩ | ⟨i, nm, hi, -⟩⟩ := walk_loadIndex hw hn
  · rw [locateText, Rd.val_bind_ok (val_locateStrtab_of_ok hok), val_readShnum_bind]
    exact Rd.val_bind_ok hval _
  · exact absurd (h.symm.trans hi) nofun

theorem locateText_of_loadIndex (hw : elf64.WellFormed blob) (hn : elf64.shnum blob ≠ 0) {i : ℕ}
    (h : elf64.loadIndex blob = some i) : ∃ nm, (locateText blob).val = if elf64.size blob i ≤ maxInsns * 4 then
      .ok ⟨elf64.offset blob i, elf64.size blob i, nm⟩ else .error .e2big := by
  obtain ⟨hok, -, -⟩ := strtabOk_of_wellFormed hw hn
  obtain ⟨found, hval, ⟨-, hnone⟩ | ⟨j, nm, hj, rfl⟩⟩ := walk_loadIndex hw hn
  · exact absurd (hnone.symm.trans h) nofun
  · obtain rfl := Option.some.inj (hj.symm.trans h)
    refine ⟨nm, ?_⟩
    rw [locateText, Rd.val_bind_ok (val_locateStrtab_of_ok hok), val_readShnum_bind]
    refine (Rd.val_bind_ok hval _).trans ?_
    dsimp only
    rw [Rd.val_require_bind]
    rfl

/-- A load of the section that the walk takes is a load of `c` when `c` is its contents, and when it ends in front of
the verifier for want of memory or, like one of `c`, for its size. -/
theorem loadsText_iff (hw : elf64.WellFormed blob) (hn : elf64.shnum blob ≠ 0) {i : ℕ}
    (h : elf64.loadIndex blob = some i) (env : LoadEnv) (attr : LoadAttr) (c : Bytes) :
    LoadsText env attr (parseAndLoad env blob attr) c ↔ c = elf64.contents blob i ∨
      (¬ LogReady env attr ∧ elf64.size blob i ≤ maxInsns * 4) ∨
        (maxInsns * 4 < elf64.size blob i ∧ maxInsns * 4 < c.length) := by
  obtain ⟨-, ⟨hti, -⟩, -⟩ := Layout.loadIndex_eq_some.mp h
  have hlen := hti.2.1.length_contents
  obtain ⟨nm, hlocate⟩ := locateText_of_loadIndex hw hn h
  unfold LoadsText
  by_cases hcap : elf64.size blob i ≤ maxInsns * 4
  · rw [if_pos hcap] at hlocate
    rw [parseAndLoad, Rd.val_bind_ok hlocate, Rd.val_require_bind]
    by_cases hlog : LogReady env attr
    · rw [if_pos (by exact hlog), Rd.val_slice_bind]
      have htext := verifyAndInstall_text env attr (elf64.contents blob i)
      constructor
      · exact fun hc => .inl (hc.1.symm.trans htext.1)
      · rintro (rfl | ⟨hno, -⟩ | ⟨hlt, -⟩)
        · exact htext
        · exact absurd hlog hno
        · omega
    · rw [if_neg (by exact hlog)]
      exact ⟨fun _ => .inr (.inl ⟨hlog, hcap⟩), fun _ => .inr ⟨rfl, hlog⟩⟩
  · rw [if_neg hcap] at hlocate
    rw [parseAndLoad, Rd.val_bind_error hlocate]
    rw [not_le] at hcap
    constructor
    · rintro (⟨-, hlt⟩ | ⟨hcode, -⟩)
      · exact .inr (.inr ⟨hcap, hlt⟩)
      · cases hcode
    · rintro (rfl | ⟨-, hle⟩ | ⟨-, hlt⟩)
      · exact .inl ⟨rfl, hlen ▸ hcap⟩
      · omega
      · exact .inl ⟨rfl, hlt⟩

/-- The first program is the one that the walk takes; or it is empty at the end of the file, and what is taken in its
place is as empty, or is not verified because there is no memory for the log. -/
def TakesFirst (env : LoadEnv) (attr : LoadAttr) (blob : Bytes) : Prop :=
  ∃ i, elf64.loadIndex blob = some i ∧
    (elf64.textIndex blob = some i ∨ elf64.size blob i = 0 ∨
      (¬ LogReady env attr ∧ elf64.size blob i ≤ maxInsns * 4))

theorem loadsText_iff_takesFirst (hw : elf64.WellFormed blob) (hn : elf64.shnum blob ≠ 0) (env : LoadEnv)
    (attr : LoadAttr) : (∃ c, elf64.text blob = some c ∧ LoadsText env attr (parseAndLoad env blob attr) c) ↔
      TakesFirst env attr blob := by
  obtain ⟨t, ht⟩ := hw.exists_textIndex
  obtain ⟨hlt, htext, hfirst⟩ := Layout.textIndex_eq_some.mp ht
  have hsome : ∀ c, elf64.text blob = some c ↔ elf64.contents blob t = c := by
    intro c
    rw [Layout.text, ht, Option.map_some, Option.some.injEq]
  simp only [hsome, exists_eq_left']
  unfold TakesFirst
  cases h : elf64.loadIndex blob with
  | none =>
    have hnot := not_loadsText_of_locateText (locateText_of_loadIndex_none hw hn h) env attr
    simp [hnot]
  | some i =>
    simp only [Option.some.injEq, exists_eq_left', loadsText_iff hw hn h, ht]
    obtain ⟨-, ⟨hti, hload⟩, hbefore⟩ := Layout.loadIndex_eq_some.mp h
    by_cases htl : elf64.Loadable blob t
    · -- the first program starts before the end, so the walk takes it
      have heq : t = i := by
        rcases Nat.lt_trichotomy t i with hlt | heq | hlt
        · exact absurd ⟨htext, htl⟩ (hbefore t hlt)
        · exact heq
        · exact absurd hti (hfirst i hlt)
      simp [heq]
    · have hzero := htext.2.1.size_eq_zero htl
      have hne : t ≠ i := by
        rintro rfl
        exact htl hload
      have hnil : elf64.contents blob t = [] := by
        rw [Layout.contents, hzero, List.take_zero]
      have hsize : [] = elf64.contents blob i ↔ elf64.size blob i = 0 := by
        rw [← hti.2.1.length_contents, List.length_eq_zero_iff, eq_comm]
      rw [hnil, hsize]
      simp [hne]

/-- Without the count in the header the string table is not found. -/
theorem not_loadsText_of_shnum_zero (hn : elf64.shnum blob = 0) (env : LoadEnv) (attr : LoadAttr) (c : Bytes) :
    ¬ LoadsText env attr (parseAndLoad env blob attr) c := by
  have hnot : ¬ StrtabOk blob := fun h => by
    have := h.lt
    omega
  exact not_loadsText_of_locateText (Rd.val_bind_error (val_locateStrtab_of_not hnot) _) env attr c

end Class64

section Class32

variable {blob : Bytes}

/-- The size of a section header of class 32 stands in the top bytes of `e_shoff`. -/
theorem shoff_of_class32 : 2 ^ 48 * elf32.shentsize blob ≤ elf64.shoff blob := by
  have hsplit : elf64.shoff blob = leValue (6 + 2) (blob.drop 40) := rfl
  have hhigh : elf32.shentsize blob = leValue 2 ((blob.drop 40).drop 6) := by
    rw [List.drop_drop]
    rfl
  rw [hsplit, leValue_add, hhigh]
  have hpow : (256 : ℕ) ^ 6 = 2 ^ 48 := by norm_num
  rw [hpow]
  exact Nat.le_add_left _ _

theorem not_headerOk_of_class32 (hw : elf32.WellFormed blob) (hlen : blob.length ≤ maxElfSize) :
    ¬ HeaderOk blob := by
  intro h
  have hlt := h.shoff
  have hge := @shoff_of_class32 blob
  have hsize : 40 ≤ elf32.shentsize blob := hw.shdr
  unfold maxElfSize at hlen
  omega

theorem not_loadsText_of_class32 (hw : elf32.WellFormed blob) (hlen : blob.length ≤ maxElfSize)
    (env : LoadEnv) (attr : LoadAttr) (c : Bytes) :
    ¬ LoadsText env attr (parseAndLoad env blob attr) c := by
  have hnot : ¬ StrtabOk blob := fun h => not_headerOk_of_class32 hw hlen h.toHeaderOk
  exact not_loadsText_of_locateText (Rd.val_bind_error (val_locateStrtab_of_not hnot) _) env attr c

end Class32

/-- Of the well-formed objects, the loader loads the program that the format names exactly for those of class 64 that
keep the number of sections in the header and whose first program is the one that the walk takes. -/
theorem loadsText_iff_class64 (blob : Bytes) (env : LoadEnv) (attr : LoadAttr)
    (hw : (layoutOf blob).WellFormed blob) (hlen : blob.length ≤ maxElfSize) :
    (∃ c, (layoutOf blob).text blob = some c ∧ LoadsText env attr (parseAndLoad env blob attr) c) ↔
      blob.getD eiClass 0 = elf64.cls ∧ elf64.shnum blob ≠ 0 ∧ TakesFirst env attr blob := by
  by_cases hcls : blob.getD eiClass 0 = elf32.cls
  · have hlayout : layoutOf blob = elf32 := if_pos hcls
    rw [hlayout] at hw ⊢
    constructor
    · rintro ⟨c, -, hload⟩
      exact absurd hload (not_loadsText_of_class32 hw hlen env attr c)
    · rintro ⟨h64, -⟩
      exact absurd (hcls.symm.trans h64) (by decide)
  · have hlayout : layoutOf blob = elf64 := if_neg hcls
    rw [hlayout] at hw ⊢
    by_cases hn : elf64.shnum blob = 0
    · constructor
      · rintro ⟨c, -, hload⟩
        exact absurd hload (not_loadsText_of_shnum_zero hn env attr c)
      · rintro ⟨-, hpos, -⟩
        exact absurd hn hpos
    · rw [loadsText_iff_takesFirst hw hn]
      exact ⟨fun h => ⟨hw.cls, hn, h⟩, fun h => h.2.2⟩

section Samples

open Lib (leBytes)

def sampleStrtab : Bytes := 0 :: merlinTextPrefix ++ [0x61, 0]

/-- A section header of class `L` for bytes that are given by name, type, offset and size. -/
def sampleShdr (L : Elf.Layout) (name type offset size : ℕ) : Bytes :=
  leBytes 4 name ++ leBytes 4 type ++ List.replicate (L.shOffset - 8) 0 ++ leBytes L.addr offset ++
    leBytes L.addr size ++ List.replicate (L.shdrSize - L.shSize - L.addr) 0

/-- An object of class `L` with a string table and the program `ret`. -/
def sampleObject (L : Elf.Layout) : Bytes :=
  elfMag ++ [L.cls, elfData2Lsb, 1] ++ List.replicate 9 0 ++ leBytes 2 Elf.etRel ++ leBytes 2 emRiscv ++
    leBytes 4 1 ++ List.replicate (L.eShoff - 24) 0 ++ leBytes L.addr L.ehdrSize ++ leBytes 4 0 ++
    leBytes 2 L.ehdrSize ++ leBytes 2 0 ++ leBytes 2 0 ++ leBytes 2 L.shdrSize ++ leBytes 2 3 ++
    leBytes 2 1 ++ sampleShdr L 0 Elf.shtNull 0 0 ++
    sampleShdr L 0 Elf.shtStrtab (L.ehdrSize + 3 * L.shdrSize) 16 ++
    sampleShdr L 1 Elf.shtProgbits (L.ehdrSize + 3 * L.shdrSize + 16) 4 ++ sampleStrtab ++
    [0x67, 0x80, 0, 0]

def sampleAttr : LoadAttr := ⟨1, 0, 0, 0, 0, 0, 0, []⟩

def sampleEnv : LoadEnv := ⟨true, fun _ _ => true, fun _ => some fun _ => .ok (), true, true, .ok 1, 0, 0⟩

theorem sampleObject32_wellFormed : elf32.WellFormed (sampleObject elf32) := by
  constructor <;> decide +kernel

theorem sampleObject64_wellFormed : elf64.WellFormed (sampleObject elf64) := by
  constructor <;> decide +kernel

theorem sampleObject64_loads : (layoutOf (sampleObject elf64)).WellFormed (sampleObject elf64) ∧
    (sampleObject elf64).length ≤ maxElfSize ∧
    ∃ c, (layoutOf (sampleObject elf64)).text (sampleObject elf64) = some c ∧
      LoadsText sampleEnv sampleAttr (parseAndLoad sampleEnv (sampleObject elf64) sampleAttr) c := by
  have hlayout : layoutOf (sampleObject elf64) = elf64 := by decide +kernel
  have hw : (layoutOf (sampleObject elf64)).WellFormed (sampleObject elf64) := by
    rw [hlayout]
    exact sampleObject64_wellFormed
  have hlen : (sampleObject elf64).length ≤ maxElfSize := by decide +kernel
  have hfirst : TakesFirst sampleEnv sampleAttr (sampleObject elf64) := ⟨2, by decide +kernel, .inl (by decide +kernel)⟩
  exact ⟨hw, hlen, (loadsText_iff_class64 _ sampleEnv sampleAttr hw hlen).mpr
    ⟨by decide +kernel, by decide +kernel, hfirst⟩⟩

/-- The object of class 32 is well formed, names a program and is not loaded. -/
theorem sampleObject32_not_loaded : (layoutOf (sampleObject elf32)).WellFormed (sampleObject elf32) ∧
    (layoutOf (sampleObject elf32)).text (sampleObject elf32) = some [0x67, 0x80, 0, 0] ∧
    ¬ LoadsText sampleEnv sampleAttr (parseAndLoad sampleEnv (sampleObject elf32) sampleAttr)
      [0x67, 0x80, 0, 0] := by
  have hlayout : layoutOf (sampleObject elf32) = elf32 := by decide +kernel
  refine ⟨?_, ?_, ?_⟩
  · rw [hlayout]
    exact sampleObject32_wellFormed
  · decide +kernel
  · exact not_loadsText_of_class32 sampleObject32_wellFormed (by decide +kernel) sampleEnv sampleAttr _

end Samples

end MerlinV.Kernel
