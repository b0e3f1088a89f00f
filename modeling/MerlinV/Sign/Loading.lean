import MerlinV.Elf.Shows
import MerlinV.Kernel.System
import MerlinV.Objtool.Signed
import MerlinV.Verify.Command
import MerlinV.Zephyr.Handles
import MerlinV.Zephyr.LoaderReads

/-! # Signed objects in front of the loaders

The file that `merlin-sign` writes names the program that the file it has read names.  Both loaders load the program
that the format names, so no run of either system tells a signed object from the object.
-/
namespace MerlinV

open Lib (Byte Bytes Rd)

variable {C : SignCrypto} {libelf : Libelf}

section Copies

variable {L : Elf.Layout} {blob blob' sigBytes : Bytes} {o o' : ElfObject} {header : SigHeader}

variable (C libelf L blob blob') in
/-- `blob'` is what `merlin-sign` writes for `blob`, a well-formed file whose header has the number of its sections. -/
structure SignedCopy : Prop where
  wellFormed : L.WellFormed blob
  counted : L.shnum blob ≠ 0
  signed : ∃ (priv : Option C.scheme.Priv) (keyId : BitVec 32) (o o' : ElfObject), L.Shows blob o ∧ o.Fits ∧
    (∀ s ∈ o.texts, s.shType ≠ shtNull) ∧ cmdSign C libelf priv keyId o = some o' ∧ L.Shows blob' o'

theorem embed_nameOf (hL : libelf.Faithful) (hfit : o.Fits)
    (hembed : merlinSigEmbed libelf o header sigBytes = some o') : ∀ s ∈ o'.sections, (o'.nameOf s).isSome = true := by
  obtain ⟨table, hviews⟩ := embed_views hL hfit hembed
  intro s hs
  have hmem : o'.viewOf s ∈ o'.views := List.mem_map_of_mem hs
  rw [hviews] at hmem
  change (o'.viewOf s).name.isSome = true
  rcases List.mem_append.mp hmem with hkept | htail
  · obtain ⟨v, -, hv⟩ := List.mem_filterMap.mp hkept
    rw [(keep_spec hv).1]
    rfl
  · rcases List.mem_pair.mp htail with hsig | hstr
    · rw [hsig]
      rfl
    · rw [hstr]
      rfl

/-- A signed object has the sections that were read, the signature and the string table. -/
theorem embed_count (hL : libelf.Faithful) (hfit : o.Fits)
    (hembed : merlinSigEmbed libelf o header sigBytes = some o') :
    o'.sections.length = o.readAllSections.length + 2 := by
  obtain ⟨table, hviews⟩ := embed_views hL hfit hembed
  have hlen := congrArg List.length hviews
  rw [← readAllSections_views, List.length_append, List.length_map, ElfObject.views, List.length_map] at hlen
  exact hlen

/-- A signed copy is a well-formed file with the same program. -/
theorem SignedCopy.spec (h : SignedCopy C libelf L blob blob') (hL : libelf.Faithful) :
    L.WellFormed blob' ∧ L.shnum blob' ≠ 0 ∧ L.text blob' = L.text blob := by
  obtain ⟨priv, keyId, o, o', hshows, hfit, hnull, hsign, hshows'⟩ := h.signed
  cases priv with
  | none => cases hsign
  | some sk =>
    have hembed : merlinSigEmbed libelf o (signHeader keyId o.signedTotal)
        (C.scheme.sign sk (C.sha256 o.signedRegion)).toList = some o' := hsign
    obtain ⟨-, -, -, -, -, hrel, -⟩ := embed_written hL hfit hembed
    have hnamed := embed_nameOf hL hfit hembed
    have hcount := embed_count hL hfit hembed
    have hsmall : L.count blob' < Elf.shnLoreserve := by
      have hfew := hfit.count
      rw [← hshows'.count, hcount]
      exact hfew
    have hriscv : o'.eMachine.toNat = Elf.emRiscv := by
      rw [Objtool.embed_machine hL hfit hembed, hshows.eMachine]
      exact h.wellFormed.riscv
    have hprog : Elf.program o'.views = Elf.program o.views := by
      unfold Elf.program
      rw [embed_textViews hL hfit hnull hembed]
    have htext := hshows.text_eq (hshows.nameTable h.wellFormed) (hshows.named h.wellFormed)
    have hsome : (Elf.program o'.views).isSome = true := by
      rw [hprog, ← htext]
      exact h.wellFormed.text_isSome
    have hw := hshows'.wellFormed hrel hriscv hsmall hnamed hsome
    refine ⟨hw, ?_, ?_⟩
    · rw [hshows'.counted hsmall, ← hshows'.count]
      exact Nat.succ_ne_zero _
    · rw [hshows'.text_eq (hshows'.nameTable hw) hnamed, hprog, htext]

theorem SignedCopy.loadable (h : SignedCopy C libelf L blob blob') :
    (∀ i < L.count blob, L.type blob i = Elf.shtProgbits → L.Loadable blob i) ∧
      ∀ i < L.count blob', L.type blob' i = Elf.shtProgbits → L.Loadable blob' i := by
  obtain ⟨_, _, o, o', hshows, -, -, -, hshows'⟩ := h.signed
  exact ⟨fun _ => hshows.loadable, fun _ => hshows'.loadable⟩

end Copies

namespace Kernel

variable {blob blob' : Bytes} {k : KernelBuild} {i : LoadInput} {attr : LoadAttr}

section Load

/-- From the text on a load does not look at the object. -/
theorem val_parseAndLoad (env : LoadEnv) (blob : Bytes) (attr : LoadAttr) : (parseAndLoad env blob attr).val =
    ((locateText blob).val.map fun sec => (blob.drop sec.off).take sec.len).bind fun text =>
      if attr.logBuf = 0 ∨ attr.logSize = 0 ∨ env.logAlloc = true then .ok (verifyAndInstall env attr text)
      else .error .enomem := by
  unfold parseAndLoad
  cases hsec : (locateText blob).val with
  | error e => exact Rd.val_bind_error hsec _
  | ok sec =>
    rw [Rd.val_bind_ok hsec, Rd.val_require_bind, Rd.val_slice_bind]
    rfl

/-- What is located in a well-formed object whose programs start before its end is the program that the format names,
unless it is too long. -/
theorem locateText_of_wellFormed (hw : Elf.elf64.WellFormed blob) (hn : Elf.elf64.shnum blob ≠ 0)
    (hload : ∀ i < Elf.elf64.count blob, Elf.elf64.type blob i = Elf.shtProgbits → Elf.elf64.Loadable blob i) :
    ∃ c, Elf.elf64.text blob = some c ∧ (locateText blob).val.map (fun sec => (blob.drop sec.off).take sec.len) =
      if c.length ≤ maxInsns * 4 then .ok c else .error .e2big := by
  obtain ⟨i, hi⟩ := hw.exists_textIndex
  obtain ⟨-, htext, -⟩ := Elf.Layout.textIndex_eq_some.mp hi
  obtain ⟨nm, hlocate⟩ := locateText_of_loadIndex hw hn ((Elf.Layout.loadIndex_eq_textIndex hload).trans hi)
  refine ⟨Elf.elf64.contents blob i, ?_, ?_⟩
  · rw [Elf.Layout.text, hi, Option.map_some]
  · rw [hlocate, htext.2.1.length_contents]
    split_ifs <;> rfl

theorem merlinProgLoad_signed (hL : libelf.Faithful) (h : SignedCopy C libelf Elf.elf64 blob blob')
    (hsize : blob.length ≤ maxElfSize) (hsize' : blob'.length ≤ maxElfSize) :
    (merlinProgLoad k i blob' attr).val = (merlinProgLoad k i blob attr).val := by
  obtain ⟨hw, hn, htext⟩ := h.spec hL
  obtain ⟨hload, hload'⟩ := h.loadable
  obtain ⟨c, hc, hval⟩ := locateText_of_wellFormed h.wellFormed h.counted hload
  obtain ⟨c', hc', hval'⟩ := locateText_of_wellFormed hw hn hload'
  obtain rfl : c' = c := Option.some.inj (hc'.symm.trans (htext.trans hc))
  have hne : blob.length ≠ 0 := (Nat.lt_of_lt_of_le (by decide) h.wellFormed.ehdr).ne'
  have hne' : blob'.length ≠ 0 := (Nat.lt_of_lt_of_le (by decide) hw.ehdr).ne'
  unfold merlinProgLoad
  simp only [Rd.val_require_bind, val_parseAndLoad, hval, hval']
  rw [if_pos hne, if_pos hne', if_pos hsize, if_pos hsize']

end Load

section Runs

variable {e e' : KernelEvent}

variable (C libelf) in
/-- The same step, or a load of a signed copy in place of the object. -/
inductive KernelEvent.Signs : KernelEvent → KernelEvent → Prop where
  | load {blob blob' : Bytes} (attr : LoadAttr) (input : LoadInput) (copy : SignedCopy C libelf Elf.elf64 blob blob')
      (size : blob.length ≤ maxElfSize) (size' : blob'.length ≤ maxElfSize) :
      Signs (.load blob attr input) (.load blob' attr input)
  | same (e : KernelEvent) : Signs e e

theorem kernelStep_signed (hL : libelf.Faithful) (h : e.Signs C libelf e') (w : KernelWorld) :
    kernelStep k w e' = kernelStep k w e := by
  cases h with
  | load attr input copy size size' =>
    dsimp only [kernelStep]
    rw [merlinProgLoad_signed hL copy size size']
  | same => rfl

/-- No run of the kernel tells signed objects from the objects: it takes the same steps to the same state, program
for program, when any of its loads are given signed copies. -/
theorem kernelRun_signed (C : SignCrypto) (libelf : Libelf) (hL : libelf.Faithful) (k : KernelBuild) (w : KernelWorld)
    (es es' : List KernelEvent) (h : List.Forall₂ (KernelEvent.Signs C libelf) es es') :
    kernelRun k w es' = kernelRun k w es := by
  induction h generalizing w with
  | nil => rfl
  | @cons e e' es es' he hes ih =>
    rw [kernelRun, kernelRun, kernelStep_signed hL he w]
    congr 1
    funext w'
    exact ih w'

end Runs

end Kernel

namespace Zephyr

variable {blob blob' : Bytes} {n i : ℕ} {K : Kconfig}

section Load

open Elf

/-- A well-formed object that keeps its section count in the header passes the checks. -/
theorem strtabOk_of_wellFormed (hw : elf32.WellFormed blob) (hn : elf32.shnum blob ≠ 0) : StrtabOk blob := by
  obtain ⟨hcount, hndx⟩ := hw.header hn
  have hpos := hw.strndx_pos
  have hlt := hw.strndx_lt
  have htable := hw.table
  have hstrtab := hw.strtab
  have hin := hw.strtab_inFile
  rw [hcount] at hlt htable
  rw [hndx] at hpos hlt hstrtab hin
  exact ⟨hw.ehdr, hw.magic, hw.cls, hw.data, hw.rel, hw.riscv, hw.shdr, htable, ⟨hpos.ne', hlt⟩, hstrtab, hin⟩

theorem taken_iff_isText (hw : elf32.WellFormed blob) (hn : elf32.shnum blob ≠ 0)
    (hin : ∀ i < elf32.count blob, elf32.type blob i = Elf.shtProgbits → elf32.InFile blob i)
    (hi : i < elf32.shnum blob) : Taken blob i ↔ elf32.IsText blob i := by
  obtain ⟨hcount, hndx⟩ := hw.header hn
  have hzero := hw.names i (by omega)
  have hlist : (elf32.contents blob (elf32.strndx blob)).drop (elf32.name blob i) =
      (blob.drop (elf32.offset blob (elf32.shstrndx blob) + elf32.name blob i)).take
        (elf32.size blob (elf32.shstrndx blob) - elf32.name blob i) := by
    rw [hndx, Layout.contents, List.drop_take, List.drop_drop]
  have hname : elf32.name blob i < elf32.size blob (elf32.shstrndx blob) := by
    have hlen := List.length_pos_of_mem hzero
    rw [hlist, List.length_take] at hlen
    omega
  rw [hlist] at hzero
  have hsame : merlinTextPrefix <+: elf32.secName blob i ↔
      merlinTextPrefix <+: blob.drop (elf32.offset blob (elf32.shstrndx blob) + elf32.name blob i) := by
    rw [Layout.secName, hlist, prefix_takeWhile_iff zero_notMem_merlinTextPrefix,
      Kernel.prefix_take_iff zero_notMem_merlinTextPrefix hzero]
  unfold Layout.IsText
  rw [hsame]
  constructor
  · rintro ⟨p, ⟨-, -, htype, -, rfl⟩, hp⟩
    exact ⟨htype, hin i (by omega) htype, hp⟩
  · rintro ⟨htype, -, hp⟩
    refine ⟨_, ⟨?_, hi, htype, hname, rfl⟩, hp⟩
    by_contra h0
    obtain rfl : i = 0 := by omega
    exact absurd (htype.symm.trans hw.null) (by decide)

theorem walk_of_taken (htaken : Taken blob i) (hin : elf32.offset blob i + elf32.size blob i ≤ blob.length)
    (is : List ℕ) : ∃ name, (walk blob (i :: is)).val = .ok ⟨elf32.offset blob i, elf32.size blob i, name⟩ := by
  obtain ⟨p, ⟨-, -, htype, hname, rfl⟩, hpre⟩ := htaken
  generalize hq : elf32.offset blob (elf32.shstrndx blob) + elf32.name blob i = q at hpre
  have hcmp : (Rd.strncmp blob merlinTextPrefix q : Rd Status Bool).val = _ :=
    Rd.val_strncmp zero_notMem_merlinTextPrefix blob q
  obtain ⟨name, hcopy⟩ := @Rd.exists_val_copyString Status blob 63 q
  refine ⟨name, ?_⟩
  rw [walk_cons, val_readType_bind, if_neg (not_not.mpr htype), val_readName_bind, if_neg (not_le.mpr hname), hq,
    Rd.val_bind_ok hcmp]
  simp only [hpre, decide_true, Bool.not_true, Bool.false_eq_true, if_false]
  rw [val_readOffset_bind, val_readSize_bind, Rd.val_require_bind, if_pos hin, Rd.val_bind_ok hcopy]
  rfl

theorem walk_takes (h : StrtabOk blob) (htaken : Taken blob i)
    (hin : elf32.offset blob i + elf32.size blob i ≤ blob.length) (hfirst : ∀ j < i, ¬ Taken blob j) (m : ℕ) {s : ℕ}
    (hpos : 0 < s) (hm : s + m ≤ elf32.shnum blob) (hs : s ≤ i) (hi : i < s + m) :
    ∃ name, (walk blob (List.range' s m)).val = .ok ⟨elf32.offset blob i, elf32.size blob i, name⟩ := by
  induction m generalizing s with
  | zero => omega
  | succ m ih =>
    rw [List.range'_succ]
    rcases Nat.eq_or_lt_of_le hs with rfl | hlt
    · exact walk_of_taken htaken hin _
    · -- a section in front of `i` is passed over, its name compared or not
      by_cases hcomp : ∃ p, Compared blob s p
      · obtain ⟨p, hp⟩ := hcomp
        rw [((walk_of_compared h hp _).1 fun hpre => hfirst s hlt ⟨p, hp, hpre⟩).1]
        exact ih (by omega) (by omega) (by omega) (by omega)
      · rw [(walk_of_not_compared h hpos (by omega) (fun p hp => hcomp ⟨p, hp⟩) _).1]
        exact ih (by omega) (by omega) (by omega) (by omega)

/-- What is found in a well-formed object is the program that the format names. -/
theorem findFirstTextSection_of_wellFormed (hw : elf32.WellFormed blob) (hn : elf32.shnum blob ≠ 0)
    (hin : ∀ i < elf32.count blob, elf32.type blob i = Elf.shtProgbits → elf32.InFile blob i) :
    ∃ c off name, elf32.text blob = some c ∧ (findFirstTextSection blob).val = .ok ⟨off, c.length, name⟩ ∧
      (blob.drop off).take c.length = c := by
  have hok := strtabOk_of_wellFormed hw hn
  obtain ⟨hcount, -⟩ := hw.header hn
  obtain ⟨c, hc⟩ := Option.isSome_iff_exists.mp hw.text_isSome
  obtain ⟨i, hi, rfl⟩ := Option.map_eq_some_iff.mp hc
  obtain ⟨hlt, htext, hfirst⟩ := Layout.textIndex_eq_some.mp hi
  rw [hcount] at hlt
  have htaken := (taken_iff_isText hw hn hin hlt).mpr htext
  have hbefore : ∀ j < i, ¬ Taken blob j := fun j hj hjt =>
    hfirst j hj ((taken_iff_isText hw hn hin (hj.trans hlt)).mp hjt)
  have hpos : 0 < i := by
    obtain ⟨p, hp, -⟩ := htaken
    exact hp.1
  obtain ⟨name, hwalk⟩ := walk_takes hok htaken htext.2.1 hbefore (elf32.shnum blob - 1) Nat.one_pos (by omega) hpos
    (by omega)
  have hlen := htext.2.1.length_contents
  refine ⟨_, elf32.offset blob i, name, hc, ?_, ?_⟩
  · rw [findFirstTextSection, Rd.val_bind_ok (val_checkHeader_of_ok hok), val_readShoff_bind, val_readShentsize_bind,
      val_readShnum_bind, hlen]
    exact hwalk
  · rw [hlen]
    rfl

theorem val_readText {c : Bytes} {off : ℕ} {name : Bytes} {call : LoadCall} (hblob : call.blob = some blob)
    (hfind : (findFirstTextSection blob).val = .ok ⟨off, c.length, name⟩) (hc : (blob.drop off).take c.length = c)
    (hne : blob.length ≠ 0) (hsize : blob.length ≤ 64 * 1024) : (readText K call).val =
      if call.hasProgOut = true ∧ call.hasInfo = true then
        if c.length ≠ 0 ∧ c.length % 4 = 0 then if c.length ≤ K.maxProgBytes then .ok c else .error .e2big
        else .error .inval
      else .error .inval := by
  unfold readText
  rw [hblob]
  simp only [Rd.val_require_bind, Rd.val_bind_ok hfind, Rd.val_slice, hc, hne, hsize, ne_eq, not_false_eq_true,
    true_and, if_true]

theorem merlinProgLoad_signed (hL : libelf.Faithful) (h : SignedCopy C libelf elf32 blob blob')
    (hsize : blob.length ≤ 64 * 1024) (hsize' : blob'.length ≤ 64 * 1024) (rt : Runtime n) (call : LoadCall) :
    (merlinProgLoad K rt { call with blob := some blob' }).val =
      (merlinProgLoad K rt { call with blob := some blob }).val := by
  obtain ⟨hw, hn, htext⟩ := h.spec hL
  obtain ⟨hload, hload'⟩ := h.loadable
  have hin := fun i hi hp => (hload i hi hp).inFile
  have hin' := fun i hi hp => (hload' i hi hp).inFile
  obtain ⟨c, off, name, hc, hfind, hbytes⟩ := findFirstTextSection_of_wellFormed h.wellFormed h.counted hin
  obtain ⟨c', off', name', hc', hfind', hbytes'⟩ := findFirstTextSection_of_wellFormed hw hn hin'
  obtain rfl : c' = c := Option.some.inj (hc'.symm.trans (htext.trans hc))
  have hehdr : 52 ≤ blob.length := h.wellFormed.ehdr
  have hehdr' : 52 ≤ blob'.length := hw.ehdr
  have hread : (readText K { call with blob := some blob' }).val =
      (readText K { call with blob := some blob }).val := by
    rw [val_readText rfl hfind' hbytes' (by omega) hsize', val_readText rfl hfind hbytes (by omega) hsize]
  unfold merlinProgLoad
  cases htext : (readText K { call with blob := some blob }).val with
  | error e => rw [Rd.val_bind_error htext, Rd.val_bind_error (hread.trans htext)]
  | ok text =>
    rw [Rd.val_bind_ok htext, Rd.val_bind_ok (hread.trans htext)]

end Load

section Runs

variable {c c' : Call n}

def replies (K : Kconfig) : Runtime n → List (Call n) → List (Reply n)
  | _, [] => []
  | rt, c :: cs => (call K rt c).1 :: replies K (call K rt c).2 cs

variable (C libelf) in
/-- The same call, or a load of a signed copy in place of the object. -/
inductive Call.Signs : Call n → Call n → Prop where
  | load {blob blob' : Bytes} (c : LoadCall) (copy : SignedCopy C libelf Elf.elf32 blob blob')
      (size : blob.length ≤ 64 * 1024) (size' : blob'.length ≤ 64 * 1024) :
      Signs (.load { c with blob := some blob }) (.load { c with blob := some blob' })
  | same (c : Call n) : Signs c c

theorem call_signed (hL : libelf.Faithful) (h : c.Signs C libelf c') (rt : Runtime n) : call K rt c' = call K rt c := by
  cases h with
  | load c copy size size' =>
    unfold call
    dsimp only
    rw [merlinProgLoad_signed hL copy size size' rt c]
  | same => rfl

/-- No run of the RTOS runtime tells signed objects from the objects: every call has the same reply, and the slots hold
the same programs, when any of its loads are given signed copies. -/
theorem replies_signed (C : SignCrypto) (libelf : Libelf) (hL : libelf.Faithful) (K : Kconfig) (rt : Runtime n)
    (calls calls' : List (Call n)) (h : List.Forall₂ (Call.Signs C libelf) calls calls') :
    replies K rt calls' = replies K rt calls ∧ runFrom K rt calls' = runFrom K rt calls := by
  induction h generalizing rt with
  | nil => exact ⟨rfl, rfl⟩
  | @cons c c' cs cs' hc hcs ih =>
    obtain ⟨hreplies, hrun⟩ := ih (call K rt c).2
    constructor
    · rw [replies, replies, call_signed hL hc rt, hreplies]
    · change runFrom K (call K rt c').2 cs' = runFrom K (call K rt c).2 cs
      rw [call_signed hL hc rt, hrun]

end Runs

end Zephyr

section Samples

open Lib (leBytes)

def sectionHeaders (L : Elf.Layout) : ℕ → List ElfSection → Bytes
  | _, [] => []
  | off, s :: ss => Kernel.sampleShdr L s.shName s.shType.toNat off s.contents.length ++
      sectionHeaders L (off + s.contents.length) ss

def fileOf (L : Elf.Layout) (o : ElfObject) : Bytes :=
  let count := o.sections.length + 1
  Elf.elfMag ++ [L.cls, Elf.elfData2Lsb, 1] ++ List.replicate 9 0 ++ leBytes 2 o.eType.toNat ++
    leBytes 2 o.eMachine.toNat ++ leBytes 4 1 ++ List.replicate (L.eShoff - 24) 0 ++ leBytes L.addr L.ehdrSize ++
    leBytes 4 0 ++ leBytes 2 L.ehdrSize ++ leBytes 2 0 ++ leBytes 2 0 ++ leBytes 2 L.shdrSize ++ leBytes 2 count ++
    leBytes 2 o.shstrndx ++ Kernel.sampleShdr L 0 Elf.shtNull 0 0 ++
    sectionHeaders L (L.ehdrSize + count * L.shdrSize) o.sections ++ o.sections.flatMap ElfSection.contents

def retObject (L : Elf.Layout) : ElfObject :=
  assembleObject L.cls 243 [⟨cstr ".text.merlin.a", [0x67, 0x80, 0, 0], shtProgbits, 6⟩]

def signedRetObject (L : Elf.Layout) : ElfObject :=
  (cmdSign openSignCrypto plainLibelf (some ()) 7 (retObject L)).getD (retObject L)

theorem retObject_copy {L : Elf.Layout} (hL : L = Elf.elf32 ∨ L = Elf.elf64) :
    SignedCopy openSignCrypto plainLibelf L (fileOf L (retObject L)) (fileOf L (signedRetObject L)) := by
  have hsign : cmdSign openSignCrypto plainLibelf (some ()) 7 (retObject L) = some (signedRetObject L) := rfl
  have hshows : L.Shows (fileOf L (retObject L)) (retObject L) := by
    rcases hL with rfl | rfl <;> constructor
    case toFramed | toFramed => constructor <;> decide +kernel
    all_goals decide +kernel
  have hshows' : L.Shows (fileOf L (signedRetObject L)) (signedRetObject L) := by
    rcases hL with rfl | rfl <;> constructor
    case toFramed | toFramed => constructor <;> decide +kernel
    all_goals decide +kernel
  have hw : L.WellFormed (fileOf L (retObject L)) := by
    rcases hL with rfl | rfl <;> constructor <;> decide +kernel
  have hfit : (retObject L).Fits ∧ (∀ s ∈ (retObject L).texts, s.shType ≠ shtNull) ∧
      L.shnum (fileOf L (retObject L)) ≠ 0 := by
    rcases hL with rfl | rfl <;> exact ⟨⟨by decide +kernel, by decide +kernel⟩, by decide +kernel, by decide +kernel⟩
  exact ⟨hw, hfit.2.2, some (), 7, _, _, hshows, hfit.1, hfit.2.1, hsign, hshows'⟩

def loadRun (blob : Bytes) : List Kernel.KernelEvent :=
  [.load blob Kernel.sampleAttr Kernel.sampleInput, .loadReturns 0]

open Kernel in
theorem kernelRun_signed_sample :
    kernelRun sampleBuild .init (loadRun (fileOf Elf.elf64 (signedRetObject Elf.elf64))) =
        kernelRun sampleBuild .init (loadRun (fileOf Elf.elf64 (retObject Elf.elf64))) ∧
      ((kernelRun sampleBuild .init (loadRun (fileOf Elf.elf64 (retObject Elf.elf64)))).any fun w =>
        w.programs.length = 1) = true :=
  ⟨kernelRun_signed openSignCrypto plainLibelf plainLibelf_faithful sampleBuild .init
      (loadRun (fileOf Elf.elf64 (retObject Elf.elf64))) (loadRun (fileOf Elf.elf64 (signedRetObject Elf.elf64)))
      (.cons (.load sampleAttr sampleInput (retObject_copy (.inr rfl)) (by decide +kernel) (by decide +kernel))
        (.cons (.same _) .nil)), by decide +kernel⟩

open Zephyr in
theorem replies_signed_sample :
    replies oneSlot (merlinInit 1) [.load ⟨some (fileOf Elf.elf32 (signedRetObject Elf.elf32)), none, true, true, true⟩,
        .run (some 0) lengthRun] = [.loaded 0 ⟨1, 4, 1, 0⟩, .ran [0x67, 0x80, 0, 0] 4] := by
  have hsame := (replies_signed openSignCrypto plainLibelf plainLibelf_faithful oneSlot (merlinInit 1)
    [.load ⟨some (fileOf Elf.elf32 (retObject Elf.elf32)), none, true, true, true⟩, .run (some 0) lengthRun]
    [.load ⟨some (fileOf Elf.elf32 (signedRetObject Elf.elf32)), none, true, true, true⟩, .run (some 0) lengthRun]
    (.cons (.load ⟨none, none, true, true, true⟩ (retObject_copy (.inl rfl)) (by decide +kernel) (by decide +kernel))
      (.cons (.same _) .nil))).1
  exact hsame.trans (by decide +kernel)

end Samples

end MerlinV
