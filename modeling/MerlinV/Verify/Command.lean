import MerlinV.Objtool.Validate
import MerlinV.Sign.Embed
import MerlinV.Verify.Offset

/-! # The command line of the verifier

`tools/merlin-verifier/merlin-verifier.c` on an object that libelf has opened: the sections that are programs, what is
verified of each, and the exit status.  The policy is that of `mvdp`, the only one the options allow.  Sections move
when an object is signed; what the command says of it does not change.
-/
namespace MerlinV

open Lib
open Objtool (ElfObj elfGetdata elfdata2lsb)

/-- A section that is a program: its name, its header and where it stands in the file. -/
structure ObjProgram where
  sname : Bytes
  scn : ElfSection
  shOffset : BitVec 64

def callbackPrefix : Bytes := cstr ".text.merlin.cb."

/-- The sections that the loop over the object takes; `sections[k]` stands at `place k`. -/
def ElfObject.programs (o : ElfObject) (place : ℕ → BitVec 64) : List ObjProgram :=
  o.sections.zipIdx.filterMap fun si => (o.nameOf si.1).bind fun sname =>
    if textPrefix.isPrefixOf sname then some ⟨sname, si.1, place si.2⟩ else none

def programCfg (cfg : VerifierCfg) (sname : Bytes) : VerifierCfg :=
  if callbackPrefix.isPrefixOf sname then { cfg with isCallbackBody := true } else cfg

/-- `verify_one`; `none` when `fuel` iterations of the worklist are not enough. -/
def verifyOne (cfg : VerifierCfg) (fuel : ℕ) (p : ObjProgram) : Option ℕ :=
  match elfGetdata p.scn with
  | none => some 1
  | some d =>
    if d.buf.isNone || d.size = 0 then some 1
    else (merlinVerifyText merlinDecoder (programCfg cfg p.sname) d.bytes (p.shOffset.setWidth 32) fuel).map fun rc =>
      if rc = .ok then 0 else 1

/-- `main` behind its options: the exit status. -/
def merlinVerifier (obj : ElfObj) (place : ℕ → BitVec 64) (fuel : ℕ) : Option ℕ :=
  if obj.eiData ≠ elfdata2lsb then some 2
  else ((obj.object.programs place).mapM (verifyOne merlinVerifierCfgInitForMvdp fuel)).map fun rcs =>
    if rcs = [] then 2 else if rcs.any (· ≠ 0) then 1 else 0

/-- The offset of a program, as `verify_one` truncates it, is behind the header and its text below 4 GiB. -/
def ObjProgram.Placed (p : ObjProgram) : Prop :=
  0 < (p.shOffset.setWidth 32).toNat ∧ (p.shOffset.setWidth 32).toNat + p.scn.contents.length ≤ 2 ^ 32

instance (p : ObjProgram) : Decidable p.Placed :=
  inferInstanceAs (Decidable (0 < (p.shOffset.setWidth 32).toNat ∧
    (p.shOffset.setWidth 32).toNat + p.scn.contents.length ≤ 2 ^ 32))

section Views

variable {o o' : ElfObject} {place place' : ℕ → BitVec 64} {cfg : VerifierCfg} {fuel : ℕ}

def ObjProgram.view (p : ObjProgram) : SectionView := ⟨some p.sname, p.scn.shType, p.scn.contents⟩

/-- `verify_one` from what signing keeps of a section: the text is taken to stand at offset `1`. -/
def viewVerdict (cfg : VerifierCfg) (fuel : ℕ) (v : SectionView) : Option ℕ :=
  if v.contents = [] then some 1
  else (merlinVerifyText merlinDecoder (programCfg cfg (v.name.getD [])) v.contents 1 fuel).map fun rc =>
    if rc = .ok then 0 else 1

/-- The text of a program that stands in the file is verified as it would be anywhere. -/
theorem verifyOne_eq {p : ObjProgram} (hp : p.Placed) : verifyOne cfg fuel p = viewVerdict cfg fuel p.view := by
  obtain ⟨hpos, hfits⟩ := hp
  unfold verifyOne viewVerdict
  by_cases hn : p.scn.shType = shtNobits
  · have hempty : p.view.contents = [] := by
      simp [ObjProgram.view, ElfSection.contents, ElfSection.getdata, hn]
    simp [elfGetdata, hn, hempty]
  · cases hd : p.scn.data with
    | none =>
      have hempty : p.view.contents = [] := by
        simp [ObjProgram.view, ElfSection.contents, ElfSection.getdata, hd]
      simp [elfGetdata, hn, hd, hempty]
    | some bytes =>
      have hbytes : p.scn.contents = bytes := by
        simp [ElfSection.contents, ElfSection.getdata, hn, hd]
      rw [hbytes] at hfits
      have hone : NoZeroSuccessor merlinDecoder bytes 1 := noZeroSuccessor_of_fits (by decide) (by
        change 1 + bytes.length ≤ 2 ^ 32
        omega)
      have hmoved := merlinVerifyText_shift merlinDecoder_blindToPc (programCfg cfg p.sname) hone
        (noZeroSuccessor_of_fits hpos hfits) fuel
      by_cases hempty : bytes = []
      · simp [elfGetdata, hn, hd, ObjProgram.view, hbytes, hempty]
      · simp [elfGetdata, hn, hd, ObjProgram.view, hbytes, hempty, Objtool.ElfData.bytes, hmoved]

theorem zipIdx_programs (nameOf : ElfSection → Option Bytes) (place : ℕ → BitVec 64) (ss : List ElfSection)
    (k : ℕ) : ((ss.zipIdx k).filterMap fun si => (nameOf si.1).bind fun sname =>
        if textPrefix.isPrefixOf sname then some (⟨sname, si.1, place si.2⟩ : ObjProgram) else none).map
      ObjProgram.view =
    (ss.map fun s => (⟨nameOf s, s.shType, s.contents⟩ : SectionView)).filter SectionView.isText := by
  induction ss generalizing k with
  | nil => rfl
  | cons s ss ih =>
    rw [List.zipIdx_cons, List.map_cons, List.filterMap_cons, List.filter_cons]
    cases hn : nameOf s with
    | none => exact ih (k + 1)
    | some sname =>
      have hrest := ih (k + 1)
      cases ht : textPrefix.isPrefixOf sname with
      | true =>
        simp only [Option.bind_some, ht, if_true, List.map_cons, SectionView.isText]
        rw [hrest]
        rfl
      | false =>
        simp only [Option.bind_some, ht, Bool.false_eq_true, if_false, SectionView.isText]
        exact hrest

theorem programs_view (o : ElfObject) (place : ℕ → BitVec 64) :
    (o.programs place).map ObjProgram.view = o.views.filter SectionView.isText :=
  zipIdx_programs o.nameOf place o.sections 0

theorem mapM_verifyOne {ps : List ObjProgram} (hps : ∀ p ∈ ps, p.Placed) :
    ps.mapM (verifyOne cfg fuel) = (ps.map ObjProgram.view).mapM (viewVerdict cfg fuel) := by
  induction ps with
  | nil => rfl
  | cons p ps ih =>
    obtain ⟨hp, hps⟩ := List.forall_mem_cons.mp hps
    rw [List.map_cons, List.mapM_cons, List.mapM_cons, verifyOne_eq hp, ih hps]

/-- The exit status, from the text sections alone. -/
theorem merlinVerifier_eq (hplaced : ∀ p ∈ o.programs place, p.Placed) :
    merlinVerifier ⟨elfdata2lsb, o⟩ place fuel = ((o.views.filter SectionView.isText).mapM
      (viewVerdict merlinVerifierCfgInitForMvdp fuel)).map fun rcs =>
        if rcs = [] then 2 else if rcs.any (· ≠ 0) then 1 else 0 := by
  unfold merlinVerifier
  rw [if_neg (by simp), mapM_verifyOne hplaced, programs_view]

theorem embed_textViews {L : Libelf} {header : SigHeader} {sigBytes : Bytes} (hL : L.Faithful) (hfit : o.Fits)
    (hnull : ∀ s ∈ o.texts, s.shType ≠ shtNull) (hembed : merlinSigEmbed L o header sigBytes = some o') :
    o'.views.filter SectionView.isText = o.views.filter SectionView.isText := by
  obtain ⟨table, hviews⟩ := embed_views hL hfit hembed
  have htail : [(sigSection header sigBytes).view, (shstrtabSection table).view].filter SectionView.isText = [] := by
    rw [List.filter_eq_nil_iff]
    intro w hw
    rcases List.mem_pair.mp hw with rfl | rfl
    · change ¬ textPrefix.isPrefixOf sigName = true
      decide
    · change ¬ textPrefix.isPrefixOf shstrtabName = true
      decide
  rw [hviews, List.filter_append, htail, List.append_nil]
  apply filter_filterMap_keep
  · intro v w hv hw
    exact keep_isText hv hw
  · intro v hv htext
    have hmem : v ∈ o.texts.map o.viewOf := by
      rw [← filter_isText_views]
      exact List.mem_filter.mpr ⟨hv, htext⟩
    obtain ⟨s, hs, rfl⟩ := List.mem_map.mp hmem
    cases hn : (o.viewOf s).name with
    | none => simp [SectionView.isText, hn] at htext
    | some name =>
      obtain ⟨-, hstr, hsig⟩ := isText_kept (by simpa [SectionView.isText, hn] using htext)
      exact keep_self hn hstr hsig (hnull s hs)

end Views

/-- `merlin-verifier` says the same of a signed object as of the object, wherever their sections stand in the two
files: the same programs, in the same order, with the same verdicts, and so the same exit status. -/
theorem signed_same_status (C : SignCrypto) (L : Libelf) (hL : L.Faithful) (priv : Option C.scheme.Priv)
    (keyId : BitVec 32) (o o' : ElfObject) (hfit : o.Fits) (hnull : ∀ s ∈ o.texts, s.shType ≠ shtNull)
    (hsign : cmdSign C L priv keyId o = some o') (place place' : ℕ → BitVec 64)
    (hplaced : ∀ p ∈ o.programs place, p.Placed) (hplaced' : ∀ p ∈ o'.programs place', p.Placed) (fuel : ℕ) :
    (o'.programs place').mapM (verifyOne merlinVerifierCfgInitForMvdp fuel) =
        (o.programs place).mapM (verifyOne merlinVerifierCfgInitForMvdp fuel) ∧
      merlinVerifier ⟨elfdata2lsb, o'⟩ place' fuel = merlinVerifier ⟨elfdata2lsb, o⟩ place fuel := by
  cases priv with
  | none => cases hsign
  | some sk =>
    have hembed : merlinSigEmbed L o (signHeader keyId o.signedTotal)
        (C.scheme.sign sk (C.sha256 o.signedRegion)).toList = some o' := hsign
    have hviews := embed_textViews hL hfit hnull hembed
    constructor
    · rw [mapM_verifyOne hplaced, mapM_verifyOne hplaced', programs_view, programs_view, hviews]
    · rw [merlinVerifier_eq hplaced, merlinVerifier_eq hplaced', hviews]

section Samples

/-- An object with the guarded loop as its only program. -/
def loopObject : ElfObject :=
  (plainLibelf.write (assembleObject 2 243
    [⟨cstr ".text.merlin.mvdp.loop", Kernel.guardedLoopText, shtProgbits, 6⟩])).getD (assembleObject 2 243 [])

theorem loopObject_same_status : ∃ o', cmdSign openSignCrypto plainLibelf (some ()) 7 loopObject = some o' ∧
    merlinVerifier ⟨elfdata2lsb, o'⟩ (fun k => BitVec.ofNat 64 (0x100 * (k + 1))) 40 = some 0 := by
  obtain ⟨o', hsign⟩ : ∃ o', cmdSign openSignCrypto plainLibelf (some ()) 7 loopObject = some o' := ⟨_, rfl⟩
  have hplaced' : ∀ p ∈ o'.programs fun k => BitVec.ofNat 64 (0x100 * (k + 1)), p.Placed := by
    obtain rfl := Option.some.inj hsign
    decide +kernel
  have hsame := (signed_same_status openSignCrypto plainLibelf plainLibelf_faithful (some ()) 7 loopObject o'
    ⟨by decide +kernel, by decide +kernel⟩ (by decide +kernel) hsign (fun k => BitVec.ofNat 64 (0x40 * (k + 1)))
    (fun k => BitVec.ofNat 64 (0x100 * (k + 1))) (by decide +kernel) hplaced' 40).2
  exact ⟨o', hsign, hsame.trans (by decide +kernel)⟩

end Samples

end MerlinV
