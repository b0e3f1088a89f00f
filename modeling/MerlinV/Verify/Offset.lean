import MerlinV.Cfg.Shift
import MerlinV.Isa.KernelDecode
import MerlinV.Verify.Policy

/-! # From the object file to the kernel

`merlin-verifier` analyses a text at its offset in the file, the kernel analyses it at offset `0` and with a decoder
of its own.  An analysis reads nothing of a program counter but where the blocks are, so the offset decides nothing
as long as no block that is jumped to starts at the counter `0`, which the builder takes for "no successor"; and a
decoder is replaced by another where the two read the words of the text alike.
-/
namespace MerlinV

variable {D : Decoder} {cfg cfg' : VerifierCfg} {text : Text} {textOffset textOffset' : BitVec 32}
  {blocks blocks' : List Block}

section Moving

/-- The decoder carries the program counter along and decides nothing by it. -/
structure Decoder.BlindToPc (D : Decoder) : Prop where
  decode : ∀ w pc pc', D.decode w pc = (D.decode w pc').map fun insn => { insn with pc := pc }
  permitted : ∀ insn pc, D.permitted { insn with pc := pc } = D.permitted insn

theorem merlinDecoder_blindToPc : merlinDecoder.BlindToPc where
  decode w pc pc' := congrArg some (merlinDecode_pc w pc pc')
  permitted _ _ := rfl

theorem Kernel.merlinDecoder_blindToPc : Kernel.merlinDecoder.BlindToPc where
  decode := Kernel.merlinDecode_pc
  permitted _ _ := rfl

variable (textOffset) in
theorem verifyInsn_shift (hD : D.BlindToPc) (off : ℕ) : verifyInsn D text textOffset' off =
    (verifyInsn D text textOffset off).map fun insn => { insn with pc := pcAt textOffset' off } :=
  hD.decode _ _ _

/-- The transfer function does not look at the program counter. -/
theorem stepInsn_pc (hD : D.BlindToPc) (insn : Insn) (pc : BitVec 32) (st : VState) (p : BitVec 32) :
    stepInsn D cfg { insn with pc := pc } st p = stepInsn D cfg insn st p := by
  unfold stepInsn
  rw [hD.permitted]
  rfl

variable (textOffset) in
theorem insnLoop_shift (hD : D.BlindToPc) (offs : List ℕ) (r : BlockRun) :
    insnLoop D cfg text textOffset' offs r = insnLoop D cfg text textOffset offs r := by
  induction offs generalizing r with
  | nil => rfl
  | cons off offs ih =>
    rw [insnLoop, insnLoop, verifyInsn_shift textOffset hD]
    cases verifyInsn D text textOffset off with
    | none => exact ih _
    | some insn =>
      dsimp only [Option.map_some]
      rw [stepInsn_pc hD]
      split
      · rfl
      · exact ih _

theorem moved_sub (pc : BitVec 32) : pc + (textOffset' - textOffset) - textOffset' = pc - textOffset := by
  apply BitVec.eq_of_toNat_eq
  simp only [BitVec.toNat_sub, BitVec.toNat_add]
  omega

namespace Block.Shifted

variable {b b' : Block}

theorem blockOffsets (h : Block.Shifted (textOffset' - textOffset) b b') :
    blockOffsets text textOffset' b' = MerlinV.blockOffsets text textOffset b := by
  have hstart : b'.startPc - textOffset' = b.startPc - textOffset := by
    rw [h.startPc, moved_sub]
  have hend : b'.endPc - textOffset' = b.endPc - textOffset := by
    rw [h.endPc, moved_sub]
  rw [MerlinV.blockOffsets, MerlinV.blockOffsets, hstart, hend]

theorem applyPending {delta : BitVec 32} (h : Block.Shifted delta b b') (pending : BitVec 32) (ok : ℕ → Bool) :
    applyPending b' pending ok = MerlinV.applyPending b pending ok := by
  rw [MerlinV.applyPending, MerlinV.applyPending, h.succ0]

end Block.Shifted

theorem visit_shift (hD : D.BlindToPc)
    (h : List.Forall₂ (Block.Shifted (textOffset' - textOffset)) blocks blocks') (A : Analysis) (i : ℕ) :
    visit D cfg text textOffset' blocks' A i = visit D cfg text textOffset blocks A i := by
  unfold visit visitVia
  rw [succsOf_shift h]
  rcases Nat.lt_or_ge i blocks.length with hi | hi
  · have hi' : i < blocks'.length := h.length_eq ▸ hi
    have hs := h.get hi hi'
    simp only [List.get_eq_getElem] at hs
    rw [List.getElem?_eq_getElem hi, List.getElem?_eq_getElem hi']
    simp only [hs.blockOffsets, hs.applyPending, insnLoop_shift textOffset hD]
  · rw [List.getElem?_eq_none hi, List.getElem?_eq_none (h.length_eq ▸ hi)]

theorem verifyLoop_shift (hD : D.BlindToPc)
    (h : List.Forall₂ (Block.Shifted (textOffset' - textOffset)) blocks blocks') (fuel : ℕ) (A : Analysis) :
    verifyLoop D cfg text textOffset' blocks' fuel A = verifyLoop D cfg text textOffset blocks fuel A := by
  induction fuel generalizing A with
  | zero => rfl
  | succ fuel ih =>
    rw [verifyLoop, verifyLoop]
    cases wsPop A.queue with
    | none => rfl
    | some iq =>
      dsimp only
      rw [visit_shift hD h]
      cases visit D cfg text textOffset blocks { A with queue := iq.2 } iq.1 with
      | none => rfl
      | some A' => exact ih A'

/-- A text that can be built at one offset can be built at the other. -/
theorem merlinCfgBuild_error_shift {e : String} (h : merlinCfgBuild D text textOffset = .error e)
    (hz : NoZeroSuccessor D text textOffset) (hz' : NoZeroSuccessor D text textOffset') :
    ∃ e', merlinCfgBuild D text textOffset' = .error e' := by
  cases h' : merlinCfgBuild D text textOffset' with
  | error e' => exact ⟨e', rfl⟩
  | ok G' =>
    obtain ⟨G, hG, -⟩ := merlinCfgBuild_shift h' hz' hz
    rw [h] at hG
    cases hG

/-- The verdict does not depend on where the text stands. -/
theorem merlinVerifyText_shift (hD : D.BlindToPc) (cfg : VerifierCfg) (hz : NoZeroSuccessor D text textOffset)
    (hz' : NoZeroSuccessor D text textOffset') (fuel : ℕ) :
    merlinVerifyText D cfg text textOffset' fuel = merlinVerifyText D cfg text textOffset fuel := by
  unfold merlinVerifyText
  split
  · rfl
  cases hb : merlinCfgBuild D text textOffset with
  | error e =>
    obtain ⟨e', he'⟩ := merlinCfgBuild_error_shift hb hz hz'
    rw [he']
  | ok G =>
    obtain ⟨G', hb', hs⟩ := merlinCfgBuild_shift hb hz hz'
    have hn : G'.nblocks = G.nblocks := hs.blocks.length_eq.symm
    have hgate : ∀ A, verdict G' A = verdict G A := by
      intro A
      rw [verdict, verdict, gateRejects, gateRejects, hs.backEdges]
    rw [hb']
    dsimp only
    simp only [hn, hgate, verifyLoop_shift hD hs.blocks]

end Moving

section Zero

/-- No instruction of the text continues at its first one. -/
def StartsOnce (D : Decoder) (text : Text) : Prop := ∀ i < text.length / 4, (0 : ℤ) ∉ nextOffsets D text (4 * i)

instance (D : Decoder) (text : Text) : Decidable (StartsOnce D text) :=
  inferInstanceAs (Decidable (∀ i < text.length / 4, (0 : ℤ) ∉ nextOffsets D text (4 * i)))

/-- Behind offset `0`, and where the counters do not wrap, no counter is `0`. -/
theorem noZeroSuccessor_of_fits (hpos : 0 < textOffset.toNat) (hfits : textOffset.toNat + text.length ≤ 2 ^ 32) :
    NoZeroSuccessor D text textOffset := by
  intro i _ _ k hk _ hzero
  have h := congrArg BitVec.toNat hzero
  simp only [pcAt, BitVec.toNat_add, BitVec.toNat_ofNat] at h
  change _ = 0 at h
  omega

/-- At offset `0` only the first instruction has the counter `0`. -/
theorem noZeroSuccessor_of_startsOnce (hstart : StartsOnce D text) (hfits : text.length ≤ 2 ^ 32) :
    NoZeroSuccessor D text 0 := by
  intro i hi _ k hk hmem hzero
  have h := congrArg BitVec.toNat hzero
  simp only [pcAt, BitVec.toNat_add, BitVec.toNat_ofNat] at h
  change (0 + 4 * k % 2 ^ 32) % 2 ^ 32 = 0 at h
  obtain rfl : k = 0 := by omega
  exact hstart i hi hmem

end Zero

/-- The verdict does not depend on the offset of the text in its file, and the kernel verifier, which analyses the
text at offset `0`, gives the same one unless an instruction of the text continues at the first. -/
theorem verdict_of_offset (D : Decoder) (hD : D.BlindToPc) (cfg : VerifierCfg) (text : Text) (textOffset : BitVec 32)
    (hpos : 0 < textOffset.toNat) (hfits : textOffset.toNat + text.length ≤ 2 ^ 32) :
    (∀ textOffset' : BitVec 32, 0 < textOffset'.toNat → textOffset'.toNat + text.length ≤ 2 ^ 32 → ∀ fuel,
      merlinVerifyText D cfg text textOffset' fuel = merlinVerifyText D cfg text textOffset fuel) ∧
    (text ≠ [] → StartsOnce D text → Kernel.CounterFits D cfg text 0 → ∀ fuel,
      Kernel.merlinVerifyText D cfg text 0 fuel = merlinVerifyText D cfg text textOffset fuel) := by
  have hz := noZeroSuccessor_of_fits (D := D) hpos hfits
  constructor
  · intro textOffset' hpos' hfits' fuel
    exact merlinVerifyText_shift hD cfg hz (noZeroSuccessor_of_fits hpos' hfits') fuel
  · intro hne hstart hcount fuel
    have hz' := noZeroSuccessor_of_startsOnce hstart (by omega)
    rw [Kernel.merlinVerifyText_eq hne hcount, merlinVerifyText_shift hD cfg hz hz']

/-- A guarded loop, whose jump goes back to its third instruction. -/
theorem verdict_of_offset_guarded :
    (∀ fuel, merlinVerifyText merlinDecoder merlinVerifierCfgInitForMvdp Kernel.guardedLoopText 0x1000 fuel =
      merlinVerifyText merlinDecoder merlinVerifierCfgInitForMvdp Kernel.guardedLoopText 0x40 fuel) ∧
    (∀ fuel, merlinVerifyText Kernel.merlinDecoder merlinVerifierCfgInitForMvdp Kernel.guardedLoopText 0x1000 fuel =
      merlinVerifyText Kernel.merlinDecoder merlinVerifierCfgInitForMvdp Kernel.guardedLoopText 0x40 fuel) ∧
    ∀ fuel, Kernel.merlinVerifyText merlinDecoder merlinVerifierCfgInitForMvdp Kernel.guardedLoopText 0 fuel =
      merlinVerifyText merlinDecoder merlinVerifierCfgInitForMvdp Kernel.guardedLoopText 0x40 fuel := by
  have h := verdict_of_offset merlinDecoder merlinDecoder_blindToPc merlinVerifierCfgInitForMvdp
    Kernel.guardedLoopText 0x40 (by decide) (by decide)
  have hkernel := verdict_of_offset Kernel.merlinDecoder Kernel.merlinDecoder_blindToPc merlinVerifierCfgInitForMvdp
    Kernel.guardedLoopText 0x40 (by decide) (by decide)
  exact ⟨h.1 0x1000 (by decide) (by decide), hkernel.1 0x1000 (by decide) (by decide),
    h.2 (by decide) (by decide) (Kernel.counterFits_of_total merlinDecoder_total (by decide))⟩

section Decoders

open Kernel (SameFields SameReading AgreeOn)

variable {w pc : BitVec 32} {a u : Insn} {k : Option Insn} {st : VState} {p : BitVec 32}

/-- On these words what the kernel decoder accepts is what the userland decoder accepts. -/
theorem agreeOn_of_sameReading (hw : SameReading w) : AgreeOn (Kernel.merlinDecode w pc) (merlinDecode w pc) := by
  unfold Kernel.merlinDecode merlinDecode
  by_cases h : w &&& 3 ≠ 3
  · rw [if_pos h, if_pos h, Kernel.agreeOn_some]
    rintro (hp | hp) <;> cases hp
  · rw [if_neg h, if_neg h]
    exact Kernel.agreeOn_major.mpr hw

theorem permittedDefault_of_isCtrl {insn : Insn} (h : insn.isCtrl = true) : insn.cls.permittedDefault = true := by
  rcases Insn.isCtrl_iff.mp h with hc | hc | hc <;> rw [hc] <;> rfl

/-- A word is a control transfer for both decoders, then the same, or for neither. -/
theorem agreeOn_cases (h : AgreeOn k u) : (∃ a, k = some a ∧ SameFields a u) ∨
    (∀ insn, k = some insn → insn.isCtrl = false) ∧ u.isCtrl = false := by
  by_cases hor : (∃ a, k = some a ∧ a.cls.permittedDefault = true) ∨ u.cls.permittedDefault = true
  · obtain ⟨a, ha, -, -, hsame⟩ := h hor
    exact .inl ⟨a, ha, hsame⟩
  · rw [not_or, not_exists] at hor
    refine .inr ⟨fun insn hk => ?_, ?_⟩
    · by_contra hc
      exact hor.1 insn ⟨hk, permittedDefault_of_isCtrl (by simpa using hc)⟩
    · by_contra hc
      exact hor.2 (permittedDefault_of_isCtrl (by simpa using hc))

theorem isCtrl_congr (h : SameFields a u) : a.isCtrl = u.isCtrl := by
  simp only [Insn.isCtrl, h.cls]

/-- The transfer function reads the fields that the decoders agree on. -/
theorem stepInsn_sameFields {D' : Decoder} (h : SameFields a u) (ha : D'.permitted a = true)
    (hu : D.permitted u = true) : stepInsn D' cfg a st p = stepInsn D cfg u st p := by
  cases a
  cases u
  simp only [Kernel.sameFields_iff] at h
  obtain ⟨rfl, rfl, rfl, rfl, rfl, rfl, rfl, rfl, rfl⟩ := h
  unfold stepInsn
  rw [ha, hu]
  rfl

theorem sameReading_all (h : ∀ i < text.length / 4, SameReading (textWord text (4 * i)))
    (hsize : text.length % 4 = 0) (i : ℕ) : SameReading (textWord text (4 * i)) := by
  rcases Nat.lt_or_ge i (text.length / 4) with hi | hi
  · exact h i hi
  · have hzero : textWord text (4 * i) = 0 := by
      unfold textWord
      have hpast : ∀ j < 4, text.getD (4 * i + j) 0 = 0 := fun j hj => by
        rw [List.getD_eq_getElem?_getD, List.getElem?_eq_none (by omega), Option.getD_none]
      have hfirst : text.getD (4 * i) 0 = 0 := hpast 0 (by omega)
      rw [hfirst, hpast 1 (by omega), hpast 2 (by omega), hpast 3 (by omega)]
      rfl
    rw [hzero]
    exact Kernel.sameReading_of_compressed (by decide)

theorem cfgInsn_cases (hw : ∀ i, SameReading (textWord text (4 * i))) (i : ℕ) :
    ∃ u, cfgInsn merlinDecoder text (4 * i) = some u ∧
      ((∃ a, cfgInsn Kernel.merlinDecoder text (4 * i) = some a ∧ SameFields a u) ∨
        (∀ insn, cfgInsn Kernel.merlinDecoder text (4 * i) = some insn → insn.isCtrl = false) ∧
          u.isCtrl = false) :=
  ⟨_, rfl, agreeOn_cases (agreeOn_of_sameReading (hw i))⟩

theorem leaderStep_of_not_ctrl {bm : LeaderMap} {i : ℕ}
    (h : ∀ insn, cfgInsn D text (4 * i) = some insn → insn.isCtrl = false) : leaderStep D text bm i = .ok bm := by
  unfold leaderStep
  cases hi : cfgInsn D text (4 * i) with
  | none => rfl
  | some insn =>
    have hc := h insn hi
    simp only [Insn.isCtrl, Bool.or_eq_false_iff, decide_eq_false_iff_not] at hc
    dsimp only
    split <;> simp_all

theorem leaderStep_kernel (hw : ∀ i, SameReading (textWord text (4 * i))) :
    leaderStep Kernel.merlinDecoder text = leaderStep merlinDecoder text := by
  funext bm i
  obtain ⟨u, hu, ⟨a, ha, hsame⟩ | ⟨hk, hc⟩⟩ := cfgInsn_cases hw i
  · have hjump : ∀ reason, leaderSetJump text (4 * i) a reason bm = leaderSetJump text (4 * i) u reason bm := by
      intro reason
      rw [leaderSetJump, leaderSetJump, jumpTarget, jumpTarget, hsame.imm]
    rw [leaderStep, leaderStep, ha, hu]
    dsimp only
    rw [hsame.cls, hjump, hjump]
  · rw [leaderStep_of_not_ctrl hk, leaderStep_of_not_ctrl]
    rintro insn hi
    rw [hu] at hi
    exact Option.some.inj hi ▸ hc

theorem wireSuccs_kernel (hw : ∀ i, SameReading (textWord text (4 * i))) (i : ℕ) (b : Block) :
    wireSuccs text textOffset (4 * i) b (cfgInsn Kernel.merlinDecoder text (4 * i)) =
      wireSuccs text textOffset (4 * i) b (cfgInsn merlinDecoder text (4 * i)) := by
  obtain ⟨u, hu, ⟨a, ha, hsame⟩ | ⟨hk, hc⟩⟩ := cfgInsn_cases hw i
  · rw [ha, hu, wireSuccs, wireSuccs]
    dsimp only
    rw [hsame.cls, jumpTarget, jumpTarget, hsame.imm, hsame.rd]
  · rw [wireSuccs_of_not_ctrl hk, wireSuccs_of_not_ctrl]
    rintro insn hi
    rw [hu] at hi
    exact Option.some.inj hi ▸ hc

theorem blockStep_kernel (hw : ∀ i, SameReading (textWord text (4 * i))) (leader : LeaderMap) :
    blockStep Kernel.merlinDecoder text textOffset leader = blockStep merlinDecoder text textOffset leader := by
  funext bs i
  unfold blockStep
  simp only [wireSuccs_kernel hw]

/-- The second pass asks of the last instruction of a block whether it transfers control. -/
theorem fillSuccs_kernel (hw : ∀ i, SameReading (textWord text (4 * i))) {raw : List Block} {b : Block}
    (hb : 4 ∣ (b.endPc - textOffset).toNat) (i : ℕ) :
    fillSuccs Kernel.merlinDecoder text textOffset raw i b = fillSuccs merlinDecoder text textOffset raw i b := by
  obtain ⟨k, hk⟩ := hb
  have hctrl : (terminator Kernel.merlinDecoder text textOffset b).any Insn.isCtrl =
      (terminator merlinDecoder text textOffset b).any Insn.isCtrl := by
    rw [terminator, terminator, hk]
    obtain ⟨u, hu, ⟨a, ha, hsame⟩ | ⟨hnone, hc⟩⟩ := cfgInsn_cases hw k
    · rw [ha, hu, Option.any_some, Option.any_some, isCtrl_congr hsame]
    · rw [hu, Option.any_some, hc]
      cases ha : cfgInsn Kernel.merlinDecoder text (4 * k) with
      | none => rfl
      | some a => exact hnone a ha
  unfold fillSuccs
  rw [hctrl]

theorem merlinCfgBuild_kernel (hw : ∀ i, SameReading (textWord text (4 * i))) {G : Cfg}
    (h : merlinCfgBuild merlinDecoder text textOffset = .ok G) :
    merlinCfgBuild Kernel.merlinDecoder text textOffset = .ok G := by
  obtain ⟨hsize, hcap, leader, rev, hleader, hrev, hfinish⟩ := merlinCfgBuild_eq_ok.mp h
  obtain ⟨bound, hb⟩ := blockPass_built hsize hcap hleader hrev
  refine merlinCfgBuild_eq_ok.mpr ⟨hsize, hcap, leader, rev, ?_, ?_, ?_⟩
  · rwa [cfgFindLeaders, leaderStep_kernel hw]
  · rwa [blockStep_kernel hw]
  · have hfill : rev.reverse.mapIdx (fillSuccs Kernel.merlinDecoder text textOffset rev.reverse) =
        rev.reverse.mapIdx (fillSuccs merlinDecoder text textOffset rev.reverse) := by
      apply List.ext_getElem
      · rw [List.length_mapIdx, List.length_mapIdx]
      · intro i hi _
        rw [List.length_mapIdx] at hi
        have hget := hb.layout.get i hi
        rw [List.getElem?_eq_getElem hi] at hget
        rw [List.getElem_mapIdx, List.getElem_mapIdx, fillSuccs_kernel hw]
        rw [Option.some.inj hget, segBlock_endPc, pcAt_sub, BitVec.toNat_ofNat]
        omega
    rwa [hfill]

/-- What the analysis does not reject the kernel decoder reads as the userland decoder does. -/
theorem retraces_kernel (hw : ∀ i, SameReading (textWord text (4 * i))) :
    Retraces merlinDecoder Kernel.merlinDecoder cfg cfg text textOffset where
  cap := le_rfl
  body := rfl
  step i insn st p hi hz := by
    have hu : merlinDecode (textWord text (4 * i)) (pcAt textOffset (4 * i)) = insn := Option.some.inj hi
    have hperm : merlinDecoder.permitted insn = true := by
      by_contra hno
      unfold stepInsn at hz
      rw [if_pos (by simpa using hno)] at hz
      cases hz
    have hagree : AgreeOn (Kernel.merlinDecode (textWord text (4 * i)) (pcAt textOffset (4 * i)))
        (merlinDecode (textWord text (4 * i)) (pcAt textOffset (4 * i))) := agreeOn_of_sameReading (hw i)
    obtain ⟨a, ha, hpa, -, hsame⟩ := hagree (.inr (by rw [hu]; exact hperm))
    rw [hu] at hsame
    exact ⟨a, ha, stepInsn_sameFields hsame ((Kernel.permittedDefault_eq a).trans hpa) hperm⟩

end Decoders

theorem Clean.shift (hclean : Clean D cfg text textOffset) (hD : D.BlindToPc) (hz : NoZeroSuccessor D text textOffset)
    (hz' : NoZeroSuccessor D text textOffset') : Clean D cfg text textOffset' := by
  obtain ⟨G, A, fuel, hb, hpos, hloop, hrej, hgate⟩ := hclean
  obtain ⟨G', hb', hs⟩ := merlinCfgBuild_shift hb hz hz'
  have hn : G'.nblocks = G.nblocks := hs.blocks.length_eq.symm
  refine ⟨G', A, fuel, hb', hn ▸ hpos, ?_, hrej, ?_⟩
  · rwa [verifyLoop_shift hD hs.blocks]
  · rwa [gateRejects, hs.backEdges]

/-- What `merlin-verifier` accepts at the offset of the text in its file, the kernel verifier accepts, with its own
decoder, at offset `0` and under every policy that permits more: when both decoders read the words of the text
alike, and no instruction of it continues at the first. -/
theorem kernel_accepts_of_accepted (cfg cfg' : VerifierCfg) (hle : cfg.Laxer cfg') (text : Text)
    (textOffset : BitVec 32) (hpos : 0 < textOffset.toNat) (hfits : textOffset.toNat + text.length ≤ 2 ^ 32)
    (hcount : CounterFits text textOffset cfg) (hstart : StartsOnce merlinDecoder text)
    (hwords : ∀ i < text.length / 4, Kernel.SameReading (textWord text (4 * i)))
    (hacc : Accepted text textOffset cfg) :
    ∃ fuel, Kernel.merlinVerifyText Kernel.merlinDecoder cfg' text 0 fuel = some .ok := by
  have hclean := (hacc.clean hcount).laxer hle
  have hz := noZeroSuccessor_of_fits (D := merlinDecoder) hpos hfits
  have hz' := noZeroSuccessor_of_startsOnce hstart (by omega)
  have hzero := hclean.shift merlinDecoder_blindToPc hz hz'
  have hsize : text.length % 4 = 0 := by
    obtain ⟨G, A, fuel, hb, -⟩ := hzero
    exact length_of_build hb
  have hw := sameReading_all hwords hsize
  have hne : text ≠ [] := by
    rintro rfl
    obtain ⟨G, A, fuel, hb, hn, -⟩ := hzero
    cases hb
    cases hn
  exact (hzero.retraces (retraces_kernel hw) fun _ hb => merlinCfgBuild_kernel hw hb).kernelAccepted hne

theorem guardedLoopText_sameReading :
    ∀ i < Kernel.guardedLoopText.length / 4, Kernel.SameReading (textWord Kernel.guardedLoopText (4 * i)) := by
  intro i hi
  have hlen : Kernel.guardedLoopText.length / 4 = 4 := by decide
  have hwords : textWord Kernel.guardedLoopText (4 * 0) = 0x14200893 ∧
      textWord Kernel.guardedLoopText (4 * 1) = 0x00000073 ∧
      textWord Kernel.guardedLoopText (4 * 2) = 0x00051063 ∧
      textWord Kernel.guardedLoopText (4 * 3) = 0x00008067 := by decide
  obtain ⟨h0, h1, h2, h3⟩ := hwords
  rw [hlen] at hi
  interval_cases i
  · rw [h0]
    exact .inr (.inr (by decide))
  · rw [h1]
    trivial
  · rw [h2]
    trivial
  · rw [h3]
    exact .inr (by decide)

/-- The guarded loop again, as a program of a packet type that may sleep. -/
theorem kernel_accepts_of_accepted_guarded :
    ∃ fuel, Kernel.merlinVerifyText Kernel.merlinDecoder (Kernel.merlinVerifierCfgForProg 7 Kernel.fSleepable)
      Kernel.guardedLoopText 0 fuel = some .ok :=
  kernel_accepts_of_accepted (Kernel.merlinVerifierCfgForProg 0 0) (Kernel.merlinVerifierCfgForProg 7 Kernel.fSleepable)
    (laxer_forProg 7 Kernel.fSleepable) Kernel.guardedLoopText 0x40 (by decide) (by decide)
    (counterFits_of_cap (by decide +kernel)) (by decide) guardedLoopText_sameReading ⟨40, by decide +kernel⟩

end MerlinV
