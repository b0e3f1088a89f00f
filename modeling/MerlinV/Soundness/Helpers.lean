import MerlinV.Machine.Replay
import MerlinV.Soundness.Cover

/-! # Helper gating

An accepted text calls a helper outside the allowlist only through an `a7` that the
analysis does not know: a value left from before the entry, from before an earlier call
or from a callee, or a value whose upper half the analysis cuts off.
-/
namespace MerlinV

def AllowedHelper (cfg : VerifierCfg) (a7 : Word) : Prop :=
  ∃ id : BitVec 32, helperAllowed cfg id = true ∧ a7 = id.setWidth 64

/-- Every `ecall` of every run has the id of an allowed helper in `a7`. -/
def HelperGated (E : Env) (cfg : VerifierCfg) : Prop :=
  ∀ s, MRun E cfg.isCallbackBody s → ∀ insn, E.fetch s.pc = some insn → insn.cls = .ecall →
    AllowedHelper cfg (s.x 17)

section Gating

variable {textOffset : BitVec 32} {E : Env} {cfg : VerifierCfg} {s : MState} {g : Shadow} {insn : Insn}

theorem ShadowRun.exists_state (hacc : Accepted E.text textOffset cfg) (hfit : CounterFits E.text textOffset cfg)
    (h : ShadowRun textOffset E cfg.isCallbackBody s g) (hf : E.fetch s.pc = some insn) :
    ∃ st, Cover E st s.x g.tags ∧ (stepInsn merlinDecoder cfg insn st 0).rejects = [] ∧
      ∀ r, (st.x r).OffBound (2 ^ 63 - 2 ^ 32) := by
  obtain ⟨G, A, hA⟩ := hacc.exists_acceptedAs
  obtain ⟨leader, raw, bound, hb⟩ := merlinCfgBuild_built hA.build
  obtain ⟨hin, hinsn⟩ := Env.fetch_eq_some hf
  obtain ⟨k, st, hk, hst, hcov⟩ := (h.runInv hb hA hfit).here hin
  have hrej := hst.rejects hA hfit hb
  rw [hinsn, hk]
  exact ⟨st, hcov, hrej, hst.offBound hA hfit hb⟩

/-- In a run along the block graph, an `ecall` with an `a7` that is not stale and fits 32 bits calls
an allowed helper. -/
theorem ecall_allowedHelper (hacc : Accepted E.text textOffset cfg) (hfit : CounterFits E.text textOffset cfg)
    (h : ShadowRun textOffset E cfg.isCallbackBody s g) (hf : E.fetch s.pc = some insn)
    (hc : insn.cls = .ecall) (hstale : (g.tags 17).stale = false) (hlt : (s.x 17).toNat < 2 ^ 32) :
    AllowedHelper cfg (s.x 17) := by
  obtain ⟨st, hcov, hrej, -⟩ := h.exists_state hacc hfit hf
  rw [stepInsn_ecall 0 hc] at hrej
  obtain ⟨a7, h7, hallow, -, -⟩ := stepEcall_eq hrej
  exact ⟨_, hallow, a7_eq hcov h7 hstale hlt⟩

def ktimeText : Text := ofWords [0x11000893, 0x00000073, 0x00008067]

theorem ktimeText_allowedHelper : ∃ s g insn,
    ShadowRun 0x40 (sampleEnv ktimeText) false s g ∧ (sampleEnv ktimeText).fetch s.pc = some insn ∧
      insn.cls = .ecall ∧ AllowedHelper merlinVerifierCfgInitForMvdp (s.x 17) := by
  have hacc : Accepted ktimeText 0x40 merlinVerifierCfgInitForMvdp := ⟨10, by decide +kernel⟩
  obtain ⟨s, g, hrun, hP⟩ := exists_shadowRun 0x40 ktimeText 5 0 [.insn]
    (fun p => (((sampleEnv ktimeText).fetch p.1.pc).any fun i => i.cls = .ecall) &&
      !(p.2.tags 17).stale && p.1.x 17 = 0x110) (by decide) (by decide) (by decide +kernel)
  simp only [Bool.and_eq_true, Option.any_eq_true, Bool.not_eq_true', decide_eq_true_iff] at hP
  obtain ⟨⟨⟨insn, hf, hc⟩, hstale⟩, h7⟩ := hP
  exact ⟨s, g, insn, hrun, hf, hc, ecall_allowedHelper (E := sampleEnv ktimeText) hacc
    (counterFits_of_cap (by decide)) hrun hf hc hstale (by rw [h7]; decide)⟩

/-- `beq a0, x0, +8; jal x0, +8; li a7, 0x101; ecall; ret`: one way round the `li`. -/
def aroundText : Text := ofWords [0x00050463, 0x0080006f, 0x10100893, 0x00000073, 0x00008067]

theorem aroundText_not_helperGated : Accepted aroundText 0x40 merlinVerifierCfgInitForMvdp ∧
    ¬ HelperGated (sampleEnv aroundText) merlinVerifierCfgInitForMvdp := by
  refine ⟨⟨10, by decide +kernel⟩, fun hgated => ?_⟩
  obtain ⟨s, hrun, hP⟩ := exists_mRun aroundText 17 0xdead [.insn, .insn]
    (fun s => (((sampleEnv aroundText).fetch s.pc).any fun i => i.cls = .ecall) && s.x 17 = 0xdead)
    (by decide) (by decide) (by decide +kernel)
  simp only [Bool.and_eq_true, Option.any_eq_true, decide_eq_true_iff] at hP
  obtain ⟨⟨insn, hf, hc⟩, h7⟩ := hP
  obtain ⟨id, hid, heq⟩ := hgated s hrun insn hf hc
  rw [h7] at heq
  obtain rfl : id = 0xdead := setWidth_inj heq.symm
  revert hid
  decide +kernel

end Gating

end MerlinV
