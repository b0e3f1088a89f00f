import MerlinV.Soundness.Helpers

/-! # Everything that runs was verified

Where a run of an accepted text goes.  The block graph has no edge behind a `jalr`, so the
instruction a kfunc returns to is verified only if something else leads there; the
analysis does not follow `ra`, does not look at the offset of a `jalr` and lets the last
block end without a jump.
-/
namespace MerlinV

section Law

variable (textOffset : BitVec 32) (E : Env) (cfg : VerifierCfg) (G : Cfg) (A : Analysis)

/-- A permitted instruction of a block the worklist processed with a valid entry state. -/
structure VerifiedAt (off : ℕ) : Prop where
  aligned : off % 4 = 0
  processed : ∃ i b, G.blocks[i]? = some b ∧ (A.entryState i).valid = true ∧
    off ∈ blockOffsets E.text textOffset b
  permitted : merlinInsnPermittedDefault (insnAt E.text off) = true

/-- The ways control may leave the text: back to the caller, or into an allowed kfunc. -/
def LeavesTo (pc : Word) : Prop := pc = E.ra0 ∨ ∃ id, kfuncAllowed cfg id = true ∧ pc = E.slot id

/-- A state of a run is at a verified instruction, and leaves the text as it may. -/
structure StateVerified (s : MState) : Prop where
  here : E.InText s.pc → VerifiedAt textOffset E G A (E.off s.pc)
  leaves : ∀ s', MStep E s s' → E.InText s.pc → ¬ E.InText s'.pc → LeavesTo E cfg s'.pc
  calls : ∀ insn, E.fetch s.pc = some insn → insn.cls = .ecall → AllowedHelper cfg (s.x 17)

/-- An instruction leaves the text only as it may: it does not run off the end, a `jalr` adds
nothing and reads `ra` with the entry value or an address of the text, or a register that is not
stale, and an `ecall` reads an `a7` that is not stale and fits 32 bits. -/
def LeaveOkAt (s : MState) (g : Shadow) (insn : Insn) : Prop :=
  match insn.cls with
  | .jalr => insn.imm = 0 ∧ (if insn.rs1 = 1 then s.x 1 = E.ra0 ∨ E.InText (nextPc insn s)
      else (g.tags insn.rs1).stale = false)
  | .ecall => E.off s.pc + 4 < E.text.length ∧ (g.tags 17).stale = false ∧ (s.x 17).toNat < 2 ^ 32
  | _ => nextPc insn s = s.pc + 4 → E.off s.pc + 4 < E.text.length

theorem leaveOkAt_iff {s : MState} {g : Shadow} {insn : Insn} : LeaveOkAt E s g insn ↔
    (insn.cls = .jalr → insn.imm = 0 ∧ if insn.rs1 = 1 then s.x 1 = E.ra0 ∨ E.InText (nextPc insn s)
      else (g.tags insn.rs1).stale = false) ∧
    (insn.cls = .ecall →
      E.off s.pc + 4 < E.text.length ∧ (g.tags 17).stale = false ∧ (s.x 17).toNat < 2 ^ 32) ∧
    (insn.cls ≠ .jalr → insn.cls ≠ .ecall → nextPc insn s = s.pc + 4 →
      E.off s.pc + 4 < E.text.length) := by
  unfold LeaveOkAt
  cases insn.cls <;> simp

instance (s : MState) (g : Shadow) (insn : Insn) : Decidable (LeaveOkAt E s g insn) :=
  decidable_of_iff _ (leaveOkAt_iff E).symm

end Law

section Proof

variable {textOffset : BitVec 32} {E : Env} {cfg : VerifierCfg} {G : Cfg} {A : Analysis}
  {s s' : MState} {g : Shadow} {insn : Insn}

theorem and_not_one_of_even {a : Word} (h : a &&& 1#64 = 0) : a &&& ~~~1#64 = a := by
  apply BitVec.eq_of_getLsbD_eq
  intro i hi
  have hbit := congrArg (fun v => v.getLsbD i) h
  simp only [BitVec.getLsbD_and] at hbit
  simp only [BitVec.getLsbD_and, BitVec.getLsbD_not, hi, decide_true, Bool.true_and]
  cases ha : a.getLsbD i <;> simp_all

theorem Env.off_inj {a b : Word} (h : E.off a = E.off b) : a = b := by
  have hsub : a - E.base = b - E.base := BitVec.eq_of_toNat_eq h
  have hadd := congrArg (· + E.base) hsub
  simpa [BitVec.sub_add_cancel] using hadd

theorem PointState.verifiedAt {leader : LeaderMap} {raw : List Block} {bound : ℕ → ℕ} {k : ℕ}
    {st : VState} (hacc : AcceptedAs E.text textOffset cfg G A) (hfit : CounterFits E.text textOffset cfg)
    (hb : Built merlinDecoder E.text textOffset G leader raw bound)
    (h : PointState E.text textOffset cfg A raw bound k st) : VerifiedAt textOffset E G A (4 * k) := by
  have hrej := h.rejects hacc hfit hb
  obtain ⟨i, hi, hv, hs, hk, -⟩ := h
  obtain ⟨b, hget, -, hoffs⟩ := hacc.stable hb hi hv
  refine ⟨by omega, ⟨i, b, hget, hv, ?_⟩, ?_⟩
  · rw [hoffs]
    exact List.mem_map.mpr ⟨k, List.mem_range'.mpr ⟨k - bound i, by omega, by omega⟩, rfl⟩
  · by_contra hp
    rw [Bool.not_eq_true] at hp
    simp [stepInsn, merlinDecoder, hp] at hrej

/-- Every class but `jalr` stays in the text unless it runs off its end. -/
theorem inText_nextPc {leader : LeaderMap} {raw : List Block} {bound : ℕ → ℕ} {k : ℕ}
    (hb : Built merlinDecoder E.text textOffset G leader raw bound) (hk : E.off s.pc = 4 * k)
    (hlt : k < E.text.length / 4) (hno : (insnAt E.text (4 * k)).cls ≠ .jalr)
    (hend : nextPc (insnAt E.text (4 * k)) s = s.pc + 4 → E.off s.pc + 4 < E.text.length) :
    E.InText (nextPc (insnAt E.text (4 * k)) s) := by
  have h32 := hb.four_mul_lt hlt.le
  have hfour : E.off (s.pc + 4) = E.off s.pc + 4 := Env.off_add_four (by omega)
  unfold Env.InText
  rcases nextOffsets_cases (off_nextPc hb hk hlt hno) with heq | ⟨insn, hinsn, hcls, heq⟩
  · have hoff : E.off (nextPc (insnAt E.text (4 * k)) s) = E.off (s.pc + 4) := by omega
    have := hend (Env.off_inj hoff)
    omega
  · obtain ⟨t, ht, htlt, -⟩ := hb.target hlt hinsn hcls
    omega

/-- An accepted `jalr` returns through `ra` or calls an allowed kfunc. -/
theorem jalr_cases {st : VState} (hc : insn.cls = .jalr)
    (hrej : (stepInsn merlinDecoder cfg insn st 0).rejects = []) :
    insn.rs1 = 1 ∨ ∃ id, st.x insn.rs1 = .ptrKfuncSlot id ∧ kfuncAllowed cfg id = true := by
  rw [stepInsn_plain 0 (by simp [merlinInsnPermittedDefault, InsnClass.permittedDefault, hc])
    (by simp [hc])] at hrej
  simp only [stepPlain, hc, jalrRejects] at hrej
  by_cases h1 : insn.rs1 = 1
  · exact .inl h1
  · cases hx : st.x insn.rs1 with
    | ptrKfuncSlot id =>
      refine .inr ⟨id, rfl, ?_⟩
      by_contra hno
      simp [hx, h1, hno] at hrej
    | _ => simp [hx, h1] at hrej

theorem nextPc_jalr_leaves {st : VState} (hc : insn.cls = .jalr) (hcov : Cover E st s.x g.tags)
    (hrej : (stepInsn merlinDecoder cfg insn st 0).rejects = []) (himm : insn.imm = 0)
    (hok : if insn.rs1 = 1 then s.x 1 = E.ra0 ∨ E.InText (nextPc insn s)
      else (g.tags insn.rs1).stale = false) (hout : ¬ E.InText (nextPc insn s)) :
    LeavesTo E cfg (nextPc insn s) := by
  have hpc : nextPc insn s = s.x insn.rs1 &&& ~~~1#64 := by
    simp only [nextPc, hc, himm]
    congr 1
    exact BitVec.add_zero _
  by_cases h1 : insn.rs1 = 1
  · rw [if_pos h1] at hok
    have hra := hok.resolve_right hout
    left
    rw [hpc, h1, hra, and_not_one_of_even E.ra0_even]
  · rw [if_neg h1] at hok
    obtain ⟨id, hx, hallow⟩ := (jalr_cases hc hrej).resolve_left h1
    have hslot : s.x insn.rs1 = E.slot id := by
      have := (hcov insn.rs1).resolve_left (by simp [hok])
      rwa [hx] at this
    right
    exact ⟨id, hallow, by rw [hpc, hslot, and_not_one_of_even (E.slot_even id)]⟩

/-- Every state of a run along the block graph is verified and leaves the text as it may, where the
instruction it is at is in order. -/
theorem stateVerified_of_leaveOk (hacc : AcceptedAs E.text textOffset cfg G A)
    (hfit : CounterFits E.text textOffset cfg) (h : ShadowRun textOffset E cfg.isCallbackBody s g)
    (hok : ∀ insn, E.fetch s.pc = some insn → LeaveOkAt E s g insn) : StateVerified textOffset E cfg G A s := by
  obtain ⟨leader, raw, bound, hb⟩ := merlinCfgBuild_built hacc.build
  have hinv := h.runInv hb hacc hfit
  have hsize := hb.size
  refine ⟨fun hin => ?_, fun s' hs hin hout => ?_, fun insn hf hc => ?_⟩
  · obtain ⟨k, st, hk, hst, -⟩ := hinv.here hin
    rw [hk]
    exact hst.verifiedAt hacc hfit hb
  · obtain ⟨k, st, hk, hst, hcov⟩ := hinv.here hin
    have hrej := hst.rejects hacc hfit hb
    have hlt : k < E.text.length / 4 := by
      unfold Env.InText at hin
      omega
    cases hs with
    | plain insn hfetch he =>
      have hinsn := (Env.fetch_eq_some hfetch).2
      rw [hk] at hinsn
      obtain ⟨-, hne, hpc, -⟩ := exec_eq_some he
      have hok := hok insn hfetch
      rw [hpc] at hout ⊢
      by_cases hj : insn.cls = .jalr
      · simp only [LeaveOkAt, hj] at hok
        exact nextPc_jalr_leaves hj hcov (hinsn ▸ hrej) hok.1 hok.2 hout
      · have hend : nextPc insn s = s.pc + 4 → E.off s.pc + 4 < E.text.length := by
          revert hok
          unfold LeaveOkAt
          cases hc : insn.cls <;> first | exact id | exact absurd hc hj | exact absurd hc hne
        rw [hinsn] at hout hj hend
        exact absurd (inText_nextPc hb hk hlt hj hend) hout
    | helper insn hfetch hc hret =>
      have hok := hok insn hfetch
      simp only [LeaveOkAt, hc] at hok
      have h32 := hb.four_mul_lt hlt.le
      rw [hret.pc] at hout
      unfold Env.InText at hout
      rw [Env.off_add_four (by omega)] at hout
      exact absurd hok.1 hout
    | kfunc id hno _ _ => exact absurd hin hno
  · have hok := hok insn hf
    simp only [LeaveOkAt, hc] at hok
    obtain ⟨hin, hinsn⟩ := Env.fetch_eq_some hf
    obtain ⟨k, st, hk, hst, hcov⟩ := hinv.here hin
    have hrej := hst.rejects hacc hfit hb
    rw [← hk, ← hinsn, stepInsn_ecall 0 hc] at hrej
    obtain ⟨a7, h7, hallow, -, -⟩ := stepEcall_eq hrej
    exact ⟨_, hallow, a7_eq hcov h7 hok.2.1 hok.2.2⟩

/-- `li a0, 1; li a7, 0x143; ecall; jalr x0, 0(a0)`: resolve a kfunc and jump to it. -/
def tailCallText : Text := ofWords [0x00100513, 0x14300893, 0x00000073, 0x00050067]

theorem tailCallText_stateVerified : ∃ G A s s',
    AcceptedAs tailCallText 0x40 merlinVerifierCfgInitForMvdp G A ∧
      MRun (sampleEnv tailCallText) false s ∧ MStep (sampleEnv tailCallText) s s' ∧ s'.pc = 0x90000 ∧
      StateVerified 0x40 (sampleEnv tailCallText) merlinVerifierCfgInitForMvdp G A s := by
  obtain ⟨G, A, hacc, -⟩ := acceptedAs_of_acceptsWith tailCallText 0x40 merlinVerifierCfgInitForMvdp 10
    (fun _ _ => true) (by decide +kernel)
  obtain ⟨s, g, hrun, hP⟩ := exists_shadowRun 0x40 tailCallText 5 0 [.insn, .insn, .helper 0]
    (fun p => ((sampleEnv tailCallText).fetch p.1.pc).all (fun insn =>
        LeaveOkAt (sampleEnv tailCallText) p.1 p.2 insn) &&
      (advance (sampleEnv tailCallText) p.1 .insn).any fun s' => s'.pc = 0x90000)
    (by decide) (by decide) (by decide +kernel)
  simp only [Bool.and_eq_true, Option.any_eq_true, Option.all_eq_true, decide_eq_true_iff] at hP
  obtain ⟨hok, s', hs', hpc⟩ := hP
  exact ⟨G, A, s, s', hacc, hrun.mRun, advance_mStep hs', hpc,
    stateVerified_of_leaveOk (E := sampleEnv tailCallText) hacc (counterFits_of_cap (by decide)) hrun hok⟩

/-- `li a0, 1; li a7, 0x143; ecall; jalr ra, 0(a0); ebreak`: a kfunc that returns. -/
def kfuncText : Text := ofWords [0x00100513, 0x14300893, 0x00000073, 0x000500e7, 0x00100073]

theorem kfuncText_not_stateVerified : ∃ G A s,
    AcceptedAs kfuncText 0x40 merlinVerifierCfgInitForMvdp G A ∧
      MRun (sampleEnv kfuncText) false s ∧
      ¬ StateVerified 0x40 (sampleEnv kfuncText) merlinVerifierCfgInitForMvdp G A s := by
  obtain ⟨G, A, hacc, -⟩ := acceptedAs_of_acceptsWith kfuncText 0x40 merlinVerifierCfgInitForMvdp 10
    (fun _ _ => true) (by decide +kernel)
  obtain ⟨s, hrun, hP⟩ := exists_mRun kfuncText 5 0 [.insn, .insn, .helper 0, .insn, .kfunc 1]
    (fun s => s.pc = 0x80010) (by decide) (by decide) (by decide +kernel)
  rw [decide_eq_true_iff] at hP
  refine ⟨G, A, s, hacc, hrun, fun hv => ?_⟩
  have hin : (sampleEnv kfuncText).InText s.pc := by
    rw [hP]
    decide
  have hperm := (hv.here hin).permitted
  rw [hP] at hperm
  revert hperm
  decide +kernel

end Proof

end MerlinV
