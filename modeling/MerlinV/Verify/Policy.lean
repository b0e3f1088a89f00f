import MerlinV.Kernel.System
import MerlinV.Verify.Accept
import MerlinV.Verify.Inversion

/-! # Laxer policies

A text that a verifier accepts without a rejection is accepted under every policy that permits more: larger
allowlists, a larger frame, a larger step cap.  Where nothing is rejected the policies are not told apart, so the
two analyses take the same steps.
-/
namespace MerlinV

section Order

/-- Each policy decision of `cfg'` permits what that of `cfg` permits. -/
structure VerifierCfg.Laxer (cfg cfg' : VerifierCfg) : Prop where
  helper : cfg.helperAllow &&& ~~~cfg'.helperAllow = 0
  kfunc : cfg.kfuncAllow &&& ~~~cfg'.kfuncAllow = 0
  callback : cfg.callbackAllow &&& ~~~cfg'.callbackAllow = 0
  stack : cfg.maxStackBytes.toNat ≤ cfg'.maxStackBytes.toNat
  cap : cfg.effectiveCap ≤ cfg'.effectiveCap
  body : cfg.isCallbackBody = cfg'.isCallbackBody

variable {cfg cfg' : VerifierCfg} {insn : Insn} {st : VState}

theorem idAllowed_mono {allow allow' : BitVec 4096} (h : allow &&& ~~~allow' = 0) {id : BitVec 32}
    (hid : idAllowed allow id = true) : idAllowed allow' id = true := by
  unfold idAllowed at hid ⊢
  split_ifs at hid ⊢ with hge
  have hbit := congrArg (fun b => b.getLsbD id.toNat) h
  simp only [BitVec.getLsbD_and, BitVec.getLsbD_not, hid, Bool.true_and, BitVec.ofNat_eq_ofNat,
    BitVec.getLsbD_zero] at hbit
  simpa [not_le.mp hge] using hbit

namespace VerifierCfg.Laxer

theorem helperAllowed (h : cfg.Laxer cfg') {id : BitVec 32} (hid : helperAllowed cfg id = true) :
    MerlinV.helperAllowed cfg' id = true :=
  idAllowed_mono h.helper hid

theorem kfuncAllowed (h : cfg.Laxer cfg') {id : BitVec 32} (hid : kfuncAllowed cfg id = true) :
    MerlinV.kfuncAllowed cfg' id = true :=
  idAllowed_mono h.kfunc hid

theorem callbackAllowed (h : cfg.Laxer cfg') {id : BitVec 32} (hid : callbackAllowed cfg id = true) :
    MerlinV.callbackAllowed cfg' id = true :=
  idAllowed_mono h.callback hid

theorem inFrame (h : cfg.Laxer cfg') {off : Word} (hoff : off.slt (-cfg.budget) = false) :
    off.slt (-cfg'.budget) = false := by
  have hle := h.stack
  rw [BitVec.slt_eq_decide, decide_eq_false_iff_not, budget_toInt] at hoff ⊢
  omega

end VerifierCfg.Laxer

end Order

section Steps

variable {D : Decoder} {cfg cfg' : VerifierCfg} {insn : Insn} {st : VState} {p : BitVec 32}

theorem accessRejects_laxer (h : cfg.Laxer cfg') {base : Rval} {imm : Word} {width : ℕ} {r r' : Reject}
    (hz : accessRejects cfg base imm width r r' = []) : accessRejects cfg' base imm width r r' = [] := by
  rw [accessRejects_eq_nil] at hz ⊢
  refine ⟨hz.1, fun lo hi hbase => ?_⟩
  obtain ⟨hlo, hhi⟩ := hz.2 lo hi hbase
  exact ⟨h.inFrame hlo, hhi⟩

theorem spRejects_laxer (h : cfg.Laxer cfg') {lo hi : Word} (hz : spRejects cfg lo hi = []) :
    spRejects cfg' lo hi = [] := by
  unfold spRejects at hz ⊢
  rw [List.append_eq_nil_iff] at hz ⊢
  refine ⟨?_, hz.2⟩
  have hlo : lo.slt (-cfg.budget) = false := by
    by_contra hne
    rw [Bool.not_eq_false] at hne
    simp [hne] at hz
  rw [h.inFrame hlo]
  rfl

theorem stepAddi_laxer (h : cfg.Laxer cfg') (hz : (stepAddi cfg insn st).2 = []) :
    stepAddi cfg' insn st = stepAddi cfg insn st := by
  unfold stepAddi at hz ⊢
  cases hv : st.x insn.rs1 with
  | ptrStack lo hi =>
    rw [hv] at hz
    dsimp only at hz ⊢
    split_ifs at hz ⊢ with hzero hentry hrd hsp
    · rfl
    · have hsp' := spRejects_laxer h (show spRejects cfg (lo + insn.imm) (hi + insn.imm) = [] from hz)
      exact congrArg (Prod.mk _) (hsp'.trans (Eq.symm hz))
    · rfl
    · rfl
  | _ => rfl

theorem jalrRejects_laxer (h : cfg.Laxer cfg') (hz : jalrRejects cfg insn st = []) :
    jalrRejects cfg' insn st = [] := by
  unfold jalrRejects at hz ⊢
  cases hv : st.x insn.rs1 with
  | ptrKfuncSlot id =>
    rw [hv] at hz
    by_cases hra : insn.rs1 = 1
    · simp [hra]
    · cases hk : kfuncAllowed cfg id with
      | true => simp [h.kfuncAllowed hk]
      | false => simp [hra, hk] at hz
  | _ =>
    rw [hv] at hz
    exact hz

theorem stepPlain_laxer (h : cfg.Laxer cfg') (hz : (stepPlain cfg insn st).2 = []) :
    stepPlain cfg' insn st = stepPlain cfg insn st := by
  unfold stepPlain at hz ⊢
  cases hc : insn.cls with
  | load =>
    rw [hc] at hz
    dsimp only [stepLoad] at hz ⊢
    rw [List.append_eq_nil_iff] at hz
    rw [hz.1, accessRejects_laxer h hz.1]
  | store =>
    rw [hc] at hz
    dsimp only [stepStore] at hz ⊢
    rw [hz, accessRejects_laxer h hz]
  | aluImm =>
    rw [hc] at hz
    dsimp only [stepAluImm] at hz ⊢
    split_ifs at hz ⊢
    · exact stepAddi_laxer h hz
    · rfl
  | jalr =>
    rw [hc] at hz
    dsimp only at hz ⊢
    rw [hz, jalrRejects_laxer h hz]
  | _ => rfl

theorem stepKfuncResolve_laxer (h : cfg.Laxer cfg') (hz : (stepKfuncResolve cfg st p).rejects = []) :
    stepKfuncResolve cfg' st p = stepKfuncResolve cfg st p := by
  unfold stepKfuncResolve at hz ⊢
  cases hc : (st.x 10).const? with
  | none => rfl
  | some a0 =>
    rw [hc] at hz
    dsimp only at hz ⊢
    cases hk : kfuncAllowed cfg (a0.tn.value.setWidth 32) with
    | true => rw [h.kfuncAllowed hk]
    | false => simp [hk] at hz

theorem stepLoopCb_laxer (h : cfg.Laxer cfg') (hz : (stepLoopCb cfg st p).rejects = []) :
    stepLoopCb cfg' st p = stepLoopCb cfg st p := by
  unfold stepLoopCb at hz ⊢
  cases hc : (st.x 10).const? with
  | none => rfl
  | some a0 =>
    rw [hc] at hz
    by_cases hneg : a0.smin.slt 1#64 = true
    · simp [hneg] at hz
    · simp only [if_neg hneg] at hz ⊢
      cases h11 : (st.x 11).const? with
      | none => rfl
      | some a1 =>
        rw [h11] at hz
        dsimp only at hz ⊢
        cases hk : callbackAllowed cfg (a1.tn.value.setWidth 32) with
        | true => rw [h.callbackAllowed hk]
        | false => simp [hk] at hz

theorem stepEcall_laxer (h : cfg.Laxer cfg') (hz : (stepEcall cfg st p).rejects = []) :
    stepEcall cfg' st p = stepEcall cfg st p := by
  unfold stepEcall at hz ⊢
  cases hc : (st.x 17).const? with
  | none => rfl
  | some a7 =>
    rw [hc] at hz
    dsimp only at hz ⊢
    cases hk : helperAllowed cfg (a7.tn.value.setWidth 32) with
    | false => simp [hk] at hz
    | true =>
      rw [h.helperAllowed hk]
      rw [hk] at hz
      simp only [Bool.not_true, Bool.false_eq_true, if_false] at hz ⊢
      split_ifs at hz ⊢
      · exact stepKfuncResolve_laxer h hz
      · exact stepLoopCb_laxer h hz
      · rfl

/-- An instruction that is not rejected does the same under both policies. -/
theorem stepInsn_laxer (h : cfg.Laxer cfg') (hz : (stepInsn D cfg insn st p).rejects = []) :
    stepInsn D cfg' insn st p = stepInsn D cfg insn st p := by
  unfold stepInsn at hz ⊢
  by_cases hperm : (!D.permitted insn) = true
  · rw [if_pos hperm, if_pos hperm]
  · rw [if_neg hperm] at hz ⊢
    rw [if_neg hperm]
    by_cases hecall : insn.cls = .ecall
    · rw [if_pos hecall] at hz ⊢
      rw [if_pos hecall]
      exact stepEcall_laxer h hz
    · rw [if_neg hecall] at hz ⊢
      rw [if_neg hecall]
      dsimp only at hz ⊢
      rw [stepPlain_laxer h hz]

end Steps

section Runs

variable {D D' : Decoder} {cfg cfg' : VerifierCfg} {text : Text} {textOffset : BitVec 32} {blocks : List Block}

/-- What the first analysis does with an instruction of the text without rejecting it, the second does. -/
structure Retraces (D D' : Decoder) (cfg cfg' : VerifierCfg) (text : Text) (textOffset : BitVec 32) : Prop where
  cap : cfg.effectiveCap ≤ cfg'.effectiveCap
  body : cfg.isCallbackBody = cfg'.isCallbackBody
  step : ∀ i insn st p, verifyInsn D text textOffset (4 * i) = some insn →
    (stepInsn D cfg insn st p).rejects = [] → ∃ insn', verifyInsn D' text textOffset (4 * i) = some insn' ∧
      stepInsn D' cfg' insn' st p = stepInsn D cfg insn st p

theorem VerifierCfg.Laxer.retraces (h : cfg.Laxer cfg') : Retraces D D cfg cfg' text textOffset where
  cap := h.cap
  body := h.body
  step _ insn _ _ hi hz := ⟨insn, hi, stepInsn_laxer h hz⟩

theorem Retraces.insnLoop (h : Retraces D D' cfg cfg' text textOffset) {offs : List ℕ} {r r' : BlockRun}
    (halign : ∀ off ∈ offs, 4 ∣ off) (hrun : insnLoop D cfg text textOffset offs r = some r')
    (hz : r'.rejected = 0) : r.rejected = 0 ∧ MerlinV.insnLoop D' cfg' text textOffset offs r = some r' := by
  induction offs generalizing r with
  | nil =>
    obtain rfl := Option.some.inj hrun
    exact ⟨hz, rfl⟩
  | cons off offs ih =>
    obtain ⟨⟨i, rfl⟩, htail⟩ := List.forall_mem_cons.mp halign
    rw [MerlinV.insnLoop] at hrun ⊢
    cases hi : verifyInsn D text textOffset (4 * i) with
    | none =>
      rw [hi] at hrun
      exact absurd (ih htail hrun).1 (Nat.succ_ne_zero _)
    | some insn =>
      rw [hi] at hrun
      dsimp only at hrun
      split_ifs at hrun with hcap
      obtain ⟨hrest, hnext⟩ := ih htail hrun
      obtain ⟨hr, hlen⟩ := Nat.add_eq_zero_iff.mp hrest
      obtain ⟨insn', hi', hstep⟩ := h.step i insn r.st r.pending hi (List.length_eq_zero_iff.mp hlen)
      have hle := h.cap
      rw [hi']
      dsimp only
      rw [if_neg (by omega), hstep]
      exact ⟨hr, hnext⟩

/-- What follows the instruction loop leaves the counter alone. -/
theorem Retraces.visit (h : Retraces D D' cfg cfg' text textOffset)
    (halign : ∀ b ∈ blocks, ∀ off ∈ blockOffsets text textOffset b, 4 ∣ off) {A A' : Analysis} {i : ℕ}
    (hvisit : visit D cfg text textOffset blocks A i = some A') (hz : A'.rejected = 0) :
    A.rejected = 0 ∧ MerlinV.visit D' cfg' text textOffset blocks A i = some A' := by
  unfold MerlinV.visit visitVia at hvisit ⊢
  cases hb : blocks[i]? with
  | none =>
    rw [hb] at hvisit
    obtain rfl := Option.some.inj hvisit
    exact ⟨hz, rfl⟩
  | some b =>
    rw [hb] at hvisit
    dsimp only at hvisit ⊢
    split_ifs at hvisit ⊢
    · obtain rfl := Option.some.inj hvisit
      exact ⟨hz, rfl⟩
    · obtain ⟨r, hr, hA'⟩ := Option.bind_eq_some_iff.mp hvisit
      have hrej : r.rejected = 0 := by
        obtain ⟨-, hframe, -⟩ := pushSuccs_frame r.st { A with
          steps := r.steps
          rejected := r.rejected
          loopHeaderOk := applyPending b r.pending A.loopHeaderOk } (succsOf blocks i)
        rw [Option.some.inj hA'] at hframe
        exact hframe.symm.trans hz
      obtain ⟨hstart, hloop⟩ := h.insnLoop (halign b (List.mem_of_getElem? hb)) hr hrej
      refine ⟨hstart, ?_⟩
      rw [hloop]
      exact hA'

theorem Retraces.verifyLoop (h : Retraces D D' cfg cfg' text textOffset)
    (halign : ∀ b ∈ blocks, ∀ off ∈ blockOffsets text textOffset b, 4 ∣ off) {fuel : ℕ} {A A' : Analysis}
    (hloop : verifyLoop D cfg text textOffset blocks fuel A = some (.fixpoint A')) (hz : A'.rejected = 0) :
    A.rejected = 0 ∧ MerlinV.verifyLoop D' cfg' text textOffset blocks fuel A = some (.fixpoint A') := by
  induction fuel generalizing A with
  | zero => cases hloop
  | succ fuel ih =>
    rw [MerlinV.verifyLoop] at hloop ⊢
    cases hpop : wsPop A.queue with
    | none =>
      rw [hpop] at hloop
      cases hloop
      exact ⟨hz, rfl⟩
    | some iq =>
      obtain ⟨i, q⟩ := iq
      rw [hpop] at hloop
      dsimp only at hloop ⊢
      cases hv : MerlinV.visit D cfg text textOffset blocks { A with queue := q } i with
      | none =>
        rw [hv] at hloop
        cases hloop
      | some A₁ =>
        rw [hv] at hloop
        obtain ⟨hrest, hnext⟩ := ih hloop
        obtain ⟨hstart, hvisit⟩ := h.visit halign hv hrest
        rw [hvisit]
        exact ⟨hstart, hnext⟩

/-- The instruction loops of a built graph stay on the instructions. -/
theorem blockOffsets_aligned {G : Cfg} (hb : merlinCfgBuild D text textOffset = .ok G) :
    ∀ b ∈ G.blocks, ∀ off ∈ blockOffsets text textOffset b, 4 ∣ off := by
  obtain ⟨leader, raw, bound, hbuilt⟩ := merlinCfgBuild_built hb
  intro b hmem off hoff
  obtain ⟨i, hi⟩ := List.mem_iff_getElem?.mp hmem
  rw [hbuilt.blockOffsets_eq hi] at hoff
  obtain ⟨k, -, rfl⟩ := List.mem_map.mp hoff
  exact Nat.dvd_mul_right 4 k

/-- The analysis ends, and nothing is rejected on the way or by the back-edge gate. -/
def Clean (D : Decoder) (cfg : VerifierCfg) (text : Text) (textOffset : BitVec 32) : Prop :=
  ∃ G A fuel, merlinCfgBuild D text textOffset = .ok G ∧ 0 < G.nblocks ∧
    verifyLoop D cfg text textOffset G.blocks fuel (Analysis.init cfg) = some (.fixpoint A) ∧
    A.rejected = 0 ∧ gateRejects G A = 0

theorem Clean.retraces (hclean : Clean D cfg text textOffset) (h : Retraces D D' cfg cfg' text textOffset)
    (hbuild : ∀ G, merlinCfgBuild D text textOffset = .ok G → merlinCfgBuild D' text textOffset = .ok G) :
    Clean D' cfg' text textOffset := by
  obtain ⟨G, A, fuel, hb, hpos, hloop, hrej, hgate⟩ := hclean
  have hinit : Analysis.init cfg' = Analysis.init cfg := by
    unfold Analysis.init vstateInitEntry
    rw [h.body]
  refine ⟨G, A, fuel, hbuild G hb, hpos, ?_, hrej, hgate⟩
  rw [hinit]
  exact (h.verifyLoop (blockOffsets_aligned hb) hloop hrej).2

theorem Clean.laxer (hclean : Clean D cfg text textOffset) (h : cfg.Laxer cfg') : Clean D cfg' text textOffset :=
  hclean.retraces h.retraces fun _ hb => hb

/-- With a counter that cannot wrap, the userland verifier accepts without a rejection. -/
theorem Accepted.clean (hacc : Accepted text textOffset cfg) (hfit : CounterFits text textOffset cfg) :
    Clean merlinDecoder cfg text textOffset := by
  obtain ⟨G, A, hA⟩ := hacc.exists_acceptedAs
  obtain ⟨hrej, hgate⟩ := hA.no_rejects hfit
  obtain ⟨fuel, hloop⟩ := hA.loop
  exact ⟨G, A, fuel, hA.build, Nat.pos_of_ne_zero hA.nonempty, hloop, hrej, hgate⟩

theorem length_of_build {G : Cfg} (hb : merlinCfgBuild D text textOffset = .ok G) : text.length % 4 = 0 := by
  obtain ⟨hsize, -⟩ := merlinCfgBuild_eq_ok.mp hb
  omega

theorem Clean.accepted (hclean : Clean D cfg text textOffset) :
    ∃ fuel, merlinVerifyText D cfg text textOffset fuel = some .ok := by
  obtain ⟨G, A, fuel, hb, hpos, hloop, hrej, hgate⟩ := hclean
  refine ⟨fuel, ?_⟩
  simp [merlinVerifyText, length_of_build hb, hb, hpos.ne', hloop, verdict, hrej, hgate]

theorem Clean.kernelAccepted (hclean : Clean D cfg text textOffset) (hne : text ≠ []) :
    ∃ fuel, Kernel.merlinVerifyText D cfg text textOffset fuel = some .ok := by
  obtain ⟨G, A, fuel, hb, hpos, hloop, hrej, hgate⟩ := hclean
  have hk : Kernel.merlinCfgBuild D text textOffset = .ok G := by
    rw [← Lib.toOption_eq_some, Kernel.merlinCfgBuild_toOption hne, hb]
    rfl
  have hend : Kernel.SameEnd (Kernel.verifyLoop D cfg text textOffset G.blocks fuel _)
      (verifyLoop D cfg text textOffset G.blocks fuel _) :=
    Kernel.verifyLoop_sameEnd (Kernel.succsFit_of_build hb) fuel (@Kernel.queueFits_init cfg _ hpos)
  rw [hloop] at hend
  have hkloop : Kernel.verifyLoop D cfg text textOffset G.blocks fuel (Analysis.init cfg) =
      some (.fixpoint A) := by
    generalize Kernel.verifyLoop D cfg text textOffset G.blocks fuel (Analysis.init cfg) = e at hend
    cases hend
    rfl
  refine ⟨fuel, ?_⟩
  simp [Kernel.merlinVerifyText, length_of_build hb, hk, hpos.ne', @Kernel.Analysis.init_eq cfg _ hpos, hkloop,
    Kernel.finalize, hrej, hgate]

/-- Acceptance is monotone in the policy.  A text that is analysed under a policy without a rejection, by whichever
decoder, is accepted by both verifiers under every laxer policy; and for the userland verifier, where two rejections a
step fit the counter, to be accepted is enough. -/
theorem accepted_of_laxer (cfg cfg' : VerifierCfg) (hle : cfg.Laxer cfg') (text : Text) (textOffset : BitVec 32)
    (hne : text ≠ []) :
    (∀ D, Clean D cfg text textOffset → (∃ fuel, merlinVerifyText D cfg' text textOffset fuel = some .ok) ∧
      ∃ fuel, Kernel.merlinVerifyText D cfg' text textOffset fuel = some .ok) ∧
    (CounterFits text textOffset cfg → Accepted text textOffset cfg → Accepted text textOffset cfg' ∧
      ∃ fuel, Kernel.merlinVerifyText merlinDecoder cfg' text textOffset fuel = some .ok) := by
  have hclean : ∀ D, Clean D cfg text textOffset → Clean D cfg' text textOffset := fun D h => h.laxer hle
  refine ⟨fun D h => ?_, fun hfit hacc => ?_⟩
  · exact ⟨(hclean D h).accepted, (hclean D h).kernelAccepted hne⟩
  · have h := hclean _ (hacc.clean hfit)
    exact ⟨h.accepted, h.kernelAccepted hne⟩

end Runs

section Policies

theorem idSet_mono {allow b : BitVec 4096} (h : allow &&& ~~~b = 0) (id : BitVec 32) :
    allow &&& ~~~(idSet b id) = 0 := by
  unfold idSet
  split_ifs
  · rw [BitVec.not_or, ← BitVec.and_assoc, h, BitVec.ofNat_eq_ofNat, BitVec.zero_and]
  · exact h

theorem foldl_idSet_mono {allow : BitVec 4096} (ids : List (BitVec 32)) {b : BitVec 4096}
    (h : allow &&& ~~~b = 0) : allow &&& ~~~(ids.foldl idSet b) = 0 := by
  induction ids generalizing b with
  | nil => exact h
  | cons id ids ih => exact ih (idSet_mono h id)

theorem allowSet_append (ids more : List (BitVec 32)) :
    Kernel.allowSet ids &&& ~~~Kernel.allowSet (ids ++ more) = 0 := by
  unfold Kernel.allowSet
  rw [List.foldl_append]
  exact foldl_idSet_mono more (BitVec.and_not_self _)

/-- The policy of the program types without helpers of their own is the strictest of the kernel. -/
theorem laxer_forProg (progType progFlags : BitVec 32) :
    (Kernel.merlinVerifierCfgForProg 0 0).Laxer (Kernel.merlinVerifierCfgForProg progType progFlags) where
  helper := by
    dsimp only [Kernel.merlinVerifierCfgForProg]
    exact allowSet_append [helperLoopBound, helperKfuncResolve, helperLoopCb] _
  kfunc := by
    dsimp only [Kernel.merlinVerifierCfgForProg]
    exact allowSet_append [] _
  callback := by
    dsimp only [Kernel.merlinVerifierCfgForProg]
    exact allowSet_append [] _
  stack := by
    dsimp only [Kernel.merlinVerifierCfgForProg]
    rw [if_neg (show ¬ (0 &&& Kernel.fSleepable ≠ 0) by decide)]
    split_ifs <;> decide
  cap := by
    dsimp only [VerifierCfg.effectiveCap, Kernel.merlinVerifierCfgForProg]
    exact le_rfl
  body := rfl

/-- A guarded loop of a program type without helpers, as a program of a packet type that may sleep. -/
theorem accepted_of_laxer_sleepable :
    Accepted Kernel.guardedLoopText 0 (Kernel.merlinVerifierCfgForProg 7 Kernel.fSleepable) ∧
    ∃ fuel, Kernel.merlinVerifyText merlinDecoder (Kernel.merlinVerifierCfgForProg 7 Kernel.fSleepable)
      Kernel.guardedLoopText 0 fuel = some .ok :=
  (accepted_of_laxer (Kernel.merlinVerifierCfgForProg 0 0) (Kernel.merlinVerifierCfgForProg 7 Kernel.fSleepable)
    (laxer_forProg 7 Kernel.fSleepable) Kernel.guardedLoopText 0 (by decide)).2 (counterFits_of_cap (by decide +kernel))
    ⟨40, by decide +kernel⟩

end Policies

end MerlinV
