import MerlinV.Verify.Transfer

/-! # The transfer function of the kernel verifier

The joins and `step_insn` of `kernel/merlin/verifier.c`.  The kernel counts rejections in
a local it writes back at `out`, spells the register loops out in front of each exit, and
has its own text of the tristate join and of the allowlist tests.
-/
namespace MerlinV.Kernel

section Joins

def tnumJoin (a b : Tnum) : Tnum :=
  let mu := a.mask ||| b.mask ||| (a.value ^^^ b.value)
  ⟨(a.value &&& b.value) &&& ~~~mu, mu⟩

def scalarJoin (a b : Scalar) : Scalar where
  smin := if a.smin.slt b.smin then a.smin else b.smin
  smax := if b.smax.slt a.smax then a.smax else b.smax
  umin := if a.umin < b.umin then a.umin else b.umin
  umax := if a.umax > b.umax then a.umax else b.umax
  tn := tnumJoin a.tn b.tn

def rvalJoin (a b : Rval) : Rval :=
  match a, b with
  | .uninit, b => b
  | a, .uninit => a
  | .scalar s, .scalar t => .scalar (scalarJoin s t)
  | .ptrHelperRet i, .ptrHelperRet j => if i ≠ j then .scalarTop else .ptrHelperRet i
  | .ptrKfuncSlot i, .ptrKfuncSlot j => if i ≠ j then .scalarTop else .ptrKfuncSlot i
  | .ptrCtx lo hi, .ptrCtx lo' hi' =>
    .ptrCtx (if lo.slt lo' then lo else lo') (if hi'.slt hi then hi else hi')
  | .ptrStack lo hi, .ptrStack lo' hi' =>
    .ptrStack (if lo.slt lo' then lo else lo') (if hi'.slt hi then hi else hi')
  | _, _ => .scalarTop

def vstateJoin (dst src : VState) : VState :=
  if !src.valid then dst
  else if !dst.valid then src
  else { dst with x := fun i => rvalJoin (dst.x i) (src.x i) }

def vstateJoinChanged (dst src : VState) : Bool :=
  if !src.valid then false
  else if !dst.valid then true
  else (List.finRange 32).any fun i => !(rvalJoin (dst.x i) (src.x i)).equal (dst.x i)

end Joins

section Step

/-- The test `helper_allowed`, `kfunc_allowed` and `callback_allowed` share; the largest id of
each list is 4095. -/
def idAllowed (allow : BitVec 4096) (id : BitVec 32) : Bool :=
  if id.toNat > 4095 then false else allow.getLsbD id.toNat

def helperAllowed (cfg : VerifierCfg) (id : BitVec 32) : Bool := idAllowed cfg.helperAllow id
def kfuncAllowed (cfg : VerifierCfg) (id : BitVec 32) : Bool := idAllowed cfg.kfuncAllow id
def callbackAllowed (cfg : VerifierCfg) (id : BitVec 32) : Bool := idAllowed cfg.callbackAllow id

def uninitRange (st : VState) (lo hi : Reg) : VState :=
  { st with x := fun r => if lo ≤ r ∧ r ≤ hi then .uninit else st.x r }

/-- The three clobber loops after a helper call; the first starts at `lo`. -/
def clobberFrom (lo : Reg) (st : VState) : VState :=
  uninitRange (uninitRange (uninitRange st lo 17) 5 7) 28 31

structure Step where
  st : VState
  rejected : ℕ
  pending : BitVec 32

def assign (st : VState) (rd : Reg) (v : Rval) (rejected : ℕ) : VState × ℕ :=
  if rd = 2 then (st.set 2 .scalarTop, rejected + 1)
  else if rd ≠ 0 then (st.set rd v, rejected)
  else (st, rejected)

def stepKfuncResolve (cfg : VerifierCfg) (st : VState) (rejected : ℕ) (pending : BitVec 32) : Step :=
  match (st.x 10).const? with
  | none => ⟨clobberFrom 11 (st.set 10 .scalarTop), rejected + 1, pending⟩
  | some a0 =>
    let id := a0.tn.value.setWidth 32
    if !kfuncAllowed cfg id then ⟨clobberFrom 11 (st.set 10 .scalarTop), rejected + 1, pending⟩
    else ⟨(clobberFrom 11 st).set 10 (.ptrKfuncSlot id), rejected, pending⟩

/-- The rejections of `MERLIN_HELPER_LOOP_CB` and the bound it leaves pending. -/
def loopCbChecks (cfg : VerifierCfg) (st : VState) (rejected : ℕ) (pending : BitVec 32) :
    ℕ × BitVec 32 :=
  match (st.x 10).const?, (st.x 11).const? with
  | none, _ => (rejected + 1, pending)
  | some a0, a1? =>
    if a0.smin.slt 1#64 then (rejected + 1, pending)
    else match a1? with
      | none => (rejected + 1, pending)
      | some a1 =>
        if !callbackAllowed cfg (a1.tn.value.setWidth 32) then (rejected + 1, pending)
        else (rejected, a0.tn.value.setWidth 32)

/-- `MERLIN_HELPER_LOOP_CB`: the registers are clobbered whatever the checks found. -/
def stepLoopCb (cfg : VerifierCfg) (st : VState) (rejected : ℕ) (pending : BitVec 32) : Step :=
  let out := loopCbChecks cfg st rejected pending
  ⟨(clobberFrom 10 st).set 10 .scalarTop, out.1, out.2⟩

def stepEcall (cfg : VerifierCfg) (st : VState) (rejected : ℕ) (pending : BitVec 32) : Step :=
  match (st.x 17).const? with
  | none => ⟨st.set 10 .scalarTop, rejected + 1, pending⟩
  | some a7 =>
    let hid := a7.tn.value.setWidth 32
    if !helperAllowed cfg hid then ⟨st.set 10 .scalarTop, rejected + 1, pending⟩
    else
      let pending :=
        if hid = helperLoopBound then
          match (st.x 10).const? with
          | some a0 => a0.tn.value.setWidth 32
          | none => 0xffffffff
        else pending
      if hid = helperKfuncResolve then stepKfuncResolve cfg st rejected pending
      else if hid = helperLoopCb then stepLoopCb cfg st rejected pending
      else ⟨clobberFrom 11 (st.set 10 (.ptrHelperRet hid)), rejected, pending⟩

def accessRejected (cfg : VerifierCfg) (base : Rval) (imm : Word) (width : ℕ) (rejected : ℕ) : ℕ :=
  if !base.isPtr then rejected + 1
  else match base with
    | .ptrStack offMin offMax =>
      if (offMin + imm).slt (-cfg.budget) || (0#64).slt (offMax + imm + BitVec.ofNat 64 width) then
        rejected + 1
      else rejected
    | _ => rejected

def stepAddi (cfg : VerifierCfg) (insn : Insn) (st : VState) (rejected : ℕ) : VState × ℕ :=
  if insn.rs1 = 0 then assign st insn.rd (.const insn.imm) rejected
  else if insn.rd = 2 ∧ insn.rs1 ≠ 2 then (st.set 2 .scalarTop, rejected + 1)
  else match st.x insn.rs1 with
    | .scalar s => assign st insn.rd (.scalar (s.add (Scalar.const insn.imm))) rejected
    | .ptrCtx offMin offMax =>
      if insn.rd ≠ 0 then (st.set insn.rd (.ptrCtx (offMin + insn.imm) (offMax + insn.imm)), rejected)
      else (st, rejected)
    | .ptrStack offMin offMax =>
      if insn.rd ≠ 0 then
        let lo := offMin + insn.imm
        let hi := offMax + insn.imm
        let rejected := if insn.rd = 2 ∧ lo.slt (-cfg.budget) then rejected + 1 else rejected
        let rejected := if insn.rd = 2 ∧ (0#64).slt hi then rejected + 1 else rejected
        (st.set insn.rd (.ptrStack lo hi), rejected)
      else (st, rejected)
    | _ => assign st insn.rd .scalarTop rejected

def stepAluReg (insn : Insn) (st : VState) (rejected : ℕ) : VState × ℕ :=
  let p1 := (st.x insn.rs1).isPtr
  let p2 := (st.x insn.rs2).isPtr
  let v :=
    if p1 || p2 then (if p1 then st.x insn.rs1 else st.x insn.rs2).widenOff else .scalarTop
  assign st insn.rd v (if p1 && p2 then rejected + 1 else rejected)

def jalrRejected (cfg : VerifierCfg) (insn : Insn) (st : VState) (rejected : ℕ) : ℕ :=
  let isReturn : Bool := insn.rs1 = 1
  let isKfunc := match st.x insn.rs1 with
    | .ptrKfuncSlot id => kfuncAllowed cfg id
    | _ => false
  if !isReturn && !isKfunc then rejected + 1 else rejected

def stepPlain (cfg : VerifierCfg) (insn : Insn) (st : VState) (rejected : ℕ) : VState × ℕ :=
  match insn.cls with
  | .load =>
    assign st insn.rd .scalarTop
      (accessRejected cfg (st.x insn.rs1) insn.imm (ldWidth insn.ldKind) rejected)
  | .store => (st, accessRejected cfg (st.x insn.rs1) insn.imm (stWidth insn.stKind) rejected)
  | .aluImm =>
    if insn.aluOp = .add then stepAddi cfg insn st rejected
    else assign st insn.rd .scalarTop rejected
  | .lui => assign st insn.rd (.const insn.imm) rejected
  | .auipc => assign st insn.rd .scalarTop rejected
  | .aluReg => stepAluReg insn st rejected
  | .branch => (st, rejected)
  | .jal => assign st insn.rd .scalarTop rejected
  | .jalr => (st, jalrRejected cfg insn st rejected)
  | _ => (if insn.rd ≠ 0 then st.set insn.rd .scalarTop else st, rejected)

def stepInsn (D : Decoder) (cfg : VerifierCfg) (insn : Insn) (st : VState) (rejected : ℕ)
    (pending : BitVec 32) : Step :=
  if !D.permitted insn then ⟨st, rejected + 1, pending⟩
  else if insn.cls = .ecall then stepEcall cfg st rejected pending
  else
    let out := stepPlain cfg insn st rejected
    ⟨out.1, out.2, pending⟩

end Step

section Agreement

theorem rvalJoin_eq (a b : Rval) : rvalJoin a b = a.join b := by
  cases a <;> cases b <;> rfl

theorem vstateJoin_eq (dst src : VState) : vstateJoin dst src = dst.join src := by
  simp only [vstateJoin, VState.join, rvalJoin_eq]

theorem vstateJoinChanged_eq (dst src : VState) :
    vstateJoinChanged dst src = dst.joinChanged src := by
  simp only [vstateJoinChanged, VState.joinChanged, rvalJoin_eq]

theorem helperAllowed_eq (cfg : VerifierCfg) (id : BitVec 32) :
    helperAllowed cfg id = MerlinV.helperAllowed cfg id := rfl

theorem kfuncAllowed_eq (cfg : VerifierCfg) (id : BitVec 32) :
    kfuncAllowed cfg id = MerlinV.kfuncAllowed cfg id := rfl

theorem callbackAllowed_eq (cfg : VerifierCfg) (id : BitVec 32) :
    callbackAllowed cfg id = MerlinV.callbackAllowed cfg id := rfl

/-- The loops that start at `a1` leave every other register alone. -/
theorem clobberFrom_eleven (st : VState) : clobberFrom 11 st = st.clobber := by
  unfold clobberFrom uninitRange VState.clobber
  congr 1
  funext r
  by_cases h : clobbered r = true
  · rw [if_pos h]
    simp only [clobbered, Bool.or_eq_true, Bool.and_eq_true, decide_eq_true_iff] at h
    rcases h with (h | h) | h
    · simp only [h, and_self, if_true, ite_self]
    · simp only [h, and_self, if_true, ite_self]
    · simp only [h, and_self, if_true]
  · rw [if_neg h]
    simp only [clobbered, Bool.or_eq_true, Bool.and_eq_true, decide_eq_true_iff, not_or] at h
    dsimp only
    rw [if_neg h.2, if_neg h.1.2, if_neg h.1.1]

theorem clobber_set_ten (st : VState) (v : Rval) : (st.set 10 v).clobber = st.clobber.set 10 v := by
  rw [VState.ext_iff']
  refine ⟨rfl, fun r => ?_⟩
  by_cases hr : r = 10
  · subst hr
    rfl
  · simp only [VState.clobber, VState.set_x, hr, if_false]

/-- The loops that start at `a0` differ in `a0`, which is written afterwards. -/
theorem clobberFrom_ten_set (st : VState) (v : Rval) :
    (clobberFrom 10 st).set 10 v = st.clobber.set 10 v := by
  rw [← clobberFrom_eleven, VState.ext_iff']
  refine ⟨rfl, fun r => ?_⟩
  simp only [VState.set_x]
  split
  · rfl
  · rename_i hr
    have hne : (r : ℕ) ≠ 10 := fun h => hr (Fin.ext h)
    have hten : (10 ≤ r ∧ r ≤ 17) ↔ 11 ≤ r ∧ r ≤ 17 := by
      simp only [Fin.le_def, Fin.coe_ofNat_eq_mod]
      omega
    simp only [clobberFrom, uninitRange, hten]

theorem assign_eq (st : VState) (rd : Reg) (v : Rval) (why : Reject) (rejected : ℕ) :
    assign st rd v rejected =
      ((MerlinV.assign st rd v why).1, rejected + (MerlinV.assign st rd v why).2.length) := by
  unfold assign MerlinV.assign
  split
  · rfl
  · split <;> rfl

theorem accessRejected_eq (cfg : VerifierCfg) (base : Rval) (imm : Word) (width : ℕ)
    (nonPointer outOfFrame : Reject) (rejected : ℕ) :
    accessRejected cfg base imm width rejected =
      rejected + (accessRejects cfg base imm width nonPointer outOfFrame).length := by
  unfold accessRejected accessRejects
  split
  · rfl
  · cases base with
    | ptrStack offMin offMax =>
      dsimp only
      split <;> rfl
    | _ => rfl

def Step.of (out : MerlinV.Step) (rejected : ℕ) : Step :=
  ⟨out.st, rejected + out.rejects.length, out.pending⟩

variable {cfg : VerifierCfg} {insn : Insn} {st : VState} {rejected : ℕ} {pending : BitVec 32}

theorem stepKfuncResolve_eq :
    stepKfuncResolve cfg st rejected pending =
      .of (MerlinV.stepKfuncResolve cfg st pending) rejected := by
  unfold stepKfuncResolve MerlinV.stepKfuncResolve
  simp only [clobberFrom_eleven, clobber_set_ten]
  cases (st.x 10).const? with
  | none => rfl
  | some a0 =>
    dsimp only
    rw [kfuncAllowed_eq]
    split <;> rfl

theorem stepLoopCb_eq :
    stepLoopCb cfg st rejected pending = .of (MerlinV.stepLoopCb cfg st pending) rejected := by
  unfold stepLoopCb loopCbChecks MerlinV.stepLoopCb
  rw [clobberFrom_ten_set]
  cases (st.x 10).const? with
  | none => rfl
  | some a0 =>
    dsimp only
    split
    · rfl
    · cases (st.x 11).const? with
      | none => rfl
      | some a1 =>
        dsimp only
        rw [callbackAllowed_eq]
        split <;> rfl

theorem stepEcall_eq :
    stepEcall cfg st rejected pending = .of (MerlinV.stepEcall cfg st pending) rejected := by
  unfold stepEcall MerlinV.stepEcall
  cases (st.x 17).const? with
  | none => rfl
  | some a7 =>
    dsimp only
    simp only [helperAllowed_eq, stepKfuncResolve_eq, stepLoopCb_eq, clobberFrom_eleven, clobber_set_ten]
    split
    · rfl
    · split
      · rfl
      · split <;> rfl

theorem stepAddi_eq :
    stepAddi cfg insn st rejected =
      ((MerlinV.stepAddi cfg insn st).1, rejected + (MerlinV.stepAddi cfg insn st).2.length) := by
  unfold stepAddi MerlinV.stepAddi
  split
  · exact assign_eq ..
  · split
    · rfl
    · cases st.x insn.rs1 with
      | scalar s => exact assign_eq ..
      | ptrCtx offMin offMax =>
        dsimp only
        split <;> rfl
      | ptrStack offMin offMax =>
        dsimp only
        split
        · by_cases hsp : insn.rd = 2
          · simp only [hsp, true_and, if_true, spRejects, List.length_append]
            congr 1
            split <;> split <;> rfl
          · simp only [hsp, false_and, if_false, List.length_nil, Nat.add_zero]
        · rfl
      | _ => exact assign_eq ..

theorem stepAluReg_eq :
    stepAluReg insn st rejected =
      ((MerlinV.stepAluReg insn st).1, rejected + (MerlinV.stepAluReg insn st).2.length) := by
  unfold stepAluReg MerlinV.stepAluReg
  dsimp only
  rw [assign_eq _ _ _ .aluRegSp, List.length_append, ← Nat.add_assoc]
  congr 2
  split <;> rfl

theorem jalrRejected_eq :
    jalrRejected cfg insn st rejected = rejected + (jalrRejects cfg insn st).length := by
  unfold jalrRejected jalrRejects
  cases st.x insn.rs1 with
  | ptrKfuncSlot id =>
    dsimp only
    rw [kfuncAllowed_eq]
    split_ifs <;> rfl
  | _ =>
    dsimp only
    split_ifs <;> rfl

theorem stepPlain_eq :
    stepPlain cfg insn st rejected =
      ((MerlinV.stepPlain cfg insn st).1, rejected + (MerlinV.stepPlain cfg insn st).2.length) := by
  unfold stepPlain MerlinV.stepPlain
  cases insn.cls with
  | load =>
    dsimp only [stepLoad]
    rw [assign_eq _ _ _ .loadIntoSp, accessRejected_eq cfg _ _ _ .loadNonPointer .stackLoadOutOfFrame,
      List.length_append, Nat.add_assoc]
  | store => exact Prod.ext rfl (accessRejected_eq ..)
  | aluImm =>
    dsimp only [stepAluImm]
    split
    · exact stepAddi_eq
    · exact assign_eq ..
  | aluReg => exact stepAluReg_eq
  | jalr => exact Prod.ext rfl jalrRejected_eq
  | lui => exact assign_eq ..
  | auipc => exact assign_eq ..
  | jal => exact assign_eq ..
  | _ => rfl

/-- The kernel's transfer function is the userland one with the rejections counted. -/
theorem stepInsn_eq (D : Decoder) :
    stepInsn D cfg insn st rejected pending =
      .of (MerlinV.stepInsn D cfg insn st pending) rejected := by
  unfold stepInsn MerlinV.stepInsn
  split
  · rfl
  · split
    · exact stepEcall_eq
    · dsimp only [Step.of]
      rw [stepPlain_eq]

end Agreement

end MerlinV.Kernel
