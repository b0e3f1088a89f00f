import MerlinV.Domain.Rval

/-! # The transfer function of the abstract interpreter

`struct merlin_verifier_cfg` and `step_insn` of `tools/merlin-verifier/verify.c`.  Each
`REJECT` of the source is a constructor of `Reject`; a step returns the rejections it
raises, the new abstract state and the pending loop-bound annotation.
-/
namespace MerlinV

/-- The fields of `struct merlin_verifier_cfg` that the analysis reads.  Bit `id` of an
allowlist is bit `id % 8` of its byte `id / 8`. -/
structure VerifierCfg where
  helperAllow : BitVec 4096
  kfuncAllow : BitVec 4096
  callbackAllow : BitVec 4096
  maxStackBytes : BitVec 32
  isCallbackBody : Bool
  stepCap : BitVec 32
  deriving DecidableEq

/-- The test `helper_allowed`, `kfunc_allowed` and `callback_allowed` share. -/
def idAllowed (allow : BitVec 4096) (id : BitVec 32) : Bool :=
  if id.toNat ≥ 4096 then false else allow.getLsbD id.toNat

def helperAllowed (cfg : VerifierCfg) (id : BitVec 32) : Bool := idAllowed cfg.helperAllow id
def kfuncAllowed (cfg : VerifierCfg) (id : BitVec 32) : Bool := idAllowed cfg.kfuncAllow id
def callbackAllowed (cfg : VerifierCfg) (id : BitVec 32) : Bool := idAllowed cfg.callbackAllow id

def stepCapDefault : BitVec 32 := 1#32 <<< 20

/-- The step cap `merlin_verify_text` enforces. -/
def VerifierCfg.effectiveCap (cfg : VerifierCfg) : ℕ :=
  if cfg.stepCap ≠ 0 then cfg.stepCap.toNat else stepCapDefault.toNat

def VerifierCfg.budget (cfg : VerifierCfg) : Word := cfg.maxStackBytes.setWidth 64

def helperLoopBound : BitVec 32 := 0x0142
def helperKfuncResolve : BitVec 32 := 0x0143
def helperLoopCb : BitVec 32 := 0x0144

/-- The step `helper_set`, `kfunc_set` and `callback_set` share. -/
def idSet (allow : BitVec 4096) (id : BitVec 32) : BitVec 4096 :=
  if id.toNat < 4096 then allow ||| BitVec.twoPow 4096 id.toNat else allow

def helperSet (cfg : VerifierCfg) (id : BitVec 32) : VerifierCfg :=
  { cfg with helperAllow := idSet cfg.helperAllow id }

def kfuncSet (cfg : VerifierCfg) (id : BitVec 32) : VerifierCfg :=
  { cfg with kfuncAllow := idSet cfg.kfuncAllow id }

def callbackSet (cfg : VerifierCfg) (id : BitVec 32) : VerifierCfg :=
  { cfg with callbackAllow := idSet cfg.callbackAllow id }

def merlinVerifierCfgInitForMvdp : VerifierCfg :=
  let cleared : VerifierCfg :=
    { helperAllow := 0, kfuncAllow := 0, callbackAllow := 0, maxStackBytes := 512, isCallbackBody := false,
      stepCap := stepCapDefault }
  let helpers := [0x0101, 0x0102, 0x0103, 0x0110, 0x0120, 0x0121, 0x0140, helperLoopBound, helperKfuncResolve,
    helperLoopCb, 0x0150, 0x0151, 0x0152, 0x0201, 0x0202, 0x0203, 0x0204, 0x0205, 0x0206, 0x0207, 0x0208,
    0x0209].foldl helperSet cleared
  callbackSet ([0x001, 0x002, 0x003].foldl kfuncSet helpers) 0x001

@[simp]
theorem merlinVerifierCfgInitForMvdp_isCallbackBody : merlinVerifierCfgInitForMvdp.isCallbackBody = false := rfl

/-- The `REJECT` sites of `step_insn` and of the two loops of `merlin_verify_text`. -/
inductive Reject where
  | undecipherable | forbiddenClass
  | ecallNonConstA7 | helperNotAllowed
  | kfuncResolveNonConst | kfuncNotAllowed
  | loopCbTripCount | loopCbNonConstId | loopCbNotAllowed
  | loadNonPointer | stackLoadOutOfFrame | loadIntoSp
  | storeNonPointer | stackStoreOutOfFrame
  | spFromNonSp | addiScalarSp | spUnderflow | spAboveEntry | addiSpNonPointer | nonAddAluSp
  | luiSp | auipcSp
  | aluTwoPointers | aluRegSp
  | jalSp | jalrIndirect
  deriving DecidableEq, Repr

/-- `vstate_init_entry`.  The callback index leaves `umin` and `umax` at zero, as the
designated initialiser of the source does. -/
def vstateInitEntry (cfg : VerifierCfg) : VState where
  x r :=
    if r = 0 then Rval.const 0
    else if r = 2 then .ptrStack 0 0
    else if cfg.isCallbackBody then
      if r = 10 then .scalar ⟨0, int64Max, 0, 0, Tnum.top⟩
      else if r = 11 then .ptrCtx 0 0
      else .uninit
    else if r = 10 then .ptrCtx 0 0
    else .uninit
  valid := true

structure Step where
  st : VState
  rejects : List Reject
  pending : BitVec 32

def ldWidth : LoadKind → ℕ
  | .lb | .lbu => 1
  | .lh | .lhu => 2
  | .lw | .lwu => 4
  | .ld => 8

def stWidth : StoreKind → ℕ
  | .sb => 1
  | .sh => 2
  | .sw => 4
  | .sd => 8

/-- The registers a helper call invalidates next to `a0`: `a1`–`a7`, `t0`–`t2`, `t3`–`t6`. -/
def clobbered (r : Reg) : Bool :=
  (11 ≤ r && r ≤ 17) || (5 ≤ r && r ≤ 7) || (28 ≤ r && r ≤ 31)

def VState.clobber (st : VState) : VState :=
  { st with x := fun r => if clobbered r then .uninit else st.x r }

/-- Write `v` to `rd`; a write to `sp` raises `why` and leaves the top scalar there. -/
def assign (st : VState) (rd : Reg) (v : Rval) (why : Reject) : VState × List Reject :=
  if rd = 2 then (st.set 2 .scalarTop, [why])
  else if rd ≠ 0 then (st.set rd v, [])
  else (st, [])

/-- The checks on the base register of a load or store of `width` bytes. -/
def accessRejects (cfg : VerifierCfg) (base : Rval) (imm : Word) (width : ℕ)
    (nonPointer outOfFrame : Reject) : List Reject :=
  if !base.isPtr then [nonPointer]
  else match base with
    | .ptrStack offMin offMax =>
      let lo := offMin + imm
      let hi := offMax + imm
      if lo.slt (-cfg.budget) || (0#64).slt (hi + BitVec.ofNat 64 width) then [outOfFrame] else []
    | _ => []

/-- `kfunc_resolve`: `a0` has to be a constant id of the kfunc allowlist. -/
def stepKfuncResolve (cfg : VerifierCfg) (st : VState) (pending : BitVec 32) : Step :=
  match (st.x 10).const? with
  | none => ⟨st.clobber.set 10 .scalarTop, [.kfuncResolveNonConst], pending⟩
  | some a0 =>
    let id := a0.tn.value.setWidth 32
    if !kfuncAllowed cfg id then ⟨st.clobber.set 10 .scalarTop, [.kfuncNotAllowed], pending⟩
    else ⟨st.clobber.set 10 (.ptrKfuncSlot id), [], pending⟩

/-- `loop_cb`: a constant trip count of at least one and an allowed constant callback id. -/
def stepLoopCb (cfg : VerifierCfg) (st : VState) (pending : BitVec 32) : Step :=
  let st' := st.clobber.set 10 .scalarTop
  match (st.x 10).const? with
  | none => ⟨st', [.loopCbTripCount], pending⟩
  | some a0 =>
    if a0.smin.slt 1#64 then ⟨st', [.loopCbTripCount], pending⟩
    else match (st.x 11).const? with
      | none => ⟨st', [.loopCbNonConstId], pending⟩
      | some a1 =>
        if !callbackAllowed cfg (a1.tn.value.setWidth 32) then ⟨st', [.loopCbNotAllowed], pending⟩
        else ⟨st', [], a0.tn.value.setWidth 32⟩

def loopBoundPending (hid : BitVec 32) (a0 : Rval) (pending : BitVec 32) : BitVec 32 :=
  if hid = helperLoopBound then
    match a0.const? with
    | some s => s.tn.value.setWidth 32
    | none => 0xffffffff
  else pending

/-- `ECALL`: the helper id is the low word of a constant `a7`. -/
def stepEcall (cfg : VerifierCfg) (st : VState) (pending : BitVec 32) : Step :=
  match (st.x 17).const? with
  | none => ⟨st.set 10 .scalarTop, [.ecallNonConstA7], pending⟩
  | some a7 =>
    let hid := a7.tn.value.setWidth 32
    if !helperAllowed cfg hid then ⟨st.set 10 .scalarTop, [.helperNotAllowed], pending⟩
    else
      let pending := loopBoundPending hid (st.x 10) pending
      if hid = helperKfuncResolve then stepKfuncResolve cfg st pending
      else if hid = helperLoopCb then stepLoopCb cfg st pending
      else ⟨st.clobber.set 10 (.ptrHelperRet hid), [], pending⟩

def stepLoad (cfg : VerifierCfg) (insn : Insn) (st : VState) : VState × List Reject :=
  let checks := accessRejects cfg (st.x insn.rs1) insn.imm (ldWidth insn.ldKind)
    .loadNonPointer .stackLoadOutOfFrame
  let out := assign st insn.rd .scalarTop .loadIntoSp
  (out.1, checks ++ out.2)

def stepStore (cfg : VerifierCfg) (insn : Insn) (st : VState) : VState × List Reject :=
  (st, accessRejects cfg (st.x insn.rs1) insn.imm (stWidth insn.stKind)
    .storeNonPointer .stackStoreOutOfFrame)

def spRejects (cfg : VerifierCfg) (offMin offMax : Word) : List Reject :=
  (if offMin.slt (-cfg.budget) then [.spUnderflow] else []) ++
    (if (0#64).slt offMax then [.spAboveEntry] else [])

/-- `addi rd, rs1, imm`, the one operation that keeps constants and pointer offsets. -/
def stepAddi (cfg : VerifierCfg) (insn : Insn) (st : VState) : VState × List Reject :=
  if insn.rs1 = 0 then assign st insn.rd (.const insn.imm) .spFromNonSp
  else if insn.rd = 2 ∧ insn.rs1 ≠ 2 then (st.set 2 .scalarTop, [.spFromNonSp])
  else match st.x insn.rs1 with
    | .scalar s => assign st insn.rd (.scalar (s.add (Scalar.const insn.imm))) .addiScalarSp
    | .ptrCtx offMin offMax =>
      if insn.rd ≠ 0 then (st.set insn.rd (.ptrCtx (offMin + insn.imm) (offMax + insn.imm)), [])
      else (st, [])
    | .ptrStack offMin offMax =>
      if insn.rd ≠ 0 then
        (st.set insn.rd (.ptrStack (offMin + insn.imm) (offMax + insn.imm)),
          if insn.rd = 2 then spRejects cfg (offMin + insn.imm) (offMax + insn.imm) else [])
      else (st, [])
    | _ => assign st insn.rd .scalarTop .addiSpNonPointer

/-- `ALU_IMM`: everything but the addition gives an unknown scalar. -/
def stepAluImm (cfg : VerifierCfg) (insn : Insn) (st : VState) : VState × List Reject :=
  if insn.aluOp = .add then stepAddi cfg insn st
  else assign st insn.rd .scalarTop .nonAddAluSp

/-- The offset window a register ALU operation gives a pointer: plus or minus `2^30`. -/
def Rval.widenOff : Rval → Rval
  | .ptrCtx _ _ => .ptrCtx (-(1#64 <<< 30)) (1#64 <<< 30)
  | .ptrStack _ _ => .ptrStack (-(1#64 <<< 30)) (1#64 <<< 30)
  | v => v

def aluRegResult (a b : Rval) : Rval :=
  if a.isPtr || b.isPtr then (if a.isPtr then a else b).widenOff else .scalarTop

def stepAluReg (insn : Insn) (st : VState) : VState × List Reject :=
  let a := st.x insn.rs1
  let b := st.x insn.rs2
  let out := assign st insn.rd (aluRegResult a b) .aluRegSp
  (out.1, (if a.isPtr && b.isPtr then [.aluTwoPointers] else []) ++ out.2)

/-- `JALR`: a return through `ra` or a call through an allowed kfunc slot. -/
def jalrRejects (cfg : VerifierCfg) (insn : Insn) (st : VState) : List Reject :=
  let isKfunc := match st.x insn.rs1 with
    | .ptrKfuncSlot id => kfuncAllowed cfg id
    | _ => false
  if !(insn.rs1 = 1) && !isKfunc then [.jalrIndirect] else []

/-- The classes below `ECALL`, which leave the pending bound alone. -/
def stepPlain (cfg : VerifierCfg) (insn : Insn) (st : VState) : VState × List Reject :=
  match insn.cls with
  | .load => stepLoad cfg insn st
  | .store => stepStore cfg insn st
  | .aluImm => stepAluImm cfg insn st
  | .lui => assign st insn.rd (.const insn.imm) .luiSp
  | .auipc => assign st insn.rd .scalarTop .auipcSp
  | .aluReg => stepAluReg insn st
  | .branch => (st, [])
  | .jal => assign st insn.rd .scalarTop .jalSp
  | .jalr => (st, jalrRejects cfg insn st)
  | _ => (if insn.rd ≠ 0 then st.set insn.rd .scalarTop else st, [])

def stepInsn (D : Decoder) (cfg : VerifierCfg) (insn : Insn) (st : VState)
    (pending : BitVec 32) : Step :=
  if !D.permitted insn then ⟨st, [.forbiddenClass], pending⟩
  else if insn.cls = .ecall then stepEcall cfg st pending
  else
    let out := stepPlain cfg insn st
    ⟨out.1, out.2, pending⟩

end MerlinV
