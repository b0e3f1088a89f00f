import MerlinV.Machine.Rv64

/-! # Shadow state: where the register values of a run come from

A run of the machine is accompanied by a tag on every register and by the local calls it
made.  A register is stale while the path taken so far has not given it a value since
entry or since the last call that may have changed it; its provenance says whether its
value is a number, a pointer moved by numbers, or a number the verifier takes for a
pointer.
-/
namespace MerlinV

/-- What a pointer is derived from. -/
inductive Root where
  | ctx | stack | helper
  deriving DecidableEq, Repr

/-- How a value was obtained.  `minted` is what the verifier types as a pointer without a root:
the result of an integer-returning helper, and that of a register operation other than pointer
plus or minus integer on a pointer or on a minted value. -/
inductive Prov where
  | int
  | ptr (root : Root)
  | minted
  deriving DecidableEq, Repr

structure Tag where
  stale : Bool
  prov : Prov
  /-- A register operation left it further than `2^30` from the entry `sp`. -/
  far : Bool
  deriving DecidableEq, Repr

def Tag.fresh : Tag := ⟨false, .int, false⟩

def Tag.lost : Tag := ⟨true, .int, false⟩

/-- A local call: where it returns, and the registers right behind the `jal`. -/
structure Call where
  ret : ℕ
  x : Reg → Word
  tags : Reg → Tag

structure Shadow where
  tags : Reg → Tag
  calls : List Call

def aluProv (op : AluOp) : Prov → Prov → Prov
  | .int, .int => .int
  | .ptr root, .int => if op = .add ∨ op = .sub then .ptr root else .minted
  | .int, .ptr root => if op = .add then .ptr root else .minted
  | _, _ => .minted

def aluTag (E : Env) (op : AluOp) (a b : Tag) (v : Word) : Tag :=
  ⟨a.stale || b.stale, aluProv op a.prov b.prov, a.far || b.far || !decide (Near E.sp0 v)⟩

def resultTag (E : Env) (insn : Insn) (s : MState) (tags : Reg → Tag) : Tag :=
  match insn.cls with
  | .aluImm => if insn.aluOp = .add then tags insn.rs1 else .fresh
  | .aluReg => aluTag E insn.aluOp (tags insn.rs1) (tags insn.rs2)
      (aluOf insn (s.x insn.rs1) (s.x insn.rs2))
  | .jalr => .lost
  | _ => .fresh

def plainTags (E : Env) (insn : Insn) (s : MState) (tags : Reg → Tag) : Reg → Tag := fun r =>
  if r = insn.rd ∧ insn.rd ≠ 0 ∧ (result? insn s).isSome then resultTag E insn s tags else tags r

/-- `map_lookup_elem` and `ringbuf_reserve` return pointers. -/
def returnsPointer (id : Word) : Bool := id = 0x0101 || id = 0x0150

def helperProv (id : Word) : Prov :=
  if returnsPointer id then .ptr .helper
  else if id = helperKfuncResolve.setWidth 64 ∨ id = helperLoopCb.setWidth 64 then .int
  else .minted

/-- The tag of `a0` behind a helper call, which is only as good as `a7`. -/
def helperTag (s : MState) (tags : Reg → Tag) : Tag where
  stale := (tags 17).stale || decide (2 ^ 32 ≤ (s.x 17).toNat) ||
    (s.x 17 = helperKfuncResolve.setWidth 64 && (tags 10).stale)
  prov := helperProv (s.x 17)
  far := false

/-- The tags behind a call that keeps the callee-saved registers. -/
def callTags (tags : Reg → Tag) : Reg → Tag := fun r => if callerSaved r then .lost else tags r

def helperTags (s : MState) (tags : Reg → Tag) : Reg → Tag := fun r =>
  if r = 10 then helperTag s tags else callTags tags r

/-- Back from a local call, a register that is not what it was at the call is stale. -/
def returnTags (c : Call) (x : Reg → Word) (tags : Reg → Tag) : Reg → Tag := fun r =>
  if x r = c.x r ∧ tags r = c.tags r then tags r else { tags r with stale := true }

/-- Arrive at `pc` by a `jalr` or from a kfunc. -/
def Shadow.land (g : Shadow) (E : Env) (s' : MState) (tags : Reg → Tag) : Shadow :=
  match g.calls.find? fun c => c.ret = E.off s'.pc with
  | some c => { g with tags := returnTags c s'.x tags }
  | none => { g with tags := tags }

def Shadow.next (g : Shadow) (E : Env) (s s' : MState) : Shadow :=
  match E.fetch s.pc with
  | none => g.land E s' (callTags g.tags)
  | some insn =>
    let tags := plainTags E insn s g.tags
    match insn.cls with
    | .ecall => { g with tags := helperTags s g.tags }
    | .jalr => g.land E s' tags
    | .jal => if insn.rd ≠ 0 then ⟨tags, ⟨E.off s.pc + 4, s'.x, tags⟩ :: g.calls⟩
      else { g with tags := tags }
    | _ => { g with tags := tags }

def Shadow.entry (callback : Bool) : Shadow where
  tags r :=
    if r = 0 then .fresh
    else if r = 2 then ⟨false, .ptr .stack, false⟩
    else if callback then
      if r = 10 then .fresh else if r = 11 then ⟨false, .ptr .ctx, false⟩ else .lost
    else if r = 10 then ⟨false, .ptr .ctx, false⟩ else .lost
  calls := []

section Flow

variable (textOffset : BitVec 32) (E : Env) (s : MState) (g : Shadow) (s' : MState)

/-- The step arrives behind a local call. -/
def AtCall : Prop := (∃ c ∈ g.calls, c.ret = E.off s'.pc) ∧ pcAt textOffset (E.off s'.pc) ≠ 0

/-- A step that stays in the text goes where the block graph has an edge: a branch or `jal` to a
whole instruction whose program counter is not `0`, a `jalr` or a kfunc back behind a local
call. -/
def FlowOk : Prop :=
  E.InText s'.pc →
    match E.fetch s.pc with
    | none => AtCall textOffset E g s'
    | some insn =>
      match insn.cls with
      | .branch | .jal => E.off s'.pc % 4 = 0 ∧ pcAt textOffset (E.off s'.pc) ≠ 0
      | .jalr => AtCall textOffset E g s'
      | _ => True

end Flow

/-- The runs whose steps all follow the block graph, with their shadow. -/
inductive ShadowRun (textOffset : BitVec 32) (E : Env) (callback : Bool) :
    MState → Shadow → Prop where
  | entry {s : MState} (start : Entry E callback s) :
      ShadowRun textOffset E callback s (Shadow.entry callback)
  | step {s s' : MState} {g : Shadow} (run : ShadowRun textOffset E callback s g)
      (step : MStep E s s') (flow : FlowOk textOffset E s g s') :
      ShadowRun textOffset E callback s' (g.next E s s')

/-- The runs along the block graph whose steps all start in a state that meets `C`. -/
inductive GuardedRun (textOffset : BitVec 32) (E : Env) (callback : Bool)
    (C : MState → Shadow → Prop) : MState → Shadow → Prop where
  | entry {s : MState} (start : Entry E callback s) :
      GuardedRun textOffset E callback C s (Shadow.entry callback)
  | step {s s' : MState} {g : Shadow} (run : GuardedRun textOffset E callback C s g) (guard : C s g)
      (step : MStep E s s') (flow : FlowOk textOffset E s g s') :
      GuardedRun textOffset E callback C s' (g.next E s s')

section Runs

variable {textOffset : BitVec 32} {E : Env} {callback : Bool} {s : MState} {g : Shadow}

theorem ShadowRun.mRun (h : ShadowRun textOffset E callback s g) : MRun E callback s := by
  induction h with
  | entry start => exact .entry start
  | step _ hs _ ih => exact .step ih hs

theorem GuardedRun.shadowRun {C : MState → Shadow → Prop}
    (h : GuardedRun textOffset E callback C s g) : ShadowRun textOffset E callback s g := by
  induction h with
  | entry start => exact .entry start
  | step _ _ hs hf ih => exact .step ih hs hf

end Runs

end MerlinV
