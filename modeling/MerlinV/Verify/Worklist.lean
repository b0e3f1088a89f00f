import MerlinV.Cfg.Build
import MerlinV.Verify.Transfer

/-! # The worklist driver

`merlin_verify_text` of `tools/merlin-verifier/verify.c`.  `steps` and `rejected` count
without wrapping; the two places that read them (`steps > step_cap` and the final
verdict) reduce them to the `uint32_t` and `unsigned` of the source.
-/
namespace MerlinV

inductive VerifyResult where
  | ok | reject
  deriving DecidableEq, Repr

/-- The locals of `merlin_verify_text` that live across iterations. -/
structure Analysis where
  entryState : ℕ → VState
  loopHeaderOk : ℕ → Bool
  queue : List ℕ
  steps : ℕ
  rejected : ℕ

/-- `ws_push`: a block already queued is not queued again. -/
def wsPush (q : List ℕ) (b : ℕ) : List ℕ := if b ∈ q then q else q ++ [b]

/-- `ws_pop`: the block queued last. -/
def wsPop (q : List ℕ) : Option (ℕ × List ℕ) := q.getLast?.map fun b => (b, q.dropLast)

structure BlockRun where
  st : VState
  pending : BitVec 32
  steps : ℕ
  rejected : ℕ

section Driver

variable (D : Decoder) (cfg : VerifierCfg) (text : Text) (textOffset : BitVec 32)

def verifyInsn (off : ℕ) : Option Insn := D.decode (textWord text off) (pcAt textOffset off)

def blockOffsets (b : Block) : List ℕ :=
  (List.range' (b.startPc - textOffset).toNat (text.length / 4) 4).takeWhile fun off =>
    off ≤ (b.endPc - textOffset).toNat && off < text.length

/-- The instruction loop; `none` when the step cap is exceeded. -/
def insnLoop : List ℕ → BlockRun → Option BlockRun
  | [], r => some r
  | off :: offs, r =>
    match verifyInsn D text textOffset off with
    | none => insnLoop offs { r with rejected := r.rejected + 1 }
    | some insn =>
      if (r.steps + 1) % 2 ^ 32 > cfg.effectiveCap then none
      else
        let out := stepInsn D cfg insn r.st r.pending
        insnLoop offs ⟨out.st, out.pending, r.steps + 1, r.rejected + out.rejects.length⟩

/-- Mark `succ[0]` when the block left a loop bound pending. -/
def applyPending (b : Block) (pending : BitVec 32) (ok : ℕ → Bool) : ℕ → Bool :=
  match b.succ0 with
  | some h => if pending ≠ 0 then Function.update ok h true else ok
  | none => ok

/-- Join the exit state into one successor and queue it when its entry state changed. -/
def pushSucc (st : VState) (A : Analysis) (n : ℕ) : Analysis :=
  { A with
    entryState := Function.update A.entryState n ((A.entryState n).join st)
    queue := if (A.entryState n).joinChanged st then wsPush A.queue n else A.queue }

/-- One iteration of the worklist loop for block `i`, with the successors taken in the order
`succs`; `none` when the step cap is exceeded. -/
def visitVia (blocks : List Block) (succs : List ℕ) (A : Analysis) (i : ℕ) : Option Analysis :=
  match blocks[i]? with
  | none => some A
  | some b =>
    if !(A.entryState i).valid then some A
    else do
      let r ← insnLoop D cfg text textOffset (blockOffsets text textOffset b)
        ⟨A.entryState i, 0, A.steps, A.rejected⟩
      let A' := { A with
        steps := r.steps
        rejected := r.rejected
        loopHeaderOk := applyPending b r.pending A.loopHeaderOk }
      return succs.foldl (pushSucc r.st) A'

def visit (blocks : List Block) (A : Analysis) (i : ℕ) : Option Analysis :=
  visitVia D cfg text textOffset blocks (succsOf blocks i) A i

inductive LoopEnd where
  | fixpoint (A : Analysis)
  | capExceeded

/-- The worklist loop; `none` when `fuel` iterations were not enough. -/
def verifyLoop (blocks : List Block) : ℕ → Analysis → Option LoopEnd
  | 0, _ => none
  | fuel + 1, A =>
    match wsPop A.queue with
    | none => some (.fixpoint A)
    | some (i, q) =>
      match visit D cfg text textOffset blocks { A with queue := q } i with
      | none => some .capExceeded
      | some A' => verifyLoop blocks fuel A'

def Analysis.init : Analysis where
  entryState := Function.update (fun _ => VState.bottom) 0 (vstateInitEntry cfg)
  loopHeaderOk _ := false
  queue := wsPush [] 0
  steps := 0
  rejected := 0

def gateRejects (G : Cfg) (A : Analysis) : ℕ :=
  (G.backEdges.filter fun e => !A.loopHeaderOk e.2).length

def verdict (G : Cfg) (A : Analysis) : VerifyResult :=
  if (A.rejected + gateRejects G A) % 2 ^ 32 ≠ 0 then .reject else .ok

/-- `merlin_verify_text`.  There is no result for the empty text, whose `entry_state[0]` is out
of range; allocation is taken to succeed. -/
def merlinVerifyText (fuel : ℕ) : Option VerifyResult :=
  if text.length % 4 ≠ 0 then some .reject
  else match merlinCfgBuild D text textOffset with
    | .error _ => some .reject
    | .ok G =>
      if G.nblocks = 0 then none
      else match verifyLoop D cfg text textOffset G.blocks fuel (Analysis.init cfg) with
        | none => none
        | some .capExceeded => some .reject
        | some (.fixpoint A) => some (verdict G A)

end Driver

/-- `merlin_verify_text` of the userland verifier returns `MERLIN_VERIFY_OK`. -/
def Accepted (text : Text) (textOffset : BitVec 32) (cfg : VerifierCfg) : Prop :=
  ∃ fuel, merlinVerifyText merlinDecoder cfg text textOffset fuel = some .ok

end MerlinV
