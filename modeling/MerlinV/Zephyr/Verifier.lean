import MerlinV.Zephyr.Decode

/-! # The verifier of the RTOS build

`zephyr/merlin/src/verifier.c` scans the text once from its first word to its last and carries one
register state along.  It is accepted when no word was counted as a rejection.  The log lines are
left out; they decide nothing.
-/
namespace MerlinV.Zephyr

inductive Rval where
  | unknown
  | const (val : BitVec 32)
  | ptrCtx (off : BitVec 32)
  | ptrStack (off : BitVec 32)
  | ptrHelperRet (id : BitVec 32)
  deriving DecidableEq, Repr

def Rval.isPtr : Rval → Bool
  | .unknown | .const _ => false
  | _ => true

abbrev VState := Reg → Rval

/-- The fields of `struct merlin_verifier_cfg` that the caller sets. -/
structure VerifierCfg where
  helperAllow : BitVec 512
  maxHelperId : BitVec 16
  maxStackBytes : BitVec 16
  allowBackEdges : Bool
  deriving DecidableEq, Repr

def vstateInitEntry : VState := fun i =>
  if i = 0 then .const 0
  else if i = 10 then .ptrCtx 0
  else if i = 2 then .ptrStack 0
  else .unknown

def helperAllowed (cfg : VerifierCfg) (id : BitVec 32) : Bool :=
  if id.toNat > cfg.maxHelperId.toNat then false
  else if id.toNat / 8 ≥ 64 then false
  else cfg.helperAllow.getLsbD id.toNat

/-- `s` with `cfg->insns_seen` and `cfg->rejected`. -/
structure Scan where
  x : VState
  insnsSeen : ℕ
  rejected : ℕ

namespace Scan

def reject (s : Scan) : Scan := { s with rejected := s.rejected + 1 }

def set (s : Scan) (rd : Reg) (v : Rval) : Scan := { s with x := Function.update s.x rd v }

/-- A write that leaves `x0` alone. -/
def assign (s : Scan) (rd : Reg) (v : Rval) : Scan := if rd ≠ 0 then s.set rd v else s

def clobber (s : Scan) : Scan :=
  { s with x := fun r =>
      if (11 ≤ r ∧ r ≤ 17) ∨ (5 ≤ r ∧ r ≤ 7) ∨ (28 ≤ r ∧ r ≤ 31) then .unknown else s.x r }

end Scan

section Driver

variable (cfg : VerifierCfg)

def scanEcall (s : Scan) : Scan :=
  match s.x 17 with
  | .const a7 =>
    if !helperAllowed cfg a7 then s.reject.clobber else (s.set 10 (.ptrHelperRet a7)).clobber
  | _ => s.reject.clobber

def scanAccess (insn : Insn) (s : Scan) : Scan :=
  let s' := if (s.x insn.rs1).isPtr then s else s.reject
  if insn.cls = .load then s'.assign insn.rd .unknown else s'

/-- `INSN_ALU_IMM` with `ALU_ADD`.  Constants and pointers are written to `x0` as well. -/
def scanAddi (insn : Insn) (s : Scan) : Scan :=
  if insn.rs1 = 0 then s.set insn.rd (.const insn.imm)
  else match s.x insn.rs1 with
    | .const v => s.set insn.rd (.const (v + insn.imm))
    | .ptrCtx off => s.set insn.rd (.ptrCtx (off + insn.imm))
    | .ptrStack off => s.set insn.rd (.ptrStack (off + insn.imm))
    | _ => s.assign insn.rd .unknown

def backEdge (insn : Insn) : Bool :=
  (insn.cls = .jal || insn.cls = .branch) && insn.imm.slt 0 && !cfg.allowBackEdges

def scanInsn (insn : Insn) (s : Scan) : Scan :=
  if !merlinInsnPermittedRtos insn then s.reject
  else
    let s := if backEdge cfg insn then s.reject else s
    if insn.cls = .ecall then scanEcall cfg s
    else if insn.cls = .load ∨ insn.cls = .store then scanAccess insn s
    else if insn.cls = .aluImm ∧ insn.aluOp = .add then scanAddi insn s
    else if insn.cls = .lui then s.assign insn.rd (.const insn.imm)
    else s.assign insn.rd .unknown

variable (text : Text)

def insnAt (off : ℕ) : Option Insn := merlinDecode (textWord text off) (BitVec.ofNat 32 off)

def scanWord (s : Scan) (i : ℕ) : Scan :=
  match insnAt text (4 * i) with
  | none => s.reject
  | some insn => scanInsn cfg insn { s with insnsSeen := s.insnsSeen + 1 }

def scan (n : ℕ) : Scan := (List.range n).foldl (scanWord cfg text) ⟨vstateInitEntry, 0, 0⟩

/-- What `merlin_verify_text` returns and leaves in the two counters. -/
structure Verdict where
  ok : Bool
  insnsSeen : ℕ
  rejected : ℕ
  deriving DecidableEq, Repr

def merlinVerifyText : Verdict :=
  if text.length = 0 ∨ text.length % 4 ≠ 0 then ⟨false, 0, 0⟩
  else
    let s := scan cfg text (text.length / 4)
    ⟨s.rejected % 2 ^ 32 = 0, s.insnsSeen % 2 ^ 32, s.rejected % 2 ^ 32⟩

def Accepted : Prop := (merlinVerifyText cfg text).ok = true

instance : Decidable (Accepted cfg text) := inferInstanceAs (Decidable (_ = _))

end Driver

section Rejections

variable {cfg : VerifierCfg} {text : Text}

structure InsnOk (cfg : VerifierCfg) (x : VState) (insn : Insn) : Prop where
  permitted : merlinInsnPermittedRtos insn = true
  edge : backEdge cfg insn = false
  helper : insn.cls = .ecall → ∃ id, x 17 = .const id ∧ helperAllowed cfg id = true
  access : insn.cls = .load ∨ insn.cls = .store → (x insn.rs1).isPtr = true

@[simp] theorem Scan.reject_x (s : Scan) : s.reject.x = s.x := rfl

theorem Scan.ite_reject_x (p : Prop) [Decidable p] (s : Scan) :
    (if p then s.reject else s).x = s.x := by
  split <;> rfl

theorem Scan.ite_keep_x (p : Prop) [Decidable p] (s : Scan) :
    (if p then s else s.reject).x = s.x := by
  split <;> rfl

@[simp] theorem Scan.reject_rejected (s : Scan) : s.reject.rejected = s.rejected + 1 := rfl

@[simp] theorem Scan.set_rejected (s : Scan) (rd : Reg) (v : Rval) : (s.set rd v).rejected = s.rejected := rfl

@[simp] theorem Scan.clobber_rejected (s : Scan) : s.clobber.rejected = s.rejected := rfl

@[simp] theorem Scan.assign_rejected (s : Scan) (rd : Reg) (v : Rval) :
    (s.assign rd v).rejected = s.rejected := by
  unfold Scan.assign
  split <;> rfl

theorem scanAddi_rejected (insn : Insn) (s : Scan) : (scanAddi insn s).rejected = s.rejected := by
  unfold scanAddi
  split
  · rfl
  · split
    all_goals first | rfl | exact Scan.assign_rejected s _ _

theorem scanEcall_rejected (s : Scan) : (scanEcall cfg s).rejected =
    s.rejected + if ∃ id, s.x 17 = .const id ∧ helperAllowed cfg id = true then 0 else 1 := by
  unfold scanEcall
  split
  · rename_i a7 ha7
    by_cases hal : helperAllowed cfg a7 = true
    · simp [hal, ha7]
    · simp [hal, ha7]
  · rename_i hno
    rw [if_neg]
    · rfl
    · rintro ⟨id, hid, -⟩
      exact hno id hid

theorem scanAccess_rejected (insn : Insn) (s : Scan) :
    (scanAccess insn s).rejected = s.rejected + if (s.x insn.rs1).isPtr then 0 else 1 := by
  unfold scanAccess
  by_cases hptr : (s.x insn.rs1).isPtr = true
  · simp only [hptr, if_true]
    split <;> simp
  · simp only [hptr]
    split <;> simp

/-- One instruction is counted at most once, and not at all when it passes its checks.  A jump is
neither an `ecall` nor an access, so the two counting places do not meet. -/
theorem scanInsn_rejected (insn : Insn) (s : Scan) :
    (InsnOk cfg s.x insn → (scanInsn cfg insn s).rejected = s.rejected) ∧
      (¬ InsnOk cfg s.x insn → (scanInsn cfg insn s).rejected = s.rejected + 1) := by
  unfold scanInsn
  by_cases hperm : merlinInsnPermittedRtos insn = true
  · simp only [hperm, Bool.not_true, Bool.false_eq_true, if_false]
    by_cases hecall : insn.cls = .ecall
    · have hedge : backEdge cfg insn = false := by simp [backEdge, hecall]
      have hok : InsnOk cfg s.x insn ↔ ∃ id, s.x 17 = .const id ∧ helperAllowed cfg id = true := by
        constructor
        · exact fun h => h.helper hecall
        · intro h
          refine ⟨hperm, hedge, fun _ => h, fun hacc => ?_⟩
          rcases hacc with hacc | hacc
          · exact absurd (hecall.symm.trans hacc) (by decide)
          · exact absurd (hecall.symm.trans hacc) (by decide)
      simp only [hedge, Bool.false_eq_true, if_false, if_pos hecall]
      rw [scanEcall_rejected, hok]
      constructor
      · exact fun h => by rw [if_pos h, Nat.add_zero]
      · exact fun h => by rw [if_neg h]
    · simp only [if_neg hecall]
      by_cases hacc : insn.cls = .load ∨ insn.cls = .store
      · have hedge : backEdge cfg insn = false := by
          rcases hacc with h | h
          · simp [backEdge, h]
          · simp [backEdge, h]
        have hok : InsnOk cfg s.x insn ↔ (s.x insn.rs1).isPtr = true :=
          ⟨fun h => h.access hacc, fun h => ⟨hperm, hedge, fun he => absurd he hecall, fun _ => h⟩⟩
        simp only [hedge, Bool.false_eq_true, if_false, if_pos hacc]
        rw [scanAccess_rejected, hok]
        constructor
        · exact fun h => by rw [if_pos h, Nat.add_zero]
        · exact fun h => by rw [if_neg h]
      · simp only [if_neg hacc]
        have hok : InsnOk cfg s.x insn ↔ backEdge cfg insn = false :=
          ⟨fun h => h.edge, fun h => ⟨hperm, h, fun he => absurd he hecall, fun ha => absurd ha hacc⟩⟩
        have hrest : ∀ s' : Scan, (if insn.cls = .aluImm ∧ insn.aluOp = .add then scanAddi insn s'
            else if insn.cls = .lui then s'.assign insn.rd (.const insn.imm)
            else s'.assign insn.rd .unknown).rejected = s'.rejected := by
          intro s'
          split
          · exact scanAddi_rejected insn s'
          · split
            · exact s'.assign_rejected _ _
            · exact s'.assign_rejected _ _
        rw [hrest, hok]
        cases backEdge cfg insn <;> simp
  · simp only [hperm, Bool.not_false, if_true, Scan.reject_rejected, implies_true, and_true]
    exact fun h => absurd h.permitted hperm

theorem scan_succ (n : ℕ) : scan cfg text (n + 1) = scanWord cfg text (scan cfg text n) n := by
  unfold scan
  rw [List.range_succ, List.foldl_append]
  rfl

/-- Word `i` passes its checks in the state that the scan has reached there. -/
def WordOk (cfg : VerifierCfg) (text : Text) (i : ℕ) : Prop :=
  ∃ insn, insnAt text (4 * i) = some insn ∧ InsnOk cfg (scan cfg text i).x insn

theorem scan_succ_rejected (n : ℕ) :
    (WordOk cfg text n → (scan cfg text (n + 1)).rejected = (scan cfg text n).rejected) ∧
      (¬ WordOk cfg text n → (scan cfg text (n + 1)).rejected = (scan cfg text n).rejected + 1) := by
  rw [scan_succ, scanWord]
  cases hdec : insnAt text (4 * n) with
  | none =>
    constructor
    · rintro ⟨insn, hinsn, -⟩
      rw [hdec] at hinsn
      cases hinsn
    · exact fun _ => rfl
  | some insn =>
    have hword : WordOk cfg text n ↔ InsnOk cfg (scan cfg text n).x insn := by
      constructor
      · rintro ⟨insn', hinsn', hok⟩
        obtain rfl := Option.some.inj (hdec.symm.trans hinsn')
        exact hok
      · exact fun hok => ⟨insn, hdec, hok⟩
    rw [hword]
    exact scanInsn_rejected insn { scan cfg text n with insnsSeen := (scan cfg text n).insnsSeen + 1 }

theorem scan_rejected_le (n : ℕ) : (scan cfg text n).rejected ≤ n := by
  induction n with
  | zero => exact le_rfl
  | succ n ih =>
    obtain ⟨hok, hnot⟩ := @scan_succ_rejected cfg text n
    by_cases h : WordOk cfg text n
    · rw [hok h]
      omega
    · rw [hnot h]
      omega

theorem scan_rejected_eq_zero_iff (n : ℕ) :
    (scan cfg text n).rejected = 0 ↔ ∀ i < n, WordOk cfg text i := by
  induction n with
  | zero => simp [scan]
  | succ n ih =>
    obtain ⟨hok, hnot⟩ := @scan_succ_rejected cfg text n
    rw [Nat.forall_lt_succ_right, ← ih]
    by_cases h : WordOk cfg text n
    · rw [hok h]
      exact ⟨fun h0 => ⟨h0, h⟩, fun h0 => h0.1⟩
    · rw [hnot h]
      exact ⟨fun h0 => absurd h0 (by omega), fun h0 => absurd h0.2 h⟩

/-- A text short enough for the counter is accepted exactly when every word passes. -/
theorem accepted_iff (hlen : text.length < 2 ^ 34) : Accepted cfg text ↔
    text ≠ [] ∧ text.length % 4 = 0 ∧ ∀ i < text.length / 4, WordOk cfg text i := by
  unfold Accepted merlinVerifyText
  rw [← scan_rejected_eq_zero_iff, ← List.length_pos_iff]
  have hle := @scan_rejected_le cfg text (text.length / 4)
  split
  · rename_i hbad
    constructor
    · nofun
    · rintro ⟨hpos, hmod, -⟩
      omega
  · rename_i hgood
    rw [not_or, not_not] at hgood
    rw [decide_eq_true_iff, Nat.mod_eq_of_lt (by omega)]
    exact ⟨fun h => ⟨by omega, hgood.2, h⟩, fun h => h.2.2⟩

/-- What the scan knows of an instruction that the machine fetches from an accepted text. -/
theorem Accepted.word {E : Rv32.Env} (hacc : Accepted cfg E.text) {a : BitVec 32} {insn : MerlinV.Insn}
    (hfetch : E.fetch a = some insn) : ∃ z, insnAt E.text (E.off a) = some z ∧ Reads z insn ∧
      InsnOk cfg (scan cfg E.text (E.off a / 4)).x z := by
  obtain ⟨⟨hlt, hmod⟩, hinsn⟩ := Rv32.Env.inText_of_fetch hfetch
  obtain ⟨-, hfour, hwords⟩ := (accepted_iff (lt_trans E.short (by norm_num))).mp hacc
  obtain ⟨z, hz, hok⟩ := hwords (E.off a / 4) (by omega)
  have hoff : 4 * (E.off a / 4) = E.off a := by omega
  rw [hoff] at hz
  obtain ⟨z', hz', hreads⟩ := @readsOn_of_insnOf _ (BitVec.ofNat 32 (E.off a)) _ hinsn
  obtain rfl := Option.some.inj (hz.symm.trans hz')
  exact ⟨z, hz, hreads, hok⟩

end Rejections

/-- `merlin_verifier_cfg_for_prog`, with `CONFIG_MERLIN_MAX_STACK_BYTES`; the program type is not
used. -/
def merlinVerifierCfgForProg (maxStackBytes : BitVec 16) : VerifierCfg where
  helperAllow := 0b1111110
  maxHelperId := 511
  maxStackBytes
  allowBackEdges := false

end MerlinV.Zephyr
