import Mathlib.Tactic

/-! # A subset of x86-64

The 64-bit moves between registers and `[base + disp32]`, the two-operand ALU operations,
shifts by an immediate, `push`, `pop`, `call r64` and `ret`, with their encodings.  No
instruction of the subset reads the flags, so the state has none.  A call runs the callee
to its return as one step.
-/
namespace MerlinV.X86

abbrev Byte := BitVec 8
abbrev Addr := BitVec 64

section Memory

def read64 (m : Addr → Byte) (a : Addr) : BitVec 64 :=
  m (a + 7#64) ++ m (a + 6#64) ++ m (a + 5#64) ++ m (a + 4#64) ++ m (a + 3#64) ++ m (a + 2#64) ++
    m (a + 1#64) ++ m a

def write64 (m : Addr → Byte) (a : Addr) (v : BitVec 64) : Addr → Byte := fun b =>
  if (b - a).toNat < 8 then v.extractLsb' (8 * (b - a).toNat) 8 else m b

/-- Two quadwords that share no byte. -/
def Apart (a b : Addr) : Prop := 8 ≤ (b - a).toNat ∧ 8 ≤ (a - b).toNat

theorem read64_congr {m m' : Addr → Byte} {a : Addr}
    (h : ∀ k < 8, m (a + BitVec.ofNat 64 k) = m' (a + BitVec.ofNat 64 k)) :
    read64 m a = read64 m' a := by
  have h0 := h 0 (by omega)
  rw [BitVec.add_zero] at h0
  unfold read64
  rw [h0, h 1 (by omega), h 2 (by omega), h 3 (by omega), h 4 (by omega), h 5 (by omega),
    h 6 (by omega), h 7 (by omega)]

theorem write64_add (m : Addr → Byte) (a : Addr) (v : BitVec 64) {k : ℕ} (hk : k < 8) :
    write64 m a v (a + BitVec.ofNat 64 k) = v.extractLsb' (8 * k) 8 := by
  have hsub : (a + BitVec.ofNat 64 k - a).toNat = k := by
    have := a.isLt
    rw [BitVec.toNat_sub, BitVec.toNat_add, BitVec.toNat_ofNat]
    omega
  unfold write64
  rw [if_pos (by omega), hsub]

theorem bytes_append (v : BitVec 64) :
    (v.extractLsb' 56 8 ++ v.extractLsb' 48 8 ++ v.extractLsb' 40 8 ++ v.extractLsb' 32 8 ++
      v.extractLsb' 24 8 ++ v.extractLsb' 16 8 ++ v.extractLsb' 8 8 ++ v.extractLsb' 0 8 :
        BitVec 64) = v := by
  simp only [BitVec.extractLsb'_append_extractLsb'_eq_extractLsb', BitVec.extractLsb'_eq_self]

theorem read64_write64_same (m : Addr → Byte) (a : Addr) (v : BitVec 64) :
    read64 (write64 m a v) a = v := by
  have h0 := write64_add m a v (k := 0) (by omega)
  rw [BitVec.add_zero] at h0
  unfold read64
  rw [h0, write64_add m a v (k := 1) (by omega), write64_add m a v (k := 2) (by omega),
    write64_add m a v (k := 3) (by omega), write64_add m a v (k := 4) (by omega),
    write64_add m a v (k := 5) (by omega), write64_add m a v (k := 6) (by omega),
    write64_add m a v (k := 7) (by omega)]
  exact bytes_append v

theorem read64_write64_apart {m : Addr → Byte} {a b : Addr} (v : BitVec 64) (h : Apart a b) :
    read64 (write64 m a v) b = read64 m b := by
  obtain ⟨h₁, h₂⟩ := h
  apply read64_congr
  intro k hk
  unfold write64
  rw [if_neg]
  have hk64 : (BitVec.ofNat 64 k).toNat = k := by
    rw [BitVec.toNat_ofNat]
    omega
  rw [BitVec.toNat_sub] at h₁ h₂ ⊢
  rw [BitVec.toNat_add, hk64]
  have := a.isLt
  have := b.isLt
  omega

end Memory

/-- The registers reachable without a REX extension bit, in the order of their numbers. -/
inductive Gpr where
  | rax | rcx | rdx | rbx | rsp | rbp | rsi | rdi
  deriving DecidableEq, Repr

def Gpr.ofNum : ℕ → Gpr
  | 0 => .rax
  | 1 => .rcx
  | 2 => .rdx
  | 3 => .rbx
  | 4 => .rsp
  | 5 => .rbp
  | 6 => .rsi
  | _ => .rdi

inductive Alu where
  | add | or | and | sub | xor
  deriving DecidableEq, Repr

def Alu.eval : Alu → BitVec 64 → BitVec 64 → BitVec 64
  | .add, a, b => a + b
  | .or, a, b => a ||| b
  | .and, a, b => a &&& b
  | .sub, a, b => a - b
  | .xor, a, b => a ^^^ b

inductive Shift where
  | shl | shr | sar
  deriving DecidableEq, Repr

def Shift.eval : Shift → BitVec 64 → ℕ → BitVec 64
  | .shl, a, n => a <<< n
  | .shr, a, n => a >>> n
  | .sar, a, n => a.sshiftRight n

inductive Instr where
  | push (r : Gpr)
  | pop (r : Gpr)
  | movReg (dst src : Gpr)
  | load (dst base : Gpr) (disp : BitVec 32)
  | store (base : Gpr) (disp : BitVec 32) (src : Gpr)
  | movImm (dst : Gpr) (imm : BitVec 64)
  | alu (op : Alu) (dst src : Gpr)
  | aluImm (op : Alu) (dst : Gpr) (imm : BitVec 32)
  | addRaxImm (imm : BitVec 32)
  | imul (dst src : Gpr)
  | shift (op : Shift) (dst : Gpr) (count : BitVec 8)
  | call (r : Gpr)
  | ret
  deriving DecidableEq, Repr

def Instr.size : Instr → ℕ
  | .push _ | .pop _ | .ret => 1
  | .call _ => 2
  | .movReg _ _ | .alu _ _ _ => 3
  | .imul _ _ | .shift _ _ _ => 4
  | .addRaxImm _ => 6
  | .load _ _ _ | .store _ _ _ | .aluImm _ _ _ => 7
  | .movImm _ _ => 10

section Decode

def modField (b : Byte) : ℕ := b.toNat / 64
def regField (b : Byte) : ℕ := b.toNat / 8 % 8
def rmField (b : Byte) : ℕ := b.toNat % 8

/-- A register operand in the `r/m` field. -/
def rmReg? (b : Byte) : Option Gpr := if modField b = 3 then some (.ofNum (rmField b)) else none

/-- The base of a `[base + disp32]` operand; `r/m = 4` would announce a SIB byte. -/
def rmBase? (b : Byte) : Option Gpr :=
  if modField b = 2 ∧ rmField b ≠ 4 then some (.ofNum (rmField b)) else none

def le32? : List Byte → Option (BitVec 32)
  | b0 :: b1 :: b2 :: b3 :: _ => some (b3 ++ b2 ++ b1 ++ b0)
  | _ => none

def le64? : List Byte → Option (BitVec 64)
  | b0 :: b1 :: b2 :: b3 :: b4 :: b5 :: b6 :: b7 :: _ =>
    some (b7 ++ b6 ++ b5 ++ b4 ++ b3 ++ b2 ++ b1 ++ b0)
  | _ => none

def aluOpcode? : ℕ → Option Alu
  | 0x01 => some .add
  | 0x09 => some .or
  | 0x21 => some .and
  | 0x29 => some .sub
  | 0x31 => some .xor
  | _ => none

def aluGroup? : ℕ → Option Alu
  | 0 => some .add
  | 1 => some .or
  | 4 => some .and
  | 5 => some .sub
  | 6 => some .xor
  | _ => none

def shiftGroup? : ℕ → Option Shift
  | 4 => some .shl
  | 5 => some .shr
  | 7 => some .sar
  | _ => none

def decodeRexW : List Byte → Option Instr
  | [] => none
  | op :: bs =>
    if op.toNat / 8 = 0x17 then (le64? bs).map (.movImm (.ofNum (rmField op)))
    else match op.toNat, bs with
      | 0x05, bs => (le32? bs).map .addRaxImm
      | 0x89, b :: bs =>
        match rmReg? b with
        | some dst => some (.movReg dst (.ofNum (regField b)))
        | none => do
          let base ← rmBase? b
          let disp ← le32? bs
          return .store base disp (.ofNum (regField b))
      | 0x8b, b :: bs => do
        let base ← rmBase? b
        let disp ← le32? bs
        return .load (.ofNum (regField b)) base disp
      | 0x81, b :: bs => do
        let op ← aluGroup? (regField b)
        let dst ← rmReg? b
        let imm ← le32? bs
        return .aluImm op dst imm
      | 0xc1, b :: n :: _ => do
        let op ← shiftGroup? (regField b)
        let dst ← rmReg? b
        return .shift op dst n
      | 0x0f, b :: b' :: _ =>
        if b = 0xaf then (rmReg? b').map (.imul (.ofNum (regField b'))) else none
      | k, b :: _ => do
        let op ← aluOpcode? k
        let dst ← rmReg? b
        return .alu op dst (.ofNum (regField b))
      | _, [] => none

def decode : List Byte → Option Instr
  | [] => none
  | b :: bs =>
    if b = 0x48 then decodeRexW bs
    else if b = 0xc3 then some .ret
    else if b.toNat / 8 = 0x0a then some (.push (.ofNum (rmField b)))
    else if b.toNat / 8 = 0x0b then some (.pop (.ofNum (rmField b)))
    else match bs with
      | b' :: _ =>
        if b = 0xff ∧ regField b' = 2 then (rmReg? b').map .call else none
      | [] => none

def decodeAll : ℕ → List Byte → Option (List Instr)
  | _, [] => some []
  | 0, _ => none
  | fuel + 1, bs => do
    let i ← decode bs
    let rest ← decodeAll fuel (bs.drop i.size)
    return i :: rest

end Decode

@[ext]
structure Cpu where
  reg : Gpr → BitVec 64
  mem : Addr → Byte

namespace Cpu

def set (c : Cpu) (r : Gpr) (v : BitVec 64) : Cpu := { c with reg := Function.update c.reg r v }

def store (c : Cpu) (a : Addr) (v : BitVec 64) : Cpu := { c with mem := write64 c.mem a v }

def push (c : Cpu) (v : BitVec 64) : Cpu :=
  (c.set .rsp (c.reg .rsp - 8#64)).store (c.reg .rsp - 8#64) v

variable (c : Cpu) (r s : Gpr) (a : Addr) (v : BitVec 64)

@[simp] theorem set_mem : (c.set r v).mem = c.mem := rfl

@[simp] theorem set_reg_same : (c.set r v).reg r = v := by
  simp [set]

theorem set_reg : (c.set r v).reg s = if s = r then v else c.reg s := by
  simp [set, Function.update_apply]

@[simp] theorem store_reg : (c.store a v).reg = c.reg := rfl

@[simp] theorem store_mem : (c.store a v).mem = write64 c.mem a v := rfl

@[simp] theorem push_mem : (c.push v).mem = write64 c.mem (c.reg .rsp - 8#64) v := rfl

end Cpu

/-- The effect of an instruction other than `call` and `ret`. -/
def Instr.exec : Instr → Cpu → Cpu
  | .push r, c => c.push (c.reg r)
  | .pop r, c => (c.set .rsp (c.reg .rsp + 8#64)).set r (read64 c.mem (c.reg .rsp))
  | .movReg dst src, c => c.set dst (c.reg src)
  | .load dst base disp, c => c.set dst (read64 c.mem (c.reg base + disp.signExtend 64))
  | .store base disp src, c => c.store (c.reg base + disp.signExtend 64) (c.reg src)
  | .movImm dst imm, c => c.set dst imm
  | .alu op dst src, c => c.set dst (op.eval (c.reg dst) (c.reg src))
  | .aluImm op dst imm, c => c.set dst (op.eval (c.reg dst) (imm.signExtend 64))
  | .addRaxImm imm, c => c.set .rax (c.reg .rax + imm.signExtend 64)
  | .imul dst src, c => c.set dst (c.reg dst * c.reg src)
  | .shift op dst count, c => c.set dst (op.eval (c.reg dst) (count.toNat % 64))
  | .call _, c => c
  | .ret, c => c

def Instr.stores : Instr → Cpu → List Addr
  | .push _, c => [c.reg .rsp - 8#64]
  | .store base disp _, c => [c.reg base + disp.signExtend 64]
  | .call _, c => [c.reg .rsp - 8#64]
  | _, _ => []

/-- The code, where it is loaded, and what the function at an address makes of the processor by
the time it returns. -/
structure Host where
  code : List Byte
  base : Addr
  callee : Addr → Cpu → Cpu

structure Visit where
  instr : Instr
  cpu : Cpu
  pos : ℕ

inductive Outcome where
  | returned (target : Addr) (cpu : Cpu)
  | fault
  | timeout

namespace Host

variable (H : Host)

def retAddr (i : Instr) (pos : ℕ) : Addr := H.base + BitVec.ofNat 64 (pos + i.size)

def after (i : Instr) (c : Cpu) (pos : ℕ) : Cpu :=
  match i with
  | .call r => H.callee (c.reg r) (c.push (H.retAddr i pos))
  | i => i.exec c

def run : ℕ → Cpu → ℕ → List Visit × Outcome
  | 0, _, _ => ([], .timeout)
  | n + 1, c, pos =>
    match decode (H.code.drop pos) with
    | none => ([], .fault)
    | some .ret =>
      ([⟨.ret, c, pos⟩],
        .returned (read64 c.mem (c.reg .rsp)) (c.set .rsp (c.reg .rsp + 8#64)))
    | some i =>
      let r := run n (H.after i c pos) (pos + i.size)
      (⟨i, c, pos⟩ :: r.1, r.2)

end Host

end MerlinV.X86
