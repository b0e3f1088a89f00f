import MerlinV.Jit.Frame

/-! # The frame discipline of the emitted code

What every instruction of the emitted code may write, the alignment of `rsp` at a call and
the registers restored on return, for every text the translator accepts and every
trampoline that leaves the frame's fixed parts alone.
-/
namespace MerlinV

open X86

section Invariant

/-- Inside the function: `rbx` and `rsp` at the frame, the caller's `rbx` above it, `x0` zero. -/
structure Framed (F : Addr) (saved : Word) (c : Cpu) : Prop where
  rbx : c.reg .rbx = F
  rsp : c.reg .rsp = F
  saved : read64 c.mem (F + 256#64) = saved
  zero : slots c.mem F 0 = 0

def InRegsFrame (F : Addr) : Instr → Addr → Prop
  | .call _, a => a = F - 8#64
  | .push _, a => a = F + 256#64
  | _, a => ∃ r, a = slotAddr F r

structure FrameVisit (F : Addr) (v : Visit) : Prop where
  stores : ∀ a ∈ v.instr.stores v.cpu, InRegsFrame F v.instr a
  call : ∀ r, v.instr = .call r → v.cpu.reg .rsp = F

/-- A callee that keeps `rbx`, `rsp` and the first quadword of its argument. -/
structure KeepsRegs (T : Cpu → Cpu) : Prop where
  rbx : ∀ c, (T c).reg .rbx = c.reg .rbx
  rsp : ∀ c, (T c).reg .rsp = c.reg .rsp + 8#64
  zero : ∀ c, read64 (T c).mem (c.reg .rdi) = read64 c.mem (c.reg .rdi)

/-- The callee also keeps the quadword behind the register frame, where the caller's `rbx` is. -/
structure KeepsFrame (T : Cpu → Cpu) : Prop extends KeepsRegs T where
  saved : ∀ c, read64 (T c).mem (c.reg .rdi + 256#64) = read64 c.mem (c.reg .rdi + 256#64)

variable {F : Addr} {saved tramp : Word} {H : Host} {c c' : Cpu} {pos : ℕ}

theorem Framed.sameFrame (h : Framed F saved c) (hs : SameFrame c c') : Framed F saved c' where
  rbx := by rw [hs.reg _ (by decide) (by decide), h.rbx]
  rsp := by rw [hs.reg _ (by decide) (by decide), h.rsp]
  saved := by rw [hs.mem, h.saved]
  zero := by rw [hs.mem, h.zero]

theorem FrameVisit.of_scratch {v : Visit} (h : Scratch v.instr = true) : FrameVisit F v := by
  obtain ⟨i, c, pos⟩ := v
  cases i with
  | push r => cases h
  | pop r => cases h
  | movReg dst src => cases h
  | store base disp src => cases h
  | aluImm op dst imm => cases h
  | call r => cases h
  | ret => cases h
  | _ => exact ⟨fun a ha => absurd ha List.not_mem_nil, fun r hr => by cases hr⟩

theorem FrameVisit.of_store (hbx : c.reg .rbx = F) (r : Reg) (src : Gpr) :
    FrameVisit F ⟨.store .rbx (dispOf r) src, c, pos⟩ where
  stores a ha := by
    rw [Instr.stores, List.mem_singleton, hbx, dispOf_signExtend] at ha
    exact ⟨r, ha⟩
  call r hr := by cases hr

/-- Storing to a register other than `x0` keeps the fixed parts. -/
theorem Framed.store (h : Framed F saved c) {r : Reg} (hr : r ≠ 0) (v : Word) :
    Framed F saved (c.store (slotAddr F r) v) where
  rbx := h.rbx
  rsp := h.rsp
  saved := by
    rw [Cpu.store_mem, read64_write64_apart v (apart_slot_saved F r), h.saved]
  zero := by
    rw [Cpu.store_mem, slots_write_slot, Function.update_of_ne (Ne.symm hr), h.zero]

structure BodyVisit (F : Addr) (v : Visit) : Prop extends FrameVisit F v where
  zero : slots v.cpu.mem F 0 = 0

theorem seq_storeInstrs (hbx : c.reg .rbx = F) (rd : Reg) :
    H.seq (storeInstrs rd) c pos =
      if rd = 0 then ([], c)
      else ([⟨.store .rbx (dispOf rd) .rax, c, pos⟩], c.store (slotAddr F rd) (c.reg .rax)) := by
  unfold storeInstrs
  split
  · rfl
  · simp only [Host.seq, Host.after, Instr.exec, dispOf_signExtend, hbx]
    rfl

theorem seq_callInstrs (c : Cpu) (pos : ℕ) :
    H.seq (callInstrs tramp) c pos =
      ([⟨.movReg .rdi .rbx, c, pos⟩, ⟨.movImm .rax tramp, c.set .rdi (c.reg .rbx), pos + 3⟩,
        ⟨.call .rax, (c.set .rdi (c.reg .rbx)).set .rax tramp, pos + 3 + 10⟩],
        H.callee tramp (((c.set .rdi (c.reg .rbx)).set .rax tramp).push
          (H.retAddr (.call .rax) (pos + 3 + 10)))) := by
  simp only [callInstrs, Host.seq, Host.after, Instr.exec, Instr.size, Cpu.set_reg_same]

theorem Framed.call (h : Framed F saved c) (hT : KeepsFrame (H.callee tramp)) (v : Word) :
    Framed F saved (H.callee tramp (((c.set .rdi (c.reg .rbx)).set .rax tramp).push v)) := by
  have hdi : (((c.set .rdi (c.reg .rbx)).set .rax tramp).push v).reg .rdi = F := h.rbx
  have hmem : (((c.set .rdi (c.reg .rbx)).set .rax tramp).push v).mem = write64 c.mem (F - 8#64) v :=
    congrArg (fun a => write64 c.mem (a - 8#64) v) h.rsp
  have hbelow : Apart (F - 8#64) (F + 256#64) := apart_below (by omega)
  constructor
  · rw [hT.rbx]
    exact h.rbx
  · rw [hT.rsp]
    change c.reg .rsp - 8#64 + 8#64 = F
    rw [BitVec.sub_add_cancel, h.rsp]
  · have hs := hT.saved (((c.set .rdi (c.reg .rbx)).set .rax tramp).push v)
    rw [hdi, hmem, read64_write64_apart v hbelow, h.saved] at hs
    exact hs
  · have hz := hT.zero (((c.set .rdi (c.reg .rbx)).set .rax tramp).push v)
    rw [hdi, hmem, ← slots_zero, ← slots_zero, slots_write_below, h.zero] at hz
    exact hz

theorem Lowers.disciplined {is : List Instr} {e : Effect} (h : Lowers tramp is e)
    (hT : KeepsFrame (H.callee tramp)) (hc : Framed F saved c) :
    (∀ v ∈ (H.seq is c pos).1, BodyVisit F v) ∧ Framed F saved (H.seq is c pos).2 := by
  cases h with
  | @assign is rd f computes =>
    obtain ⟨hvisits, hsame⟩ := computes.sameFrame H c pos
    have hmid := hc.sameFrame hsame
    rw [Host.seq_append, seq_storeInstrs hmid.rbx]
    have hhead : ∀ v ∈ (H.seq is c pos).1, BodyVisit F v := fun v hv =>
      ⟨.of_scratch (hvisits v hv).2, (hc.sameFrame (hvisits v hv).1).zero⟩
    split
    · rw [List.append_nil]
      exact ⟨hhead, hmid⟩
    · rename_i hrd
      refine ⟨fun v hv => ?_, hmid.store hrd _⟩
      rcases List.mem_append.mp hv with hv | hv
      · exact hhead v hv
      · rw [List.mem_singleton.mp hv]
        exact ⟨.of_store hmid.rbx rd .rax, hmid.zero⟩
  | call =>
    rw [seq_callInstrs]
    refine ⟨fun v hv => ?_, hc.call hT _⟩
    rcases List.mem_cons.mp hv with rfl | hv
    · exact ⟨⟨fun a ha => absurd ha List.not_mem_nil, fun r hr => by cases hr⟩, hc.zero⟩
    rcases List.mem_cons.mp hv with rfl | hv
    · exact ⟨⟨fun a ha => absurd ha List.not_mem_nil, fun r hr => by cases hr⟩, hc.zero⟩
    rw [List.mem_singleton.mp hv]
    refine ⟨⟨fun a ha => ?_, fun r _ => hc.rsp⟩, hc.zero⟩
    rw [Instr.stores, List.mem_singleton] at ha
    rw [ha]
    exact congrArg (· - 8#64) hc.rsp
  | skip => exact ⟨fun v hv => absurd hv List.not_mem_nil, hc⟩

theorem Lowers.ret_not_mem {is : List Instr} {e : Effect} (h : Lowers tramp is e) : Instr.ret ∉ is := by
  cases h with
  | @assign is rd f computes =>
    intro hmem
    rcases List.mem_append.mp hmem with hmem | hmem
    · cases computes.scratch _ hmem
    · unfold storeInstrs at hmem
      split at hmem
      · cases hmem
      · cases List.mem_singleton.mp hmem
  | call => simp [callInstrs]
  | skip => exact List.not_mem_nil

theorem Body.emits {bs : List Byte} {is : List Instr} {es : List Effect} (h : Body tramp bs is es) :
    Emits bs is := by
  induction h with
  | nil => exact .nil
  | cons emits _ _ ih => exact emits.append ih

theorem Body.ret_not_mem {bs : List Byte} {is : List Instr} {es : List Effect}
    (h : Body tramp bs is es) : Instr.ret ∉ is := by
  induction h with
  | nil => exact List.not_mem_nil
  | cons _ lowers _ ih =>
    intro hmem
    rcases List.mem_append.mp hmem with hmem | hmem
    · exact lowers.ret_not_mem hmem
    · exact ih hmem

theorem Body.disciplined {bs : List Byte} {is : List Instr} {es : List Effect}
    (h : Body tramp bs is es) (hT : KeepsFrame (H.callee tramp)) (hc : Framed F saved c) :
    (∀ v ∈ (H.seq is c pos).1, BodyVisit F v) ∧ Framed F saved (H.seq is c pos).2 := by
  induction h generalizing c pos with
  | nil => exact ⟨fun v hv => absurd hv List.not_mem_nil, hc⟩
  | cons _ lowers _ ih =>
    obtain ⟨hhead, hmid⟩ := lowers.disciplined hT hc
    obtain ⟨htail, hlast⟩ := ih hmid
    rw [Host.seq_append]
    refine ⟨fun v hv => ?_, hlast⟩
    rcases List.mem_append.mp hv with hv | hv
    · exact hhead v hv
    · exact htail v hv

end Invariant

section Boundary

variable {F : Addr} {saved tramp : Word} {H : Host} {c : Cpu} {pos : ℕ}

theorem seq_stores (hbx : c.reg .rbx = F) (l : List Reg) :
    (H.seq (l.map fun i => .store .rbx (dispOf i) .rax) c pos).2.reg = c.reg ∧
      slots (H.seq (l.map fun i => .store .rbx (dispOf i) .rax) c pos).2.mem F =
        (fun r => if r ∈ l then c.reg .rax else slots c.mem F r) ∧
      read64 (H.seq (l.map fun i => .store .rbx (dispOf i) .rax) c pos).2.mem (F + 256#64) =
        read64 c.mem (F + 256#64) ∧
      ∀ v ∈ (H.seq (l.map fun i => .store .rbx (dispOf i) .rax) c pos).1, FrameVisit F v := by
  induction l generalizing c pos with
  | nil => simp [Host.seq]
  | cons i l ih =>
    have hafter : H.after (.store .rbx (dispOf i) .rax) c pos = c.store (slotAddr F i) (c.reg .rax) := by
      simp only [Host.after, Instr.exec, dispOf_signExtend, hbx]
      rfl
    obtain ⟨hreg, hslots, hsaved, hvisits⟩ := @ih (c.store (slotAddr F i) (c.reg .rax)) (pos + 7) hbx
    rw [List.map_cons, Host.seq, hafter]
    refine ⟨hreg, ?_, ?_, fun v hv => ?_⟩
    · refine hslots.trans (funext fun r => ?_)
      rw [Cpu.store_mem, slots_write_slot, Function.update_apply]
      by_cases hr : r ∈ l
      · simp [hr]
      · simp [hr]
    · refine hsaved.trans ?_
      rw [Cpu.store_mem, read64_write64_apart _ (apart_slot_saved F i)]
    · rcases List.mem_cons.mp hv with rfl | hv
      · exact .of_store hbx i .rax
      · exact hvisits v hv

def entered (F : Addr) (c : Cpu) : Cpu where
  reg r := match r with
    | .rbx => F
    | .rsp => F
    | .rax => 0
    | r => c.reg r
  mem := write64 c.mem (F + 256#64) (c.reg .rbx)

theorem seq_enter (hsp : c.reg .rsp = F + 264#64) (pos : ℕ) :
    (H.seq [.push .rbx, .aluImm .sub .rsp regsBytes, .movReg .rbx .rsp, .alu .xor .rax .rax] c pos).2 =
        entered F c ∧
      ∀ v ∈ (H.seq [.push .rbx, .aluImm .sub .rsp regsBytes, .movReg .rbx .rsp, .alu .xor .rax .rax]
        c pos).1, FrameVisit F v := by
  have hpush : c.reg .rsp - 8#64 = F + 256#64 := by
    rw [hsp]
    bv_omega
  have hbytes : regsBytes.signExtend 64 = 256#64 := rfl
  have hsub : F + 256#64 - 256#64 = F := BitVec.add_sub_cancel F 256#64
  have hquiet (i : Instr) (d : Cpu) (p : ℕ) (hs : i.stores d = []) (hcall : ∀ r, i ≠ .call r) :
      FrameVisit F ⟨i, d, p⟩ :=
    ⟨fun a ha => absurd (hs ▸ ha) List.not_mem_nil, fun r hr => absurd hr (hcall r)⟩
  constructor
  · apply Cpu.ext
    · funext r
      cases r <;>
        simp [Host.seq, Host.after, Instr.exec, Alu.eval, hbytes, Cpu.push, hpush, entered, Cpu.set_reg, hsub]
    · simp only [Host.seq, Host.after, Instr.exec, Cpu.set_mem, Cpu.push_mem, hpush, entered]
  · intro v hv
    rcases List.mem_cons.mp hv with rfl | hv
    · refine ⟨fun a ha => ?_, fun r hr => by cases hr⟩
      rw [Instr.stores, List.mem_singleton, hpush] at ha
      exact ha
    rcases List.mem_cons.mp hv with rfl | hv
    · exact hquiet _ _ _ rfl (by simp)
    rcases List.mem_cons.mp hv with rfl | hv
    · exact hquiet _ _ _ rfl (by simp)
    rw [List.mem_singleton.mp hv]
    exact hquiet _ _ _ rfl (by simp)

/-- The prologue: every register zero but `a0`, which holds `rdi`. -/
theorem seq_prologue (hsp : c.reg .rsp = F + 264#64) (pos : ℕ) :
    Framed F (c.reg .rbx) (H.seq prologueInstrs c pos).2 ∧
      slots (H.seq prologueInstrs c pos).2.mem F = Function.update (fun _ => 0) 10 (c.reg .rdi) ∧
      ∀ v ∈ (H.seq prologueInstrs c pos).1, FrameVisit F v := by
  obtain ⟨henter, hv₁⟩ := @seq_enter F H c hsp pos
  have hbx : (entered F c).reg .rbx = F := rfl
  rw [prologueInstrs, Host.seq_append, henter, Host.seq_append]
  generalize pos + sizes _ = p
  obtain ⟨hreg, hslots, hsaved, hv₂⟩ := @seq_stores F H (entered F c) p hbx (List.finRange 32)
  set c₂ := (H.seq ((List.finRange 32).map fun i => .store .rbx (dispOf i) .rax) (entered F c) p).2
  have hbx₂ : c₂.reg .rbx = F := congrFun hreg .rbx
  have hlast : ∀ p', H.seq [.store .rbx (dispOf 10) .rdi] c₂ p' =
      ([⟨.store .rbx (dispOf 10) .rdi, c₂, p'⟩], c₂.store (slotAddr F 10) (c.reg .rdi)) := by
    intro p'
    have hdi : c₂.reg .rdi = c.reg .rdi := congrFun hreg .rdi
    simp only [Host.seq, Host.after, Instr.exec, dispOf_signExtend, hbx₂, hdi]
    rfl
  have hzero : slots c₂.mem F = fun _ => 0 := by
    rw [hslots]
    funext r
    rw [if_pos (List.mem_finRange r)]
    rfl
  have hframed : Framed F (c.reg .rbx) c₂ := by
    refine ⟨hbx₂, congrFun hreg .rsp, ?_, congrFun hzero 0⟩
    rw [hsaved]
    exact read64_write64_same _ _ _
  rw [hlast]
  refine ⟨hframed.store (by decide) _, ?_, fun v hv => ?_⟩
  · rw [Cpu.store_mem, slots_write_slot, hzero]
  · rcases List.mem_append.mp hv with hv | hv
    · exact hv₁ v hv
    rcases List.mem_append.mp hv with hv | hv
    · exact hv₂ v hv
    rw [List.mem_singleton.mp hv]
    exact .of_store hbx₂ 10 .rdi

/-- The epilogue in front of its return: `a0` in `rax`, the caller's `rbx`, and `rsp` at the return
address. -/
theorem seq_restore (hc : Framed F saved c) (pos : ℕ) :
    (H.seq restoreInstrs c pos).2.reg .rax = slots c.mem F 10 ∧
      (H.seq restoreInstrs c pos).2.reg .rsp = F + 264#64 ∧
      (H.seq restoreInstrs c pos).2.reg .rbx = saved ∧
      (H.seq restoreInstrs c pos).2.mem = c.mem ∧
      ∀ v ∈ (H.seq restoreInstrs c pos).1, BodyVisit F v := by
  have hbytes : regsBytes.signExtend 64 = 256#64 := rfl
  have hten : read64 c.mem (F + (dispOf 10).signExtend 64) = slots c.mem F 10 := by
    rw [dispOf_signExtend]
    rfl
  have hpop : F + 256#64 + 8#64 = F + 264#64 := by bv_omega
  have hsaved := hc.saved
  have hquiet (i : Instr) (d : Cpu) (p : ℕ) (hs : i.stores d = []) (hcall : ∀ r, i ≠ .call r)
      (hmem : d.mem = c.mem) : BodyVisit F ⟨i, d, p⟩ :=
    ⟨⟨fun a ha => absurd (hs ▸ ha) List.not_mem_nil, fun r hr => absurd hr (hcall r)⟩, by
      rw [hmem, hc.zero]⟩
  refine ⟨?_, ?_, ?_, rfl, ?_⟩
  · simp [restoreInstrs, Host.seq, Host.after, Instr.exec, Cpu.set_reg, hc.rbx, hten]
  · simp [restoreInstrs, Host.seq, Host.after, Instr.exec, Cpu.set_reg, Alu.eval, hbytes, hc.rsp, hpop]
  · simp [restoreInstrs, Host.seq, Host.after, Instr.exec, Cpu.set_reg, Alu.eval, hbytes, hc.rsp, hsaved]
  · intro v hv
    rcases List.mem_cons.mp hv with rfl | hv
    · exact hquiet _ _ _ rfl (by simp) rfl
    rcases List.mem_cons.mp hv with rfl | hv
    · exact hquiet _ _ _ rfl (by simp) rfl
    rw [List.mem_singleton.mp hv]
    exact hquiet _ _ _ rfl (by simp) rfl

end Boundary

section Scan

/-- The code emitted from `pc` to the end, for a translator that reads the instruction `insnAt pc`,
gives it the effect `eff` and stops behind the first `jalr`. -/
inductive Scanned (len : ℕ) (insnAt : BitVec 32 → Insn) (eff : Insn → Option Effect) (tramp : Word) :
    BitVec 32 → List Byte → Prop where
  | stop {pc : BitVec 32} (past : len ≤ pc.toNat) : Scanned len insnAt eff tramp pc emitEpilogue
  | ret {pc : BitVec 32} (inside : pc.toNat < len) (cls : (insnAt pc).cls = .jalr) :
      Scanned len insnAt eff tramp pc emitEpilogue
  | block {pc : BitVec 32} {bs rest : List Byte} {is : List Instr} {e : Effect} (inside : pc.toNat < len)
      (cls : (insnAt pc).cls ≠ .jalr) (effect : eff (insnAt pc) = some e) (emits : Emits bs is)
      (lowers : Lowers tramp is e) (tail : Scanned len insnAt eff tramp (pc + 4) rest) :
      Scanned len insnAt eff tramp pc (bs ++ rest)

variable {text : Text} {tramp : Word}

/-- Scanned code is a body and one epilogue. -/
theorem Scanned.body {len : ℕ} {insnAt : BitVec 32 → Insn} {eff : Insn → Option Effect} {pc : BitVec 32}
    {code : List Byte} (h : Scanned len insnAt eff tramp pc code) :
    ∃ bs is es, Body tramp bs is es ∧ code = bs ++ emitEpilogue := by
  induction h with
  | stop => exact ⟨[], [], [], .nil, rfl⟩
  | ret => exact ⟨[], [], [], .nil, rfl⟩
  | block _ _ _ emits lowers _ ih =>
    obtain ⟨bs, is, es, hbody, rfl⟩ := ih
    exact ⟨_, _, _, .cons emits lowers hbody, (List.append_assoc _ _ _).symm⟩

/-- What an iteration that does not fail does: past the text it ends, a `jalr` ends it behind an
epilogue, and any other instruction appends a block with its effect. -/
inductive Iteration (len : ℕ) (insnAt : BitVec 32 → Insn) (eff : Insn → Option Effect) (tramp : Word)
    (rest : BitVec 32 → List Byte → List Byte × Bool → Prop) (pc : BitVec 32) (buf : List Byte) :
    List Byte × Bool → Prop where
  | stop (past : len ≤ pc.toNat) : Iteration len insnAt eff tramp rest pc buf (buf, false)
  | ret (inside : pc.toNat < len) (cls : (insnAt pc).cls = .jalr) :
      Iteration len insnAt eff tramp rest pc buf (buf ++ emitEpilogue, true)
  | block {bs : List Byte} {is : List Instr} {e : Effect} {r : List Byte × Bool} (inside : pc.toNat < len)
      (cls : (insnAt pc).cls ≠ .jalr) (effect : eff (insnAt pc) = some e) (emits : Emits bs is)
      (lowers : Lowers tramp is e) (next : rest (pc + 4) (buf ++ bs) r) :
      Iteration len insnAt eff tramp rest pc buf r

/-- A loop of such iterations only appends to its buffer, and what it appends is scanned code. -/
theorem scanned_of_iterations {len : ℕ} {insnAt : BitVec 32 → Insn} {eff : Insn → Option Effect}
    {loop : ℕ → BitVec 32 → List Byte → List Byte × Bool → Prop} (hzero : ∀ pc buf r, ¬ loop 0 pc buf r)
    (hsucc : ∀ fuel pc buf r, loop (fuel + 1) pc buf r →
      Iteration len insnAt eff tramp (loop fuel) pc buf r)
    {fuel : ℕ} {pc : BitVec 32} {buf : List Byte} {r : List Byte × Bool} (h : loop fuel pc buf r) :
    ∃ code, (if !r.2 then r.1 ++ emitEpilogue else r.1) = buf ++ code ∧
      Scanned len insnAt eff tramp pc code := by
  induction fuel generalizing pc buf with
  | zero => exact absurd h (hzero _ _ _)
  | succ fuel ih =>
    cases hsucc fuel pc buf r h with
    | stop past => exact ⟨emitEpilogue, rfl, .stop past⟩
    | ret inside cls => exact ⟨emitEpilogue, rfl, .ret inside cls⟩
    | block inside cls effect emits lowers next =>
      obtain ⟨code, hcode, hscan⟩ := ih next
      exact ⟨_ ++ code, by rw [hcode, List.append_assoc], .block inside cls effect emits lowers hscan⟩

def jitInsn (text : Text) (pc : BitVec 32) : Insn := merlinDecode (textWord text pc.toNat) pc

theorem translateOne_jalr {insn : Insn} {bs : List Byte} (h : translateOne insn tramp = .ok bs)
    (hcls : insn.cls = .jalr) : bs = emitEpilogue := by
  rw [translateOne, hcls] at h
  exact (Except.ok.inj h).symm

theorem translateLoop_succ {fuel : ℕ} {pc : BitVec 32} {buf : List Byte} {r : List Byte × Bool}
    (h : translateLoop text tramp (fuel + 1) pc buf = some (.ok r)) :
    Iteration text.length (jitInsn text) effectOf tramp
      (fun pc buf r => translateLoop text tramp fuel pc buf = some (.ok r)) pc buf r := by
  unfold translateLoop at h
  split at h
  · rename_i hin
    dsimp only at h
    cases ht : translateOne (merlinDecode (textWord text pc.toNat) pc) tramp with
    | error e =>
      rw [ht] at h
      cases h
    | ok bs =>
      rw [ht] at h
      dsimp only at h
      split at h
      · rename_i hc
        cases h
        rw [translateOne_jalr ht hc]
        exact .ret hin hc
      · rename_i hc
        obtain ⟨is, e, heff, hemits, hlow⟩ := translateOne_lowers ht hc
        exact .block hin hc heff hemits hlow h
  · rename_i hout
    cases h
    exact .stop (not_lt.mp hout)

theorem merlinJitTranslate_scanned {fuel : ℕ} {code : List Byte}
    (h : merlinJitTranslate text tramp fuel = some (.ok code)) :
    ∃ tail, code = emitPrologue ++ tail ∧ Scanned text.length (jitInsn text) effectOf tramp 0 tail := by
  unfold merlinJitTranslate at h
  split at h
  · cases h
  · cases hl : translateLoop text tramp fuel 0 emitPrologue with
    | none =>
      rw [hl] at h
      cases h
    | some r =>
      cases r with
      | error e =>
        rw [hl] at h
        cases h
      | ok p =>
        obtain ⟨buf, sawRet⟩ := p
        rw [hl] at h
        obtain ⟨tail, htail, hscan⟩ := @scanned_of_iterations tramp _ _ _
          (fun fuel pc buf r => translateLoop text tramp fuel pc buf = some (.ok r)) (fun _ _ _ => nofun)
          (fun _ _ _ _ => translateLoop_succ) _ _ _ _ hl
        exact ⟨tail, (Except.ok.inj (Option.some.inj h)).symm.trans htail, hscan⟩

end Scan

section Discipline

variable {F : Addr} {tramp : Word} {H : Host} {c : Cpu} {bs : List Byte} {is : List Instr}
  {es : List Effect}

theorem run_ret {pos : ℕ} (hcode : H.code.drop pos = emitRet) :
    H.run 1 c pos =
      ([⟨.ret, c, pos⟩], .returned (read64 c.mem (c.reg .rsp)) (c.set .rsp (c.reg .rsp + 8#64))) := by
  rw [Host.run, hcode]
  rfl

/-- The processor in front of the return, and the visits up to there. -/
def mainRun (H : Host) (is : List Instr) (c : Cpu) : List Visit × Cpu :=
  H.seq (prologueInstrs ++ (is ++ restoreInstrs)) c 0

/-- The emitted code runs from its first byte to its one return. -/
theorem Body.run (h : Body tramp bs is es) (hcode : H.code = emitPrologue ++ (bs ++ emitEpilogue)) :
    ∃ pos, H.run ((prologueInstrs ++ (is ++ restoreInstrs)).length + 1) c 0 =
      ((mainRun H is c).1 ++ [⟨.ret, (mainRun H is c).2, pos⟩],
        .returned (read64 (mainRun H is c).2.mem ((mainRun H is c).2.reg .rsp))
          ((mainRun H is c).2.set .rsp ((mainRun H is c).2.reg .rsp + 8#64))) := by
  let restore := emitMovRaxFromMemDisp (dispOf 10) ++ (emitAddRspImm32 regsBytes ++ emitPopR64 x86Rbx)
  have hepi : emitEpilogue = restore ++ emitRet := by
    simp only [emitEpilogue, restore, List.append_assoc]
  have hrestore : Emits restore restoreInstrs :=
    (emits_movRaxFromMemDisp _).append ((emits_addRspImm32 _).append emits_popRbx)
  have hemits := emits_prologue.append (h.emits.append hrestore)
  have hwhole : H.code = (emitPrologue ++ (bs ++ restore)) ++ emitRet := by
    rw [hcode, hepi]
    simp only [List.append_assoc]
  have hret : Instr.ret ∉ prologueInstrs ++ (is ++ restoreInstrs) := by
    intro hmem
    rcases List.mem_append.mp hmem with hmem | hmem
    · simp [prologueInstrs] at hmem
    rcases List.mem_append.mp hmem with hmem | hmem
    · exact h.ret_not_mem hmem
    · simp [restoreInstrs] at hmem
  have hdrop : H.code.drop (0 + sizes (prologueInstrs ++ (is ++ restoreInstrs))) = emitRet := by
    rw [Nat.zero_add, ← hemits.length_eq, hwhole, List.drop_left]
  have hrun := @Host.run_seq H _ _ c 0 hemits hret emitRet (by rw [List.drop_zero, hwhole]) 1
  rw [run_ret hdrop] at hrun
  exact ⟨_, hrun⟩

/-- A run that returns with `rsp` and `rbx` restored, whose instructions write no more than the slot
of the caller's `rbx`, the register frame and the return address of a call, call with `rsp` aligned
and, behind the prologue, find `x0` zero. -/
def Disciplined (H : Host) (c : Cpu) : Prop :=
  ∃ n visits target c', H.run n c 0 = (visits, .returned target c') ∧
    c'.reg .rsp = c.reg .rsp + 8#64 ∧ c'.reg .rbx = c.reg .rbx ∧
    ∀ v ∈ visits, (∀ a ∈ v.instr.stores v.cpu, InRegsFrame (c.reg .rsp - 264#64) v.instr a) ∧
      (∀ r, v.instr = .call r → (v.cpu.reg .rsp).toNat % 16 = 0) ∧
      (sizes prologueInstrs ≤ v.pos → read64 v.cpu.mem (c.reg .rsp - 264#64) = 0)

theorem Body.mainRun_disciplined (h : Body tramp bs is es) (hT : KeepsFrame (H.callee tramp))
    (hsp : c.reg .rsp = F + 264#64) :
    (mainRun H is c).2.reg .rsp = F + 264#64 ∧ (mainRun H is c).2.reg .rbx = c.reg .rbx ∧
      slots (mainRun H is c).2.mem F 0 = 0 ∧
      ∀ v ∈ (mainRun H is c).1, FrameVisit F v ∧
        (sizes prologueInstrs ≤ v.pos → slots v.cpu.mem F 0 = 0) := by
  obtain ⟨hframed, -, hpro⟩ := @seq_prologue F H c hsp 0
  unfold mainRun
  rw [Host.seq_append, Host.seq_append]
  generalize hp : (H.seq prologueInstrs c 0).2 = c₁ at hframed ⊢
  generalize 0 + sizes prologueInstrs = p₁
  obtain ⟨hbody, hframed₂⟩ := @Body.disciplined F (c.reg .rbx) tramp H c₁ p₁ bs is es h hT hframed
  generalize hp₂ : (H.seq is c₁ p₁).2 = c₂ at hframed₂ ⊢
  obtain ⟨-, hrsp, hrbx, hmem, hepi⟩ := @seq_restore F (c.reg .rbx) H c₂ hframed₂ (p₁ + sizes is)
  refine ⟨hrsp, hrbx, by rw [hmem, hframed₂.zero], fun v hv => ?_⟩
  rcases List.mem_append.mp hv with hv | hv
  · have hlt := (Host.seq_pos hv).2
    exact ⟨hpro v hv, fun hle => by omega⟩
  rcases List.mem_append.mp hv with hv | hv
  · exact ⟨(hbody v hv).toFrameVisit, fun _ => (hbody v hv).zero⟩
  · exact ⟨(hepi v hv).toFrameVisit, fun _ => (hepi v hv).zero⟩

/-- The frame discipline of the code of every text, with a trampoline that keeps `rbx`, `rsp`, `x0`
and the slot of the caller's `rbx`. -/
theorem jit_frame_discipline (text : Text) (tramp : Word) (fuel : ℕ) (code : List Byte)
    (h : merlinJitTranslate text tramp fuel = some (.ok code)) :
    (∃ body, decodeAll code.length code = some (prologueInstrs ++ (body ++ (restoreInstrs ++ [.ret]))) ∧
        Instr.ret ∉ body) ∧
      ∀ (H : Host) (c : Cpu), H.code = code → (c.reg .rsp).toNat % 16 = 8 →
        KeepsFrame (H.callee tramp) → Disciplined H c := by
  obtain ⟨tail, rfl, hscan⟩ := merlinJitTranslate_scanned h
  obtain ⟨bs, is, es, hbody, rfl⟩ := hscan.body
  refine ⟨⟨is, ?_, hbody.ret_not_mem⟩, fun H c hcode halign hT => ?_⟩
  · exact (emits_prologue.append (hbody.emits.append emits_epilogue)).decodeAll_eq le_rfl
  · have hsp : c.reg .rsp = (c.reg .rsp - 264#64) + 264#64 := (BitVec.sub_add_cancel _ _).symm
    have haligned : (c.reg .rsp - 264#64).toNat % 16 = 0 := by
      have hlt := (c.reg .rsp).isLt
      have h264 : (264#64).toNat = 264 := rfl
      rw [BitVec.toNat_sub, h264]
      omega
    obtain ⟨pos, hrun⟩ := @Body.run tramp H c bs is es hbody hcode
    obtain ⟨hrsp, hrbx, hzero, hvisits⟩ := hbody.mainRun_disciplined hT hsp
    refine ⟨_, _, _, _, hrun, ?_, hrbx, fun v hv => ?_⟩
    · rw [Cpu.set_reg_same, hrsp, ← hsp]
    rcases List.mem_append.mp hv with hv | hv
    · obtain ⟨hvisit, hz⟩ := hvisits v hv
      refine ⟨hvisit.stores, fun r hr => ?_, fun hle => ?_⟩
      · rw [hvisit.call r hr, haligned]
      · rw [← slots_zero, hz hle]
    · rw [List.mem_singleton.mp hv]
      refine ⟨fun a ha => absurd ha List.not_mem_nil, fun r hr => (by cases hr), fun _ => ?_⟩
      rw [← slots_zero, hzero]

def callText : Text := ofWords [0x00000073, 0x00008067]

def callCode : List Byte := emitPrologue ++ (emitHelperCall 0x1000 ++ emitEpilogue)

theorem callText_translate : merlinJitTranslate callText 0x1000 2 = some (.ok callCode) := by
  decide +kernel

def callCpu : Cpu where
  reg r := match r with
    | .rsp => 0x2008
    | .rbx => 1
    | _ => 0
  mem _ := 0

/-- The code with a trampoline that runs `T` in front of its return. -/
def callHost (T : Cpu → Cpu) : Host where
  code := callCode
  base := 0x8000
  callee _ c := (T c).set .rsp (c.reg .rsp + 8#64)

theorem callText_disciplined : merlinJitTranslate callText 0x1000 2 = some (.ok callCode) ∧
    (callCpu.reg .rsp).toNat % 16 = 8 ∧ KeepsFrame ((callHost id).callee 0x1000) ∧
    Disciplined (callHost id) callCpu := by
  have hT : KeepsFrame ((callHost id).callee 0x1000) :=
    ⟨⟨fun _ => rfl, fun _ => rfl, fun _ => rfl⟩, fun _ => rfl⟩
  exact ⟨callText_translate, by decide, hT,
    (jit_frame_discipline callText 0x1000 2 callCode callText_translate).2 _ _ rfl (by decide) hT⟩

/-- A trampoline that keeps `rbx`, `rsp` and `x0` but clears the slot of the caller's `rbx`. -/
def clearSaved (c : Cpu) : Cpu := c.store (c.reg .rdi + 256#64) 0

theorem clearSaved_keepsRegs : KeepsRegs ((callHost clearSaved).callee 0x1000) where
  rbx _ := rfl
  rsp _ := rfl
  zero c := by
    have happart : Apart (c.reg .rdi + 256#64) (c.reg .rdi) := by
      have h := @apart_add (c.reg .rdi) 256 0 (by omega) (by omega) (by omega)
      rwa [BitVec.add_zero] at h
    exact read64_write64_apart 0 happart

def returnedReg (r : Gpr) : Outcome → Option Word
  | .returned _ d => some (d.reg r)
  | _ => none

theorem run_of_returnedReg {n : ℕ} {r : Gpr} {v : Word} (h : returnedReg r (H.run n c 0).2 = some v) :
    ∃ vs a d, H.run n c 0 = (vs, .returned a d) ∧ d.reg r = v := by
  cases hrun : H.run n c 0 with
  | mk vs o =>
    rw [hrun] at h
    cases o with
    | returned a d => exact ⟨vs, a, d, rfl, Option.some.inj h⟩
    | fault => cases h
    | timeout => cases h

theorem clearSaved_not_disciplined : ¬ ∀ (text : Text) (tramp : Word) (fuel : ℕ) (code : List Byte),
    merlinJitTranslate text tramp fuel = some (.ok code) →
      ∀ (H : Host) (c : Cpu), H.code = code → (c.reg .rsp).toNat % 16 = 8 →
        KeepsRegs (H.callee tramp) → Disciplined H c := by
  intro hall
  obtain ⟨n, visits, target, c', hrun, -, hrbx, -⟩ := hall callText 0x1000 2 callCode callText_translate
    (callHost clearSaved) callCpu rfl (by decide) clearSaved_keepsRegs
  have heval : returnedReg .rbx ((callHost clearSaved).run 50 callCpu 0).2 = some 0 := by decide +kernel
  obtain ⟨vs, a, d, hd, hzero⟩ := run_of_returnedReg heval
  have hmax := Host.run_mono hd (le_max_right n 50)
  rw [Host.run_mono hrun (le_max_left n 50)] at hmax
  cases hmax
  rw [hrbx] at hzero
  cases hzero

end Discipline

end MerlinV
