import MerlinV.Jit.Discipline
import MerlinV.Machine.Reference

/-! # The emitted code against the reference run

A block of emitted code does to the register frame what the instruction it stands for does
to the registers, so straight-line code follows the reference run step by step and leaves
through the epilogue where the run returns.
-/
namespace MerlinV

open X86

section Trampoline

/-- A trampoline for `helper`: a callee that replaces `a0` in the frame its argument points to. -/
structure Realises (helped : (Reg → Word) → Reg → Word) (T : Cpu → Cpu) : Prop where
  rbx : ∀ c, (T c).reg .rbx = c.reg .rbx
  rsp : ∀ c, (T c).reg .rsp = c.reg .rsp + 8#64
  regs : ∀ c, slots (T c).mem (c.reg .rdi) = helped (slots c.mem (c.reg .rdi))
  zero : ∀ x, helped x 0 = x 0
  saved : ∀ c, read64 (T c).mem (c.reg .rdi + 256#64) = read64 c.mem (c.reg .rdi + 256#64)

theorem Realises.keepsFrame {helped : (Reg → Word) → Reg → Word} {T : Cpu → Cpu} (h : Realises helped T) :
    KeepsFrame T where
  rbx := h.rbx
  rsp := h.rsp
  zero c := by rw [← slots_zero, ← slots_zero, h.regs, h.zero]
  saved := h.saved

def helperTrampoline (helper : Word → (Fin 6 → Word) → Word) (c : Cpu) : Cpu :=
  (c.store (slotAddr (c.reg .rdi) 10)
    (helper (slots c.mem (c.reg .rdi) 17) (helperArgs (slots c.mem (c.reg .rdi))))).set .rsp
    (c.reg .rsp + 8#64)

theorem helperTrampoline_realises (E : RefEnv) : Realises E.helped (helperTrampoline E.helper) where
  rbx _ := rfl
  rsp _ := rfl
  regs c := by
    unfold helperTrampoline
    rw [Cpu.set_mem, Cpu.store_mem, slots_write_slot]
    rfl
  zero x := by
    unfold RefEnv.helped
    rw [Function.update_of_ne (by decide)]
  saved c := by
    unfold helperTrampoline
    rw [Cpu.set_mem, Cpu.store_mem, read64_write64_apart _ (apart_slot_saved _ _)]

/-- The calls of a run: the target and the registers in the frame the argument points to. -/
def callsOf (visits : List Visit) : List (Addr × (Reg → Word)) :=
  visits.filterMap fun v => match v.instr with
    | .call r => some (v.cpu.reg r, slots v.cpu.mem (v.cpu.reg .rdi))
    | _ => none

theorem callsOf_append (vs ws : List Visit) : callsOf (vs ++ ws) = callsOf vs ++ callsOf ws :=
  List.filterMap_append ..

theorem callsOf_eq_nil {vs : List Visit} (h : ∀ v ∈ vs, ∀ r, v.instr ≠ .call r) : callsOf vs = [] := by
  apply List.filterMap_eq_nil_iff.mpr
  intro v hv
  have hno := h v hv
  cases hi : v.instr with
  | call r => exact absurd hi (hno r)
  | _ => rfl

end Trampoline

section Blocks

variable {F : Addr} {saved tramp : Word} {H : Host} {c : Cpu} {pos : ℕ} {is : List Instr}
  {helped : (Reg → Word) → Reg → Word}

def Effect.apply (helped : (Reg → Word) → Reg → Word) : Effect → (Reg → Word) → Reg → Word
  | .assign rd f, x => if rd = 0 then x else Function.update x rd (f x)
  | .call, x => helped x
  | .skip, x => x

def Effect.calls : Effect → (Reg → Word) → List (Reg → Word)
  | .call, x => [x]
  | _, _ => []

/-- What an effect may make of the registers where a call may do what `R` says. -/
def Effect.Leads (R : (Reg → Word) → (Reg → Word) → Prop) : Effect → (Reg → Word) → (Reg → Word) → Prop
  | .assign rd f, x, y => y = if rd = 0 then x else Function.update x rd (f x)
  | .call, x, y => R x y
  | .skip, x, y => y = x

theorem Effect.leads_apply_iff {e : Effect} {x y : Reg → Word} :
    e.Leads (fun x y => y = helped x) x y ↔ y = e.apply helped x := by
  cases e <;> exact Iff.rfl

/-- A block has its effect on the frame, whatever a call may do there. -/
theorem Lowers.leads {e : Effect} {R : (Reg → Word) → (Reg → Word) → Prop} (h : Lowers tramp is e)
    (hR : ∀ c, R (slots c.mem (c.reg .rdi)) (slots (H.callee tramp c).mem (c.reg .rdi))) (hc : Framed F saved c) :
    e.Leads R (slots c.mem F) (slots (H.seq is c pos).2.mem F) ∧
      callsOf (H.seq is c pos).1 = (e.calls (slots c.mem F)).map (tramp, ·) := by
  cases h with
  | @assign is rd f computes =>
    obtain ⟨hvisits, hsame⟩ := computes.sameFrame H c pos
    have hmid := hc.sameFrame hsame
    have hval := computes.value H c pos
    have hcalls : callsOf (H.seq is c pos).1 = [] := by
      apply callsOf_eq_nil
      intro v hv r hr
      have hscratch := (hvisits v hv).2
      rw [hr] at hscratch
      cases hscratch
    rw [hc.rbx] at hval
    rw [Host.seq_append, seq_storeInstrs hmid.rbx]
    change slots _ F = (if rd = 0 then slots c.mem F else _) ∧ callsOf _ = []
    by_cases hrd : rd = 0
    · simp only [if_pos hrd]
      rw [List.append_nil, hcalls, hsame.mem]
      exact ⟨rfl, rfl⟩
    · simp only [if_neg hrd]
      rw [Cpu.store_mem, slots_write_slot, hsame.mem, hval, callsOf_append, hcalls]
      exact ⟨rfl, rfl⟩
  | call =>
    rw [seq_callInstrs]
    have hregs := hR (((c.set .rdi (c.reg .rbx)).set .rax tramp).push
      (H.retAddr (.call .rax) (pos + 3 + 10)))
    have hdi : (((c.set .rdi (c.reg .rbx)).set .rax tramp).push
      (H.retAddr (.call .rax) (pos + 3 + 10))).reg .rdi = F := hc.rbx
    have hmem : (((c.set .rdi (c.reg .rbx)).set .rax tramp).push
        (H.retAddr (.call .rax) (pos + 3 + 10))).mem =
        write64 c.mem (F - 8#64) (H.retAddr (.call .rax) (pos + 3 + 10)) :=
      congrArg (fun a => write64 c.mem (a - 8#64) _) hc.rsp
    rw [hdi, hmem, slots_write_below] at hregs
    refine ⟨hregs, ?_⟩
    have hbx : ((c.set .rdi (c.reg .rbx)).set .rax tramp).reg .rdi = F := hc.rbx
    simp only [callsOf, List.filterMap_cons, List.filterMap_nil, Cpu.set_reg_same, hbx]
    rfl
  | skip => exact ⟨rfl, rfl⟩

theorem Lowers.apply {e : Effect} (h : Lowers tramp is e) (hT : Realises helped (H.callee tramp))
    (hc : Framed F saved c) :
    slots (H.seq is c pos).2.mem F = e.apply helped (slots c.mem F) ∧
      callsOf (H.seq is c pos).1 = (e.calls (slots c.mem F)).map (tramp, ·) := by
  obtain ⟨hleads, hcalls⟩ := h.leads (R := fun x y => y = helped x) hT.regs hc
  exact ⟨Effect.leads_apply_iff.mp hleads, hcalls⟩

end Blocks

section Scan

def RefEnv.addr (E : RefEnv) (pc : BitVec 32) : Word := E.base + BitVec.ofNat 64 pc.toNat

/-- The translator and the reference agree on every step that meets `ok`: its effect is that of the
instruction, and a `jalr` returns with `a0` as it is. -/
structure Agrees (E : RefEnv) (insnAt : BitVec 32 → Insn) (eff : Insn → Option Effect)
    (ok : Insn → MState → Prop) : Prop where
  plain : ∀ {pc : BitVec 32} {insn : Insn} {s s₁ : MState} {e : Effect}, s.pc = E.addr pc →
    E.fetch s.pc = some insn → ok insn s → exec insn s = some s₁ → (insnAt pc).cls ≠ .jalr →
    eff (insnAt pc) = some e →
    s₁.pc = s.pc + 4 ∧ s₁.x = e.apply E.helped s.x ∧ e.calls s.x = []
  helper : ∀ {pc : BitVec 32} {insn : Insn} {s : MState}, s.pc = E.addr pc →
    E.fetch s.pc = some insn → insn.cls = .ecall → ok insn s →
    (insnAt pc).cls ≠ .jalr ∧ eff (insnAt pc) = some .call
  ret : ∀ {pc : BitVec 32} {insn : Insn} {s s₁ : MState}, s.pc = E.addr pc →
    E.fetch s.pc = some insn → ok insn s → exec insn s = some s₁ → (insnAt pc).cls = .jalr →
    s₁.pc = 0 ∧ s₁.x 10 = s.x 10

variable {E : RefEnv} {insnAt : BitVec 32 → Insn} {eff : Insn → Option Effect}
  {ok : Insn → MState → Prop} {F : Addr} {saved tramp : Word} {H : Host} {pc : BitVec 32}
  {code : List Byte}

theorem RefEnv.addr_sub (E : RefEnv) (pc : BitVec 32) : (E.addr pc - E.base).toNat = pc.toNat := by
  have := E.base.isLt
  have := pc.isLt
  have hpc : (BitVec.ofNat 64 pc.toNat).toNat = pc.toNat := by
    rw [BitVec.toNat_ofNat]
    omega
  unfold RefEnv.addr
  rw [BitVec.toNat_sub, BitVec.toNat_add, hpc]
  omega

theorem RefEnv.addr_succ (E : RefEnv) {pc : BitVec 32} (h : pc.toNat + 4 < 2 ^ 32) :
    E.addr (pc + 4) = E.addr pc + 4 := by
  have h4 : (pc + 4#32).toNat = pc.toNat + 4 := by
    have : (4#32).toNat = 4 := rfl
    rw [BitVec.toNat_add, this]
    omega
  unfold RefEnv.addr
  rw [show pc + 4 = pc + 4#32 from rfl, h4, BitVec.ofNat_add, BitVec.add_assoc]
  rfl

theorem RefEnv.addr_ne_zero {E : RefEnv} (hout : ¬ E.InText 0) {pc : BitVec 32}
    (hin : pc.toNat < E.text.length) : E.addr pc ≠ 0 := by
  intro h
  apply hout
  unfold RefEnv.InText
  rw [← h, E.addr_sub]
  exact hin

theorem RefEnv.fetch_past {E : RefEnv} {pc : BitVec 32} (hpast : E.text.length ≤ pc.toNat) :
    E.fetch (E.addr pc) = none := by
  unfold RefEnv.fetch
  rw [E.addr_sub, if_neg]
  omega

/-- Scanned code follows the reference run to its return. -/
theorem Scanned.simulates (h : Scanned E.text.length insnAt eff tramp pc code)
    (hagree : Agrees E insnAt eff ok) (hT : Realises E.helped (H.callee tramp)) (hout : ¬ E.InText 0)
    (hlen : E.text.length + 4 < 2 ^ 32) :
    ∃ bs is es, Body tramp bs is es ∧ code = bs ++ emitEpilogue ∧
      ∀ {c : Cpu} {pos : ℕ} {s s' : MState} {calls : List (Reg → Word)}, Framed F saved c →
        slots c.mem F = s.x → s.pc = E.addr pc → E.Returns ok s calls s' →
        slots (H.seq is c pos).2.mem F 10 = s'.x 10 ∧
          callsOf (H.seq is c pos).1 = calls.map (tramp, ·) := by
  induction h with
  | @stop pc past =>
    refine ⟨[], [], [], .nil, rfl, fun {c pos s s' calls} hc hx hpc hret => ?_⟩
    have hnone : E.fetch s.pc = none := by rw [hpc, RefEnv.fetch_past past]
    cases hret with
    | done => exact ⟨congrFun hx 10, rfl⟩
    | plain insn _ fetch => rw [hnone] at fetch; cases fetch
    | helper insn _ fetch => rw [hnone] at fetch; cases fetch
  | @ret pc inside cls =>
    refine ⟨[], [], [], .nil, rfl, fun {c pos s s' calls} hc hx hpc hret => ?_⟩
    cases hret with
    | done hzero => exact absurd (hpc ▸ hzero) (RefEnv.addr_ne_zero hout inside)
    | helper insn _ fetch hcls meets => exact absurd cls (hagree.helper hpc fetch hcls meets).1
    | plain insn _ fetch meets run tail =>
      obtain ⟨hzero, hten⟩ := hagree.ret hpc fetch meets run cls
      cases tail with
      | done => exact ⟨(congrFun hx 10).trans hten.symm, rfl⟩
      | plain _ hne => exact absurd hzero hne
      | helper _ hne => exact absurd hzero hne
  | @block pc bs rest is e inside cls effect emits lowers _ ih =>
    obtain ⟨bs', is', es, hbody, rfl, hsim⟩ := ih
    refine ⟨_, _, _, .cons emits lowers hbody, (List.append_assoc _ _ _).symm,
      fun {c pos s s' calls} hc hx hpc hret => ?_⟩
    obtain ⟨-, hframed⟩ := @Lowers.disciplined F saved tramp H c pos is e lowers hT.keepsFrame hc
    obtain ⟨hslots, hcalls⟩ := @Lowers.apply F saved tramp H c pos is _ e lowers hT hc
    have hnext : E.addr (pc + 4) = E.addr pc + 4 := E.addr_succ (by omega)
    rw [hx] at hslots hcalls
    rw [Host.seq_append]
    cases hret with
    | done hzero => exact absurd (hpc ▸ hzero) (RefEnv.addr_ne_zero hout inside)
    | @plain _ s₁ _ _ insn _ fetch meets run tail =>
      obtain ⟨hpc₁, hx₁, hnone⟩ := hagree.plain hpc fetch meets run cls effect
      obtain ⟨hten, htail⟩ := @hsim _ (pos + sizes is) _ _ _ hframed (hslots.trans hx₁.symm)
        (by rw [hpc₁, hpc, hnext]) tail
      rw [hnone] at hcalls
      exact ⟨hten, by rw [callsOf_append, hcalls, htail]; rfl⟩
    | @helper _ _ calls insn _ fetch hcls meets tail =>
      obtain ⟨-, heff⟩ := hagree.helper hpc fetch hcls meets
      rw [effect] at heff
      cases heff
      obtain ⟨hten, htail⟩ := @hsim _ (pos + sizes is) _ _ _ hframed hslots
        (show s.pc + 4 = _ by rw [hpc, hnext]) tail
      exact ⟨hten, by rw [callsOf_append, hcalls, htail]; rfl⟩

/-- The whole code, from its first byte to its return, against the run of the program. -/
theorem Scanned.returns (h : Scanned E.text.length insnAt eff tramp 0 code)
    (hcode : H.code = emitPrologue ++ code) (hagree : Agrees E insnAt eff ok)
    (hT : Realises E.helped (H.callee tramp)) (hout : ¬ E.InText 0) (hlen : E.text.length + 4 < 2 ^ 32)
    {c : Cpu} {s s' : MState} {calls : List (Reg → Word)} (hstart : E.Starts (c.reg .rdi) s)
    (hret : E.Returns ok s calls s') :
    ∃ n visits target c', H.run n c 0 = (visits, .returned target c') ∧ c'.reg .rax = s'.x 10 ∧
      callsOf visits = calls.map (tramp, ·) := by
  obtain ⟨bs, is, es, hbody, rfl, hsim⟩ :=
    @Scanned.simulates E insnAt eff ok (c.reg .rsp - 264#64) (c.reg .rbx) tramp H 0 code h hagree hT
      hout hlen
  have hsp : c.reg .rsp = (c.reg .rsp - 264#64) + 264#64 := (BitVec.sub_add_cancel _ _).symm
  obtain ⟨hframed, hslots, -⟩ := @seq_prologue _ H c hsp 0
  have hzero : E.addr 0 = E.base := BitVec.add_zero E.base
  obtain ⟨pos, hrun⟩ := @Body.run tramp H c bs is es hbody hcode
  refine ⟨_, _, _, _, hrun, ?_⟩
  unfold mainRun
  rw [Host.seq_append, Host.seq_append]
  generalize hc₁ : (H.seq prologueInstrs c 0).2 = c₁ at hframed hslots ⊢
  generalize hp₁ : 0 + sizes prologueInstrs = p₁
  obtain ⟨hten, hcalls⟩ := @hsim c₁ p₁ s s' calls hframed (hslots.trans hstart.x.symm)
    (hstart.pc.trans hzero.symm) hret
  obtain ⟨-, hframed₂⟩ := @Body.disciplined _ _ tramp H c₁ p₁ bs is es hbody hT.keepsFrame hframed
  obtain ⟨hax, -⟩ := @seq_restore _ _ H (H.seq is c₁ p₁).2 hframed₂ (p₁ + sizes is)
  constructor
  · rw [Cpu.set_reg, if_neg (by decide), hax, hten]
  · have hpro : callsOf (H.seq prologueInstrs c 0).1 = [] := by
      apply callsOf_eq_nil
      intro v hv r hr
      have hmem := Host.seq_instr_mem hv
      rw [hr] at hmem
      simp [prologueInstrs] at hmem
    have hepi : callsOf (H.seq restoreInstrs (H.seq is c₁ p₁).2 (p₁ + sizes is)).1 = [] := by
      apply callsOf_eq_nil
      intro v hv r hr
      have hmem := Host.seq_instr_mem hv
      rw [hr] at hmem
      simp [restoreInstrs] at hmem
    simp only [callsOf_append, hpro, hcalls, hepi, List.nil_append, List.append_nil]
    exact List.append_nil _

end Scan

end MerlinV
