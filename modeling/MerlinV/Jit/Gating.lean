import MerlinV.Jit.Preserve
import MerlinV.Verify.Inversion
import MerlinV.Verify.Points

/-! # What the emitted code calls

The code `merlin_jit_translate` emits has no branches: each of its blocks runs with the registers the blocks before it
leave.  The analysis of an accepted text describes these registers, also where it joins them with others, so where the
emitted code calls its trampoline, `a7` names a helper of the allowlist.
-/
namespace MerlinV
open X86

/-- What the policy asks of a call: an allowed helper, an allowed kfunc where it resolves one, an allowed callback where
it loops over one. -/
structure CallPermitted (cfg : VerifierCfg) (x : Reg → Word) : Prop where
  helper : helperAllowed cfg ((x 17).setWidth 32) = true
  kfunc : (x 17).setWidth 32 = helperKfuncResolve → kfuncAllowed cfg ((x 10).setWidth 32) = true
  callback : (x 17).setWidth 32 = helperLoopCb → callbackAllowed cfg ((x 11).setWidth 32) = true

section Admits

/-- The values an abstract value leaves possible; only scalars exclude any. -/
def Rval.Admits : Rval → Word → Prop
  | .scalar c, v => c.tn.Mem v
  | _, _ => True

theorem Rval.admits_const (v : Word) : (Rval.const v).Admits v := Tnum.mem_const v

theorem Rval.admits_scalarTop (v : Word) : Rval.scalarTop.Admits v := Tnum.mem_top v

theorem Rval.Admits.join {a b : Rval} {v : Word} (ha : a.Admits v) (hb : b.Admits v) : (a.join b).Admits v := by
  cases a with
  | uninit => exact hb
  | scalar c =>
    cases b with
    | uninit => exact ha
    | scalar d => exact Tnum.mem_join_left _ ha
    | _ => exact admits_scalarTop v
  | ptrCtx lo hi => cases b <;> first | exact admits_scalarTop v | exact trivial
  | ptrStack lo hi => cases b <;> first | exact admits_scalarTop v | exact trivial
  | ptrHelperRet i =>
    cases b with
    | uninit => trivial
    | ptrHelperRet k =>
      simp only [Rval.join]
      split
      · exact admits_scalarTop v
      · trivial
    | _ => exact admits_scalarTop v
  | ptrKfuncSlot i =>
    cases b with
    | uninit => trivial
    | ptrKfuncSlot k =>
      simp only [Rval.join]
      split
      · exact admits_scalarTop v
      · trivial
    | _ => exact admits_scalarTop v

theorem Rval.Admits.eq_value {a : Rval} {c : Scalar} {v : Word} (h : a.Admits v) (hc : a.const? = some c) :
    v = c.tn.value := by
  obtain ⟨rfl, hconst⟩ := Rval.const?_eq_some hc
  exact Scalar.eq_value_of_isConst hconst h

structure VState.Admits (st : VState) (x : Reg → Word) : Prop where
  zero : x 0 = 0
  regs : ∀ r, (st.x r).Admits (x r)

variable {cfg : VerifierCfg} {insn : Insn} {st st' : VState} {x : Reg → Word}

theorem VState.Admits.join (h : st.valid = true → st.Admits x) (h' : st'.valid = true → st'.Admits x)
    (hv : (st.join st').valid = true) : (st.join st').Admits x := by
  cases hs' : st'.valid with
  | false =>
    have heq : st.join st' = st := by simp [VState.join, hs']
    rw [heq] at hv ⊢
    exact h hv
  | true =>
    cases hs : st.valid with
    | false =>
      have heq : st.join st' = st' := by simp [VState.join, hs, hs']
      rw [heq]
      exact h' hs'
    | true =>
      refine ⟨(h hs).zero, fun r => ?_⟩
      rw [VState.join_x hs hs']
      exact ((h hs).regs r).join ((h' hs').regs r)

theorem VState.Admits.set (h : st.Admits x) {rd : Reg} (hrd : rd ≠ 0) {v : Rval} {w : Word} (hv : v.Admits w) :
    (st.set rd v).Admits (Function.update x rd w) where
  zero := by rw [Function.update_of_ne (Ne.symm hrd), h.zero]
  regs r := by
    rw [VState.set_x]
    by_cases hr : r = rd
    · rw [if_pos hr, hr, Function.update_self]
      exact hv
    · rw [if_neg hr, Function.update_of_ne hr]
      exact h.regs r

theorem VState.Admits.forget (h : st.Admits x) (rd : Reg) : (st.set rd .scalarTop).Admits x where
  zero := h.zero
  regs r := by
    rw [VState.set_x]
    split
    · exact Rval.admits_scalarTop _
    · exact h.regs r

def assigned (x : Reg → Word) (rd : Reg) (w : Word) : Reg → Word := if rd = 0 then x else Function.update x rd w

theorem assign_admits (h : st.Admits x) (rd : Reg) {v : Rval} {w : Word} (hv : v.Admits w) (why : Reject) :
    (assign st rd v why).1.Admits (assigned x rd w) := by
  unfold assign assigned
  by_cases h2 : rd = 2
  · rw [if_pos h2, h2, if_neg (by decide)]
    exact h.set (by decide) (Rval.admits_scalarTop w)
  · rw [if_neg h2]
    by_cases h0 : rd = 0
    · rw [if_neg (not_not.mpr h0), if_pos h0]
      exact h
    · rw [if_pos h0, if_neg h0]
      exact h.set h0 hv

theorem stepAddi_admits (h : st.Admits x) :
    (stepAddi cfg insn st).1.Admits (assigned x insn.rd (x insn.rs1 + insn.imm)) := by
  have hset : ∀ (v : Rval) (l : List Reject), v.Admits (x insn.rs1 + insn.imm) →
      (if insn.rd ≠ 0 then (st.set insn.rd v, l) else (st, [])).1.Admits
        (assigned x insn.rd (x insn.rs1 + insn.imm)) := by
    intro v l hv
    unfold assigned
    by_cases h0 : insn.rd = 0
    · rw [if_neg (not_not.mpr h0), if_pos h0]
      exact h
    · rw [if_pos h0, if_neg h0]
      exact h.set h0 hv
  unfold stepAddi
  split
  · rename_i hz
    rw [hz, h.zero, show (0 : Word) + insn.imm = insn.imm from BitVec.zero_add _]
    exact assign_admits h _ (Rval.admits_const _) _
  · split
    · rename_i h2
      unfold assigned
      rw [h2.1, if_neg (by decide)]
      exact h.set (by decide) (Rval.admits_scalarTop _)
    · have hregs := h.regs insn.rs1
      cases hx : st.x insn.rs1 with
      | scalar s =>
        rw [hx] at hregs
        have hsum : (Rval.scalar (s.add (Scalar.const insn.imm))).Admits (x insn.rs1 + insn.imm) :=
          Tnum.mem_add hregs (Tnum.mem_const insn.imm)
        exact assign_admits h _ hsum _
      | ptrCtx lo hi => exact hset _ _ trivial
      | ptrStack lo hi => exact hset _ _ trivial
      | uninit => exact assign_admits h _ (Rval.admits_scalarTop _) _
      | ptrHelperRet id => exact assign_admits h _ (Rval.admits_scalarTop _) _
      | ptrKfuncSlot id => exact assign_admits h _ (Rval.admits_scalarTop _) _

theorem Rval.widenOff_admits {a : Rval} (h : a.isPtr = true) (w : Word) : a.widenOff.Admits w := by
  cases a with
  | scalar c => cases h
  | _ => trivial

theorem aluRegResult_admits (a b : Rval) (w : Word) : (aluRegResult a b).Admits w := by
  unfold aluRegResult
  split
  · split
    · rename_i ha
      exact Rval.widenOff_admits ha w
    · rename_i hab ha
      exact Rval.widenOff_admits (by simpa [ha] using hab) w
  · exact Rval.admits_scalarTop w

end Admits

section Steps

variable {cfg : VerifierCfg} {insn : Insn} {st : VState} {x y : Reg → Word} {e : Effect}

def SameButA0 (x y : Reg → Word) : Prop := ∀ r, r ≠ 10 → y r = x r

/-- A call leaves every register but `a0` possible, clobbered or not. -/
theorem VState.Admits.call (h : st.Admits x) (hkeep : SameButA0 x y) {s : VState}
    (hs : s = st ∨ s = st.clobber) {v : Rval} (hv : v.Admits (y 10)) : (s.set 10 v).Admits y where
  zero := by rw [hkeep 0 (by decide), h.zero]
  regs r := by
    rw [VState.set_x]
    by_cases hr : r = 10
    · rw [if_pos hr, hr]
      exact hv
    · rw [if_neg hr, hkeep r hr]
      rcases hs with rfl | rfl
      · exact h.regs r
      · unfold VState.clobber
        dsimp only
        split
        · trivial
        · exact h.regs r

/-- Whatever an `ecall` leaves in `a0`, it excludes no value. -/
theorem stepEcall_shape (cfg : VerifierCfg) (st : VState) (p : BitVec 32) :
    ∃ s v, (stepEcall cfg st p).st = s.set 10 v ∧ (s = st ∨ s = st.clobber) ∧ ∀ w, v.Admits w := by
  simp only [stepEcall, stepKfuncResolve, stepLoopCb]
  repeat' split
  all_goals
    first
    | exact ⟨_, _, rfl, .inl rfl, Rval.admits_scalarTop⟩
    | exact ⟨_, _, rfl, .inr rfl, Rval.admits_scalarTop⟩
    | exact ⟨_, _, rfl, .inr rfl, fun _ => trivial⟩

theorem effectOf_assign (he : effectOf insn = some e) (hcall : insn.cls ≠ .ecall) (hfence : insn.cls ≠ .fence) :
    ∃ f, e = .assign insn.rd f := by
  unfold effectOf at he
  split at he <;> cases he <;> first | exact ⟨_, rfl⟩ | contradiction

/-- The analysis of an instruction describes what its block of emitted code leaves, whatever it rejects. -/
theorem stepPlain_admits (h : st.Admits x) (hf : JitFields insn) (he : effectOf insn = some e)
    (hcall : insn.cls ≠ .ecall) (hxy : e.Leads SameButA0 x y) : (stepPlain cfg insn st).1.Admits y := by
  by_cases hfence : insn.cls = .fence
  · simp only [effectOf, hfence, Option.some.injEq] at he
    subst he
    obtain rfl : y = x := hxy
    simp only [stepPlain, hfence]
    split
    · exact h.forget _
    · exact h
  · obtain ⟨f, rfl⟩ := effectOf_assign he hcall hfence
    obtain rfl : y = assigned x insn.rd (f x) := hxy
    -- what the analysis does not follow it takes for an unknown scalar
    have hother : (if insn.rd ≠ 0 then st.set insn.rd .scalarTop else st).Admits (assigned x insn.rd (f x)) := by
      unfold assigned
      by_cases h0 : insn.rd = 0
      · rw [if_neg (not_not.mpr h0), if_pos h0]
        exact h
      · rw [if_pos h0, if_neg h0]
        exact h.set h0 (Rval.admits_scalarTop _)
    cases hc : insn.cls with
    | aluImm =>
      have hadd : insn.aluOp = .add := by
        by_contra hno
        cases ho : insn.aluOp <;> simp [effectOf, hc, ho] at he hno
      simp only [effectOf, hc, hadd, Option.some.injEq, Effect.assign.injEq, true_and] at he
      subst he
      simp only [stepPlain, hc, stepAluImm, hadd, if_true, hf.imm hc]
      exact stepAddi_admits h
    | lui =>
      simp only [effectOf, hc, Option.some.injEq, Effect.assign.injEq, true_and] at he
      subst he
      simp only [stepPlain, hc]
      exact assign_admits h _ (Rval.admits_const _) _
    | aluReg =>
      simp only [stepPlain, hc, stepAluReg]
      exact assign_admits h _ (aluRegResult_admits _ _ _) _
    | mul =>
      simp only [stepPlain, hc]
      exact hother
    | shiftImm =>
      simp only [stepPlain, hc]
      exact hother
    | ecall => exact absurd hc hcall
    | fence => exact absurd hc hfence
    | _ => simp [effectOf, hc] at he

theorem effectOf_permitted (he : effectOf insn = some e) : merlinInsnPermittedDefault insn = true := by
  unfold merlinInsnPermittedDefault
  cases hc : insn.cls <;> first | rfl | simp [effectOf, hc] at he

theorem stepInsn_admits (h : st.Admits x) (hf : JitFields insn) (he : effectOf insn = some e)
    (hxy : e.Leads SameButA0 x y) (p : BitVec 32) : (stepInsn merlinDecoder cfg insn st p).st.Admits y := by
  by_cases hcall : insn.cls = .ecall
  · rw [stepInsn_ecall p hcall]
    simp only [effectOf, hcall, Option.some.injEq] at he
    subst he
    obtain ⟨s, v, hst, hs, hv⟩ := stepEcall_shape cfg st p
    rw [hst]
    exact h.call hxy hs (hv _)
  · rw [stepInsn_plain p (effectOf_permitted he) hcall]
    exact stepPlain_admits h hf he hcall hxy

theorem stepEcall_loopCb {p : BitVec 32} (h : (stepEcall cfg st p).rejects = []) {a7 : Scalar}
    (h7 : (st.x 17).const? = some a7) (hid : a7.tn.value.setWidth 32 = helperLoopCb) :
    ∃ a1, (st.x 11).const? = some a1 ∧ callbackAllowed cfg (a1.tn.value.setWidth 32) = true := by
  have hne : helperLoopCb ≠ helperKfuncResolve := by decide
  simp only [stepEcall, h7, hid, if_neg hne, if_true, stepLoopCb] at h
  split at h
  · cases h
  · split at h
    · cases h
    · split at h
      · cases h
      · split at h
        · cases h
        · rename_i a1 ha1
          split at h
          · cases h
          · rename_i hallow
            exact ⟨a1, ha1, by simpa using hallow⟩

theorem VState.Admits.callPermitted (h : st.Admits x) (hcall : insn.cls = .ecall) {p : BitVec 32}
    (hrej : (stepInsn merlinDecoder cfg insn st p).rejects = []) : CallPermitted cfg x := by
  rw [stepInsn_ecall p hcall] at hrej
  obtain ⟨a7, h7, hallow, -, hkfunc⟩ := stepEcall_eq hrej
  have hx7 := (h.regs 17).eq_value h7
  constructor
  · rw [hx7]
    exact hallow
  · intro hid
    rw [hx7] at hid
    obtain ⟨a0, h0, hk⟩ := hkfunc hid
    rw [(h.regs 10).eq_value h0]
    exact hk
  · intro hid
    rw [hx7] at hid
    obtain ⟨a1, h1, hcb⟩ := stepEcall_loopCb hrej h7 hid
    rw [(h.regs 11).eq_value h1]
    exact hcb

end Steps

section Straight

variable (text : Text) (xs : ℕ → Reg → Word) (ctx : Word)

/-- The first `m` instructions have blocks of emitted code, which take the registers through `xs`, and there the text
ends or returns. -/
structure Straight (m : ℕ) : Prop where
  entry : xs 0 = Function.update (fun _ => 0) 10 ctx
  inside : ∀ k < m, 4 * k < text.length
  block : ∀ k < m, ∃ e, effectOf (insnAt text (4 * k)) = some e ∧ e.Leads SameButA0 (xs k) (xs (k + 1))
  ends : 4 * m < text.length → (insnAt text (4 * m)).cls = .jalr

variable {text xs ctx} {textOffset : BitVec 32} {cfg : VerifierCfg} {G : Cfg} {A : Analysis}
  {leader : LeaderMap} {raw : List Block} {bound : ℕ → ℕ} {k m : ℕ} {e : Effect}

theorem not_isCtrlAt_of_effectOf (he : effectOf (insnAt text (4 * k)) = some e) :
    ¬ IsCtrlAt merlinDecoder text k := by
  rintro ⟨insn, hinsn, hc⟩
  rw [cfgInsn_insnAt] at hinsn
  rw [← Option.some.inj hinsn] at hc
  cases hcls : (insnAt text (4 * k)).cls <;> simp [Insn.isCtrl, effectOf, hcls] at hc he

theorem nextOffsets_of_effectOf (he : effectOf (insnAt text (4 * k)) = some e) :
    nextOffsets merlinDecoder text (4 * k) = [((4 * k : ℕ) : ℤ) + 4] := by
  apply nextOffsets_of_not_ctrl
  intro insn hinsn
  by_contra hc
  exact not_isCtrlAt_of_effectOf he ⟨insn, hinsn, by simpa using hc⟩

/-- Along a block of the graph the abstract states describe the registers. -/
theorem Straight.stateBefore_admits (hs : Straight text xs ctx m) {i s : ℕ} (h : (A.entryState i).Admits (xs s))
    (hsk : s ≤ k) (hkm : k ≤ m) : (stateBefore merlinDecoder cfg text textOffset A i s k).Admits (xs k) := by
  induction k, hsk using Nat.le_induction with
  | base =>
    rw [stateBefore_start]
    exact h
  | succ k hsk ih =>
    obtain ⟨e, he, hleads⟩ := hs.block k (by omega)
    rw [stateBefore_succ hsk rfl, stepInsn_insnAt]
    exact stepInsn_admits (ih (by omega)) (merlinDecode_fields _ _) he hleads 0

/-- The processed blocks begin in the straight part, and their entry states describe its registers. -/
def Described (raw : List Block) (bound : ℕ → ℕ) (xs : ℕ → Reg → Word) (m : ℕ) (A : Analysis) : Prop :=
  ∀ i < raw.length, (A.entryState i).valid = true → bound i ≤ m ∧ (A.entryState i).Admits (xs (bound i))

theorem Straight.described_init (hs : Straight text xs ctx m) (hz : bound 0 = 0) :
    Described raw bound xs m (Analysis.init cfg) := by
  intro i _ hv
  by_cases h0 : i = 0
  · subst h0
    rw [hz, hs.entry]
    refine ⟨Nat.zero_le m, rfl, fun r => ?_⟩
    simp only [Analysis.init, Function.update_self, vstateInitEntry]
    by_cases hr : r = 0
    · subst hr
      exact Rval.admits_const 0
    · rw [if_neg hr]
      repeat' split
      all_goals first | exact Tnum.mem_top _ | trivial
  · simp [Analysis.init, h0, VState.bottom] at hv

variable (hb : Built merlinDecoder text textOffset G leader raw bound)

include hb in
/-- The straight part is left at its end only: a block continues in it where the next one begins. -/
theorem Straight.succs_eq (hs : Straight text xs ctx m) {i n : ℕ} (hi : i < raw.length) (him : bound i ≤ m)
    (hn : n ∈ succsOf G.blocks i) : n < raw.length ∧ bound n = bound (i + 1) ∧ bound (i + 1) ≤ m := by
  obtain ⟨hlen, hmem, -⟩ := (hb.mem_succs hi).mp hn
  obtain ⟨hpos, hle, hlast⟩ := hb.last_lt hi
  have hlt := hb.layout.lt i hi
  by_cases hm : bound (i + 1) ≤ m
  · obtain ⟨e, he, -⟩ := hs.block (bound (i + 1) - 1) (by omega)
    rw [nextOffsets_of_effectOf he, List.mem_singleton] at hmem
    exact ⟨hlen, by omega, hm⟩
  · -- the straight part ends inside the block, at a `jalr`
    have hjalr := hs.ends (by omega)
    have hctrl : IsCtrlAt merlinDecoder text m := ⟨_, cfgInsn_insnAt _, by simp [Insn.isCtrl, hjalr]⟩
    have hend := hb.ctrl_last hi him (by omega) hctrl
    have hnone : nextOffsets merlinDecoder text (4 * (bound (i + 1) - 1)) = [] := by
      rw [hend, Nat.add_sub_cancel]
      simp only [nextOffsets, cfgInsn_insnAt, hjalr]
    rw [hnone] at hmem
    cases hmem

include hb in
/-- Every state of the worklist loop describes the straight part, in whatever order blocks are taken. -/
theorem Straight.described (hs : Straight text xs ctx m) (h : AnyRun merlinDecoder cfg text textOffset G.blocks A) :
    Described raw bound xs m A := by
  induction h with
  | refl => exact hs.described_init hb.layout.zero
  | @tail A A' hrun hstep ih =>
    obtain ⟨i, succs, -, hperm, hvisit⟩ := hstep
    rcases visitVia_cases (A := { A with queue := A.queue.erase i }) (AnyRun.workInv hrun).canonical hvisit
      with ⟨rfl, -⟩ | ⟨b, hget, hvalid, hv⟩
    · exact ih
    · have hi := hb.lt_of_get hget
      obtain ⟨him, hentry⟩ := ih i hi hvalid
      intro n hn hvn
      rw [hv.entry n] at hvn ⊢
      split at hvn
      · rename_i hmem
        obtain ⟨-, hnext, hm⟩ := hs.succs_eq hb hi him (hperm.mem_iff.mp hmem)
        rw [if_pos hmem, hnext]
        refine ⟨hm, VState.Admits.join (fun hvn' => hnext ▸ (ih n hn hvn').2) (fun _ => ?_) hvn⟩
        rw [visitOut, hb.blockOffsets_eq hget]
        exact hs.stateBefore_admits hentry (hb.layout.lt i hi).le hm
      · rename_i hmem
        rw [if_neg hmem]
        exact ih n hn hvn

variable (hacc : AcceptedAs text textOffset cfg G A)

include hb hacc in
/-- The analysis of an accepted text reaches every instruction of the straight part. -/
theorem Straight.pointState (hs : Straight text xs ctx m) (hk : k ≤ m) (hin : k < text.length / 4) :
    ∃ st, PointState text textOffset cfg A raw bound k st := by
  induction k with
  | zero =>
    obtain ⟨st, hst, -⟩ := PointState.entry hacc hb
    exact ⟨st, hst⟩
  | succ k ih =>
    obtain ⟨e, he, -⟩ := hs.block k (by omega)
    obtain ⟨st, hst⟩ := ih (by omega) (by omega)
    obtain ⟨st', hst', -⟩ := hst.next hacc hb hin
      (by rw [nextOffsets_of_effectOf he, List.mem_singleton]; push_cast; omega)
      fun hctrl => absurd hctrl (not_isCtrlAt_of_effectOf he)
    exact ⟨st', hst'⟩

theorem Straight.callPermitted (hs : Straight text xs ctx m) (hacc : Accepted text textOffset cfg)
    (hfit : CounterFits text textOffset cfg) (hk : k < m) (hcall : (insnAt text (4 * k)).cls = .ecall) :
    CallPermitted cfg (xs k) := by
  obtain ⟨G, A, hacc⟩ := hacc.exists_acceptedAs
  obtain ⟨leader, raw, bound, hb⟩ := merlinCfgBuild_built hacc.build
  have hsize := hb.size
  have hin := hs.inside k hk
  obtain ⟨st, hst⟩ := hs.pointState hb hacc hk.le (by omega)
  have hrej := hst.rejects hacc hfit hb
  obtain ⟨i, hi, hv, hstart, -, rfl⟩ := hst
  have hdescribed : Described raw bound xs m A := hs.described hb hacc.codedRun.1.anyRun
  obtain ⟨-, hentry⟩ := hdescribed i hi hv
  exact (hs.stateBefore_admits hentry hstart hk.le).callPermitted hcall hrej

end Straight

section Emitted

variable {text : Text} {F : Addr} {saved tramp : Word} {H : Host} {pc : BitVec 32} {code : List Byte} {k m : ℕ}

/-- A trampoline that changes no register of the frame but `a0`; what it leaves there may depend on the whole processor
and on all of its memory. -/
structure ChangesA0Only (T : Cpu → Cpu) : Prop extends KeepsFrame T where
  others : ∀ c, SameButA0 (slots c.mem (c.reg .rdi)) (slots (T c).mem (c.reg .rdi))

theorem effectOf_jitInsn (hpc : pc.toNat = 4 * k) : effectOf (jitInsn text pc) = effectOf (insnAt text (4 * k)) := by
  rw [jitInsn, hpc, merlinDecode_pc _ pc 0]
  rfl

theorem cls_jitInsn (hpc : pc.toNat = 4 * k) : (jitInsn text pc).cls = (insnAt text (4 * k)).cls := by
  rw [jitInsn, hpc, merlinDecode_pc _ pc 0]
  rfl

theorem effectOf_call {insn : Insn} (he : effectOf insn = some .call) : insn.cls = .ecall := by
  unfold effectOf at he
  split at he <;> first | assumption | cases he

theorem Effect.calls_at {e : Effect} (he : effectOf (insnAt text (4 * k)) = some e) (x : Reg → Word) :
    ∀ regs ∈ e.calls x, (insnAt text (4 * k)).cls = .ecall ∧ regs = x := by
  intro regs hmem
  cases e with
  | assign rd f => cases hmem
  | skip => cases hmem
  | call => exact ⟨effectOf_call he, List.mem_singleton.mp hmem⟩

/-- Scanned code is the body of a straight part, and calls its trampoline with the registers of that part only. -/
theorem Scanned.calls_at (h : Scanned text.length (jitInsn text) effectOf tramp pc code)
    (hT : ChangesA0Only (H.callee tramp)) (hlen : text.length + 4 < 2 ^ 32) (hpc : pc.toNat = 4 * k) :
    ∃ bs is es m, Body tramp bs is es ∧ code = bs ++ emitEpilogue ∧ k ≤ m ∧
      (∀ j, k ≤ j → j < m → 4 * j < text.length) ∧ (4 * m < text.length → (insnAt text (4 * m)).cls = .jalr) ∧
      ∀ {c pos}, Framed F saved c → ∃ xs : ℕ → Reg → Word, xs k = slots c.mem F ∧
        (∀ j, k ≤ j → j < m → ∃ e, effectOf (insnAt text (4 * j)) = some e ∧
          e.Leads SameButA0 (xs j) (xs (j + 1))) ∧
        ∀ call ∈ callsOf (H.seq is c pos).1, ∃ j, k ≤ j ∧ j < m ∧ (insnAt text (4 * j)).cls = .ecall ∧
          call = (tramp, xs j) := by
  induction h generalizing k with
  | stop past =>
    exact ⟨[], [], [], k, .nil, rfl, le_rfl, fun j _ _ => by omega, fun _ => by omega, fun {c _} _ =>
      ⟨fun _ => slots c.mem F, rfl, fun j _ _ => by omega, fun call hmem => by cases hmem⟩⟩
  | ret inside cls =>
    rw [cls_jitInsn hpc] at cls
    exact ⟨[], [], [], k, .nil, rfl, le_rfl, fun j _ _ => by omega, fun _ => cls, fun {c _} _ =>
      ⟨fun _ => slots c.mem F, rfl, fun j _ _ => by omega, fun call hmem => by cases hmem⟩⟩
  | @block pc bs rest is e inside cls effect emits lowers tail ih =>
    have hnext : (pc + 4).toNat = 4 * (k + 1) := by
      have h4 : (4 : BitVec 32).toNat = 4 := rfl
      rw [BitVec.toNat_add, h4]
      omega
    obtain ⟨bs', is', es, m, hbody, rfl, hkm, hinside, hends, hruns⟩ := ih hnext
    rw [effectOf_jitInsn hpc] at effect
    refine ⟨_, _, _, m, .cons emits lowers hbody, (List.append_assoc _ _ _).symm, by omega, fun j hj hjm => ?_, hends,
      fun {c pos} hc => ?_⟩
    · rcases Nat.eq_or_lt_of_le hj with rfl | hj
      · omega
      · exact hinside j hj hjm
    · obtain ⟨-, hframed⟩ := @Lowers.disciplined F saved tramp H c pos is e lowers hT.toKeepsFrame hc
      obtain ⟨hslots, hhere⟩ := @Lowers.leads F saved tramp H c pos is e SameButA0 lowers hT.others hc
      obtain ⟨xs, hstart, hleads, hcalls⟩ := @hruns _ (pos + sizes is) hframed
      -- the registers in front of the block, then those of the rest
      have hrest : ∀ j, k < j → Function.update xs k (slots c.mem F) j = xs j := fun j hj =>
        Function.update_of_ne hj.ne' _ _
      refine ⟨Function.update xs k (slots c.mem F), Function.update_self .., fun j hj hjm => ?_, fun call hmem => ?_⟩
      · rw [hrest (j + 1) (by omega)]
        rcases Nat.eq_or_lt_of_le hj with rfl | hj
        · rw [Function.update_self, hstart]
          exact ⟨e, effect, hslots⟩
        · rw [hrest j hj]
          exact hleads j hj hjm
      · rw [Host.seq_append, callsOf_append, List.mem_append] at hmem
        rcases hmem with hmem | hmem
        · rw [hhere] at hmem
          obtain ⟨regs, hregs, rfl⟩ := List.mem_map.mp hmem
          obtain ⟨hcls, rfl⟩ := Effect.calls_at effect _ regs hregs
          exact ⟨k, le_rfl, by omega, hcls, by rw [Function.update_self]⟩
        · obtain ⟨j, hj, hjm, hcls, rfl⟩ := hcalls call hmem
          exact ⟨j, by omega, hjm, hcls, by rw [hrest j hj]⟩

theorem mem_callsOf_mainRun {is : List Instr} {c : Cpu} {call : Addr × (Reg → Word)}
    (h : call ∈ callsOf (mainRun H is c).1) :
    call ∈ callsOf (H.seq is (H.seq prologueInstrs c 0).2 (0 + sizes prologueInstrs)).1 := by
  have hquiet : ∀ (js : List Instr) (c : Cpu) (pos : ℕ), (∀ r, Instr.call r ∉ js) →
      callsOf (H.seq js c pos).1 = [] := by
    intro js c pos hno
    apply callsOf_eq_nil
    intro v hv r hr
    exact hno r (hr ▸ Host.seq_instr_mem hv)
  rw [mainRun, Host.seq_append, Host.seq_append] at h
  simp only [callsOf_append, List.mem_append] at h
  rw [hquiet prologueInstrs c 0 (by simp [prologueInstrs]), hquiet restoreInstrs _ _ (by simp [restoreInstrs])] at h
  simpa using h

/-- The code emitted for an accepted text returns, whatever the context and the helpers do, and calls nothing but its
trampoline, each time for what the policy allows. -/
theorem emitted_calls_permitted (text : Text) (textOffset : BitVec 32) (cfg : VerifierCfg) (tramp : Word) (fuel : ℕ)
    (code : List Byte) (H : Host) (c : Cpu) (hacc : Accepted text textOffset cfg)
    (hfit : CounterFits text textOffset cfg) (h : merlinJitTranslate text tramp fuel = some (.ok code))
    (hcode : H.code = code) (hT : ChangesA0Only (H.callee tramp)) :
    ∃ n visits target c', H.run n c 0 = (visits, .returned target c') ∧
      ∀ call ∈ callsOf visits, call.1 = tramp ∧ CallPermitted cfg call.2 := by
  obtain ⟨tail, rfl, hscan⟩ := merlinJitTranslate_scanned h
  have hlen : text.length + 4 < 2 ^ 32 := by
    have hle := hacc.length_le
    have hmax : 4 * cfgMaxInsns + 4 < 2 ^ 32 := by decide
    omega
  obtain ⟨bs, is, es, m, hbody, rfl, -, hinside, hends, hruns⟩ :=
    @Scanned.calls_at text (c.reg .rsp - 264#64) (c.reg .rbx) tramp H 0 _ 0 hscan hT hlen rfl
  obtain ⟨pos, hrun⟩ := @Body.run tramp H c bs is es hbody hcode
  refine ⟨_, _, _, _, hrun, fun call hmem => ?_⟩
  rw [callsOf_append, List.mem_append] at hmem
  have hmain : call ∈ callsOf (mainRun H is c).1 := hmem.resolve_right (by simp [callsOf])
  have hsp : c.reg .rsp = (c.reg .rsp - 264#64) + 264#64 := (BitVec.sub_add_cancel _ _).symm
  obtain ⟨hframed, hslots, -⟩ := @seq_prologue _ H c hsp 0
  obtain ⟨xs, hstart, hleads, hcalls⟩ := hruns hframed
  have hstraight : Straight text xs (c.reg .rdi) m :=
    ⟨hstart.trans hslots, fun k hk => hinside k (Nat.zero_le k) hk, fun k hk => hleads k (Nat.zero_le k) hk, hends⟩
  obtain ⟨j, -, hj, hcls, rfl⟩ := hcalls call (mem_callsOf_mainRun hmain)
  exact ⟨rfl, hstraight.callPermitted hacc hfit hj hcls⟩

theorem helperTrampoline_changesA0Only (E : RefEnv) : ChangesA0Only (helperTrampoline E.helper) where
  toKeepsFrame := (helperTrampoline_realises E).keepsFrame
  others c r hr := by
    rw [(helperTrampoline_realises E).regs]
    exact Function.update_of_ne hr _ _

/-- The code for `li a7, 0x110; ecall; ret`, in front of a trampoline that adds one to the first argument. -/
theorem timeText_calls_permitted : ∃ n visits target c',
    (succHost (translated timeText)).run n (entryCpu 5) 0 = (visits, .returned target c') ∧
      ∀ call ∈ callsOf visits, call.1 = 0x1000 ∧ CallPermitted merlinVerifierCfgInitForMvdp call.2 :=
  emitted_calls_permitted timeText 0x40 merlinVerifierCfgInitForMvdp 0x1000 3 (translated timeText)
    (succHost (translated timeText)) (entryCpu 5) ⟨20, by decide +kernel⟩ (counterFits_of_cap (by decide))
    (by decide +kernel) rfl
    (helperTrampoline_changesA0Only (succEnv timeText))

end Emitted

end MerlinV
