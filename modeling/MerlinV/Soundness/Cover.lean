import MerlinV.Machine.Shadow
import MerlinV.Soundness.Transfer
import MerlinV.Verify.Points

/-! # The abstract states cover the runs

In a run that follows the block graph of an accepted text, the state of the analysis in
front of the next instruction describes every register that is not stale.
-/
namespace MerlinV

/-- The values with their tags an abstract value stands for. -/
def Covers (E : Env) : Rval → Word → Tag → Prop
  | .uninit, _, _ => False
  | .scalar c, v, _ => c.tn.Mem v
  | .ptrCtx _ _, _, t => t.prov = .ptr .ctx ∨ t.prov = .minted
  | .ptrStack lo hi, v, t => t.prov = .minted ∨ t.prov = .ptr .stack ∧
      (t.far = true ∨ lo.toInt ≤ (v - E.sp0).toInt ∧ (v - E.sp0).toInt ≤ hi.toInt)
  | .ptrHelperRet _, _, t => t.prov = .ptr .helper ∨ t.prov = .minted
  | .ptrKfuncSlot id, v, _ => v = E.slot id

def Cover (E : Env) (st : VState) (x : Reg → Word) (tags : Reg → Tag) : Prop :=
  ∀ r, (tags r).stale = true ∨ Covers E (st.x r) (x r) (tags r)

section Values

variable {E : Env} {v : Word} {t : Tag}

@[simp] theorem covers_scalarTop : Covers E .scalarTop v t := Tnum.mem_top v

theorem covers_const (v : Word) : Covers E (.const v) v t := Tnum.mem_const v

/-- What an abstract value describes, everything that absorbs it describes. -/
theorem Covers.absorb {a b : Rval} (h : Covers E b v t) (hab : a.join b = a) : Covers E a v t := by
  cases b with
  | uninit => cases h
  | scalar c =>
    cases a with
    | scalar d =>
      have hd : d.join c = d := by simpa [Rval.join] using hab
      rw [← hd]
      exact Tnum.mem_join_right _ h
    | _ => cases hab
  | ptrCtx lo hi =>
    cases a with
    | ptrCtx lo' hi' => exact h
    | scalar d => exact hab ▸ covers_scalarTop
    | _ => cases hab
  | ptrStack lo hi =>
    cases a with
    | ptrStack lo' hi' =>
      obtain ⟨hlo, hhi⟩ : Rval.offMinJoin lo' lo = lo' ∧ Rval.offMaxJoin hi' hi = hi' := by
        simpa [Rval.join] using hab
      have hlo' := Rval.offMinJoin_toInt lo' lo
      have hhi' := Rval.offMaxJoin_toInt hi' hi
      rw [hlo] at hlo'
      rw [hhi] at hhi'
      rcases h with h | ⟨hp, hf | hrange⟩
      · exact .inl h
      · exact .inr ⟨hp, .inl hf⟩
      · exact .inr ⟨hp, .inr (by omega)⟩
    | scalar d => exact hab ▸ covers_scalarTop
    | _ => cases hab
  | ptrHelperRet id =>
    cases a with
    | ptrHelperRet id' => exact h
    | scalar d => exact hab ▸ covers_scalarTop
    | _ => cases hab
  | ptrKfuncSlot id =>
    cases a with
    | ptrKfuncSlot id' =>
      rw [Rval.join_slot_slot] at hab
      split at hab
      · rename_i heq
        rw [heq]
        exact h
      · cases hab
    | scalar d => exact hab ▸ covers_scalarTop
    | _ => cases hab

theorem Cover.absorb {st st' : VState} {x : Reg → Word} {tags : Reg → Tag} (h : Cover E st x tags)
    (hv : st.valid = true) (hv' : st'.valid = true) (hj : st'.join st = st') : Cover E st' x tags := by
  intro r
  apply (h r).imp_right
  intro hr
  apply hr.absorb
  rw [← VState.join_x hv' hv, hj]

theorem covers_stack_add {lo hi imm : Word} {n : ℕ} (hn : n + 2 ^ 31 < 2 ^ 63)
    (hb : (Rval.ptrStack lo hi).OffBound n) (himm : |imm.toInt| ≤ 2 ^ 31)
    (h : Covers E (.ptrStack lo hi) v t) :
    Covers E (.ptrStack (lo + imm) (hi + imm)) (v + imm) t := by
  obtain ⟨hl, hh⟩ := hb
  rw [abs_le] at hl hh himm
  rcases h with h | ⟨hp, hf | ⟨h₁, h₂⟩⟩
  · exact .inl h
  · exact .inr ⟨hp, .inl hf⟩
  · refine .inr ⟨hp, .inr ?_⟩
    have c₁ := toInt_add_cases lo imm
    have c₂ := toInt_add_cases (v - E.sp0) imm
    have c₃ := toInt_add_cases hi imm
    rw [add_sub_base]
    omega

theorem aluProv_minted_left (op : AluOp) (q : Prov) : aluProv op .minted q = .minted := by
  cases q <;> rfl

theorem aluProv_minted_right (op : AluOp) (p : Prov) : aluProv op p .minted = .minted := by
  cases p <;> rfl

/-- A register operation keeps the root of a pointer or mints its result. -/
theorem aluProv_of_ptr {op : AluOp} {p q : Prov} {root : Root}
    (h : (p = .ptr root ∨ p = .minted) ∨ q = .ptr root ∨ q = .minted) :
    aluProv op p q = .ptr root ∨ aluProv op p q = .minted := by
  rcases h with (rfl | rfl) | rfl | rfl
  · cases q <;> simp only [aluProv] <;> try split
    all_goals simp
  · exact .inr (aluProv_minted_left op q)
  · cases p <;> simp only [aluProv] <;> try split
    all_goals simp
  · exact .inr (aluProv_minted_right op p)

theorem covers_widenOff {a : Rval} {op : AluOp} {p q : Tag} {x y : Word} (hp : a.isPtr = true)
    (h : Covers E a x p ∨ Covers E a y q) : Covers E a.widenOff v (aluTag E op p q v) := by
  cases a with
  | uninit => cases hp
  | scalar c => cases hp
  | ptrKfuncSlot id => cases hp
  | ptrCtx lo hi => exact aluProv_of_ptr h
  | ptrHelperRet id => exact aluProv_of_ptr h
  | ptrStack lo hi =>
    have hroot : (p.prov = .ptr .stack ∨ p.prov = .minted) ∨ q.prov = .ptr .stack ∨ q.prov = .minted :=
      h.imp (fun h => h.elim .inr fun h => .inl h.1) fun h => h.elim .inr fun h => .inl h.1
    have hres : aluProv op p.prov q.prov = .ptr .stack ∨ aluProv op p.prov q.prov = .minted :=
      aluProv_of_ptr hroot
    rcases hres with hr | hr
    · refine .inr ⟨hr, ?_⟩
      by_cases hn : Near E.sp0 v
      · exact .inr hn
      · exact .inl (by simp [aluTag, hn])
    · exact .inl hr

end Values

section Step

variable {E : Env} {cfg : VerifierCfg} {insn : Insn} {st : VState} {s s' : MState} {tags : Reg → Tag}

theorem covers_aluReg {a b : Rval} {p q : Tag} {x y v : Word} (op : AluOp) (ha : Covers E a x p)
    (hb : Covers E b y q) : Covers E (aluRegResult a b) v (aluTag E op p q v) := by
  unfold aluRegResult
  split
  · split
    · rename_i hp
      exact covers_widenOff hp (.inl ha : _ ∨ Covers E a y q)
    · rename_i h hp
      have hb' : b.isPtr = true := by simpa [hp] using h
      exact covers_widenOff hb' (.inr hb : Covers E b x p ∨ _)
  · exact covers_scalarTop

theorem covers_addiResult {n : ℕ} (h0 : s.x 0 = 0) (hn : n + 2 ^ 31 < 2 ^ 63)
    (hb : (st.x insn.rs1).OffBound n) (himm : |insn.imm.toInt| ≤ 2 ^ 31)
    (h : Covers E (st.x insn.rs1) (s.x insn.rs1) (tags insn.rs1)) :
    Covers E (addiResult insn st) (s.x insn.rs1 + insn.imm) (tags insn.rs1) := by
  unfold addiResult
  split
  · rename_i hz
    rw [hz, h0, show (0 : Word) + insn.imm = insn.imm from BitVec.zero_add _]
    exact covers_const _
  · cases hx : st.x insn.rs1 with
    | uninit =>
      rw [hx] at h
      cases h
    | scalar c =>
      rw [hx] at h
      exact Tnum.mem_add h (Tnum.mem_const insn.imm)
    | ptrCtx lo hi =>
      rw [hx] at h
      exact h
    | ptrStack lo hi =>
      rw [hx] at h hb
      exact covers_stack_add hn hb himm h
    | ptrHelperRet id => exact covers_scalarTop
    | ptrKfuncSlot id => exact covers_scalarTop

/-- What an instruction writes to `rd` is described by what the analysis writes there. -/
theorem covers_result {n : ℕ} {v : Word} {a : Rval} (h0 : s.x 0 = 0) (hn : n + 2 ^ 31 < 2 ^ 63)
    (hb : ∀ r, (st.x r).OffBound n) (himm : |insn.imm.toInt| ≤ 2 ^ 31) (h : Cover E st s.x tags)
    (hv : result? insn s = some v) (ha : plainResult? insn st = some a) :
    (resultTag E insn s tags).stale = true ∨ Covers E a v (resultTag E insn s tags) := by
  unfold result? at hv
  unfold plainResult? at ha
  unfold resultTag
  cases hc : insn.cls <;> simp only [hc, Option.some.injEq, reduceCtorEq] at hv ha ⊢ <;>
    subst hv <;> subst ha
  case lui => exact .inr (covers_const _)
  case aluImm =>
    split
    · rename_i hadd
      rw [hadd]
      exact (h insn.rs1).imp_right (covers_addiResult h0 hn (hb _) himm)
    · exact .inr covers_scalarTop
  case aluReg =>
    rcases h insn.rs1 with h₁ | h₁
    · exact .inl (by simp [aluTag, h₁])
    · rcases h insn.rs2 with h₂ | h₂
      · exact .inl (by simp [aluTag, h₂])
      · exact .inr (covers_aluReg insn.aluOp h₁ h₂)
  all_goals exact .inr covers_scalarTop

theorem Cover.plain {n : ℕ} (h0 : s.x 0 = 0) (hn : n + 2 ^ 31 < 2 ^ 63)
    (hb : ∀ r, (st.x r).OffBound n) (himm : |insn.imm.toInt| ≤ 2 ^ 31) (h : Cover E st s.x tags)
    (hr : (stepPlain cfg insn st).2 = []) (he : exec insn s = some s') :
    Cover E (stepPlain cfg insn st).1 s'.x (plainTags E insn s tags) := by
  obtain ⟨-, -, -, hx⟩ := exec_eq_some he
  rw [stepPlain_eq hr]
  intro r
  rw [hx r]
  unfold plainTags
  cases hv : result? insn s with
  | none =>
    rw [if_neg (by simp)]
    cases ha : plainResult? insn st with
    | none => exact h r
    | some a =>
      -- a fence: the analysis forgets `rd`, the machine keeps it
      have htop : a = .scalarTop := by
        unfold result? at hv
        unfold plainResult? at ha
        cases hc : insn.cls <;> simp only [hc, Option.some.injEq, reduceCtorEq] at hv ha <;>
          exact ha.symm
      dsimp only
      rw [VState.setReg_x, htop]
      split
      · exact .inr covers_scalarTop
      · exact h r
  | some v =>
    dsimp only
    by_cases hrd : r = insn.rd ∧ insn.rd ≠ 0
    · rw [if_pos ⟨hrd.1, hrd.2, rfl⟩, if_pos hrd]
      cases ha : plainResult? insn st with
      | none =>
        have hjalr : insn.cls = .jalr := by
          unfold result? at hv
          unfold plainResult? at ha
          cases hc : insn.cls <;> simp only [hc, reduceCtorEq] at hv ha ⊢
        exact .inl (by simp [resultTag, hjalr, Tag.lost])
      | some a =>
        dsimp only
        rw [VState.setReg_x, if_pos hrd]
        exact covers_result h0 hn hb himm h hv ha
    · rw [if_neg (fun h' => hrd ⟨h'.1, h'.2.1⟩), if_neg hrd]
      cases ha : plainResult? insn st with
      | none => exact h r
      | some a =>
        dsimp only
        rw [VState.setReg_x, if_neg hrd]
        exact h r

/-- A described register with a constant abstract value holds that constant. -/
theorem Covers.eq_value {a : Rval} {c : Scalar} {v : Word} {t : Tag} (h : Covers E a v t)
    (hc : a.const? = some c) : v = c.tn.value := by
  obtain ⟨rfl, hconst⟩ := Rval.const?_eq_some hc
  exact Scalar.eq_value_of_isConst hconst h

theorem clobbered_of_callerSaved {r : Reg} (h : callerSaved r = false) :
    r ≠ 10 ∧ clobbered r = false := by
  revert r
  decide

/-- The constant the analysis reads from `a7` is what the machine has there. -/
theorem a7_eq {a7 : Scalar} (h : Cover E st s.x tags) (h7 : (st.x 17).const? = some a7)
    (hs : (tags 17).stale = false) (hlt : (s.x 17).toNat < 2 ^ 32) :
    s.x 17 = (a7.tn.value.setWidth 32).setWidth 64 := by
  have hval : s.x 17 = a7.tn.value := ((h 17).resolve_left (by simp [hs])).eq_value h7
  rw [← hval]
  apply BitVec.eq_of_toNat_eq
  simp only [BitVec.toNat_setWidth]
  omega

theorem setWidth_inj {a b : BitVec 32} (h : a.setWidth 64 = b.setWidth 64) : a = b := by
  apply BitVec.eq_of_toNat_eq
  have := congrArg BitVec.toNat h
  simp only [BitVec.toNat_setWidth] at this
  omega

/-- What a helper leaves in `a0`, when `a7` is what the analysis takes it for. -/
theorem covers_ecallResult {hid : BitVec 32} (h : Cover E st s.x tags)
    (hret : HelperReturn E s s') (hid7 : s.x 17 = hid.setWidth 64)
    (h10 : hid = helperKfuncResolve → (tags 10).stale = false) :
    Covers E (ecallResult hid st) (s'.x 10) (helperTag s tags) := by
  unfold ecallResult
  split
  · rename_i hk
    split
    · rename_i a0 ha0
      have hval : s.x 10 = a0.tn.value :=
        ((h 10).resolve_left (by simp [h10 hk])).eq_value ha0
      rw [hk] at hid7
      rw [← hval]
      exact hret.resolve hid7
    · exact covers_scalarTop
  · rename_i hk
    split
    · exact covers_scalarTop
    · rename_i hl
      change helperProv (s.x 17) = .ptr .helper ∨ helperProv (s.x 17) = .minted
      have hk' : s.x 17 ≠ helperKfuncResolve.setWidth 64 := fun h => hk (setWidth_inj (hid7 ▸ h))
      have hl' : s.x 17 ≠ helperLoopCb.setWidth 64 := fun h => hl (setWidth_inj (hid7 ▸ h))
      unfold helperProv
      split
      · exact .inl rfl
      · rw [if_neg (by simp [hk', hl'])]
        exact .inr rfl

theorem Cover.helper {p : BitVec 32} (h : Cover E st s.x tags)
    (hr : (stepEcall cfg st p).rejects = []) (hret : HelperReturn E s s') :
    Cover E (stepEcall cfg st p).st s'.x (helperTags s tags) := by
  obtain ⟨a7, h7, -, hst, -⟩ := stepEcall_eq hr
  rw [hst]
  intro r
  rw [VState.set_x]
  unfold helperTags
  split
  · rename_i hr10
    rw [hr10]
    cases hstale : (helperTag s tags).stale with
    | true => exact .inl rfl
    | false =>
      simp only [helperTag, Bool.or_eq_false_iff, decide_eq_false_iff_not, not_le] at hstale
      have hid7 := a7_eq h h7 hstale.1.1 hstale.1.2
      refine .inr (covers_ecallResult h hret hid7 fun hk => ?_)
      rw [hk] at hid7
      simpa [hid7] using hstale.2
  · unfold callTags
    split
    · exact .inl rfl
    · rename_i hcs
      have hcs : callerSaved r = false := by simpa using hcs
      simp only [VState.clobber, (clobbered_of_callerSaved hcs).2]
      rw [hret.saved r hcs]
      exact h r

end Step

section Offsets

variable {E : Env} {a imm : Word}

theorem Env.off_add {t : ℕ} (ht : t < 2 ^ 64) (h : (E.off a : ℤ) + imm.toInt = t) :
    E.off (a + imm) = t := by
  unfold Env.off at h ⊢
  have hsub : a + imm - E.base = (a - E.base) + imm := add_sub_base a E.base imm
  have hbv : (a - E.base) + imm = BitVec.ofNat 64 t := by
    apply BitVec.eq_of_toInt_eq
    have h₁ : (BitVec.ofInt 64 ((a - E.base).toNat + imm.toInt)) = (a - E.base) + imm := by
      rw [BitVec.ofInt_add, BitVec.ofInt_toInt, BitVec.ofInt_natCast, BitVec.ofNat_toNat,
        BitVec.setWidth_eq]
    rw [← h₁, h, BitVec.ofInt_natCast]
  rw [hsub, hbv, BitVec.toNat_ofNat, Nat.mod_eq_of_lt ht]

theorem Env.off_add_four (h : E.off a + 4 < 2 ^ 64) : E.off (a + 4) = E.off a + 4 := by
  apply Env.off_add h
  rw [show (4 : Word).toInt = 4 from by decide]
  push_cast
  rfl

end Offsets

section Run

variable {textOffset : BitVec 32} {E : Env} {cfg : VerifierCfg} {G : Cfg} {A : Analysis}
  {leader : LeaderMap} {raw : List Block} {bound : ℕ → ℕ}

variable (textOffset E cfg A raw bound) in
def CallOk (c : Call) : Prop :=
  ∃ k, c.ret = 4 * k ∧ (k < E.text.length / 4 → pcAt textOffset (4 * k) ≠ 0 →
    ∃ st, PointState E.text textOffset cfg A raw bound k st ∧ Cover E st c.x c.tags)

variable (textOffset E cfg A raw bound) in
/-- A state inside the text is at an instruction whose abstract state describes it. -/
def Here (s : MState) (tags : Reg → Tag) : Prop :=
  E.InText s.pc → ∃ k st, E.off s.pc = 4 * k ∧ PointState E.text textOffset cfg A raw bound k st ∧
    Cover E st s.x tags

variable (textOffset E cfg A raw bound) in
structure RunInv (s : MState) (g : Shadow) : Prop where
  zero : s.x 0 = 0
  calls : ∀ c ∈ g.calls, CallOk textOffset E cfg A raw bound c
  here : Here textOffset E cfg A raw bound s g.tags

variable {s s' : MState} {g : Shadow} {insn : Insn}

theorem Env.fetch_eq_some (h : E.fetch s.pc = some insn) :
    E.InText s.pc ∧ insn = insnAt E.text (E.off s.pc) := by
  unfold Env.fetch at h
  split at h
  · rename_i hin
    exact ⟨hin, (Option.some.inj h).symm⟩
  · cases h

theorem returnTags_cover {c : Call} {st : VState} {x : Reg → Word} {tags : Reg → Tag}
    (h : Cover E st c.x c.tags) : Cover E st x (returnTags c x tags) := by
  intro r
  unfold returnTags
  split
  · rename_i heq
    rw [heq.1, heq.2]
    exact h r
  · exact .inl rfl

theorem land_calls (tags : Reg → Tag) : (g.land E s' tags).calls = g.calls := by
  unfold Shadow.land
  split <;> rfl

/-- Behind a recorded call the analysis describes what the callee left alone. -/
theorem here_land (hsize : E.text.length % 4 = 0)
    (hcalls : ∀ c ∈ g.calls, CallOk textOffset E cfg A raw bound c)
    (hat : E.InText s'.pc → AtCall textOffset E g s') (tags : Reg → Tag) :
    Here textOffset E cfg A raw bound s' (g.land E s' tags).tags := by
  intro hin
  obtain ⟨⟨c, hc, hret⟩, hpc⟩ := hat hin
  unfold Shadow.land
  cases hf : g.calls.find? fun c => c.ret = E.off s'.pc with
  | none =>
    have := List.find?_eq_none.mp hf c hc
    simp [hret] at this
  | some d =>
    have hd : d.ret = E.off s'.pc := by simpa using List.find?_some hf
    obtain ⟨k, hk, hcov⟩ := hcalls d (List.mem_of_find?_eq_some hf)
    have hoff : E.off s'.pc = 4 * k := hd.symm.trans hk
    unfold Env.InText at hin
    obtain ⟨st, hst, hc⟩ := hcov (by omega) (hoff ▸ hpc)
    exact ⟨k, st, hoff, hst, returnTags_cover hc⟩

theorem nextOffsets_insnAt (off : ℕ) : nextOffsets merlinDecoder E.text off =
    match (insnAt E.text off).cls with
    | .branch => [(off : ℤ) + 4, jumpTarget off (insnAt E.text off)]
    | .jal => if (insnAt E.text off).rd ≠ 0 then [jumpTarget off (insnAt E.text off), (off : ℤ) + 4]
      else [jumpTarget off (insnAt E.text off)]
    | .jalr => []
    | _ => [(off : ℤ) + 4] := by
  simp only [nextOffsets, cfgInsn_insnAt]
  rfl

theorem isCtrlAt_iff (k : ℕ) : IsCtrlAt merlinDecoder E.text k ↔
    (insnAt E.text (4 * k)).cls = .branch ∨ (insnAt E.text (4 * k)).cls = .jal ∨
      (insnAt E.text (4 * k)).cls = .jalr := by
  rw [← Insn.isCtrl_iff]
  constructor
  · rintro ⟨insn, hinsn, hc⟩
    rw [cfgInsn_insnAt] at hinsn
    rw [← Option.some.inj hinsn] at hc
    exact hc
  · exact fun hc => ⟨_, cfgInsn_insnAt _, hc⟩

variable (hb : Built merlinDecoder E.text textOffset G leader raw bound)

include hb in
/-- The machine continues where the builder says. -/
theorem off_nextPc {k : ℕ} (hk : E.off s.pc = 4 * k) (hlt : k < E.text.length / 4)
    (hno : (insnAt E.text (4 * k)).cls ≠ .jalr) :
    ((E.off (nextPc (insnAt E.text (4 * k)) s) : ℕ) : ℤ) ∈ nextOffsets merlinDecoder E.text (4 * k) := by
  have h32 := hb.four_mul_lt hlt.le
  have hfour : E.off (s.pc + 4) = 4 * k + 4 := by
    rw [Env.off_add_four (by omega), hk]
  have htarget : (insnAt E.text (4 * k)).cls = .branch ∨ (insnAt E.text (4 * k)).cls = .jal →
      ((E.off (s.pc + (insnAt E.text (4 * k)).imm) : ℕ) : ℤ) =
        jumpTarget (4 * k) (insnAt E.text (4 * k)) := by
    intro hcls
    obtain ⟨t, ht, -, ht32, -⟩ := hb.target hlt (cfgInsn_insnAt _) hcls
    have ht : jumpTarget (4 * k) (insnAt E.text (4 * k)) = t := ht
    rw [ht, Env.off_add (t := t) (by omega)]
    rw [hk]
    exact ht
  rw [nextOffsets_insnAt]
  unfold nextPc
  cases hc : (insnAt E.text (4 * k)).cls <;> simp only [hc] at htarget hno ⊢
  case branch =>
    split
    · simp [htarget]
    · rw [hfour]
      simp
  case jal =>
    split <;> simp [htarget]
  case jalr => exact absurd rfl hno
  all_goals
    rw [hfour]
    simp

variable (hacc : AcceptedAs E.text textOffset cfg G A) (hfit : CounterFits E.text textOffset cfg)

include hb hacc in
/-- The state behind an instruction describes the machine at the next instruction of the graph. -/
theorem here_follow {k : ℕ} {st : VState} {tags : Reg → Tag}
    (hst : PointState E.text textOffset cfg A raw bound k st)
    (hcov : Cover E (stepInsn merlinDecoder cfg (insnAt E.text (4 * k)) st 0).st s'.x tags)
    (hmem : ((E.off s'.pc : ℕ) : ℤ) ∈ nextOffsets merlinDecoder E.text (4 * k))
    (hctrl : E.InText s'.pc → IsCtrlAt merlinDecoder E.text k →
      E.off s'.pc % 4 = 0 ∧ pcAt textOffset (E.off s'.pc) ≠ 0) :
    Here textOffset E cfg A raw bound s' tags := by
  intro hin
  have hctrl := hctrl hin
  have hsize := hb.size
  unfold Env.InText at hin
  have halign : E.off s'.pc % 4 = 0 := by
    by_cases hc : IsCtrlAt merlinDecoder E.text k
    · exact (hctrl hc).1
    · rw [nextOffsets_of_not_ctrl fun insn hinsn => by
        by_contra hc'
        exact hc ⟨insn, hinsn, by simpa using hc'⟩, List.mem_singleton] at hmem
      omega
  obtain ⟨k', hk'⟩ : ∃ k', E.off s'.pc = 4 * k' := ⟨E.off s'.pc / 4, by omega⟩
  rw [hk'] at hmem
  obtain ⟨st', hst', hj⟩ := hst.next hacc hb (by omega) hmem fun hc => hk' ▸ (hctrl hc).2
  refine ⟨k', st', hk', hst', hcov.absorb ?_ hst'.valid hj⟩
  rw [stepInsn_valid, hst.valid]

theorem MStep.zero (hs : MStep E s s') (h : s.x 0 = 0) : s'.x 0 = 0 := by
  cases hs with
  | plain insn _ he =>
    have hx := (exec_eq_some he).2.2.2 0
    rw [hx]
    split
    · rw [if_neg (fun h' => h'.2 h'.1.symm), h]
    · exact h
  | helper _ _ _ hret => rw [hret.saved 0 rfl, h]
  | kfunc _ _ _ hret => rw [hret.saved 0 rfl, h]

include hb hacc hfit in
theorem RunInv.plain (h : RunInv textOffset E cfg A raw bound s g) (hfetch : E.fetch s.pc = some insn)
    (he : exec insn s = some s') (hf : FlowOk textOffset E s g s') :
    (∀ c ∈ (g.next E s s').calls, CallOk textOffset E cfg A raw bound c) ∧
      Here textOffset E cfg A raw bound s' (g.next E s s').tags := by
  obtain ⟨hin, hinsn⟩ := Env.fetch_eq_some hfetch
  obtain ⟨k, st, hk, hst, hcov⟩ := h.here hin
  have hsize := hb.size
  have hlt : k < E.text.length / 4 := by
    unfold Env.InText at hin
    omega
  rw [hk] at hinsn
  obtain ⟨hp, hne, hpc, -⟩ := exec_eq_some he
  have hrej := hst.rejects hacc hfit hb
  have hcov' : Cover E (stepInsn merlinDecoder cfg (insnAt E.text (4 * k)) st 0).st s'.x
      (plainTags E insn s g.tags) := by
    rw [← hinsn, stepInsn_plain 0 hp hne] at hrej ⊢
    exact hcov.plain h.zero (by omega) (hst.offBound hacc hfit hb) (hinsn ▸ merlinDecode_imm_le _ _)
      hrej he
  -- every class but `jalr` follows an edge of the graph
  have hfollow : insn.cls ≠ .jalr →
      Here textOffset E cfg A raw bound s' (plainTags E insn s g.tags) := by
    intro hno
    refine here_follow hb hacc hst hcov' ?_ ?_
    · rw [hpc, hinsn]
      exact off_nextPc hb hk hlt (hinsn ▸ hno)
    · intro hin' hctrl
      have hf := hf hin'
      rw [isCtrlAt_iff, ← hinsn] at hctrl
      simp only [hfetch] at hf
      rcases hctrl with hc | hc | hc
      · simpa only [hc] using hf
      · simpa only [hc] using hf
      · exact absurd hc hno
  unfold Shadow.next
  simp only [hfetch]
  cases hc : insn.cls
  case ecall => exact absurd hc hne
  case jalr =>
    refine ⟨fun c hmem => h.calls c (by rwa [land_calls] at hmem), here_land hsize h.calls ?_ _⟩
    intro hin'
    have hf := hf hin'
    simpa only [hfetch, hc] using hf
  case jal =>
    dsimp only
    split
    · rename_i hrd
      refine ⟨fun c hmem => ?_, hfollow (by simp [hc])⟩
      rcases List.mem_cons.mp hmem with rfl | hmem
      · refine ⟨k + 1, by dsimp only; omega, fun hlt' hpc' => ?_⟩
        have hnext : ((4 * (k + 1) : ℕ) : ℤ) ∈ nextOffsets merlinDecoder E.text (4 * k) := by
          rw [nextOffsets_insnAt, ← hinsn, hc]
          simp only [if_pos hrd]
          simp
          omega
        obtain ⟨st', hst', hj⟩ := hst.next hacc hb hlt' hnext fun _ => hpc'
        refine ⟨st', hst', hcov'.absorb ?_ hst'.valid hj⟩
        rw [stepInsn_valid, hst.valid]
      · exact h.calls c hmem
    · exact ⟨h.calls, hfollow (by simp [hc])⟩
  all_goals exact ⟨h.calls, hfollow (by simp [hc])⟩

include hb hacc hfit in
theorem RunInv.helper (h : RunInv textOffset E cfg A raw bound s g) (hfetch : E.fetch s.pc = some insn)
    (hc : insn.cls = .ecall) (hret : HelperReturn E s s') :
    Here textOffset E cfg A raw bound s' (helperTags s g.tags) := by
  obtain ⟨hin, hinsn⟩ := Env.fetch_eq_some hfetch
  obtain ⟨k, st, hk, hst, hcov⟩ := h.here hin
  have hsize := hb.size
  unfold Env.InText at hin
  rw [hk] at hinsn
  have hrej := hst.rejects hacc hfit hb
  have h32 := hb.four_mul_lt (k := k) (by omega)
  refine here_follow hb hacc hst ?_ ?_ ?_
  · rw [← hinsn, stepInsn_ecall 0 hc] at hrej ⊢
    exact hcov.helper hrej hret
  · rw [hret.pc, Env.off_add_four (by omega), hk, nextOffsets_insnAt, ← hinsn, hc]
    simp
  · intro _ hctrl
    rw [isCtrlAt_iff, ← hinsn, hc] at hctrl
    simp at hctrl

include hb hacc hfit in
theorem RunInv.step (h : RunInv textOffset E cfg A raw bound s g) (hs : MStep E s s')
    (hf : FlowOk textOffset E s g s') : RunInv textOffset E cfg A raw bound s' (g.next E s s') := by
  have hzero := hs.zero h.zero
  cases hs with
  | plain insn hfetch he =>
    obtain ⟨hcalls, hhere⟩ := h.plain hb hacc hfit hfetch he hf
    exact ⟨hzero, hcalls, hhere⟩
  | helper insn hfetch hc hret =>
    have hnext : g.next E s s' = { g with tags := helperTags s g.tags } := by
      simp only [Shadow.next, hfetch, hc]
    rw [hnext]
    exact ⟨hzero, h.calls, h.helper hb hacc hfit hfetch hc hret⟩
  | kfunc id hout _ hret =>
    have hfetch : E.fetch s.pc = none := by simp [Env.fetch, hout]
    have hnext : g.next E s s' = g.land E s' (callTags g.tags) := by
      simp only [Shadow.next, hfetch]
    rw [hnext]
    refine ⟨hzero, fun c hmem => h.calls c (by rwa [land_calls] at hmem),
      here_land hb.size h.calls ?_ _⟩
    intro hin
    have hf := hf hin
    simpa only [hfetch] using hf

theorem entry_cover (he : Entry E cfg.isCallbackBody s) :
    Cover E (vstateInitEntry cfg) s.x (Shadow.entry cfg.isCallbackBody).tags := by
  intro r
  simp only [vstateInitEntry, Shadow.entry]
  by_cases h0 : r = 0
  · rw [if_pos h0, if_pos h0, h0, he.zero]
    exact .inr (covers_const 0)
  rw [if_neg h0, if_neg h0]
  by_cases h2 : r = 2
  · rw [if_pos h2, if_pos h2, h2, he.sp]
    exact .inr (.inr ⟨rfl, .inr (by simp)⟩)
  rw [if_neg h2, if_neg h2]
  cases cfg.isCallbackBody with
  | false =>
    simp only [Bool.false_eq_true, if_false]
    split
    · exact .inr (.inl rfl)
    · exact .inl rfl
  | true =>
    simp only [if_true]
    split
    · exact .inr (Tnum.mem_top _)
    · split
      · exact .inr (.inl rfl)
      · exact .inl rfl

include hb hacc in
theorem runInv_entry (he : Entry E cfg.isCallbackBody s) :
    RunInv textOffset E cfg A raw bound s (Shadow.entry cfg.isCallbackBody) where
  zero := he.zero
  calls c hc := by cases hc
  here _ := by
    obtain ⟨st, hst, hj⟩ := PointState.entry hacc hb
    exact ⟨0, st, by simp [he.pc, Env.off], hst, (entry_cover he).absorb rfl hst.valid hj⟩

include hb hacc hfit in
/-- The abstract states of an accepted text describe every run that follows the block graph. -/
theorem ShadowRun.runInv (h : ShadowRun textOffset E cfg.isCallbackBody s g) :
    RunInv textOffset E cfg A raw bound s g := by
  induction h with
  | entry start => exact runInv_entry hb hacc start
  | step _ hs hf ih => exact ih.step hb hacc hfit hs hf

end Run

end MerlinV
