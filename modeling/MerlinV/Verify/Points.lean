import MerlinV.Verify.Accept

/-! # The abstract state in front of each instruction

An accepted text gives every instruction of a processed block an abstract state.  No
instruction is rejected in its state, and the state behind it is absorbed by the state in
front of every instruction the block graph lets it continue at.  The offsets of
pointers stay far away from the limits of a signed 64-bit number.
-/
namespace MerlinV

section Bounds

variable {D : Decoder} {cfg : VerifierCfg} {text : Text} {textOffset : BitVec 32}
  {blocks : List Block}

def Rval.OffBound (n : ℕ) : Rval → Prop
  | .ptrCtx lo hi | .ptrStack lo hi => |lo.toInt| ≤ n ∧ |hi.toInt| ≤ n
  | _ => True

theorem Rval.OffBound.mono {m n : ℕ} (h : m ≤ n) {v : Rval} (hv : v.OffBound m) : v.OffBound n := by
  have hmn : (m : ℤ) ≤ n := by exact_mod_cast h
  cases v with
  | ptrCtx lo hi => exact ⟨hv.1.trans hmn, hv.2.trans hmn⟩
  | ptrStack lo hi => exact ⟨hv.1.trans hmn, hv.2.trans hmn⟩
  | _ => trivial

theorem abs_offJoin_le {n : ℕ} {lo hi lo' hi' : Word} (h : |lo.toInt| ≤ n ∧ |hi.toInt| ≤ n)
    (h' : |lo'.toInt| ≤ n ∧ |hi'.toInt| ≤ n) :
    |(Rval.offMinJoin lo lo').toInt| ≤ n ∧ |(Rval.offMaxJoin hi hi').toInt| ≤ n := by
  simp only [abs_le] at h h' ⊢
  rw [Rval.offMinJoin_toInt, Rval.offMaxJoin_toInt]
  omega

theorem Rval.OffBound.join {n : ℕ} {a b : Rval} (ha : a.OffBound n) (hb : b.OffBound n) :
    (a.join b).OffBound n := by
  cases a <;> cases b <;> simp only [Rval.join] <;> first
    | trivial
    | exact ha
    | exact hb
    | exact abs_offJoin_le ha hb
    | (split <;> trivial)

theorem abs_signExtend_le (v : BitVec 32) : |(v.signExtend 64).toInt| ≤ 2 ^ 31 := by
  rw [BitVec.toInt_signExtend_of_le (by omega), abs_le]
  have h₁ := BitVec.le_toInt (x := v)
  have h₂ := BitVec.toInt_lt (x := v)
  omega

theorem abs_setWidth_le (v : BitVec 32) (h : v.toNat < 2 ^ 31) : |(v.setWidth 64).toInt| ≤ 2 ^ 31 := by
  rw [BitVec.toInt_setWidth, abs_le]
  rw [Int.bmod_eq_of_le (by omega) (by omega)]
  omega

theorem bits_toNat_le (w : BitVec 32) (lo n : ℕ) (hn : n < 31) :
    (bits w (lo + n) lo).toNat < 2 ^ 31 := by
  have hsub : lo + n - lo + 1 = n + 1 := by omega
  have hmask : ((1#32 <<< (n + 1)) - 1#32).toNat ≤ 2 ^ 31 - 1 := by
    interval_cases n <;> decide
  simp only [bits, BitVec.toNat_and, hsub]
  exact lt_of_le_of_lt Nat.and_le_right (by omega)

theorem merlinDecode_imm_le (w pc : BitVec 32) : |(merlinDecode w pc).imm.toInt| ≤ 2 ^ 31 := by
  have hI : |(immI w).toInt| ≤ 2 ^ 31 := abs_signExtend_le _
  have hS : |(immS w).toInt| ≤ 2 ^ 31 := abs_signExtend_le _
  have hB : |(immB w).toInt| ≤ 2 ^ 31 := abs_signExtend_le _
  have hU : |(immU w).toInt| ≤ 2 ^ 31 := abs_signExtend_le _
  have hJ : |(immJ w).toInt| ≤ 2 ^ 31 := abs_signExtend_le _
  have h5 : |((bits w 25 20).setWidth 64).toInt| ≤ 2 ^ 31 :=
    abs_setWidth_le _ (bits_toNat_le w 20 5 (by omega))
  have h4 : |((bits w 24 20).setWidth 64).toInt| ≤ 2 ^ 31 :=
    abs_setWidth_le _ (bits_toNat_le w 20 4 (by omega))
  have h0 : |(blankInsn w pc).imm.toInt| ≤ 2 ^ 31 := by
    change |(0 : Word).toInt| ≤ 2 ^ 31
    decide
  simp only [merlinDecode, decodeMajor, decodeOpImm, decodeOp, decodeOpImmW, decodeOpW, decodeSystem]
  repeat' split
  all_goals with_reducible assumption

def offLimit (steps : ℕ) : ℕ := 2 ^ 30 + 2 ^ 31 * steps

/-- The step numbers below which offsets cannot overflow. -/
def stepLimit : ℕ := 2 ^ 31 + 2 ^ 30

theorem abs_add_le {a imm : Word} {n : ℕ} (hlt : n + 2 ^ 31 < 2 ^ 63) (himm : |imm.toInt| ≤ 2 ^ 31)
    (ha : |a.toInt| ≤ n) : |(a + imm).toInt| ≤ (n + 2 ^ 31 : ℕ) := by
  rw [abs_le] at ha himm ⊢
  rw [BitVec.toInt_add, Int.bmod_eq_of_le (by omega) (by omega)]
  omega

theorem stepClosed_offBound {imm : Word} {n : ℕ} (hn : n < stepLimit) (himm : |imm.toInt| ≤ 2 ^ 31) :
    StepClosed imm (Rval.OffBound (offLimit n)) (Rval.OffBound (offLimit (n + 1))) := by
  have hlim : offLimit n + 2 ^ 31 = offLimit (n + 1) := by
    unfold offLimit
    omega
  have hlt : offLimit n + 2 ^ 31 < 2 ^ 63 := by
    unfold offLimit
    unfold stepLimit at hn
    omega
  have hpow : (2 : ℤ) ^ 30 ≤ (offLimit (n + 1) : ℕ) := by
    unfold offLimit
    push_cast
    omega
  have hlo : |(-(1#64 <<< 30)).toInt| = 2 ^ 30 := by decide
  have hhi : |(1#64 <<< 30).toInt| = 2 ^ 30 := by decide
  rw [← hlim] at hpow ⊢
  exact {
    keep := fun _ h => h.mono (by omega)
    uninit := trivial
    top := trivial
    const := fun _ => trivial
    ret := fun _ => trivial
    slot := fun _ => trivial
    add := fun _ _ => trivial
    ctx := fun lo hi h => ⟨abs_add_le hlt himm h.1, abs_add_le hlt himm h.2⟩
    stack := fun lo hi h => ⟨abs_add_le hlt himm h.1, abs_add_le hlt himm h.2⟩
    widen := fun v h => by
      cases v with
      | ptrCtx lo hi => exact ⟨hlo.le.trans hpow, hhi.le.trans hpow⟩
      | ptrStack lo hi => exact ⟨hlo.le.trans hpow, hhi.le.trans hpow⟩
      | _ => trivial }

/-- A property of register values that may weaken with every abstract step. -/
structure RunClosed (cfg : VerifierCfg) (P : ℕ → Rval → Prop) : Prop where
  mono : ∀ {m n v}, m ≤ n → P m v → P n v
  join : ∀ {n v w}, P n v → P n w → P n (v.join w)
  init : ∀ r, P 0 ((vstateInitEntry cfg).x r)
  step : ∀ {n imm}, n < stepLimit → |imm.toInt| ≤ 2 ^ 31 → StepClosed imm (P n) (P (n + 1))
  uninit : P 0 .uninit

theorem runClosed_offBound (cfg : VerifierCfg) : RunClosed cfg fun n => Rval.OffBound (offLimit n) where
  mono h := Rval.OffBound.mono (by unfold offLimit; omega)
  join := Rval.OffBound.join
  init r := by
    simp only [vstateInitEntry]
    repeat' split
    all_goals simp [Rval.OffBound, Rval.const, offLimit]
  step := stepClosed_offBound
  uninit := trivial

variable {P : ℕ → Rval → Prop}

theorem RunClosed.values_block (hP : RunClosed cfg P) (offs : List ℕ) (st : VState) (p : BitVec 32) (n : ℕ)
    (h : ∀ r, P n (st.x r))
    (hlt : n + (blockOut merlinDecoder cfg text textOffset offs st p).steps < stepLimit) (r : Reg) :
    P (n + (blockOut merlinDecoder cfg text textOffset offs st p).steps)
      ((blockOut merlinDecoder cfg text textOffset offs st p).st.x r) := by
  induction offs generalizing st p n with
  | nil => exact h r
  | cons off offs ih =>
    have hi : verifyInsn merlinDecoder text textOffset off =
      some (merlinDecode (textWord text off) (pcAt textOffset off)) := rfl
    have himm := merlinDecode_imm_le (textWord text off) (pcAt textOffset off)
    simp only [blockOut, hi] at hlt ⊢
    generalize merlinDecode (textWord text off) (pcAt textOffset off) = insn at himm hlt ⊢
    have hstep : ∀ r, P (n + 1) ((stepInsn merlinDecoder cfg insn st p).st.x r) :=
      stepInsn_values (hP.step (by omega) himm) h p
    have := ih _ (stepInsn merlinDecoder cfg insn st p).pending (n + 1) hstep (by omega)
    rwa [Nat.add_assoc, Nat.add_comm 1] at this

/-- Such a property holds of every register of every entry state of every run. -/
theorem AnyRun.values (hP : RunClosed cfg P) {A : Analysis} (h : AnyRun merlinDecoder cfg text textOffset blocks A)
    (hlt : A.steps < 2 ^ 31) (i : ℕ) (r : Reg) :
    P A.steps ((A.entryState i).x r) := by
  induction h generalizing i r with
  | refl =>
    simp only [Analysis.init, Function.update_apply]
    split
    · exact hP.init r
    · exact hP.uninit
  | @tail A A' hrun hs ih =>
    have hle := hs.steps_le hrun
    have ih := ih (by omega)
    obtain ⟨j, succs, -, -, hv⟩ := hs
    rcases visitVia_cases (A := { A with queue := A.queue.erase j }) (AnyRun.workInv hrun).canonical hv
      with ⟨rfl, -⟩ | ⟨b, -, -, hv⟩
    · exact ih i r
    · have hst := hv.steps
      rw [hv.entry i]
      split
      · refine VState.join_values (fun _ _ => hP.join) (fun r => hP.mono hle (ih i r)) ?_ r
        intro r
        rw [hst] at hlt ⊢
        refine hP.values_block _ _ _ _ (ih j) ?_ r
        dsimp only [visitOut] at hlt
        unfold stepLimit
        omega
      · exact hP.mono hle (ih i r)

end Bounds

section Points

variable (text : Text) (textOffset : BitVec 32) (cfg : VerifierCfg) (A : Analysis) (raw : List Block)
  (bound : ℕ → ℕ)

def insnAt (off : ℕ) : Insn := merlinDecode (textWord text off) 0

/-- The abstract state `st` in front of instruction `k`, in a block the worklist processed. -/
def PointState (k : ℕ) (st : VState) : Prop :=
  ∃ i < raw.length, (A.entryState i).valid = true ∧ bound i ≤ k ∧ k < bound (i + 1) ∧
    st = stateBefore merlinDecoder cfg text textOffset A i (bound i) k

variable {text textOffset cfg A raw bound}
variable {G : Cfg} {leader : LeaderMap} {k : ℕ} {st : VState}

theorem stepInsn_insnAt (p : BitVec 32) :
    stepInsn merlinDecoder cfg (merlinDecode (textWord text (4 * k)) p) st 0 =
      stepInsn merlinDecoder cfg (insnAt text (4 * k)) st 0 := by
  rw [merlinDecode_pc _ p 0]
  rfl

theorem cfgInsn_insnAt (off : ℕ) : cfgInsn merlinDecoder text off =
    some { insnAt text off with pc := BitVec.ofNat 32 off } := by
  rw [insnAt, cfgInsn, ← merlinDecode_pc]
  rfl

theorem PointState.canonical (hacc : AcceptedAs text textOffset cfg G A)
    (h : PointState text textOffset cfg A raw bound k st) : st.Canonical := by
  obtain ⟨i, -, -, -, -, rfl⟩ := h
  exact blockOut_canonical (hacc.codedRun.1.anyRun.workInv.canonical i) 0

theorem PointState.valid (h : PointState text textOffset cfg A raw bound k st) : st.valid = true := by
  obtain ⟨i, -, hv, -, -, rfl⟩ := h
  rw [stateBefore, blockOut_valid, hv]

variable (hacc : AcceptedAs text textOffset cfg G A) (hfit : CounterFits text textOffset cfg)
  (hb : Built merlinDecoder text textOffset G leader raw bound)

include hacc hb in
theorem AcceptedAs.stable {i : ℕ} (hi : i < raw.length) (hv : (A.entryState i).valid = true) :
    ∃ b, G.blocks[i]? = some b ∧ Stable merlinDecoder cfg text textOffset G.blocks A b i ∧
      blockOffsets text textOffset b = (List.range' (bound i) (bound (i + 1) - bound i)).map (4 * ·) := by
  obtain ⟨b, hget⟩ : ∃ b, G.blocks[i]? = some b := ⟨_, hb.get hi⟩
  have hq := hacc.codedRun.2
  rcases hacc.codedRun.1.anyRun.workInv.stable i b hget hv with h | h
  · rw [hq] at h
    cases h
  · exact ⟨b, hget, h, hb.blockOffsets_eq hget⟩

include hacc hfit hb in
theorem PointState.rejects (h : PointState text textOffset cfg A raw bound k st) :
    (stepInsn merlinDecoder cfg (insnAt text (4 * k)) st 0).rejects = [] := by
  obtain ⟨i, hi, hv, hs, hk, rfl⟩ := h
  obtain ⟨b, -, hst, hoffs⟩ := hacc.stable hb hi hv
  have hz : (visitOut merlinDecoder cfg text textOffset A b i).rejects = 0 := by
    have := hst.counted
    rw [(hacc.no_rejects hfit).1] at this
    omega
  rw [visitOut, hoffs] at hz
  rw [← stepInsn_insnAt (pcAt textOffset (4 * k))]
  exact stepInsn_rejects_eq_nil hs hk rfl hz

theorem VState.join_self {a : VState} (h : a.Canonical) (hv : a.valid = true) : a.join a = a := by
  rw [join_of_valid hv hv, ext_iff']
  exact ⟨hv.symm, fun r => Rval.join_self (h r)⟩

include hacc hb in
/-- The state behind an instruction is absorbed in front of each instruction it continues at. -/
theorem PointState.next {k' : ℕ} (h : PointState text textOffset cfg A raw bound k st)
    (hk' : k' < text.length / 4)
    (hmem : ((4 * k' : ℕ) : ℤ) ∈ nextOffsets merlinDecoder text (4 * k))
    (hpc : IsCtrlAt merlinDecoder text k → pcAt textOffset (4 * k') ≠ 0) :
    ∃ st', PointState text textOffset cfg A raw bound k' st' ∧
      st'.join (stepInsn merlinDecoder cfg (insnAt text (4 * k)) st 0).st = st' := by
  have hcan := h.canonical hacc
  have hval := h.valid
  obtain ⟨i, hi, hv, hs, hk, hst⟩ := h
  have hsucc : stateBefore merlinDecoder cfg text textOffset A i (bound i) (k + 1) =
      (stepInsn merlinDecoder cfg (insnAt text (4 * k)) st 0).st := by
    rw [stateBefore_succ hs rfl, stepInsn_insnAt, ← hst]
  have hlast := hb.last_lt hi
  rw [← hsucc]
  by_cases hend : k + 1 < bound (i + 1)
  · -- inside the block the next state is the state behind the instruction
    have hctrl : ¬ IsCtrlAt merlinDecoder text k := fun hc => by
      have := hb.ctrl_last hi hs hk hc
      omega
    rw [nextOffsets_of_not_ctrl fun insn hinsn => by
      by_contra hc
      exact hctrl ⟨insn, hinsn, by simpa using hc⟩] at hmem
    obtain rfl : k' = k + 1 := by
      have := List.mem_singleton.mp hmem
      omega
    refine ⟨_, ⟨i, hi, hv, by omega, hend, rfl⟩, VState.join_self ?_ ?_⟩
    · rw [hsucc]
      exact stepInsn_canonical hcan 0
    · rw [hsucc, stepInsn_valid, hval]
  · have hke : bound (i + 1) = k + 1 := by omega
    obtain ⟨n, hn, rfl⟩ : ∃ n < raw.length, bound n = k' := by
      by_cases hctrl : IsCtrlAt merlinDecoder text k
      · exact hb.exists_start (by omega) hctrl hk' hmem
      · rw [nextOffsets_of_not_ctrl fun insn hinsn => by
          by_contra hc
          exact hctrl ⟨insn, hinsn, by simpa using hc⟩] at hmem
        have hk1 : k' = k + 1 := by
          have := List.mem_singleton.mp hmem
          omega
        refine ⟨i + 1, ?_, by omega⟩
        by_contra hge
        have hlen : i + 1 = raw.length := by omega
        have := hb.layout.last
        rw [← hlen] at this
        omega
    have hmem' : n ∈ succsOf G.blocks i := by
      rw [hb.mem_succs hi, hke]
      exact ⟨hn, by simpa using hmem, by simpa using hpc⟩
    obtain ⟨b, -, hstable, hoffs⟩ := hacc.stable hb hi hv
    have habs := hstable.absorbed n hmem'
    rw [visitOut, hoffs, hke] at habs
    have hvn : (A.entryState n).valid = true := by
      rw [← habs, VState.join_valid, blockOut_valid, hv, Bool.or_true]
    refine ⟨_, ⟨n, hn, hvn, le_rfl, hb.layout.lt n hn, rfl⟩, ?_⟩
    rw [stateBefore_start]
    exact habs

include hacc hb in
theorem PointState.entry : ∃ st, PointState text textOffset cfg A raw bound 0 st ∧
    st.join (vstateInitEntry cfg) = st := by
  have h0 : 0 < raw.length := by
    rw [← hb.length_eq]
    exact Nat.pos_of_ne_zero hacc.nonempty
  have hentry := hacc.codedRun.1.anyRun.workInv.entry
  have hv : (A.entryState 0).valid = true := by
    rw [← hentry, VState.join_valid]
    exact Bool.or_true _
  have hlt := hb.layout.lt 0 h0
  have hz := hb.layout.zero
  refine ⟨A.entryState 0, ⟨0, h0, hv, by omega, by omega, ?_⟩, hentry⟩
  rw [hz, stateBefore_start]

theorem blockOut_steps_le (D : Decoder) (offs : List ℕ) (st : VState) (p : BitVec 32) :
    (blockOut D cfg text textOffset offs st p).steps ≤ offs.length := by
  induction offs generalizing st p with
  | nil => exact le_rfl
  | cons off offs ih =>
    rw [blockOut]
    cases verifyInsn D text textOffset off with
    | none => exact (ih st p).trans (Nat.le_succ _)
    | some insn => exact Nat.succ_le_succ (ih _ _)

include hacc hfit hb in
/-- Offsets in front of an instruction leave room for another immediate. -/
theorem PointState.offBound (h : PointState text textOffset cfg A raw bound k st) (r : Reg) :
    (st.x r).OffBound (2 ^ 63 - 2 ^ 32) := by
  obtain ⟨i, hi, -, hs, hk, rfl⟩ := h
  have hrun := hacc.codedRun.1.anyRun
  have hsteps := (hacc.countFits hfit).steps_lt
  have hlen : (blockOut merlinDecoder cfg text textOffset
      ((List.range' (bound i) (k - bound i)).map (4 * ·)) (A.entryState i) 0).steps ≤ _ :=
    blockOut_steps_le _ _ _ _
  have hcap := hb.cap
  have hlast := hb.last_lt hi
  simp only [cfgMaxInsns, cfgMaxBlocks] at hcap
  rw [List.length_map, List.length_range'] at hlen
  have hclosed := runClosed_offBound cfg
  have hentry := fun r => hrun.values hclosed (by omega) i r
  refine (hclosed.values_block _ _ _ _ hentry (by unfold stepLimit; omega) r).mono ?_
  unfold offLimit
  omega

end Points

end MerlinV
