import MerlinV.Soundness.Transfer
import MerlinV.Verify.Accept

/-! # The index of a callback body

A callback finds its iteration index in `a0`.  The entry state bounds it by
`0 ≤ index ≤ INT64_MAX` in the signed range and leaves the tristate number open, but the
designated initialiser of the source leaves `umin = umax = 0`.  Additions of constants,
copies and joins keep each of the three components separately, so the signed range and
the tristate number follow every index and the unsigned range follows index 0 only.
-/
namespace MerlinV

/-- The constant by which a register exceeds the index, for the registers that hold the index
plus a constant. -/
abbrev Offsets := Reg → Option Word

def entryOffsets : Offsets := Function.update (fun _ => none) 10 (some 0)

/-- What `insn` leaves in `rd`, followed through `addi` and the copies `add rd, rs, x0` and
`add rd, x0, rs`. -/
def offsetResult (insn : Insn) (k : Offsets) : Option Word :=
  match insn.cls with
  | .aluImm => if insn.aluOp = .add then (k insn.rs1).map (· + insn.imm) else none
  | .aluReg =>
    if insn.aluOp = .add ∧ insn.wordOp = false then
      if insn.rs2 = 0 then k insn.rs1 else if insn.rs1 = 0 then k insn.rs2 else none
    else none
  | _ => none

/-- The registers behind `insn`; a helper call may change every caller-saved register. -/
def trackInsn (insn : Insn) (k : Offsets) : Offsets := fun r =>
  if insn.cls = .ecall then if callerSaved r then none else k r
  else if (r = insn.rd ∧ insn.rd ≠ 0) ∧ insn.cls ≠ .store ∧ insn.cls ≠ .branch then
    offsetResult insn k
  else k r

section Machine

variable {k : Offsets} {i : Word} {insn : Insn} {s s' : MState}

def Offsets.Describes (k : Offsets) (i : Word) (x : Reg → Word) : Prop :=
  ∀ r c, k r = some c → x r = i + c

theorem offsetResult_result {c : Word} (h0 : s.x 0 = 0) (h : k.Describes i s.x)
    (hc : offsetResult insn k = some c) : result? insn s = some (i + c) := by
  unfold offsetResult at hc
  split at hc
  · rename_i hcls
    split at hc
    · rename_i hop
      obtain ⟨d, hd, rfl⟩ := Option.map_eq_some_iff.mp hc
      simp only [result?, hcls, hop, aluExec, h _ d hd, BitVec.add_assoc]
    · cases hc
  · rename_i hcls
    split at hc
    · rename_i hop
      have hres : result? insn s = some (s.x insn.rs1 + s.x insn.rs2) := by
        simp only [result?, hcls, aluOf, hop.1, hop.2, Bool.false_eq_true, if_false, aluExec]
      rw [hres]
      split at hc
      · rename_i hz
        rw [hz, h0, h _ c hc]
        exact congrArg some (BitVec.add_zero _)
      · split at hc
        · rename_i hz
          rw [hz, h0, h _ c hc]
          exact congrArg some (BitVec.zero_add _)
        · cases hc
    · cases hc
  · cases hc

/-- The machine follows `trackInsn`. -/
theorem Offsets.Describes.executes (h0 : s.x 0 = 0) (h : k.Describes i s.x) (he : Executes insn s s') :
    (trackInsn insn k).Describes i s'.x := by
  intro r c hc
  unfold trackInsn at hc
  rcases he with he | ⟨hcls, hkeep⟩
  · obtain ⟨-, hne, -, hx⟩ := exec_eq_some he
    rw [if_neg hne] at hc
    rw [hx r]
    split at hc
    · rename_i hw
      rw [offsetResult_result h0 h hc]
      exact if_pos hw.1
    · rename_i hw
      cases hres : result? insn s with
      | none => exact h r c hc
      | some v =>
        have hcls : insn.cls ≠ .store ∧ insn.cls ≠ .branch := by
          constructor <;> intro hcls <;> simp [result?, hcls] at hres
        dsimp only
        rw [if_neg fun hrd => hw ⟨hrd, hcls⟩]
        exact h r c hc
  · rw [if_pos hcls] at hc
    split at hc
    · cases hc
    · rename_i hcs
      rw [hkeep r (by simpa using hcs)]
      exact h r c hc

end Machine

section Values

/-- A component of a scalar that additions of constants and joins keep. -/
structure IndexClosed (M : Word → Scalar → Prop) : Prop where
  top : ∀ v, M v Scalar.top
  join : ∀ {v a} b, M v a → M v (a.join b)
  add : ∀ {v a} w, M v a → M (v + w) (a.add (Scalar.const w))

def MemSignedTn (v : Word) (s : Scalar) : Prop := s.MemSigned v ∧ s.tn.Mem v

theorem indexClosed_mem : IndexClosed Scalar.Mem where
  top := Scalar.mem_top
  join := Scalar.mem_join_left
  add w h := Scalar.mem_add h (Scalar.mem_const w)

theorem indexClosed_memSignedTn : IndexClosed MemSignedTn where
  top v := ⟨Scalar.memSigned_top v, Tnum.mem_top v⟩
  join b h := ⟨Scalar.memSigned_join_left b h.1, Tnum.mem_join_left _ h.2⟩
  add w h := ⟨Scalar.memSigned_add h.1 (Scalar.mem_const w).signed,
    Tnum.mem_add h.2 (Tnum.mem_const w)⟩

def HoldsScalar (M : Word → Scalar → Prop) (v : Word) (a : Rval) : Prop := ∃ s, a = .scalar s ∧ M v s

variable {M : Word → Scalar → Prop} {v : Word} {a b : Rval}

theorem IndexClosed.holds_top (hM : IndexClosed M) : HoldsScalar M v .scalarTop := ⟨_, rfl, hM.top v⟩

theorem HoldsScalar.join (hM : IndexClosed M) (h : HoldsScalar M v a) : HoldsScalar M v (a.join b) := by
  obtain ⟨s, rfl, hs⟩ := h
  cases b with
  | uninit => exact ⟨s, rfl, hs⟩
  | scalar t => exact ⟨_, rfl, hM.join t hs⟩
  | ptrCtx lo hi => exact hM.holds_top
  | ptrStack lo hi => exact hM.holds_top
  | ptrHelperRet id => exact hM.holds_top
  | ptrKfuncSlot id => exact hM.holds_top

end Values

section Step

variable {M : Word → Scalar → Prop} {i : Word} {k : Offsets} {cfg : VerifierCfg} {insn : Insn}
  {st : VState}

/-- The tracked registers hold scalars that contain their values; `x0` is never tracked. -/
structure Holds (M : Word → Scalar → Prop) (i : Word) (k : Offsets) (st : VState) : Prop where
  x0 : st.x 0 = .const 0
  untracked : k 0 = none
  mem : ∀ r c, k r = some c → HoldsScalar M (i + c) (st.x r)

theorem trackInsn_zero (h : k 0 = none) : trackInsn insn k 0 = none := by
  unfold trackInsn
  split
  · rw [h]
    split <;> rfl
  · rw [if_neg fun hw => hw.1.2 hw.1.1.symm, h]

theorem assign_x (st : VState) (rd : Reg) (v : Rval) (why : Reject) (r : Reg) :
    (assign st rd v why).1.x r =
      if r = rd ∧ rd ≠ 0 then (if rd = 2 then .scalarTop else v) else st.x r := by
  unfold assign
  split
  · rename_i h2
    subst h2
    simp [VState.set_x]
  · split
    · rename_i h0
      simp [VState.set_x, h0]
    · rename_i h0
      rw [if_neg fun h => h0 h.2]

/-- A register an instruction does not write keeps its abstract value. -/
theorem stepPlain_x_of_ne {r : Reg} (h : ¬(r = insn.rd ∧ insn.rd ≠ 0)) :
    (stepPlain cfg insn st).1.x r = st.x r := by
  have hassign : ∀ v why, (assign st insn.rd v why).1.x r = st.x r := by
    intro v why
    rw [assign_x, if_neg h]
  have hset : ∀ v, insn.rd ≠ 0 → (st.set insn.rd v).x r = st.x r := by
    intro v hrd
    rw [VState.set_x, if_neg fun hr => h ⟨hr, hrd⟩]
  unfold stepPlain
  split
  · exact hassign _ _
  · rfl
  · unfold stepAluImm stepAddi
    split
    · split
      · exact hassign _ _
      · split
        · rename_i hsp
          have hrd : insn.rd ≠ 0 := by
            rw [hsp.1]
            decide
          have hframe := hset .scalarTop hrd
          rwa [hsp.1] at hframe
        · split
          · exact hassign _ _
          · split
            · exact hset _ ‹_›
            · rfl
          · split
            · exact hset _ ‹_›
            · rfl
          · exact hassign _ _
    · exact hassign _ _
  · exact hassign _ _
  · exact hassign _ _
  · exact hassign _ _
  · rfl
  · exact hassign _ _
  · rfl
  · dsimp only
    split
    · exact hset _ ‹_›
    · rfl

/-- A helper call keeps the registers that are not caller-saved. -/
theorem stepEcall_x_of_saved {r : Reg} (p : BitVec 32) (h : callerSaved r = false) :
    (stepEcall cfg st p).st.x r = st.x r := by
  have h10 : r ≠ 10 := by
    rintro rfl
    cases h
  have hcl : clobbered r = false := by
    revert r
    decide
  have hset : ∀ v, (st.set 10 v).x r = st.x r := by
    intro v
    rw [VState.set_x, if_neg h10]
  have hclob : ∀ v, (st.clobber.set 10 v).x r = st.x r := by
    intro v
    simp only [VState.set_x, if_neg h10, VState.clobber, hcl, Bool.false_eq_true, if_false]
  unfold stepEcall
  split
  · exact hset _
  · simp only [stepKfuncResolve, stepLoopCb]
    repeat' split
    all_goals first
      | exact hset _
      | exact hclob _

/-- `addi` and the copies leave a scalar that contains what they leave on the machine. -/
theorem Holds.result (hM : IndexClosed M) (h : Holds M i k st) {c : Word} (hrd : insn.rd ≠ 0)
    (hc : offsetResult insn k = some c) :
    merlinInsnPermittedDefault insn = true ∧ HoldsScalar M (i + c) ((stepPlain cfg insn st).1.x insn.rd) := by
  have hassign : ∀ {v why}, HoldsScalar M (i + c) v →
      HoldsScalar M (i + c) ((assign st insn.rd v why).1.x insn.rd) := by
    intro v why hv
    rw [assign_x, if_pos ⟨rfl, hrd⟩]
    split
    · exact hM.holds_top
    · exact hv
  unfold offsetResult at hc
  split at hc
  · rename_i hcls
    refine ⟨by rw [merlinInsnPermittedDefault, hcls]; rfl, ?_⟩
    split at hc
    · rename_i hop
      obtain ⟨d, hd, rfl⟩ := Option.map_eq_some_iff.mp hc
      have hrs : insn.rs1 ≠ 0 := by
        intro hz
        rw [hz, h.untracked] at hd
        cases hd
      obtain ⟨s, hs, hmem⟩ := h.mem _ d hd
      simp only [stepPlain, hcls, stepAluImm, hop, if_true, stepAddi, if_neg hrs, hs]
      split
      · rename_i hsp
        rw [hsp.1, VState.set_x_same]
        exact hM.holds_top
      · exact hassign ⟨_, rfl, by rw [← BitVec.add_assoc]; exact hM.add _ hmem⟩
    · cases hc
  · rename_i hcls
    refine ⟨by rw [merlinInsnPermittedDefault, hcls]; rfl, ?_⟩
    have htop : ∀ {a b : Rval}, a.isPtr = false → b.isPtr = false → aluRegResult a b = .scalarTop := by
      intro a b ha hb
      simp [aluRegResult, ha, hb]
    have hscalar : ∀ {r : Reg} {d : Word}, k r = some d → (st.x r).isPtr = false := by
      intro r d hd
      obtain ⟨s, hs, -⟩ := h.mem r d hd
      rw [hs]
      rfl
    have hzero : (st.x 0).isPtr = false := by
      rw [h.x0]
      rfl
    have hres : aluRegResult (st.x insn.rs1) (st.x insn.rs2) = .scalarTop := by
      split at hc
      · split at hc
        · rename_i hz
          exact htop (hscalar hc) (hz ▸ hzero)
        · split at hc
          · rename_i hz
            exact htop (hz ▸ hzero) (hscalar hc)
          · cases hc
      · cases hc
    simp only [stepPlain, hcls, stepAluReg, hres]
    exact hassign hM.holds_top
  · cases hc

/-- A register an instruction neither writes nor hands to a helper keeps its abstract value. -/
theorem stepInsn_x_of_ne {r : Reg} (p : BitVec 32) (he : insn.cls = .ecall → callerSaved r = false)
    (hw : insn.cls ≠ .ecall → ¬(r = insn.rd ∧ insn.rd ≠ 0)) :
    (stepInsn merlinDecoder cfg insn st p).st.x r = st.x r := by
  unfold stepInsn
  split
  · rfl
  · split
    · exact stepEcall_x_of_saved p (he ‹_›)
    · exact stepPlain_x_of_ne (hw ‹_›)

theorem stepInsn_x_zero (p : BitVec 32) : (stepInsn merlinDecoder cfg insn st p).st.x 0 = st.x 0 :=
  stepInsn_x_of_ne p (fun _ => rfl) fun _ hw => hw.2 hw.1.symm

theorem Holds.step (hM : IndexClosed M) (h : Holds M i k st) (p : BitVec 32) :
    Holds M i (trackInsn insn k) (stepInsn merlinDecoder cfg insn st p).st := by
  have hperm : merlinDecoder.permitted insn = merlinInsnPermittedDefault insn := rfl
  refine ⟨(stepInsn_x_zero p).trans h.x0, trackInsn_zero h.untracked,
    fun r c hc => ?_⟩
  unfold trackInsn at hc
  split at hc
  · rename_i hcls
    split at hc
    · cases hc
    · rename_i hcs
      rw [stepInsn_x_of_ne p (fun _ => by simpa using hcs) fun hne => absurd hcls hne]
      exact h.mem r c hc
  · rename_i hcls
    split at hc
    · rename_i hw
      obtain ⟨⟨rfl, hrd⟩, -⟩ := hw
      obtain ⟨hp, hres⟩ := @Holds.result M i k cfg insn st hM h c hrd hc
      simp only [stepInsn, hperm, hp, Bool.not_true, Bool.false_eq_true, if_false, if_neg hcls]
      exact hres
    · rename_i hw
      have hsame : (stepInsn merlinDecoder cfg insn st p).st.x r = st.x r := by
        by_cases hrd : r = insn.rd ∧ insn.rd ≠ 0
        · have hcls' : insn.cls = .store ∨ insn.cls = .branch := by
            by_contra hno
            rw [not_or] at hno
            exact hw ⟨hrd, hno⟩
          unfold stepInsn
          split
          · rfl
          · rcases hcls' with hc' | hc' <;> simp only [hc', stepPlain, stepStore]
        · exact stepInsn_x_of_ne p (fun he => absurd he hcls) fun _ => hrd
      rw [hsame]
      exact h.mem r c hc

end Step

section Run

variable (cfg : VerifierCfg) (text : Text) (textOffset : BitVec 32) (blocks : List Block)

def trackOffs (offs : List ℕ) (k : Offsets) : Offsets :=
  offs.foldl (fun k off => trackInsn (merlinDecode (textWord text off) (pcAt textOffset off)) k) k

/-- Along the loop as coded, the entry state of a block has taken in a path from the entry on
which the registers hold the index plus constants. -/
inductive Tracked : Analysis → ℕ → Offsets → Prop
  | entry : Tracked (Analysis.init cfg) 0 entryOffsets
  | keep {A A' : Analysis} {n : ℕ} {k : Offsets} (h : Tracked A n k)
      (hs : CodedStep merlinDecoder cfg text textOffset blocks A A') : Tracked A' n k
  | edge {A A' : Analysis} {n m : ℕ} {q : List ℕ} {b : Block} {k : Offsets} (h : Tracked A n k)
      (hp : wsPop A.queue = some (n, q)) (hb : blocks[n]? = some b)
      (hv : visit merlinDecoder cfg text textOffset blocks { A with queue := q } n = some A')
      (hm : m ∈ succsOf blocks n) :
      Tracked A' m (trackOffs text textOffset (blockOffsets text textOffset b) k)

/-- At every point of a block, reached along a path on which a register holds the index plus a
constant, the abstract value of that register is a scalar whose component `M` contains it. -/
def IndexTracked (M : Word → Scalar → Prop) (i : Word) : Prop :=
  ∀ A n k, Tracked cfg text textOffset blocks A n k → ∀ b, blocks[n]? = some b →
    ∀ offs, offs <+: blockOffsets text textOffset b → ∀ r c, trackOffs text textOffset offs k r = some c →
      HoldsScalar M (i + c) ((blockOut merlinDecoder cfg text textOffset offs (A.entryState n) 0).st.x r)

variable {cfg text textOffset blocks}
variable {M : Word → Scalar → Prop} {i : Word} {k : Offsets} {st d : VState} {A A' : Analysis} {n : ℕ}

theorem Holds.block (hM : IndexClosed M) (offs : List ℕ) (h : Holds M i k st) (p : BitVec 32) :
    Holds M i (trackOffs text textOffset offs k)
      (blockOut merlinDecoder cfg text textOffset offs st p).st := by
  induction offs generalizing k st p with
  | nil => exact h
  | cons off offs ih =>
    have hi : verifyInsn merlinDecoder text textOffset off =
      some (merlinDecode (textWord text off) (pcAt textOffset off)) := rfl
    simp only [blockOut, hi]
    exact ih (h.step hM p) _

def ZeroReg (st : VState) : Prop := st.valid = true → st.x 0 = .const 0

theorem ZeroReg.join {a b : VState} (ha : ZeroReg a) (hb : ZeroReg b) : ZeroReg (a.join b) := by
  intro hv
  unfold VState.join at hv ⊢
  split
  · rename_i hbv
    rw [if_pos hbv] at hv
    exact ha hv
  · rename_i hbv
    split
    · exact hb (by simpa using hbv)
    · rename_i hav
      change (a.x 0).join (b.x 0) = _
      rw [ha (by simpa using hav), hb (by simpa using hbv)]
      exact Rval.join_self (Rval.canonical_const 0)

theorem Holds.join (hM : IndexClosed M) (h : Holds M i k st) (hv : st.valid = true) (hd : ZeroReg d) :
    Holds M i k (st.join d) := by
  have hz : ZeroReg (st.join d) := ZeroReg.join (fun _ => h.x0) hd
  refine ⟨hz (by rw [VState.join_valid, hv, Bool.true_or]), h.untracked, fun r c hc => ?_⟩
  cases hdv : d.valid with
  | false =>
    have hj : st.join d = st := by simp [VState.join, hdv]
    rw [hj]
    exact h.mem r c hc
  | true =>
    rw [VState.join_x hv hdv]
    exact (h.mem r c hc).join hM

/-- Where the destination was never reached, the source is copied. -/
theorem Holds.join_into (hM : IndexClosed M) (h : Holds M i k st) (hv : st.valid = true) (hd : ZeroReg d) :
    Holds M i k (d.join st) := by
  cases hdv : d.valid with
  | false =>
    have hj : d.join st = st := by simp [VState.join, hdv, hv]
    rw [hj]
    exact h
  | true =>
    have hj : d.join st = st.join d := by
      rw [VState.join_of_valid hdv hv, VState.join_of_valid hv hdv]
      simp only [Rval.join_comm]
    rw [hj]
    exact h.join hM hv hd

theorem blockOut_x_zero (offs : List ℕ) (st : VState) (p : BitVec 32) :
    (blockOut merlinDecoder cfg text textOffset offs st p).st.x 0 = st.x 0 := by
  induction offs generalizing st p with
  | nil => rfl
  | cons off offs ih =>
    have hi : verifyInsn merlinDecoder text textOffset off =
      some (merlinDecode (textWord text off) (pcAt textOffset off)) := rfl
    simp only [blockOut, hi]
    rw [ih, stepInsn_x_zero]

theorem CodedRun.visit_entry {q : List ℕ} (h : CodedRun merlinDecoder cfg text textOffset blocks A)
    (hv : visit merlinDecoder cfg text textOffset blocks { A with queue := q } n = some A') :
    A'.entryState = A.entryState ∨ ∃ b, blocks[n]? = some b ∧ (A.entryState n).valid = true ∧
      ∀ m, A'.entryState m = if m ∈ succsOf blocks n then
        (A.entryState m).join (visitOut merlinDecoder cfg text textOffset A b n).st
      else A.entryState m := by
  rcases visitVia_cases (A := { A with queue := q }) h.anyRun.workInv.canonical hv with
    ⟨rfl, -⟩ | ⟨b, hb, hvalid, hvis⟩
  · exact .inl rfl
  · exact .inr ⟨b, hb, hvalid, hvis.entry⟩

theorem CodedRun.zeroReg (h : CodedRun merlinDecoder cfg text textOffset blocks A) (n : ℕ) :
    ZeroReg (A.entryState n) := by
  induction h generalizing n with
  | refl =>
    intro hv
    by_cases hn : n = 0
    · subst hn
      rfl
    · simp [Analysis.init, hn, VState.bottom] at hv
  | tail hrun hs ih =>
    obtain ⟨i, q, -, hv⟩ := hs
    rcases CodedRun.visit_entry hrun hv with he | ⟨b, -, hvalid, he⟩
    · rw [he]
      exact ih n
    · rw [he n]
      split
      · exact (ih n).join fun _ => (blockOut_x_zero _ _ _).trans (ih i hvalid)
      · exact ih n

theorem Tracked.codedRun {k : Offsets} (h : Tracked cfg text textOffset blocks A n k) :
    CodedRun merlinDecoder cfg text textOffset blocks A := by
  induction h with
  | entry => exact .refl
  | keep _ hs ih => exact ih.tail hs
  | edge _ hp _ hv _ ih => exact ih.tail ⟨_, _, hp, hv⟩

/-- What holds at entry holds of every entry state along the path. -/
theorem Tracked.holds (hM : IndexClosed M) (h0 : Holds M i entryOffsets (vstateInitEntry cfg))
    (h : Tracked cfg text textOffset blocks A n k) :
    (A.entryState n).valid = true ∧ Holds M i k (A.entryState n) := by
  induction h with
  | entry =>
    simp only [Analysis.init, Function.update_self]
    exact ⟨rfl, h0⟩
  | @keep A A' n k h hs ih =>
    have hrun := h.codedRun
    obtain ⟨hvn, hn⟩ := ih
    obtain ⟨j, q, -, hv⟩ := hs
    rcases hrun.visit_entry hv with he | ⟨b, -, hvj, he⟩
    · rw [he]
      exact ⟨hvn, hn⟩
    · rw [he n]
      split
      · rw [VState.join_valid, hvn, Bool.true_or]
        exact ⟨rfl, hn.join hM hvn fun _ => (blockOut_x_zero _ _ _).trans (hrun.zeroReg j hvj)⟩
      · exact ⟨hvn, hn⟩
  | @edge A A' n m q b k h hp hb hv hm ih =>
    have hrun := h.codedRun
    obtain ⟨hvn, hn⟩ := ih
    rcases visitVia_cases (A := { A with queue := q }) hrun.anyRun.workInv.canonical hv with
      ⟨-, hno⟩ | ⟨b', hb', -, hvis⟩
    · have := hno b hb
      rw [hvn] at this
      cases this
    · obtain rfl : b = b' := Option.some.inj (hb.symm.trans hb')
      have hout : Holds M i (trackOffs text textOffset (blockOffsets text textOffset b) k)
          (visitOut merlinDecoder cfg text textOffset A b n).st := hn.block hM _ 0
      have hov : (visitOut merlinDecoder cfg text textOffset A b n).st.valid = true := by
        rw [visitOut, blockOut_valid]
        exact hvn
      rw [hvis.entry m, if_pos hm, VState.join_valid]
      exact ⟨by rw [show (visitOut _ _ _ _ { A with queue := q } b n).st.valid = true from hov, Bool.or_true],
        hout.join_into hM hov (hrun.zeroReg m)⟩

theorem indexTracked_of_entry (hM : IndexClosed M) (h0 : Holds M i entryOffsets (vstateInitEntry cfg)) :
    IndexTracked cfg text textOffset blocks M i := by
  intro A n k h b _ offs _ r c hc
  exact ((h.holds hM h0).2.block hM offs 0).mem r c hc

/-- The abstract index at entry, without the fields the initialiser leaves out. -/
def indexAtEntry : Scalar := ⟨0, int64Max, 0, 0, Tnum.top⟩

theorem vstateInitEntry_index (hcb : cfg.isCallbackBody = true) :
    (vstateInitEntry cfg).x 10 = .scalar indexAtEntry := by
  simp [vstateInitEntry, hcb, indexAtEntry]

theorem holds_entry (hcb : cfg.isCallbackBody = true) (h : M i indexAtEntry) :
    Holds M i entryOffsets (vstateInitEntry cfg) := by
  refine ⟨rfl, rfl, fun r c hc => ?_⟩
  by_cases hr : r = 10
  · subst hr
    obtain rfl : 0 = c := by simpa [entryOffsets] using hc
    exact ⟨_, vstateInitEntry_index hcb, by rwa [show i + 0 = i from BitVec.add_zero i]⟩
  · simp [entryOffsets, hr] at hc

/-- The signed range and the tristate number follow every index the runtime can pass. -/
theorem indexTracked_signed_tn (hcb : cfg.isCallbackBody = true) (hi : 0 ≤ i.toInt) :
    IndexTracked cfg text textOffset blocks MemSignedTn i := by
  refine indexTracked_of_entry indexClosed_memSignedTn (holds_entry hcb ⟨⟨hi, ?_⟩, Tnum.mem_top i⟩)
  have hmax : int64Max.toInt = 2 ^ 63 - 1 := by decide
  have hlt := BitVec.toInt_lt (x := i)
  simp only [indexAtEntry, hmax]
  omega

/-- All three components follow the index exactly when it is 0. -/
theorem indexTracked_iff {G : Cfg} (hcb : cfg.isCallbackBody = true) (hne : text ≠ [])
    (hb : merlinCfgBuild merlinDecoder text textOffset = .ok G) :
    IndexTracked cfg text textOffset G.blocks Scalar.Mem i ↔ i = 0 := by
  constructor
  · intro h
    obtain ⟨leader, raw, bound, hbuilt⟩ := merlinCfgBuild_built hb
    have hpos := hbuilt.nblocks_pos hne
    obtain ⟨s, hs, hmem⟩ := h _ 0 _ .entry _ (List.getElem?_eq_getElem hpos) [] List.nil_prefix 10 0 rfl
    have hidx := vstateInitEntry_index hcb
    simp only [blockOut, Analysis.init, Function.update_self] at hs
    obtain rfl : s = indexAtEntry := by
      rw [hidx] at hs
      exact (Rval.scalar.inj hs).symm
    have hle : (i + 0).toNat ≤ 0 := hmem.unsigned.2
    rw [show i + 0 = i from BitVec.add_zero i] at hle
    exact BitVec.eq_of_toNat_eq (Nat.le_zero.mp hle)
  · rintro rfl
    refine indexTracked_of_entry indexClosed_mem (holds_entry hcb ⟨⟨?_, ?_⟩, ⟨?_, ?_⟩, Tnum.mem_top 0⟩)
    all_goals decide

def incrementText : Text := ofWords [0x00150513, 0x00008067]

def callbackCfg : VerifierCfg := { merlinVerifierCfgInitForMvdp with isCallbackBody := true }

theorem incrementText_build :
    ∃ G, merlinCfgBuild merlinDecoder incrementText 0x40 = .ok G ∧
      G.blocks[0]?.map (blockOffsets incrementText 0x40) = some [0, 4] := by
  have htest : buildsWith incrementText 0x40
      (fun G => G.blocks[0]?.map (blockOffsets incrementText 0x40) = some [0, 4]) = true := by
    decide +kernel
  obtain ⟨G, hG, hP⟩ := exists_of_buildsWith htest
  exact ⟨G, hG, of_decide_eq_true hP⟩

theorem incrementText_index_zero : ∃ G, merlinCfgBuild merlinDecoder incrementText 0x40 = .ok G ∧
    IndexTracked callbackCfg incrementText 0x40 G.blocks Scalar.Mem 0 := by
  obtain ⟨G, hG, -⟩ := incrementText_build
  exact ⟨G, hG, (indexTracked_iff rfl (by decide) hG).mpr rfl⟩

/-- Behind the increment of index 5, the register holds 6 and its unsigned range is `[1, 1]`. -/
theorem incrementText_index_five : ∃ G, merlinCfgBuild merlinDecoder incrementText 0x40 = .ok G ∧
    ¬ IndexTracked callbackCfg incrementText 0x40 G.blocks Scalar.Mem 5 := by
  obtain ⟨G, hG, hoffs⟩ := incrementText_build
  refine ⟨G, hG, fun h => ?_⟩
  obtain ⟨b, hb, hbo⟩ := Option.map_eq_some_iff.mp hoffs
  obtain ⟨s, hs, hmem⟩ := h _ 0 _ .entry b hb [0] (by rw [hbo]; decide) 10 1 (by decide +kernel)
  have hx : (blockOut merlinDecoder callbackCfg incrementText 0x40 [0]
      ((Analysis.init callbackCfg).entryState 0) 0).st.x 10 =
        .scalar (indexAtEntry.add (Scalar.const 1)) := by
    decide +kernel
  rw [hx] at hs
  obtain rfl := Rval.scalar.inj hs
  exact absurd hmem.unsigned.2 (by decide)

end Run
end MerlinV
