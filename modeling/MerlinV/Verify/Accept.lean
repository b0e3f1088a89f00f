import MerlinV.Verify.Fixpoint

/-! # Accepted texts

What acceptance by `merlin_verify_text` gives when its 32-bit reject counter does not wrap:
an analysis in which no instruction of a block with a valid entry state is rejected, and
in which the state after each instruction is covered by the state in front of the next.
-/
namespace MerlinV

/-- `merlin_verify_text` builds the graph `G`, its loop ends in `A`, and it accepts. -/
structure AcceptedAs (text : Text) (textOffset : BitVec 32) (cfg : VerifierCfg) (G : Cfg)
    (A : Analysis) : Prop where
  build : merlinCfgBuild merlinDecoder text textOffset = .ok G
  nonempty : G.nblocks ≠ 0
  loop : ∃ fuel, verifyLoop merlinDecoder cfg text textOffset G.blocks fuel (Analysis.init cfg) =
    some (.fixpoint A)
  accept : verdict G A = .ok

/-- Two rejections a step and one a back edge fit the 32-bit reject counter. -/
def Analysis.CountFits (A : Analysis) : Prop := 2 * A.steps + cfgMaxEdges < 2 ^ 32

/-- In the run of the worklist loop the reject counter does not wrap around. -/
def CounterFits (text : Text) (textOffset : BitVec 32) (cfg : VerifierCfg) : Prop :=
  ∀ G A, merlinCfgBuild merlinDecoder text textOffset = .ok G →
    CodedRun merlinDecoder cfg text textOffset G.blocks A → A.CountFits

theorem Analysis.CountFits.steps_lt {A : Analysis} (h : A.CountFits) : A.steps < 2 ^ 31 := by
  unfold CountFits at h
  omega

section Accepted

variable {text : Text} {textOffset : BitVec 32} {cfg : VerifierCfg} {G : Cfg} {A : Analysis}

theorem Accepted.exists_acceptedAs (h : Accepted text textOffset cfg) :
    ∃ G A, AcceptedAs text textOffset cfg G A := by
  obtain ⟨fuel, h⟩ := h
  unfold merlinVerifyText at h
  split at h
  · cases h
  · cases hb : merlinCfgBuild merlinDecoder text textOffset with
    | error e => simp [hb] at h
    | ok G =>
      simp only [hb] at h
      split at h
      · cases h
      · rename_i hn
        cases hl : verifyLoop merlinDecoder cfg text textOffset G.blocks fuel (Analysis.init cfg) with
        | none => simp [hl] at h
        | some e =>
          cases e with
          | capExceeded => simp [hl] at h
          | fixpoint A => exact ⟨G, A, hb, hn, ⟨fuel, hl⟩, by simpa [hl] using h⟩

theorem merlinDecoder_total (w pc : BitVec 32) : (merlinDecoder.decode w pc).isSome = true := rfl

theorem AcceptedAs.codedRun (h : AcceptedAs text textOffset cfg G A) :
    CodedRun merlinDecoder cfg text textOffset G.blocks A ∧ A.queue = [] := by
  obtain ⟨fuel, hl⟩ := h.loop
  exact verifyLoop_codedRun .refl hl

theorem merlinCfgBuild_backEdges_le {D : Decoder} (h : merlinCfgBuild D text textOffset = .ok G) :
    G.backEdges.length ≤ cfgMaxEdges := by
  obtain ⟨-, -, leader, rev, -, -, hfinish⟩ := merlinCfgBuild_eq_ok.mp h
  simp only [cfgFinish] at hfinish
  split at hfinish
  · cases hfinish
  · rename_i hle
    rw [← Except.ok.inj hfinish]
    exact not_lt.mp hle

/-- A step cap that leaves room for two rejections a step keeps the counter from wrapping. -/
theorem counterFits_of_cap (hcap : 2 * cfg.effectiveCap + cfgMaxEdges < 2 ^ 32) :
    CounterFits text textOffset cfg := by
  intro G A _ h
  have hsteps := h.anyRun.steps_le (by omega)
  unfold Analysis.CountFits
  omega

/-- With a counter that does not wrap, an accepting verdict means that nothing was rejected. -/
theorem verdict_eq_ok_iff (hb : merlinCfgBuild merlinDecoder text textOffset = .ok G) (hfit : A.CountFits)
    (h : AnyRun merlinDecoder cfg text textOffset G.blocks A) :
    verdict G A = .ok ↔ A.rejected = 0 ∧ gateRejects G A = 0 := by
  unfold Analysis.CountFits at hfit
  have hrej := h.rejected_le merlinDecoder_total
  have hgate : gateRejects G A ≤ cfgMaxEdges :=
    (List.length_filter_le _ _).trans (merlinCfgBuild_backEdges_le hb)
  unfold verdict
  rw [Nat.mod_eq_of_lt (by omega)]
  by_cases hz : A.rejected + gateRejects G A = 0
  · simp only [hz, ne_eq, not_true_eq_false, if_false, true_iff]
    omega
  · simp only [hz, ne_eq, not_false_eq_true, if_true, reduceCtorEq, false_iff]
    omega

theorem AcceptedAs.countFits (h : AcceptedAs text textOffset cfg G A) (hfit : CounterFits text textOffset cfg) :
    A.CountFits :=
  hfit G A h.build h.codedRun.1

theorem AcceptedAs.no_rejects (h : AcceptedAs text textOffset cfg G A) (hfit : CounterFits text textOffset cfg) :
    A.rejected = 0 ∧ gateRejects G A = 0 :=
  (verdict_eq_ok_iff h.build (h.countFits hfit) h.codedRun.1.anyRun).mp h.accept

theorem AcceptedAs.backEdge_marked (h : AcceptedAs text textOffset cfg G A)
    (hfit : CounterFits text textOffset cfg) {s t : ℕ} (he : (s, t) ∈ G.backEdges) : A.loopHeaderOk t = true := by
  have hz := List.length_eq_zero_iff.mp (h.no_rejects hfit).2
  by_contra hno
  have : (s, t) ∈ G.backEdges.filter fun e => !A.loopHeaderOk e.2 :=
    List.mem_filter.mpr ⟨he, by simpa using hno⟩
  rw [hz] at this
  cases this

end Accepted

section Instructions

variable {D : Decoder} {cfg : VerifierCfg} {text : Text} {textOffset : BitVec 32} {G : Cfg}
  {A : Analysis} {leader : LeaderMap} {raw : List Block} {bound : ℕ → ℕ}

/-- The instruction loop over a block visits its instructions in order. -/
theorem Built.blockOffsets_eq (h : Built D text textOffset G leader raw bound) {i : ℕ} {b : Block}
    (hb : G.blocks[i]? = some b) :
    blockOffsets text textOffset b =
      (List.range' (bound i) (bound (i + 1) - bound i)).map (4 * ·) := by
  have hi := h.lt_of_get hb
  obtain ⟨hpos, hle, -⟩ := h.last_lt hi
  have hlt := h.layout.lt i hi
  have hstart : (b.startPc - textOffset).toNat = 4 * bound i := by
    rw [h.startPc hi hb, pcAt_sub, BitVec.toNat_ofNat, Nat.mod_eq_of_lt (h.four_mul_lt (by omega))]
  rw [blockOffsets, hstart, h.endPc hi hb]
  have hsize := h.size
  obtain ⟨m, hm⟩ : ∃ m, text.length / 4 = (bound (i + 1) - bound i) + m :=
    ⟨text.length / 4 - (bound (i + 1) - bound i), by omega⟩
  rw [hm, ← List.range'_append, List.takeWhile_append_of_pos]
  · have hrest : (List.range' (4 * bound i + 4 * (bound (i + 1) - bound i)) m 4).takeWhile
        (fun off => off ≤ 4 * (bound (i + 1) - 1) && off < text.length) = [] := by
      cases m with
      | zero => rfl
      | succ m =>
        rw [List.range'_succ, List.takeWhile_cons_of_neg]
        simp only [Bool.and_eq_true, decide_eq_true_iff, not_and, not_lt]
        omega
    rw [hrest, List.append_nil]
    apply List.ext_getElem
    · simp
    · intro k _ _
      simp only [List.getElem_range', List.getElem_map]
      omega
  · intro off hoff
    obtain ⟨k, hk, rfl⟩ := List.mem_range'.mp hoff
    simp only [Bool.and_eq_true, decide_eq_true_iff]
    omega

theorem Built.ctrl_last (h : Built D text textOffset G leader raw bound) {i k : ℕ}
    (hi : i < raw.length) (hs : bound i ≤ k) (hk : k < bound (i + 1)) (hc : IsCtrlAt D text k) :
    bound (i + 1) = k + 1 := by
  by_contra hne
  obtain ⟨-, hle, -⟩ := h.last_lt hi
  have hl := (h.marked k (by omega)).next hc (by omega)
  rw [h.layout.inner i hi (k + 1) (by omega) (by omega)] at hl
  cases hl

theorem verifyInsn_eq (off : ℕ) :
    verifyInsn merlinDecoder text textOffset off =
      (cfgInsn merlinDecoder text off).map fun insn => { insn with pc := pcAt textOffset off } := by
  simp only [verifyInsn, cfgInsn, merlinDecoder, Option.map_some]
  rw [merlinDecode_pc _ (pcAt textOffset off) (BitVec.ofNat 32 off)]

variable (D cfg text textOffset A) in
/-- The abstract state in front of instruction `k` of the block `i` that starts at `s`. -/
def stateBefore (i s k : ℕ) : VState :=
  (blockOut D cfg text textOffset ((List.range' s (k - s)).map (4 * ·)) (A.entryState i) 0).st

theorem stateBefore_start (i s : ℕ) :
    stateBefore D cfg text textOffset A i s s = A.entryState i := by
  simp [stateBefore, blockOut]

/-- The pending bound changes neither the state nor the rejections of a step. -/
theorem stepInsn_pending (insn : Insn) (st : VState) (p q : BitVec 32) :
    (stepInsn D cfg insn st p).st = (stepInsn D cfg insn st q).st ∧
      (stepInsn D cfg insn st p).rejects = (stepInsn D cfg insn st q).rejects := by
  unfold stepInsn
  split
  · exact ⟨rfl, rfl⟩
  · split
    · simp only [stepEcall, stepKfuncResolve, stepLoopCb]
      repeat' split
      all_goals exact ⟨rfl, rfl⟩
    · exact ⟨rfl, rfl⟩

theorem stateBefore_succ {i s k : ℕ} {insn : Insn} (hk : s ≤ k)
    (hi : verifyInsn D text textOffset (4 * k) = some insn) :
    stateBefore D cfg text textOffset A i s (k + 1) =
      (stepInsn D cfg insn (stateBefore D cfg text textOffset A i s k) 0).st := by
  have hlen : k + 1 - s = (k - s) + 1 := by omega
  have hlast : s + 1 * (k - s) = k := by omega
  rw [stateBefore, hlen, List.range'_concat, List.map_append, blockOut_append, hlast]
  simp only [List.map_cons, List.map_nil, blockOut, hi]
  exact (stepInsn_pending insn _ _ 0).1

theorem stepInsn_rejects_eq_nil {i s e k : ℕ} {insn : Insn} (hs : s ≤ k) (hk : k < e)
    (hi : verifyInsn D text textOffset (4 * k) = some insn)
    (hz : (blockOut D cfg text textOffset ((List.range' s (e - s)).map (4 * ·))
      (A.entryState i) 0).rejects = 0) :
    (stepInsn D cfg insn (stateBefore D cfg text textOffset A i s k) 0).rejects = [] := by
  have hsplit : List.range' s (e - s) = List.range' s (k - s) ++ k :: List.range' (k + 1) (e - k - 1) := by
    have h₁ : e - s = (k - s) + (e - k) := by omega
    have h₂ : s + 1 * (k - s) = k := by omega
    have h₃ : e - k = (e - k - 1) + 1 := by omega
    rw [h₁, ← List.range'_append, h₂, h₃, List.range'_succ]
    rfl
  rw [hsplit, List.map_append, blockOut_append, List.map_cons] at hz
  simp only [blockOut, hi, Nat.add_eq_zero_iff] at hz
  rw [← List.length_eq_zero_iff, (stepInsn_pending insn _ 0 _).2]
  exact hz.2.1

end Instructions

section Evaluation

def buildsWith (text : Text) (textOffset : BitVec 32) (P : Cfg → Bool) : Bool :=
  match merlinCfgBuild merlinDecoder text textOffset with
  | .error _ => false
  | .ok G => P G

theorem exists_of_buildsWith {text : Text} {textOffset : BitVec 32} {P : Cfg → Bool}
    (h : buildsWith text textOffset P = true) :
    ∃ G, merlinCfgBuild merlinDecoder text textOffset = .ok G ∧ P G = true := by
  unfold buildsWith at h
  split at h
  · cases h
  · exact ⟨_, ‹_›, h⟩

def acceptsWith (text : Text) (textOffset : BitVec 32) (cfg : VerifierCfg) (fuel : ℕ)
    (P : Cfg → Analysis → Bool) : Bool :=
  match merlinCfgBuild merlinDecoder text textOffset with
  | .error _ => false
  | .ok G => G.nblocks ≠ 0 &&
    match verifyLoop merlinDecoder cfg text textOffset G.blocks fuel (Analysis.init cfg) with
    | some (.fixpoint A) => verdict G A = .ok && P G A
    | _ => false

theorem acceptedAs_of_acceptsWith (text : Text) (textOffset : BitVec 32) (cfg : VerifierCfg)
    (fuel : ℕ) (P : Cfg → Analysis → Bool) (h : acceptsWith text textOffset cfg fuel P = true) :
    ∃ G A, AcceptedAs text textOffset cfg G A ∧ P G A = true := by
  unfold acceptsWith at h
  cases hb : merlinCfgBuild merlinDecoder text textOffset with
  | error e => simp [hb] at h
  | ok G =>
    simp only [hb, Bool.and_eq_true, decide_eq_true_iff] at h
    obtain ⟨hn, h⟩ := h
    cases hl : verifyLoop merlinDecoder cfg text textOffset G.blocks fuel (Analysis.init cfg) with
    | none => simp [hl] at h
    | some e =>
      cases e with
      | capExceeded => simp [hl] at h
      | fixpoint A =>
        simp only [hl, Bool.and_eq_true, decide_eq_true_iff] at h
        exact ⟨G, A, ⟨hb, hn, ⟨fuel, hl⟩, h.1⟩, h.2⟩

end Evaluation

end MerlinV
