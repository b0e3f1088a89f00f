import MerlinV.Verify.Accept
import MerlinV.Cfg.Dominators

/-! # The loop gate

The gate of `merlin_verify_text` demands a mark for the target of every back edge.  Back
edges are found by dominance, so they meet every cycle exactly when the graph is
reducible; and a mark is put on `succ[0]` of the block that left a bound pending.
-/
namespace MerlinV

open Lib

variable {text : Text} {textOffset : BitVec 32} {cfg : VerifierCfg} {G : Cfg} {A : Analysis}

section Cycles

/-- Every cycle of reachable blocks contains a marked block. -/
def EveryCycleMarked (G : Cfg) (A : Analysis) : Prop :=
  ∀ c, IsCycle (Edge G.blocks) c → (∀ v ∈ c, Reachable (Edge G.blocks) 0 v) →
    ∃ h ∈ c, A.loopHeaderOk h = true

/-- Every cycle of an accepted reducible graph contains the target of a back edge. -/
theorem AcceptedAs.everyCycleMarked (h : AcceptedAs text textOffset cfg G A)
    (hfit : CounterFits text textOffset cfg) (hred : ¬ Irreducible (Edge G.blocks) 0) : EveryCycleMarked G A := by
  intro c hc hreach
  obtain ⟨leader, raw, bound, hb⟩ := merlinCfgBuild_built h.build
  have hpos : 0 < G.nblocks := Nat.pos_of_ne_zero h.nonempty
  obtain ⟨e, he, hdom⟩ := exists_dominating_of_not_irreducible hred hc hreach
  obtain ⟨p, hp, hpe⟩ := hc.exists_pred he
  have hback := (hb.mem_backEdges hpos (hreach p hp)).mpr ⟨hpe, hdom p hp⟩
  exact ⟨e, he, h.backEdge_marked hfit hback⟩

/-- An accepted text has a marked block on every cycle and no irreducible cycle exactly when its
graph is reducible: the gate does not look for irreducible cycles. -/
theorem accepted_cycles_iff (text : Text) (textOffset : BitVec 32) (cfg : VerifierCfg) (G : Cfg)
    (A : Analysis) (h : AcceptedAs text textOffset cfg G A) (hfit : CounterFits text textOffset cfg) :
    (EveryCycleMarked G A ∧ ¬ Irreducible (Edge G.blocks) 0) ↔
      ¬ Irreducible (Edge G.blocks) 0 := by
  constructor
  · exact fun hboth => hboth.2
  · exact fun hred => ⟨h.everyCycleMarked hfit hred, hred⟩

/-- `beq a0,x0,+8`, a `nop` and `beq a0,x0,-4` back to it, then `ret`: a cycle with two entries. -/
def twoEntryText : Text := ofWords [0x00050463, 0x00000013, 0xfe050ee3, 0x00008067]

/-- `twoEntryText` is accepted although its cycle is irreducible and carries no mark. -/
theorem twoEntryText_accepted :
    ∃ G A, AcceptedAs twoEntryText 0x40 merlinVerifierCfgInitForMvdp G A ∧
      ¬ EveryCycleMarked G A ∧ Irreducible (Edge G.blocks) 0 := by
  obtain ⟨G, A, hacc, hP⟩ := acceptedAs_of_acceptsWith twoEntryText 0x40
    merlinVerifierCfgInitForMvdp 20
    (fun G A => (List.range 3).map (succsOf G.blocks) = [[1, 2], [2], [3, 1]] &&
      !A.loopHeaderOk 1 && !A.loopHeaderOk 2) (by decide +kernel)
  have hsuccs : succsOf G.blocks 0 = [1, 2] ∧ succsOf G.blocks 1 = [2] ∧
      succsOf G.blocks 2 = [3, 1] := by
    simp only [Bool.and_eq_true, decide_eq_true_iff] at hP
    simpa [List.range_succ] using hP.1.1
  obtain ⟨h0, h1, h2⟩ := hsuccs
  have hmark : A.loopHeaderOk 1 = false ∧ A.loopHeaderOk 2 = false := by
    simp only [Bool.and_eq_true, Bool.not_eq_true'] at hP
    exact ⟨hP.1.2, hP.2⟩
  have hcycle : IsCycle (Edge G.blocks) [1, 2] := by
    refine ⟨1, [2], rfl, ?_, ?_⟩
    · simp [Edge, h1]
    · simp [Edge, h2]
  have w1 : Walk (Edge G.blocks) 0 1 [1, 0] := .snoc .start (by simp [Edge, h0])
  have w2 : Walk (Edge G.blocks) 0 2 [2, 0] := .snoc .start (by simp [Edge, h0])
  have hreach : ∀ v ∈ [1, 2], Reachable (Edge G.blocks) 0 v := by
    intro v hv
    rcases List.mem_pair.mp hv with rfl | rfl
    · exact ⟨_, w1⟩
    · exact ⟨_, w2⟩
  refine ⟨G, A, hacc, fun hall => ?_, [1, 2], hcycle, hreach, 1, 2, ⟨by simp, [0], w1, by simp⟩,
    ⟨by simp, [0], w2, by simp⟩, fun hd => ?_, fun hd => ?_⟩
  · obtain ⟨m, hm, hok⟩ := hall [1, 2] hcycle hreach
    rcases List.mem_pair.mp hm with rfl | rfl
    · simp [hmark.1] at hok
    · simp [hmark.2] at hok
  · simpa using hd _ w2
  · simpa using hd _ w1

/-- `loop_bound(10)`, then a block that branches back to itself, then `ret`. -/
def boundedLoopText : Text := ofWords [0x00a00513, 0x14200893, 0x00000073, 0x00050513, 0xfe051ee3,
  0x00008067]

theorem boundedLoopText_cycles :
    ∃ G A, AcceptedAs boundedLoopText 0x40 merlinVerifierCfgInitForMvdp G A ∧
      ((EveryCycleMarked G A ∧ ¬ Irreducible (Edge G.blocks) 0) ↔
        ¬ Irreducible (Edge G.blocks) 0) := by
  obtain ⟨G, A, hacc, -⟩ := acceptedAs_of_acceptsWith boundedLoopText 0x40
    merlinVerifierCfgInitForMvdp 20 (fun G A => A.loopHeaderOk 1) (by decide +kernel)
  exact ⟨G, A, hacc, accepted_cycles_iff boundedLoopText 0x40 merlinVerifierCfgInitForMvdp G A hacc
    (counterFits_of_cap (by decide))⟩

end Cycles

section Annotations

/-- The `ecall` in this state is a permitted `loop_bound` or `loop_cb` call. -/
def LoopHelper (cfg : VerifierCfg) (st : VState) : Prop :=
  ∃ a7, (st.x 17).const? = some a7 ∧ helperAllowed cfg (a7.tn.value.setWidth 32) = true ∧
    (a7.tn.value.setWidth 32 = helperLoopBound ∨ a7.tn.value.setWidth 32 = helperLoopCb)

/-- Visited from `A`, block `i` makes such a call, and no control transfer follows it there. -/
def Annotates (text : Text) (textOffset : BitVec 32) (cfg : VerifierCfg) (A : Analysis) (b : Block)
    (i : ℕ) : Prop :=
  ∃ pre off post insn, blockOffsets text textOffset b = pre ++ off :: post ∧
    verifyInsn merlinDecoder text textOffset off = some insn ∧ insn.cls = .ecall ∧
    LoopHelper cfg (blockOut merlinDecoder cfg text textOffset pre (A.entryState i) 0).st ∧
    ∀ o ∈ post, ∀ insn', verifyInsn merlinDecoder text textOffset o = some insn' →
      insn'.isCtrl = false

/-- The loop as coded takes block `i` from the queue of `A`. -/
def Pops (text : Text) (textOffset : BitVec 32) (cfg : VerifierCfg) (G : Cfg) (A : Analysis)
    (i : ℕ) : Prop :=
  CodedRun merlinDecoder cfg text textOffset G.blocks A ∧ ∃ q, wsPop A.queue = some (i, q)

/-- Every back edge is announced by a block outside its natural loop that falls into the header. -/
def AnnotationLaw (text : Text) (textOffset : BitVec 32) (cfg : VerifierCfg) (G : Cfg) : Prop :=
  ∀ s h, (s, h) ∈ G.backEdges → ∃ A i b, Pops text textOffset cfg G A i ∧
    G.blocks[i]? = some b ∧ ¬ NaturalLoop (Edge G.blocks) s h i ∧ i + 1 = h ∧
    Annotates text textOffset cfg A b i

/-- Block `i` stands right before `h`, ends without a control transfer and lies outside the natural loop of the back
edge from `s` to `h`. -/
def FallsInto (text : Text) (textOffset : BitVec 32) (G : Cfg) (s h i : ℕ) : Prop :=
  i + 1 = h ∧ ¬ NaturalLoop (Edge G.blocks) s h i ∧ ∃ b, G.blocks[i]? = some b ∧
    (terminator merlinDecoder text textOffset b).all (fun insn => !insn.isCtrl) = true

/-- A block that ends in a `jal` to `h` contains a call. -/
def CallsBeforeJump (text : Text) (textOffset : BitVec 32) (G : Cfg) (h : ℕ) : Prop :=
  ∃ (j : ℕ) (b : Block) (jump : Insn), G.blocks[j]? = some b ∧ b.succ0 = some h ∧
    terminator merlinDecoder text textOffset b = some jump ∧ jump.cls = .jal ∧
    ∃ off ∈ blockOffsets text textOffset b, ∃ insn,
      verifyInsn merlinDecoder text textOffset off = some insn ∧ insn.cls = .ecall

/-- In a visit of block `i` an `ecall` is a permitted loop helper in the state in front of it. -/
def CallsLoopHelper (text : Text) (textOffset : BitVec 32) (cfg : VerifierCfg) (G : Cfg) (i : ℕ) : Prop :=
  ∃ A b pre off post insn, Pops text textOffset cfg G A i ∧ G.blocks[i]? = some b ∧
    blockOffsets text textOffset b = pre ++ off :: post ∧ verifyInsn merlinDecoder text textOffset off = some insn ∧
    insn.cls = .ecall ∧
    LoopHelper cfg (blockOut merlinDecoder cfg text textOffset pre (A.entryState i) 0).st

theorem stepInsn_pending_ne {D : Decoder} {insn : Insn} {st : VState} {p : BitVec 32}
    (h : (stepInsn D cfg insn st p).pending ≠ p) : insn.cls = .ecall ∧ LoopHelper cfg st := by
  unfold stepInsn at h
  split at h
  · exact absurd rfl h
  split at h
  · rename_i hcls
    refine ⟨hcls, ?_⟩
    unfold stepEcall at h
    split at h
    · exact absurd rfl h
    rename_i a7 ha7
    dsimp only at h
    split at h
    · exact absurd rfl h
    rename_i hallow
    refine ⟨a7, ha7, by simpa using hallow, ?_⟩
    by_cases hb : a7.tn.value.setWidth 32 = helperLoopBound
    · exact .inl hb
    by_cases hc : a7.tn.value.setWidth 32 = helperLoopCb
    · exact .inr hc
    rw [loopBoundPending, if_neg hb] at h
    simp only [if_neg hc, stepKfuncResolve] at h
    exfalso
    apply h
    repeat' split
    all_goals rfl
  · exact absurd rfl h

/-- A bound left pending was set by a permitted loop helper of the block. -/
theorem blockOut_pending_ne {D : Decoder} {offs : List ℕ} {st : VState} {p : BitVec 32}
    (h : (blockOut D cfg text textOffset offs st p).pending ≠ p) :
    ∃ pre off post insn, offs = pre ++ off :: post ∧
      verifyInsn D text textOffset off = some insn ∧ insn.cls = .ecall ∧
      LoopHelper cfg (blockOut D cfg text textOffset pre st p).st := by
  induction offs generalizing st p with
  | nil => exact absurd rfl h
  | cons off offs ih =>
    rw [blockOut] at h
    cases hi : verifyInsn D text textOffset off with
    | none =>
      simp only [hi] at h
      obtain ⟨pre, off', post, insn, rfl, h₁, h₂, h₃⟩ := ih h
      refine ⟨off :: pre, off', post, insn, rfl, h₁, h₂, ?_⟩
      simpa only [blockOut, hi] using h₃
    | some insn =>
      simp only [hi] at h
      by_cases hs : (stepInsn D cfg insn st p).pending = p
      · rw [hs] at h
        obtain ⟨pre, off', post, insn', rfl, h₁, h₂, h₃⟩ := ih h
        refine ⟨off :: pre, off', post, insn', rfl, h₁, h₂, ?_⟩
        simpa only [blockOut, hi, hs] using h₃
      · obtain ⟨hcls, hloop⟩ := stepInsn_pending_ne hs
        exact ⟨[], off, offs, insn, rfl, hi, hcls, hloop⟩

/-- Every mark comes from a visit of the run that left a bound pending for it. -/
theorem CodedRun.exists_mark {D : Decoder} {blocks : List Block}
    (h : CodedRun D cfg text textOffset blocks A) {m : ℕ} (hm : A.loopHeaderOk m = true) :
    ∃ A₀ i q b, CodedRun D cfg text textOffset blocks A₀ ∧ wsPop A₀.queue = some (i, q) ∧
      blocks[i]? = some b ∧ b.succ0 = some m ∧
      (visitOut D cfg text textOffset A₀ b i).pending ≠ 0 := by
  induction h with
  | refl => simp [Analysis.init] at hm
  | @tail A A' hrun hs ih =>
    by_cases hold : A.loopHeaderOk m = true
    · exact ih hold
    obtain ⟨i, q, hp, hv⟩ := hs
    have hcan := (CodedRun.anyRun hrun).workInv.canonical
    rcases visitVia_cases (A := { A with queue := q }) hcan hv with ⟨rfl, -⟩ | ⟨b, hb, -, hv⟩
    · exact absurd hm hold
    have hout : visitOut D cfg text textOffset { A with queue := q } b i =
        visitOut D cfg text textOffset A b i := rfl
    rw [hv.loopHeaderOk, hout] at hm
    refine ⟨A, i, q, b, hrun, hp, hb, ?_⟩
    cases hsucc : b.succ0 with
    | none => simp [applyPending, hsucc, hold] at hm
    | some n =>
      simp only [applyPending, hsucc] at hm
      split at hm
      · rename_i hpend
        by_cases hmn : m = n
        · exact ⟨by rw [hmn], hpend⟩
        · rw [Function.update_of_ne hmn] at hm
          exact absurd hm hold
      · exact absurd hm hold

section Edges

variable {leader : LeaderMap} {raw : List Block} {bound : ℕ → ℕ} {i m : ℕ} {b : Block}
  (hb : Built merlinDecoder text textOffset G leader raw bound)

/-- The last instruction of block `i` is not a control transfer. -/
def PlainEnd (text : Text) (bound : ℕ → ℕ) (i : ℕ) : Prop :=
  ∀ insn, cfgInsn merlinDecoder text (4 * (bound (i + 1) - 1)) = some insn → insn.isCtrl = false

include hb in
theorem Built.plainEnd_iff (hblk : G.blocks[i]? = some b) : PlainEnd text bound i ↔
    (terminator merlinDecoder text textOffset b).all (fun insn => !insn.isCtrl) = true := by
  rw [terminator, hb.endPc (hb.lt_of_get hblk) hblk, PlainEnd]
  simp only [Option.all_eq_true, Bool.not_eq_true']

include hb in
/-- The first successor is the block that follows, or the target of a `jal`. -/
theorem Built.succ0_cases (hblk : G.blocks[i]? = some b) (hsucc : b.succ0 = some m) :
    i + 1 = m ∨ ∃ jump, terminator merlinDecoder text textOffset b = some jump ∧ jump.cls = .jal := by
  have hi := hb.lt_of_get hblk
  obtain ⟨hpos, hle, -⟩ := hb.last_lt hi
  have h32 : 4 * (bound (i + 1) - 1) < 2 ^ 32 := hb.four_mul_lt (by omega)
  have hget := (hb.get hi).symm.trans hblk
  by_cases hplain : PlainEnd text bound i
  · rw [fillSuccs_plain textOffset raw i (bound i) h32 hplain] at hget
    rw [← Option.some.inj hget] at hsucc
    obtain ⟨_, -, hm⟩ := Option.map_eq_some_iff.mp hsucc
    exact .inl hm
  · unfold PlainEnd at hplain
    push Not at hplain
    obtain ⟨insn, hinsn, hctrl⟩ := hplain
    rcases Insn.isCtrl_iff.mp ((Bool.not_eq_false _).mp hctrl) with hcls | hcls | hcls
    · -- the first successor of a branch is its fall-through
      rw [fillSuccs_branch textOffset raw i (bound i) hpos h32 hinsn hcls] at hget
      rw [← Option.some.inj hget] at hsucc
      obtain ⟨hm, hbound, -⟩ := (hb.lookupPc_next hle).mp hsucc
      exact .inl ((hb.layout.bound_eq_next hi).mp ⟨hm, by omega⟩).1.symm
    · refine .inr ⟨insn, ?_, hcls⟩
      rw [terminator, hb.endPc hi hblk]
      exact hinsn
    · rw [fillSuccs_jalr textOffset raw i (bound i) hinsn hcls] at hget
      rw [← Option.some.inj hget] at hsucc
      cases hsucc

include hb in
/-- No control transfer follows an `ecall` in a block exactly when the block ends without one. -/
theorem Built.plainEnd_of_after (hblk : G.blocks[i]? = some b) {pre post : List ℕ} {off : ℕ} {insn : Insn}
    (hsplit : blockOffsets text textOffset b = pre ++ off :: post)
    (hinsn : verifyInsn merlinDecoder text textOffset off = some insn) (hcls : insn.cls = .ecall)
    (hpost : ∀ o ∈ post, ∀ insn', verifyInsn merlinDecoder text textOffset o = some insn' → insn'.isCtrl = false) :
    PlainEnd text bound i := by
  have hi := hb.lt_of_get hblk
  have hlt := hb.layout.lt i hi
  have hlast : (off :: post).getLast? = some (4 * (bound (i + 1) - 1)) := by
    rw [← List.getLast?_append_cons pre off post, ← hsplit, hb.blockOffsets_eq hblk, List.getLast?_map,
      List.getLast?_range', if_neg (by omega), Option.map_some]
    congr 2
    omega
  have hhere : insn.isCtrl = false := by simp [Insn.isCtrl, hcls]
  intro last hlastInsn
  have hverify : verifyInsn merlinDecoder text textOffset (4 * (bound (i + 1) - 1)) =
      some { last with pc := pcAt textOffset (4 * (bound (i + 1) - 1)) } := by
    rw [verifyInsn_eq, hlastInsn, Option.map_some]
  rcases List.mem_cons.mp (List.mem_of_getLast? hlast) with hoff | hmem
  · rw [hoff, hinsn] at hverify
    rw [Option.some.inj hverify] at hhere
    exact hhere
  · have hafter := hpost _ hmem _ hverify
    exact hafter

include hb in
theorem Built.after_of_plainEnd (hblk : G.blocks[i]? = some b) (hplain : PlainEnd text bound i) {o : ℕ}
    (ho : o ∈ blockOffsets text textOffset b) {insn : Insn}
    (hinsn : verifyInsn merlinDecoder text textOffset o = some insn) : insn.isCtrl = false := by
  have hi := hb.lt_of_get hblk
  rw [hb.blockOffsets_eq hblk] at ho
  obtain ⟨k, hk, rfl⟩ := List.mem_map.mp ho
  obtain ⟨hk₁, hk₂⟩ : bound i ≤ k ∧ k < bound (i + 1) := by
    have := List.mem_range'_1.mp hk
    have := hb.layout.lt i hi
    omega
  rw [verifyInsn_eq] at hinsn
  obtain ⟨insn₀, hinsn₀, rfl⟩ := Option.map_eq_some_iff.mp hinsn
  by_contra hc
  have hctrl : insn₀.isCtrl = true := (Bool.not_eq_false _).mp hc
  have hend := hb.ctrl_last hi hk₁ hk₂ ⟨insn₀, hinsn₀, hctrl⟩
  have hk : bound (i + 1) - 1 = k := by omega
  rw [PlainEnd, hk] at hplain
  rw [hplain insn₀ hinsn₀] at hctrl
  cases hctrl

/-- A marked header that a block falls into from outside its loop is announced there: when the block calls a loop
helper, or when no `jal` can have brought the mark. -/
theorem announced_of_fallsInto (hb : Built merlinDecoder text textOffset G leader raw bound)
    (hrun : CodedRun merlinDecoder cfg text textOffset G.blocks A) (hmark : A.loopHeaderOk m = true)
    {s : ℕ} (hfall : FallsInto text textOffset G s m i)
    (hcalls : CallsBeforeJump text textOffset G m → CallsLoopHelper text textOffset cfg G i) :
    ∃ A i b, Pops text textOffset cfg G A i ∧ G.blocks[i]? = some b ∧ ¬ NaturalLoop (Edge G.blocks) s m i ∧
      i + 1 = m ∧ Annotates text textOffset cfg A b i := by
  obtain ⟨hnext, hout, b, hblk, hterm⟩ := hfall
  have hplain := (hb.plainEnd_iff hblk).mpr hterm
  have hcall : CallsLoopHelper text textOffset cfg G i := by
    obtain ⟨A₀, j, q, c, hrun₀, hpop, hc, hsucc, hpend⟩ := hrun.exists_mark hmark
    obtain ⟨pre, off, post, insn, hsplit, hinsn, hcls, hloop⟩ := blockOut_pending_ne hpend
    rcases hb.succ0_cases hc hsucc with hj | ⟨jump, hjump, hjal⟩
    · obtain rfl : j = i := by omega
      exact ⟨A₀, c, pre, off, post, insn, ⟨hrun₀, q, hpop⟩, hc, hsplit, hinsn, hcls, hloop⟩
    · refine hcalls ⟨j, c, jump, hc, hsucc, hjump, hjal, off, ?_, insn, hinsn, hcls⟩
      rw [hsplit]
      exact List.mem_append_right _ List.mem_cons_self
  obtain ⟨A₀, c, pre, off, post, insn, hpops, hc, hsplit, hinsn, hcls, hloop⟩ := hcall
  obtain rfl := Option.some.inj (hblk.symm.trans hc)
  refine ⟨A₀, i, b, hpops, hblk, hout, hnext, pre, off, post, insn, hsplit, hinsn, hcls, hloop, fun o ho insn' h => ?_⟩
  refine hb.after_of_plainEnd hblk hplain ?_ h
  rw [hsplit]
  exact List.mem_append_right _ (List.mem_cons_of_mem _ ho)

end Edges

/-- The law holds of an accepted text exactly when each header of a back edge is fallen into from outside its loop, by a
block that calls a loop helper wherever the mark may have come with a `jal`. -/
theorem accepted_annotationLaw_iff (text : Text) (textOffset : BitVec 32) (cfg : VerifierCfg) (G : Cfg)
    (A : Analysis) (h : AcceptedAs text textOffset cfg G A) (hfit : CounterFits text textOffset cfg) :
    AnnotationLaw text textOffset cfg G ↔ ∀ s m, (s, m) ∈ G.backEdges →
      ∃ i, FallsInto text textOffset G s m i ∧
        (CallsBeforeJump text textOffset G m → CallsLoopHelper text textOffset cfg G i) := by
  obtain ⟨leader, raw, bound, hb⟩ := merlinCfgBuild_built h.build
  refine forall_congr' fun s => forall_congr' fun m => forall_congr' fun hback => ?_
  constructor
  · rintro ⟨A₀, i, b, hpops, hblk, hout, hnext, pre, off, post, insn, hsplit, hinsn, hcls, hloop, hpost⟩
    have hplain := hb.plainEnd_of_after hblk hsplit hinsn hcls hpost
    exact ⟨i, ⟨hnext, hout, b, hblk, (hb.plainEnd_iff hblk).mp hplain⟩, fun _ =>
      ⟨A₀, b, pre, off, post, insn, hpops, hblk, hsplit, hinsn, hcls, hloop⟩⟩
  · rintro ⟨i, hfall, hcalls⟩
    exact announced_of_fallsInto hb h.codedRun.1 (h.backEdge_marked hfit hback) hfall hcalls

/-- `nop`, then `loop_bound(10)` and a jump back to its first instruction. -/
def selfAnnotatedText : Text := ofWords [0x00000013, 0x14200893, 0x00a00513, 0x00000073, 0xff5ff06f]

/-- In `selfAnnotatedText` the call inside the body legalises the back edge of its own loop. -/
theorem selfAnnotatedText_not_annotationLaw :
    ∃ G A, AcceptedAs selfAnnotatedText 0x40 merlinVerifierCfgInitForMvdp G A ∧
      ¬ AnnotationLaw selfAnnotatedText 0x40 merlinVerifierCfgInitForMvdp G := by
  obtain ⟨G, A, hacc, hP⟩ := acceptedAs_of_acceptsWith selfAnnotatedText 0x40
    merlinVerifierCfgInitForMvdp 20
    (fun G _ => G.backEdges = [(1, 1)] &&
      G.blocks[0]?.map (blockOffsets selfAnnotatedText 0x40) = some [0]) (by decide +kernel)
  simp only [Bool.and_eq_true, decide_eq_true_iff] at hP
  obtain ⟨hback, hoffs⟩ := hP
  refine ⟨G, A, hacc, fun hlaw => ?_⟩
  obtain ⟨A₀, i, b, -, hb, -, hi, pre, off, post, insn, hsplit, hinsn, hcls, -⟩ :=
    hlaw 1 1 (by simp [hback])
  obtain rfl : i = 0 := by omega
  -- the only block that falls into the header is the `nop`
  rw [hb, Option.map_some, Option.some.injEq] at hoffs
  have hoff : off ∈ [0] := by
    rw [← hoffs, hsplit]
    simp
  rw [List.mem_singleton.mp hoff] at hinsn
  rw [← Option.some.inj hinsn] at hcls
  exact absurd hcls (by decide)

theorem not_naturalLoop_self {E : ℕ → ℕ → Prop} {h v : ℕ} (hv : v ≠ h) :
    ¬ NaturalLoop E h h v := by
  rintro (heq | ⟨-, hpath⟩)
  · exact hv heq
  · rcases Relation.ReflTransGen.cases_tail hpath with heq | ⟨_, -, -, hne⟩
    · exact hv heq.symm
    · exact hne rfl

theorem boundedLoopText_annotationLaw :
    ∃ G, merlinCfgBuild merlinDecoder boundedLoopText 0x40 = .ok G ∧
      AnnotationLaw boundedLoopText 0x40 merlinVerifierCfgInitForMvdp G := by
  obtain ⟨G, A, hacc, hP⟩ := acceptedAs_of_acceptsWith boundedLoopText 0x40
    merlinVerifierCfgInitForMvdp 20
    (fun G _ => G.backEdges = [(1, 1)] &&
      (G.blocks[0]?.any fun b => (terminator merlinDecoder boundedLoopText 0x40 b).all fun insn => !insn.isCtrl) &&
      G.blocks.all fun b => (terminator merlinDecoder boundedLoopText 0x40 b).all fun insn => insn.cls ≠ .jal)
    (by decide +kernel)
  simp only [Bool.and_eq_true, decide_eq_true_iff, Option.any_eq_true, List.all_eq_true] at hP
  obtain ⟨⟨hback, b, hblk, hterm⟩, hnojal⟩ := hP
  refine ⟨G, hacc.build, (accepted_annotationLaw_iff boundedLoopText 0x40 merlinVerifierCfgInitForMvdp G A hacc
    (counterFits_of_cap (by decide))).mpr fun s m hedge => ?_⟩
  obtain ⟨rfl, rfl⟩ : s = 1 ∧ m = 1 := by simpa [hback] using hedge
  refine ⟨0, ⟨rfl, not_naturalLoop_self (by decide), b, hblk, hterm⟩, ?_⟩
  rintro ⟨j, c, jump, hc, -, hjump, hjal, -⟩
  have hno := hnojal c (List.mem_of_getElem? hc)
  rw [hjump] at hno
  simp [hjal] at hno

end Annotations

end MerlinV
