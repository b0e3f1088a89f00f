import MerlinV.Verify.Monotone

/-! # The verdict and the order of the worklist

The loop of `merlin_verify_text` raises its rejections on the states it has joined so far.
`Uninit` is the identity of the join, so an instruction that looks at an `Uninit` register
may be rejected on a path that one order visits first and another order visits after the
register is known.  Where no visited instruction does so, and none finds two pointers, every
complete run stays below the fixpoint of every other one that accepts.
-/
namespace MerlinV

namespace VState

theorem Le.trans {a b c : VState} (hab : a.Le b) (hbc : b.Le c) : a.Le c := fun r =>
  (hab r).trans (hbc r)

/-- A state that absorbs a valid state is valid and lies above it. -/
theorem le_of_join_eq {a b : VState} (h : b.join a = b) (ha : a.valid = true) :
    b.valid = true ∧ a.Le b := by
  have hb : b.valid = true := by
    rw [← h, join_valid, ha, Bool.or_true]
  refine ⟨hb, fun r => ?_⟩
  unfold Rval.Le
  rw [← join_x hb ha, h]

end VState

section Run

variable (cfg : VerifierCfg) (text : Text) (textOffset : BitVec 32) (blocks : List Block)

/-- The instructions of block `i` are safe from its entry state on. -/
def SafeVisit (A : Analysis) (i : ℕ) : Prop :=
  ∀ b ∈ blocks[i]?, BlockSafe merlinDecoder cfg text textOffset (blockOffsets text textOffset b)
    (A.entryState i) 0

/-- An iteration under any policy in which every instruction is safe. -/
inductive SafeStep (A A' : Analysis) : Prop where
  | visit (i : ℕ) (succs : List ℕ) (mem : i ∈ A.queue) (perm : succs.Perm (succsOf blocks i))
      (safe : SafeVisit cfg text textOffset blocks A i)
      (run : visitVia merlinDecoder cfg text textOffset blocks succs { A with queue := A.queue.erase i } i =
        some A')

/-- The states of the loop under any policy, as long as every instruction is safe. -/
def SafeRun (A : Analysis) : Prop :=
  Relation.ReflTransGen (SafeStep cfg text textOffset blocks) (Analysis.init cfg) A

variable {cfg text textOffset blocks}

theorem SafeStep.anyStep {A A' : Analysis} (h : SafeStep cfg text textOffset blocks A A') :
    AnyStep merlinDecoder cfg text textOffset blocks A A' := by
  obtain ⟨i, succs, hmem, hperm, -, hrun⟩ := h
  exact ⟨i, succs, hmem, hperm, hrun⟩

theorem SafeRun.anyRun {A : Analysis} (h : SafeRun cfg text textOffset blocks A) :
    AnyRun merlinDecoder cfg text textOffset blocks A := by
  induction h with
  | refl => exact .refl
  | tail _ hs ih => exact ih.tail hs.anyStep

/-- Nothing has been rejected in `B`, and `F` knows of every state and every mark of `B`. -/
structure Below (B F : Analysis) : Prop where
  entry : ∀ n, (B.entryState n).valid = true →
    (F.entryState n).valid = true ∧ (B.entryState n).Le (F.entryState n)
  rejected : B.rejected = 0
  marks : ∀ h, B.loopHeaderOk h = true → F.loopHeaderOk h = true

theorem below_init {F : Analysis} (hF : AnyRun merlinDecoder cfg text textOffset blocks F) :
    Below (Analysis.init cfg) F where
  entry n hn := by
    by_cases h0 : n = 0
    · subst h0
      have hinit : (Analysis.init cfg).entryState 0 = vstateInitEntry cfg := by simp [Analysis.init]
      rw [hinit]
      exact VState.le_of_join_eq hF.workInv.entry rfl
    · simp [Analysis.init, h0, VState.bottom] at hn
  rejected := rfl
  marks h hm := by simp [Analysis.init] at hm

theorem blockOffsets_length_le (b : Block) : (blockOffsets text textOffset b).length ≤ text.length / 4 := by
  unfold blockOffsets
  exact (List.takeWhile_sublist _).length_le.trans (by rw [List.length_range'])

/-- Joining a smaller exit state into a smaller entry state stays below. -/
theorem Below.join {a st f : VState} (ha : a.valid = true → f.valid = true ∧ a.Le f)
    (hst : st.valid = true → f.valid = true ∧ st.Le f) (hv : (a.join st).valid = true) :
    f.valid = true ∧ (a.join st).Le f := by
  rw [VState.join_valid] at hv
  cases hsv : st.valid with
  | false =>
    have hj : a.join st = a := by simp [VState.join, hsv]
    rw [hj]
    exact ha (by simpa [hsv] using hv)
  | true =>
    cases hav : a.valid with
    | false =>
      have hj : a.join st = st := by simp [VState.join, hsv, hav]
      rw [hj]
      exact hst hsv
    | true =>
      refine ⟨(ha hav).1, fun r => ?_⟩
      rw [VState.join_x hav hsv]
      exact Rval.join_le ((ha hav).2 r) ((hst hsv).2 r)

variable {F : Analysis} (hsize : text.length / 4 ≤ cfgMaxInsns) (hlt : F.steps < 2 ^ 31)
  (hF : AnyRun merlinDecoder cfg text textOffset blocks F) (hempty : F.queue = []) (hz : F.rejected = 0)

include hsize hlt hF hempty hz in
/-- A safe iteration stays below a fixpoint in which nothing was rejected. -/
theorem Below.step {B B' : Analysis} (hB : SafeRun cfg text textOffset blocks B) (hltB : B.steps < 2 ^ 31)
    (h : Below B F)
    (hs : SafeStep cfg text textOffset blocks B B') : Below B' F := by
  obtain ⟨i, succs, -, hperm, hsafe, hrun⟩ := hs
  rcases visitVia_cases (A := { B with queue := B.queue.erase i }) hB.anyRun.workInv.canonical hrun with
    ⟨rfl, -⟩ | ⟨b, hb, hv, hvis⟩
  · exact ⟨h.entry, h.rejected, h.marks⟩
  · obtain ⟨hFv, hle⟩ := h.entry i hv
    have hstable : Stable merlinDecoder cfg text textOffset blocks F b i := by
      rcases hF.workInv.stable i b hb hFv with hq | hst
      · rw [hempty] at hq
        cases hq
      · exact hst
    -- both states are reached in fewer than `2 ^ 31` steps
    have hgood : ∀ {A : Analysis}, AnyRun merlinDecoder cfg text textOffset blocks A → A.steps < 2 ^ 31 → ∀ r,
        ((A.entryState i).x r).Good (2 ^ 31) := fun hA hltA r =>
      (runClosed_good cfg).mono hltA.le (hA.values (runClosed_good cfg) hltA i r)
    have hFz : (visitOut merlinDecoder cfg text textOffset F b i).rejects = 0 := by
      have := hstable.counted
      omega
    have hlen : (blockOffsets text textOffset b).length ≤ text.length / 4 := blockOffsets_length_le b
    simp only [cfgMaxInsns, cfgMaxBlocks] at hsize
    obtain ⟨hrej, hout, hpend⟩ := blockOut_mono (blockOffsets text textOffset b)
      (by unfold stepLimit; omega) hle (hgood hB.anyRun hltB) (hgood hF hlt) (id : (0 : BitVec 32) ≠ 0 → _)
      (hsafe b hb) hFz
    refine ⟨fun n hn => ?_, ?_, fun k hk => ?_⟩
    · have hent := hvis.entry n
      rw [hent] at hn ⊢
      split at hn
      · rename_i hmem
        rw [if_pos hmem]
        refine Below.join (h.entry n) (fun hstv => ?_) hn
        have habs := hstable.absorbed n (hperm.mem_iff.mp hmem)
        have hFout : (visitOut merlinDecoder cfg text textOffset F b i).st.valid = true := by
          rw [visitOut, blockOut_valid]
          exact hFv
        obtain ⟨hfv, hfle⟩ := VState.le_of_join_eq habs hFout
        exact ⟨hfv, VState.Le.trans hout hfle⟩
      · rename_i hmem
        rw [if_neg hmem]
        exact h.entry n hn
    · rw [hvis.rejected]
      exact Nat.add_eq_zero_iff.mpr ⟨h.rejected, hrej⟩
    · rw [hvis.loopHeaderOk] at hk
      unfold applyPending at hk
      cases hsucc : b.succ0 with
      | none =>
        simp only [hsucc] at hk
        exact h.marks k hk
      | some m =>
        simp only [hsucc] at hk
        split at hk
        · rename_i hne
          by_cases hkm : k = m
          · rw [hkm]
            exact hstable.marked (hpend hne) m hsucc
          · rw [Function.update_of_ne hkm] at hk
            exact h.marks k hk
        · exact h.marks k hk

include hsize hlt hF hempty hz in
theorem SafeRun.below {B : Analysis} (hB : SafeRun cfg text textOffset blocks B) (hltB : B.steps < 2 ^ 31) :
    Below B F := by
  induction hB with
  | refl => exact below_init hF
  | tail hrun hs ih =>
    have hle := hs.anyStep.steps_le (SafeRun.anyRun hrun)
    exact (ih (by omega)).step hsize hlt hF hempty hz hrun (by omega) hs

end Run

section Orders

variable (cfg : VerifierCfg) (text : Text) (textOffset : BitVec 32) (blocks : List Block)

/-- No order exceeds the step cap. -/
def NeverCapped : Prop :=
  ∀ A, AnyRun merlinDecoder cfg text textOffset blocks A → ∀ i ∈ A.queue, ∀ succs : List ℕ,
    succs.Perm (succsOf blocks i) →
      visitVia merlinDecoder cfg text textOffset blocks succs { A with queue := A.queue.erase i } i ≠ none

/-- Follow every order from `A` on; false when `fuel` iterations do not end one of them or one of
them exceeds the cap. -/
def everyOrderEnds : ℕ → Analysis → Bool
  | 0, _ => false
  | fuel + 1, A => A.queue.all fun i => (succsOf blocks i).permutations'.all fun succs =>
    (visitVia merlinDecoder cfg text textOffset blocks succs { A with queue := A.queue.erase i } i).any
      (everyOrderEnds fuel)

def followOrder (safe : Analysis → ℕ → Bool) : List (ℕ × List ℕ) → Analysis → Option Analysis
  | [], A => some A
  | (i, succs) :: order, A =>
    if i ∈ A.queue ∧ succs.isPerm (succsOf blocks i) = true ∧ safe A i = true then
      (visitVia merlinDecoder cfg text textOffset blocks succs { A with queue := A.queue.erase i } i).bind
        (followOrder safe order)
    else none

variable {cfg text textOffset blocks}

theorem everyOrderEnds_visit {fuel i : ℕ} {A : Analysis} {succs : List ℕ}
    (h : everyOrderEnds cfg text textOffset blocks fuel A = true) (hmem : i ∈ A.queue)
    (hperm : succs.Perm (succsOf blocks i)) : ∃ A',
      visitVia merlinDecoder cfg text textOffset blocks succs { A with queue := A.queue.erase i } i =
        some A' ∧ everyOrderEnds cfg text textOffset blocks (fuel - 1) A' = true := by
  cases fuel with
  | zero => cases h
  | succ fuel =>
    rw [everyOrderEnds] at h
    have hvisit := List.all_eq_true.mp (List.all_eq_true.mp h i hmem) succs
      (List.mem_permutations'.mpr hperm)
    exact (Option.any_eq_true _ _).mp hvisit

theorem neverCapped_of_everyOrderEnds {fuel : ℕ}
    (h : everyOrderEnds cfg text textOffset blocks fuel (Analysis.init cfg) = true) :
    NeverCapped cfg text textOffset blocks := by
  have hends : ∀ A, AnyRun merlinDecoder cfg text textOffset blocks A →
      ∃ fuel, everyOrderEnds cfg text textOffset blocks fuel A = true := by
    intro A hA
    induction hA with
    | refl => exact ⟨fuel, h⟩
    | tail _ hs ih =>
      obtain ⟨i, succs, hmem, hperm, hrun⟩ := hs
      obtain ⟨fuel', hfuel⟩ := ih
      obtain ⟨A', hA', hnext⟩ := everyOrderEnds_visit hfuel hmem hperm
      obtain rfl := Option.some.inj (hrun.symm.trans hA')
      exact ⟨_, hnext⟩
  intro A hA i hmem succs hperm
  obtain ⟨fuel', hends⟩ := hends A hA
  obtain ⟨A', hA', -⟩ := everyOrderEnds_visit hends hmem hperm
  rw [hA']
  exact Option.some_ne_none A'

theorem followOrder_run {R : Analysis → Analysis → Prop} {safe : Analysis → ℕ → Bool}
    (hR : ∀ {A A' i} {succs : List ℕ}, i ∈ A.queue → succs.Perm (succsOf blocks i) → safe A i = true →
      visitVia merlinDecoder cfg text textOffset blocks succs { A with queue := A.queue.erase i } i =
        some A' → R A A')
    {order : List (ℕ × List ℕ)} {A B : Analysis}
    (h : followOrder cfg text textOffset blocks safe order A = some B) : Relation.ReflTransGen R A B := by
  induction order generalizing A with
  | nil =>
    obtain rfl := Option.some.inj h
    exact .refl
  | cons next order ih =>
    rw [followOrder] at h
    split at h
    · rename_i hok
      obtain ⟨A', hrun, hrest⟩ := Option.bind_eq_some_iff.mp h
      exact .head (hR hok.1 (List.isPerm_iff.mp hok.2.1) hok.2.2 hrun) (ih hrest)
    · cases h

theorem anyRun_of_followOrder {order : List (ℕ × List ℕ)} {A : Analysis}
    (h : followOrder cfg text textOffset blocks (fun _ _ => true) order (Analysis.init cfg) = some A) :
    AnyRun merlinDecoder cfg text textOffset blocks A :=
  followOrder_run (fun hmem hperm _ hrun => ⟨_, _, hmem, hperm, hrun⟩) h

instance (A : Analysis) (i : ℕ) : Decidable (SafeVisit cfg text textOffset blocks A i) :=
  match h : blocks[i]? with
  | none => .isTrue (by simp [SafeVisit, h])
  | some b => decidable_of_iff (BlockSafe merlinDecoder cfg text textOffset
      (blockOffsets text textOffset b) (A.entryState i) 0) (by simp [SafeVisit, h])

theorem safeRun_of_followOrder {order : List (ℕ × List ℕ)} {A : Analysis}
    (h : followOrder cfg text textOffset blocks
      (fun A i => decide (SafeVisit cfg text textOffset blocks A i)) order (Analysis.init cfg) = some A) :
    SafeRun cfg text textOffset blocks A :=
  followOrder_run (fun hmem hperm hsafe hrun => ⟨_, _, hmem, hperm, of_decide_eq_true hsafe, hrun⟩) h

end Orders

section Verdict

variable {text : Text} {textOffset : BitVec 32} {cfg : VerifierCfg} {G : Cfg} {A B : Analysis}

theorem gateRejects_congr (h : ∀ k, A.loopHeaderOk k = true ↔ B.loopHeaderOk k = true) :
    gateRejects G A = gateRejects G B := by
  have heq : A.loopHeaderOk = B.loopHeaderOk := by
    funext k
    exact Bool.eq_iff_iff.mpr (h k)
  simp only [gateRejects, heq]

theorem SafeRun.accepts (hb : merlinCfgBuild merlinDecoder text textOffset = .ok G) (hfitA : A.CountFits)
    (hfitB : B.CountFits) (hA : SafeRun cfg text textOffset G.blocks A) (hqA : A.queue = [])
    (hB : SafeRun cfg text textOffset G.blocks B) (hqB : B.queue = []) (hacc : verdict G A = .ok) :
    verdict G B = .ok := by
  obtain ⟨-, hsize, -⟩ := merlinCfgBuild_eq_ok.mp hb
  have hltA := hfitA.steps_lt
  have hltB := hfitB.steps_lt
  obtain ⟨hrej, hgate⟩ := (verdict_eq_ok_iff hb hfitA hA.anyRun).mp hacc
  have hBA := hB.below hsize hltA hA.anyRun hqA hrej hltB
  have hAB := hA.below hsize hltB hB.anyRun hqB hBA.rejected hltA
  rw [verdict_eq_ok_iff hb hfitB hB.anyRun]
  exact ⟨hBA.rejected, by rw [← hgate, gateRejects_congr fun k => ⟨hBA.marks k, hAB.marks k⟩]⟩

/-- The verdict does not depend on the order in which safe runs empty the worklist. -/
theorem verdict_eq_of_safeRun (hb : merlinCfgBuild merlinDecoder text textOffset = .ok G)
    (hfitA : A.CountFits) (hfitB : B.CountFits) (hA : SafeRun cfg text textOffset G.blocks A) (hqA : A.queue = [])
    (hB : SafeRun cfg text textOffset G.blocks B) (hqB : B.queue = []) :
    verdict G A = verdict G B := by
  cases hvA : verdict G A with
  | ok => exact (hA.accepts hb hfitA hfitB hqA hB hqB hvA).symm
  | reject =>
    cases hvB : verdict G B with
    | reject => rfl
    | ok =>
      rw [hB.accepts hb hfitB hfitA hqB hA hqA hvB] at hvA
      cases hvA

/-- `li a7, 0x110; beqz a0, 1f; li x5, 1; 1: ecall; ret`: one way around to a call. -/
def skipText : Text := ofWords [0x11000893, 0x00050463, 0x00100293, 0x00000073, 0x00008067]

/-- The call is visited before or after the block that the branch skips. -/
theorem skipText_verdict_eq : ∃ G A B, merlinCfgBuild merlinDecoder skipText 0x40 = .ok G ∧
    SafeRun merlinVerifierCfgInitForMvdp skipText 0x40 G.blocks A ∧ A.queue = [] ∧ A.steps = 7 ∧
    SafeRun merlinVerifierCfgInitForMvdp skipText 0x40 G.blocks B ∧ B.queue = [] ∧ B.steps = 5 ∧
    verdict G A = verdict G B := by
  obtain ⟨G, hb, hP⟩ : ∃ G, merlinCfgBuild merlinDecoder skipText 0x40 = .ok G ∧ (_ : Bool) = true :=
    exists_of_buildsWith (P := fun G =>
      let run := fun order => followOrder merlinVerifierCfgInitForMvdp skipText 0x40 G.blocks
        (fun A i => decide (SafeVisit merlinVerifierCfgInitForMvdp skipText 0x40 G.blocks A i)) order
        (Analysis.init merlinVerifierCfgInitForMvdp)
      ((run [(0, [1, 2]), (2, []), (1, [2]), (2, [])]).any fun A => A.queue = [] && A.steps = 7) &&
        (run [(0, [2, 1]), (1, [2]), (2, [])]).any fun A => A.queue = [] && A.steps = 5)
      (by decide +kernel)
  simp only [Bool.and_eq_true, Option.any_eq_true, decide_eq_true_iff] at hP
  obtain ⟨⟨A, hA, hqA, hsA⟩, B, hB, hqB, hsB⟩ := hP
  have hA := safeRun_of_followOrder hA
  have hB := safeRun_of_followOrder hB
  have hfitA : A.CountFits := by
    rw [Analysis.CountFits, hsA]
    decide
  have hfitB : B.CountFits := by
    rw [Analysis.CountFits, hsB]
    decide
  exact ⟨G, A, B, hb, hA, hqA, hsA, hB, hqB, hsB, verdict_eq_of_safeRun hb hfitA hfitB hA hqA hB hqB⟩

/-- The verdict is the same under every order when no order exceeds the step cap. -/
def OrderIndependent (cfg : VerifierCfg) (text : Text) (textOffset : BitVec 32) : Prop :=
  ∀ G, merlinCfgBuild merlinDecoder text textOffset = .ok G → NeverCapped cfg text textOffset G.blocks →
    ∀ A B, AnyRun merlinDecoder cfg text textOffset G.blocks A →
      AnyRun merlinDecoder cfg text textOffset G.blocks B → A.queue = [] → B.queue = [] →
        verdict G A = verdict G B

/-- `beqz a0, 1f; j 2f; 1: li a7, 0x101; 2: ecall; ret`: a call whose id only one path sets. -/
def halfSetText : Text := ofWords [0x00050463, 0x0080006f, 0x10100893, 0x00000073, 0x00008067]

/-- As coded the text is accepted; with the successors pushed in the opposite order the call is
visited while `a7` is `Uninit`. -/
theorem halfSetText_not_orderIndependent :
    Accepted halfSetText 0x40 merlinVerifierCfgInitForMvdp ∧
      ¬ OrderIndependent merlinVerifierCfgInitForMvdp halfSetText 0x40 := by
  refine ⟨⟨10, by decide +kernel⟩, fun hlaw => ?_⟩
  obtain ⟨G, hb, hP⟩ : ∃ G, merlinCfgBuild merlinDecoder halfSetText 0x40 = .ok G ∧ (_ : Bool) = true :=
    exists_of_buildsWith (P := fun G =>
      let run := fun order => followOrder merlinVerifierCfgInitForMvdp halfSetText 0x40 G.blocks
        (fun _ _ => true) order (Analysis.init merlinVerifierCfgInitForMvdp)
      everyOrderEnds merlinVerifierCfgInitForMvdp halfSetText 0x40 G.blocks 12
          (Analysis.init merlinVerifierCfgInitForMvdp) &&
        ((run [(0, [1, 2]), (2, [3]), (3, []), (1, [3])]).any fun A =>
          A.queue = [] && verdict G A = .ok) &&
        (run [(0, [2, 1]), (1, [3]), (3, []), (2, [3]), (3, [])]).any fun B =>
          B.queue = [] && verdict G B = .reject)
      (by decide +kernel)
  simp only [Bool.and_eq_true, Option.any_eq_true, decide_eq_true_iff] at hP
  obtain ⟨⟨hends, A, hA, hqA, hvA⟩, B, hB, hqB, hvB⟩ := hP
  have hsame := hlaw G hb (neverCapped_of_everyOrderEnds hends) A B (anyRun_of_followOrder hA)
    (anyRun_of_followOrder hB) hqA hqB
  rw [hvA, hvB] at hsame
  cases hsame

end Verdict

end MerlinV
