import MerlinV.Cfg.Build
import MerlinV.Lib.Fallible

/-! # The layout of the blocks

A successful build cuts the instructions `0, …, n - 1` at the leaders: there is a strictly
increasing sequence `bound` with block `i` made of the instructions from `bound i` up to
`bound (i + 1)`.  A control transfer is always the last instruction of its block, so the
wiring of a block is that of its last instruction.
-/
namespace MerlinV

variable {D : Decoder} {text : Text} {textOffset : BitVec 32}

def IsCtrlAt (D : Decoder) (text : Text) (i : ℕ) : Prop :=
  ∃ insn, cfgInsn D text (4 * i) = some insn ∧ insn.isCtrl = true

theorem Insn.isCtrl_iff {insn : Insn} :
    insn.isCtrl = true ↔ insn.cls = .branch ∨ insn.cls = .jal ∨ insn.cls = .jalr := by
  simp [Insn.isCtrl, or_assoc]

section Leaders

theorem leaderSet_apply (bm : LeaderMap) (i j : ℕ) :
    leaderSet bm i j = true ↔ j = i ∨ bm j = true := by
  by_cases h : j = i
  · subst h
    simp [leaderSet]
  · simp [leaderSet, h]

theorem leaderSetNext_of_leader {bm : LeaderMap} {off j : ℕ} (h : bm j = true) :
    leaderSetNext text off bm j = true := by
  unfold leaderSetNext
  split
  · exact (leaderSet_apply _ _ _).mpr (.inr h)
  · exact h

theorem leaderSetNext_next {bm : LeaderMap} {i : ℕ} (h : 4 * (i + 1) < text.length) :
    leaderSetNext text (4 * i) bm (i + 1) = true := by
  have hq : (4 * i + 4) / 4 = i + 1 := by omega
  rw [leaderSetNext, if_pos (by omega), hq]
  exact (leaderSet_apply _ _ _).mpr (.inl rfl)

/-- What instruction `i` demands of the leader map. -/
structure Marked (D : Decoder) (text : Text) (bm : LeaderMap) (i : ℕ) : Prop where
  next : IsCtrlAt D text i → 4 * (i + 1) < text.length → bm (i + 1) = true
  target : ∀ insn, cfgInsn D text (4 * i) = some insn → insn.cls = .branch ∨ insn.cls = .jal →
    0 ≤ jumpTarget (4 * i) insn ∧ (jumpTarget (4 * i) insn).toNat < text.length ∧
      bm ((jumpTarget (4 * i) insn).toNat / 4) = true

theorem Marked.mono {bm bm' : LeaderMap} {i : ℕ} (h : Marked D text bm i)
    (hle : ∀ j, bm j = true → bm' j = true) : Marked D text bm' i where
  next hc hn := hle _ (h.next hc hn)
  target insn hi hcls := by
    obtain ⟨h₁, h₂, h₃⟩ := h.target insn hi hcls
    exact ⟨h₁, h₂, hle _ h₃⟩

theorem leaderSetJump_spec {bm bm' : LeaderMap} {i : ℕ} {insn : Insn} {reason : String}
    (hi : cfgInsn D text (4 * i) = some insn)
    (h : leaderSetJump text (4 * i) insn reason bm = .ok bm') :
    (∀ j, bm j = true → bm' j = true) ∧ Marked D text bm' i := by
  simp only [leaderSetJump] at h
  split at h
  · cases h
  · rename_i hin
    cases h
    rw [not_or, not_lt, not_le] at hin
    refine ⟨fun j hj => leaderSetNext_of_leader ((leaderSet_apply _ _ _).mpr (.inr hj)),
      fun _ hn => leaderSetNext_next hn, fun insn' hi' _ => ?_⟩
    obtain rfl : insn = insn' := by simpa [hi] using hi'
    exact ⟨hin.1, hin.2, leaderSetNext_of_leader ((leaderSet_apply _ _ _).mpr (.inl rfl))⟩

theorem leaderStep_spec {bm bm' : LeaderMap} {i : ℕ} (h : leaderStep D text bm i = .ok bm') :
    (∀ j, bm j = true → bm' j = true) ∧ Marked D text bm' i := by
  unfold leaderStep at h
  split at h
  · rename_i hi
    cases h
    refine ⟨fun _ h => h, fun hc => ?_, fun insn hi' => ?_⟩
    · obtain ⟨insn, hi', -⟩ := hc
      simp [hi] at hi'
    · simp [hi] at hi'
  · rename_i insn hi
    split at h
    · exact leaderSetJump_spec hi h
    · exact leaderSetJump_spec hi h
    · rename_i hcls
      cases h
      refine ⟨fun j hj => leaderSetNext_of_leader hj, fun _ hn => leaderSetNext_next hn,
        fun insn' hi' hcls' => ?_⟩
      obtain rfl : insn = insn' := by simpa [hi] using hi'
      simp [hcls] at hcls'
    · rename_i h₁ h₂ h₃
      cases h
      refine ⟨fun _ h => h, fun hc => ?_, fun insn' hi' hcls' => ?_⟩
      · obtain ⟨insn', hi', hctrl⟩ := hc
        obtain rfl : insn = insn' := by simpa [hi] using hi'
        rcases Insn.isCtrl_iff.mp hctrl with hc | hc | hc
        exacts [(h₁ hc).elim, (h₂ hc).elim, (h₃ hc).elim]
      · obtain rfl : insn = insn' := by simpa [hi] using hi'
        rcases hcls' with hc | hc
        exacts [(h₁ hc).elim, (h₂ hc).elim]

/-- A successful leader pass marks instruction 0, every jump target and every instruction after
a control transfer. -/
theorem cfgFindLeaders_spec {leader : LeaderMap} (h : cfgFindLeaders D text = .ok leader) :
    leader 0 = true ∧ ∀ i < text.length / 4, Marked D text leader i := by
  refine Lib.foldlM_range_inv (fun k bm => bm 0 = true ∧ ∀ i < k, Marked D text bm i) ?_ ?_ h
  · exact ⟨(leaderSet_apply _ _ _).mpr (.inl rfl), by simp⟩
  · rintro k - bm bm' ⟨h0, hm⟩ hstep
    obtain ⟨hle, hk⟩ := leaderStep_spec hstep
    refine ⟨hle 0 h0, fun i hi => ?_⟩
    rcases Nat.lt_succ_iff_lt_or_eq.mp hi with hi | rfl
    · exact (hm i hi).mono hle
    · exact hk

end Leaders

section Layout

/-- The block of the instructions `s, …, k - 1` before its successors are looked up. -/
def segBlock (D : Decoder) (text : Text) (textOffset : BitVec 32) (s k : ℕ) : Block :=
  wireSuccs text textOffset (4 * (k - 1))
    ⟨pcAt textOffset (4 * s), pcAt textOffset (4 * (k - 1)), k - s, none, none, 0, 0, false⟩
    (cfgInsn D text (4 * (k - 1)))

/-- `blocks` cuts the instructions `0, …, n - 1` at the leaders, at the positions `bound`. -/
structure Layout (D : Decoder) (text : Text) (textOffset : BitVec 32) (leader : LeaderMap)
    (n : ℕ) (blocks : List Block) (bound : ℕ → ℕ) : Prop where
  zero : bound 0 = 0
  last : bound blocks.length = n
  lt : ∀ i < blocks.length, bound i < bound (i + 1)
  isLeader : ∀ i < blocks.length, leader (bound i) = true
  inner : ∀ i < blocks.length, ∀ j, bound i < j → j < bound (i + 1) → leader j = false
  get : ∀ i < blocks.length,
    blocks[i]? = some (segBlock D text textOffset (bound i) (bound (i + 1)))

theorem wireSuccs_of_not_ctrl {off : ℕ} {b : Block} {insn? : Option Insn}
    (h : ∀ insn, insn? = some insn → insn.isCtrl = false) :
    wireSuccs text textOffset off b insn? = b := by
  cases insn? with
  | none => rfl
  | some insn =>
    have hc := h insn rfl
    simp only [Insn.isCtrl, Bool.or_eq_false_iff, decide_eq_false_iff_not] at hc
    unfold wireSuccs
    split <;> simp_all

theorem Layout.open {leader : LeaderMap} {n : ℕ} {blocks : List Block} {bound : ℕ → ℕ}
    (h : Layout D text textOffset leader n blocks bound) (hl : leader n = true) :
    Layout D text textOffset leader (n + 1)
      (blocks ++ [segBlock D text textOffset n (n + 1)])
      (Function.update bound (blocks.length + 1) (n + 1)) where
  zero := by simpa using h.zero
  last := by simp
  lt i hi := by
    rcases Nat.lt_succ_iff_lt_or_eq.mp (by simpa using hi) with hi | rfl
    · have := h.lt i hi
      rw [Function.update_of_ne (by omega), Function.update_of_ne (by omega)]
      exact this
    · rw [Function.update_of_ne (by omega), Function.update_self, h.last]
      omega
  isLeader i hi := by
    rcases Nat.lt_succ_iff_lt_or_eq.mp (by simpa using hi) with hi | rfl
    · rw [Function.update_of_ne (by omega)]
      exact h.isLeader i hi
    · rw [Function.update_of_ne (by omega), h.last]
      exact hl
  inner i hi j h₁ h₂ := by
    rcases Nat.lt_succ_iff_lt_or_eq.mp (by simpa using hi) with hi | rfl
    · rw [Function.update_of_ne (by omega)] at h₁ h₂
      exact h.inner i hi j h₁ h₂
    · rw [Function.update_of_ne (by omega), h.last] at h₁
      rw [Function.update_self] at h₂
      omega
  get i hi := by
    rcases Nat.lt_succ_iff_lt_or_eq.mp (by simpa using hi) with hi | rfl
    · rw [Function.update_of_ne (by omega), Function.update_of_ne (by omega),
        List.getElem?_append_left hi]
      exact h.get i hi
    · rw [Function.update_of_ne (by omega), Function.update_self, h.last]
      simp

theorem Layout.extend {leader : LeaderMap} {n : ℕ} {blocks : List Block} {b : Block}
    {bound : ℕ → ℕ} (h : Layout D text textOffset leader n (blocks ++ [b]) bound)
    (hl : leader n = false) :
    Layout D text textOffset leader (n + 1)
      (blocks ++ [segBlock D text textOffset (bound blocks.length) (n + 1)])
      (Function.update bound (blocks.length + 1) (n + 1)) := by
  have hlen : (blocks ++ [b]).length = blocks.length + 1 := by simp
  have hlast : bound (blocks.length + 1) = n := by rw [← hlen]; exact h.last
  have hlt := h.lt blocks.length (by omega)
  rw [hlast] at hlt
  refine ⟨by simpa using h.zero, by simp, fun i hi => ?_, fun i hi => ?_, fun i hi j h₁ h₂ => ?_,
    fun i hi => ?_⟩ <;>
  rcases Nat.lt_succ_iff_lt_or_eq.mp (by simpa using hi) with hi | rfl
  · rw [Function.update_of_ne (by omega), Function.update_of_ne (by omega)]
    exact h.lt i (by omega)
  · rw [Function.update_of_ne (by omega), Function.update_self]
    omega
  · rw [Function.update_of_ne (by omega)]
    exact h.isLeader i (by omega)
  · rw [Function.update_of_ne (by omega)]
    exact h.isLeader _ (by omega)
  · rw [Function.update_of_ne (by omega)] at h₁ h₂
    exact h.inner i (by omega) j h₁ h₂
  · rw [Function.update_of_ne (by omega)] at h₁
    rw [Function.update_self] at h₂
    rcases Nat.lt_succ_iff_lt_or_eq.mp h₂ with h₂ | rfl
    · exact h.inner blocks.length (by omega) j h₁ (by rw [hlast]; exact h₂)
    · exact hl
  · have hg := h.get i (by omega)
    rw [List.getElem?_append_left hi] at hg
    rw [Function.update_of_ne (by omega), Function.update_of_ne (by omega),
      List.getElem?_append_left hi]
    exact hg
  · rw [Function.update_of_ne (by omega), Function.update_self]
    simp

theorem blockStep_leader {leader : LeaderMap} {n : ℕ} {rev rev' : List Block}
    (hl : leader n = true) (h : blockStep D text textOffset leader rev n = .ok rev') :
    rev' = segBlock D text textOffset n (n + 1) :: rev := by
  simp only [blockStep, hl, if_true, true_and] at h
  split at h
  · cases h
  · rw [← Except.ok.inj h]
    simp [segBlock]

theorem blockStep_inner {leader : LeaderMap} {n : ℕ} {rev rev' : List Block}
    (hl : leader n = false) (h : blockStep D text textOffset leader rev n = .ok rev') :
    ∃ b rest, rev = b :: rest ∧ rev' = wireSuccs text textOffset (4 * n)
      { b with endPc := pcAt textOffset (4 * n), insnCount := b.insnCount + 1 }
      (cfgInsn D text (4 * n)) :: rest := by
  simp only [blockStep, hl, Bool.false_eq_true, if_false, false_and] at h
  cases rev with
  | nil => cases h
  | cons b rest => exact ⟨b, rest, rfl, (Except.ok.inj h).symm⟩

/-- One iteration of the block pass extends the layout by one instruction. -/
theorem blockStep_layout {leader : LeaderMap} {n : ℕ} {rev rev' : List Block} {bound : ℕ → ℕ}
    (hctrl : ∀ i, i + 1 = n → IsCtrlAt D text i → leader n = true)
    (h : Layout D text textOffset leader n rev.reverse bound)
    (hstep : blockStep D text textOffset leader rev n = .ok rev') :
    ∃ bound', Layout D text textOffset leader (n + 1) rev'.reverse bound' := by
  cases hl : leader n with
  | true =>
    rw [blockStep_leader hl hstep, List.reverse_cons]
    exact ⟨_, h.open hl⟩
  | false =>
    obtain ⟨b, rest, rfl, rfl⟩ := blockStep_inner hl hstep
    rw [List.reverse_cons] at h ⊢
    have hlen : (rest.reverse ++ [b]).length = rest.reverse.length + 1 := by simp
    have hlast : bound (rest.reverse.length + 1) = n := by rw [← hlen]; exact h.last
    have hlt := h.lt rest.reverse.length (by omega)
    have hb := h.get rest.reverse.length (by omega)
    have hext := h.extend hl
    generalize bound rest.reverse.length = s at hlt hb hext
    rw [hlast] at hlt
    rw [List.getElem?_concat_length, hlast] at hb
    -- the instruction before a non-leader is no control transfer: it wired nothing
    have hraw : segBlock D text textOffset s n =
        ⟨pcAt textOffset (4 * s), pcAt textOffset (4 * (n - 1)), n - s, none, none, 0, 0,
          false⟩ := by
      apply wireSuccs_of_not_ctrl
      intro insn hi
      by_contra hc
      have := hctrl (n - 1) (by omega) ⟨insn, hi, by simpa using hc⟩
      rw [hl] at this
      cases this
    have hcount : n - s + 1 = n + 1 - s := by omega
    rw [Option.some.inj hb, hraw, hcount]
    exact ⟨_, hext⟩

end Layout

end MerlinV
