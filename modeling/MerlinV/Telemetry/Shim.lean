import Mathlib.Tactic
import Mathlib.Data.BitVec

/-! # The dispatch shim and its counters

`tools/merlin-telemetry/shim.c`: a program is run through `merlin_prog_invoke`, which keeps the
counter block of `merlin/stats.h`.  The clock is read by the caller here, and the program keeps what
it likes between two calls.  The rendering of the block is left out.
-/
namespace MerlinV

abbrev statsVerdicts : ℕ := 8

def statsSize : BitVec 32 := 152

/-- `struct merlin_prog_stats_v1`; the padding and the reserved words stay zero. -/
structure ProgStats where
  size : BitVec 32 := 0
  runCount : BitVec 64 := 0
  runNsTotal : BitVec 64 := 0
  verdictCount : Fin statsVerdicts → BitVec 64 := fun _ => 0
  helperCallCount : BitVec 64 := 0
  helperFaultCount : BitVec 64 := 0
  verifierLoadNs : BitVec 64 := 0
  lastRunTimeNs : BitVec 64 := 0

/-- `struct merlin_prog`.  The program maps what it kept and its context to the value it returns and
what it keeps. -/
structure TelemetryProg (σ Ctx : Type) where
  fn : σ → Ctx → BitVec 64 × σ
  stats : ProgStats
  verifierLoadNs : BitVec 64
  progId : BitVec 32
  progName : List (BitVec 8)

section Shim

variable {σ Ctx : Type}

/-- `merlin_prog_init`; the name is cut to the 31 bytes in front of its terminator. -/
def merlinProgInit (fn : σ → Ctx → BitVec 64 × σ) (progId : BitVec 32) (name : Option (List (BitVec 8)))
    (verifierLoadNs : BitVec 64) : TelemetryProg σ Ctx where
  fn := fn
  stats := { size := statsSize, verifierLoadNs := verifierLoadNs }
  verifierLoadNs := verifierLoadNs
  progId := progId
  progName := (name.getD []).take 31

/-- The slot of a returned value: the value is cut to an `unsigned` before it is compared. -/
def verdictSlot (ret : BitVec 64) : Fin statsVerdicts :=
  if h : (ret.setWidth 32).toNat < statsVerdicts then ⟨(ret.setWidth 32).toNat, h⟩ else 0

def ProgStats.noteRun (s : ProgStats) (ret t0 t1 : BitVec 64) : ProgStats :=
  { s with
    runCount := s.runCount + 1#64
    runNsTotal := s.runNsTotal + (if t1 ≥ t0 then t1 - t0 else 0)
    lastRunTimeNs := t1
    verdictCount := Function.update s.verdictCount (verdictSlot ret) (s.verdictCount (verdictSlot ret) + 1#64) }

def ProgStats.noteHelper (s : ProgStats) (isFault : BitVec 32) : ProgStats :=
  { s with
    helperCallCount := s.helperCallCount + 1#64
    helperFaultCount := if isFault ≠ 0 then s.helperFaultCount + 1#64 else s.helperFaultCount }

/-- A call into the shim; an invocation comes with the two readings of the clock. -/
inductive ShimCall (Ctx : Type) where
  | invoke (ctx : Ctx) (t0 t1 : BitVec 64)
  | noteHelper (isFault : BitVec 32)

def merlinProgInvoke (prog : TelemetryProg σ Ctx) (kept : σ) (ctx : Ctx) (t0 t1 : BitVec 64) :
    BitVec 64 × σ × TelemetryProg σ Ctx :=
  let (ret, kept') := prog.fn kept ctx
  (ret, kept', { prog with stats := prog.stats.noteRun ret t0 t1 })

def merlinProgNoteHelper (prog : TelemetryProg σ Ctx) (isFault : BitVec 32) : TelemetryProg σ Ctx :=
  { prog with stats := prog.stats.noteHelper isFault }

def shimRun (prog : TelemetryProg σ Ctx) (kept : σ) :
    List (ShimCall Ctx) → TelemetryProg σ Ctx × List (BitVec 64)
  | [] => (prog, [])
  | .invoke ctx t0 t1 :: calls =>
    let (ret, kept', prog') := merlinProgInvoke prog kept ctx t0 t1
    let (prog'', rets) := shimRun prog' kept' calls
    (prog'', ret :: rets)
  | .noteHelper isFault :: calls => shimRun (merlinProgNoteHelper prog isFault) kept calls

def helperCalls : List (ShimCall Ctx) → List Bool
  | [] => []
  | .invoke _ _ _ :: calls => helperCalls calls
  | .noteHelper isFault :: calls => (isFault ≠ 0) :: helperCalls calls

/-- The counters of a run are exact. -/
structure Accounted (stats : ProgStats) (rets : List (BitVec 64)) : Prop where
  verdicts : ∀ i : Fin statsVerdicts, i ≠ 0 → (stats.verdictCount i).toNat = rets.count (BitVec.ofNat 64 i)
  others : (stats.verdictCount 0).toNat = rets.countP fun ret => ret.toNat = 0 ∨ statsVerdicts ≤ ret.toNat
  total : ∑ i, (stats.verdictCount i).toNat = stats.runCount.toNat
  faults : stats.helperFaultCount.toNat ≤ stats.helperCallCount.toNat

end Shim

section Counting

variable {σ Ctx : Type}

/-- The counters behind a run, in the words of the machine. -/
structure Counted (s s' : ProgStats) (rets : List (BitVec 64)) (helpers : List Bool) : Prop where
  runs : s'.runCount = s.runCount + BitVec.ofNat 64 rets.length
  verdicts : ∀ i, s'.verdictCount i =
    s.verdictCount i + BitVec.ofNat 64 (rets.countP fun ret => verdictSlot ret = i)
  helperCalls : s'.helperCallCount = s.helperCallCount + BitVec.ofNat 64 helpers.length
  helperFaults : s'.helperFaultCount = s.helperFaultCount + BitVec.ofNat 64 (helpers.count true)

theorem Counted.refl (s : ProgStats) : Counted s s [] [] := by
  constructor <;> simp

theorem Counted.noteRun {s s' : ProgStats} {rets : List (BitVec 64)} {helpers : List Bool} {ret t0 t1 : BitVec 64}
    (h : Counted (s.noteRun ret t0 t1) s' rets helpers) : Counted s s' (ret :: rets) helpers where
  runs := by
    rw [h.runs, List.length_cons, BitVec.ofNat_add]
    simp only [ProgStats.noteRun]
    ac_rfl
  verdicts i := by
    rw [h.verdicts i, List.countP_cons, BitVec.ofNat_add]
    by_cases hi : verdictSlot ret = i
    · subst hi
      simp only [ProgStats.noteRun, Function.update_self, decide_true, if_true]
      ac_rfl
    · simp [ProgStats.noteRun, Function.update_of_ne (Ne.symm hi), hi]
  helperCalls := h.helperCalls
  helperFaults := h.helperFaults

theorem Counted.noteHelper {s s' : ProgStats} {rets : List (BitVec 64)} {helpers : List Bool} {isFault : BitVec 32}
    (h : Counted (s.noteHelper isFault) s' rets helpers) :
    Counted s s' rets ((isFault ≠ 0) :: helpers) where
  runs := h.runs
  verdicts := h.verdicts
  helperCalls := by
    rw [h.helperCalls, List.length_cons, BitVec.ofNat_add]
    simp only [ProgStats.noteHelper]
    ac_rfl
  helperFaults := by
    rw [h.helperFaults, List.count_cons, BitVec.ofNat_add]
    by_cases hf : isFault = 0
    · simp [ProgStats.noteHelper, hf]
    · simp only [ProgStats.noteHelper, ne_eq, hf, not_false_eq_true, if_true, decide_true, beq_self_eq_true]
      ac_rfl

theorem shimRun_counted (prog : TelemetryProg σ Ctx) (kept : σ) (calls : List (ShimCall Ctx)) :
    Counted prog.stats (shimRun prog kept calls).1.stats (shimRun prog kept calls).2 (helperCalls calls) := by
  induction calls generalizing prog kept with
  | nil => exact .refl _
  | cons call calls ih =>
    cases call with
    | invoke ctx t0 t1 =>
      exact (ih (merlinProgInvoke prog kept ctx t0 t1).2.2 (merlinProgInvoke prog kept ctx t0 t1).2.1).noteRun
    | noteHelper isFault => exact (ih (merlinProgNoteHelper prog isFault) kept).noteHelper

theorem shimRun_length_le (prog : TelemetryProg σ Ctx) (kept : σ) (calls : List (ShimCall Ctx)) :
    (shimRun prog kept calls).2.length ≤ calls.length ∧ (helperCalls calls).length ≤ calls.length := by
  induction calls generalizing prog kept with
  | nil => exact ⟨le_rfl, le_rfl⟩
  | cons call calls ih =>
    cases call with
    | invoke ctx t0 t1 =>
      obtain ⟨h₁, h₂⟩ := ih (merlinProgInvoke prog kept ctx t0 t1).2.2
        (merlinProgInvoke prog kept ctx t0 t1).2.1
      exact ⟨Nat.succ_le_succ h₁, h₂.trans (Nat.le_succ _)⟩
    | noteHelper isFault =>
      obtain ⟨h₁, h₂⟩ := ih (merlinProgNoteHelper prog isFault) kept
      exact ⟨h₁.trans (Nat.le_succ _), Nat.succ_le_succ h₂⟩

theorem sum_countP_verdictSlot (rets : List (BitVec 64)) :
    ∑ i, rets.countP (fun ret => verdictSlot ret = i) = rets.length := by
  induction rets with
  | nil => simp
  | cons ret rets ih =>
    simp only [List.countP_cons, Finset.sum_add_distrib, ih, List.length_cons, decide_eq_true_eq]
    rw [Finset.sum_ite_eq Finset.univ (verdictSlot ret) fun _ => 1]
    simp

end Counting

section Slots

/-- The value is counted where its full width says. -/
def KeepsVerdict (ret : BitVec 64) : Prop :=
  (ret.setWidth 32).toNat = 0 ∨ statsVerdicts ≤ (ret.setWidth 32).toNat ∨ ret.toNat < 2 ^ 32

theorem verdictSlot_eq_iff {ret : BitVec 64} {i : Fin statsVerdicts} (hi : i ≠ 0) :
    verdictSlot ret = i ↔ (ret.setWidth 32).toNat = i := by
  unfold verdictSlot
  split
  · rw [Fin.ext_iff]
  · rename_i hbig
    constructor
    · intro h
      exact absurd h.symm hi
    · intro h
      exact absurd (h ▸ i.isLt) hbig

theorem verdictSlot_of_eq {ret : BitVec 64} {i : Fin statsVerdicts} (hi : i ≠ 0) (h : ret = BitVec.ofNat 64 i) :
    verdictSlot ret = i := by
  have hlt : i.val < 8 := i.isLt
  rw [verdictSlot_eq_iff hi, h, BitVec.toNat_setWidth, BitVec.toNat_ofNat]
  omega

theorem verdictSlot_of_keeps {ret : BitVec 64} (hk : KeepsVerdict ret) {i : Fin statsVerdicts} (hi : i ≠ 0) :
    verdictSlot ret = i ↔ ret = BitVec.ofNat 64 i := by
  refine ⟨fun h => ?_, verdictSlot_of_eq hi⟩
  have hlt : i.val < 8 := i.isLt
  have hpos : i.val ≠ 0 := fun h0 => hi (Fin.ext h0)
  simp only [KeepsVerdict, statsVerdicts] at hk
  rw [verdictSlot_eq_iff hi] at h
  have hfull : ret.toNat < 2 ^ 32 := by
    rcases hk with h' | h' | h'
    · omega
    · omega
    · exact h'
  rw [BitVec.toNat_setWidth, Nat.mod_eq_of_lt hfull] at h
  apply BitVec.eq_of_toNat_eq
  rw [BitVec.toNat_ofNat, h]
  omega

theorem verdictSlot_zero_of_keeps {ret : BitVec 64} (hk : KeepsVerdict ret) :
    verdictSlot ret = 0 ↔ ret.toNat = 0 ∨ statsVerdicts ≤ ret.toNat := by
  have hmod := BitVec.toNat_setWidth 32 ret
  simp only [KeepsVerdict, statsVerdicts] at hk
  simp only [verdictSlot, statsVerdicts]
  split
  · rename_i hsmall
    rw [Fin.ext_iff]
    change (ret.setWidth 32).toNat = 0 ↔ ret.toNat = 0 ∨ 8 ≤ ret.toNat
    omega
  · rename_i hbig
    simp only [true_iff]
    omega

theorem forall_of_countP_eq {α : Type} {p q : α → Bool} {l : List α}
    (hpq : ∀ a ∈ l, p a = true → q a = true) (h : l.countP p = l.countP q) : ∀ a ∈ l, q a = true → p a = true := by
  induction l with
  | nil => simp
  | cons b l ih =>
    have hle := List.countP_mono_left fun a ha => hpq a (List.mem_cons_of_mem b ha)
    have hb := hpq b List.mem_cons_self
    rw [List.countP_cons, List.countP_cons] at h
    intro a ha hq
    rcases List.mem_cons.mp ha with rfl | ha
    · by_contra hp
      rw [if_neg hp, if_pos hq] at h
      omega
    · refine ih (fun a ha => hpq a (List.mem_cons_of_mem b ha)) ?_ a ha hq
      by_cases hp : p b = true
      · rw [if_pos hp, if_pos (hb hp)] at h
        omega
      · rw [if_neg hp] at h
        omega

/-- Slots that count their own verdicts and nothing else leave only such values. -/
theorem keepsVerdict_of_countP {rets : List (BitVec 64)}
    (h : ∀ i : Fin statsVerdicts, i ≠ 0 →
      (rets.countP fun ret => verdictSlot ret = i) = rets.count (BitVec.ofNat 64 i)) :
    ∀ ret ∈ rets, KeepsVerdict ret := by
  intro ret hret
  by_contra hk
  unfold KeepsVerdict at hk
  rw [not_or, not_or] at hk
  obtain ⟨hpos, hsmall, hbig⟩ := hk
  have hi : (⟨(ret.setWidth 32).toNat, not_le.mp hsmall⟩ : Fin statsVerdicts) ≠ 0 :=
    fun h0 => hpos (Fin.ext_iff.mp h0)
  have hsame := h _ hi
  rw [List.count_eq_countP] at hsame
  have hfull := forall_of_countP_eq (fun ret' _ heq => by simpa using verdictSlot_of_eq hi (by simpa using heq))
    hsame.symm ret hret (by simpa using (verdictSlot_eq_iff hi).mpr rfl)
  have heq : ret = BitVec.ofNat 64 (ret.setWidth 32).toNat := by simpa using hfull
  have hlow : (ret.setWidth 32).toNat < 2 ^ 32 := (ret.setWidth 32).isLt
  rw [heq, BitVec.toNat_ofNat] at hbig
  omega

end Slots

/-- The counters of a run are exact if and only if no invocation returns a value whose low half is a
verdict other than zero and whose high half is not zero. -/
theorem shim_accounted_iff {σ Ctx : Type} (fn : σ → Ctx → BitVec 64 × σ) (progId : BitVec 32)
    (name : Option (List (BitVec 8))) (loadNs : BitVec 64) (kept : σ) (calls : List (ShimCall Ctx))
    (hlen : calls.length < 2 ^ 64) :
    Accounted (shimRun (merlinProgInit fn progId name loadNs) kept calls).1.stats
        (shimRun (merlinProgInit fn progId name loadNs) kept calls).2 ↔
      ∀ ret ∈ (shimRun (merlinProgInit fn progId name loadNs) kept calls).2, KeepsVerdict ret := by
  have hcount := shimRun_counted (merlinProgInit fn progId name loadNs) kept calls
  obtain ⟨hrets, hhelpers⟩ := shimRun_length_le (merlinProgInit fn progId name loadNs) kept calls
  generalize shimRun (merlinProgInit fn progId name loadNs) kept calls = out at hcount hrets ⊢
  obtain ⟨prog, rets⟩ := out
  -- below the width of the counters each of them is the number itself
  have hnat : ∀ {n : ℕ}, n ≤ calls.length → (0#64 + BitVec.ofNat 64 n).toNat = n := by
    intro n hn
    rw [BitVec.zero_add, BitVec.toNat_ofNat, Nat.mod_eq_of_lt (hn.trans_lt hlen)]
  have hslot : ∀ i, (prog.stats.verdictCount i).toNat = rets.countP fun ret => verdictSlot ret = i := by
    intro i
    rw [hcount.verdicts i]
    exact hnat (List.countP_le_length.trans hrets)
  have hruns : prog.stats.runCount.toNat = rets.length := by
    rw [hcount.runs]
    exact hnat hrets
  constructor
  · intro hacc
    refine keepsVerdict_of_countP fun i hi => ?_
    rw [← hslot]
    exact hacc.verdicts i hi
  · intro hall
    refine ⟨fun i hi => ?_, ?_, ?_, ?_⟩
    · rw [hslot, List.count_eq_countP]
      refine List.countP_congr fun ret hret => ?_
      simpa using verdictSlot_of_keeps (hall ret hret) hi
    · rw [hslot]
      refine List.countP_congr fun ret hret => ?_
      simpa using verdictSlot_zero_of_keeps (hall ret hret)
    · simp only [hslot, hruns, sum_countP_verdictSlot]
    · rw [hcount.helperFaults, hcount.helperCalls]
      have hfaults : (helperCalls calls).count true ≤ (helperCalls calls).length := List.count_le_length
      rw [show (merlinProgInit fn progId name loadNs).stats.helperFaultCount = 0#64 from rfl,
        show (merlinProgInit fn progId name loadNs).stats.helperCallCount = 0#64 from rfl,
        hnat (hfaults.trans hhelpers), hnat hhelpers]
      exact hfaults

def echoFn : Unit → BitVec 64 → BitVec 64 × Unit := fun _ ctx => (ctx, ())

/-- Two invocations around a helper call that failed. -/
def echoCalls : List (ShimCall (BitVec 64)) := [.invoke 3 0 5, .noteHelper 1, .invoke 0x10000000000 6 9]

theorem shim_accounted_echo :
    Accounted (shimRun (merlinProgInit echoFn 1 none 0) () echoCalls).1.stats
      (shimRun (merlinProgInit echoFn 1 none 0) () echoCalls).2 := by
  refine (shim_accounted_iff echoFn 1 none 0 () echoCalls (by decide)).mpr ?_
  change ∀ ret ∈ [3#64, 0x10000000000#64], KeepsVerdict ret
  simp [KeepsVerdict]

/-- A return value of `2^32 + 1` is counted as verdict 1. -/
theorem echo_high_half_counted :
    ¬Accounted (shimRun (merlinProgInit echoFn 1 none 0) () [.invoke 0x100000001 0 5]).1.stats
      (shimRun (merlinProgInit echoFn 1 none 0) () [.invoke 0x100000001 0 5]).2 := by
  intro h
  exact absurd (h.verdicts 1 (by decide)) (by decide)

end MerlinV
