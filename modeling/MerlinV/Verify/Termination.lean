import MerlinV.Lib.Climbing
import MerlinV.Isa.KernelDecode
import MerlinV.Kernel.Verifier
import MerlinV.Verify.PostFixpoint

/-! # Both verifiers return

A visit of a block either changes the entry state of a successor, which then absorbs more states than before, or
it only takes the block off the worklist.  There are finitely many states, so the worklist loop ends for every
decoder and every step cap, in whatever order the blocks are taken.
-/
namespace MerlinV

section Finite

instance finiteBitVec (w : ℕ) : Finite (BitVec w) :=
  Finite.of_injective BitVec.toFin fun _ _ h => BitVec.toFin_inj.mp h

instance : Finite Tnum :=
  Finite.of_injective (fun t : Tnum => (t.value, t.mask)) (by
    rintro ⟨v, m⟩ ⟨v', m'⟩ h
    simpa using h)

instance : Finite Scalar :=
  Finite.of_injective (fun s : Scalar => (s.smin, s.smax, s.umin, s.umax, s.tn)) (by
    rintro ⟨a, b, c, d, t⟩ ⟨a', b', c', d', t'⟩ h
    simpa using h)

instance : Finite Rval :=
  Finite.of_injective
    (fun v : Rval => (match v with
      | .uninit => .inl none
      | .scalar s => .inl (some (.inl s))
      | .ptrCtx lo hi => .inl (some (.inr (.inl (lo, hi))))
      | .ptrStack lo hi => .inl (some (.inr (.inr (lo, hi))))
      | .ptrHelperRet id => .inr (.inl id)
      | .ptrKfuncSlot id => .inr (.inr id) :
        Option (Scalar ⊕ (Word × Word) ⊕ (Word × Word)) ⊕ (BitVec 32 ⊕ BitVec 32))) (by
    intro v w h
    cases v <;> cases w <;> simp_all)

instance : Finite VState :=
  Finite.of_injective (fun st : VState => (st.x, st.valid)) (by
    rintro ⟨x, v⟩ ⟨x', v'⟩ h
    simpa using h)

end Finite

namespace VState

/-- The states that a join into `st` does not change. -/
def absorbed (st : VState) : Set VState := {b | join st b = st}

variable {a b : VState}

theorem absorbed_join (a b : VState) : a.absorbed ⊆ (join a b).absorbed := fun _ hc => join_absorb b hc

theorem absorbed_ssubset (hb : b.Canonical) (h : join a b ≠ a) : a.absorbed ⊂ (join a b).absorbed :=
  (Set.ssubset_iff_of_subset (absorbed_join a b)).mpr ⟨b, join_join_self hb, h⟩

end VState

section Loop

variable {D : Decoder} {cfg : VerifierCfg} {text : Text} {textOffset : BitVec 32} {G : Cfg} {A A' : Analysis}

/-- What the entry states of the blocks absorb. -/
def Analysis.absorbed (n : ℕ) (A : Analysis) : Fin n → Set VState := fun i => (A.entryState i).absorbed

/-- A visit raises what the entry states absorb, or shortens the worklist. -/
theorem AnyStep.climbs (hb : merlinCfgBuild D text textOffset = .ok G) (hne : text ≠ [])
    (h : AnyRun D cfg text textOffset G.blocks A) (hs : AnyStep D cfg text textOffset G.blocks A A') :
    Lib.Climbs (Analysis.absorbed G.nblocks) (fun A => A.queue.length) A A' := by
  have hinv := h.workInv
  have hqueued := fun n => AnyRun.queued (A := A') hb hne (h.tail hs) (i := n)
  obtain ⟨i, succs, hmem, hperm, hrun⟩ := hs
  have hshort : (A.queue.erase i).length < A.queue.length := by
    have hlen := List.length_erase_of_mem hmem
    have hpos := List.length_pos_of_mem hmem
    omega
  rcases visitVia_cases (A := { A with queue := A.queue.erase i }) hinv.canonical hrun with
    ⟨rfl, -⟩ | ⟨b, -, -, hv⟩
  · exact .inr ⟨rfl, hshort⟩
  · have hout : (visitOut D cfg text textOffset { A with queue := A.queue.erase i } b i).st.Canonical :=
      blockOut_canonical (hinv.canonical i) 0
    have hentry := hv.entry
    generalize (visitOut D cfg text textOffset { A with queue := A.queue.erase i } b i).st = st at hout hentry
    have hgrow : Analysis.absorbed G.nblocks A ≤ Analysis.absorbed G.nblocks A' := by
      intro n
      change (A.entryState n).absorbed ⊆ (A'.entryState n).absorbed
      rw [hentry n]
      split
      · exact VState.absorbed_join _ _
      · exact subset_rfl
    by_cases hchange : ∃ n ∈ succs, A'.entryState n ≠ A.entryState n
    · obtain ⟨n, hn, hdiff⟩ := hchange
      have hlt := (hqueued n ((hv.queue n).mpr (.inr ⟨hn, hdiff⟩))).1
      have hjoin := hentry n
      rw [if_pos hn] at hjoin
      refine .inl (lt_of_le_of_ne hgrow fun heq => ?_)
      have hsame : (A.entryState n).absorbed = (A'.entryState n).absorbed := congrFun heq ⟨n, hlt⟩
      have hstrict := VState.absorbed_ssubset hout (by rw [← hjoin]; exact hdiff)
      rw [← hjoin, hsame] at hstrict
      exact hstrict.ne rfl
    · have hkeep : ∀ n, A'.entryState n = A.entryState n := by
        intro n
        by_cases hn : n ∈ succs
        · by_contra hdiff
          exact hchange ⟨n, hn, hdiff⟩
        · rw [hentry n, if_neg hn]
      have hsub : A'.queue ⊆ A.queue.erase i := by
        intro n hn
        rcases (hv.queue n).mp hn with hq | ⟨-, hdiff⟩
        · exact hq
        · exact absurd (hkeep n) hdiff
      have hle := ((hv.nodup (hinv.nodup.erase i)).subperm hsub).length_le
      refine .inr ⟨?_, lt_of_le_of_lt hle hshort⟩
      funext n
      exact congrArg VState.absorbed (hkeep n).symm

theorem exists_loopEnd (hb : merlinCfgBuild D text textOffset = .ok G) (hne : text ≠ [])
    (h : CodedRun D cfg text textOffset G.blocks A) :
    ∃ fuel r, verifyLoop D cfg text textOffset G.blocks fuel A = some r := by
  have hwf := @Lib.climbs_wellFounded Analysis _ _ (Analysis.absorbed G.nblocks) (fun A => A.queue.length) _
  induction A using hwf.induction with
  | _ A ih =>
    cases hpop : wsPop A.queue with
    | none => exact ⟨1, .fixpoint A, by simp [verifyLoop, hpop]⟩
    | some iq =>
      obtain ⟨i, q⟩ := iq
      cases hvis : visit D cfg text textOffset G.blocks { A with queue := q } i with
      | none => exact ⟨1, .capExceeded, by simp [verifyLoop, hpop, hvis]⟩
      | some A' =>
        have hstep : CodedStep D cfg text textOffset G.blocks A A' := ⟨i, q, hpop, hvis⟩
        have hany := hstep.anyStep h.anyRun.workInv.nodup
        obtain ⟨fuel, r, hr⟩ := ih A' (hany.climbs hb hne h.anyRun) (h.tail hstep)
        exact ⟨fuel + 1, r, by simpa [verifyLoop, hpop, hvis] using hr⟩

theorem nblocks_pos (hb : merlinCfgBuild D text textOffset = .ok G) (hne : text ≠ []) : 0 < G.nblocks :=
  (AnyRun.queued hb hne (.refl : AnyRun D merlinVerifierCfgInitForMvdp text textOffset G.blocks _)
    (List.mem_singleton_self 0)).1

/-- `merlin_verify_text` of the userland verifier returns. -/
theorem exists_verdict (hne : text ≠ []) : ∃ fuel v, merlinVerifyText D cfg text textOffset fuel = some v := by
  unfold merlinVerifyText
  by_cases hfour : text.length % 4 ≠ 0
  · exact ⟨0, .reject, if_pos hfour⟩
  · cases hb : merlinCfgBuild D text textOffset with
    | error e => exact ⟨0, .reject, if_neg hfour⟩
    | ok G =>
      have hblocks := (nblocks_pos hb hne).ne'
      obtain ⟨fuel, r, hr⟩ := exists_loopEnd hb hne (.refl : CodedRun D cfg text textOffset G.blocks _)
      cases r with
      | capExceeded => exact ⟨fuel, .reject, by simp [hfour, hblocks, hr]⟩
      | fixpoint A => exact ⟨fuel, verdict G A, by simp [hfour, hblocks, hr]⟩

/-- The worklist of the kernel is taken in step with the one of the userland verifier. -/
theorem exists_kernelVerdict (hne : text ≠ []) :
    ∃ fuel v, Kernel.merlinVerifyText D cfg text textOffset fuel = some v := by
  unfold Kernel.merlinVerifyText
  by_cases hfour : text.length % 4 ≠ 0
  · exact ⟨0, .reject, if_pos hfour⟩
  · cases hk : Kernel.merlinCfgBuild D text textOffset with
    | error e => exact ⟨0, .reject, if_neg hfour⟩
    | ok G =>
      have hb : merlinCfgBuild D text textOffset = .ok G := by
        rw [← Lib.toOption_eq_some, ← Kernel.merlinCfgBuild_toOption hne, hk]
        rfl
      have hpos := nblocks_pos hb hne
      obtain ⟨fuel, r, hr⟩ := exists_loopEnd hb hne (.refl : CodedRun D cfg text textOffset G.blocks _)
      have hend : Kernel.SameEnd (Kernel.verifyLoop D cfg text textOffset G.blocks fuel _)
          (verifyLoop D cfg text textOffset G.blocks fuel _) :=
        Kernel.verifyLoop_sameEnd (Kernel.succsFit_of_build hb) fuel (@Kernel.queueFits_init cfg _ hpos)
      rw [hr] at hend
      have hinit := @Kernel.Analysis.init_eq cfg _ hpos
      cases hl : Kernel.verifyLoop D cfg text textOffset G.blocks fuel (Analysis.init cfg) with
      | none =>
        rw [hl] at hend
        cases hend
      | some e =>
        cases e with
        | finalize rejected => exact ⟨fuel, Kernel.finalize rejected, by simp [hfour, hpos.ne', hinit, hl]⟩
        | fixpoint A =>
          exact ⟨fuel, Kernel.finalize (A.rejected + gateRejects G A), by simp [hfour, hpos.ne', hinit, hl]⟩

/-- Both verifiers return on every text that is not empty, and the worklist loop ends in whatever order its blocks
are taken: for every decoder, also one that refuses words, and every step cap, also one that is never exceeded.  The
graph builder counts the words of the text in 32 bits, and its loop over a longer text would not end. -/
theorem verifiers_return (D : Decoder) (cfg : VerifierCfg) (text : Text) (textOffset : BitVec 32) (hne : text ≠ [])
    (_hwords : text.length < 2 ^ 34) :
    (∀ G, merlinCfgBuild D text textOffset = .ok G →
      ¬ ∃ f : ℕ → Analysis, f 0 = Analysis.init cfg ∧
        ∀ n, AnyStep D cfg text textOffset G.blocks (f n) (f (n + 1))) ∧
    (∃ fuel v, merlinVerifyText D cfg text textOffset fuel = some v) ∧
    ∃ fuel v, Kernel.merlinVerifyText D cfg text textOffset fuel = some v := by
  refine ⟨fun G hb => ?_, exists_verdict hne, exists_kernelVerdict hne⟩
  exact @Lib.no_infinite_run Analysis _ _ (Analysis.absorbed G.nblocks) (fun A => A.queue.length) _ _ _
    fun A A' h hs => AnyStep.climbs hb hne h hs

/-- A text that jumps to itself, under the cap that the 32-bit counter never exceeds. -/
theorem verifiers_return_spin :
    ∃ fuel v, Kernel.merlinVerifyText Kernel.merlinDecoder { merlinVerifierCfgInitForMvdp with stepCap := 0xffffffff }
      (ofWords [0x0000006f]) 0 fuel = some v :=
  (verifiers_return Kernel.merlinDecoder { merlinVerifierCfgInitForMvdp with stepCap := 0xffffffff }
    (ofWords [0x0000006f]) 0 (by decide) (by decide)).2.2

end Loop

end MerlinV
