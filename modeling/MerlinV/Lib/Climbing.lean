import Mathlib.Tactic
import Mathlib.Order.CompletePartialOrder
import Mathlib.Order.WellFounded
import Mathlib.Order.Preorder.Finite

/-! # Iterations that climb

An iteration over a state with a worklist ends when each round raises a rank that cannot rise for ever, or leaves
the rank alone and takes something off the list.
-/
namespace MerlinV.Lib

variable {σ α : Type*} [PartialOrder α] (rank : σ → α) (size : σ → ℕ)

/-- A round from `s` to `s'` raises the rank, or keeps it and makes the rest of the work smaller. -/
def Climbs (s s' : σ) : Prop := rank s < rank s' ∨ rank s = rank s' ∧ size s' < size s

variable {rank size} {step : σ → σ → Prop} {init : σ}

theorem climbs_wellFounded [WellFoundedGT α] : WellFounded fun s' s => Climbs rank size s s' := by
  have hlex : WellFounded (Prod.Lex (· > ·) (· < ·) : α × ℕ → α × ℕ → Prop) :=
    WellFounded.prod_lex wellFounded_gt Nat.lt_wfRel.wf
  refine Subrelation.wf ?_ (InvImage.wf (fun s => (rank s, size s)) hlex)
  rintro s' s (hrank | ⟨hrank, hsize⟩)
  · exact .left _ _ hrank
  · change Prod.Lex _ _ (rank s', size s') (rank s, size s)
    rw [hrank]
    exact .right _ hsize

theorem no_infinite_run [WellFoundedGT α]
    (hclimb : ∀ s s', Relation.ReflTransGen step init s → step s s' → Climbs rank size s s') :
    ¬ ∃ f : ℕ → σ, f 0 = init ∧ ∀ n, step (f n) (f (n + 1)) := by
  rintro ⟨f, hzero, hstep⟩
  have hreach : ∀ n, Relation.ReflTransGen step init (f n) := by
    intro n
    induction n with
    | zero => rw [hzero]
    | succ n ih => exact ih.tail (hstep n)
  obtain ⟨-, ⟨n, rfl⟩, hlast⟩ :=
    (@climbs_wellFounded _ _ _ rank size _).has_min (Set.range f) ⟨f 0, 0, rfl⟩
  exact hlast (f (n + 1)) ⟨n + 1, rfl⟩ (hclimb _ _ (hreach n) (hstep n))

end MerlinV.Lib
