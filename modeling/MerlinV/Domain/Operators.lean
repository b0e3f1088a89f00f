import MerlinV.Domain.Order
import MerlinV.Kernel.Transfer

/-! # The operators of the scalar domain

The transfer functions of `tools/merlin-verifier/tnum.h` that the analysis does not call, and what all
of them have in common: a canonical result that contains the result of the machine operation.  The
copy in `kernel/merlin/include/merlin_tnum.h` has the join and the addition only.
-/
namespace MerlinV

namespace Tnum

def sub (a b : Tnum) : Tnum :=
  let dv := a.value - b.value
  let alpha := dv + a.mask
  let beta := dv - b.mask
  let chi := alpha ^^^ beta
  let mu := chi ||| a.mask ||| b.mask
  ⟨dv &&& ~~~mu, mu⟩

def and (a b : Tnum) : Tnum :=
  let alpha := a.value ||| a.mask
  let beta := b.value ||| b.mask
  let v := a.value &&& b.value
  ⟨v, alpha &&& beta &&& ~~~v⟩

def or (a b : Tnum) : Tnum :=
  let v := a.value ||| b.value
  let mu := a.mask ||| b.mask
  ⟨v, mu &&& ~~~v⟩

def xor (a b : Tnum) : Tnum :=
  let v := a.value ^^^ b.value
  let mu := a.mask ||| b.mask
  ⟨v &&& ~~~mu, mu⟩

def lshift (a : Tnum) (k : ℕ) : Tnum := if k ≥ 64 then top else ⟨a.value <<< k, a.mask <<< k⟩

def rshift (a : Tnum) (k : ℕ) : Tnum := if k ≥ 64 then const 0#64 else ⟨a.value >>> k, a.mask >>> k⟩

end Tnum

namespace Kernel

def tnumAdd (a b : Tnum) : Tnum :=
  let sm := a.mask + b.mask
  let sv := a.value + b.value
  let sigma := sv + sm
  let chi := sigma ^^^ sv
  let mu := chi ||| a.mask ||| b.mask
  ⟨sv &&& ~~~mu, mu⟩

def scalarAdd (a b : Scalar) : Scalar :=
  let sov := Scalar.signedOverflow a.smin b.smin || Scalar.signedOverflow a.smax b.smax
  let uov := decide (a.umin + b.umin < a.umin) || decide (a.umax + b.umax < a.umax)
  { smin := if sov then int64Min else a.smin + b.smin
    smax := if sov then int64Max else a.smax + b.smax
    umin := if uov then 0#64 else a.umin + b.umin
    umax := if uov then ~~~0#64 else a.umax + b.umax
    tn := tnumAdd a.tn b.tn }

end Kernel

namespace Tnum

/-- A transfer function of two operands keeps canonical numbers canonical and contains `f` of all their
members. -/
structure Sound (op : Tnum → Tnum → Tnum) (f : Word → Word → Word) : Prop where
  canonical : ∀ a b : Tnum, a.Canonical → b.Canonical → (op a b).Canonical
  mem : ∀ (a b : Tnum) (x y : Word), a.Canonical → b.Canonical → a.Mem x → b.Mem y → (op a b).Mem (f x y)

structure SoundUnary (op : Tnum → Tnum) (f : Word → Word) : Prop where
  canonical : ∀ a : Tnum, a.Canonical → (op a).Canonical
  mem : ∀ (a : Tnum) (x : Word), a.Canonical → a.Mem x → (op a).Mem (f x)

section Sound

variable {a b : Tnum} {x y : Word}

/-- The known bits of a canonical number are a member, so an operator that contains all results is
canonical. -/
theorem Sound.of_mem {op : Tnum → Tnum → Tnum} {f : Word → Word → Word}
    (h : ∀ {a b : Tnum} {x y : Word}, a.Mem x → b.Mem y → (op a b).Mem (f x y)) : Sound op f where
  canonical _ _ ha hb := canonical_of_mem (h (mem_value ha) (mem_value hb))
  mem _ _ _ _ _ _ hx hy := h hx hy

theorem SoundUnary.of_mem {op : Tnum → Tnum} {f : Word → Word}
    (h : ∀ {a : Tnum} {x : Word}, a.Mem x → (op a).Mem (f x)) : SoundUnary op f where
  canonical _ ha := canonical_of_mem (h (mem_value ha))
  mem _ _ _ hx := h hx

/-- `tnum_sub` contains the wrapped difference: the two it compares are the greatest and the least. -/
theorem mem_sub (hx : Mem x a) (hy : Mem y b) : Mem (x - y) (sub a b) := by
  obtain ⟨hxl, hxh⟩ := hx.bounds
  obtain ⟨hyl, hyh⟩ := hy.bounds
  have ha := canonical_of_mem hx
  have hb := canonical_of_mem hy
  have hgreatest : (a.value ||| a.mask) - b.value = a.value - b.value + a.mask := by
    rw [← Lib.add_eq_or ha]
    grind
  have hleast : a.value - (b.value ||| b.mask) = a.value - b.value - b.mask := by
    rw [← Lib.add_eq_or hb]
    grind
  rw [mem_iff]
  intro i hi
  simp only [sub, BitVec.getLsbD_and, BitVec.getLsbD_not, hi, decide_true, Bool.true_and]
  cases hm : ((a.value - b.value + a.mask ^^^ a.value - b.value - b.mask) ||| a.mask |||
      b.mask).getLsbD i with
  | true => simp
  | false =>
    simp only [BitVec.getLsbD_or, BitVec.getLsbD_xor, Bool.or_eq_false_iff] at hm
    obtain ⟨⟨hchi, ham⟩, hbm⟩ := hm
    have hdiff : ((a.value ||| a.mask) - b.value).getLsbD i =
        (a.value - (b.value ||| b.mask)).getLsbD i := by
      rw [hgreatest, hleast]
      revert hchi
      cases (a.value - b.value + a.mask).getLsbD i <;>
        cases (a.value - b.value - b.mask).getLsbD i <;> simp
    have hva : (a.value).getLsbD i = (a.value ||| a.mask).getLsbD i := by simp [ham]
    have hvb : (b.value).getLsbD i = (b.value ||| b.mask).getLsbD i := by simp [hbm]
    -- the difference of the known bits lies between the extremes as well
    obtain ⟨hal, hah⟩ := (mem_value ha).bounds
    obtain ⟨hbl, hbh⟩ := (mem_value hb).bounds
    have hxy := Lib.sub_bit_of_bounds hi hxl hxh hyl hyh hva hvb hdiff
    have hdv := Lib.sub_bit_of_bounds hi hal hah hbl hbh hva hvb hdiff
    simp only [Bool.not_false, Bool.and_true]
    rw [hxy, hdv]

/-- The bitwise operators look at one bit of each operand, where the known bits of the operands are those of
their members. -/
theorem mem_of_bits {t : Tnum} {z : Word} (hx : Mem x a) (hy : Mem y b)
    (h : ∀ i < 64, a.value.getLsbD i = (x.getLsbD i && !a.mask.getLsbD i) →
      b.value.getLsbD i = (y.getLsbD i && !b.mask.getLsbD i) →
      (z.getLsbD i && !t.mask.getLsbD i) = t.value.getLsbD i) : Mem z t := by
  rw [mem_iff] at hx hy ⊢
  exact fun i hi => h i hi (hx i hi).symm (hy i hi).symm

theorem mem_and (hx : Mem x a) (hy : Mem y b) : Mem (x &&& y) (and a b) := by
  apply mem_of_bits hx hy
  intro i hi hva hvb
  simp only [and, BitVec.getLsbD_and, BitVec.getLsbD_or, BitVec.getLsbD_not, hi, decide_true, Bool.true_and, hva, hvb]
  cases x.getLsbD i <;> cases y.getLsbD i <;> cases a.mask.getLsbD i <;> cases b.mask.getLsbD i <;> rfl

theorem mem_or (hx : Mem x a) (hy : Mem y b) : Mem (x ||| y) (or a b) := by
  apply mem_of_bits hx hy
  intro i hi hva hvb
  simp only [or, BitVec.getLsbD_and, BitVec.getLsbD_or, BitVec.getLsbD_not, hi, decide_true, Bool.true_and, hva, hvb]
  cases x.getLsbD i <;> cases y.getLsbD i <;> cases a.mask.getLsbD i <;> cases b.mask.getLsbD i <;> rfl

theorem mem_xor (hx : Mem x a) (hy : Mem y b) : Mem (x ^^^ y) (xor a b) := by
  apply mem_of_bits hx hy
  intro i hi hva hvb
  simp only [xor, BitVec.getLsbD_and, BitVec.getLsbD_or, BitVec.getLsbD_xor, BitVec.getLsbD_not, hi, decide_true,
    Bool.true_and, hva, hvb]
  cases x.getLsbD i <;> cases y.getLsbD i <;> cases a.mask.getLsbD i <;> cases b.mask.getLsbD i <;> rfl

/-- The bits that a shift brings in are known to be zero. -/
theorem mem_lshift {k : ℕ} (hk : k < 64) (hx : Mem x a) : Mem (x <<< k) (lshift a k) := by
  rw [lshift, if_neg (not_le.mpr hk)]
  rw [mem_iff] at hx ⊢
  intro i hi
  simp only [BitVec.getLsbD_shiftLeft, hi, decide_true, Bool.true_and]
  by_cases hik : i < k
  · simp [hik]
  · simpa [hik] using hx (i - k) (by omega)

theorem mem_rshift {k : ℕ} (hk : k < 64) (hx : Mem x a) : Mem (x >>> k) (rshift a k) := by
  rw [rshift, if_neg (not_le.mpr hk)]
  rw [mem_iff] at hx ⊢
  intro i hi
  simp only [BitVec.getLsbD_ushiftRight]
  by_cases hik : k + i < 64
  · exact hx (k + i) hik
  · simp [BitVec.getLsbD_of_ge _ _ (not_lt.mp hik)]

end Sound

end Tnum

/-- A join and an addition of scalars contain what they should, in all three components. -/
structure Scalar.Sound (join add : Scalar → Scalar → Scalar) : Prop where
  left : ∀ (a b : Scalar) (x : Word), a.Mem x → (join a b).Mem x
  right : ∀ (a b : Scalar) (y : Word), b.Mem y → (join a b).Mem y
  sum : ∀ (a b : Scalar) (x y : Word), a.Mem x → b.Mem y → (add a b).Mem (x + y)

section KernelCopy

theorem Kernel.tnumJoin_eq : Kernel.tnumJoin = Tnum.join := rfl

theorem Kernel.tnumAdd_eq : Kernel.tnumAdd = Tnum.add := rfl

theorem Kernel.scalarJoin_eq : Kernel.scalarJoin = Scalar.join := rfl

theorem Kernel.scalarAdd_eq : Kernel.scalarAdd = Scalar.add := by
  funext a b
  simp only [Kernel.scalarAdd, Scalar.add, Kernel.tnumAdd_eq, Bool.or_eq_true, decide_eq_true_eq]

end KernelCopy

/-- The operators of both copies return canonical numbers and contain what they should. -/
theorem scalar_domain_sound :
    Tnum.Sound Tnum.join (fun x _ => x) ∧ Tnum.Sound Tnum.join (fun _ y => y) ∧
    Tnum.Sound Tnum.add (· + ·) ∧ Tnum.Sound Tnum.sub (· - ·) ∧
    Tnum.Sound Tnum.and (· &&& ·) ∧ Tnum.Sound Tnum.or (· ||| ·) ∧ Tnum.Sound Tnum.xor (· ^^^ ·) ∧
    (∀ k < 64, Tnum.SoundUnary (Tnum.lshift · k) (· <<< k)) ∧
    (∀ k < 64, Tnum.SoundUnary (Tnum.rshift · k) (· >>> k)) ∧
    Scalar.Sound Scalar.join Scalar.add ∧
    Tnum.Sound Kernel.tnumJoin (fun x _ => x) ∧ Tnum.Sound Kernel.tnumJoin (fun _ y => y) ∧
    Tnum.Sound Kernel.tnumAdd (· + ·) ∧ Scalar.Sound Kernel.scalarJoin Kernel.scalarAdd := by
  have hleft : Tnum.Sound Tnum.join (fun x _ => x) := .of_mem fun hx _ => Tnum.mem_join_left _ hx
  have hright : Tnum.Sound Tnum.join (fun _ y => y) := .of_mem fun _ hy => Tnum.mem_join_right _ hy
  have hadd : Tnum.Sound Tnum.add (· + ·) := .of_mem Tnum.mem_add
  have hscalar : Scalar.Sound Scalar.join Scalar.add :=
    ⟨fun a b x => Scalar.mem_join_left b, fun a b y hy => Scalar.join_comm b a ▸ Scalar.mem_join_left a hy,
      fun a b x y => Scalar.mem_add⟩
  refine ⟨hleft, hright, hadd, .of_mem Tnum.mem_sub, .of_mem Tnum.mem_and, .of_mem Tnum.mem_or,
    .of_mem Tnum.mem_xor, fun k hk => .of_mem (Tnum.mem_lshift hk), fun k hk => .of_mem (Tnum.mem_rshift hk),
    hscalar, ?_⟩
  rw [Kernel.tnumJoin_eq, Kernel.tnumAdd_eq, Kernel.scalarJoin_eq, Kernel.scalarAdd_eq]
  exact ⟨hleft, hright, hadd, hscalar⟩

end MerlinV
