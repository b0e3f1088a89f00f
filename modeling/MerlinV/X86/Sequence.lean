import MerlinV.X86.Machine

/-! # Straight-line code

Byte strings that encode a list of instructions whatever follows them, and the run of
such a list as one composite step.
-/
namespace MerlinV.X86

inductive Emits : List Byte → List Instr → Prop where
  | nil : Emits [] []
  | cons {b bs : List Byte} {i : Instr} {is : List Instr} (head : ∀ rest, decode (b ++ rest) = some i)
      (size : b.length = i.size) (tail : Emits bs is) : Emits (b ++ bs) (i :: is)

namespace Emits

variable {b bs bs' : List Byte} {i : Instr} {is is' : List Instr}

theorem single (head : ∀ rest, decode (b ++ rest) = some i) (size : b.length = i.size) : Emits b [i] := by
  have h := Emits.cons head size .nil
  rwa [List.append_nil] at h

theorem append (h : Emits bs is) (h' : Emits bs' is') : Emits (bs ++ bs') (is ++ is') := by
  induction h with
  | nil => exact h'
  | cons head size tail ih =>
    rw [List.append_assoc]
    exact .cons head size ih

end Emits

theorem Instr.size_pos (i : Instr) : 0 < i.size := by
  cases i <;> simp [Instr.size]

/-- Reading an encoding to its end gives the instructions back. -/
theorem Emits.decodeAll_eq {bs : List Byte} {is : List Instr} (h : Emits bs is) {fuel : ℕ}
    (hfuel : bs.length ≤ fuel) : decodeAll fuel bs = some is := by
  induction h generalizing fuel with
  | nil => cases fuel <;> rfl
  | @cons b bs i is head size tail ih =>
    have hpos := i.size_pos
    rw [List.length_append] at hfuel
    obtain ⟨fuel, rfl⟩ : ∃ k, fuel = k + 1 := ⟨fuel - 1, by omega⟩
    obtain ⟨x, b, rfl⟩ : ∃ x b', b = x :: b' := by
      cases b with
      | nil => rw [← size] at hpos; cases hpos
      | cons x b' => exact ⟨x, b', rfl⟩
    have htail := ih (by omega : bs.length ≤ fuel)
    have hdec := head bs
    rw [List.cons_append] at hdec ⊢
    simp only [decodeAll, hdec, Option.bind_eq_bind, Option.bind_some]
    rw [← List.cons_append, ← size, List.drop_left, htail]
    rfl

def sizes (is : List Instr) : ℕ := (is.map Instr.size).sum

theorem Emits.length_eq {bs : List Byte} {is : List Instr} (h : Emits bs is) : bs.length = sizes is := by
  induction h with
  | nil => rfl
  | cons head size tail ih =>
    rw [List.length_append, size, ih]
    rfl

namespace Host

variable (H : Host)

def seq : List Instr → Cpu → ℕ → List Visit × Cpu
  | [], c, _ => ([], c)
  | i :: is, c, pos =>
    let r := seq is (H.after i c pos) (pos + i.size)
    (⟨i, c, pos⟩ :: r.1, r.2)

variable {H} {bs : List Byte} {is js : List Instr} {c : Cpu} {pos : ℕ}

theorem seq_append (is js : List Instr) (c : Cpu) (pos : ℕ) :
    H.seq (is ++ js) c pos =
      ((H.seq is c pos).1 ++ (H.seq js (H.seq is c pos).2 (pos + sizes is)).1,
        (H.seq js (H.seq is c pos).2 (pos + sizes is)).2) := by
  induction is generalizing c pos with
  | nil => rfl
  | cons i is ih =>
    have hpos : pos + sizes (i :: is) = pos + i.size + sizes is := by
      simp only [sizes, List.map_cons, List.sum_cons]
      omega
    rw [List.cons_append, seq, seq, ih, hpos]
    rfl

theorem seq_pos {v : Visit} (hv : v ∈ (H.seq is c pos).1) : pos ≤ v.pos ∧ v.pos < pos + sizes is := by
  induction is generalizing c pos with
  | nil => exact absurd hv List.not_mem_nil
  | cons i is ih =>
    have hpos := i.size_pos
    have hsum : sizes (i :: is) = i.size + sizes is := by
      simp only [sizes, List.map_cons, List.sum_cons]
    rcases List.mem_cons.mp hv with rfl | hv
    · dsimp only
      omega
    · have := ih hv
      omega

theorem seq_instr_mem {v : Visit} (hv : v ∈ (H.seq is c pos).1) : v.instr ∈ is := by
  induction is generalizing c pos with
  | nil => exact absurd hv List.not_mem_nil
  | cons i is ih =>
    rcases List.mem_cons.mp hv with rfl | hv
    · exact List.mem_cons_self
    · exact List.mem_cons_of_mem i (ih hv)

theorem run_mono {n m : ℕ} {vs : List Visit} {a : Addr} {d : Cpu}
    (h : H.run n c pos = (vs, .returned a d)) (hnm : n ≤ m) : H.run m c pos = (vs, .returned a d) := by
  induction n generalizing m c pos vs with
  | zero => cases h
  | succ n ih =>
    obtain ⟨m, rfl⟩ : ∃ k, m = k + 1 := ⟨m - 1, by omega⟩
    unfold run at h ⊢
    cases hd : decode (H.code.drop pos) with
    | none =>
      rw [hd] at h
      cases h
    | some i =>
      rw [hd] at h
      cases i with
      | ret => exact h
      | _ =>
        dsimp only at h ⊢
        obtain ⟨rfl, hout⟩ := Prod.mk.inj h
        rw [ih (Prod.ext rfl hout) (by omega : n ≤ m)]

theorem run_seq (he : Emits bs is) (hret : Instr.ret ∉ is) {rest : List Byte}
    (hcode : H.code.drop pos = bs ++ rest) (n : ℕ) :
    H.run (is.length + n) c pos =
      ((H.seq is c pos).1 ++ (H.run n (H.seq is c pos).2 (pos + sizes is)).1,
        (H.run n (H.seq is c pos).2 (pos + sizes is)).2) := by
  induction he generalizing c pos with
  | nil => simp [seq, sizes]
  | @cons b bs i is head size tail ih =>
    have hi : i ≠ .ret := fun h => hret (h ▸ List.mem_cons_self)
    have hdec : decode (H.code.drop pos) = some i := by
      rw [hcode, List.append_assoc]
      exact head _
    have hdrop : H.code.drop (pos + i.size) = bs ++ rest := by
      rw [← List.drop_drop, hcode, ← size, List.append_assoc, List.drop_left]
    have htail := ih (fun h => hret (List.mem_cons_of_mem i h)) (c := H.after i c pos) hdrop
    have hpos : pos + sizes (i :: is) = pos + i.size + sizes is := by
      simp only [sizes, List.map_cons, List.sum_cons]
      omega
    have hlen : (i :: is).length + n = (is.length + n) + 1 := by
      rw [List.length_cons]
      omega
    have hstep : H.run (is.length + n + 1) c pos =
        (⟨i, c, pos⟩ :: (H.run (is.length + n) (H.after i c pos) (pos + i.size)).1,
          (H.run (is.length + n) (H.after i c pos) (pos + i.size)).2) := by
      rw [run, hdec]
      cases i with
      | ret => exact absurd rfl hi
      | _ => rfl
    rw [hlen, hstep, htail, hpos]
    rfl

/-- A property of every visit, from an invariant that each instruction keeps. -/
theorem seq_inv {P : Visit → Prop} (I : Cpu → Prop)
    (hstep : ∀ i ∈ is, ∀ c pos, I c → P ⟨i, c, pos⟩ ∧ I (H.after i c pos)) (h : I c) :
    (∀ v ∈ (H.seq is c pos).1, P v) ∧ I (H.seq is c pos).2 := by
  induction is generalizing c pos with
  | nil => exact ⟨fun v hv => absurd hv List.not_mem_nil, h⟩
  | cons i is ih =>
    obtain ⟨hP, hI⟩ := hstep i List.mem_cons_self c pos h
    obtain ⟨hall, hlast⟩ : (∀ v ∈ (H.seq is (H.after i c pos) (pos + i.size)).1, P v) ∧ _ :=
      ih (fun j hj => hstep j (List.mem_cons_of_mem i hj)) hI
    refine ⟨fun v hv => ?_, hlast⟩
    rcases List.mem_cons.mp hv with rfl | hv
    · exact hP
    · exact hall v hv

end Host

end MerlinV.X86
