import MerlinV.Lib.Numerals
import MerlinV.Ns.Compose

/-! # Id lists of the namespace tool

`parse_list`, `set_bits`, `count_bits` and `print_set_ids` of `tools/merlin-ns/merlin-ns.c`: what `dump` prints of a
bitset is a list that `create` reads, and it gives the bitset back as long as its ids fit into the array.
-/
namespace MerlinV

open Lib

def isListSep (c : Byte) : Bool := c == 0x2c || c == 0x20

def parseListLoop (cap : ℕ) : ℕ → Bytes → List (BitVec 32) → Option (List (BitVec 32))
  | 0, _, _ => none
  | fuel + 1, p, out =>
    let p := p.dropWhile isListSep
    if p = [] then some out
    else
      let (v, rest) := strtoul p
      if rest.length = p.length then none
      else if out.length ≥ cap then none
      else parseListLoop cap fuel rest (out ++ [v.setWidth 32])

/-- `parse_list`, with as much fuel as the string can need. -/
def parseList (s : Bytes) (cap : ℕ) : Option (List (BitVec 32)) := parseListLoop cap (s.length + 1) s []

section Bitsets

variable {n : ℕ}

def merlinNsBitSet (bs : Vector (BitVec 64) n) (idx : ℕ) : Vector (BitVec 64) n :=
  if h : idx / 64 < n then bs.set (idx / 64) (bs[idx / 64] ||| BitVec.twoPow 64 (idx % 64)) else bs

def setBits (bs : Vector (BitVec 64) n) (ids : List (BitVec 32)) : Vector (BitVec 64) n :=
  ids.foldl (fun bs id => merlinNsBitSet bs id.toNat) bs

def popcount (w : BitVec 64) : ℕ := (List.range 64).countP fun i => w.getLsbD i

def countBits (bs : Vector (BitVec 64) n) : ℕ := (bs.toList.map popcount).sum

def setIds (bs : Vector (BitVec 64) n) (cap : ℕ) : List ℕ := (List.range cap).filter (merlinNsBitGet bs)

def hexId (i : ℕ) : Bytes := 0x30 :: 0x78 :: printNat 16 i

/-- The loop of `print_set_ids` over `cap` indices, with the flag `first`. -/
def printIds (bs : Vector (BitVec 64) n) (cap : ℕ) : Bytes :=
  ((List.range cap).foldl (fun (r : Bytes × Bool) i =>
    if merlinNsBitGet bs i then (r.1 ++ (if r.2 then [] else [0x2c]) ++ hexId i, false) else r) ([], true)).1

end Bitsets

section Printing

variable {n : ℕ} {bs : Vector (BitVec 64) n}

def moreIds (ids : List ℕ) : Bytes := ids.flatMap fun i => 0x2c :: hexId i

def idList : List ℕ → Bytes
  | [] => []
  | i :: ids => hexId i ++ moreIds ids

theorem printIds_loop (bs : Vector (BitVec 64) n) (is : List ℕ) (r : Bytes × Bool) :
    is.foldl (fun (r : Bytes × Bool) i =>
      if merlinNsBitGet bs i then (r.1 ++ (if r.2 then [] else [0x2c]) ++ hexId i, false) else r) r =
    (r.1 ++ (if r.2 then idList (is.filter (merlinNsBitGet bs)) else moreIds (is.filter (merlinNsBitGet bs))),
      r.2 && (is.filter (merlinNsBitGet bs)).isEmpty) := by
  induction is generalizing r with
  | nil =>
    rcases r with ⟨out, first⟩
    cases first <;> simp [idList, moreIds]
  | cons i is ih =>
    rw [List.foldl_cons, ih]
    rcases r with ⟨out, first⟩
    cases hbit : merlinNsBitGet bs i with
    | false => simp [hbit]
    | true => cases first <;> simp [hbit, idList, moreIds]

theorem printIds_eq (bs : Vector (BitVec 64) n) (cap : ℕ) : printIds bs cap = idList (setIds bs cap) := by
  rw [printIds, printIds_loop]
  rfl

end Printing

section Reading

variable {cap fuel : ℕ} {ids : List ℕ} {out : List (BitVec 32)}

theorem endsNumber_moreIds (ids : List ℕ) : EndsNumber (moreIds ids) := by
  intro c hc
  cases ids with
  | nil => cases hc
  | cons i ids =>
    obtain rfl : (0x2c : Byte) = c := by simpa [moreIds] using hc
    decide

theorem parseListLoop_id {i : ℕ} (hi : i < 2 ^ 32) (s : Bytes) (hs : s.dropWhile isListSep = hexId i ++ moreIds ids) :
    parseListLoop cap (fuel + 1) s out =
      if out.length ≥ cap then none else parseListLoop cap fuel (moreIds ids) (out ++ [BitVec.ofNat 32 i]) := by
  have hread : strtoul (hexId i ++ moreIds ids) = (BitVec.ofNat 64 i, moreIds ids) :=
    strtoul_printNat_sixteen (by omega) (endsNumber_moreIds ids)
  have hne : ¬ hexId i ++ moreIds ids = [] := by simp [hexId]
  have hlen : ¬ (moreIds ids).length = (hexId i ++ moreIds ids).length := by
    rw [List.length_append, hexId, List.length_cons]
    omega
  have hwidth : (BitVec.ofNat 64 i).setWidth 32 = BitVec.ofNat 32 i := by
    apply BitVec.eq_of_toNat_eq
    rw [BitVec.toNat_setWidth, BitVec.toNat_ofNat, BitVec.toNat_ofNat]
    omega
  rw [parseListLoop]
  dsimp only
  rw [hs, if_neg hne, hread, if_neg hlen, hwidth]

/-- The loop reads the ids that are left, unless there are too many of them. -/
theorem parseListLoop_more (hids : ∀ i ∈ ids, i < 2 ^ 32) (hfuel : ids.length < fuel) :
    parseListLoop cap fuel (moreIds ids) out =
      if ids = [] ∨ out.length + ids.length ≤ cap then some (out ++ ids.map (BitVec.ofNat 32)) else none := by
  induction ids generalizing fuel out with
  | nil =>
    obtain ⟨fuel, rfl⟩ : ∃ f, fuel = f + 1 := ⟨fuel - 1, by simp at hfuel; omega⟩
    simp [parseListLoop, moreIds]
  | cons i ids ih =>
    obtain ⟨hi, hrest⟩ := List.forall_mem_cons.mp hids
    obtain ⟨fuel, rfl⟩ : ∃ f, fuel = f + 1 := ⟨fuel - 1, by rw [List.length_cons] at hfuel; omega⟩
    have hdrop : (moreIds (i :: ids)).dropWhile isListSep = hexId i ++ moreIds ids := by
      rw [moreIds, List.flatMap_cons, List.cons_append, List.dropWhile_cons_of_pos (by decide), hexId,
        List.cons_append, List.dropWhile_cons_of_neg (by decide)]
      rfl
    rw [List.length_cons] at hfuel ⊢
    rw [parseListLoop_id hi _ hdrop, ih hrest (by omega)]
    by_cases hfull : out.length ≥ cap
    · rw [if_pos hfull, if_neg]
      rintro (h | h)
      · cases h
      · omega
    · rw [if_neg hfull, List.length_append, List.length_singleton]
      by_cases hfit : out.length + (ids.length + 1) ≤ cap
      · rw [if_pos (.inr (by omega)), if_pos (.inr hfit)]
        simp
      · have hne : ¬ (ids = [] ∨ out.length + 1 + ids.length ≤ cap) := by
          rintro (rfl | h)
          · simp at hfit
            omega
          · omega
        rw [if_neg hne, if_neg]
        rintro (h | h)
        · cases h
        · exact hfit h

/-- `parse_list` reads a printed list, unless it has more ids than the array. -/
theorem parseList_idList (hids : ∀ i ∈ ids, i < 2 ^ 32) :
    parseList (idList ids) cap = if ids.length ≤ cap then some (ids.map (BitVec.ofNat 32)) else none := by
  cases ids with
  | nil => simp [parseList, parseListLoop, idList]
  | cons i ids =>
    obtain ⟨hi, hrest⟩ := List.forall_mem_cons.mp hids
    have hdrop : (idList (i :: ids)).dropWhile isListSep = hexId i ++ moreIds ids :=
      List.dropWhile_cons_of_neg (by decide)
    have hfuel : ids.length < (idList (i :: ids)).length := by
      have hmore : ids.length ≤ (moreIds ids).length := by
        have hall : ∀ l : List ℕ, l.length ≤ (moreIds l).length := by
          intro l
          induction l with
          | nil => exact le_rfl
          | cons j l ih =>
            rw [moreIds, List.flatMap_cons, List.length_append, List.length_cons, List.length_cons]
            change l.length + 1 ≤ _ + 1 + (moreIds l).length
            omega
        exact hall ids
      rw [idList, List.length_append, hexId, List.length_cons]
      omega
    rw [parseList, parseListLoop_id hi _ hdrop, parseListLoop_more hrest hfuel]
    by_cases hcap : (0 : ℕ) ≥ cap
    · rw [List.length_nil, if_pos hcap, if_neg]
      rw [List.length_cons]
      omega
    · rw [List.length_nil, if_neg hcap, List.nil_append, List.length_singleton, List.length_cons]
      by_cases hfit : ids.length + 1 ≤ cap
      · rw [if_pos (.inr (by omega)), if_pos hfit]
        rfl
      · rw [if_neg hfit, if_neg]
        rintro (rfl | h)
        · simp at hfit
          omega
        · omega

end Reading

section Bits

variable {n : ℕ} {bs : Vector (BitVec 64) n}

theorem merlinNsBitGet_set (bs : Vector (BitVec 64) n) {i : ℕ} (hi : i < 64 * n) (j : ℕ) :
    merlinNsBitGet (merlinNsBitSet bs i) j = (decide (j = i) || merlinNsBitGet bs j) := by
  have hin : i / 64 < n := Nat.div_lt_of_lt_mul hi
  unfold merlinNsBitGet merlinNsBitSet
  rw [dif_pos hin]
  by_cases hj : j / 64 < n
  · rw [dif_pos hj, dif_pos hj, Vector.getElem_set]
    by_cases hword : i / 64 = j / 64
    · have hmod : i % 64 = j % 64 ↔ j = i := by omega
      have hlt : i % 64 < 64 := Nat.mod_lt _ (by decide)
      rw [if_pos hword, BitVec.getLsbD_or, BitVec.getLsbD_twoPow, Bool.or_comm]
      simp only [hword, hlt, hmod, decide_true, Bool.true_and]
    · have hne : ¬ j = i := fun h => hword (by rw [h])
      rw [if_neg hword]
      simp [hne]
  · have hne : ¬ j = i := fun h => hj (by rw [h]; exact hin)
    rw [dif_neg hj, dif_neg hj]
    simp [hne]

theorem merlinNsBitGet_setBits (bs : Vector (BitVec 64) n) {ids : List ℕ} (hids : ∀ i ∈ ids, i < 64 * n)
    (hn : 64 * n ≤ 2 ^ 32) (j : ℕ) : merlinNsBitGet (setBits bs (ids.map (BitVec.ofNat 32))) j =
      (decide (j ∈ ids) || merlinNsBitGet bs j) := by
  induction ids generalizing bs with
  | nil => simp [setBits]
  | cons i ids ih =>
    obtain ⟨hi, hrest⟩ := List.forall_mem_cons.mp hids
    have hnat : (BitVec.ofNat 32 i).toNat = i := by
      rw [BitVec.toNat_ofNat, Nat.mod_eq_of_lt (by omega)]
    have hcons : setBits bs ((i :: ids).map (BitVec.ofNat 32)) =
        setBits (merlinNsBitSet bs i) (ids.map (BitVec.ofNat 32)) := by
      rw [List.map_cons, setBits, List.foldl_cons, hnat]
      rfl
    rw [hcons, ih _ hrest, merlinNsBitGet_set bs hi]
    by_cases hji : j = i <;> simp [hji]

theorem bitset_ext {cs : Vector (BitVec 64) n} (h : ∀ i, merlinNsBitGet bs i = merlinNsBitGet cs i) : bs = cs := by
  apply Vector.ext
  intro i hi
  apply BitVec.eq_of_getLsbD_eq
  intro bit hbit
  have hget := h (i * 64 + bit)
  rwa [merlinNsBitGet_word bs ⟨i, hi⟩ hbit, merlinNsBitGet_word cs ⟨i, hi⟩ hbit] at hget

theorem merlinNsBitGet_of_le {i : ℕ} (hi : 64 * n ≤ i) : merlinNsBitGet bs i = false := by
  rw [merlinNsBitGet, dif_neg]
  omega

theorem countBits_eq (bs : Vector (BitVec 64) n) : countBits bs = (setIds bs (64 * n)).length := by
  have hwords : ∀ k ≤ n, ((bs.toList.take k).map popcount).sum = ((List.range (64 * k)).countP (merlinNsBitGet bs)) := by
    intro k hk
    induction k with
    | zero => rfl
    | succ k ih =>
      have hlen : k < bs.toList.length := by rw [Vector.length_toList]; omega
      have hword : popcount bs.toList[k] = (List.range 64).countP fun bit => merlinNsBitGet bs (64 * k + bit) := by
        rw [popcount]
        apply List.countP_congr
        intro bit hbit
        have hget := merlinNsBitGet_word bs ⟨k, by omega⟩ (List.mem_range.mp hbit)
        rw [Nat.mul_comm 64 k, hget, Vector.getElem_toList]
        rfl
      rw [List.take_succ_eq_append_getElem hlen, List.map_append, List.sum_append, ih (by omega), List.map_singleton,
        List.sum_singleton, hword, Nat.mul_succ, List.range_add, List.countP_append, List.countP_map]
      rfl
  have hall := hwords n le_rfl
  rw [List.take_of_length_le (by rw [Vector.length_toList])] at hall
  rw [countBits, hall, setIds, List.countP_eq_length_filter]

/-- What `print_set_ids` prints of a bitset, read by `parse_list` and set in an empty bitset, is the bitset again,
as long as `count_bits` does not exceed the size of the id array; otherwise the list is refused. -/
theorem printIds_reads_back (bs : Vector (BitVec 64) n) (hn : 64 * n ≤ 2 ^ 32) (cap : ℕ) :
    (parseList (printIds bs (64 * n)) cap).map (setBits (Vector.replicate n 0)) =
      if countBits bs ≤ cap then some bs else none := by
  have hids : ∀ i ∈ setIds bs (64 * n), i < 64 * n := by
    intro i hi
    exact List.mem_range.mp (List.mem_of_mem_filter hi)
  rw [printIds_eq, parseList_idList fun i hi => lt_of_lt_of_le (hids i hi) hn, countBits_eq]
  split
  · rw [Option.map_some, Option.some.injEq]
    apply bitset_ext
    intro j
    have hblank : merlinNsBitGet (Vector.replicate n (0 : BitVec 64)) j = false := by
      unfold merlinNsBitGet
      split
      · simp
      · rfl
    rw [merlinNsBitGet_setBits _ hids hn, hblank, Bool.or_false]
    by_cases hj : j < 64 * n
    · simp [setIds, hj]
    · rw [merlinNsBitGet_of_le (not_lt.mp hj)]
      simp [setIds, hj]
  · rfl

def sampleAttach : Vector (BitVec 64) nsAttachWords := #v[0x21, 0x8000000000000000]

theorem printIds_reads_back_sample :
    printIds sampleAttach 128 = ascii "0x0,0x5,0x7f" ∧
    (parseList (printIds sampleAttach 128) 64).map (setBits (Vector.replicate nsAttachWords 0)) = some sampleAttach := by
  refine ⟨by decide +kernel, ?_⟩
  have hback := printIds_reads_back sampleAttach (by decide) 64
  rw [if_pos (by decide +kernel)] at hback
  exact hback

end Bits

end MerlinV
