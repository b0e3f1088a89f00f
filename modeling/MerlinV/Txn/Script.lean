import MerlinV.Lib.Packed
import MerlinV.Lib.Runs

/-! # Lines of a transaction script

`run_script` of `tools/merlin-txn/merlin-txn.c` cuts a line into tokens inside the line buffer: a NUL ends
the part in front of the newline or the comment, and further NULs end the tokens, whose addresses go into
an array of 32 pointers.
-/
namespace MerlinV

open Lib

/-- `char line[512]` behind `fgets`: the characters of the line, the NUL, and what was there before. -/
structure LineBuffer where
  chars : Bytes
  rest : Bytes
  fits : chars.length + 1 + rest.length = 512

def scriptMaxToks : ℕ := 32

def LineBuffer.bytes (L : LineBuffer) : Bytes := L.chars ++ 0 :: L.rest

def isBlank (c : Byte) : Bool := c == 0x20 || c == 0x09

def endsLine (c : Byte) : Bool := c == 0x0a || c == 0x23

/-- `while (!stop(*p)) p++`; there is no result when `p` leaves the buffer. -/
def scanTo (stop : Byte → Bool) (buf : Bytes) (p : ℕ) : Option ℕ :=
  let q := p + ((buf.drop p).takeWhile fun c => !stop c).length
  if q < buf.length then some q else none

def stripLine (buf : Bytes) : Option Bytes := do
  let p ← scanTo (fun c => c == 0 || endsLine c) buf 0
  return buf.set p 0

/-- The loop that stores the tokens, from `p` with those stored so far; there is no result when it runs out
of fuel or leaves the buffer. -/
def tokenLoop : ℕ → Bytes → ℕ → List ℕ → Option (Bytes × List ℕ)
  | 0, _, _, _ => none
  | fuel + 1, buf, p, toks => do
    let c ← buf[p]?
    if c = 0 then return (buf, toks)
    let p ← scanTo (fun c => !isBlank c) buf p
    let c ← buf[p]?
    if c = 0 then return (buf, toks)
    let q ← scanTo (fun c => c == 0 || isBlank c) buf p
    let c ← buf[q]?
    if c = 0 then tokenLoop fuel buf q (toks ++ [p])
    else tokenLoop fuel (buf.set q 0) (q + 1) (toks ++ [p])

/-- What `run_script` makes of a line: the buffer and the places of the tokens in it. -/
def tokenize (buf : Bytes) : Option (Bytes × List ℕ) := do
  let buf ← stripLine buf
  tokenLoop (buf.length + 1) buf 0 []

def cString (buf : Bytes) (p : ℕ) : Bytes := (buf.drop p).takeWhile fun c => c != 0

/-- The characters in front of the first newline or `#`. -/
def LineBuffer.text (L : LineBuffer) : Bytes := L.chars.takeWhile fun c => !endsLine c

/-- The tokens fit into the array and are the maximal runs of other characters than blanks, each with its NUL
inside the buffer. -/
def Tokenizes (L : LineBuffer) : Prop :=
  ∃ buf toks, tokenize L.bytes = some (buf, toks) ∧ buf.length = 512 ∧ toks.length ≤ scriptMaxToks ∧
    toks.map (cString buf) = runs isBlank L.text ∧ ∀ p ∈ toks, buf[p + (cString buf p).length]? = some 0

section Scan

variable {stop : Byte → Bool} {pre m tail : Bytes} {c : Byte}

theorem scanTo_append (hm : ∀ x ∈ m, stop x = false) (hc : stop c = true) :
    scanTo stop (pre ++ (m ++ c :: tail)) pre.length = some (pre.length + m.length) := by
  have hrun : ((m ++ c :: tail).takeWhile fun x => !stop x) = m := by
    rw [List.takeWhile_append_of_pos (by simpa using hm), List.takeWhile_cons_of_neg (by simp [hc]),
      List.append_nil]
  unfold scanTo
  rw [List.drop_left, hrun, if_pos]
  simp only [List.length_append, List.length_cons]
  omega

theorem getElem?_append_cons : (pre ++ (m ++ c :: tail))[pre.length + m.length]? = some c := by
  rw [List.getElem?_append_right (by omega), Nat.add_sub_cancel_left, List.getElem?_append_right le_rfl,
    Nat.sub_self]
  rfl

theorem set_append_cons (d : Byte) :
    (pre ++ (m ++ c :: tail)).set (pre.length + m.length) d = pre ++ (m ++ d :: tail) := by
  rw [List.set_append_right _ _ (by omega), Nat.add_sub_cancel_left, List.set_append_right _ _ le_rfl,
    Nat.sub_self]
  rfl

end Scan

section Token

/-- The buffer holds the string `r` with its NUL at `p`. -/
structure HoldsToken (buf : Bytes) (p : ℕ) (r : Bytes) : Prop where
  clean : ∀ c ∈ r, c ≠ 0
  place : ∃ pre tail, buf = pre ++ (r ++ 0 :: tail) ∧ pre.length = p

theorem HoldsToken.cString_eq {buf r : Bytes} {p : ℕ} (h : HoldsToken buf p r) : cString buf p = r := by
  obtain ⟨pre, tail, rfl, rfl⟩ := h.place
  rw [cString, List.drop_left, List.takeWhile_append_of_pos (by simpa using h.clean),
    List.takeWhile_cons_of_neg (by simp), List.append_nil]

theorem HoldsToken.nul {buf r : Bytes} {p : ℕ} (h : HoldsToken buf p r) : buf[p + r.length]? = some 0 := by
  obtain ⟨pre, tail, rfl, rfl⟩ := h.place
  exact getElem?_append_cons

variable {fuel : ℕ} {pre g r tail : Bytes} {d : Byte} {toks : List ℕ}

theorem isBlank_ne_zero {c : Byte} (h : isBlank c = true) : c ≠ 0 := by
  rintro rfl
  cases h

theorem tokenLoop_blanks (hg : ∀ c ∈ g, isBlank c = true) :
    tokenLoop (fuel + 1) (pre ++ (g ++ 0 :: tail)) pre.length toks = some (pre ++ (g ++ 0 :: tail), toks) := by
  have hscan : scanTo (fun c => !isBlank c) (pre ++ (g ++ 0 :: tail)) pre.length =
      some (pre.length + g.length) := scanTo_append (by simpa using hg) rfl
  have hend : (pre ++ (g ++ 0 :: tail))[pre.length + g.length]? = some 0 := getElem?_append_cons
  cases g with
  | nil => simp [tokenLoop]
  | cons b g =>
    have hfirst : (pre ++ (b :: g ++ 0 :: tail))[pre.length]? = some b :=
      @getElem?_append_cons pre [] (g ++ 0 :: tail) b
    have hb : b ≠ 0 := isBlank_ne_zero (hg b (by simp))
    simp only [tokenLoop, hfirst, hscan, hend, Option.bind_eq_bind, Option.bind_some, if_neg hb, if_true]
    rfl

/-- One token: blanks, a run `r` and the character `d` behind it. -/
theorem tokenLoop_token (hg : ∀ c ∈ g, isBlank c = true) (hr : ∀ c ∈ r, isBlank c = false ∧ c ≠ 0)
    (hne : r ≠ []) (hd : d = 0 ∨ isBlank d = true) :
    tokenLoop (fuel + 1) (pre ++ (g ++ (r ++ d :: tail))) pre.length toks =
      if d = 0 then tokenLoop fuel (pre ++ (g ++ (r ++ d :: tail))) (pre.length + g.length + r.length)
        (toks ++ [pre.length + g.length])
      else tokenLoop fuel (pre ++ (g ++ (r ++ 0 :: tail))) (pre.length + g.length + r.length + 1)
        (toks ++ [pre.length + g.length]) := by
  obtain ⟨b, r', rfl⟩ := List.exists_cons_of_ne_nil hne
  obtain ⟨hb, hb0⟩ := hr b (by simp)
  have hfirst : ∃ c, (pre ++ (g ++ (b :: r' ++ d :: tail)))[pre.length]? = some c ∧ c ≠ 0 := by
    cases g with
    | nil => exact ⟨b, @getElem?_append_cons pre [] (r' ++ d :: tail) b, hb0⟩
    | cons c g =>
      exact ⟨c, @getElem?_append_cons pre [] (g ++ (b :: r' ++ d :: tail)) c, isBlank_ne_zero (hg c (by simp))⟩
  obtain ⟨c, hc, hc0⟩ := hfirst
  have hscan : scanTo (fun c => !isBlank c) (pre ++ (g ++ (b :: r' ++ d :: tail))) pre.length =
      some (pre.length + g.length) := scanTo_append (by simpa using hg) (by simp [hb])
  have hstart : (pre ++ (g ++ (b :: r' ++ d :: tail)))[pre.length + g.length]? = some b := getElem?_append_cons
  have hassoc : ∀ x, pre ++ (g ++ (b :: r' ++ x)) = (pre ++ g) ++ (b :: r' ++ x) := by simp
  have hlen : pre.length + g.length = (pre ++ g).length := by simp
  have hscan' : scanTo (fun c => c == 0 || isBlank c) (pre ++ (g ++ (b :: r' ++ d :: tail)))
      (pre.length + g.length) = some (pre.length + g.length + (b :: r').length) := by
    rw [hassoc, hlen]
    refine scanTo_append (fun x hx => ?_) (by simpa using hd)
    obtain ⟨hblank, hzero⟩ := hr x hx
    rw [hblank, Bool.or_false]
    exact beq_eq_false_iff_ne.mpr hzero
  have hend : (pre ++ (g ++ (b :: r' ++ d :: tail)))[pre.length + g.length + (b :: r').length]? = some d := by
    rw [hassoc, hlen]
    exact getElem?_append_cons
  have hset : (pre ++ (g ++ (b :: r' ++ d :: tail))).set (pre.length + g.length + (b :: r').length) 0 =
      pre ++ (g ++ (b :: r' ++ 0 :: tail)) := by
    rw [hassoc, hassoc, hlen]
    exact set_append_cons 0
  simp only [tokenLoop, hc, hscan, hstart, hscan', hend, hset, Option.bind_eq_bind, Option.bind_some,
    if_neg hc0, if_neg hb0]

end Token

section Loop

variable {pre u tail : Bytes}

/-- From `pre.length` on the loop stores the runs of what is left of the line.  The induction is on the fuel;
the part behind a token is shorter, and the loop leaves what lies in front of it alone. -/
theorem tokenLoop_runs {fuel : ℕ} (toks : List ℕ) (hu : ∀ c ∈ u, c ≠ 0) (hfuel : u.length < fuel) :
    ∃ u' toks', tokenLoop fuel (pre ++ (u ++ 0 :: tail)) pre.length toks =
        some (pre ++ (u' ++ 0 :: tail), toks ++ toks') ∧ u'.length = u.length ∧
      List.Forall₂ (HoldsToken (pre ++ (u' ++ 0 :: tail))) toks' (runs isBlank u) := by
  induction fuel generalizing pre u toks with
  | zero => omega
  | succ fuel ih =>
    obtain ⟨g, v, rfl, hg, hv⟩ := exists_span isBlank u
    rw [runs_append_of_forall_sep hg]
    rcases hv with rfl | ⟨b, v, rfl, hb⟩
    · refine ⟨g, [], ?_, by simp, .nil⟩
      rw [List.append_nil, List.append_nil]
      exact tokenLoop_blanks hg
    obtain ⟨r, w, hrw, hr, hw⟩ := exists_span (fun c => !isBlank c) (b :: v)
    have hne : r ≠ [] := by
      rintro rfl
      rcases hw with rfl | ⟨d, w, rfl, hd⟩
      · cases hrw
      · obtain ⟨rfl, -⟩ := List.cons.inj hrw
        simp [hb] at hd
    rw [hrw] at hu hfuel ⊢
    have hr : ∀ c ∈ r, isBlank c = false ∧ c ≠ 0 := fun c hc => ⟨by simpa using hr c hc, hu c (by simp [hc])⟩
    have hrun : runs isBlank r = [r] := runs_of_forall_not_sep (fun c hc => (hr c hc).1) hne
    rcases hw with rfl | ⟨d, w, rfl, hd⟩
    · -- the token ends at the NUL behind the line
      obtain ⟨fuel, rfl⟩ : ∃ f, fuel = f + 1 := by
        have := List.length_pos_iff.mpr hne
        simp only [List.length_append] at hfuel
        exact ⟨fuel - 1, by omega⟩
      have hstep := @tokenLoop_token (fuel + 1) pre g r tail 0 toks hg hr hne (.inl rfl)
      have hdone := @tokenLoop_blanks fuel (pre ++ (g ++ r)) [] tail (toks ++ [pre.length + g.length]) (by simp)
      have hlen : pre.length + g.length + r.length = (pre ++ (g ++ r)).length := by
        simp only [List.length_append]
        omega
      have hbuf : pre ++ (g ++ (r ++ 0 :: tail)) = pre ++ (g ++ r) ++ ([] ++ 0 :: tail) := by simp
      rw [if_pos rfl, hlen] at hstep
      refine ⟨g ++ r, [pre.length + g.length], ?_, by simp, ?_⟩
      · rw [← hbuf] at hdone
        simpa using hstep.trans hdone
      · rw [List.append_nil, hrun]
        refine .cons ⟨fun c hc => (hr c hc).2, pre ++ g, tail, by simp, by simp⟩ .nil
    · -- a NUL is written over the blank behind the token
      have hd : isBlank d = true := by simpa using hd
      have hstep := @tokenLoop_token fuel pre g r (w ++ 0 :: tail) d toks hg hr hne (.inr hd)
      obtain ⟨w', toks', hloop, hlen', hholds⟩ := @ih (pre ++ (g ++ (r ++ [0]))) w (toks ++ [pre.length + g.length])
        (fun c hc => hu c (by simp [hc])) (by simp at hfuel; omega)
      have hlen : pre.length + g.length + r.length + 1 = (pre ++ (g ++ (r ++ [0]))).length := by
        simp only [List.length_append, List.length_cons, List.length_nil]
        omega
      have hbuf : ∀ x : Bytes, pre ++ (g ++ (r ++ 0 :: x)) = pre ++ (g ++ (r ++ [0])) ++ x := by simp
      rw [if_neg (isBlank_ne_zero hd), hlen, hbuf] at hstep
      refine ⟨g ++ (r ++ 0 :: w'), (pre.length + g.length) :: toks', ?_, by simp [hlen'], ?_⟩
      · simpa using hstep.trans hloop
      · rw [runs_append_cons _ _ hd, hrun]
        have hfinal : pre ++ (g ++ (r ++ 0 :: w') ++ 0 :: tail) =
            pre ++ (g ++ (r ++ [0])) ++ (w' ++ 0 :: tail) := by simp
        rw [hfinal]
        refine .cons ⟨fun c hc => (hr c hc).2, pre ++ g, w' ++ 0 :: tail, by simp, by simp⟩ hholds

end Loop

section Lines

variable (L : LineBuffer)

def LineBuffer.line : Bytes := L.text.takeWhile fun c => c != 0

theorem LineBuffer.line_eq : L.line = L.chars.takeWhile fun c => !(c == 0 || endsLine c) := by
  rw [line, text, List.takeWhile_takeWhile]
  congr 1
  funext c
  rw [Bool.decide_and, Bool.decide_eq_true, Bool.decide_eq_true, Bool.not_or]
  rfl

theorem LineBuffer.ne_zero_of_mem_line {c : Byte} (h : c ∈ L.line) : c ≠ 0 := by
  simpa using List.mem_takeWhile_imp h

theorem stripLine_bytes : ∃ tail, stripLine L.bytes = some (L.line ++ 0 :: tail) ∧
    (L.line ++ 0 :: tail).length = 512 := by
  have hcut : ∃ c tail, L.bytes = L.line ++ c :: tail ∧ (c == 0 || endsLine c) = true := by
    have hchars := List.takeWhile_append_dropWhile (p := fun c => !(c == 0 || endsLine c)) (l := L.chars)
    rw [LineBuffer.line_eq, LineBuffer.bytes]
    cases hrest : L.chars.dropWhile fun c => !(c == 0 || endsLine c) with
    | nil =>
      rw [hrest, List.append_nil] at hchars
      exact ⟨0, L.rest, by rw [hchars], rfl⟩
    | cons c rest =>
      have hhead := List.head?_dropWhile_not (fun c => !(c == 0 || endsLine c)) L.chars
      rw [hrest] at hchars hhead
      have hc : (c == 0 || endsLine c) = true := by simpa only [List.head?_cons, Bool.not_eq_false'] using hhead
      refine ⟨c, rest ++ 0 :: L.rest, ?_, hc⟩
      nth_rewrite 1 [← hchars]
      simp
  obtain ⟨c, tail, hbytes, hc⟩ := hcut
  have hline : ∀ x ∈ L.line, (x == 0 || endsLine x) = false := by
    intro x hx
    rw [LineBuffer.line_eq] at hx
    simpa using List.mem_takeWhile_imp hx
  have hscan := @scanTo_append _ [] L.line tail c hline hc
  have hset := @set_append_cons [] L.line tail c 0
  have hlen := congrArg List.length hbytes
  have hfits := L.fits
  simp only [LineBuffer.bytes, List.length_append, List.length_cons] at hlen
  refine ⟨tail, ?_, by simp only [List.length_append, List.length_cons]; omega⟩
  simp only [List.nil_append, List.length_nil, Nat.zero_add] at hscan hset
  rw [stripLine, hbytes, hscan, Option.bind_eq_bind, Option.bind_some, hset]
  rfl

/-- The loop stores the runs of the line in front of a NUL. -/
theorem tokenize_bytes : ∃ buf toks, tokenize L.bytes = some (buf, toks) ∧ buf.length = 512 ∧
    List.Forall₂ (HoldsToken buf) toks (runs isBlank L.line) := by
  obtain ⟨tail, hstrip, hlen⟩ := stripLine_bytes L
  obtain ⟨u', toks, hloop, hlen', hholds⟩ := @tokenLoop_runs [] L.line tail ((L.line ++ 0 :: tail).length + 1) []
    (fun c hc => L.ne_zero_of_mem_line hc) (by simp)
  refine ⟨u' ++ 0 :: tail, toks, ?_, ?_, hholds⟩
  · simpa [tokenize, hstrip] using hloop
  · rw [← hlen]
    simp [hlen']

theorem HoldsToken.tokens {buf : Bytes} {toks : List ℕ} {rs : List Bytes}
    (h : List.Forall₂ (HoldsToken buf) toks rs) :
    toks.map (cString buf) = rs ∧ ∀ p ∈ toks, buf[p + (cString buf p).length]? = some 0 := by
  induction h with
  | nil => simp
  | cons hp _ ih =>
    rw [List.map_cons, ih.1, hp.cString_eq]
    refine ⟨rfl, List.forall_mem_cons.mpr ⟨?_, ih.2⟩⟩
    rw [hp.cString_eq]
    exact hp.nul

end Lines

/-- The tokenizer is in bounds and faithful exactly on the lines with at most 32 runs and no NUL in front of
the first newline or `#`. -/
theorem tokenizes_iff (L : LineBuffer) :
    Tokenizes L ↔ (runs isBlank L.text).length ≤ scriptMaxToks ∧ 0 ∉ L.text := by
  obtain ⟨buf, toks, hrun, hlen, hholds⟩ := tokenize_bytes L
  obtain ⟨hmap, hnul⟩ := HoldsToken.tokens hholds
  constructor
  · rintro ⟨buf', toks', hrun', -, hle, hmap', -⟩
    obtain ⟨rfl, rfl⟩ := Prod.mk.inj (Option.some.inj (hrun.symm.trans hrun'))
    refine ⟨by rwa [← hmap', List.length_map], fun hzero => ?_⟩
    -- the run that holds the NUL is no string of the line in front of it
    obtain ⟨r, hr, hmem⟩ := exists_mem_runs.mpr ⟨hzero, show isBlank 0 = false from rfl⟩
    rw [← hmap', hmap] at hr
    exact L.ne_zero_of_mem_line (exists_mem_runs.mp ⟨r, hr, hmem⟩).1 rfl
  · rintro ⟨hle, hzero⟩
    have hline : L.line = L.text :=
      List.takeWhile_eq_self_iff.mpr fun c hc => bne_iff_ne.mpr fun h => hzero (h ▸ hc)
    rw [hline] at hmap
    refine ⟨buf, toks, hrun, hlen, ?_, hmap, hnul⟩
    rwa [← hmap, List.length_map] at hle

def longLine : LineBuffer where
  chars := (List.replicate 33 [0x61#8, 0x20#8]).flatten
  rest := List.replicate 445 0
  fits := by decide +kernel

theorem longLine_overflows : (∃ buf toks, tokenize longLine.bytes = some (buf, toks) ∧ toks.length = 33) ∧
    ¬ Tokenizes longLine := by
  have hsnd : (tokenize longLine.bytes).map Prod.snd = some ((List.range 33).map (2 * ·)) := by decide +kernel
  obtain ⟨⟨buf, toks⟩, hrun, htoks⟩ := Option.map_eq_some_iff.mp hsnd
  have hlen : toks.length = 33 := by
    rw [show toks = _ from htoks]
    rfl
  refine ⟨⟨buf, toks, hrun, hlen⟩, ?_⟩
  rintro ⟨buf', toks', hrun', -, hle, -⟩
  obtain ⟨-, rfl⟩ := Prod.mk.inj (Option.some.inj (hrun.symm.trans hrun'))
  rw [hlen] at hle
  exact absurd hle (by decide)

end MerlinV
