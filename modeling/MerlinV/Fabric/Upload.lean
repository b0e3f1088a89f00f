import Mathlib.Data.List.GetD
import MerlinV.Cfg.Build
import MerlinV.Fabric.AxiCtrl

/-! # Uploading a program to the fabric

`merlin_top.v` with the two memories of 256 words, and the host tool
`host/merlin-fabric-load.c` as the list of writes that it issues.  A memory ignores a write behind
its last word, and a read there returns an unknown value, `none`.  Of the core only the register
`dmem_we` is kept; its other outputs are inputs of the model.
-/
namespace MerlinV.Fabric

abbrev Bytes := List (BitVec 8)

def memWords : ℕ := 256

abbrev Mem := Fin memWords → BitVec 32

section Memory

def memWrite (mem : Mem) (k : ℕ) (v : BitVec 32) : Mem :=
  if h : k < memWords then Function.update mem ⟨k, h⟩ v else mem

/-- `mem[addr >> 2]` with the low 12 bits of a byte address. -/
def memRead (mem : Mem) (addr : BitVec 32) : Option (BitVec 32) :=
  let k := (addr.extractLsb' 0 12 >>> 2).toNat
  if h : k < memWords then some (mem ⟨k, h⟩) else none

def Port.drive (p : Port) (mem : Mem) : Mem :=
  if p.we then memWrite mem (p.addr >>> 2).toNat p.data else mem

/-- `v` on the byte lanes that are strobed and `old` on the others. -/
def strobed (strb : BitVec 4) (old v : BitVec 32) : BitVec 32 :=
  let lane (k : ℕ) : BitVec 8 := if strb.getLsbD k then v.extractLsb' (8 * k) 8 else old.extractLsb' (8 * k) 8
  lane 3 ++ lane 2 ++ lane 1 ++ lane 0

def coreWrite (mem : Mem) (addr v : BitVec 32) (strb : BitVec 4) : Mem :=
  match memRead mem addr with
  | some old => memWrite mem (addr.extractLsb' 0 12 >>> 2).toNat (strobed strb old v)
  | none => mem

/-- The register `dmem_we` of `merlin_core.v` after an edge. -/
def coreDmemWe (rstN run halted we : Bool) : Bool :=
  if !rstN then false
  else if !run then we
  else if !halted then false
  else we

end Memory

structure Top where
  axi : Regs
  imem : Mem
  dmem : Mem
  coreWe : Bool

structure TopInputs where
  bus : Inputs
  cAddr : BitVec 32
  cWdata : BitVec 32
  cWstrb : BitVec 4

def Top.mem (s : Top) : Bank → Mem
  | .imem => s.imem
  | .dmem => s.dmem

def wire (s : Top) (i : TopInputs) : Inputs :=
  { i.bus with coreRunning := s.axi.coreRun && !i.bus.coreHalted }

def topClock (s : Top) (i : TopInputs) : Top where
  axi := clock s.axi (wire s i)
  imem := (s.axi.port .imem).drive s.imem
  dmem :=
    if (s.axi.port .dmem).we then (s.axi.port .dmem).drive s.dmem
    else if s.coreWe then coreWrite s.dmem i.cAddr i.cWdata i.cWstrb
    else s.dmem
  coreWe := coreDmemWe (i.bus.rstN && s.axi.coreRstN) s.axi.coreRun i.bus.coreHalted s.coreWe

def topTrace (s : Top) (ins : ℕ → TopInputs) : ℕ → Top
  | 0 => s
  | t + 1 => topClock (topTrace s ins t) (ins t)

def busInputs (s : Top) (ins : ℕ → TopInputs) (t : ℕ) : Inputs := wire (topTrace s ins t) (ins t)

section Host

/-- The bytes of the loop variable `i` of both uploads, assembled as the source does. -/
def fullWords (bs : Bytes) : List (BitVec 32) :=
  (List.range (bs.length / 4)).map fun k => textWord bs (4 * k)

/-- The calls `wr(off, v)` of `upload_text`. -/
def uploadText (text : Bytes) : List (BitVec 12 × BitVec 32) :=
  (0x010, 0) :: (fullWords text).map fun w => (0x014, w)

/-- The calls `wr(off, v)` of `upload_ctx`, the last one with what `memcpy` puts into `tail`. -/
def uploadCtx (ctx : Bytes) : List (BitVec 12 × BitVec 32) :=
  let i := 4 * (ctx.length / 4)
  (0x018, 0) :: ((fullWords ctx).map fun w => (0x01c, w)) ++
    if i < ctx.length then [(0x01c, textWord (ctx.drop i ++ List.replicate (4 - (ctx.length - i)) 0) 0)] else []

end Host

section Settled

variable {s : Top} {ins : ℕ → TopInputs}

/-- A memory with the write that its port still holds. -/
def Top.settled (s : Top) (b : Bank) : Mem := (s.axi.port b).drive (s.mem b)

def AfterReset (s : Top) : Prop :=
  ∃ (s₀ : Top) (ins : ℕ → TopInputs) (t : ℕ), (ins 0).bus.rstN = false ∧ s = topTrace s₀ ins (t + 1)

theorem topTrace_coreWe (h : s.coreWe = false) (t : ℕ) : (topTrace s ins t).coreWe = false := by
  induction t with
  | zero => exact h
  | succ t ih =>
    rw [topTrace, topClock, coreDmemWe, ih]
    simp

theorem topTrace_add (t u : ℕ) : topTrace s ins (t + u) =
    topTrace (topTrace s ins t) (fun v => ins (t + v)) u := by
  induction u with
  | zero => rfl
  | succ u ih => rw [← Nat.add_assoc, topTrace, ih, topTrace]

theorem AfterReset.coreWe (h : AfterReset s) : s.coreWe = false := by
  obtain ⟨s₀, ins, t, hrst, rfl⟩ := h
  rw [Nat.add_comm, topTrace_add]
  apply topTrace_coreWe
  rw [topTrace, topTrace, topClock, coreDmemWe, hrst]
  rfl

theorem topClock_mem (h : s.coreWe = false) (i : TopInputs) (b : Bank) :
    (topClock s i).mem b = s.settled b := by
  cases b with
  | imem => rfl
  | dmem =>
    unfold Top.mem topClock Top.settled Port.drive
    rw [h]
    cases (s.axi.port .dmem).we with
    | true => rfl
    | false => rfl

theorem topTrace_axi (t : ℕ) : (topTrace s ins t).axi = trace s.axi (busInputs s ins) t := by
  induction t with
  | zero => rfl
  | succ t ih =>
    rw [topTrace, trace, ← ih]
    rfl

/-- The word select of a bank with its settled memory. -/
structure Image where
  wsel : BitVec 12
  mem : Mem

def Top.image (s : Top) (b : Bank) : Image := ⟨s.axi.wsel b, s.settled b⟩

def Image.write (b : Bank) (l : Image) (w : BitVec 12 × BitVec 32) : Image :=
  let reg := (w.1.extractLsb' 0 8).toNat
  if reg = b.wselReg then { l with wsel := w.2.extractLsb' 0 12 }
  else if reg = b.wdataReg then ⟨l.wsel + 1, memWrite l.mem (l.wsel <<< 2 >>> 2).toNat w.2⟩
  else l

theorem topClock_image (hwe : s.coreWe = false) {i : TopInputs} (hrst : i.bus.rstN = true) (b : Bank) :
    (topClock s i).image b =
      if writeFire s.axi (wire s i) then (s.image b).write b (i.bus.awaddr, i.bus.wdata) else s.image b := by
  have hwire : (wire s i).rstN = true := hrst
  have hport : ((topClock s i).axi.port b) = _ := clock_port hwire b
  have hwsel : (topClock s i).axi.wsel b = _ := clock_wsel hwire b
  unfold Top.image Top.settled
  rw [topClock_mem hwe, hport, hwsel]
  have hreg : ((i.bus.awaddr, i.bus.wdata).1.extractLsb' 0 8).toNat = i.bus.wreg := rfl
  have hreg' : (wire s i).wreg = i.bus.wreg := rfl
  have hne : b.wselReg ≠ b.wdataReg := by cases b <;> decide
  rw [Image.write, hreg, hreg']
  by_cases hfire : writeFire s.axi (wire s i) = true
  · by_cases hsel : i.bus.wreg = b.wselReg
    · have hdata : i.bus.wreg ≠ b.wdataReg := fun h => hne (hsel.symm.trans h)
      rw [if_pos hfire, if_pos ⟨hfire, hsel⟩, if_neg fun h => hdata h.2, if_pos hsel]
      rfl
    · by_cases hdata : i.bus.wreg = b.wdataReg
      · rw [if_pos hfire, if_neg fun h => hsel h.2, if_pos ⟨hfire, hdata⟩, if_pos ⟨hfire, hdata⟩,
          if_neg hsel, if_pos hdata]
        rfl
      · rw [if_pos hfire, if_neg fun h => hsel h.2, if_neg fun h => hdata h.2, if_neg fun h => hdata h.2,
          if_neg hsel, if_neg hdata]
        rfl
  · rw [if_neg hfire, if_neg fun h => hfire h.1, if_neg fun h => hfire h.1, if_neg fun h => hfire h.1]
    rfl

theorem topTrace_image (hwe : s.coreWe = false) (hrst : ∀ t, (ins t).bus.rstN = true) (b : Bank) (t : ℕ) :
    (topTrace s ins t).image b =
      (acceptedWrites s.axi (busInputs s ins) t).foldl (Image.write b) (s.image b) := by
  induction t with
  | zero => rfl
  | succ t ih =>
    rw [topTrace, topClock_image (topTrace_coreWe hwe t) (hrst t), acceptedWrites, List.foldl_append, ← ih,
      ← topTrace_axi]
    change (if writeFire (topTrace s ins t).axi (busInputs s ins t) then _ else _) =
      (if writeFire (topTrace s ins t).axi (busInputs s ins t) then _ else _ : List _).foldl _ _
    split <;> rfl

end Settled

section Words

variable {b : Bank}

def Bank.wselAddr (b : Bank) : BitVec 12 := BitVec.ofNat 12 b.wselReg
def Bank.wdataAddr (b : Bank) : BitVec 12 := BitVec.ofNat 12 b.wdataReg

theorem write_wsel (l : Image) : l.write b (b.wselAddr, 0) = ⟨0, l.mem⟩ := by
  cases b <;> rfl

theorem write_wdata (l : Image) (w : BitVec 32) : l.write b (b.wdataAddr, w) =
    ⟨l.wsel + 1, memWrite l.mem (l.wsel <<< 2 >>> 2).toNat w⟩ := by
  cases b <;> rfl

theorem wsel_index {k : ℕ} (hk : k < memWords) : (BitVec.ofNat 12 k <<< 2 >>> 2).toNat = k := by
  have hk' : k < 256 := hk
  rw [BitVec.toNat_ushiftRight, BitVec.toNat_shiftLeft, BitVec.toNat_ofNat, Nat.shiftLeft_eq,
    Nat.shiftRight_eq_div_pow]
  omega

/-- Words pushed from index `k` on land in their places, as long as they fit. -/
theorem foldl_wdata (ws : List (BitVec 32)) {k : ℕ} (mem : Mem) (hfit : k + ws.length ≤ memWords)
    (j : Fin memWords) :
    ((ws.map fun w => (b.wdataAddr, w)).foldl (Image.write b) ⟨BitVec.ofNat 12 k, mem⟩).mem j =
      if k ≤ j.val then ws.getD (j.val - k) (mem j) else mem j := by
  induction ws generalizing k mem with
  | nil => simp
  | cons w ws ih =>
    rw [List.length_cons] at hfit
    have hk : k < memWords := by omega
    have hnext : (BitVec.ofNat 12 k + 1 : BitVec 12) = BitVec.ofNat 12 (k + 1) := (BitVec.ofNat_add k 1).symm
    rw [List.map_cons, List.foldl_cons, write_wdata, hnext, ih _ (by omega), wsel_index hk, memWrite, dif_pos hk]
    by_cases hj : j = ⟨k, hk⟩
    · subst hj
      simp
    · have hjk : j.val ≠ k := fun h => hj (Fin.ext h)
      rw [Function.update_of_ne hj]
      by_cases hle : k ≤ j.val
      · have hsub : j.val - k = (j.val - (k + 1)) + 1 := by omega
        rw [if_pos hle, if_pos (by omega), hsub, List.getD_cons_succ]
      · rw [if_neg hle, if_neg (by omega)]

theorem readIndex (i : ℕ) : ((BitVec.ofNat 32 (4 * i)).extractLsb' 0 12 >>> 2).toNat = i % 1024 := by
  rw [BitVec.toNat_ushiftRight, BitVec.extractLsb'_toNat, BitVec.toNat_ofNat, Nat.shiftRight_eq_div_pow,
    Nat.shiftRight_eq_div_pow]
  omega

theorem memRead_of_lt (mem : Mem) {i : ℕ} (hi : i < memWords) :
    memRead mem (BitVec.ofNat 32 (4 * i)) = some (mem ⟨i, hi⟩) := by
  have hi' : i < 256 := hi
  have hidx : i % 1024 = i := Nat.mod_eq_of_lt (by omega)
  unfold memRead
  simp only [readIndex, hidx, dif_pos hi]

theorem memRead_memWords (mem : Mem) : memRead mem (BitVec.ofNat 32 (4 * memWords)) = none := rfl

theorem fullWords_getD (bs : Bytes) (k : ℕ) (d : BitVec 32) :
    (fullWords bs).getD k d = if k < bs.length / 4 then textWord bs (4 * k) else d := by
  unfold fullWords
  split
  · rename_i h
    simp [List.getD, h]
  · rename_i h
    simp [List.getD, h]

end Words

section Faithful

variable {s : Top} {ins : ℕ → TopInputs} {b : Bank}

/-- A fetch at every word of `bs` returns the little-endian word, zero-padded at the end. -/
def Faithful (mem : Mem) (bs : Bytes) : Prop :=
  ∀ i, 4 * i < bs.length → memRead mem (BitVec.ofNat 32 (4 * i)) = some (textWord bs (4 * i))

/-- The slave has accepted the writes `ws` by cycle `t`, and the port of `b` is idle again. -/
structure Uploaded (s : Top) (ins : ℕ → TopInputs) (b : Bank) (ws : List (BitVec 12 × BitVec 32)) (t : ℕ) :
    Prop where
  released : ∀ u, (ins u).bus.rstN = true
  accepted : acceptedWrites s.axi (busInputs s ins) t = ws
  idle : ((topTrace s ins t).axi.port b).we = false

theorem mem_of_upload (hs : AfterReset s) {ws : List (BitVec 32)} {t : ℕ}
    (hup : Uploaded s ins b ((b.wselAddr, 0) :: ws.map fun w => (b.wdataAddr, w)) t)
    (hfit : ws.length ≤ memWords) (j : Fin memWords) :
    (topTrace s ins t).mem b j = ws.getD j.val (s.settled b j) := by
  have himage := topTrace_image hs.coreWe hup.released b t
  have hsettled : (topTrace s ins t).settled b = (topTrace s ins t).mem b := by
    rw [Top.settled, Port.drive, hup.idle]
    rfl
  have hmem : (topTrace s ins t).mem b j = ((topTrace s ins t).image b).mem j := by
    rw [Top.image, hsettled]
  have hfold := foldl_wdata (b := b) ws (k := 0) (s.settled b) (by omega) j
  rw [if_pos (Nat.zero_le _), Nat.sub_zero] at hfold
  rw [hmem, himage, hup.accepted, List.foldl_cons, write_wsel]
  exact hfold

theorem Faithful.length_le {mem : Mem} {bs : Bytes} (h : Faithful mem bs) : bs.length ≤ 1024 := by
  by_contra hlong
  have hread := h memWords (by unfold memWords; omega)
  rw [memRead_memWords] at hread
  cases hread

theorem faithful_text_iff (hs : AfterReset s) {text : Bytes} {t : ℕ}
    (hup : Uploaded s ins .imem (uploadText text) t) :
    Faithful (topTrace s ins t).imem text ↔ text.length ≤ 1024 ∧
      (text.length % 4 = 0 ∨ memRead (s.settled .imem) (BitVec.ofNat 32 (4 * (text.length / 4))) =
        some (textWord text (4 * (text.length / 4)))) := by
  have hlen : (fullWords text).length = text.length / 4 := by simp [fullWords]
  have hwords : memWords = 256 := rfl
  have hmem := @mem_of_upload s ins .imem hs (fullWords text) t hup
  constructor
  · intro h
    have hle := h.length_le
    refine ⟨hle, ?_⟩
    by_cases hmod : text.length % 4 = 0
    · exact .inl hmod
    · have hlt : text.length / 4 < memWords := by omega
      have hread := h (text.length / 4) (by omega)
      rw [memRead_of_lt _ hlt] at hread ⊢
      have hlast := hmem (by omega) ⟨text.length / 4, hlt⟩
      rw [fullWords_getD, if_neg (lt_irrefl _)] at hlast
      change (topTrace s ins t).imem _ = _ at hlast
      rw [hlast] at hread
      exact .inr hread
  · rintro ⟨hle, htail⟩ i hi
    have hlt : i < memWords := by omega
    have hword := hmem (by omega) ⟨i, hlt⟩
    change (topTrace s ins t).imem _ = _ at hword
    rw [memRead_of_lt _ hlt, hword, fullWords_getD]
    by_cases hfull : i < text.length / 4
    · rw [if_pos hfull]
    · obtain rfl : i = text.length / 4 := by omega
      rw [if_neg (lt_irrefl _)]
      rcases htail with hmod | htail
      · omega
      · rwa [memRead_of_lt _ hlt] at htail

theorem getD_pad (bs : Bytes) (i m k : ℕ) :
    (bs.drop i ++ List.replicate m 0).getD k 0 = bs.getD (i + k) 0 := by
  by_cases hk : k < (bs.drop i).length
  · rw [List.getD_append _ _ _ _ hk]
    simp [List.getD]
  · have hout : bs.length ≤ i + k := by
      rw [List.length_drop] at hk
      omega
    rw [List.getD_append_right _ _ _ _ (not_lt.mp hk), List.getD_eq_default _ _ hout]
    simp only [List.getD, List.getElem?_replicate]
    split <;> rfl

def ctxWords (ctx : Bytes) : List (BitVec 32) :=
  fullWords ctx ++ if 4 * (ctx.length / 4) < ctx.length then [textWord ctx (4 * (ctx.length / 4))] else []

theorem uploadCtx_eq (ctx : Bytes) : uploadCtx ctx =
    (Bank.dmem.wselAddr, 0) :: (ctxWords ctx).map fun w => (Bank.dmem.wdataAddr, w) := by
  have htail : ∀ m, textWord (ctx.drop (4 * (ctx.length / 4)) ++ List.replicate m 0) 0 =
      textWord ctx (4 * (ctx.length / 4)) := by
    intro m
    unfold textWord
    rw [getD_pad, getD_pad, getD_pad, getD_pad]
    rfl
  unfold uploadCtx ctxWords
  dsimp only
  rw [htail, List.map_append]
  split <;> rfl

theorem ctxWords_getD (ctx : Bytes) {k : ℕ} (hk : 4 * k < ctx.length) (d : BitVec 32) :
    (ctxWords ctx).getD k d = textWord ctx (4 * k) := by
  have hlen : (fullWords ctx).length = ctx.length / 4 := by simp [fullWords]
  unfold ctxWords
  by_cases hfull : k < ctx.length / 4
  · rw [List.getD_append _ _ _ _ (by omega), fullWords_getD, if_pos hfull]
  · obtain rfl : k = ctx.length / 4 := by omega
    rw [List.getD_append_right _ _ _ _ (by omega), hlen, Nat.sub_self, if_pos hk]
    rfl

theorem ctxWords_length_le {ctx : Bytes} (h : ctx.length ≤ 1024) : (ctxWords ctx).length ≤ memWords := by
  have hwords : memWords = 256 := rfl
  have hlen : (fullWords ctx).length = ctx.length / 4 := by simp [fullWords]
  unfold ctxWords
  rw [List.length_append, hlen]
  split
  · rw [List.length_singleton]
    omega
  · rw [List.length_nil]
    omega

theorem faithful_ctx_iff (hs : AfterReset s) {ctx : Bytes} {t : ℕ}
    (hup : Uploaded s ins .dmem (uploadCtx ctx) t) :
    Faithful (topTrace s ins t).dmem ctx ↔ ctx.length ≤ 1024 := by
  rw [uploadCtx_eq] at hup
  constructor
  · exact Faithful.length_le
  · intro hle i hi
    have hwords : memWords = 256 := rfl
    have hlt : i < memWords := by omega
    have hword := mem_of_upload hs hup (ctxWords_length_le hle) ⟨i, hlt⟩
    change (topTrace s ins t).dmem _ = _ at hword
    rw [memRead_of_lt _ hlt, hword, ctxWords_getD ctx hi]

/-- After an upload through the slave the text is in the instruction memory exactly when it fits and
has no partial word, unless that word was there before; a context is in the data memory exactly when
it fits. -/
theorem upload_faithful_iff (s : Top) (ins : ℕ → TopInputs) (t : ℕ) (hs : AfterReset s) :
    (∀ text, Uploaded s ins .imem (uploadText text) t →
      (Faithful (topTrace s ins t).imem text ↔ text.length ≤ 1024 ∧
        (text.length % 4 = 0 ∨ memRead (s.settled .imem) (BitVec.ofNat 32 (4 * (text.length / 4))) =
          some (textWord text (4 * (text.length / 4)))))) ∧
    (∀ ctx, Uploaded s ins .dmem (uploadCtx ctx) t →
      (Faithful (topTrace s ins t).dmem ctx ↔ ctx.length ≤ 1024)) :=
  ⟨fun _ hup => faithful_text_iff hs hup, fun _ hup => faithful_ctx_iff hs hup⟩

end Faithful

section Samples

/-- A master that issues `ws`, one write in every other cycle, and always takes the response. -/
def master (ws : List (BitVec 12 × BitVec 32)) (t : ℕ) : TopInputs :=
  let w := ws.getD (t / 2) (0, 0)
  let valid : Bool := t % 2 = 0 && t / 2 < ws.length
  ⟨⟨true, w.1, valid, w.2, 0xf, valid, true, 0, false, true, false, false, 0⟩, 0, 0, 0⟩

/-- The fabric after one cycle of reset, with empty memories. -/
def freshTop : Top :=
  topTrace ⟨Regs.reset, fun _ => 0, fun _ => 0, false⟩
    (fun _ => { master [] 0 with bus := { (master [] 0).bus with rstN := false } }) 1

theorem freshTop_afterReset : AfterReset freshTop := ⟨_, _, 0, rfl, rfl⟩

/-- `ret`. -/
def oneWord : Bytes := [0x67, 0x80, 0, 0]

theorem oneWord_faithful :
    Uploaded freshTop (master (uploadText oneWord)) .imem (uploadText oneWord) 4 ∧
    Faithful (topTrace freshTop (master (uploadText oneWord)) 4).imem oneWord := by
  have hup : Uploaded freshTop (master (uploadText oneWord)) .imem (uploadText oneWord) 4 :=
    ⟨fun _ => rfl, by decide +kernel, by decide +kernel⟩
  have hiff := (upload_faithful_iff freshTop (master (uploadText oneWord)) 4 freshTop_afterReset).1 oneWord hup
  exact ⟨hup, hiff.mpr ⟨by decide, .inl rfl⟩⟩

/-- The last partial word of a text is not uploaded. -/
theorem partialWord_not_faithful :
    Uploaded freshTop (master (uploadText [0x13])) .imem (uploadText [0x13]) 4 ∧
    ¬ Faithful (topTrace freshTop (master (uploadText [0x13])) 4).imem [0x13] := by
  refine ⟨⟨fun _ => rfl, by decide +kernel, by decide +kernel⟩, fun h => ?_⟩
  have hread := h 0 (by decide)
  revert hread
  decide +kernel

end Samples

end MerlinV.Fabric
