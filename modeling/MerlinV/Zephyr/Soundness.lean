import MerlinV.Machine.Shadow
import MerlinV.Zephyr.Verifier

/-! # What acceptance gives for the runs of a text

The scan reads the words in the order of the text and carries one register state along, whatever
path a run takes.  What it says of a register is true while the value there comes from the word that
is the last one in front to write it.  A taken jump over a write breaks that; `x0` and the targets of
jumps are not looked at.
-/
namespace MerlinV.Zephyr

section Writers

def writes (cls : InsnClass) (rd r : Reg) : Bool :=
  match cls with
  | .ecall => callerSaved r
  | .lui | .auipc | .jal | .jalr | .load | .aluImm | .shiftImm | .aluReg | .mul | .div => r = rd && r ≠ 0
  | _ => false

/-- The last word in front of word `n` that writes `r`, in the order of the text. -/
def lastWriter (text : Text) : ℕ → Reg → Option ℕ
  | 0, _ => none
  | n + 1, r =>
    if (insnAt text (4 * n)).any (fun z => writes z.cls z.rd r) then some n else lastWriter text n r

def behind (cfg : VerifierCfg) (text : Text) : Option ℕ → VState
  | none => vstateInitEntry
  | some n => (scan cfg text (n + 1)).x

/-- What the scan notes for `rd`, other than at an `ecall`. -/
def noted (x : VState) (z : Insn) : Rval :=
  if z.cls = .aluImm ∧ z.aluOp = .add then
    if z.rs1 = 0 then .const z.imm
    else match x z.rs1 with
      | .const v => .const (v + z.imm)
      | .ptrCtx off => .ptrCtx (off + z.imm)
      | .ptrStack off => .ptrStack (off + z.imm)
      | _ => .unknown
  else if z.cls = .lui then .const z.imm
  else .unknown

variable {cfg : VerifierCfg} {text : Text} {s : Scan} {z : Insn} {r : Reg}

theorem Scan.set_x (rd : Reg) (v : Rval) : (s.set rd v).x r = if r = rd then v else s.x r := by
  simp [Scan.set, Function.update_apply]

theorem Scan.assign_x (rd : Reg) (v : Rval) :
    (s.assign rd v).x r = if r = rd ∧ rd ≠ 0 then v else s.x r := by
  unfold Scan.assign
  by_cases h : rd = 0
  · simp [h]
  · simp [h, Scan.set_x]

theorem Scan.clobber_x : s.clobber.x r = if callerSaved r = true ∧ r ≠ 10 then .unknown else s.x r := by
  have hiff : ((11 ≤ r ∧ r ≤ 17) ∨ (5 ≤ r ∧ r ≤ 7) ∨ (28 ≤ r ∧ r ≤ 31)) ↔ callerSaved r = true ∧ r ≠ 10 := by
    revert r
    decide
  exact if_congr hiff rfl rfl

theorem scanEcall_x_saved (h : callerSaved r = false) : (scanEcall cfg s).x r = s.x r := by
  have hten : r ≠ 10 := by
    rintro rfl
    cases h
  unfold scanEcall
  split
  · split
    · simp [Scan.clobber_x, h]
    · simp [Scan.clobber_x, Scan.set_x, h, hten]
  · simp [Scan.clobber_x, h]

/-- Behind an allowed call `a0` is a helper result and the other clobbered registers are unknown. -/
theorem scanEcall_x_clobbered {id : BitVec 32} (hid : s.x 17 = .const id) (hal : helperAllowed cfg id = true)
    (h : callerSaved r = true) :
    (scanEcall cfg s).x r = if r = 10 then .ptrHelperRet id else .unknown := by
  unfold scanEcall
  rw [hid]
  simp only [hal, Bool.not_true, Bool.false_eq_true, if_false, Scan.clobber_x, h, true_and, Scan.set_x]
  by_cases hten : r = 10
  · simp [hten]
  · simp [hten]

theorem scanAddi_x (hcls : z.cls = .aluImm ∧ z.aluOp = .add) (hr : r ≠ 0) :
    (scanAddi z s).x r = if r = z.rd then noted s.x z else s.x r := by
  have hzero : r = z.rd → z.rd ≠ 0 := fun h h0 => hr (h.trans h0)
  unfold scanAddi noted
  rw [if_pos hcls]
  by_cases hrs : z.rs1 = 0
  · rw [if_pos hrs, if_pos hrs, Scan.set_x]
  · rw [if_neg hrs, if_neg hrs]
    cases hx : s.x z.rs1 with
    | const v => exact Scan.set_x _ _
    | ptrCtx off => exact Scan.set_x _ _
    | ptrStack off => exact Scan.set_x _ _
    | unknown =>
      dsimp only
      rw [Scan.assign_x]
      exact if_congr ⟨fun h => h.1, fun h => ⟨h, hzero h⟩⟩ rfl rfl
    | ptrHelperRet id =>
      dsimp only
      rw [Scan.assign_x]
      exact if_congr ⟨fun h => h.1, fun h => ⟨h, hzero h⟩⟩ rfl rfl

/-- What a permitted instruction other than `ecall` does to the registers but `x0`.  A branch and a
`fence` change the register that their bits 11 to 7 name. -/
theorem scanInsn_x (hperm : merlinInsnPermittedRtos z = true) (hcls : z.cls ≠ .ecall) (hr : r ≠ 0) :
    (scanInsn cfg z s).x r = if r = z.rd ∧ z.cls ≠ .store then noted s.x z else s.x r := by
  have hassign : ∀ (s' : Scan) v, (s'.assign z.rd v).x r = if r = z.rd then v else s'.x r := by
    intro s' v
    rw [Scan.assign_x]
    exact if_congr ⟨fun h => h.1, fun h => ⟨h, fun h0 => hr (h.trans h0)⟩⟩ rfl rfl
  unfold scanInsn
  rw [if_neg (by simp [hperm])]
  have hx := Scan.ite_reject_x (backEdge cfg z = true) s
  generalize (if backEdge cfg z = true then s.reject else s) = s' at hx
  simp only [if_neg hcls, ← hx]
  by_cases hacc : z.cls = .load ∨ z.cls = .store
  · have hnoted : noted s'.x z = .unknown := by
      rcases hacc with h | h
      · simp [noted, h]
      · simp [noted, h]
    have hrej := Scan.ite_keep_x ((s'.x z.rs1).isPtr = true) s'
    rw [if_pos hacc, hnoted, scanAccess]
    rcases hacc with h | h
    · simp only [h, if_true, hassign, hrej, ne_eq, reduceCtorEq, not_false_eq_true, and_true]
    · simp only [h, reduceCtorEq, if_false, hrej, ne_eq, not_true_eq_false, and_false]
  · have hstore : z.cls ≠ .store := fun h => hacc (.inr h)
    rw [if_neg hacc]
    simp only [ne_eq, hstore, not_false_eq_true, and_true]
    by_cases haddi : z.cls = .aluImm ∧ z.aluOp = .add
    · rw [if_pos haddi, scanAddi_x haddi hr]
    · rw [if_neg haddi]
      by_cases hlui : z.cls = .lui
      · rw [if_pos hlui, hassign, noted, if_neg haddi, if_pos hlui]
      · rw [if_neg hlui, hassign, noted, if_neg haddi, if_neg hlui]

theorem scanInsn_ecall (hperm : merlinInsnPermittedRtos z = true) (hcls : z.cls = .ecall) :
    scanInsn cfg z s = scanEcall cfg s := by
  simp [scanInsn, hperm, hcls, backEdge]

/-- A word that does not write `r` leaves what the scan says of it, or makes it say
nothing. -/
theorem scanInsn_x_of_not_writes (hr : r ≠ 0) (h : writes z.cls z.rd r = false) :
    (scanInsn cfg z s).x r = s.x r ∨ (scanInsn cfg z s).x r = .unknown := by
  by_cases hperm : merlinInsnPermittedRtos z = true
  · by_cases hecall : z.cls = .ecall
    · have hsaved : callerSaved r = false := by
        rwa [hecall] at h
      exact .inl (by rw [scanInsn_ecall hperm hecall, scanEcall_x_saved hsaved])
    · rw [scanInsn_x hperm hecall hr]
      by_cases hrd : r = z.rd ∧ z.cls ≠ .store
      · rw [if_pos hrd]
        right
        unfold noted
        unfold writes at h
        rw [← hrd.1] at h
        split at h <;> simp_all
      · rw [if_neg hrd]
        exact .inl rfl
  · exact .inl (by simp [scanInsn, hperm])

/-- In front of word `n` the scan says of `r` what it noted at the last word that writes it. -/
theorem scan_x_lastWriter (hr : r ≠ 0) (n : ℕ) : (scan cfg text n).x r = .unknown ∨
    (scan cfg text n).x r = behind cfg text (lastWriter text n r) r := by
  induction n with
  | zero => exact .inr rfl
  | succ n ih =>
    rw [lastWriter]
    by_cases hw : (insnAt text (4 * n)).any (fun z => writes z.cls z.rd r) = true
    · rw [if_pos hw]
      exact .inr rfl
    · rw [if_neg hw, scan_succ, scanWord]
      cases hz : insnAt text (4 * n) with
      | none => exact ih
      | some z =>
        have hnot : writes z.cls z.rd r = false := by
          simpa [hz] using hw
        rcases @scanInsn_x_of_not_writes cfg { scan cfg text n with
          insnsSeen := (scan cfg text n).insnsSeen + 1 } z r hr hnot with h | h
        · simp only [h]
          exact ih
        · exact .inl h

end Writers

section Origins

structure Origins where
  /-- The pointer that the value is derived from. -/
  root : Reg → Option Root
  /-- The word that wrote the register; `none` is the entry. -/
  writer : Reg → Option ℕ
  /-- The sources of the `addi` chain behind the value were written in the order of the text. -/
  ordered : Reg → Bool

namespace Origins

variable (g : Origins) (text : Text) (n : ℕ)

/-- At word `n` the value in `r` is the one that the order of the text suggests. -/
def current (r : Reg) : Bool := g.ordered r && (g.writer r = lastWriter text n r : Bool)

/-- The origin of what an instruction other than `ecall` writes to `rd`: a pointer is moved by a
number, and everything else is a number. -/
def resultRoot (insn : MerlinV.Insn) : Option Root :=
  match insn.cls with
  | .aluImm => if insn.aluOp = .add then g.root insn.rs1 else none
  | .aluReg =>
    match g.root insn.rs1, g.root insn.rs2 with
    | some root, none => if insn.aluOp = .add ∨ insn.aluOp = .sub then some root else none
    | none, some root => if insn.aluOp = .add then some root else none
    | _, _ => none
  | _ => none

def resultOrdered (insn : MerlinV.Insn) : Bool :=
  if insn.cls = .aluImm ∧ insn.aluOp = .add ∧ insn.rs1 ≠ 0 then g.current text n insn.rs1 else true

/-- The origins behind the instruction of word `n`.  A helper returns a pointer in `a0`. -/
def next (insn : MerlinV.Insn) : Origins where
  root r :=
    if !writes insn.cls insn.rd r then g.root r
    else if insn.cls = .ecall then (if r = 10 then some .helper else none)
    else g.resultRoot insn
  writer r := if !writes insn.cls insn.rd r then g.writer r else some n
  ordered r :=
    if !writes insn.cls insn.rd r then g.ordered r
    else if insn.cls = .ecall then true
    else g.resultOrdered text n insn

def entry : Origins where
  root r := if r = 10 then some .ctx else if r = 2 then some .stack else none
  writer _ := none
  ordered _ := true

end Origins

def word (E : Rv32.Env) (s : Rv32.State) : ℕ := E.off s.pc / 4

/-- The next instruction uses no register that a jump has put out of the order of the text, makes no
access through `x0`, and continues at a word of the text. -/
structure StepOk (E : Rv32.Env) (s : Rv32.State) (g : Origins) (insn : MerlinV.Insn) : Prop where
  call : insn.cls = .ecall → g.current E.text (word E s) 17 = true
  base : insn.cls = .load ∨ insn.cls = .store → insn.rs1 ≠ 0 ∧ g.current E.text (word E s) insn.rs1 = true
  jump : Rv32.jumps insn s = true → ¬ E.Returns s → E.InText (Rv32.target insn s)
  fall : Rv32.jumps insn s = false → E.off s.pc + 4 < E.text.length

inductive OrderedRun (E : Rv32.Env) : Rv32.State → Origins → Prop where
  | entry {s : Rv32.State} (start : Rv32.Entry E s) : OrderedRun E s .entry
  | step {s s' : Rv32.State} {g : Origins} {insn : MerlinV.Insn} (run : OrderedRun E s g)
      (fetch : E.fetch s.pc = some insn) (ok : StepOk E s g insn) (step : Rv32.Step E s s') :
      OrderedRun E s' (g.next E.text (word E s) insn)

end Origins

section Runs

variable {cfg : VerifierCfg} {E : Rv32.Env} {s s' : Rv32.State} {g : Origins} {insn : MerlinV.Insn}

def Covers (v : Rval) (x : BitVec 32) (root : Option Root) : Prop :=
  match v with
  | .unknown => True
  | .const c => x = c
  | .ptrCtx _ => root = some .ctx
  | .ptrStack _ => root = some .stack
  | .ptrHelperRet _ => root = some .helper

/-- The invariant of the runs: what the scan noted at the word that wrote a register is true of the
register, for those written in order.  It does not speak of the program counter. -/
structure Tracked (cfg : VerifierCfg) (E : Rv32.Env) (s : Rv32.State) (g : Origins) : Prop where
  zero : s.x 0 = 0
  covers : ∀ r, r ≠ 0 → g.ordered r = true → Covers (behind cfg E.text (g.writer r) r) (s.x r) (g.root r)

theorem tracked_entry (hentry : Rv32.Entry E s) : Tracked cfg E s .entry := by
  refine ⟨hentry.zero, fun r hr _ => ?_⟩
  change Covers (vstateInitEntry r) (s.x r) _
  unfold vstateInitEntry
  rw [if_neg hr]
  by_cases hten : r = 10
  · subst hten
    exact rfl
  · rw [if_neg hten]
    by_cases htwo : r = 2
    · subst htwo
      exact rfl
    · rw [if_neg htwo]
      exact trivial

theorem Tracked.current (h : Tracked cfg E s g) {r : Reg} (hr : r ≠ 0) {n : ℕ}
    (hcur : g.current E.text n r = true) : Covers ((scan cfg E.text n).x r) (s.x r) (g.root r) := by
  simp only [Origins.current, Bool.and_eq_true, decide_eq_true_eq] at hcur
  rcases @scan_x_lastWriter cfg E.text r hr n with hx | hx
  · rw [hx]
    exact trivial
  · rw [hx, ← hcur.2]
    exact h.covers r hr hcur.1

theorem Tracked.noted (h : Tracked cfg E s g) {z : Insn} (hreads : Reads z insn) {v : BitVec 32}
    (hres : Rv32.result? insn s = some v) {n : ℕ} (hord : g.resultOrdered E.text n insn = true) :
    Covers (noted (scan cfg E.text n).x z) v (g.resultRoot insn) := by
  unfold Zephyr.noted
  rw [hreads.cls, hreads.aluOp, hreads.rs1, hreads.imm]
  by_cases haddi : insn.cls = .aluImm ∧ insn.aluOp = .add
  · have hv : v = s.x insn.rs1 + Rv32.imm insn := by
      simpa [Rv32.result?, haddi, Rv32.alu] using hres.symm
    have hroot : g.resultRoot insn = g.root insn.rs1 := by
      simp [Origins.resultRoot, haddi]
    rw [if_pos haddi, hroot]
    by_cases hrs : insn.rs1 = 0
    · rw [if_pos hrs]
      rw [hrs, h.zero] at hv
      exact hv.trans (BitVec.zero_add _)
    · rw [Origins.resultOrdered, if_pos ⟨haddi.1, haddi.2, hrs⟩] at hord
      have hcov := h.current hrs hord
      rw [if_neg hrs]
      cases hx : (scan cfg E.text n).x insn.rs1 with
      | const c =>
        rw [hx] at hcov
        change s.x insn.rs1 = c at hcov
        exact hv.trans (by rw [hcov])
      | ptrCtx off =>
        rw [hx] at hcov
        exact hcov
      | ptrStack off =>
        rw [hx] at hcov
        exact hcov
      | unknown => exact trivial
      | ptrHelperRet id => exact trivial
  · rw [if_neg haddi]
    by_cases hlui : insn.cls = .lui
    · rw [if_pos hlui]
      simpa [Rv32.result?, hlui, Covers] using hres.symm
    · rw [if_neg hlui]
      exact trivial

theorem behind_word (hfetch : E.fetch s.pc = some insn) {z : Insn}
    (hz : insnAt E.text (E.off s.pc) = some z) : behind cfg E.text (some (word E s)) =
      (scanInsn cfg z { scan cfg E.text (word E s) with
        insnsSeen := (scan cfg E.text (word E s)).insnsSeen + 1 }).x := by
  have hmod := (Rv32.Env.inText_of_fetch hfetch).1.2
  have hoff : 4 * word E s = E.off s.pc := by
    unfold word
    omega
  change (scan cfg E.text (word E s + 1)).x = _
  rw [scan_succ, scanWord, hoff, hz]

theorem Tracked.helper (h : Tracked cfg E s g) (hacc : Accepted cfg E.text)
    (hfetch : E.fetch s.pc = some insn) (hcls : insn.cls = .ecall) (hret : Rv32.HelperReturn s s') :
    Tracked cfg E s' (g.next E.text (word E s) insn) := by
  obtain ⟨z, hz, hreads, hok⟩ := hacc.word hfetch
  have hzcls : z.cls = .ecall := hreads.cls.trans hcls
  obtain ⟨id, hid, hal⟩ := hok.helper hzcls
  refine ⟨(hret.saved 0 rfl).trans h.zero, fun r hr hord => ?_⟩
  by_cases hw : callerSaved r = true
  · have hwrites : writes .ecall insn.rd r = true := hw
    have hscan : behind cfg E.text (some (word E s)) r = if r = 10 then .ptrHelperRet id else .unknown := by
      rw [behind_word hfetch hz, scanInsn_ecall hok.permitted hzcls]
      exact scanEcall_x_clobbered hid hal hw
    simp only [Origins.next, hwrites, Bool.not_true, Bool.false_eq_true, if_false, hcls, if_true]
    rw [hscan]
    by_cases hten : r = 10
    · rw [if_pos hten, if_pos hten]
      exact rfl
    · rw [if_neg hten]
      exact trivial
  · have hsaved : callerSaved r = false := by
      simpa using hw
    have hwrites : writes .ecall insn.rd r = false := hsaved
    simp only [Origins.next, hcls, hwrites, Bool.not_false, if_true] at hord ⊢
    rw [hret.saved r hsaved]
    exact h.covers r hr hord

theorem writes_iff_result (hcls : insn.cls ≠ .ecall) (r : Reg) :
    writes insn.cls insn.rd r = true ↔ (Rv32.result? insn s).isSome = true ∧ r = insn.rd ∧ r ≠ 0 := by
  unfold writes Rv32.result?
  cases hc : insn.cls <;> simp_all

theorem Tracked.plain (h : Tracked cfg E s g) (hacc : Accepted cfg E.text)
    (hfetch : E.fetch s.pc = some insn) (hcls : insn.cls ≠ .ecall) :
    Tracked cfg E (Rv32.exec insn s) (g.next E.text (word E s) insn) := by
  obtain ⟨z, hz, hreads, hok⟩ := hacc.word hfetch
  have hzcls : z.cls ≠ .ecall := by
    rwa [hreads.cls]
  have hkeep : ∀ r, writes insn.cls insn.rd r = false → (Rv32.exec insn s).x r = s.x r := by
    intro r hnot
    rw [Rv32.exec_x]
    cases hres : Rv32.result? insn s with
    | none => rfl
    | some v =>
      refine if_neg fun hrd => ?_
      have hw := (@writes_iff_result s insn hcls r).mpr ⟨by rw [hres]; rfl, hrd.1, by rw [hrd.1]; exact hrd.2⟩
      rw [hnot] at hw
      cases hw
  have hzero : writes insn.cls insn.rd 0 = false := by
    cases hw : writes insn.cls insn.rd 0 with
    | false => rfl
    | true => exact absurd rfl ((@writes_iff_result s insn hcls 0).mp hw).2.2
  refine ⟨(hkeep 0 hzero).trans h.zero, fun r hr hord => ?_⟩
  cases hw : writes insn.cls insn.rd r with
  | false =>
    simp only [Origins.next, hw, Bool.not_false, if_true] at hord ⊢
    rw [hkeep r hw]
    exact h.covers r hr hord
  | true =>
    obtain ⟨hsome, hrd, -⟩ := (@writes_iff_result s insn hcls r).mp hw
    obtain ⟨v, hres⟩ := Option.isSome_iff_exists.mp hsome
    have hstore : z.cls ≠ .store := by
      rw [hreads.cls]
      intro hst
      rw [hst] at hw
      cases hw
    have hscan : behind cfg E.text (some (word E s)) r = Zephyr.noted (scan cfg E.text (word E s)).x z := by
      rw [behind_word hfetch hz, scanInsn_x hok.permitted hzcls hr,
        if_pos ⟨by rw [hreads.rd]; exact hrd, hstore⟩]
    simp only [Origins.next, hw, Bool.not_true, Bool.false_eq_true, if_false, if_neg hcls] at hord ⊢
    rw [hscan, Rv32.exec_x, hres]
    dsimp only
    rw [if_pos ⟨hrd, by rw [← hrd]; exact hr⟩]
    exact h.noted hreads hres hord

theorem Tracked.step (h : Tracked cfg E s g) (hacc : Accepted cfg E.text)
    (hfetch : E.fetch s.pc = some insn) (hstep : Rv32.Step E s s') :
    Tracked cfg E s' (g.next E.text (word E s) insn) := by
  cases hstep with
  | plain insn' hfetch' hcls _ hnext =>
    obtain rfl := Option.some.inj (hfetch.symm.trans hfetch')
    rw [hnext]
    exact h.plain hacc hfetch hcls
  | helper insn' hfetch' hcls hret =>
    obtain rfl := Option.some.inj (hfetch.symm.trans hfetch')
    exact h.helper hacc hfetch hcls hret

theorem OrderedRun.tracked (hacc : Accepted cfg E.text) (hrun : OrderedRun E s g) : Tracked cfg E s g := by
  induction hrun with
  | entry start => exact tracked_entry start
  | step _ hfetch _ hstep ih => exact ih.step hacc hfetch hstep

theorem StepOk.inText (hok : StepOk E s g insn) (hfetch : E.fetch s.pc = some insn)
    (hstep : Rv32.Step E s s') : E.InText s'.pc := by
  have hin := (Rv32.Env.inText_of_fetch hfetch).1
  have hnext : Rv32.jumps insn s = false → E.InText (s.pc + 4) := by
    intro hfall
    have hlt := hok.fall hfall
    have hmod := hin.2
    have hoff := Rv32.Env.off_next hin
    unfold Rv32.Env.InText
    omega
  cases hstep with
  | plain insn' hfetch' hcls hstay hexec =>
    obtain rfl := Option.some.inj (hfetch.symm.trans hfetch')
    rw [hexec, Rv32.exec_pc, Rv32.nextPc]
    cases hjump : Rv32.jumps insn s with
    | true => exact hok.jump hjump hstay
    | false => exact hnext hjump
  | helper insn' hfetch' hcls hret =>
    obtain rfl := Option.some.inj (hfetch.symm.trans hfetch')
    rw [hret.pc]
    exact hnext (by simp [Rv32.jumps, hcls])

theorem OrderedRun.inText (hacc : Accepted cfg E.text) (hrun : OrderedRun E s g) : E.InText s.pc := by
  cases hrun with
  | entry start =>
    have hne := ((accepted_iff (lt_trans E.short (by norm_num))).mp hacc).1
    have hoff : E.off s.pc = 0 := by
      rw [start.pc, Rv32.Env.off, BitVec.sub_self]
      rfl
    exact ⟨by rw [hoff]; exact List.length_pos_of_ne_nil hne, by rw [hoff]⟩
  | step _ hfetch hok hstep => exact hok.inText hfetch hstep

/-- In a run whose steps meet the condition, the program counter stays at the words of the text, and an
instruction that meets it calls an allowed helper or goes through a derived pointer. -/
theorem ordered_run_safe (hacc : Accepted cfg E.text) (s : Rv32.State) (g : Origins)
    (hrun : OrderedRun E s g) : E.InText s.pc ∧
      ∀ insn, E.fetch s.pc = some insn → StepOk E s g insn →
        (insn.cls = .ecall → helperAllowed cfg (s.x 17) = true) ∧
        (insn.cls = .load ∨ insn.cls = .store → ∃ root, g.root insn.rs1 = some root) := by
  have htr := hrun.tracked hacc
  refine ⟨hrun.inText hacc, fun insn hfetch hok => ?_⟩
  obtain ⟨z, -, hreads, hchecks⟩ := hacc.word hfetch
  constructor
  · intro hcls
    obtain ⟨id, hid, hal⟩ := hchecks.helper (hreads.cls.trans hcls)
    have hcov := htr.current (by decide) (hok.call hcls)
    rw [word, hid] at hcov
    change s.x 17 = id at hcov
    rwa [hcov]
  · intro hcls
    obtain ⟨hzero, hcur⟩ := hok.base hcls
    have hptr := hchecks.access (by rwa [hreads.cls])
    have hcov := htr.current hzero hcur
    rw [hreads.rs1] at hptr
    rw [word] at hcov
    cases hx : (scan cfg E.text (E.off s.pc / 4)).x insn.rs1 with
    | unknown =>
      rw [hx] at hptr
      cases hptr
    | const c =>
      rw [hx] at hptr
      cases hptr
    | ptrCtx off =>
      rw [hx] at hcov
      exact ⟨.ctx, hcov⟩
    | ptrStack off =>
      rw [hx] at hcov
      exact ⟨.stack, hcov⟩
    | ptrHelperRet id =>
      rw [hx] at hcov
      exact ⟨.helper, hcov⟩

end Runs

/-- `li a7, 1; ecall; lw a1, 0(a0); ret`: call a helper and read through its result. -/
def helperWordText : Text := ofWords [0x00100893, 0x00000073, 0x00052583, 0x00008067]

/-- `beq x0, x0, 8; li a7, 1; ecall; ret`: the jump skips the word that sets `a7`. -/
def skippedIdText : Text := ofWords [0x00000463, 0x00100893, 0x00000073, 0x00008067]

def helperWordEnv : Rv32.Env := Rv32.envOf helperWordText (by decide)

def skippedIdEnv : Rv32.Env := Rv32.envOf skippedIdText (by decide)

def helperWordCall : Rv32.State :=
  Rv32.exec (MerlinV.merlinDecode 0x00100893 0) (Rv32.entryState helperWordEnv)

def helperWordRead : Rv32.State := { helperWordCall with pc := 0x1008 }

def callOrigins : Origins := Origins.entry.next helperWordText 0 (MerlinV.merlinDecode 0x00100893 0)

def readOrigins : Origins := callOrigins.next helperWordText 1 (MerlinV.merlinDecode 0x00000073 0)

theorem helperWordText_safe :
    helperAllowed (merlinVerifierCfgForProg 512) (helperWordCall.x 17) = true ∧
      ∃ root, readOrigins.root 10 = some root := by
  have hacc : Accepted (merlinVerifierCfgForProg 512) helperWordEnv.text := by decide +kernel
  have hli : helperWordEnv.fetch (Rv32.entryState helperWordEnv).pc =
      some (MerlinV.merlinDecode 0x00100893 0) := by decide +kernel
  have hecall : helperWordEnv.fetch helperWordCall.pc = some (MerlinV.merlinDecode 0x00000073 0) := by
    decide +kernel
  have hlw : helperWordEnv.fetch helperWordRead.pc = some (MerlinV.merlinDecode 0x00052583 0) := by
    decide +kernel
  have hstay : ¬ helperWordEnv.Returns (Rv32.entryState helperWordEnv) := by
    rintro ⟨insn, hfetch, hcls, -⟩
    obtain rfl := Option.some.inj (hli.symm.trans hfetch)
    exact absurd hcls (by decide)
  have hok₀ : StepOk helperWordEnv (Rv32.entryState helperWordEnv) .entry
      (MerlinV.merlinDecode 0x00100893 0) := by
    exact ⟨by decide, by decide, fun h => absurd h (by decide), fun _ => by decide⟩
  have hok₁ : StepOk helperWordEnv helperWordCall callOrigins (MerlinV.merlinDecode 0x00000073 0) := by
    exact ⟨by decide +kernel, by decide, fun h => absurd h (by decide), fun _ => by decide⟩
  have hok₂ : StepOk helperWordEnv helperWordRead readOrigins (MerlinV.merlinDecode 0x00052583 0) := by
    exact ⟨by decide, by decide +kernel, fun h => absurd h (by decide), fun _ => by decide⟩
  have hrun₁ : OrderedRun helperWordEnv helperWordCall callOrigins :=
    .step (.entry (Rv32.entry_entryState _)) hli hok₀ (.plain _ hli (by decide) hstay rfl)
  have hrun₂ : OrderedRun helperWordEnv helperWordRead readOrigins :=
    .step hrun₁ hecall hok₁ (.helper _ hecall (by decide) ⟨rfl, fun _ _ => rfl⟩)
  exact ⟨((ordered_run_safe hacc _ _ hrun₁).2 _ hecall hok₁).1 (by decide),
    ((ordered_run_safe hacc _ _ hrun₂).2 _ hlw hok₂).2 (by decide)⟩

theorem skippedIdText_calls_refused : Accepted (merlinVerifierCfgForProg 512) skippedIdEnv.text ∧
    ∃ s₀ s₁ insn, Rv32.Entry skippedIdEnv s₀ ∧ Rv32.Step skippedIdEnv s₀ s₁ ∧
      skippedIdEnv.fetch s₁.pc = some insn ∧ insn.cls = .ecall ∧
      helperAllowed (merlinVerifierCfgForProg 512) (s₁.x 17) = false := by
  have hbeq : skippedIdEnv.fetch (Rv32.entryState skippedIdEnv).pc =
      some (MerlinV.merlinDecode 0x00000463 0) := by decide +kernel
  have hstay : ¬ skippedIdEnv.Returns (Rv32.entryState skippedIdEnv) := by
    rintro ⟨insn, hfetch, hcls, -⟩
    obtain rfl := Option.some.inj (hbeq.symm.trans hfetch)
    exact absurd hcls (by decide)
  refine ⟨by decide +kernel, _, _, MerlinV.merlinDecode 0x00000073 0, Rv32.entry_entryState _,
    .plain _ hbeq (by decide) hstay rfl, ?_, by decide, ?_⟩
  · decide +kernel
  · decide +kernel

end MerlinV.Zephyr
