import MerlinV.Jit.Simulation
import MerlinV.Verify.Accept

/-! # The userland translator preserves the meaning of a program

Every instruction `translate_one` accepts is translated to code with its effect, except
that `mulw` is translated as the 64-bit product and every `jalr` as a return.  The emitted
code follows the runs on which neither makes a difference.
-/
namespace MerlinV

open X86

section Fields

/-- What `translate_one` takes for granted of a decoded record: the immediate of an ALU operation
fits 32 bits, and a register operation that is no W form has 64 bits. -/
structure JitFields (insn : Insn) : Prop where
  imm : insn.cls = .aluImm → (insn.imm.setWidth 32).signExtend 64 = insn.imm
  word : insn.cls = .aluReg → insn.wordOp = false

theorem setWidth_signExtend (v : BitVec 32) : (v.signExtend 64).setWidth 32 = v := by
  apply BitVec.eq_of_getLsbD_eq
  intro i hi
  have h64 : i < 64 := by omega
  rw [BitVec.getLsbD_setWidth, BitVec.getLsbD_signExtend]
  simp [hi, h64]

theorem immI_fits (w : BitVec 32) : ((immI w).setWidth 32).signExtend 64 = immI w := by
  unfold immI
  rw [setWidth_signExtend]

variable {w : BitVec 32} {out insn : Insn}

theorem JitFields.of_cls (himm : insn.cls ≠ .aluImm) (hreg : insn.cls ≠ .aluReg) : JitFields insn where
  imm h := absurd h himm
  word h := absurd h hreg

theorem decodeOpImm_fields (hout : JitFields out) : JitFields (decodeOpImm w out) := by
  unfold decodeOpImm
  split
  case h_9 => exact hout
  case h_7 => exact .of_cls nofun nofun
  case h_8 => exact .of_cls nofun nofun
  all_goals exact ⟨fun _ => immI_fits w, nofun⟩

theorem decodeOp_fields (hout : JitFields out) (hword : out.wordOp = false) :
    JitFields (decodeOp w out) := by
  unfold decodeOp
  split
  · split
    case h_9 => exact hout
    all_goals exact .of_cls nofun nofun
  · split
    all_goals exact ⟨nofun, fun _ => hword⟩

theorem decodeMajor_fields (hcls : out.cls = .invalid) (hword : out.wordOp = false) :
    JitFields (decodeMajor w out) := by
  have hout : JitFields out := .of_cls (by rw [hcls]; decide) (by rw [hcls]; decide)
  have hother {u : Insn} (h : u.cls ≠ .aluImm ∧ u.cls ≠ .aluReg) : JitFields u := .of_cls h.1 h.2
  unfold decodeMajor
  split
  case h_8 => exact decodeOpImm_fields hout
  case h_9 => exact decodeOp_fields hout hword
  case h_10 =>
    apply hother
    unfold decodeOpImmW
    split <;> simp [hcls]
  case h_11 =>
    apply hother
    unfold decodeOpW
    repeat' split
    all_goals simp [hcls]
  case h_13 =>
    apply hother
    unfold decodeSystem
    repeat' split
    all_goals simp
  all_goals
    apply hother
    repeat' split
    all_goals simp [hcls]

theorem merlinDecode_fields (w pc : BitVec 32) : JitFields (merlinDecode w pc) := by
  unfold merlinDecode
  split
  · exact .of_cls nofun nofun
  · exact decodeMajor_fields rfl rfl

end Fields

section Effects

/-- The steps the emitted code follows: a `mulw` whose product is the sign extension of its low word
or goes to `x0`, and a `jalr` that returns and leaves `a0` alone. -/
structure JitFollows (insn : Insn) (s : MState) : Prop where
  mulw : insn.cls = .mul → insn.wordOp = true → insn.rd ≠ 0 →
    ((s.x insn.rs1 * s.x insn.rs2).setWidth 32).signExtend 64 = s.x insn.rs1 * s.x insn.rs2
  ret : insn.cls = .jalr → nextPc insn s = 0 ∧ insn.rd ≠ 10

variable {insn : Insn} {s s₁ : MState} {e : Effect} {helped : (Reg → Word) → Reg → Word}

theorem exec_assign {f : (Reg → Word) → Word} {v : Word} (hrun : exec insn s = some s₁)
    (hnext : nextPc insn s = s.pc + 4) (hres : result? insn s = some v)
    (hv : insn.rd ≠ 0 → v = f s.x) :
    s₁.pc = s.pc + 4 ∧ s₁.x = (Effect.assign insn.rd f).apply helped s.x ∧
      (Effect.assign insn.rd f).calls s.x = [] := by
  obtain ⟨-, -, hpc, hx⟩ := exec_eq_some hrun
  refine ⟨hpc.trans hnext, ?_, rfl⟩
  rw [hres] at hx
  unfold Effect.apply
  funext r
  rw [hx r]
  by_cases hrd : insn.rd = 0
  · simp [hrd]
  · simp [hrd, hv hrd, Function.update_apply]

theorem shiftCount (imm : Word) : (imm.setWidth 8).toNat % 64 = imm.toNat % 64 := by
  rw [BitVec.toNat_setWidth]
  omega

/-- The low word of a product is the product of the low words. -/
theorem aluExecW_mul (a b : Word) : aluExecW .mul a b = ((a * b).setWidth 32).signExtend 64 := by
  unfold aluExecW
  rw [BitVec.setWidth_mul _ _ (by decide)]

/-- A plain step has the effect the translator gives its instruction. -/
theorem exec_effect (hf : JitFields insn) (hok : JitFollows insn s) (hrun : exec insn s = some s₁)
    (he : effectOf insn = some e) :
    s₁.pc = s.pc + 4 ∧ s₁.x = e.apply helped s.x ∧ e.calls s.x = [] := by
  have hne := (exec_eq_some hrun).2.1
  unfold effectOf at he
  split at he
  case h_1 hc ho =>
    cases he
    refine exec_assign hrun (by simp [nextPc, hc]) (by simp only [result?, hc, ho]; rfl) fun _ => ?_
    rw [hf.imm hc]
    rfl
  case h_2 hc =>
    cases he
    exact exec_assign hrun (by simp [nextPc, hc]) (by simp only [result?, hc]) fun _ => rfl
  case h_8 hc ho =>
    cases he
    refine exec_assign hrun (by simp [nextPc, hc]) (by simp only [result?, hc]; rfl) fun hrd => ?_
    unfold aluOf
    rw [ho]
    split
    · rename_i hword
      rw [aluExecW_mul, hok.mulw hc hword hrd]
    · rfl
  case h_9 hc ho | h_10 hc ho | h_11 hc ho =>
    cases he
    refine exec_assign hrun (by simp [nextPc, hc]) (by simp only [result?, hc, ho]; rfl) fun _ => ?_
    rw [shiftCount]
    rfl
  case h_12 hc => exact absurd hc hne
  case h_13 hc =>
    cases he
    obtain ⟨-, -, hpc, hx⟩ := exec_eq_some hrun
    refine ⟨by rw [hpc]; simp [nextPc, hc], ?_, rfl⟩
    funext r
    rw [hx r]
    simp [result?, hc, Effect.apply]
  case h_14 => cases he
  all_goals
    rename_i hc ho
    cases he
    refine exec_assign hrun (by simp [nextPc, hc]) (by simp only [result?, hc]; rfl) fun _ => ?_
    unfold aluOf
    rw [hf.word hc, ho]
    rfl

end Effects

section Preserve

theorem RefEnv.fetch_addr {E : RefEnv} {pc : BitVec 32} {insn : Insn}
    (h : E.fetch (E.addr pc) = some insn) :
    isaInsn (textWord E.text pc.toNat) = some insn := by
  rw [← E.addr_sub pc]
  exact RefEnv.isaInsn_of_fetch h

theorem jitInsn_of_fetch {E : RefEnv} {pc : BitVec 32} {insn : Insn}
    (h : E.fetch (E.addr pc) = some insn) : jitInsn E.text pc = { insn with pc := pc } := by
  rw [(isaInsn_eq_some (RefEnv.fetch_addr h)).1]
  exact merlinDecode_pc _ _ _

theorem exec_jalr {insn : Insn} {s s₁ : MState} (hrun : exec insn s = some s₁) (hc : insn.cls = .jalr)
    (hok : nextPc insn s = 0 ∧ insn.rd ≠ 10) : s₁.pc = 0 ∧ s₁.x 10 = s.x 10 := by
  obtain ⟨-, -, hpc, hx⟩ := exec_eq_some hrun
  refine ⟨hpc.trans hok.1, ?_⟩
  rw [hx 10]
  simp [result?, hc, Ne.symm hok.2]

theorem jit_agrees (E : RefEnv) : Agrees E (jitInsn E.text) effectOf JitFollows where
  plain hpc hfetch hok hrun _ he := by
    rw [hpc] at hfetch
    rw [jitInsn_of_fetch hfetch] at he
    have hinsn := (isaInsn_eq_some (RefEnv.fetch_addr hfetch)).1
    exact exec_effect (hinsn ▸ merlinDecode_fields _ _) hok hrun he
  helper {pc insn s} hpc hfetch hc _ := by
    rw [hpc] at hfetch
    rw [jitInsn_of_fetch hfetch]
    refine ⟨by simp [hc], ?_⟩
    simp [effectOf, hc]
  ret hpc hfetch hok hrun hcls := by
    rw [hpc] at hfetch
    rw [jitInsn_of_fetch hfetch] at hcls
    exact exec_jalr hrun hcls (hok.ret hcls)

variable {text : Text} {textOffset : BitVec 32} {cfg : VerifierCfg}

theorem Accepted.length_le (h : Accepted text textOffset cfg) : text.length ≤ 4 * cfgMaxInsns := by
  obtain ⟨G, A, hacc⟩ := h.exists_acceptedAs
  obtain ⟨leader, raw, bound, hb⟩ := merlinCfgBuild_built hacc.build
  have hsize := hb.size
  have hcap := hb.cap
  omega

/-- The emitted code for `text`, run with `rdi` as the context, returns what the program returns and
calls the trampoline with the registers of the program, on the runs whose steps all meet `ok`. -/
def JitPreserves (text : Text) (tramp : Word) (code : List Byte) (ok : Insn → MState → Prop) : Prop :=
  ∀ (E : RefEnv) (H : Host) (c : Cpu) (s s' : MState) (calls : List (Reg → Word)),
    E.text = text → ¬ E.InText 0 → H.code = code → Realises E.helped (H.callee tramp) →
    E.Starts (c.reg .rdi) s → E.Returns ok s calls s' →
    ∃ n visits target c', H.run n c 0 = (visits, .returned target c') ∧ c'.reg .rax = s'.x 10 ∧
      callsOf visits = calls.map (tramp, ·)

theorem jit_preserves (text : Text) (textOffset : BitVec 32) (cfg : VerifierCfg) (tramp : Word)
    (fuel : ℕ) (code : List Byte) (hacc : Accepted text textOffset cfg)
    (h : merlinJitTranslate text tramp fuel = some (.ok code)) :
    JitPreserves text tramp code JitFollows := by
  intro E H c s s' calls htext hout hcode hT hstart hret
  obtain ⟨tail, rfl, hscan⟩ := merlinJitTranslate_scanned h
  subst htext
  have hlen : E.text.length + 4 < 2 ^ 32 := by
    have hle := hacc.length_le
    have hmax : 4 * cfgMaxInsns + 4 < 2 ^ 32 := by decide
    omega
  exact hscan.returns hcode (jit_agrees E) hT hout hlen hstart hret

/-- The helpers of a test run: each adds one to its first argument. -/
def succHelper (_ : Word) (args : Fin 6 → Word) : Word := args 0 + 1

def succEnv (text : Text) : RefEnv where
  text := text
  base := 0x400000
  helper := succHelper

def entryState (E : RefEnv) (ctx : Word) : MState where
  pc := E.base
  x := Function.update (fun _ => 0) 10 ctx
  mem _ := 0

/-- The code at `0x8000`, with a trampoline for `succHelper` everywhere. -/
def succHost (code : List Byte) : Host where
  code := code
  base := 0x8000
  callee _ := helperTrampoline succHelper

def entryCpu (ctx : Word) : Cpu where
  reg r := match r with
    | .rsp => 0x2008
    | .rdi => ctx
    | _ => 0
  mem _ := 0

def hostResult (n : ℕ) (code : List Byte) (ctx : Word) : Option (Word × ℕ) :=
  let (visits, out) := (succHost code).run n (entryCpu ctx) 0
  (returnedReg .rax out).map fun v => (v, (callsOf visits).length)

def refResult (ok : Insn → MState → Bool) (n : ℕ) (text : Text) (ctx : Word) : Option (Word × ℕ) :=
  ((succEnv text).run ok n (entryState (succEnv text) ctx)).map fun r => (r.2.x 10, r.1.length)

theorem exists_returns {ok : Insn → MState → Bool} {n : ℕ} {text : Text} {ctx : Word} {r : Word × ℕ}
    (h : refResult ok n text ctx = some r) :
    ∃ calls s', (succEnv text).Returns (fun insn s => ok insn s = true) (entryState (succEnv text) ctx)
      calls s' ∧ r = (s'.x 10, calls.length) := by
  obtain ⟨⟨calls, s'⟩, hrun, rfl⟩ := Option.map_eq_some_iff.mp h
  exact ⟨calls, s', (succEnv text).run_returns hrun, rfl⟩

theorem exists_hostResult {code : List Byte} {ctx tramp : Word} {s' : MState} {calls : List (Reg → Word)}
    (h : ∃ n visits target c', (succHost code).run n (entryCpu ctx) 0 = (visits, .returned target c') ∧
      c'.reg .rax = s'.x 10 ∧ callsOf visits = calls.map (tramp, ·)) :
    ∃ n, hostResult n code ctx = some (s'.x 10, calls.length) := by
  obtain ⟨n, visits, target, c', hrun, hax, hcalls⟩ := h
  refine ⟨n, ?_⟩
  simp only [hostResult, hrun, returnedReg, Option.map_some, hcalls, List.length_map, hax]

theorem hostResult_mono {m n : ℕ} {code : List Byte} {ctx : Word} {r : Word × ℕ}
    (h : hostResult m code ctx = some r) (hle : m ≤ n) : hostResult n code ctx = some r := by
  unfold hostResult at h ⊢
  cases hrun : (succHost code).run m (entryCpu ctx) 0 with
  | mk vs o =>
    rw [hrun] at h
    cases o with
    | returned a d =>
      rw [Host.run_mono hrun hle]
      exact h
    | fault => cases h
    | timeout => cases h

theorem hostResult_unique {m n : ℕ} {code : List Byte} {ctx : Word} {r r' : Word × ℕ}
    (h : hostResult m code ctx = some r) (h' : hostResult n code ctx = some r') : r = r' := by
  have hmax := hostResult_mono h (le_max_left m n)
  rw [hostResult_mono h' (le_max_right m n)] at hmax
  exact (Option.some.inj hmax).symm

theorem JitPreserves.hostResult_eq {text : Text} {tramp : Word} {code : List Byte}
    {okb : Insn → MState → Bool} {ok : Insn → MState → Prop} {m : ℕ} {ctx : Word} {r : Word × ℕ}
    (h : JitPreserves text tramp code ok) (hok : ∀ insn s, okb insn s = true → ok insn s)
    (hout : ¬ (succEnv text).InText 0) (hr : refResult okb m text ctx = some r) :
    ∃ n, hostResult n code ctx = some r := by
  obtain ⟨calls, s', hret, rfl⟩ := exists_returns hr
  exact exists_hostResult (h (succEnv text) (succHost code) (entryCpu ctx) _ s' calls rfl hout rfl
    (helperTrampoline_realises (succEnv text)) ⟨rfl, rfl⟩ (hret.mono fun insn s _ => hok insn s))

instance (insn : Insn) (s : MState) : Decidable (JitFollows insn s) :=
  decidable_of_iff
    ((insn.cls = .mul → insn.wordOp = true → insn.rd ≠ 0 →
        ((s.x insn.rs1 * s.x insn.rs2).setWidth 32).signExtend 64 = s.x insn.rs1 * s.x insn.rs2) ∧
      (insn.cls = .jalr → nextPc insn s = 0 ∧ insn.rd ≠ 10))
    ⟨fun h => ⟨h.1, h.2⟩, fun h => ⟨h.mulw, h.ret⟩⟩

def translated (text : Text) : List Byte :=
  match merlinJitTranslate text 0x1000 (text.length / 4) with
  | some (.ok code) => code
  | _ => []

def timeText : Text := ofWords [0x11000893, 0x00000073, 0x00008067]

theorem timeText_preserved : Accepted timeText 0x40 merlinVerifierCfgInitForMvdp ∧
    merlinJitTranslate timeText 0x1000 3 = some (.ok (translated timeText)) ∧
    ∃ n, hostResult n (translated timeText) 5 = some (6, 1) := by
  have hacc : Accepted timeText 0x40 merlinVerifierCfgInitForMvdp := ⟨20, by decide +kernel⟩
  have hcode : merlinJitTranslate timeText 0x1000 3 = some (.ok (translated timeText)) := by
    decide +kernel
  have hpres := jit_preserves timeText 0x40 merlinVerifierCfgInitForMvdp 0x1000 3 _ hacc hcode
  exact ⟨hacc, hcode, @JitPreserves.hostResult_eq _ _ _ (fun insn s => decide (JitFollows insn s)) _ 4 _ _
    hpres (fun _ _ h => of_decide_eq_true h) (by unfold RefEnv.InText; decide +kernel) (by decide +kernel)⟩

/-- `lui a1, 0x7ffff; mulw a0, a1, a1; ret`. -/
def mulwText : Text := ofWords [0x7ffff5b7, 0x02b5853b, 0x00008067]

/-- The program returns the low word of the square, the emitted code all of it. -/
theorem mulwText_not_preserved : ¬ ∀ (text : Text) (textOffset : BitVec 32) (cfg : VerifierCfg)
    (tramp : Word) (fuel : ℕ) (code : List Byte), Accepted text textOffset cfg →
      merlinJitTranslate text tramp fuel = some (.ok code) →
      JitPreserves text tramp code fun _ _ => True := by
  intro hall
  have hpres := hall mulwText 0x40 merlinVerifierCfgInitForMvdp 0x1000 3 (translated mulwText)
    ⟨20, by decide +kernel⟩ (by decide +kernel)
  have href : refResult (fun _ _ => true) 4 mulwText 0 = some (0x1000000, 0) := by decide +kernel
  have hhost : hostResult 60 (translated mulwText) 0 = some (0x3ffff00001000000, 0) := by decide +kernel
  obtain ⟨n, hn⟩ := hpres.hostResult_eq (fun _ _ _ => trivial) (by unfold RefEnv.InText; decide +kernel) href
  exact absurd (hostResult_unique hn hhost) (by decide)

end Preserve

end MerlinV
