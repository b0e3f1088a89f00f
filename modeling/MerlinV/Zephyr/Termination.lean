import MerlinV.Zephyr.Verifier

/-! # How long an accepted program runs

Without back edges every jump of an accepted text goes forward or stays: the check refuses negative
displacements and lets zero pass.  It does not look at where a jump lands either, and the core executes
the halfwords between two words as well.  As long as no jump with displacement zero is executed and
every jump into the text lands on a word, the program counter grows with every step.
-/
namespace MerlinV.Zephyr

variable {cfg : VerifierCfg} {E : Rv32.Env} {s s' : Rv32.State}

def SelfJump (E : Rv32.Env) (s : Rv32.State) : Prop :=
  ∃ insn, E.fetch s.pc = some insn ∧ (insn.cls = .jal ∨ insn.cls = .branch) ∧
    Rv32.jumps insn s = true ∧ Rv32.imm insn = 0

section Core

/-- The address of a halfword behind the start of a word of the text, or an odd one. -/
def Between (E : Rv32.Env) (a : BitVec 32) : Prop := E.off a < E.text.length ∧ E.off a % 4 ≠ 0

variable {half : Rv32.State → Rv32.State → Prop}

/-- A step of the core.  Between two words it executes compressed instructions, which no decoder of
the repository reads; what they do is left to `half`. -/
inductive CoreStep (E : Rv32.Env) (half : Rv32.State → Rv32.State → Prop) (s s' : Rv32.State) : Prop where
  | word (step : Rv32.Step E s s')
  | between (pos : Between E s.pc) (step : half s s')

end Core

/-- `jal x0, 6`, then a `lui` whose upper half is the compressed jump `c.j -6`, and `ret`. -/
def halfwordText : Text := ofWords [0x0060006f, 0xbfed02b7, 0x00008067]

def halfwordEnv : Rv32.Env := Rv32.envOf halfwordText (by decide)

def cjImm (h : BitVec 16) : BitVec 32 :=
  (h.extractLsb' 12 1 ++ h.extractLsb' 8 1 ++ h.extractLsb' 9 2 ++ h.extractLsb' 6 1 ++ h.extractLsb' 7 1 ++
    h.extractLsb' 2 1 ++ h.extractLsb' 11 1 ++ h.extractLsb' 3 3 ++ 0#1).signExtend 32

def compressedJump (E : Rv32.Env) (s s' : Rv32.State) : Prop :=
  ∃ h : BitVec 16, h = (textWord E.text (E.off s.pc)).setWidth 16 ∧ h.extractLsb' 13 3 = 5#3 ∧
    h.extractLsb' 0 2 = 1#2 ∧ s' = { s with pc := s.pc + cjImm h }

/-- The jump and the halfword it lands on execute each other for ever, with no jump to itself. -/
theorem halfwordText_spins : Accepted (merlinVerifierCfgForProg 512) halfwordEnv.text ∧
    ∃ s, ¬ SelfJump halfwordEnv (Rv32.entryState halfwordEnv) ∧ ¬ SelfJump halfwordEnv s ∧
      CoreStep halfwordEnv (compressedJump halfwordEnv) (Rv32.entryState halfwordEnv) s ∧
      CoreStep halfwordEnv (compressedJump halfwordEnv) s (Rv32.entryState halfwordEnv) := by
  have hjump : halfwordEnv.fetch (Rv32.entryState halfwordEnv).pc = some (MerlinV.merlinDecode 0x0060006f 0) := by
    decide +kernel
  have hnone : halfwordEnv.fetch 0x1006 = none := by decide +kernel
  refine ⟨by decide +kernel, { Rv32.entryState halfwordEnv with pc := 0x1006 }, ?_, ?_, .word ?_, .between ?_ ?_⟩
  · rintro ⟨insn, hfetch, -, -, hzero⟩
    obtain rfl := Option.some.inj (hjump.symm.trans hfetch)
    exact absurd hzero (by decide +kernel)
  · rintro ⟨insn, hfetch, -⟩
    cases hnone.symm.trans hfetch
  · refine .plain _ hjump (by decide) ?_ rfl
    rintro ⟨insn, hfetch, hcls, -⟩
    obtain rfl := Option.some.inj (hjump.symm.trans hfetch)
    exact absurd hcls (by decide)
  · exact ⟨by decide, by decide⟩
  · exact ⟨0xbfed, by decide +kernel, by decide, by decide, rfl⟩

end MerlinV.Zephyr
