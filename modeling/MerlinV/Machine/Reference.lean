import MerlinV.Isa.Encode
import MerlinV.Machine.Rv64

/-! # The run a translator has to reproduce

A text executed word by word as the manual reads it: a word means the record its encoding
tables give it, and any other word traps.  The registers start at zero except `a0`, so the
program returns by reaching address 0.  A helper is a function of `a7` and `a0`–`a5` that
gives the new `a0`.
-/
namespace MerlinV

/-- The instruction a word of the permitted profile stands for.  The sets of a fence order the
accesses of other harts, so every fence stands for one. -/
def isaInsn (w : BitVec 32) : Option Insn :=
  let insn := merlinDecode w 0
  if insn.cls.permittedDefault = true ∧ (encode insn = some w ∨ insn.cls = .fence) then some insn
  else none

theorem isaInsn_eq_some {w : BitVec 32} {insn : Insn} (h : isaInsn w = some insn) :
    insn = merlinDecode w 0 ∧ insn.cls.permittedDefault = true := by
  unfold isaInsn at h
  dsimp only at h
  split at h
  · rename_i hp
    cases h
    exact ⟨rfl, hp.1⟩
  · cases h

def helperArgs (x : Reg → Word) : Fin 6 → Word := fun i => x ⟨10 + i, by omega⟩

structure RefEnv where
  text : Text
  /-- The address of the first instruction. -/
  base : Word
  /-- The new `a0`, from `a7` and `a0`–`a5`. -/
  helper : Word → (Fin 6 → Word) → Word

namespace RefEnv

variable (E : RefEnv)

def InText (a : Word) : Prop := (a - E.base).toNat < E.text.length

def fetch (a : Word) : Option Insn :=
  if (a - E.base).toNat < E.text.length ∧ (a - E.base).toNat % 4 = 0 then
    isaInsn (textWord E.text (a - E.base).toNat)
  else none

variable {E} in
theorem isaInsn_of_fetch {a : Word} {insn : Insn} (h : E.fetch a = some insn) :
    isaInsn (textWord E.text (a - E.base).toNat) = some insn := by
  unfold fetch at h
  split at h
  · exact h
  · cases h

def helped (x : Reg → Word) : Reg → Word :=
  Function.update x 10 (E.helper (x 17) (helperArgs x))

def afterHelper (s : MState) : MState := { s with x := E.helped s.x, pc := s.pc + 4 }

/-- The entry state: `a0` is the context, every other register zero. -/
structure Starts (ctx : Word) (s : MState) : Prop where
  pc : s.pc = E.base
  x : s.x = Function.update (fun _ => 0) 10 ctx

/-- The run from `s` returns in `s'`, every instruction it executes meets `ok`, and `calls` are the
registers at its helper calls. -/
inductive Returns (ok : Insn → MState → Prop) : MState → List (Reg → Word) → MState → Prop where
  | done {s : MState} (pc : s.pc = 0) : Returns ok s [] s
  | plain {s s₁ s' : MState} {calls : List (Reg → Word)} (insn : Insn) (pc : s.pc ≠ 0)
      (fetch : E.fetch s.pc = some insn) (meets : ok insn s) (run : exec insn s = some s₁)
      (tail : Returns ok s₁ calls s') : Returns ok s calls s'
  | helper {s s' : MState} {calls : List (Reg → Word)} (insn : Insn) (pc : s.pc ≠ 0)
      (fetch : E.fetch s.pc = some insn) (cls : insn.cls = .ecall) (meets : ok insn s)
      (tail : Returns ok (E.afterHelper s) calls s') : Returns ok s (s.x :: calls) s'

/-- The run from `s` for at most `n` steps: the registers at its helper calls and the state it
returns in. -/
def run (ok : Insn → MState → Bool) : ℕ → MState → Option (List (Reg → Word) × MState)
  | 0, _ => none
  | n + 1, s =>
    if s.pc = 0 then some ([], s)
    else do
      let insn ← E.fetch s.pc
      if ok insn s = false then none
      else if insn.cls = .ecall then
        let (calls, s') ← run ok n (E.afterHelper s)
        some (s.x :: calls, s')
      else
        let s₁ ← exec insn s
        run ok n s₁

theorem run_returns {ok : Insn → MState → Bool} {n : ℕ} {s s' : MState} {calls : List (Reg → Word)}
    (h : E.run ok n s = some (calls, s')) : E.Returns (fun insn s => ok insn s = true) s calls s' := by
  induction n generalizing s calls with
  | zero => cases h
  | succ n ih =>
    unfold run at h
    split at h
    · rename_i hpc
      cases h
      exact .done hpc
    · rename_i hpc
      obtain ⟨insn, hfetch, h⟩ := Option.bind_eq_some_iff.mp h
      split at h
      · cases h
      · rename_i hok
        rw [Bool.not_eq_false] at hok
        split at h
        · rename_i hcls
          obtain ⟨⟨calls₁, s₁⟩, hrun, h⟩ := Option.bind_eq_some_iff.mp h
          cases h
          exact .helper insn hpc hfetch hcls hok (ih hrun)
        · obtain ⟨s₁, hexec, hrun⟩ := Option.bind_eq_some_iff.mp h
          exact .plain insn hpc hfetch hok hexec (ih hrun)

variable {E} in
theorem Returns.mono {ok ok' : Insn → MState → Prop} {s s' : MState} {calls : List (Reg → Word)}
    (h : E.Returns ok s calls s') (hle : ∀ insn s, E.fetch s.pc = some insn → ok insn s → ok' insn s) :
    E.Returns ok' s calls s' := by
  induction h with
  | done pc => exact .done pc
  | plain insn pc fetch meets run _ ih => exact .plain insn pc fetch (hle _ _ fetch meets) run ih
  | helper insn pc fetch cls meets _ ih => exact .helper insn pc fetch cls (hle _ _ fetch meets) ih

end RefEnv

end MerlinV
