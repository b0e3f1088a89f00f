import MerlinV.Zephyr.Runtime
import MerlinV.Zephyr.Soundness

/-! # The helper registry of the RTOS build

`zephyr/merlin/src/dispatch.c` and `helpers_sample.c`: a table of functions by helper id, in which an entry is written
once.  The helpers that the verifier lets a program call are those that the boot registers, so a program reaches these
and no others, whatever the application registers.  Calls of the registry hold its mutex and do not overlap; what is
printed for an unknown id is left out.
-/
namespace MerlinV.Zephyr

variable {σ : Type}

section Registry

instance Args.neZero : NeZero 6 := ⟨by decide⟩

/-- `merlin_helper_fn`, with what the helper does to the board. -/
abbrev HelperFn (σ : Type) := (Fin 6 → Word) → σ → Word × σ

/-- `struct helper_entry`; `none` is `NULL`. -/
structure HelperEntry (σ : Type) where
  name : Option String
  fn : Option (HelperFn σ)

def maxHelper : ℕ := 512

structure Registry (σ : Type) where
  helpers : Fin maxHelper → HelperEntry σ
  inited : Bool

def Registry.zero : Registry σ := ⟨fun _ => ⟨none, none⟩, false⟩

def helpersInitOnce (t : Registry σ) : Registry σ := { t with inited := true }

def merlinHelperRegister (t : Registry σ) (id : BitVec 32) (name : Option String) (fn : Option (HelperFn σ)) :
    Except Status Unit × Registry σ :=
  let t := helpersInitOnce t
  if h : id ≠ 0 ∧ id.toNat < maxHelper ∧ fn.isSome = true then
    let i : Fin maxHelper := ⟨id.toNat, h.2.1⟩
    if (t.helpers i).fn.isSome then (.error .busy, t)
    else (.ok (), { t with helpers := Function.update t.helpers i ⟨name, fn⟩ })
  else (.error .inval, t)

def merlinDispatchHelper (t : Registry σ) (id : BitVec 32) (args : Fin 6 → Word) (s : σ) : Word × σ :=
  if h : id ≠ 0 ∧ id.toNat < maxHelper then
    match if t.inited then (t.helpers ⟨id.toNat, h.2⟩).fn else none with
    | some fn => fn args s
    | none => (-1, s)
  else (-1, s)

structure Registration (σ : Type) where
  id : BitVec 32
  name : Option String
  fn : Option (HelperFn σ)

/-- Registrations in the order in which they take the mutex. -/
def registerAll (t : Registry σ) (regs : List (Registration σ)) : Registry σ :=
  regs.foldl (fun t r => (merlinHelperRegister t r.id r.name r.fn).2) t

end Registry

section Samples

/-- What the sample helpers use of the board; the pointer of `printk("merlin: %s\n", fmt)` is an address. -/
structure Board (σ : Type) where
  printFmt : BitVec 32 → σ → σ
  uptime : σ → BitVec 32
  rand32 : σ → BitVec 32 × σ
  printGpioSet : (port pin v : BitVec 32) → σ → σ
  printGpioGet : (port pin : BitVec 32) → σ → σ
  yield : σ → σ

variable (b : Board σ)

def hTracePrintk : HelperFn σ := fun a s =>
  let fmt : BitVec 32 := (a 0).setWidth 32
  (0, if fmt ≠ 0 then b.printFmt fmt s else s)

def hUptimeMs : HelperFn σ := fun _ s => ((b.uptime s).setWidth 64, s)

def hRngU32 : HelperFn σ := fun _ s => ((b.rand32 s).1.setWidth 64, (b.rand32 s).2)

def hGpioSet : HelperFn σ := fun a s =>
  (0, b.printGpioSet ((a 0).setWidth 32) ((a 1).setWidth 32) ((a 2).setWidth 32) s)

def hGpioGet : HelperFn σ := fun a s => (0, b.printGpioGet ((a 0).setWidth 32) ((a 1).setWidth 32) s)

def hYield : HelperFn σ := fun _ s => (0, b.yield s)

/-- The calls of `merlin_helpers_init`, whose results it does not look at. -/
def sampleHelpers : List (Registration σ) :=
  [⟨1, some "trace_printk", some (hTracePrintk b)⟩, ⟨2, some "uptime_ms", some (hUptimeMs b)⟩,
    ⟨3, some "rng_u32", some (hRngU32 b)⟩, ⟨4, some "gpio_set", some (hGpioSet b)⟩,
    ⟨5, some "gpio_get", some (hGpioGet b)⟩, ⟨6, some "yield", some (hYield b)⟩]

def merlinHelpersInit (t : Registry σ) : Registry σ := registerAll t (sampleHelpers b)

end Samples

section Lookup

variable {t : Registry σ} {id : BitVec 32}

def Registry.fnAt (t : Registry σ) (id : BitVec 32) : Option (HelperFn σ) :=
  if h : id ≠ 0 ∧ id.toNat < maxHelper then (t.helpers ⟨id.toNat, h.2⟩).fn else none

def Registration.offers (r : Registration σ) (id : BitVec 32) : Option (HelperFn σ) :=
  if r.id = id ∧ id ≠ 0 ∧ id.toNat < maxHelper then r.fn else none

def Registry.Started (t : Registry σ) : Prop := t.inited = false → ∀ id, t.fnAt id = none

theorem zero_started : (Registry.zero : Registry σ).Started := by
  intro _ id
  unfold Registry.fnAt
  split_ifs <;> rfl

theorem register_fnAt (t : Registry σ) (r : Registration σ) (id : BitVec 32) :
    (merlinHelperRegister t r.id r.name r.fn).2.fnAt id = (t.fnAt id).or (r.offers id) := by
  unfold Registry.fnAt Registration.offers
  by_cases hid : id ≠ 0 ∧ id.toNat < maxHelper
  · rw [dif_pos hid, dif_pos hid]
    by_cases hr : r.id = id
    · subst hr
      rw [if_pos ⟨rfl, hid⟩]
      have hzero : ¬ r.id = 0#32 := hid.1
      cases hfn : r.fn with
      | none => simp [merlinHelperRegister, helpersInitOnce]
      | some fn =>
        cases hold : (t.helpers ⟨r.id.toNat, hid.2⟩).fn <;>
          simp [merlinHelperRegister, helpersInitOnce, hzero, hid.2, hold]
    · rw [if_neg fun h => hr h.1, Option.or_none]
      unfold merlinHelperRegister
      dsimp only [helpersInitOnce]
      split_ifs with hvalid hbusy
      · rfl
      · have hne : (⟨id.toNat, hid.2⟩ : Fin maxHelper) ≠ ⟨r.id.toNat, hvalid.2.1⟩ := by
          intro heq
          exact hr (BitVec.toNat_inj.mp (Fin.mk.inj heq)).symm
        dsimp only
        rw [Function.update_of_ne hne]
      · rfl
  · rw [dif_neg hid, dif_neg hid, if_neg fun h => hid h.2]
    rfl

/-- Of the registrations of an id the first one stands. -/
theorem registerAll_fnAt (t : Registry σ) (regs : List (Registration σ)) (id : BitVec 32) :
    (registerAll t regs).fnAt id = (t.fnAt id).or (regs.findSome? (·.offers id)) := by
  induction regs generalizing t with
  | nil => exact (Option.or_none).symm
  | cons r regs ih =>
    change (registerAll (merlinHelperRegister t r.id r.name r.fn).2 regs).fnAt id = _
    rw [ih, register_fnAt, Option.or_assoc, List.findSome?_cons]
    cases r.offers id <;> rfl

theorem register_inited (t : Registry σ) (id : BitVec 32) (name : Option String) (fn : Option (HelperFn σ)) :
    (merlinHelperRegister t id name fn).2.inited = true := by
  unfold merlinHelperRegister
  dsimp only [helpersInitOnce]
  split_ifs <;> rfl

theorem registerAll_started {regs : List (Registration σ)} (h : t.Started) : (registerAll t regs).Started := by
  induction regs generalizing t with
  | nil => exact h
  | cons r regs ih =>
    apply ih
    intro hno
    rw [register_inited] at hno
    cases hno

theorem dispatch_eq (h : t.Started) {fn : HelperFn σ} (hfn : t.fnAt id = some fn) (args : Fin 6 → Word) (s : σ) :
    merlinDispatchHelper t id args s = fn args s := by
  have hinit : t.inited = true := by
    by_contra hno
    rw [Bool.not_eq_true] at hno
    exact absurd (hfn.symm.trans (h hno id)) (by simp)
  unfold Registry.fnAt at hfn
  unfold merlinDispatchHelper
  split_ifs at hfn with hid
  rw [dif_pos hid, if_pos hinit, hfn]

theorem register_taken (hinit : t.inited = true) {old : HelperFn σ} (hold : t.fnAt id = some old)
    (name : Option String) (fn : HelperFn σ) : merlinHelperRegister t id name (some fn) = (.error .busy, t) := by
  have hsame : helpersInitOnce t = t := by
    unfold helpersInitOnce
    rw [← hinit]
  unfold Registry.fnAt at hold
  split_ifs at hold with hid
  unfold merlinHelperRegister
  rw [hsame]
  dsimp only
  rw [dif_pos ⟨hid.1, hid.2, rfl⟩, if_pos (by rw [hold]; rfl)]

end Lookup

section Calls

variable {E : Rv32.Env} {s : Rv32.State} {g : Origins} {insn : MerlinV.Insn}

/-- The registry when a program runs: what was registered in front of `merlin_helpers_init`, its six helpers, and
what was registered since. -/
def registryAfter (b : Board σ) (before after : List (Registration σ)) : Registry σ :=
  registerAll (merlinHelpersInit b (registerAll .zero before)) after

theorem exists_of_helperAllowed (b : Board σ) (maxStackBytes : BitVec 16) {id : BitVec 32}
    (h : helperAllowed (merlinVerifierCfgForProg maxStackBytes) id = true) :
    ∃ r ∈ sampleHelpers b, r.id = id ∧ ∃ fn, r.fn = some fn := by
  have hbits : ∀ k < 512, BitVec.getLsbD (0b1111110 : BitVec 512) k = true → k ∈ [1, 2, 3, 4, 5, 6] := by
    decide +kernel
  unfold helperAllowed merlinVerifierCfgForProg at h
  split_ifs at h with hmax hbyte
  have hid := hbits id.toNat (by omega) h
  simp only [List.mem_cons, List.not_mem_nil, or_false] at hid
  have hof : ∀ k : ℕ, k < 2 ^ 32 → id.toNat = k → BitVec.ofNat 32 k = id := by
    intro k hk heq
    rw [← heq, BitVec.ofNat_toNat, BitVec.setWidth_eq]
  rcases hid with h1 | h2 | h3 | h4 | h5 | h6
  · exact ⟨_, .head _, hof 1 (by decide) h1, _, rfl⟩
  · exact ⟨_, .tail _ (.head _), hof 2 (by decide) h2, _, rfl⟩
  · exact ⟨_, .tail _ (.tail _ (.head _)), hof 3 (by decide) h3, _, rfl⟩
  · exact ⟨_, .tail _ (.tail _ (.tail _ (.head _))), hof 4 (by decide) h4, _, rfl⟩
  · exact ⟨_, .tail _ (.tail _ (.tail _ (.tail _ (.head _)))), hof 5 (by decide) h5, _, rfl⟩
  · exact ⟨_, .tail _ (.tail _ (.tail _ (.tail _ (.tail _ (.head _))))), hof 6 (by decide) h6, _, rfl⟩

theorem offers_none {regs : List (Registration σ)} {id : BitVec 32} (h : ∀ r ∈ regs, r.id ≠ id) :
    regs.findSome? (·.offers id) = none := by
  rw [List.findSome?_eq_none_iff]
  intro r hr
  unfold Registration.offers
  exact if_neg fun hid => h r hr hid.1

theorem sample_stands (b : Board σ) {before : List (Registration σ)} (after : List (Registration σ))
    (hbefore : ∀ r ∈ before, ∀ r' ∈ sampleHelpers b, r.id ≠ r'.id) {r : Registration σ} {fn : HelperFn σ}
    (hr : r ∈ sampleHelpers b) (hfn : r.fn = some fn) : (registryAfter b before after).fnAt r.id = some fn := by
  have hzero : (Registry.zero : Registry σ).fnAt r.id = none := by
    unfold Registry.fnAt
    split_ifs <;> rfl
  have hfirst : (sampleHelpers b).findSome? (·.offers r.id) = r.fn := by
    simp only [sampleHelpers, List.mem_cons, List.not_mem_nil, or_false] at hr
    rcases hr with rfl | rfl | rfl | rfl | rfl | rfl <;> rfl
  unfold registryAfter merlinHelpersInit
  rw [registerAll_fnAt, registerAll_fnAt, registerAll_fnAt, hzero, offers_none fun r' hr' => hbefore r' hr' r hr,
    hfirst, hfn]
  rfl

theorem registryAfter_started (b : Board σ) (before after : List (Registration σ)) :
    (registryAfter b before after).Started :=
  registerAll_started (registerAll_started (registerAll_started zero_started))

/-- Helpers cannot be taken over.  Whatever is registered in front of `merlin_helpers_init` under other ids, and
whatever the application registers since, a registration under one of the six ids answers `MERLIN_ERR_BUSY` and
changes nothing, and the id of every call that an accepted text makes in an ordered run is dispatched to the helper
of the boot. -/
theorem ecall_reaches_sample (b : Board σ) (before after : List (Registration σ)) (maxStackBytes : BitVec 16)
    (hbefore : ∀ r ∈ before, ∀ r' ∈ sampleHelpers b, r.id ≠ r'.id)
    (hacc : Accepted (merlinVerifierCfgForProg maxStackBytes) E.text) (hrun : OrderedRun E s g)
    (hfetch : E.fetch s.pc = some insn) (hok : StepOk E s g insn) (hcls : insn.cls = .ecall) :
    ∃ r ∈ sampleHelpers b, ∃ fn, r.id = s.x 17 ∧ r.fn = some fn ∧
      (∀ args board, merlinDispatchHelper (registryAfter b before after) (s.x 17) args board = fn args board) ∧
      ∀ name fn', merlinHelperRegister (registryAfter b before after) (s.x 17) name (some fn') =
        (.error .busy, registryAfter b before after) := by
  obtain ⟨z, -, hreads, hchecks⟩ := hacc.word hfetch
  obtain ⟨id, hid, hal⟩ := hchecks.helper (hreads.cls.trans hcls)
  have hcov := (hrun.tracked hacc).current (by decide) (hok.call hcls)
  rw [word, hid] at hcov
  change s.x 17 = id at hcov
  obtain ⟨r, hr, hrid, fn, hfn⟩ := exists_of_helperAllowed b maxStackBytes hal
  have hstands := sample_stands b after hbefore hr hfn
  have hstarted := registryAfter_started b before after
  have hsame : r.id = s.x 17 := hrid.trans hcov.symm
  rw [hsame] at hstands
  refine ⟨r, hr, fn, hsame, hfn, fun args board => dispatch_eq hstarted hstands args board, fun name fn' => ?_⟩
  apply register_taken _ hstands
  by_contra hno
  rw [Bool.not_eq_true] at hno
  exact absurd (hstands.symm.trans (hstarted hno _)) (by simp)

def loggingBoard : Board (List (BitVec 32)) where
  printFmt fmt log := fmt :: log
  uptime log := BitVec.ofNat 32 log.length
  rand32 log := (4, log)
  printGpioSet port pin v log := port :: pin :: v :: log
  printGpioGet port pin log := port :: pin :: log
  yield log := log

def takeover : List (Registration (List (BitVec 32))) := [⟨1, some "mine", some fun _ log => (7, log)⟩]

/-- `helperWordText` asks for helper 1, and gets the one of the boot. -/
theorem ecall_reaches_sample_trace :
    merlinDispatchHelper (registryAfter loggingBoard [] takeover) (helperWordCall.x 17) (fun _ => 5) [] = (0, [5]) := by
  have hli : helperWordEnv.fetch (Rv32.entryState helperWordEnv).pc =
      some (MerlinV.merlinDecode 0x00100893 0) := by decide +kernel
  have hecall : helperWordEnv.fetch helperWordCall.pc = some (MerlinV.merlinDecode 0x00000073 0) := by
    decide +kernel
  have hstay : ¬ helperWordEnv.Returns (Rv32.entryState helperWordEnv) := by
    rintro ⟨insn, hfetch, hcls, -⟩
    obtain rfl := Option.some.inj (hli.symm.trans hfetch)
    exact absurd hcls (by decide)
  have hok : StepOk helperWordEnv (Rv32.entryState helperWordEnv) .entry (MerlinV.merlinDecode 0x00100893 0) :=
    ⟨by decide, by decide, fun h => absurd h (by decide), fun _ => by decide⟩
  have hok' : StepOk helperWordEnv helperWordCall callOrigins (MerlinV.merlinDecode 0x00000073 0) :=
    ⟨by decide +kernel, by decide, fun h => absurd h (by decide), fun _ => by decide⟩
  have hrun : OrderedRun helperWordEnv helperWordCall callOrigins :=
    .step (.entry (Rv32.entry_entryState _)) hli hok (.plain _ hli (by decide) hstay rfl)
  obtain ⟨r, hr, fn, hid, hfn, hdispatch, -⟩ := ecall_reaches_sample loggingBoard [] takeover 512
    (by simp) (by decide +kernel) hrun hecall hok' (by decide)
  have hone : r.id = 1 := hid.trans (by decide +kernel)
  have hfirst : r = ⟨1, some "trace_printk", some (hTracePrintk loggingBoard)⟩ := by
    simp only [sampleHelpers, List.mem_cons, List.not_mem_nil, or_false] at hr
    rcases hr with rfl | rfl | rfl | rfl | rfl | rfl
    · rfl
    all_goals exact absurd hone (by decide)
  rw [hfirst] at hfn
  rw [hdispatch, ← Option.some.inj hfn]
  rfl

end Calls

end MerlinV.Zephyr
