import MerlinV.Ns.File
import MerlinV.Ns.Lists
import MerlinV.Ns.Scope

/-! # Runs of the namespace tool

`create`, `compose` and `check` of `tools/merlin-ns/merlin-ns.c` over the files that they read and write.  An area
of files whose configs are derived from configs of the area stays below the scope that it starts with, whatever
commands run, in which order, and wherever writing a file fails or is cut short.
-/
namespace MerlinV

open Lib

variable {P : Type*} [DecidableEq P]

abbrev NsFiles (P : Type*) := P → Option Bytes

inductive CreateOpt (P : Type*) where
  | name (s : Bytes)
  | parent (p : P)
  | attach (s : Bytes)
  | helpers (s : Bytes)
  | kfuncs (s : Bytes)
  | quota (field : NsQuota) (s : Bytes)
  | inherits
  | sealIt
  | out (p : P)

structure CreateArgs (P : Type*) where
  name : Bytes
  parent : Option P
  out : Option P
  att : List (BitVec 32)
  hlp : List (BitVec 32)
  kf : List (BitVec 32)
  quota : NsQuota → BitVec 64
  inherits : Bool
  isSealed : Bool

def CreateArgs.init : CreateArgs P := ⟨ascii "<unnamed>", none, none, [], [], [], fun _ => 0, false, false⟩

/-- One round of the `getopt_long` loop; a list that does not parse ends the command. -/
def CreateArgs.read (a : CreateArgs P) : CreateOpt P → Option (CreateArgs P)
  | .name s => some { a with name := s }
  | .parent p => some { a with parent := some p }
  | .attach s => (parseList s 64).map fun ids => { a with att := ids }
  | .helpers s => (parseList s 256).map fun ids => { a with hlp := ids }
  | .kfuncs s => (parseList s 256).map fun ids => { a with kf := ids }
  | .quota field s => some { a with quota := Function.update a.quota field (strtoul s).1 }
  | .inherits => some { a with inherits := true }
  | .sealIt => some { a with isSealed := true }
  | .out p => some { a with out := some p }

/-- `strncpy` of at most 31 characters into zeroed memory. -/
def nsName (s : Bytes) : Vector Byte 32 := Vector.ofFn fun i => if i.val < 31 then s.getD i.val 0 else 0

def nsInherit : BitVec 32 := 1
def nsSealed : BitVec 32 := 2

def CreateArgs.config (a : CreateArgs P) : NsConfig where
  magic := nsMagic
  size := BitVec.ofNat 32 NsConfig.sizeof
  version := nsVersion
  flags := (if a.isSealed then nsSealed else 0) ||| (if a.inherits then nsInherit else 0)
  name := nsName a.name
  parentNsId := 0
  attestPolicy := 0
  permitAttach := setBits (Vector.replicate nsAttachWords 0) a.att
  permitHelper := setBits (Vector.replicate nsHelperWords 0) a.hlp
  permitKfunc := setBits (Vector.replicate nsKfuncWords 0) a.kf
  maxProgs := a.quota .maxProgs
  maxMaps := a.quota .maxMaps
  maxMapMemoryBytes := a.quota .maxMapMemoryBytes
  maxProgMemoryBytes := a.quota .maxProgMemoryBytes
  trustKeyringId := 0
  reserved := Vector.replicate 7 0

/-- The config that `create` saves: under its parent, if it has one. -/
def CreateArgs.effective (a : CreateArgs P) (fs : NsFiles P) : Option NsConfig :=
  match a.parent with
  | none => some a.config
  | some p =>
    match merlinNsLoad (fs p) with
    | none => none
    | some par =>
      match merlinNsCompose a.config par with
      | .error _ => none
      | .ok eff => some { eff with parentNsId := if par.parentNsId ≠ 0 then par.parentNsId else 1 }

def saveTo (fs : NsFiles P) (w : NsWrite) (p : P) (cfg : NsConfig) : ℕ × NsFiles P :=
  let r := merlinNsSave w (fs p) cfg
  (if r.1 then 0 else 1, Function.update fs p r.2)

def cmdCreate (fs : NsFiles P) (opts : List (CreateOpt P)) (w : NsWrite) : ℕ × NsFiles P :=
  match opts.foldlM CreateArgs.read .init with
  | none => (2, fs)
  | some a =>
    match a.out with
    | none => (2, fs)
    | some out =>
      match a.effective fs with
      | none => (1, fs)
      | some cfg => saveTo fs w out cfg

def cmdCompose (fs : NsFiles P) (child parent out : Option P) (w : NsWrite) : ℕ × NsFiles P :=
  match child, parent, out with
  | some child, some parent, some out =>
    match merlinNsLoad (fs child), merlinNsLoad (fs parent) with
    | some c, some p =>
      match merlinNsCompose c p with
      | .ok eff => saveTo fs w out eff
      | .error _ => (1, fs)
    | _, _ => (1, fs)
  | _, _, _ => (2, fs)

def cmdCheck (fs : NsFiles P) (ns : Option P) (usage : NsUsage) (prog : ProgFacts) : ℕ :=
  match ns with
  | none => 2
  | some p =>
    match merlinNsLoad (fs p) with
    | none => 1
    | some cfg => if (merlinNsCheck cfg usage prog).1 = .ok then 0 else 1

inductive NsCommand (P : Type*) where
  | create (opts : List (CreateOpt P)) (w : NsWrite)
  | compose (child parent out : Option P) (w : NsWrite)

def NsCommand.run (fs : NsFiles P) : NsCommand P → NsFiles P
  | .create opts w => (cmdCreate fs opts w).2
  | .compose child parent out w => (cmdCompose fs child parent out w).2

section Writes

variable {fs : NsFiles P} {opts : List (CreateOpt P)} {a : CreateArgs P} {cfg : NsConfig} {child parent : Option P}
  {p out q : P} {w : NsWrite} {par eff : NsConfig}

omit [DecidableEq P] in
theorem CreateArgs.effective_of_parent (hparent : a.parent = some p) (hload : merlinNsLoad (fs p) = some par)
    (hcompose : merlinNsCompose a.config par = .ok eff) :
    a.effective fs = some { eff with parentNsId := if par.parentNsId ≠ 0 then par.parentNsId else 1 } := by
  unfold CreateArgs.effective
  rw [hparent]
  dsimp only
  rw [hload]
  dsimp only
  rw [hcompose]

/-- A `create` that comes to save its config, and saves all of it. -/
theorem cmdCreate_files (hopts : opts.foldlM CreateArgs.read .init = some a) (hout : a.out = some out)
    (heff : a.effective fs = some cfg) :
    (cmdCreate fs opts (.upTo NsConfig.sizeof)).2 = Function.update fs out (some (NsConfig.codec.put cfg)) := by
  unfold cmdCreate
  rw [hopts]
  dsimp only
  rw [hout]
  dsimp only
  rw [heff]
  dsimp only
  rw [saveTo, merlinNsSave]
  dsimp only
  rw [List.take_of_length_le (length_put cfg).le]

/-- `compose` writes its output only. -/
theorem cmdCompose_files_of_ne (hq : q ≠ out) : (cmdCompose fs child parent (some out) w).2 q = fs q := by
  unfold cmdCompose
  split
  · rename_i out' hout
    obtain rfl := Option.some.inj hout
    split
    · split
      · exact Function.update_of_ne hq _ _
      · rfl
    · rfl
  · rfl

end Writes

section Confinement

variable {A : Set P} {S : Scope} {fs : NsFiles P}

/-- Every config in the area is below the scope. -/
def Confined (A : Set P) (S : Scope) (fs : NsFiles P) : Prop :=
  ∀ p ∈ A, ∀ cfg, merlinNsLoad (fs p) = some cfg → cfg.scope ≤ S

/-- A command that writes into the area derives from the area. -/
def NsCommand.Within (A : Set P) : NsCommand P → Prop
  | .create opts _ => ∀ a, opts.foldlM CreateArgs.read .init = some a → ∀ out ∈ A, a.out = some out →
      ∃ p ∈ A, a.parent = some p
  | .compose _ parent out _ => ∀ o ∈ A, out = some o → ∃ p ∈ A, parent = some p

theorem scope_le_of_compose {child parent eff : NsConfig} (h : merlinNsCompose child parent = .ok eff) :
    eff.scope ≤ parent.scope := by
  rw [merlinNsCompose_scope h]
  exact inf_le_right

theorem Confined.saveTo (h : Confined A S fs) (w : NsWrite) {out : P} {cfg : NsConfig} (hcfg : out ∈ A → cfg.scope ≤ S) :
    Confined A S (saveTo fs w out cfg).2 := by
  intro p hp c hload
  by_cases hpo : p = out
  · subst hpo
    change merlinNsLoad (Function.update fs p _ p) = some c at hload
    rw [Function.update_self] at hload
    rcases load_after_save hload with hold | ⟨-, rfl⟩
    · exact h p hp c hold
    · exact hcfg hp
  · change merlinNsLoad (Function.update fs out _ p) = some c at hload
    rw [Function.update_of_ne hpo] at hload
    exact h p hp c hload

theorem Confined.create (h : Confined A S fs) {opts : List (CreateOpt P)} {w : NsWrite}
    (hc : NsCommand.Within A (.create opts w)) : Confined A S (cmdCreate fs opts w).2 := by
  unfold cmdCreate
  cases hargs : opts.foldlM CreateArgs.read .init with
  | none => exact h
  | some a =>
    dsimp only
    cases hout : a.out with
    | none => exact h
    | some out =>
      dsimp only
      cases heff : a.effective fs with
      | none => exact h
      | some cfg =>
        apply h.saveTo w
        intro hin
        obtain ⟨p, hp, hparent⟩ := hc a hargs out hin hout
        rw [CreateArgs.effective, hparent] at heff
        dsimp only at heff
        cases hload : merlinNsLoad (fs p) with
        | none =>
          rw [hload] at heff
          cases heff
        | some par =>
          rw [hload] at heff
          dsimp only at heff
          cases hcompose : merlinNsCompose a.config par with
          | error e =>
            rw [hcompose] at heff
            cases heff
          | ok eff =>
            rw [hcompose] at heff
            obtain rfl := Option.some.inj heff
            exact (scope_le_of_compose hcompose).trans (h p hp par hload)

theorem Confined.compose (h : Confined A S fs) {child parent out : Option P} {w : NsWrite}
    (hc : NsCommand.Within A (.compose child parent out w)) : Confined A S (cmdCompose fs child parent out w).2 := by
  unfold cmdCompose
  split
  · rename_i child parent out
    split
    · rename_i c p hchild hparent
      cases hcompose : merlinNsCompose c p with
      | error e => exact h
      | ok eff =>
        apply h.saveTo w
        intro hin
        obtain ⟨q, hq, heq⟩ := hc out hin rfl
        obtain rfl := Option.some.inj heq
        exact (scope_le_of_compose hcompose).trans (h parent hq p hparent)
    · exact h
  · exact h

theorem Confined.run (h : Confined A S fs) {c : NsCommand P} (hc : c.Within A) : Confined A S (c.run fs) := by
  cases c with
  | create opts w => exact h.create hc
  | compose child parent out w => exact h.compose hc

theorem Confined.runs (h : Confined A S fs) {cmds : List (NsCommand P)} (hc : ∀ c ∈ cmds, c.Within A) :
    Confined A S (cmds.foldl NsCommand.run fs) := by
  induction cmds generalizing fs with
  | nil => exact h
  | cons c cmds ih =>
    obtain ⟨hfirst, hrest⟩ := List.forall_mem_cons.mp hc
    exact ih (h.run hfirst) hrest

/-- Namespaces are confined: when every config of an area is below a root config and the commands of a run write
into the area only what they derive from it, every load that `check` admits against a file of the area after the
run is one that the root admits. -/
theorem check_confined (root : NsConfig) (h : Confined A root.scope fs) (cmds : List (NsCommand P))
    (hc : ∀ c ∈ cmds, c.Within A) (p : P) (hp : p ∈ A) (usage : NsUsage) (prog : ProgFacts)
    (hok : cmdCheck (cmds.foldl NsCommand.run fs) (some p) usage prog = 0) :
    (merlinNsCheck root usage prog).1 = .ok := by
  rw [cmdCheck] at hok
  cases hload : merlinNsLoad (cmds.foldl NsCommand.run fs p) with
  | none =>
    rw [hload] at hok
    cases hok
  | some cfg =>
    rw [hload] at hok
    dsimp only at hok
    split_ifs at hok with hcheck
    rw [merlinNsCheck_eq_ok_iff] at hcheck ⊢
    exact hcheck.trans (h.runs hc p hp cfg hload)

end Confinement

section SampleRun

def sampleFiles : NsFiles ℕ := fun p => if p = 0 then some (NsConfig.codec.put (sampleConfig 7 9 0)) else none

/-- A child in file 1 that may attach at type zero, and a config in file 2 whose writing is cut short. -/
def sampleCommands : List (NsCommand ℕ) :=
  [.create [.parent 0, .attach (ascii "0"), .quota .maxProgs (ascii "6"), .out 1] (.upTo 1160),
    .compose (some 1) (some 0) (some 2) (.upTo 100)]

theorem sampleFiles_confined : Confined {0, 1} (sampleConfig 7 9 0).scope sampleFiles := by
  intro p _ cfg hload
  by_cases hp : p = 0
  · rw [sampleFiles, if_pos hp, merlinNsLoad_put] at hload
    rw [hload.2]
  · rw [sampleFiles, if_neg hp] at hload
    cases hload

theorem sampleCommands_within : ∀ c ∈ sampleCommands, c.Within {0, 1} := by
  intro c hc
  rcases List.mem_cons.mp hc with rfl | hc
  · intro a ha out _ _
    obtain rfl := Option.some.inj ha
    exact ⟨0, by decide, rfl⟩
  · obtain rfl := List.mem_singleton.mp hc
    intro o ho heq
    obtain rfl := Option.some.inj heq
    exact ⟨0, by decide, rfl⟩

/-- The variables behind the options of the first command. -/
def sampleArgs : CreateArgs ℕ :=
  ⟨ascii "<unnamed>", some 0, some 1, [0], [], [], Function.update (fun _ => 0) .maxProgs 6, false, false⟩

def sampleChild : NsConfig := { sampleArgs.config.under (sampleConfig 7 9 0) with parentNsId := 1 }

theorem sampleArgs_narrows : sampleArgs.config.Narrows (sampleConfig 7 9 0) where
  permits kind := by
    cases kind with
    | attach => exact (bitsetSubset_eq_none_iff _ _).mp (by decide +kernel)
    | helper => exact bitsetMembers_replicate_mono (by decide)
    | kfunc => exact bitsetMembers_replicate_mono (by decide)
  quotas field := by
    cases field with
    | maxProgs => exact .inr (by decide)
    | maxMaps => exact .inl rfl
    | maxMapMemoryBytes => exact .inl rfl
    | maxProgMemoryBytes => exact .inl rfl

theorem sampleFiles_load : merlinNsLoad (sampleFiles 0) = some (sampleConfig 7 9 0) := by
  rw [sampleFiles, if_pos rfl, merlinNsLoad_put]
  exact ⟨⟨rfl, rfl, rfl⟩, rfl⟩

theorem sampleArgs_effective : sampleArgs.effective sampleFiles = some sampleChild :=
  CreateArgs.effective_of_parent rfl sampleFiles_load
    ((merlinNsCompose_eq_ok_iff _ _ _).mpr ⟨sampleArgs_narrows, rfl⟩)

theorem cmdCreate_sampleFiles : (cmdCreate sampleFiles [.parent 0, .attach (ascii "0"), .quota .maxProgs (ascii "6"),
    .out 1] (.upTo 1160)).2 = Function.update sampleFiles 1 (some (NsConfig.codec.put sampleChild)) :=
  cmdCreate_files (a := sampleArgs) rfl rfl sampleArgs_effective

/-- The second command leaves the child alone. -/
theorem sampleCommands_child : merlinNsLoad (sampleCommands.foldl NsCommand.run sampleFiles 1) = some sampleChild := by
  rw [sampleCommands, List.foldl_cons, List.foldl_cons, List.foldl_nil, NsCommand.run, NsCommand.run,
    cmdCompose_files_of_ne (by decide), cmdCreate_sampleFiles, Function.update_self, merlinNsLoad_put]
  exact ⟨⟨rfl, rfl, rfl⟩, rfl⟩

theorem check_confined_sample : (merlinNsCheck (sampleConfig 7 9 0) ⟨4, 0, 0, 0⟩ sampleProg).1 = .ok := by
  refine check_confined (sampleConfig 7 9 0) sampleFiles_confined sampleCommands sampleCommands_within 1 (by decide)
    ⟨4, 0, 0, 0⟩ sampleProg ?_
  rw [cmdCheck, sampleCommands_child]
  decide +kernel

end SampleRun

end MerlinV

