import MerlinV.Ns.Scope

/-! # Quotas over a run of loads

`merlin_ns_check` adds what a program brings to what is live in 64-bit words.  A sum that fits is
compared exactly; one that wraps around passes for a small one.
-/
namespace MerlinV

def NsUsage.live (usage : NsUsage) : NsQuota → BitVec 64
  | .maxProgs => usage.liveProgs
  | .maxMaps => usage.liveMaps
  | .maxMapMemoryBytes => usage.liveMapMemoryBytes
  | .maxProgMemoryBytes => usage.liveProgMemoryBytes

/-- What a program adds to it.  The maps are counted by the caller, before the check. -/
def ProgFacts.brings (prog : ProgFacts) : NsQuota → BitVec 64
  | .maxProgs => 1#64
  | .maxMaps => 0#64
  | .maxMapMemoryBytes => prog.mapMemoryBytes
  | .maxProgMemoryBytes => prog.progMemoryBytes

def NsUsage.load (usage : NsUsage) (prog : ProgFacts) : NsUsage :=
  { usage with
    liveProgs := usage.liveProgs + 1#64
    liveMapMemoryBytes := usage.liveMapMemoryBytes + prog.mapMemoryBytes
    liveProgMemoryBytes := usage.liveProgMemoryBytes + prog.progMemoryBytes }

/-- The usage after a list of loads, the last one first, from no usage. -/
def usageOf : List ProgFacts → NsUsage
  | [] => ⟨0#64, 0#64, 0#64, 0#64⟩
  | prog :: progs => (usageOf progs).load prog

def AdmittedRun (cfg : NsConfig) : List ProgFacts → Prop
  | [] => True
  | prog :: progs => AdmittedRun cfg progs ∧ (merlinNsCheck cfg (usageOf progs) prog).1 = .ok

def broughtBy (progs : List ProgFacts) (field : NsQuota) : ℕ :=
  (progs.map fun prog => (prog.brings field).toNat).sum

/-- With the load no finite quota is exceeded, in unbounded integers. -/
def ExactAdmission (cfg : NsConfig) (usage : NsUsage) (prog : ProgFacts) : Prop :=
  ∀ field, cfg.quota field ≠ 0#64 →
    (usage.live field).toNat + (prog.brings field).toNat ≤ (cfg.quota field).toNat

/-- The loads together exceed no finite quota. -/
def WithinQuotas (cfg : NsConfig) (progs : List ProgFacts) : Prop :=
  ∀ field, cfg.quota field ≠ 0#64 → broughtBy progs field ≤ (cfg.quota field).toNat

/-- No sum that is compared with a quota wraps around. -/
def SumsFit (cfg : NsConfig) (usage : NsUsage) (prog : ProgFacts) : Prop :=
  ∀ field, cfg.quota field ≠ 0#64 → (usage.live field).toNat + (prog.brings field).toNat < 2 ^ 64

section Check

variable {cfg : NsConfig} {usage : NsUsage} {prog : ProgFacts} {progs : List ProgFacts}

theorem loadAmount_eq (usage : NsUsage) (prog : ProgFacts) (field : NsQuota) :
    loadAmount usage prog field = usage.live field + prog.brings field := by
  cases field with
  | maxMaps => exact (BitVec.add_zero _).symm
  | _ => rfl

theorem NsUsage.load_live (usage : NsUsage) (prog : ProgFacts) (field : NsQuota) :
    (usage.load prog).live field = usage.live field + prog.brings field := by
  cases field with
  | maxMaps => exact (BitVec.add_zero _).symm
  | _ => rfl

theorem merlinNsCheck_ok_le (hok : (merlinNsCheck cfg usage prog).1 = .ok) {field : NsQuota}
    (hq : cfg.quota field ≠ 0#64) :
    (usage.live field + prog.brings field).toNat ≤ (cfg.quota field).toNat := by
  have hle := ((merlinNsCheck_eq_ok_iff cfg usage prog).mp hok).2 field
  change ((loadAmount usage prog field).toNat : ℕ∞) ≤ quotaLimit (cfg.quota field) at hle
  rw [quotaLimit, if_neg hq, loadAmount_eq] at hle
  exact_mod_cast hle

theorem exactAdmission_iff (hok : (merlinNsCheck cfg usage prog).1 = .ok) :
    ExactAdmission cfg usage prog ↔ SumsFit cfg usage prog := by
  constructor
  · intro h field hq
    exact (h field hq).trans_lt (cfg.quota field).isLt
  · intro h field hq
    have hle := merlinNsCheck_ok_le hok hq
    rw [BitVec.toNat_add, Nat.mod_eq_of_lt (h field hq)] at hle
    exact hle

theorem broughtBy_cons (prog : ProgFacts) (progs : List ProgFacts) (field : NsQuota) :
    broughtBy (prog :: progs) field = (prog.brings field).toNat + broughtBy progs field := by
  simp [broughtBy]

/-- The usage words count modulo their width. -/
theorem usageOf_live (progs : List ProgFacts) (field : NsQuota) :
    ((usageOf progs).live field).toNat = broughtBy progs field % 2 ^ 64 := by
  induction progs with
  | nil => cases field <;> rfl
  | cons prog progs ih =>
    rw [usageOf, NsUsage.load_live, BitVec.toNat_add, ih, broughtBy_cons, Nat.mod_add_mod, Nat.add_comm]

/-- Where no sum wrapped around, the usage word is what the loads bring. -/
theorem usageOf_live_of_within (h : WithinQuotas cfg progs) {field : NsQuota} (hq : cfg.quota field ≠ 0#64) :
    ((usageOf progs).live field).toNat = broughtBy progs field := by
  rw [usageOf_live, Nat.mod_eq_of_lt ((h field hq).trans_lt (cfg.quota field).isLt)]

/-- One more admitted load stays within the quotas if and only if its sums fit. -/
theorem withinQuotas_cons_iff (h : WithinQuotas cfg progs)
    (hok : (merlinNsCheck cfg (usageOf progs) prog).1 = .ok) :
    WithinQuotas cfg (prog :: progs) ↔ SumsFit cfg (usageOf progs) prog := by
  rw [← exactAdmission_iff hok]
  refine forall_congr' fun field => forall_congr' fun hq => ?_
  rw [usageOf_live_of_within h hq, broughtBy_cons, Nat.add_comm]

theorem withinQuotas_nil (cfg : NsConfig) : WithinQuotas cfg [] := fun _ _ => Nat.zero_le _

end Check

/-- A run of admitted loads stays within the quotas at every point if and only if at every load the sums
fit. -/
theorem admittedRun_within_iff {cfg : NsConfig} {progs : List ProgFacts} (hrun : AdmittedRun cfg progs) :
    (∀ qs, qs <:+ progs → WithinQuotas cfg qs) ↔
      ∀ prog qs, prog :: qs <:+ progs → SumsFit cfg (usageOf qs) prog := by
  induction progs with
  | nil =>
    constructor
    · intro _ prog qs h
      exact absurd (List.suffix_nil.mp h) (by simp)
    · intro _ qs h
      rw [List.suffix_nil.mp h]
      exact withinQuotas_nil cfg
  | cons prog progs ih =>
    obtain ⟨hrun, hok⟩ := hrun
    constructor
    · intro h
      have hbefore : ∀ qs, qs <:+ progs → WithinQuotas cfg qs := fun qs hqs =>
        h qs (hqs.trans (List.suffix_cons prog progs))
      intro prog' qs hqs
      rcases List.suffix_cons_iff.mp hqs with heq | hqs
      · obtain ⟨rfl, rfl⟩ := List.cons.inj heq
        exact (withinQuotas_cons_iff (hbefore qs List.suffix_rfl) hok).mp (h _ List.suffix_rfl)
      · exact (ih hrun).mp hbefore prog' qs hqs
    · intro h
      have hbefore := (ih hrun).mpr fun prog' qs hqs => h prog' qs (hqs.trans (List.suffix_cons prog progs))
      intro qs hqs
      rcases List.suffix_cons_iff.mp hqs with rfl | hqs
      · exact (withinQuotas_cons_iff (hbefore progs List.suffix_rfl) hok).mpr (h prog progs List.suffix_rfl)
      · exact hbefore qs hqs

/-- Quota admission is exact where no compared sum wraps around, for one check and over whole runs from
no usage. -/
theorem quota_exact_iff (cfg : NsConfig) :
    (∀ usage prog, (merlinNsCheck cfg usage prog).1 = .ok →
      (ExactAdmission cfg usage prog ↔ SumsFit cfg usage prog)) ∧
    ∀ progs, AdmittedRun cfg progs →
      ((∀ qs, qs <:+ progs → WithinQuotas cfg qs) ↔
        ∀ prog qs, prog :: qs <:+ progs → SumsFit cfg (usageOf qs) prog) :=
  ⟨fun _ _ hok => exactAdmission_iff hok, fun _ hrun => admittedRun_within_iff hrun⟩

section Samples

def mapQuotaConfig : NsConfig := { sampleConfig 1 0 0 with maxMapMemoryBytes := 100 }

def mapProg (bytes : BitVec 64) : ProgFacts := { sampleProg with mapMemoryBytes := bytes }

theorem mapProgs_sumsFit : SumsFit mapQuotaConfig (usageOf [mapProg 50]) (mapProg 40) ∧
    SumsFit mapQuotaConfig (usageOf []) (mapProg 50) := by
  constructor
  · intro field hq
    cases field with
    | maxMapMemoryBytes => decide +kernel
    | _ => exact absurd rfl hq
  · intro field hq
    cases field with
    | maxMapMemoryBytes => decide +kernel
    | _ => exact absurd rfl hq

theorem quota_exact_mapProgs :
    ExactAdmission mapQuotaConfig (usageOf [mapProg 50]) (mapProg 40) ∧
      WithinQuotas mapQuotaConfig [mapProg 40, mapProg 50] := by
  obtain ⟨hcheck, hruns⟩ := quota_exact_iff mapQuotaConfig
  constructor
  · exact (hcheck (usageOf [mapProg 50]) (mapProg 40) (by decide +kernel)).mpr mapProgs_sumsFit.1
  · have hrun := hruns [mapProg 40, mapProg 50] ⟨⟨trivial, by decide +kernel⟩, by decide +kernel⟩
    refine hrun.mpr (fun prog qs hqs => ?_) _ List.suffix_rfl
    rcases List.suffix_cons_iff.mp hqs with heq | hqs
    · obtain ⟨rfl, rfl⟩ := List.cons.inj heq
      exact mapProgs_sumsFit.1
    · rcases List.suffix_cons_iff.mp hqs with heq | hqs
      · obtain ⟨rfl, rfl⟩ := List.cons.inj heq
        exact mapProgs_sumsFit.2
      · exact absurd (List.suffix_nil.mp hqs) (by simp)

/-- A program whose maps nearly fill 64 bits is admitted behind one of 50 bytes. -/
theorem mapProg_wraps :
    AdmittedRun mapQuotaConfig [mapProg (-10), mapProg 50] ∧
      ¬ExactAdmission mapQuotaConfig (usageOf [mapProg 50]) (mapProg (-10)) ∧
      ¬WithinQuotas mapQuotaConfig [mapProg (-10), mapProg 50] := by
  refine ⟨⟨⟨trivial, by decide +kernel⟩, by decide +kernel⟩, fun h => ?_, fun h => ?_⟩
  · exact absurd (h .maxMapMemoryBytes (by decide +kernel)) (by decide +kernel)
  · exact absurd (h .maxMapMemoryBytes (by decide +kernel)) (by decide +kernel)

end Samples

end MerlinV
