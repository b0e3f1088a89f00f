import MerlinV.Ns.Compose
import Mathlib.Data.ENat.Lattice

/-! # Namespaces only narrow

A scope is what a namespace allows: three sets of ids and four limits.  Scopes are ordered by
inclusion, a load is itself a scope (the least one that allows it), and composition with a parent
is the infimum of the two scopes.
-/
namespace MerlinV

/-- What a namespace allows; an absent limit is `⊤`. -/
abbrev Scope := (NsPermit → Set ℕ) × (NsQuota → ℕ∞)

noncomputable def quotaLimit (q : BitVec 64) : ℕ∞ :=
  if q = 0#64 then ⊤ else (q.toNat : ℕ∞)

noncomputable def NsConfig.scope (cfg : NsConfig) : Scope :=
  (cfg.permits, fun field => quotaLimit (cfg.quota field))

/-- The amount `merlin_ns_check` compares with a quota, as the 64-bit word it computes. -/
def loadAmount (usage : NsUsage) (prog : ProgFacts) : NsQuota → BitVec 64
  | .maxProgs => usage.liveProgs + 1
  | .maxMaps => usage.liveMaps
  | .maxMapMemoryBytes => usage.liveMapMemoryBytes + prog.mapMemoryBytes
  | .maxProgMemoryBytes => usage.liveProgMemoryBytes + prog.progMemoryBytes

def loadIds (prog : ProgFacts) : NsPermit → Set ℕ
  | .attach => {prog.attachType.toNat}
  | .helper => { idx | ∃ id ∈ prog.helpers, id.toNat = idx }
  | .kfunc => { idx | ∃ id ∈ prog.kfuncs, id.toNat = idx }

def loadScope (usage : NsUsage) (prog : ProgFacts) : Scope :=
  (loadIds prog, fun field => ((loadAmount usage prog field).toNat : ℕ∞))

theorem overQuota_eq_false_iff (limit amount : BitVec 64) :
    overQuota limit amount = false ↔ (amount.toNat : ℕ∞) ≤ quotaLimit limit := by
  simp only [overQuota, quotaLimit]
  split_ifs with hzero
  · simp [hzero]
  · simp [hzero, BitVec.le_def]

theorem checkQuotas_eq_ok_iff (cfg : NsConfig) (usage : NsUsage) (prog : ProgFacts) :
    checkQuotas cfg usage prog = .ok ↔
      ∀ field, ((loadAmount usage prog field).toNat : ℕ∞) ≤ quotaLimit (cfg.quota field) := by
  have hfields : checkQuotas cfg usage prog = .ok ↔
      ∀ field, overQuota (cfg.quota field) (loadAmount usage prog field) = false := by
    constructor
    · intro h field
      simp only [checkQuotas] at h
      split_ifs at h with h₁ h₂ h₃ h₄
      cases field with
      | maxProgs => simpa [NsConfig.quota, loadAmount] using h₁
      | maxMaps => simpa [NsConfig.quota, loadAmount] using h₂
      | maxMapMemoryBytes => simpa [NsConfig.quota, loadAmount] using h₃
      | maxProgMemoryBytes => simpa [NsConfig.quota, loadAmount] using h₄
    · intro h
      have h₁ := h .maxProgs
      have h₂ := h .maxMaps
      have h₃ := h .maxMapMemoryBytes
      have h₄ := h .maxProgMemoryBytes
      simp only [NsConfig.quota, loadAmount] at h₁ h₂ h₃ h₄
      simp only [checkQuotas, h₁, h₂, h₃, h₄, Bool.false_eq_true, if_false]
  rw [hfields]
  exact forall_congr' fun field => overQuota_eq_false_iff _ _

/-- The scope check is the order of scopes. -/
theorem merlinNsCheck_eq_ok_iff (cfg : NsConfig) (usage : NsUsage) (prog : ProgFacts) :
    (merlinNsCheck cfg usage prog).1 = .ok ↔ loadScope usage prog ≤ cfg.scope := by
  have hids : loadIds prog ≤ cfg.permits ↔
      prog.attachType.toNat ∈ bitsetMembers cfg.permitAttach ∧
        firstForbidden cfg.permitHelper prog.helpers = none ∧
          firstForbidden cfg.permitKfunc prog.kfuncs = none := by
    rw [firstForbidden_eq_none_iff, firstForbidden_eq_none_iff, Pi.le_def]
    constructor
    · intro h
      exact ⟨h .attach rfl, fun id hid => h .helper ⟨id, hid, rfl⟩,
        fun id hid => h .kfunc ⟨id, hid, rfl⟩⟩
    · rintro ⟨hattach, hhelper, hkfunc⟩ kind idx hidx
      cases kind with
      | attach =>
        obtain rfl : idx = prog.attachType.toNat := hidx
        exact hattach
      | helper =>
        obtain ⟨id, hid, rfl⟩ := hidx
        exact hhelper id hid
      | kfunc =>
        obtain ⟨id, hid, rfl⟩ := hidx
        exact hkfunc id hid
  rw [Prod.le_def, loadScope, NsConfig.scope, hids, Pi.le_def, ← checkQuotas_eq_ok_iff]
  simp only [merlinNsCheck, bitsetMembers, Set.mem_ofPred_eq]
  cases merlinNsBitGet cfg.permitAttach prog.attachType.toNat with
  | false => simp
  | true =>
    cases firstForbidden cfg.permitHelper prog.helpers with
    | some id => simp
    | none => cases firstForbidden cfg.permitKfunc prog.kfuncs <;> simp

/-! ## Composition is the infimum -/

theorem quotaLimit_effectiveQuota {child parent : BitVec 64} (h : parent = 0#64 ∨ child ≤ parent) :
    quotaLimit (effectiveQuota child parent) = quotaLimit child ⊓ quotaLimit parent := by
  by_cases hc : child = 0#64
  · simp [effectiveQuota, quotaLimit, hc]
  · by_cases hp : parent = 0#64
    · simp [effectiveQuota, quotaLimit, hc, hp]
    · have hle : child.toNat ≤ parent.toNat := h.resolve_left hp
      simp [effectiveQuota, quotaLimit, hc, hp, hle]

/-- A child that narrows its parent has the infimum of the two scopes as its effective scope. -/
theorem NsConfig.Narrows.scope_under {child parent : NsConfig} (h : child.Narrows parent) :
    (child.under parent).scope = child.scope ⊓ parent.scope := by
  apply Prod.ext
  · funext kind
    simpa [NsConfig.scope] using (Set.inter_eq_left.mpr (h.permits kind)).symm
  · funext field
    simpa [NsConfig.scope] using quotaLimit_effectiveQuota (h.quotas field)

theorem merlinNsCompose_scope {child parent eff : NsConfig}
    (h : merlinNsCompose child parent = .ok eff) : eff.scope = child.scope ⊓ parent.scope := by
  obtain ⟨hn, rfl⟩ := (merlinNsCompose_eq_ok_iff child parent eff).mp h
  exact hn.scope_under

theorem chain_scope_antitone {n : ℕ} {c e : ℕ → NsConfig}
    (hstep : ∀ k < n, merlinNsCompose (c (k + 1)) (e k) = .ok (e (k + 1))) {k m : ℕ} (hkm : k ≤ m)
    (hmn : m ≤ n) : (e m).scope ≤ (e k).scope := by
  induction m, hkm using Nat.le_induction with
  | base => exact le_rfl
  | succ m hkm ih =>
    calc (e (m + 1)).scope = (c (m + 1)).scope ⊓ (e m).scope := merlinNsCompose_scope (hstep m hmn)
      _ ≤ (e m).scope := inf_le_right
      _ ≤ (e k).scope := ih (by omega)

/-- Namespaces only narrow: a load the last namespace of a chain accepts is accepted by each of its
ancestors. -/
theorem merlinNsCheck_chain (n : ℕ) (c e : ℕ → NsConfig) (_hroot : e 0 = c 0)
    (hstep : ∀ k < n, merlinNsCompose (c (k + 1)) (e k) = .ok (e (k + 1))) (usage : NsUsage)
    (prog : ProgFacts) (hok : (merlinNsCheck (e n) usage prog).1 = .ok) :
    ∀ k ≤ n, (merlinNsCheck (e k) usage prog).1 = .ok := by
  intro k hk
  rw [merlinNsCheck_eq_ok_iff] at hok ⊢
  exact hok.trans (chain_scope_antitone hstep hk le_rfl)

section SampleChain

/-- A config of the given permissions and first quota, the others unlimited. -/
def sampleConfig (words maxProgs attestPolicy : ℕ) : NsConfig where
  magic := 0x4D4E5356
  size := 1160
  version := 1
  flags := 0
  name := Vector.replicate 32 0
  parentNsId := 0
  attestPolicy := BitVec.ofNat 32 attestPolicy
  permitAttach := Vector.replicate 2 (BitVec.ofNat 64 words)
  permitHelper := Vector.replicate 64 (BitVec.ofNat 64 words)
  permitKfunc := Vector.replicate 64 (BitVec.ofNat 64 words)
  maxProgs := BitVec.ofNat 64 maxProgs
  maxMaps := 0
  maxMapMemoryBytes := 0
  maxProgMemoryBytes := 0
  trustKeyringId := 0
  reserved := Vector.replicate 7 0

theorem bitsetMembers_replicate_mono {n : ℕ} {c p : BitVec 64} (h : c &&& ~~~p = 0) :
    bitsetMembers (Vector.replicate n c) ⊆ bitsetMembers (Vector.replicate n p) := by
  intro idx hidx
  simp only [bitsetMembers, merlinNsBitGet, Set.mem_ofPred_eq, Vector.getElem_replicate] at hidx ⊢
  split_ifs at hidx ⊢
  exact (illegal_eq_zero_iff c p).mp h _ (Nat.mod_lt _ (by omega)) hidx

theorem sampleConfig_compose {w v q r e a b : ℕ} (hw : BitVec.ofNat 64 w &&& ~~~BitVec.ofNat 64 v = 0)
    (hq : BitVec.ofNat 64 r = 0#64 ∨ BitVec.ofNat 64 q ≤ BitVec.ofNat 64 r)
    (he : BitVec.ofNat 64 e = effectiveQuota (BitVec.ofNat 64 q) (BitVec.ofNat 64 r)) :
    merlinNsCompose (sampleConfig w q a) (sampleConfig v r b) = .ok (sampleConfig w e a) := by
  rw [merlinNsCompose_eq_ok_iff]
  refine ⟨⟨fun kind => ?_, fun field => ?_⟩, ?_⟩
  · cases kind <;> exact bitsetMembers_replicate_mono hw
  · cases field with
    | maxProgs => exact hq
    | maxMaps => exact .inl rfl
    | maxMapMemoryBytes => exact .inl rfl
    | maxProgMemoryBytes => exact .inl rfl
  · simp only [sampleConfig, NsConfig.under, he]
    rfl

def sampleProg : ProgFacts where
  attachType := 0
  helperIds := Vector.replicate 256 0
  helperIdCount := 0
  kfuncIds := Vector.replicate 256 0
  kfuncIdCount := 0
  mapMemoryBytes := 0
  progMemoryBytes := 0
  helperIdCount_le := by decide
  kfuncIdCount_le := by decide

/-- A root, a child with a program quota and a grandchild that inherits it. -/
def sampleChain : ℕ → NsConfig
  | 0 => sampleConfig 7 0 0
  | 1 => sampleConfig 3 5 0
  | _ => sampleConfig 1 0 0

def sampleEffective : ℕ → NsConfig
  | 0 => sampleConfig 7 0 0
  | 1 => sampleConfig 3 5 0
  | _ => sampleConfig 1 5 0

theorem sampleChain_composes :
    ∀ k < 2, merlinNsCompose (sampleChain (k + 1)) (sampleEffective k) = .ok (sampleEffective (k + 1)) := by
  intro k hk
  interval_cases k
  · exact sampleConfig_compose (by decide) (by decide) (by decide)
  · exact sampleConfig_compose (by decide) (by decide) (by decide)

theorem merlinNsCheck_sampleChain :
    (merlinNsCheck (sampleEffective 0) ⟨4, 0, 0, 0⟩ sampleProg).1 = .ok ∧
      (merlinNsCheck (sampleEffective 1) ⟨4, 0, 0, 0⟩ sampleProg).1 = .ok := by
  have hchain := merlinNsCheck_chain 2 sampleChain sampleEffective rfl sampleChain_composes ⟨4, 0, 0, 0⟩ sampleProg
    (by decide +kernel)
  exact ⟨hchain 0 (by omega), hchain 1 (by omega)⟩

end SampleChain

/-! ## The dimensions of a config -/

/-- No dimension of `eff` is more permissive than `parent`'s.  `Derived k k'` says that keyring `k`
is derived from keyring `k'`. -/
structure NsConfig.NoWider (Derived : BitVec 32 → BitVec 32 → Prop) (eff parent : NsConfig) : Prop where
  permits : ∀ kind, eff.permits kind ⊆ parent.permits kind
  quotas : ∀ field, parent.quota field ≠ 0#64 →
    eff.quota field ≠ 0#64 ∧ eff.quota field ≤ parent.quota field
  attestPolicy : parent.attestPolicy ≤ eff.attestPolicy
  trustKeyringId : eff.trustKeyringId = parent.trustKeyringId ∨
    Derived eff.trustKeyringId parent.trustKeyringId

theorem effectiveQuota_le {child parent : BitVec 64} (h : parent = 0#64 ∨ child ≤ parent)
    (hp : parent ≠ 0#64) :
    effectiveQuota child parent ≠ 0#64 ∧ effectiveQuota child parent ≤ parent := by
  by_cases hc : child = 0#64
  · simp [effectiveQuota, hc, hp]
  · simpa [effectiveQuota, hc] using h.resolve_left hp

/-- The bitsets and the quotas are checked; the attestation policy and the keyring are copied from
the child, so they are no wider exactly when the child's own values are. -/
theorem merlinNsCompose_noWider_iff (Derived : BitVec 32 → BitVec 32 → Prop)
    (child parent eff : NsConfig) (h : merlinNsCompose child parent = .ok eff) :
    eff.NoWider Derived parent ↔
      parent.attestPolicy ≤ child.attestPolicy ∧
        (child.trustKeyringId = parent.trustKeyringId ∨
          Derived child.trustKeyringId parent.trustKeyringId) := by
  obtain ⟨hn, rfl⟩ := (merlinNsCompose_eq_ok_iff child parent eff).mp h
  constructor
  · intro hw
    exact ⟨hw.attestPolicy, hw.trustKeyringId⟩
  · rintro ⟨hpolicy, hkeyring⟩
    refine ⟨fun kind => ?_, fun field hp => ?_, hpolicy, hkeyring⟩
    · rw [NsConfig.under_permits]
      exact hn.permits kind
    · rw [NsConfig.under_quota]
      exact effectiveQuota_le (hn.quotas field) hp

theorem merlinNsCompose_noWider_sample :
    (sampleConfig 1 5 2).NoWider (fun _ _ => False) (sampleConfig 3 5 1) :=
  (merlinNsCompose_noWider_iff (fun _ _ => False) (sampleConfig 1 0 2) (sampleConfig 3 5 1)
    (sampleConfig 1 5 2) (sampleConfig_compose (by decide) (by decide) (by decide))).mpr (by decide)

/-- A child that asks for no attestation is composed under a parent that requires it. -/
theorem merlinNsCompose_drops_policy :
    ∃ eff, merlinNsCompose (sampleConfig 1 0 0) (sampleConfig 1 0 2) = .ok eff ∧
      ∀ Derived, ¬eff.NoWider Derived (sampleConfig 1 0 2) := by
  refine ⟨sampleConfig 1 0 0, sampleConfig_compose (by decide) (by decide) (by decide), fun Derived hw => ?_⟩
  exact absurd hw.attestPolicy (by decide)

/-! ## Composition as an operation -/

theorem effectiveQuota_assoc (c p g : BitVec 64) :
    effectiveQuota (effectiveQuota c p) g = effectiveQuota c (effectiveQuota p g) := by
  by_cases hc : c = 0#64 <;> simp [effectiveQuota, hc]

theorem NsConfig.under_assoc (c p g : NsConfig) : (c.under p).under g = c.under (p.under g) := by
  simp [NsConfig.under, effectiveQuota_assoc]

theorem effectiveQuota_self (c p : BitVec 64) :
    effectiveQuota (effectiveQuota c p) p = effectiveQuota c p := by
  by_cases hc : c = 0#64 <;> simp [effectiveQuota, hc]

theorem NsConfig.under_under_self (c p : NsConfig) : (c.under p).under p = c.under p := by
  simp [NsConfig.under, effectiveQuota_self]

theorem NsConfig.Narrows.under_self {c p : NsConfig} (h : c.Narrows p) : (c.under p).Narrows p where
  permits kind := by
    rw [NsConfig.under_permits]
    exact h.permits kind
  quotas field := by
    rw [NsConfig.under_quota]
    by_cases hp : p.quota field = 0#64
    · exact .inl hp
    · exact .inr (effectiveQuota_le (h.quotas field) hp).2

theorem NsConfig.Narrows.of_under {c p g : NsConfig} (h : c.Narrows (p.under g)) : c.Narrows p where
  permits kind := by simpa using h.permits kind
  quotas field := by
    have hq := h.quotas field
    rw [NsConfig.under_quota] at hq
    by_cases hp : p.quota field = 0#64
    · exact .inl hp
    · simpa [effectiveQuota, hp] using hq

theorem NsConfig.Narrows.under_of_under {c p g : NsConfig} (hpg : p.Narrows g)
    (h : c.Narrows (p.under g)) : (c.under p).Narrows g where
  permits kind := by
    rw [NsConfig.under_permits]
    exact (h.of_under.permits kind).trans (hpg.permits kind)
  quotas field := by
    rw [NsConfig.under_quota]
    by_cases hg : g.quota field = 0#64
    · exact .inl hg
    · right
      have hp := effectiveQuota_le (hpg.quotas field) hg
      have hq := h.quotas field
      rw [NsConfig.under_quota] at hq
      by_cases hc : c.quota field = 0#64
      · rw [effectiveQuota, if_pos hc]
        exact (hpg.quotas field).resolve_left hg
      · rw [effectiveQuota, if_neg hc]
        exact BitVec.le_trans (hq.resolve_left hp.1) hp.2

/-- Composition is associative where the outer composition is defined, and composing twice with one
parent is composing once. -/
theorem merlinNsCompose_assoc_idem (c p g : NsConfig) :
    (∀ pg eff, merlinNsCompose p g = .ok pg → merlinNsCompose c pg = .ok eff →
      ∃ cp, merlinNsCompose c p = .ok cp ∧ merlinNsCompose cp g = .ok eff) ∧
    (∀ eff, merlinNsCompose c p = .ok eff → merlinNsCompose eff p = .ok eff) := by
  simp only [merlinNsCompose_eq_ok_iff]
  constructor
  · rintro pg eff ⟨hpg, rfl⟩ ⟨hc, rfl⟩
    exact ⟨c.under p, ⟨hc.of_under, rfl⟩, hpg.under_of_under hc, (NsConfig.under_assoc c p g).symm⟩
  · rintro eff ⟨hcp, rfl⟩
    exact ⟨hcp.under_self, (NsConfig.under_under_self c p).symm⟩

theorem merlinNsCompose_assoc_idem_sample :
    (∃ cp, merlinNsCompose (sampleConfig 1 0 0) (sampleConfig 3 5 0) = .ok cp ∧
      merlinNsCompose cp (sampleConfig 7 9 0) = .ok (sampleConfig 1 5 0)) ∧
    merlinNsCompose (sampleConfig 1 5 0) (sampleConfig 3 5 0) = .ok (sampleConfig 1 5 0) :=
  ⟨(merlinNsCompose_assoc_idem (sampleConfig 1 0 0) (sampleConfig 3 5 0) (sampleConfig 7 9 0)).1
      (sampleConfig 3 5 0) (sampleConfig 1 5 0) (sampleConfig_compose (by decide) (by decide) (by decide))
      (sampleConfig_compose (by decide) (by decide) (by decide)),
    (merlinNsCompose_assoc_idem (sampleConfig 1 0 0) (sampleConfig 3 5 0) (sampleConfig 7 9 0)).2
      (sampleConfig 1 5 0) (sampleConfig_compose (by decide) (by decide) (by decide))⟩

end MerlinV
