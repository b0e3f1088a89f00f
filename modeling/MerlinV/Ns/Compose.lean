import MerlinV.Lib.Fallible
import Mathlib.Data.BitVec

/-! # Namespace configs, their composition and the scope check

`tools/merlin-ns/ns.c` over the layout of `merlin/namespace.h`: `merlin_ns_compose` builds the
effective config of a child under its parent, and `merlin_ns_check` decides whether a program may be
loaded under a config.  Reading and writing the config file is left out.
-/
namespace MerlinV

abbrev nsAttachWords : ℕ := 2

abbrev nsHelperWords : ℕ := 64

abbrev nsKfuncWords : ℕ := 64

structure NsConfig where
  magic : BitVec 32
  size : BitVec 32
  version : BitVec 32
  flags : BitVec 32
  name : Vector (BitVec 8) 32
  parentNsId : BitVec 32
  attestPolicy : BitVec 32
  permitAttach : Vector (BitVec 64) nsAttachWords
  permitHelper : Vector (BitVec 64) nsHelperWords
  permitKfunc : Vector (BitVec 64) nsKfuncWords
  maxProgs : BitVec 64
  maxMaps : BitVec 64
  maxMapMemoryBytes : BitVec 64
  maxProgMemoryBytes : BitVec 64
  trustKeyringId : BitVec 32
  reserved : Vector (BitVec 32) 7
  deriving DecidableEq

inductive NsQuota where
  | maxProgs | maxMaps | maxMapMemoryBytes | maxProgMemoryBytes
  deriving DecidableEq, Repr

inductive NsPermit where
  | attach | helper | kfunc
  deriving DecidableEq, Repr

namespace NsConfig

def quota (cfg : NsConfig) : NsQuota → BitVec 64
  | .maxProgs => cfg.maxProgs
  | .maxMaps => cfg.maxMaps
  | .maxMapMemoryBytes => cfg.maxMapMemoryBytes
  | .maxProgMemoryBytes => cfg.maxProgMemoryBytes

end NsConfig

section Bitsets
variable {n : ℕ}

/-- `merlin_ns_bit_get`: an index past the last word is not a member. -/
def merlinNsBitGet (bs : Vector (BitVec 64) n) (idx : ℕ) : Bool :=
  if h : idx / 64 < n then bs[idx / 64].getLsbD (idx % 64) else false

/-- The position the bit loop of `bitset_subset` stops at: the lowest set bit. -/
def lowestBit (w : BitVec 64) : ℕ :=
  (List.range 64).findIdx fun bit => w.getLsbD bit

/-- `bitset_subset`: `none` is success, `some bit` the first bit the child has and the parent
lacks. -/
def bitsetSubset (child parent : Vector (BitVec 64) n) : Option ℕ :=
  (List.finRange n).findSome? fun i : Fin n =>
    let illegal := child[i] &&& ~~~parent[i]
    if illegal ≠ 0 then some (i.val * 64 + lowestBit illegal) else none

end Bitsets

/-- What `merlin_ns_compose` reports before it returns -1. -/
inductive NsWiden where
  | permit (kind : NsPermit) (bit : ℕ)
  | quota (field : NsQuota) (parent child : BitVec 64)
  deriving DecidableEq, Repr

def composePermit {n : ℕ} (kind : NsPermit) (child parent : Vector (BitVec 64) n) :
    Except NsWiden Unit :=
  match bitsetSubset child parent with
  | some bit => .error (.permit kind bit)
  | none => .ok ()

/-- The macro `Q`: a zero in the parent leaves the child free, a zero in the child inherits. -/
def composeQuota (child parent : NsConfig) (field : NsQuota) : Except NsWiden (BitVec 64) :=
  if parent.quota field ≠ 0#64 then
    if child.quota field = 0#64 then .ok (parent.quota field)
    else if parent.quota field < child.quota field then
      .error (.quota field (parent.quota field) (child.quota field))
    else .ok (child.quota field)
  else .ok (child.quota field)

/-- `merlin_ns_compose`.  The effective config is the child with the merged quotas and the parent's
own parent. -/
def merlinNsCompose (child parent : NsConfig) : Except NsWiden NsConfig := do
  composePermit .attach child.permitAttach parent.permitAttach
  composePermit .helper child.permitHelper parent.permitHelper
  composePermit .kfunc child.permitKfunc parent.permitKfunc
  let maxProgs ← composeQuota child parent .maxProgs
  let maxMaps ← composeQuota child parent .maxMaps
  let maxMapMemoryBytes ← composeQuota child parent .maxMapMemoryBytes
  let maxProgMemoryBytes ← composeQuota child parent .maxProgMemoryBytes
  return { child with
    parentNsId := parent.parentNsId
    maxProgs := maxProgs
    maxMaps := maxMaps
    maxMapMemoryBytes := maxMapMemoryBytes
    maxProgMemoryBytes := maxProgMemoryBytes }

/-- `struct merlin_prog_facts`; the callers fill at most 256 ids into each array. -/
structure ProgFacts where
  attachType : BitVec 32
  helperIds : Vector (BitVec 32) 256
  helperIdCount : BitVec 32
  kfuncIds : Vector (BitVec 32) 256
  kfuncIdCount : BitVec 32
  mapMemoryBytes : BitVec 64
  progMemoryBytes : BitVec 64
  helperIdCount_le : helperIdCount.toNat ≤ 256
  kfuncIdCount_le : kfuncIdCount.toNat ≤ 256

structure NsUsage where
  liveProgs : BitVec 64
  liveMaps : BitVec 64
  liveMapMemoryBytes : BitVec 64
  liveProgMemoryBytes : BitVec 64

inductive NsReject where
  | ok | attachNotAllowed | helperNotAllowed | kfuncNotAllowed
  | quotaProgs | quotaMaps | quotaMapMem | quotaProgMem | sealed
  deriving DecidableEq, Repr

def NsReject.merlinNsRejectName : NsReject → String
  | .ok => "OK"
  | .attachNotAllowed => "attach_not_allowed"
  | .helperNotAllowed => "helper_not_allowed"
  | .kfuncNotAllowed => "kfunc_not_allowed"
  | .quotaProgs => "quota_progs"
  | .quotaMaps => "quota_maps"
  | .quotaMapMem => "quota_map_mem"
  | .quotaProgMem => "quota_prog_mem"
  | .sealed => "sealed"

theorem NsReject.merlinNsRejectName_injective : Function.Injective NsReject.merlinNsRejectName := by
  intro a b h
  cases a <;> cases b <;> first | rfl | (revert h; decide)

namespace ProgFacts

def helpers (prog : ProgFacts) : List (BitVec 32) :=
  prog.helperIds.toList.take prog.helperIdCount.toNat

def kfuncs (prog : ProgFacts) : List (BitVec 32) :=
  prog.kfuncIds.toList.take prog.kfuncIdCount.toNat

end ProgFacts

/-- The id loop of `merlin_ns_check`: the first id that is not a member of the bitset. -/
def firstForbidden {n : ℕ} (bs : Vector (BitVec 64) n) (ids : List (BitVec 32)) :
    Option (BitVec 32) :=
  ids.find? fun id => !merlinNsBitGet bs id.toNat

def overQuota (limit amount : BitVec 64) : Bool :=
  limit ≠ 0#64 && limit < amount

def checkQuotas (cfg : NsConfig) (usage : NsUsage) (prog : ProgFacts) : NsReject :=
  if overQuota cfg.maxProgs (usage.liveProgs + 1) then .quotaProgs
  else if overQuota cfg.maxMaps usage.liveMaps then .quotaMaps
  else if overQuota cfg.maxMapMemoryBytes (usage.liveMapMemoryBytes + prog.mapMemoryBytes) then
    .quotaMapMem
  else if overQuota cfg.maxProgMemoryBytes (usage.liveProgMemoryBytes + prog.progMemoryBytes) then
    .quotaProgMem
  else .ok

/-- `merlin_ns_check`: the verdict and what is stored through `offending_id_out`.  A sealed
namespace is not treated differently. -/
def merlinNsCheck (cfg : NsConfig) (usage : NsUsage) (prog : ProgFacts) :
    NsReject × Option (BitVec 32) :=
  if !merlinNsBitGet cfg.permitAttach prog.attachType.toNat then
    (.attachNotAllowed, some prog.attachType)
  else
    match firstForbidden cfg.permitHelper prog.helpers with
    | some id => (.helperNotAllowed, some id)
    | none =>
      match firstForbidden cfg.permitKfunc prog.kfuncs with
      | some id => (.kfuncNotAllowed, some id)
      | none => (checkQuotas cfg usage prog, none)

/-! ## What the checks decide -/

section Bitsets
variable {n : ℕ}

def bitsetMembers (bs : Vector (BitVec 64) n) : Set ℕ :=
  { idx | merlinNsBitGet bs idx = true }

theorem merlinNsBitGet_word (bs : Vector (BitVec 64) n) (i : Fin n) {bit : ℕ} (hbit : bit < 64) :
    merlinNsBitGet bs (i.val * 64 + bit) = bs[i].getLsbD bit := by
  have hdiv : (i.val * 64 + bit) / 64 = i.val := by omega
  have hmod : (i.val * 64 + bit) % 64 = bit := by omega
  simp [merlinNsBitGet, hdiv, hmod]

theorem lowestBit_spec {w : BitVec 64} (hw : w ≠ 0) :
    lowestBit w < 64 ∧ w.getLsbD (lowestBit w) = true := by
  have hex : ∃ bit ∈ List.range 64, w.getLsbD bit = true := by
    by_contra hno
    push Not at hno
    apply hw
    apply BitVec.eq_of_getLsbD_eq
    intro i hi
    simpa using hno i (List.mem_range.mpr hi)
  have hlt : lowestBit w < (List.range 64).length :=
    List.findIdx_lt_length.mpr hex
  have hget : w.getLsbD ((List.range 64)[lowestBit w]) = true :=
    List.findIdx_getElem (p := fun bit => w.getLsbD bit) (w := hlt)
  rw [List.getElem_range] at hget
  exact ⟨by simpa using hlt, hget⟩

theorem illegal_eq_zero_iff (c p : BitVec 64) :
    c &&& ~~~p = 0 ↔ ∀ bit < 64, c.getLsbD bit = true → p.getLsbD bit = true := by
  constructor
  · intro h bit hbit hc
    have hz := congrArg (fun w => w.getLsbD bit) h
    simpa [hc, hbit] using hz
  · intro h
    apply BitVec.eq_of_getLsbD_eq
    intro bit hbit
    cases hc : c.getLsbD bit with
    | false => simp [hc]
    | true => simp [hc, h bit hbit hc, hbit]

theorem bitsetSubset_eq_none_iff (child parent : Vector (BitVec 64) n) :
    bitsetSubset child parent = none ↔ bitsetMembers child ⊆ bitsetMembers parent := by
  have hword : bitsetSubset child parent = none ↔ ∀ i : Fin n, child[i] &&& ~~~parent[i] = 0 := by
    simp [bitsetSubset, List.findSome?_eq_none_iff]
  rw [hword]
  constructor
  · intro h idx hidx
    simp only [bitsetMembers, Set.mem_ofPred_eq, merlinNsBitGet] at hidx ⊢
    split at hidx
    · rename_i hlt
      rw [dif_pos hlt]
      exact (illegal_eq_zero_iff _ _).mp (h ⟨idx / 64, hlt⟩) _ (Nat.mod_lt _ (by norm_num)) hidx
    · cases hidx
  · intro h i
    rw [illegal_eq_zero_iff]
    intro bit hbit hc
    rw [← merlinNsBitGet_word parent i hbit]
    apply h
    simpa [bitsetMembers, merlinNsBitGet_word child i hbit] using hc

theorem bitsetSubset_offending {child parent : Vector (BitVec 64) n} {bit : ℕ}
    (h : bitsetSubset child parent = some bit) :
    bit ∈ bitsetMembers child ∧ bit ∉ bitsetMembers parent := by
  obtain ⟨i, -, hi⟩ := List.exists_of_findSome?_eq_some h
  simp only at hi
  split at hi
  · rename_i hne
    obtain ⟨hlt, hget⟩ := lowestBit_spec hne
    cases hi
    simp only [BitVec.getLsbD_and, BitVec.getLsbD_not, hlt, decide_true, Bool.true_and,
      Bool.and_eq_true, Bool.not_eq_true'] at hget
    constructor
    · exact (merlinNsBitGet_word child i hlt).trans hget.1
    · intro hmem
      have hset := (merlinNsBitGet_word parent i hlt).symm.trans hmem
      rw [hget.2] at hset
      cases hset
  · cases hi

theorem firstForbidden_eq_none_iff (bs : Vector (BitVec 64) n) (ids : List (BitVec 32)) :
    firstForbidden bs ids = none ↔ ∀ id ∈ ids, id.toNat ∈ bitsetMembers bs := by
  simp [firstForbidden, bitsetMembers]

end Bitsets

def NsConfig.permits (cfg : NsConfig) : NsPermit → Set ℕ
  | .attach => bitsetMembers cfg.permitAttach
  | .helper => bitsetMembers cfg.permitHelper
  | .kfunc => bitsetMembers cfg.permitKfunc

/-- The child widens its parent in none of the seven checked dimensions. -/
structure NsConfig.Narrows (child parent : NsConfig) : Prop where
  permits : ∀ kind, child.permits kind ⊆ parent.permits kind
  quotas : ∀ field, parent.quota field = 0#64 ∨ child.quota field ≤ parent.quota field

/-- The effective quota: a zero inherits. -/
def effectiveQuota (child parent : BitVec 64) : BitVec 64 :=
  if child = 0#64 then parent else child

/-- The effective config, whether or not the checks pass. -/
def NsConfig.under (child parent : NsConfig) : NsConfig :=
  { child with
    parentNsId := parent.parentNsId
    maxProgs := effectiveQuota child.maxProgs parent.maxProgs
    maxMaps := effectiveQuota child.maxMaps parent.maxMaps
    maxMapMemoryBytes := effectiveQuota child.maxMapMemoryBytes parent.maxMapMemoryBytes
    maxProgMemoryBytes := effectiveQuota child.maxProgMemoryBytes parent.maxProgMemoryBytes }

@[simp] theorem NsConfig.under_quota (child parent : NsConfig) (field : NsQuota) :
    (child.under parent).quota field = effectiveQuota (child.quota field) (parent.quota field) := by
  cases field <;> rfl

@[simp] theorem NsConfig.under_permits (child parent : NsConfig) (kind : NsPermit) :
    (child.under parent).permits kind = child.permits kind := by
  cases kind <;> rfl

theorem composePermit_eq_ok_iff {n : ℕ} (kind : NsPermit) (child parent : Vector (BitVec 64) n)
    (u : Unit) : composePermit kind child parent = .ok u ↔ bitsetMembers child ⊆ bitsetMembers parent := by
  rw [← bitsetSubset_eq_none_iff, composePermit]
  cases bitsetSubset child parent <;> simp

theorem composeQuota_eq_ok_iff (child parent : NsConfig) (field : NsQuota) (q : BitVec 64) :
    composeQuota child parent field = .ok q ↔
      (parent.quota field = 0#64 ∨ child.quota field ≤ parent.quota field) ∧
        effectiveQuota (child.quota field) (parent.quota field) = q := by
  generalize hc : child.quota field = c
  generalize hp : parent.quota field = p
  simp only [composeQuota, effectiveQuota, hc, hp]
  split_ifs with hp0 hc0 hlt
  · simp [hc0, BitVec.le_def]
  · simp [hp0, BitVec.not_le.mpr hlt]
  · simp [BitVec.not_lt.mp hlt]
  · simp_all
  · simp_all

/-- What `merlin_ns_compose` computes: it succeeds exactly on a child that narrows its parent. -/
theorem merlinNsCompose_eq_ok_iff (child parent eff : NsConfig) :
    merlinNsCompose child parent = .ok eff ↔ child.Narrows parent ∧ eff = child.under parent := by
  have hbind : merlinNsCompose child parent = .ok eff ↔
      (∀ kind, child.permits kind ⊆ parent.permits kind) ∧
        ∃ q : NsQuota → BitVec 64, (∀ field, composeQuota child parent field = .ok (q field)) ∧
          eff = { child with
            parentNsId := parent.parentNsId
            maxProgs := q .maxProgs
            maxMaps := q .maxMaps
            maxMapMemoryBytes := q .maxMapMemoryBytes
            maxProgMemoryBytes := q .maxProgMemoryBytes } := by
    simp only [merlinNsCompose, Lib.bind_eq_ok, composePermit_eq_ok_iff]
    constructor
    · rintro ⟨-, hattach, -, hhelper, -, hkfunc, q₁, h₁, q₂, h₂, q₃, h₃, q₄, h₄, heff⟩
      refine ⟨fun kind => ?_, fun
        | .maxProgs => q₁
        | .maxMaps => q₂
        | .maxMapMemoryBytes => q₃
        | .maxProgMemoryBytes => q₄, fun field => ?_, ?_⟩
      · cases kind with
        | attach => exact hattach
        | helper => exact hhelper
        | kfunc => exact hkfunc
      · cases field with
        | maxProgs => exact h₁
        | maxMaps => exact h₂
        | maxMapMemoryBytes => exact h₃
        | maxProgMemoryBytes => exact h₄
      · exact (Except.ok.inj heff).symm
    · rintro ⟨hpermits, q, hq, rfl⟩
      exact ⟨(), hpermits .attach, (), hpermits .helper, (), hpermits .kfunc, _, hq _, _, hq _,
        _, hq _, _, hq _, rfl⟩
  rw [hbind]
  constructor
  · rintro ⟨hpermits, q, hq, rfl⟩
    have hq' := fun field => (composeQuota_eq_ok_iff child parent field (q field)).mp (hq field)
    refine ⟨⟨hpermits, fun field => (hq' field).1⟩, ?_⟩
    simp only [← (hq' _).2]
    rfl
  · rintro ⟨hn, rfl⟩
    exact ⟨hn.permits, fun field => effectiveQuota (child.quota field) (parent.quota field),
      fun field => (composeQuota_eq_ok_iff child parent field _).mpr ⟨hn.quotas field, rfl⟩, rfl⟩

/-- A report is right: the child really widens the parent in the dimension it names. -/
def NsWiden.Widens (child parent : NsConfig) : NsWiden → Prop
  | .permit kind bit => bit ∈ child.permits kind ∧ bit ∉ parent.permits kind
  | .quota field p c => p = parent.quota field ∧ c = child.quota field ∧ p ≠ 0#64 ∧ p < c

theorem composePermit_error {n : ℕ} {kind : NsPermit} {child parent : Vector (BitVec 64) n}
    {w : NsWiden} (h : composePermit kind child parent = .error w) :
    ∃ bit, w = .permit kind bit ∧ bit ∈ bitsetMembers child ∧ bit ∉ bitsetMembers parent := by
  rw [composePermit] at h
  cases hs : bitsetSubset child parent with
  | none => simp [hs] at h
  | some bit =>
    simp only [hs] at h
    exact ⟨bit, (Except.error.inj h).symm, bitsetSubset_offending hs⟩

theorem composeQuota_error {child parent : NsConfig} {field : NsQuota} {w : NsWiden}
    (h : composeQuota child parent field = .error w) : w.Widens child parent := by
  simp only [composeQuota] at h
  split_ifs at h with hp hc hlt
  cases h
  exact ⟨rfl, rfl, hp, hlt⟩

/-- Whatever `merlin_ns_compose` reports, the child widens the parent there. -/
theorem merlinNsCompose_error {child parent : NsConfig} {w : NsWiden}
    (h : merlinNsCompose child parent = .error w) : w.Widens child parent := by
  simp only [merlinNsCompose, Lib.bind_eq_error] at h
  rcases h with h | ⟨_, _, h | ⟨_, _, h | ⟨_, _, h | ⟨_, _, h | ⟨_, _, h | ⟨_, _, h | ⟨_, _, h⟩⟩⟩⟩⟩⟩⟩
  · obtain ⟨bit, rfl, hbit⟩ := composePermit_error h
    exact hbit
  · obtain ⟨bit, rfl, hbit⟩ := composePermit_error h
    exact hbit
  · obtain ⟨bit, rfl, hbit⟩ := composePermit_error h
    exact hbit
  · exact composeQuota_error h
  · exact composeQuota_error h
  · exact composeQuota_error h
  · exact composeQuota_error h
  · cases h

end MerlinV
