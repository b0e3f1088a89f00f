import MerlinV.Txn.Store

/-! # The map algebra behind the store

A map is a partial function from keys to values and a staged operation acts on one map.
Every mutation of the store either performs the operation of the algebra, or leaves its map
as it is and says why.
-/
namespace MerlinV

abbrev MapFun := BitVec 64 → Option (BitVec 64)

def mapOp (o : TxnOp) (f : MapFun) : MapFun :=
  match o.op.toNat with
  | 1 => if f o.key = none then Function.update f o.key (some o.value) else f
  | 2 => if f o.key = none then f else Function.update f o.key (some o.value)
  | 3 => Function.update f o.key (some o.value)
  | 4 => Function.update f o.key none
  | 5 => Function.update (fun _ => none) o.key (some o.value)
  | _ => f

def Effective (o : TxnOp) (f : MapFun) : Prop :=
  match o.op.toNat with
  | 1 => f o.key = none
  | 2 | 4 => f o.key ≠ none
  | 3 | 5 => True
  | _ => False

instance (o : TxnOp) (f : MapFun) : Decidable (Effective o f) := by
  unfold Effective
  split <;> infer_instance

def Store.contents (s : Store) (i : Fin storeMaxMaps) : MapFun := (s.maps i).entries.contents

def storeOp (A : Fin storeMaxMaps → MapFun) (o : TxnOp) : Fin storeMaxMaps → MapFun :=
  match slotIndex? o.mapHandle with
  | some i => Function.update A i (mapOp o (A i))
  | none => A

/-- The number of operations of a list that have something to do, one after another. -/
def effectiveOps : List TxnOp → (Fin storeMaxMaps → MapFun) → ℕ
  | [], _ => 0
  | o :: os, A =>
    (if ∃ i, slotIndex? o.mapHandle = some i ∧ Effective o (A i) then 1 else 0) +
      effectiveOps os (storeOp A o)

/-- A reason for which an operation ends a commit, apart from a map that is not live. -/
def Refused (m : MerlinMap) (o : TxnOp) : Prop :=
  match o.op.toNat with
  | 1 | 3 => m.entries.slotOf o.key = none ∧ m.entries.free = none
  | 2 | 4 | 5 => False
  | _ => True

instance (m : MerlinMap) (o : TxnOp) : Decidable (Refused m o) := by
  unfold Refused
  split <;> infer_instance

section Maps

variable {m m' : MerlinMap} {o : TxnOp}

structure SameHeader (m m' : MerlinMap) : Prop where
  handle : m'.handle = m.handle
  valid : m'.valid = m.valid
  version : m'.version = m.version

structure Applied (m m' : MerlinMap) (o : TxnOp) : Prop where
  header : SameHeader m m'
  unique : m'.entries.Unique
  contents : m'.entries.contents = mapOp o m.entries.contents
  effective : Effective o m.entries.contents

theorem update_value_eq {e : Entries} {i : Fin storeMaxEntries} {key val : BitVec 64}
    (h : e.slotOf key = some i) :
    Function.update e i { e i with value := val } = Function.update e i ⟨true, key, val⟩ := by
  obtain ⟨hused, hkey⟩ := Lib.Table.of_slotOf h
  rw [← hused, ← hkey]

theorem mapInsert_cases (hu : m.entries.Unique) (key val : BitVec 64) :
    (∃ m', mapInsert m key val = (m', none) ∧ SameHeader m m' ∧ m'.entries.Unique ∧
        m'.entries.contents = Function.update m.entries.contents key (some val) ∧
        m.entries.contents key = none ∧ m.entries.free ≠ none) ∨
      (mapInsert m key val = (m, some .eexist) ∧ m.entries.contents key ≠ none) ∨
      (mapInsert m key val = (m, some .enospc) ∧ m.entries.slotOf key = none ∧ m.entries.free = none) := by
  unfold mapInsert
  cases hk : m.entries.slotOf key with
  | some i =>
    right
    left
    refine ⟨rfl, ?_⟩
    rw [ne_eq, Lib.Table.contents_eq_none, hk]
    exact Option.some_ne_none i
  | none =>
    cases hf : m.entries.free with
    | none => exact .inr (.inr ⟨rfl, rfl, rfl⟩)
    | some i =>
      have hfits := Lib.Table.fits_free hk hf
      exact .inl ⟨_, rfl, ⟨rfl, rfl, rfl⟩, hu.write hfits.only val, Lib.Table.contents_write hu hfits val,
        Lib.Table.contents_eq_none.mpr hk, Option.some_ne_none i⟩

/-- The common half of `map_update` and `map_upsert`. -/
theorem write_value (hu : m.entries.Unique) {key : BitVec 64} {i : Fin storeMaxEntries}
    (hk : m.entries.slotOf key = some i) (val : BitVec 64) :
    Lib.Table.Unique (Function.update m.entries i { m.entries i with value := val }) ∧
      Lib.Table.contents (Function.update m.entries i { m.entries i with value := val }) =
        Function.update m.entries.contents key (some val) := by
  have hfits := hu.fits_slotOf hk
  rw [update_value_eq hk]
  exact ⟨hu.write hfits.only val, Lib.Table.contents_write hu hfits val⟩

theorem contents_ne_none {key : BitVec 64} {i : Fin storeMaxEntries} (hk : m.entries.slotOf key = some i) :
    m.entries.contents key ≠ none := by
  rw [ne_eq, Lib.Table.contents_eq_none, hk]
  exact Option.some_ne_none i

theorem mapReplaceAll_single (m : MerlinMap) (key val : BitVec 64) :
    (mapReplaceAll m [(key, val)]).entries.Unique ∧
      (mapReplaceAll m [(key, val)]).entries.contents =
        Function.update (fun _ => none) key (some val) := by
  have hentries : (mapReplaceAll m [(key, val)]).entries =
      Function.update blankEntries 0 ⟨true, key, val⟩ := by
    funext i
    by_cases hi : i = 0
    · subst hi
      simp [mapReplaceAll]
    · have hval : i.val ≠ 0 := fun h => hi (Fin.ext h)
      simp [mapReplaceAll, hi, hval, blankEntries]
  have hblank : Lib.Table.Unique blankEntries := by
    intro i j hused
    cases hused
  have hnone : Lib.Table.contents blankEntries = fun _ => none := by
    funext k
    rw [Lib.Table.contents_eq_none, Lib.Table.slotOf_eq_none]
    intro i hused
    cases hused
  have hfits : Lib.Table.Fits blankEntries key 0 := by
    constructor
    · intro j hused
      cases hused
    · intro hused
      cases hused
  rw [hentries, ← hnone]
  exact ⟨hblank.write hfits.only val, Lib.Table.contents_write hblank hfits val⟩

/-- The three outcomes of an operation on a map: it is applied, it has nothing to do, or it is
refused. -/
theorem applyOp_cases (hu : m.entries.Unique) (o : TxnOp) :
    (∃ m', applyOp m o = (m', none) ∧ Applied m m' o ∧ ¬ Refused m o) ∨
      ((applyOp m o = (m, some .eexist) ∨ applyOp m o = (m, some .enoent)) ∧
        ¬ Effective o m.entries.contents ∧ ¬ Refused m o ∧
        mapOp o m.entries.contents = m.entries.contents) ∨
      ((applyOp m o = (m, some .enospc) ∨ applyOp m o = (m, some .einval)) ∧ Refused m o) := by
  unfold applyOp
  split
  · rename_i hop
    rcases mapInsert_cases hu o.key o.value with
      ⟨m', h, hh, hu', hc, hk, hf⟩ | ⟨h, hk⟩ | ⟨h, hk, hf⟩
    · exact .inl ⟨m', h, ⟨hh, hu', by simp [mapOp, hop, hc, hk], by simp [Effective, hop, hk]⟩,
        by simp [Refused, hop, hf]⟩
    · have hs : m.entries.slotOf o.key ≠ none := fun hs => hk (Lib.Table.contents_eq_none.mpr hs)
      exact .inr (.inl ⟨.inl h, by simp [Effective, hop, hk], by simp [Refused, hop, hs],
        by simp [mapOp, hop, hk]⟩)
    · exact .inr (.inr ⟨.inl h, by simp [Refused, hop, hk, hf]⟩)
  · rename_i hop
    unfold mapUpdate
    cases hk : m.entries.slotOf o.key with
    | some i =>
      obtain ⟨hu', hc⟩ := write_value hu hk o.value
      have hne := contents_ne_none hk
      exact .inl ⟨_, rfl, ⟨⟨rfl, rfl, rfl⟩, hu', by simp [mapOp, hop, hc, hne],
        by simp [Effective, hop, hne]⟩, by simp [Refused, hop]⟩
    | none =>
      have hnone := Lib.Table.contents_eq_none.mpr hk
      exact .inr (.inl ⟨.inr rfl, by simp [Effective, hop, hnone], by simp [Refused, hop],
        by simp [mapOp, hop, hnone]⟩)
  · rename_i hop
    unfold mapUpsert
    cases hk : m.entries.slotOf o.key with
    | some i =>
      obtain ⟨hu', hc⟩ := write_value hu hk o.value
      exact .inl ⟨_, rfl, ⟨⟨rfl, rfl, rfl⟩, hu', by simp [mapOp, hop, hc], by simp [Effective, hop]⟩,
        by simp [Refused, hop, hk]⟩
    | none =>
      rcases mapInsert_cases hu o.key o.value with
        ⟨m', h, hh, hu', hc, -, hf⟩ | ⟨-, hne⟩ | ⟨h, -, hf⟩
      · exact .inl ⟨m', h, ⟨hh, hu', by simp [mapOp, hop, hc], by simp [Effective, hop]⟩,
          by simp [Refused, hop, hf]⟩
      · exact absurd (Lib.Table.contents_eq_none.mpr hk) hne
      · exact .inr (.inr ⟨.inl h, by simp [Refused, hop, hk, hf]⟩)
  · rename_i hop
    unfold mapDelete
    cases hk : m.entries.slotOf o.key with
    | some i =>
      have hne := contents_ne_none hk
      exact .inl ⟨_, rfl, ⟨⟨rfl, rfl, rfl⟩, hu.erase i,
        by simp [mapOp, hop, Lib.Table.contents_erase hu hk], by simp [Effective, hop, hne]⟩,
        by simp [Refused, hop]⟩
    | none =>
      have hnone := Lib.Table.contents_eq_none.mpr hk
      refine .inr (.inl ⟨.inr rfl, by simp [Effective, hop, hnone], by simp [Refused, hop], ?_⟩)
      simp only [mapOp, hop]
      rw [← hnone, Function.update_eq_self]
  · rename_i hop
    obtain ⟨hu', hc⟩ := mapReplaceAll_single m o.key o.value
    exact .inl ⟨_, rfl, ⟨⟨rfl, rfl, rfl⟩, hu', by simp [mapOp, hop, hc], by simp [Effective, hop]⟩,
      by simp [Refused, hop]⟩
  · refine .inr (.inr ⟨.inr rfl, ?_⟩)
    unfold Refused
    split <;> trivial

end Maps

section Stores

variable {s : Store} {o : TxnOp}

theorem findMap_eq_some {h : BitVec 32} {i : Fin storeMaxMaps} :
    findMap s h = some i ↔ slotIndex? h = some i ∧ (s.maps i).valid = true := by
  unfold findMap
  cases hs : slotIndex? h with
  | none => simp
  | some j =>
    simp only [Option.some.injEq]
    constructor
    · intro hv
      split at hv
      · rename_i hj
        obtain rfl := Option.some.inj hv
        exact ⟨rfl, hj⟩
      · cases hv
    · rintro ⟨rfl, hv⟩
      rw [if_pos hv]

def Store.Unique (s : Store) : Prop := ∀ i, (s.maps i).entries.Unique

def Fails (s : Store) (o : TxnOp) : Prop :=
  match findMap s o.mapHandle with
  | none => True
  | some i => Refused (s.maps i) o

instance (s : Store) (o : TxnOp) : Decidable (Fails s o) := by
  unfold Fails
  split <;> infer_instance

def Changes (s : Store) (o : TxnOp) : Prop :=
  ¬ Fails s o ∧ ∃ i, slotIndex? o.mapHandle = some i ∧ Effective o (s.contents i)

instance (s : Store) (o : TxnOp) : Decidable (Changes s o) := by
  unfold Changes
  infer_instance

def afterOp (s : Store) (o : TxnOp) : Store :=
  match findMap s o.mapHandle with
  | none => s
  | some i => s.setMap i
      { (applyOp (s.maps i) o).1 with version := (applyOp (s.maps i) o).1.version + 1 }

structure Advanced (s s' : Store) (o : TxnOp) : Prop where
  unique : s'.Unique
  contents : s'.contents = storeOp s.contents o
  locked : s'.locked = s.locked
  valid : ∀ j, (s'.maps j).valid = (s.maps j).valid
  index : ∃ i, slotIndex? o.mapHandle = some i ∧ (s'.maps i).version = (s.maps i).version + 1 ∧
    ∀ j ≠ i, s'.maps j = s.maps j

theorem afterOp_advanced (hu : s.Unique) {i : Fin storeMaxMaps} (hf : findMap s o.mapHandle = some i)
    {m' : MerlinMap} (hm : applyOp (s.maps i) o = (m', none)) (ha : Applied (s.maps i) m' o) :
    Advanced s (afterOp s o) o := by
  have hi := (findMap_eq_some.mp hf).1
  have hafter : afterOp s o = s.setMap i { m' with version := m'.version + 1 } := by
    simp only [afterOp, hf, hm]
  rw [hafter]
  refine ⟨fun j => ?_, ?_, rfl, fun j => ?_, i, hi, ?_, fun j hj => ?_⟩
  · rw [Store.setMap_maps]
    split
    · exact ha.unique
    · exact hu j
  · funext j
    simp only [Store.contents, Store.setMap_maps, storeOp, hi]
    by_cases hj : j = i
    · subst hj
      simpa using ha.contents
    · simp [hj, Store.contents]
  · rw [Store.setMap_maps]
    split
    · rename_i hj
      rw [hj]
      exact ha.header.valid
    · rfl
  · rw [Store.setMap_maps, if_pos rfl]
    change m'.version + 1 = _
    rw [ha.header.version]
  · rw [Store.setMap_maps, if_neg hj]

theorem commitLoop_cons (hu : s.Unique) (o : TxnOp) :
    (Fails s o ∧ ∃ e ≠ Errno.ebusy, ∀ os a k, commitLoop (o :: os) s a k = (s, a, k, some e)) ∨
      (Changes s o ∧ Advanced s (afterOp s o) o ∧
        ∀ os a k, commitLoop (o :: os) s a k = commitLoop os (afterOp s o) (a + 1) k) ∨
      (¬ Fails s o ∧ ¬ Changes s o ∧ storeOp s.contents o = s.contents ∧
        ∀ os a k, commitLoop (o :: os) s a k = commitLoop os s a (k + 1)) := by
  cases hf : findMap s o.mapHandle with
  | none =>
    left
    refine ⟨by simp [Fails, hf], .ebadf, by decide, fun os a k => ?_⟩
    rw [commitLoop]
    simp only [hf]
  | some i =>
    have hi := (findMap_eq_some.mp hf).1
    rcases applyOp_cases (hu i) o with ⟨m', hm, ha, hnr⟩ | ⟨hm, hne, hnr, hsame⟩ | ⟨hm, hr⟩
    · right
      left
      have hadv := afterOp_advanced hu hf hm ha
      refine ⟨⟨by simpa [Fails, hf] using hnr, i, hi, ha.effective⟩, hadv, fun os a k => ?_⟩
      rw [commitLoop]
      simp only [hf, hm, afterOp]
    · right
      right
      refine ⟨by simpa [Fails, hf] using hnr, ?_, ?_, fun os a k => ?_⟩
      · rintro ⟨-, j, hj, heff⟩
        obtain rfl := Option.some.inj (hi.symm.trans hj)
        exact hne heff
      · funext j
        simp only [storeOp, hi]
        by_cases hj : j = i
        · subst hj
          rw [Function.update_self]
          exact hsame
        · rw [Function.update_of_ne hj]
      · rw [commitLoop]
        rcases hm with hm | hm <;> simp only [hf, hm, Store.setMap_self]
    · left
      have hfail : Fails s o := by simpa [Fails, hf] using hr
      rcases hm with hm | hm
      · refine ⟨hfail, .enospc, by decide, fun os a k => ?_⟩
        rw [commitLoop]
        simp only [hf, hm, Store.setMap_self]
      · refine ⟨hfail, .einval, by decide, fun os a k => ?_⟩
        rw [commitLoop]
        simp only [hf, hm, Store.setMap_self]

end Stores

end MerlinV
