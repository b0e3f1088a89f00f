import MerlinV.Txn.Refinement

/-! # The representation invariant of the store

The count of every live map is the number of its slots in use, the touched list of a transaction is
the set of the handles it has staged operations for, and, since no lock outlives a commit, no commit
ever finds one.
-/
namespace MerlinV

section Counts

variable {m : MerlinMap} {s : Store}

def MerlinMap.Counted (m : MerlinMap) : Prop := m.count.toNat = m.entries.usedCount

theorem usedCount_blankEntries : blankEntries.usedCount = 0 := by
  simp [Lib.Table.usedCount, blankEntries]

theorem count_add_one (h : m.Counted) (hlt : m.entries.usedCount < storeMaxEntries) :
    (m.count + 1).toNat = m.entries.usedCount + 1 := by
  unfold MerlinMap.Counted at h
  rw [BitVec.toNat_add, h, Nat.mod_eq_of_lt]
  · rfl
  · simp only [storeMaxEntries] at hlt
    simp
    omega

theorem mapInsert_counted (h : m.Counted) (key val : BitVec 64) : (mapInsert m key val).1.Counted := by
  unfold mapInsert
  cases m.entries.slotOf key with
  | some i => exact h
  | none =>
    cases hf : m.entries.free with
    | none => exact h
    | some i =>
      have hocc := Lib.Table.usedCount_occupy (s := ⟨true, key, val⟩) (Lib.Table.of_free hf) rfl
      have hle := Lib.Table.usedCount_le (Function.update m.entries i ⟨true, key, val⟩)
      exact (count_add_one h (by omega)).trans hocc.symm

theorem writeValue_counted (h : m.Counted) {key : BitVec 64} {i : Fin storeMaxEntries}
    (hi : m.entries.slotOf key = some i) (val : BitVec 64) :
    MerlinMap.Counted
      { m with entries := Function.update m.entries i { m.entries i with value := val } } := by
  have hused := (Lib.Table.of_slotOf hi).1
  exact Eq.trans h (Lib.Table.usedCount_overwrite (s := { m.entries i with value := val }) hused hused).symm

theorem mapUpdate_counted (h : m.Counted) (key val : BitVec 64) : (mapUpdate m key val).1.Counted := by
  unfold mapUpdate
  cases hi : m.entries.slotOf key with
  | some i => exact writeValue_counted h hi val
  | none => exact h

theorem mapUpsert_counted (h : m.Counted) (key val : BitVec 64) : (mapUpsert m key val).1.Counted := by
  unfold mapUpsert
  cases hi : m.entries.slotOf key with
  | some i => exact writeValue_counted h hi val
  | none => exact mapInsert_counted h key val

theorem mapDelete_counted (h : m.Counted) (key : BitVec 64) : (mapDelete m key).1.Counted := by
  unfold mapDelete
  cases hi : m.entries.slotOf key with
  | none => exact h
  | some i =>
    have hvac := Lib.Table.usedCount_vacate (s := { m.entries i with used := false })
      (Lib.Table.of_slotOf hi).1 rfl
    have hcount : m.count.toNat = m.entries.usedCount := h
    have hone : (1#32).toNat ≤ m.count.toNat := by
      rw [hcount, ← hvac]
      simp
    change (m.count - 1#32).toNat = _
    rw [BitVec.toNat_sub_of_le hone, hcount, ← hvac]
    rfl

theorem mapReplaceAll_counted (m : MerlinMap) (pairs : List (BitVec 64 × BitVec 64)) :
    (mapReplaceAll m pairs).Counted := by
  have hused : ∀ i : Fin storeMaxEntries,
      ((mapReplaceAll m pairs).entries i).used = true ↔ i.val < pairs.length := by
    intro i
    simp only [mapReplaceAll]
    by_cases hi : i.val < pairs.length
    · simp [hi]
    · simp [hi]
  have hcard : (mapReplaceAll m pairs).entries.usedCount = min pairs.length storeMaxEntries := by
    simp only [Lib.Table.usedCount, hused]
    rw [Fin.card_filter_val_lt, Nat.min_comm]
  rw [MerlinMap.Counted, hcard]
  simp only [mapReplaceAll, BitVec.toNat_ofNat]
  apply Nat.mod_eq_of_lt
  calc min pairs.length storeMaxEntries ≤ storeMaxEntries := Nat.min_le_right _ _
    _ < 2 ^ 32 := by norm_num [storeMaxEntries]

/-- Every operation of a transaction keeps the count right, whatever it returns. -/
theorem applyOp_counted (h : m.Counted) (o : TxnOp) : (applyOp m o).1.Counted := by
  unfold applyOp
  split
  · exact mapInsert_counted h _ _
  · exact mapUpdate_counted h _ _
  · exact mapUpsert_counted h _ _
  · exact mapDelete_counted h _
  · exact mapReplaceAll_counted m _
  · exact h

def Store.Counted (s : Store) : Prop := ∀ i, (s.maps i).valid = true → (s.maps i).Counted

theorem Store.Counted.setMap (hs : s.Counted) {i : Fin storeMaxMaps} (hm : m.valid = true → m.Counted) :
    (s.setMap i m).Counted := by
  intro j hj
  rw [Store.setMap_maps] at hj ⊢
  by_cases hji : j = i
  · rw [if_pos hji] at hj ⊢
    exact hm hj
  · rw [if_neg hji] at hj ⊢
    exact hs j hj

theorem commitLoop_counted (hs : s.Counted) (os : List TxnOp) (a k : ℕ) :
    (commitLoop os s a k).1.Counted := by
  induction os generalizing s a k with
  | nil => exact hs
  | cons o os ih =>
    rw [commitLoop]
    cases hf : findMap s o.mapHandle with
    | none => exact hs
    | some i =>
      have hm := applyOp_counted (hs i (findMap_eq_some.mp hf).2) o
      dsimp only
      generalize applyOp (s.maps i) o = r at hm ⊢
      rcases r with ⟨m, _ | e⟩
      · exact ih (hs.setMap (m := { m with version := m.version + 1 }) fun _ => hm) _ _
      · cases e
        case eexist => exact ih (hs.setMap fun _ => hm) _ _
        case enoent => exact ih (hs.setMap fun _ => hm) _ _
        all_goals exact hs.setMap fun _ => hm

theorem merlinStoreMapCreate_counted (hs : s.Counted) : (merlinStoreMapCreate s).1.Counted := by
  unfold merlinStoreMapCreate
  split
  · exact hs.setMap fun _ => usedCount_blankEntries.symm
  · exact hs

theorem merlinStoreMapDestroy_counted (hs : s.Counted) (h : BitVec 32) :
    (merlinStoreMapDestroy s h).Counted := by
  unfold merlinStoreMapDestroy
  split
  · exact hs
  · exact hs.setMap fun hused => absurd hused Bool.false_ne_true

end Counts

section Runs

variable {s : Store} {t : Txn} {w w' : World}

theorem commitLoop_ne_ebusy (hu : s.Unique) (os : List TxnOp) (a k : ℕ) :
    (commitLoop os s a k).2.2.2 ≠ some .ebusy := by
  induction os generalizing s a k with
  | nil => simp [commitLoop]
  | cons o os ih =>
    rcases commitLoop_cons hu o with ⟨-, e, he, h⟩ | ⟨-, hadv, h⟩ | ⟨-, -, -, h⟩
    · rw [h]
      simpa using he
    · rw [h]
      exact ih hadv.unique (a + 1) k
    · rw [h]
      exact ih hu a (k + 1)

theorem merlinTxnCommit_ne_ebusy (hu : s.Unique) (hl : s.Unlocked) (flags : BitVec 32)
    (stats : TxnStats) : (merlinTxnCommit s t flags stats).rc ≠ some .ebusy := by
  cases hlive : t.live with
  | false => simp [merlinTxnCommit_of_not_live hlive]
  | true =>
    rw [(merlinTxnCommit_eq hl hu hlive flags stats).2.1]
    exact commitLoop_ne_ebusy hu t.ops 0 0

theorem merlinTxnCommit_counted (hu : s.Unique) (hl : s.Unlocked) (hs : s.Counted) (flags : BitVec 32)
    (stats : TxnStats) : (merlinTxnCommit s t flags stats).store.Counted := by
  cases hlive : t.live with
  | false =>
    rw [merlinTxnCommit_of_not_live hlive]
    exact hs
  | true =>
    rw [(merlinTxnCommit_eq hl hu hlive flags stats).1]
    exact commitLoop_counted hs t.ops 0 0

/-- Every touched handle has a staged operation; with `Txn.Tracked` the two sets are the same. -/
def Txn.Justified (t : Txn) : Prop := ∀ h ∈ t.touched, ∃ o ∈ t.ops, o.mapHandle = h

theorem merlinTxnStage_justified (ht : t.Justified) (handle op : BitVec 32) (key value : BitVec 64) :
    (merlinTxnStage s t handle op key value).1.Justified := by
  have hkeep : ∀ h ∈ t.touched, ∃ o ∈ t.ops ++ [⟨handle, op, key, value⟩], o.mapHandle = h := by
    intro h hh
    obtain ⟨o, ho, rfl⟩ := ht h hh
    exact ⟨o, List.mem_append_left _ ho, rfl⟩
  unfold merlinTxnStage
  split_ifs with hl hlen hf hmem hroom
  · exact ht
  · exact ht
  · exact ht
  · exact hkeep
  · intro h hh
    rcases List.mem_append.mp hh with hh | hh
    · exact hkeep h hh
    · exact ⟨_, List.mem_append_right _ (List.mem_singleton_self _), (List.mem_singleton.mp hh).symm⟩
  · exact hkeep

theorem merlinTxnCommit_justified (ht : t.Justified) (flags : BitVec 32) (stats : TxnStats) :
    (merlinTxnCommit s t flags stats).txn.Justified := by
  obtain ⟨hops, htouched⟩ := merlinTxnCommit_lists s t flags stats
  unfold Txn.Justified
  rw [hops, htouched]
  exact ht

/-- What holds between the calls of every run, counts and touched sets included. -/
structure World.Represented (w : World) : Prop extends w.Ok where
  counted : w.store.Counted
  justified : ∀ id t, w.txns id = some t → t.Justified

theorem World.Represented.init : World.init.Represented where
  toOk := World.Ok.init
  counted := nofun
  justified := nofun

theorem World.Represented.step (hw : w.Represented) (h : w.Step w') : w'.Represented := by
  have hok := hw.toOk.step h
  obtain ⟨⟨hu, hl, -⟩, hs, hj⟩ := hw
  obtain ⟨c, hc⟩ := h
  cases c with
  | storeInit =>
    cases hc
    exact ⟨hok, nofun, hj⟩
  | mapCreate =>
    cases hc
    exact ⟨hok, merlinStoreMapCreate_counted hs, hj⟩
  | mapDestroy h =>
    cases hc
    exact ⟨hok, merlinStoreMapDestroy_counted hs h, hj⟩
  | txnBegin id ns =>
    cases hc
    exact ⟨hok, hs, txns_update hj id nofun⟩
  | txnStage id h op key value =>
    obtain ⟨t, hid, rfl⟩ := Option.map_eq_some_iff.mp hc
    exact ⟨hok, hs, txns_update hj id (merlinTxnStage_justified (hj id t hid) h op key value)⟩
  | txnCommit id flags =>
    obtain ⟨t, hid, rfl⟩ := Option.map_eq_some_iff.mp hc
    exact ⟨hok, merlinTxnCommit_counted hu hl hs flags noStats,
      txns_update hj id (merlinTxnCommit_justified (hj id t hid) flags noStats)⟩
  | txnAbort id =>
    obtain ⟨t, hid, rfl⟩ := Option.map_eq_some_iff.mp hc
    exact ⟨hok, hs, txns_update (t := merlinTxnAbort t) hj id (hj id t hid)⟩

theorem World.Reached.represented (h : w.Reached) : w.Represented := by
  induction h with
  | refl => exact World.Represented.init
  | tail _ hstep ih => exact ih.step hstep

/-- The representation invariant in the terms of `store.c`. -/
structure World.RepOk (w : World) : Prop where
  keys : ∀ i, (w.store.maps i).valid = true → ∀ a b, ((w.store.maps i).entries a).used = true →
    ((w.store.maps i).entries b).used = true →
    ((w.store.maps i).entries a).key = ((w.store.maps i).entries b).key → a = b
  count : ∀ i, (w.store.maps i).valid = true →
    (w.store.maps i).count.toNat = (w.store.maps i).entries.usedCount ∧
      (w.store.maps i).count.toNat ≤ storeMaxEntries
  touched : ∀ id t, w.txns id = some t →
    t.touched.Nodup ∧ ∀ h, h ∈ t.touched ↔ ∃ o ∈ t.ops, o.mapHandle = h
  unlocked : ∀ i, w.store.locked i = false
  notBusy : ∀ id t flags stats, w.txns id = some t →
    (merlinTxnCommit w.store t flags stats).rc ≠ some .ebusy

/-- The representation invariant holds after every sequence of calls. -/
theorem world_repOk {w : World} (hw : w.Reached) : w.RepOk := by
  obtain ⟨⟨hu, hl, ht⟩, hs, hj⟩ := hw.represented
  refine ⟨fun i _ => hu i, fun i hi => ⟨hs i hi, ?_⟩, fun id t hid => ⟨(ht id t hid).nodup, fun h => ?_⟩,
    hl, fun id t flags stats _ => merlinTxnCommit_ne_ebusy hu hl flags stats⟩
  · rw [show (w.store.maps i).count.toNat = _ from hs i hi]
    exact Lib.Table.usedCount_le _
  · constructor
    · exact hj id t hid h
    · rintro ⟨o, ho, rfl⟩
      exact (ht id t hid).named o ho

/-- A map that has been filled and emptied, destroyed and made again, under two transactions. -/
def recycleCalls : List StoreCall :=
  [.mapCreate, .txnBegin 0 0, .txnStage 0 1 1 7 70, .txnStage 0 1 9 0 0, .txnCommit 0 0, .mapDestroy 1,
    .mapCreate, .txnBegin 1 0, .txnStage 1 1 3 7 71, .txnStage 1 1 4 7 0, .txnCommit 1 2]

theorem recycleCalls_repOk : ∃ w, World.init.calls recycleCalls = some w ∧ w.RepOk :=
  ⟨_, (Option.some_get rfl).symm, world_repOk (World.reached_of_calls .refl (Option.some_get rfl).symm)⟩

end Runs

end MerlinV
