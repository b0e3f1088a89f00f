import MerlinV.Txn.Refinement

/-! # Atomicity of commits

Operations are applied in place and nothing is rolled back.  A failed commit leaves the maps
as they were exactly when the first operation with anything to do is the one that fails; in
runs whose commits all succeed or fail like this, the transactions are atomic and serial.
-/
namespace MerlinV

section Outcomes

def Full (f : MapFun) : Prop :=
  ∃ ks : List (BitVec 64), ks.Nodup ∧ ks.length = storeMaxEntries ∧ ∀ k ∈ ks, f k ≠ none

theorem full_iff {e : Entries} (hu : e.Unique) : Full e.contents ↔ e.free = none := by
  constructor
  · rintro ⟨ks, hnodup, hlen, hks⟩
    by_contra hfree
    obtain ⟨i, hi⟩ := Option.ne_none_iff_exists'.mp hfree
    -- the slots of the keys are pairwise different and none of them is the free one
    have hslots : (ks.map e.slotOf).Nodup := by
      apply List.Nodup.map_on ?_ hnodup
      intro a ha b _ hab
      obtain ⟨j, hj⟩ := Option.ne_none_iff_exists'.mp fun h => hks a ha (Lib.Table.contents_eq_none.mpr h)
      exact (Lib.Table.of_slotOf hj).2.symm.trans (Lib.Table.of_slotOf (hab.symm.trans hj)).2
    have hsub : ks.map e.slotOf ⊆ ((List.finRange storeMaxEntries).erase i).map some := by
      intro x hx
      obtain ⟨a, ha, rfl⟩ := List.mem_map.mp hx
      obtain ⟨j, hj⟩ := Option.ne_none_iff_exists'.mp fun h => hks a ha (Lib.Table.contents_eq_none.mpr h)
      have hji : j ≠ i := by
        rintro rfl
        have hused := Lib.Table.of_free hi
        rw [(Lib.Table.of_slotOf hj).1] at hused
        cases hused
      rw [hj]
      exact List.mem_map_of_mem ((List.mem_erase_of_ne hji).mpr (List.mem_finRange j))
    have hle := (hslots.subperm hsub).length_le
    rw [List.length_map, List.length_map, hlen, List.length_erase_of_mem (List.mem_finRange i),
      List.length_finRange] at hle
    exact absurd hle (by decide)
  · intro hfree
    have hused : ∀ i, (e i).used = true := by
      intro i
      have := List.find?_eq_none.mp hfree i (List.mem_finRange i)
      simpa using this
    refine ⟨(List.finRange storeMaxEntries).map fun i => (e i).key, ?_, by simp, fun k hk => ?_⟩
    · apply List.Nodup.map_on ?_ (List.nodup_finRange _)
      intro i _ j _ hij
      exact hu i j (hused i) (hused j) hij
    · obtain ⟨i, -, rfl⟩ := List.mem_map.mp hk
      rw [hu.contents_eq_some.mpr ⟨i, hused i, rfl, rfl⟩]
      exact Option.some_ne_none _

/-- The operation ends a commit: its map is not live, its code is unknown, or it needs a slot in a
full map. -/
def OpFails (live : Fin storeMaxMaps → Bool) (A : Fin storeMaxMaps → MapFun) (o : TxnOp) : Prop :=
  match slotIndex? o.mapHandle with
  | none => True
  | some i => live i = false ∨
      match o.op.toNat with
      | 1 | 3 => A i o.key = none ∧ Full (A i)
      | 2 | 4 | 5 => False
      | _ => True

def OpEffective (A : Fin storeMaxMaps → MapFun) (o : TxnOp) : Prop :=
  ∃ i, slotIndex? o.mapHandle = some i ∧ Effective o (A i)

def NoneFails (live : Fin storeMaxMaps → Bool) : List TxnOp → (Fin storeMaxMaps → MapFun) → Prop
  | [], _ => True
  | o :: os, A => ¬ OpFails live A o ∧ NoneFails live os (storeOp A o)

/-- The first operation that is not idle fails. -/
def FailsFirst (live : Fin storeMaxMaps → Bool) : List TxnOp → (Fin storeMaxMaps → MapFun) → Prop
  | [], _ => False
  | o :: os, A => OpFails live A o ∨ ¬ OpEffective A o ∧ FailsFirst live os A

def Store.live (s : Store) (i : Fin storeMaxMaps) : Bool := (s.maps i).valid

variable {s : Store} {o : TxnOp} {os : List TxnOp}

theorem fails_iff (hu : s.Unique) : Fails s o ↔ OpFails s.live s.contents o := by
  unfold Fails OpFails findMap
  cases hs : slotIndex? o.mapHandle with
  | none => simp
  | some i =>
    cases hv : (s.maps i).valid with
    | false => simp [Store.live, hv]
    | true =>
      simp only [if_true, Store.live, hv, Bool.true_eq_false, false_or, Refused]
      split <;> simp_all [Store.contents, full_iff (hu i), Lib.Table.contents_eq_none]

theorem Advanced.live {s' : Store} (h : Advanced s s' o) : s'.live = s.live := funext h.valid

/-- The commit loop ends well exactly when none of the operations fails. -/
theorem commitLoop_rc (hu : s.Unique) (a k : ℕ) :
    (commitLoop os s a k).2.2.2 = none ↔ NoneFails s.live os s.contents := by
  induction os generalizing s a k with
  | nil => simp [commitLoop, NoneFails]
  | cons o os ih =>
    rcases commitLoop_cons hu o with ⟨hf, e, -, h⟩ | ⟨hch, hadv, h⟩ | ⟨hnf, -, hsame, h⟩
    · rw [h, NoneFails, ← fails_iff hu]
      simp [hf]
    · rw [h, ih hadv.unique, NoneFails, ← fails_iff hu, hadv.live, hadv.contents]
      simp [hch.1]
    · rw [h, ih hu, NoneFails, ← fails_iff hu, hsame]
      simp [hnf]

/-- Versions only go up, by one for each operation that is applied. -/
theorem commitLoop_version (hu : s.Unique) (a k : ℕ) (i : Fin storeMaxMaps) :
    ∃ n ≤ os.length, ((commitLoop os s a k).1.maps i).version = (s.maps i).version + BitVec.ofNat 32 n := by
  induction os generalizing s a k with
  | nil => exact ⟨0, le_refl 0, by simp [commitLoop]⟩
  | cons o os ih =>
    rcases commitLoop_cons hu o with ⟨-, e, -, h⟩ | ⟨-, hadv, h⟩ | ⟨-, -, -, h⟩
    · rw [h]
      exact ⟨0, Nat.zero_le _, by simp⟩
    · rw [h]
      obtain ⟨n, hn, hv⟩ := ih hadv.unique (a + 1) k
      obtain ⟨j, -, hj, hframe⟩ := hadv.index
      by_cases hij : i = j
      · subst hij
        refine ⟨n + 1, by simpa using hn, ?_⟩
        rw [hv, hj, BitVec.ofNat_add, BitVec.add_assoc, BitVec.add_comm (BitVec.ofNat 32 n)]
        rfl
      · refine ⟨n, by simpa using Nat.le_succ_of_le hn, ?_⟩
        rw [hv, hframe i hij]
    · rw [h]
      obtain ⟨n, hn, hv⟩ := ih hu a (k + 1)
      exact ⟨n, by simpa using Nat.le_succ_of_le hn, hv⟩

/-- A commit loop that stops has left the maps as they were exactly when nothing had an effect before
the operation that failed. -/
theorem commitLoop_maps_iff (hu : s.Unique) (hlen : os.length < 2 ^ 32) (a k : ℕ)
    (hrc : (commitLoop os s a k).2.2.2 ≠ none) :
    (commitLoop os s a k).1.maps = s.maps ↔ FailsFirst s.live os s.contents := by
  induction os generalizing s a k with
  | nil => exact absurd rfl hrc
  | cons o os ih =>
    rw [List.length_cons] at hlen
    rcases commitLoop_cons hu o with ⟨hf, e, -, h⟩ | ⟨hch, hadv, h⟩ | ⟨hnf, hnc, hsame, h⟩
    · rw [h, FailsFirst, ← fails_iff hu]
      simp [hf]
    · have hnot : ¬ FailsFirst s.live (o :: os) s.contents := by
        rintro (hf | ⟨hne, -⟩)
        · exact hch.1 ((fails_iff hu).mpr hf)
        · exact hne hch.2
      rw [iff_false_right hnot, h]
      -- the version of the first map that was changed has moved and cannot come back
      intro hmaps
      obtain ⟨i, -, hi, -⟩ := hadv.index
      obtain ⟨n, hn, hv⟩ : ∃ n ≤ os.length, _ := commitLoop_version hadv.unique (a + 1) k i
      rw [hmaps, hi] at hv
      have hval := congrArg BitVec.toNat hv
      rw [BitVec.toNat_add, BitVec.toNat_add, BitVec.toNat_ofNat] at hval
      have hone : BitVec.toNat (1 : BitVec 32) = 1 := rfl
      have hlt := (s.maps i).version.isLt
      omega
    · have hne : ¬ OpEffective s.contents o := fun he => hnc ⟨hnf, he⟩
      rw [h] at hrc ⊢
      rw [ih hu (by omega) a (k + 1) hrc, FailsFirst, ← fails_iff hu]
      simp [hnf, hne]

theorem storeOp_of_idle {A : Fin storeMaxMaps → MapFun} (h : ¬ OpEffective A o) : storeOp A o = A := by
  unfold storeOp
  cases hs : slotIndex? o.mapHandle with
  | none => rfl
  | some i =>
    have hidle : ¬ Effective o (A i) := fun he => h ⟨i, hs, he⟩
    have hop : mapOp o (A i) = A i := by
      unfold mapOp
      unfold Effective at hidle
      split <;> simp_all
    dsimp only
    rw [hop, Function.update_eq_self]

theorem FailsFirst.not_noneFails {live : Fin storeMaxMaps → Bool} {A : Fin storeMaxMaps → MapFun}
    (h : FailsFirst live os A) : ¬ NoneFails live os A := by
  induction os with
  | nil => exact h.elim
  | cons o os ih =>
    rintro ⟨hnf, hnone⟩
    rcases h with hf | ⟨hne, hrest⟩
    · exact hnf hf
    · rw [storeOp_of_idle hne] at hnone
      exact ih hrest hnone

end Outcomes

section Commits

variable {w : World} {id : ℕ} {t : Txn}

/-- What a commit returns and whether it leaves the maps alone, from the state before it. -/
theorem World.Ok.commit_outcome (hw : w.Ok) (ht : w.txns id = some t) (hlive : t.live = true)
    (flags : BitVec 32) (stats : TxnStats) :
    ((merlinTxnCommit w.store t flags stats).rc = none ↔
        NoneFails w.store.live t.ops w.store.contents) ∧
      ((merlinTxnCommit w.store t flags stats).rc ≠ none →
        ((merlinTxnCommit w.store t flags stats).store.maps = w.store.maps ↔
          FailsFirst w.store.live t.ops w.store.contents)) := by
  obtain ⟨hstore, hrc, -⟩ := merlinTxnCommit_eq hw.unlocked hw.unique hlive flags stats
  have hlen : t.ops.length < 2 ^ 32 := lt_of_le_of_lt (hw.tracked id t ht).bounded (by decide)
  rw [hstore, hrc]
  exact ⟨commitLoop_rc hw.unique 0 0, commitLoop_maps_iff hw.unique hlen 0 0⟩

/-- A commit neither creates nor destroys a map. -/
theorem merlinTxnCommit_valid {s : Store} (hu : s.Unique) (hl : s.Unlocked) (t : Txn) (flags : BitVec 32)
    (stats : TxnStats) (i : Fin storeMaxMaps) :
    ((merlinTxnCommit s t flags stats).store.maps i).valid = (s.maps i).valid := by
  cases hlive : t.live with
  | false => rw [merlinTxnCommit_of_not_live hlive]
  | true =>
    rw [(merlinTxnCommit_eq hl hu hlive flags stats).1]
    exact (commitLoop_keeps hu t.ops 0 0).2.2 i

end Commits

section Serial

/-- The abstract store after a call: a created map is empty, and a transaction whose commit returned
zero has its operations applied.  Nothing else happens to the contents. -/
def serialCall (w : World) (A : Fin storeMaxMaps → MapFun) : StoreCall → Fin storeMaxMaps → MapFun
  | .mapCreate =>
    match (List.finRange storeMaxMaps).find? fun i => !(w.store.maps i).valid with
    | some i => Function.update A i fun _ => none
    | none => A
  | .txnCommit id flags =>
    match w.txns id with
    | some t => if (merlinTxnCommit w.store t flags noStats).rc = none then t.ops.foldl storeOp A else A
    | none => A
  | _ => A

/-- A run whose calls meet `P`, with the serial store beside it. -/
inductive SerialRun (P : World → StoreCall → Prop) : World → (Fin storeMaxMaps → MapFun) → Prop where
  | init : SerialRun P World.init fun _ _ => none
  | call {w w' : World} {A : Fin storeMaxMaps → MapFun} {c : StoreCall} (h : SerialRun P w A)
      (hc : P w c) (hw : w.call c = some w') : SerialRun P w' (serialCall w A c)

/-- A call that may not touch a map has not: a commit that returned an error, and an abort. -/
def LeavesMaps (w : World) (c : StoreCall) (w' : World) : Prop :=
  match c with
  | .txnCommit id flags => ∀ t, w.txns id = some t →
      (merlinTxnCommit w.store t flags noStats).rc ≠ none → w'.store.maps = w.store.maps
  | .txnAbort _ => w'.store.maps = w.store.maps
  | _ => True

def AtomicSerial (P : World → StoreCall → Prop) : Prop :=
  ∀ w A, SerialRun P w A →
    (∀ i, (w.store.maps i).valid = true → w.store.contents i = A i) ∧
    ∀ c w', P w c → w.call c = some w' → LeavesMaps w c w'

/-- The commits that need no roll back: none of the operations fails, or the first one that has
anything to do does. -/
def NoRollback (w : World) (c : StoreCall) : Prop :=
  match c with
  | .txnCommit id _ => ∀ t, w.txns id = some t → t.live = true →
      NoneFails w.store.live t.ops w.store.contents ∨ FailsFirst w.store.live t.ops w.store.contents
  | _ => True

variable {P : World → StoreCall → Prop} {w w' : World} {A : Fin storeMaxMaps → MapFun}

theorem SerialRun.reached (h : SerialRun P w A) : w.Reached := by
  induction h with
  | init => exact .refl
  | call _ _ hw ih => exact ih.tail ⟨_, hw⟩

theorem foldl_storeOp_congr {A B : Fin storeMaxMaps → MapFun} {i : Fin storeMaxMaps} (h : A i = B i)
    (os : List TxnOp) : os.foldl storeOp A i = os.foldl storeOp B i := by
  induction os generalizing A B with
  | nil => exact h
  | cons o os ih =>
    apply ih
    unfold storeOp
    cases slotIndex? o.mapHandle with
    | none => exact h
    | some j =>
      dsimp only
      by_cases hij : i = j
      · subst hij
        rw [Function.update_self, Function.update_self, h]
      · rw [Function.update_of_ne hij, Function.update_of_ne hij, h]

/-- A commit that returned an error and needed no roll back has left the maps. -/
theorem World.Ok.leavesMaps (hw : w.Ok) {c : StoreCall} (hc : NoRollback w c) (h : w.call c = some w') :
    LeavesMaps w c w' := by
  cases c with
  | txnCommit id flags =>
    intro t ht hrc
    obtain rfl : _ = w' := by simpa [World.call, ht] using h
    cases hlive : t.live with
    | false => rw [merlinTxnCommit_of_not_live hlive]
    | true =>
      obtain ⟨hok, hmaps⟩ := hw.commit_outcome ht hlive flags noStats
      rcases hc t ht hlive with hnone | hfirst
      · exact absurd (hok.mpr hnone) hrc
      · exact (hmaps hrc).mpr hfirst
  | txnAbort id =>
    obtain ⟨t, -, rfl⟩ := Option.map_eq_some_iff.mp h
    rfl
  | _ => trivial

theorem serial_call (hw : w.Ok) {c : StoreCall} (hc : NoRollback w c) (h : w.call c = some w')
    (hA : ∀ i, (w.store.maps i).valid = true → w.store.contents i = A i) (i : Fin storeMaxMaps)
    (hi : (w'.store.maps i).valid = true) : w'.store.contents i = serialCall w A c i := by
  cases c with
  | storeInit =>
    cases h
    cases hi
  | mapCreate =>
    cases h
    simp only [merlinStoreMapCreate, serialCall] at hi ⊢
    cases hfind : (List.finRange storeMaxMaps).find? fun i => !(w.store.maps i).valid with
    | none =>
      simp only [hfind] at hi ⊢
      exact hA i hi
    | some j =>
      simp only [hfind] at hi ⊢
      by_cases hij : i = j
      · subst hij
        rw [Function.update_self]
        funext k
        simp only [Store.contents, Store.setMap_maps, if_true]
        rw [Lib.Table.contents_eq_none, Lib.Table.slotOf_eq_none]
        intro a ha
        cases ha
      · rw [Function.update_of_ne hij]
        simp only [Store.setMap_maps, if_neg hij] at hi
        simp only [Store.contents, Store.setMap_maps, if_neg hij]
        exact hA i hi
  | mapDestroy handle =>
    cases h
    simp only [merlinStoreMapDestroy] at hi ⊢
    split at hi
    · exact hA i hi
    · rename_i j _
      by_cases hij : i = j
      · simp [Store.setMap_maps, hij] at hi
      · simp only [Store.setMap_maps, if_neg hij] at hi
        simp only [Store.contents, Store.setMap_maps, if_neg hij]
        exact hA i hi
  | txnBegin id ns =>
    cases h
    exact hA i hi
  | txnStage id handle op key value =>
    obtain ⟨t, -, rfl⟩ := Option.map_eq_some_iff.mp h
    exact hA i hi
  | txnAbort id =>
    obtain ⟨t, -, rfl⟩ := Option.map_eq_some_iff.mp h
    exact hA i hi
  | txnCommit id flags =>
    have hleaves := hw.leavesMaps hc h
    obtain ⟨t, ht, rfl⟩ := Option.map_eq_some_iff.mp h
    simp only [serialCall, ht]
    split
    · rename_i hrc
      have href := commitRefines_of_ok hw.unique hw.unlocked hrc
      have hvalid := (merlinTxnCommit_valid hw.unique hw.unlocked t flags noStats i).symm.trans hi
      rw [href.contents]
      exact foldl_storeOp_congr (hA i hvalid) t.ops
    · rename_i hrc
      have hmaps := hleaves t ht hrc
      simp only at hmaps hi ⊢
      rw [hmaps] at hi
      simp only [Store.contents, hmaps]
      exact hA i hi

theorem SerialRun.serial (h : SerialRun NoRollback w A) (i : Fin storeMaxMaps)
    (hi : (w.store.maps i).valid = true) : w.store.contents i = A i := by
  induction h generalizing i with
  | init => cases hi
  | call hrun hc hw ih => exact serial_call hrun.reached.ok hc hw ih i hi

theorem SerialRun.calls (hrun : SerialRun P w A) {cs : List StoreCall} (hP : ∀ c ∈ cs, ∀ w, P w c)
    (h : w.calls cs = some w') : ∃ A', SerialRun P w' A' := by
  induction cs generalizing w A with
  | nil =>
    cases h
    exact ⟨A, hrun⟩
  | cons c cs ih =>
    obtain ⟨w₁, hc, hcs⟩ := Option.bind_eq_some_iff.mp h
    rw [List.forall_mem_cons] at hP
    exact ih (hrun.call (hP.1 w) hc) hP.2 hcs

/-- In the runs whose commits need no roll back, transactions are atomic and serial; and a commit that
needs one returns an error and leaves a map changed. -/
theorem atomicSerial_noRollback (w w' : World) (id : ℕ) (flags : BitVec 32) (t : Txn) :
    AtomicSerial NoRollback ∧
      (w.Reached → w.txns id = some t → ¬ NoRollback w (.txnCommit id flags) →
        w.call (.txnCommit id flags) = some w' → ¬ LeavesMaps w (.txnCommit id flags) w') := by
  constructor
  · intro w A hrun
    exact ⟨hrun.serial, fun c w' hc h => hrun.reached.ok.leavesMaps hc h⟩
  · intro hw ht hroll h hleaves
    obtain rfl : _ = w' := by simpa [World.call, ht] using h
    simp only [NoRollback] at hroll
    push Not at hroll
    obtain ⟨t', ht', hlive, hfails, hfirst⟩ := hroll
    obtain rfl := Option.some.inj (ht.symm.trans ht')
    obtain ⟨hok, hmaps⟩ := hw.ok.commit_outcome ht hlive flags noStats
    have hrc : (merlinTxnCommit w.store t flags noStats).rc ≠ none := fun h => hfails (hok.mp h)
    exact hfirst ((hmaps hrc).mp (hleaves t ht hrc))

def pairStagedCalls : List StoreCall :=
  [.mapCreate, .mapCreate, .txnBegin 0 0, .txnStage 0 1 3 7 70, .txnStage 0 2 3 7 71]

def pairStagedWorld : World := (World.init.calls pairStagedCalls).get rfl

def pairTxn : Txn := ⟨true, false, false, 0, [⟨1, 3, 7, 70⟩, ⟨2, 3, 7, 71⟩], [1, 2]⟩

/-- The commit returns zero and both maps are as the serial store has them. -/
theorem pairStaged_atomicSerial : ∃ w' A, pairStagedWorld.call (.txnCommit 0 0) = some w' ∧
    SerialRun NoRollback w' A ∧ A 0 7 = some 70 ∧ A 1 7 = some 71 := by
  have hcalls : World.init.calls pairStagedCalls = some pairStagedWorld := (Option.some_get _).symm
  have hfree : ∀ c ∈ pairStagedCalls, ∀ w, NoRollback w c := by
    intro c hc w
    fin_cases hc <;> trivial
  obtain ⟨A, hstaged⟩ := SerialRun.calls .init hfree hcalls
  have htxn : pairStagedWorld.txns 0 = some pairTxn := by decide +kernel
  have hcommit : NoRollback pairStagedWorld (.txnCommit 0 0) := by
    intro t ht hlive
    obtain rfl := Option.some.inj (ht.symm.trans htxn)
    exact .inl ((hstaged.reached.ok.commit_outcome htxn hlive 0 noStats).1.mp (by decide +kernel))
  have hcall : pairStagedWorld.call (.txnCommit 0 0) =
      some ((pairStagedWorld.call (.txnCommit 0 0)).get rfl) := (Option.some_get _).symm
  have hrun := hstaged.call hcommit hcall
  obtain ⟨hserial, -⟩ := (atomicSerial_noRollback pairStagedWorld pairStagedWorld 0 0 pairTxn).1 _ _ hrun
  refine ⟨_, _, hcall, hrun, ?_, ?_⟩
  · rw [← hserial 0 (by decide +kernel)]
    decide +kernel
  · rw [← hserial 1 (by decide +kernel)]
    decide +kernel

/-- A transaction over two maps, the second of which is destroyed before the commit. -/
def halfCommitCalls : List StoreCall :=
  [.mapCreate, .mapCreate, .txnBegin 0 0, .txnStage 0 1 3 7 70, .txnStage 0 2 3 7 71, .mapDestroy 2]

/-- The commit returns `EBADF` and has set the key in the first map. -/
theorem halfCommitCalls_not_atomicSerial : ¬ AtomicSerial fun _ _ => True := by
  intro h
  have hcalls : World.init.calls halfCommitCalls = some ((World.init.calls halfCommitCalls).get rfl) :=
    (Option.some_get _).symm
  obtain ⟨A, hrun⟩ := SerialRun.calls (P := fun _ _ => True) .init (fun _ _ _ => trivial) hcalls
  have hleaves := (h _ A hrun).2 (.txnCommit 0 0) _ trivial rfl _ rfl (by decide +kernel)
  have hversion := congrArg (fun maps => (maps 0).version) hleaves
  revert hversion
  decide +kernel

end Serial

section Stale

/-- Calls that do not begin transaction `id` again. -/
def World.Keeps (id : ℕ) (w w' : World) : Prop :=
  ∃ c, (∀ ns, c ≠ .txnBegin id ns) ∧ w.call c = some w'

/-- Transaction `id` has an operation that was staged against `handle` when it named another map: the
map was destroyed after that. -/
def Stale (w : World) (id : ℕ) (handle : BitVec 32) : Prop :=
  ∃ (w₁ w₂ w₃ w₄ : World) (t : Txn) (op : BitVec 32) (key value : BitVec 64),
    w₁.Reached ∧ w₁.txns id = some t ∧ (merlinTxnStage w₁.store t handle op key value).2 = none ∧
    w₁.call (.txnStage id handle op key value) = some w₂ ∧
    Relation.ReflTransGen (World.Keeps id) w₂ w₃ ∧ w₃.call (.mapDestroy handle) = some w₄ ∧
    Relation.ReflTransGen (World.Keeps id) w₄ w

def CommitRefused (w : World) (t : Txn) (flags : BitVec 32) : Prop :=
  (merlinTxnCommit w.store t flags noStats).rc ≠ none ∧
    (merlinTxnCommit w.store t flags noStats).store.maps = w.store.maps

variable {w w' : World} {id : ℕ} {handle : BitVec 32}

theorem World.Reached.keeps (hw : w.Reached) (h : Relation.ReflTransGen (World.Keeps id) w w') : w'.Reached := by
  induction h with
  | refl => exact hw
  | tail _ hstep ih =>
    obtain ⟨c, -, hc⟩ := hstep
    exact ih.tail ⟨c, hc⟩

theorem Stale.reached (h : Stale w id handle) : w.Reached := by
  obtain ⟨w₁, w₂, w₃, w₄, t, op, key, value, hw, -, -, hstage, h₂, hdestroy, h₄⟩ := h
  have hw₂ : w₂.Reached := hw.tail ⟨_, hstage⟩
  have hw₄ : w₄.Reached := (hw₂.keeps h₂).tail ⟨_, hdestroy⟩
  exact hw₄.keeps h₄

/-- The commit of a transaction with a stale operation is refused exactly when it is closed already or
the first operation that has anything to do fails. -/
theorem stale_commit_refused_iff {t : Txn} {flags : BitVec 32} (hs : Stale w id handle)
    (ht : w.txns id = some t) :
    CommitRefused w t flags ↔
      t.live = false ∨ FailsFirst w.store.live t.ops w.store.contents := by
  unfold CommitRefused
  cases hlive : t.live with
  | false => simp [merlinTxnCommit_of_not_live hlive]
  | true =>
    obtain ⟨hok, hmaps⟩ := hs.reached.ok.commit_outcome ht hlive flags noStats
    simp only [Bool.true_eq_false, false_or]
    constructor
    · rintro ⟨hrc, hsame⟩
      exact (hmaps hrc).mp hsame
    · intro hfirst
      have hrc : (merlinTxnCommit w.store t flags noStats).rc ≠ none := fun h =>
        hfirst.not_noneFails (hok.mp h)
      exact ⟨hrc, (hmaps hrc).mpr hfirst⟩

def staleWorld : World :=
  (World.init.calls [.mapCreate, .txnBegin 0 0, .txnStage 0 1 3 7 70, .mapDestroy 1]).get rfl

def staleTxn : Txn := ⟨true, false, false, 0, [⟨1, 3, 7, 70⟩], [1]⟩

theorem staleWorld_stale : Stale staleWorld 0 1 := by
  refine ⟨(World.init.calls [.mapCreate, .txnBegin 0 0]).get rfl, _, _, _, merlinTxnBegin 0, 3, 7, 70,
    World.reached_of_calls .refl (Option.some_get _).symm, ?_, ?_, rfl, .refl, rfl, .refl⟩
  · rfl
  · decide +kernel

theorem staleWorld_refused : Stale staleWorld 0 1 ∧ CommitRefused staleWorld staleTxn 0 := by
  refine ⟨staleWorld_stale, (stale_commit_refused_iff staleWorld_stale (by decide +kernel)).mpr ?_⟩
  exact .inr (.inl (.inl rfl))

/-- The handle is handed out again before the commit, which writes the new map and returns zero. -/
theorem recreated_not_refused :
    ¬ ∀ w id handle t flags, Stale w id handle → w.txns id = some t → CommitRefused w t flags := by
  intro h
  have hstale : Stale ((staleWorld.call .mapCreate).get rfl) 0 1 := by
    obtain ⟨w₁, w₂, w₃, w₄, t, op, key, value, hw, ht, hrc, hstage, h₂, hdestroy, h₄⟩ := staleWorld_stale
    have hkeeps : World.Keeps 0 staleWorld ((staleWorld.call .mapCreate).get rfl) :=
      ⟨.mapCreate, by simp, rfl⟩
    exact ⟨w₁, w₂, w₃, w₄, t, op, key, value, hw, ht, hrc, hstage, h₂, hdestroy, h₄.tail hkeeps⟩
  obtain ⟨hrc, -⟩ := h _ 0 1 staleTxn 0 hstale (by decide +kernel)
  revert hrc
  decide +kernel

end Stale

end MerlinV
