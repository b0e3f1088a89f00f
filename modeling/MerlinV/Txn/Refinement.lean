import MerlinV.Txn.Algebra

/-! # Commits refine the map algebra

What the calls keep: keys are unique in every map, no lock outlives a commit, and a
transaction has touched every map it has staged an operation for.  A commit that returns
zero has folded the staged operations over the contents of the store, and commits of
transactions that touch different maps commute.
-/
namespace MerlinV

section Loop

variable {s s' : Store} {os : List TxnOp} {a k : ℕ}

/-- Keys stay unique in every outcome of the commit loop, and no map becomes live or dead. -/
theorem commitLoop_keeps (hu : s.Unique) (os : List TxnOp) (a k : ℕ) :
    (commitLoop os s a k).1.Unique ∧ (commitLoop os s a k).1.locked = s.locked ∧
      ∀ j, ((commitLoop os s a k).1.maps j).valid = (s.maps j).valid := by
  induction os generalizing s a k with
  | nil => exact ⟨hu, rfl, fun _ => rfl⟩
  | cons o os ih =>
    rcases commitLoop_cons hu o with ⟨-, e, -, h⟩ | ⟨-, hadv, h⟩ | ⟨-, -, -, h⟩
    · rw [h]
      exact ⟨hu, rfl, fun _ => rfl⟩
    · rw [h]
      obtain ⟨h₁, h₂, h₃⟩ := ih hadv.unique (a + 1) k
      exact ⟨h₁, h₂.trans hadv.locked, fun j => (h₃ j).trans (hadv.valid j)⟩
    · rw [h]
      exact ih hu a (k + 1)

/-- A commit loop that ends well has folded the operations over the contents. -/
theorem commitLoop_ok (hu : s.Unique) {a' k' : ℕ} (h : commitLoop os s a k = (s', a', k', none)) :
    s'.contents = os.foldl storeOp s.contents ∧ a' = a + effectiveOps os s.contents ∧
      a' + k' = a + k + os.length := by
  induction os generalizing s a k with
  | nil =>
    simp only [commitLoop, Prod.mk.injEq] at h
    obtain ⟨rfl, rfl, rfl, -⟩ := h
    simp [effectiveOps]
  | cons o os ih =>
    rcases commitLoop_cons hu o with ⟨-, e, -, hc⟩ | ⟨hch, hadv, hc⟩ | ⟨hnf, hnc, hsame, hc⟩
    · rw [hc] at h
      cases h
    · rw [hc] at h
      obtain ⟨h₁, h₂, h₃⟩ := ih hadv.unique h
      rw [hadv.contents] at h₁ h₂
      refine ⟨h₁, ?_, ?_⟩
      · rw [effectiveOps, if_pos hch.2, h₂]
        omega
      · rw [List.length_cons]
        omega
    · rw [hc] at h
      obtain ⟨h₁, h₂, h₃⟩ := ih hu h
      have hno : ¬ ∃ i, slotIndex? o.mapHandle = some i ∧ Effective o (s.contents i) := fun hex =>
        hnc ⟨hnf, hex⟩
      refine ⟨?_, ?_, ?_⟩
      · rw [List.foldl_cons, hsame]
        exact h₁
      · rw [effectiveOps, if_neg hno, hsame, h₂]
        omega
      · rw [List.length_cons]
        omega

def Names (os : List TxnOp) (j : Fin storeMaxMaps) : Prop :=
  ∃ o ∈ os, slotIndex? o.mapHandle = some j

def SameOn (P : Fin storeMaxMaps → Prop) (s u : Store) : Prop := ∀ j, P j → s.maps j = u.maps j

theorem findMap_congr {u : Store} {o : TxnOp}
    (h : ∀ j, slotIndex? o.mapHandle = some j → s.maps j = u.maps j) :
    findMap s o.mapHandle = findMap u o.mapHandle := by
  unfold findMap
  cases hs : slotIndex? o.mapHandle with
  | none => rfl
  | some j => simp only [h j hs]

theorem SameOn.setMap {P : Fin storeMaxMaps → Prop} {u : Store} (h : SameOn P s u) (i : Fin storeMaxMaps)
    (m : MerlinMap) : SameOn P (s.setMap i m) (u.setMap i m) := by
  intro j hj
  rw [Store.setMap_maps, Store.setMap_maps, h j hj]

theorem commitLoop_congr {P : Fin storeMaxMaps → Prop} {u : Store} (hP : ∀ j, Names os j → P j)
    (h : SameOn P s u) (a k : ℕ) :
    SameOn P (commitLoop os s a k).1 (commitLoop os u a k).1 ∧
      (commitLoop os s a k).2 = (commitLoop os u a k).2 := by
  induction os generalizing s u a k with
  | nil => exact ⟨h, rfl⟩
  | cons o os ih =>
    have hos : ∀ j, Names os j → P j := by
      rintro j ⟨o', ho', hj⟩
      exact hP j ⟨o', List.mem_cons_of_mem o ho', hj⟩
    have hmap : ∀ j, slotIndex? o.mapHandle = some j → s.maps j = u.maps j := fun j hj =>
      h j (hP j ⟨o, List.mem_cons_self, hj⟩)
    rw [commitLoop, commitLoop, ← findMap_congr hmap]
    cases hf : findMap s o.mapHandle with
    | none => exact ⟨h, rfl⟩
    | some i =>
      dsimp only
      rw [← hmap i (findMap_eq_some.mp hf).1]
      rcases applyOp (s.maps i) o with ⟨m, _ | e⟩
      · exact ih hos (h.setMap i _) _ _
      · cases e
        case eexist => exact ih hos (h.setMap i _) _ _
        case enoent => exact ih hos (h.setMap i _) _ _
        all_goals exact ⟨h.setMap i _, rfl⟩

/-- The maps no operation names are left alone. -/
theorem commitLoop_frame {j : Fin storeMaxMaps} (hj : ¬ Names os j) (s : Store) (a k : ℕ) :
    (commitLoop os s a k).1.maps j = s.maps j := by
  induction os generalizing s a k with
  | nil => rfl
  | cons o os ih =>
    have hos : ¬ Names os j := by
      rintro ⟨o', ho', h⟩
      exact hj ⟨o', List.mem_cons_of_mem o ho', h⟩
    rw [commitLoop]
    cases hf : findMap s o.mapHandle with
    | none => rfl
    | some i =>
      have hji : j ≠ i := by
        rintro rfl
        exact hj ⟨o, List.mem_cons_self, (findMap_eq_some.mp hf).1⟩
      have hset : ∀ m, (s.setMap i m).maps j = s.maps j := fun m => by
        rw [Store.setMap_maps, if_neg hji]
      dsimp only
      rcases applyOp (s.maps i) o with ⟨m, _ | e⟩
      · exact (ih hos _ _ _).trans (hset _)
      · cases e
        case eexist => exact (ih hos _ _ _).trans (hset _)
        case enoent => exact (ih hos _ _ _).trans (hset _)
        all_goals exact hset _

end Loop

section Locks

variable {s : Store} {t : Txn}

def Store.Unlocked (s : Store) : Prop := ∀ i, s.locked i = false

theorem setLocks_maps (s : Store) (hs : List (BitVec 32)) (b : Bool) : (setLocks s hs b).maps = s.maps := by
  unfold setLocks
  induction hs generalizing s with
  | nil => rfl
  | cons h hs ih =>
    rw [List.foldl_cons, ih]
    cases slotIndex? h <;> rfl

theorem setLocks_locked (s : Store) (hs : List (BitVec 32)) (b : Bool) (i : Fin storeMaxMaps) :
    (setLocks s hs b).locked i = if ∃ h ∈ hs, slotIndex? h = some i then b else s.locked i := by
  unfold setLocks
  induction hs generalizing s with
  | nil => simp
  | cons h hs ih =>
    rw [List.foldl_cons, ih]
    cases hh : slotIndex? h with
    | none => simp [hh]
    | some j =>
      by_cases hij : j = i
      · simp [hh, hij]
      · simp [hh, hij, Ne.symm hij]

theorem Store.ext_maps {s u : Store} (hm : ∀ i, s.maps i = u.maps i) (hl : ∀ i, s.locked i = u.locked i) :
    s = u := by
  cases s
  cases u
  simp only [Store.mk.injEq]
  exact ⟨funext hm, funext hl⟩

/-- An open transaction meets no lock, and its commit is the commit loop on the maps. -/
theorem merlinTxnCommit_eq (hunlocked : s.Unlocked) (hu : s.Unique) (hl : t.live = true)
    (flags : BitVec 32) (stats : TxnStats) :
    (merlinTxnCommit s t flags stats).store = (commitLoop t.ops s 0 0).1 ∧
      (merlinTxnCommit s t flags stats).rc = (commitLoop t.ops s 0 0).2.2.2 ∧
      (merlinTxnCommit s t flags stats).stats =
        ⟨t.ops.length, (commitLoop t.ops s 0 0).2.1, (commitLoop t.ops s 0 0).2.2.1, 0⟩ ∧
      (merlinTxnCommit s t flags stats).txn =
        if (commitLoop t.ops s 0 0).2.2.2 = none then { t with committed := true, isOpen := false }
        else { t with aborted := true, isOpen := false } := by
  have hno : conflict? s t.touched = none := by
    unfold conflict?
    rw [List.find?_eq_none]
    intro h _
    cases slotIndex? h <;> simp [hunlocked _]
  have hu' : (setLocks s t.touched true).Unique := by
    intro i
    rw [setLocks_maps]
    exact hu i
  have hall : ∀ j, Names t.ops j → True := fun _ _ => trivial
  have hsame : SameOn (fun _ => True) (setLocks s t.touched true) s := fun j _ => by rw [setLocks_maps]
  obtain ⟨hmaps, hrest⟩ := commitLoop_congr hall hsame 0 0
  have hlock := (commitLoop_keeps hu t.ops 0 0).2.1
  have hlock' := (commitLoop_keeps hu' t.ops 0 0).2.1
  have hc : (if flags &&& txnFast = 0 then conflict? s t.touched else none) = none := by
    split
    · exact hno
    · rfl
  unfold merlinTxnCommit
  simp only [hl, Bool.not_true, Bool.false_eq_true, if_false, hc]
  have hrc := congrArg (fun p => p.2.2) hrest
  refine ⟨Store.ext_maps (fun i => ?_) (fun i => ?_), hrc, ?_, ?_⟩
  · rw [setLocks_maps]
    exact hmaps i trivial
  · rw [setLocks_locked, hlock', hlock, setLocks_locked, hunlocked i]
    split <;> rfl
  · have happlied := congrArg Prod.fst hrest
    have hskipped := congrArg (fun p => p.2.1) hrest
    rw [happlied, hskipped]
  · rw [hrc]

theorem merlinTxnCommit_of_not_live (hl : t.live = false) (flags : BitVec 32) (stats : TxnStats) :
    merlinTxnCommit s t flags stats = ⟨s, t, stats, some .einval⟩ := by
  simp [merlinTxnCommit, hl]

/-- What the calls of a run leave between them of a transaction: the touched list has every map the
staged operations name, each once, and the operations fit their array. -/
structure Txn.Tracked (t : Txn) : Prop where
  named : ∀ o ∈ t.ops, o.mapHandle ∈ t.touched
  inRange : ∀ h ∈ t.touched, ∃ i, slotIndex? h = some i
  nodup : t.touched.Nodup
  bounded : t.ops.length ≤ txnMaxOps

theorem slotIndex?_inj {g h : BitVec 32} {i : Fin storeMaxMaps} (hg : slotIndex? g = some i)
    (hh : slotIndex? h = some i) : g = h := by
  have key : ∀ {x : BitVec 32}, slotIndex? x = some i → x.toNat = i + 1 := by
    intro x hx
    unfold slotIndex? at hx
    split at hx
    · rename_i hr
      have hi := congrArg Fin.val (Option.some.inj hx)
      simp only at hi
      omega
    · cases hx
  exact BitVec.eq_of_toNat_eq ((key hg).trans (key hh).symm)

/-- Distinct handles in range are at most as many as there are maps. -/
theorem length_le_of_inRange {hs : List (BitVec 32)} (hr : ∀ h ∈ hs, ∃ i, slotIndex? h = some i)
    (hn : hs.Nodup) : hs.length ≤ storeMaxMaps := by
  have hmap : (hs.map slotIndex?).Nodup := by
    apply List.Nodup.map_on ?_ hn
    intro g hg h _ hgh
    obtain ⟨i, hi⟩ := hr g hg
    exact slotIndex?_inj hi (hgh ▸ hi)
  have hsub : hs.map slotIndex? ⊆ (List.finRange storeMaxMaps).map some := by
    intro x hx
    obtain ⟨h, hh, rfl⟩ := List.mem_map.mp hx
    obtain ⟨i, hi⟩ := hr h hh
    rw [hi]
    exact List.mem_map_of_mem (List.mem_finRange i)
  have := (hmap.subperm hsub).length_le
  simpa using this

theorem findMap_isSome {h : BitVec 32} (hf : (findMap s h).isNone = false) :
    ∃ i, slotIndex? h = some i ∧ (s.maps i).valid = true := by
  obtain ⟨i, hi⟩ := Option.isSome_iff_exists.mp (by simpa [Option.isNone_eq_false_iff] using hf)
  exact ⟨i, findMap_eq_some.mp hi⟩

/-- A new handle always finds room in the touched list. -/
theorem merlinTxnStage_tracked (ht : t.Tracked) (handle op : BitVec 32) (key value : BitVec 64) :
    (merlinTxnStage s t handle op key value).1.Tracked := by
  unfold merlinTxnStage
  split_ifs with hl hlen hf hmem hroom
  · exact ht
  · exact ht
  · exact ht
  · refine ⟨fun o ho => ?_, ht.inRange, ht.nodup, by simp; omega⟩
    rcases List.mem_append.mp ho with ho | ho
    · exact ht.named o ho
    · rw [List.mem_singleton.mp ho]
      exact hmem
  · refine ⟨fun o ho => ?_, fun h hh => ?_, ?_, by simp; omega⟩
    · rcases List.mem_append.mp ho with ho | ho
      · exact List.mem_append_left _ (ht.named o ho)
      · rw [List.mem_singleton.mp ho]
        exact List.mem_append_right _ List.mem_cons_self
    · rcases List.mem_append.mp hh with hh | hh
      · exact ht.inRange h hh
      · obtain ⟨i, hi, -⟩ := findMap_isSome (Bool.eq_false_of_not_eq_true hf)
        rw [List.mem_singleton.mp hh]
        exact ⟨i, hi⟩
    · exact List.Nodup.append ht.nodup (List.nodup_singleton handle) (by simpa using hmem)
  · exfalso
    obtain ⟨i, hi, -⟩ := findMap_isSome (Bool.eq_false_of_not_eq_true hf)
    have hr : ∀ h ∈ handle :: t.touched, ∃ i, slotIndex? h = some i := by
      intro h hh
      rcases List.mem_cons.mp hh with rfl | hh
      · exact ⟨i, hi⟩
      · exact ht.inRange h hh
    have hlen := length_le_of_inRange hr (List.nodup_cons.mpr ⟨hmem, ht.nodup⟩)
    rw [List.length_cons] at hlen
    omega

end Locks

section Reads

variable {e : Entries} {s : Store} {h : BitVec 32} {i : Fin storeMaxMaps}

def usedFrom (e : Entries) (pos : ℕ) : List (BitVec 64 × BitVec 64) :=
  ((List.finRange storeMaxEntries).drop pos).filterMap fun i =>
    if (e i).used then some ((e i).key, (e i).value) else none

theorem usedFrom_of_lt {pos : ℕ} (hpos : pos < storeMaxEntries) :
    usedFrom e pos =
      if (e ⟨pos, hpos⟩).used then ((e ⟨pos, hpos⟩).key, (e ⟨pos, hpos⟩).value) :: usedFrom e (pos + 1)
      else usedFrom e (pos + 1) := by
  have hlen : pos < (List.finRange storeMaxEntries).length := by
    rw [List.length_finRange]
    exact hpos
  unfold usedFrom
  rw [List.drop_eq_getElem_cons hlen, List.getElem_finRange, List.filterMap_cons]
  split <;> simp_all

theorem usedFrom_of_le {pos : ℕ} (hpos : storeMaxEntries ≤ pos) : usedFrom e pos = [] := by
  unfold usedFrom
  rw [List.drop_eq_nil_of_le (by rw [List.length_finRange]; exact hpos), List.filterMap_nil]

/-- One call of `merlin_store_next` takes the first entry of the rest. -/
theorem nextEntry_spec (fuel pos : ℕ) (hfuel : storeMaxEntries ≤ fuel + pos) :
    (usedFrom e pos = [] ∧ ∃ pos', nextEntry e fuel pos = (none, pos')) ∨
      ∃ x pos', nextEntry e fuel pos = (some x, pos') ∧ pos < pos' ∧ usedFrom e pos = x :: usedFrom e pos' := by
  induction fuel generalizing pos with
  | zero => exact .inl ⟨usedFrom_of_le (by omega), pos, rfl⟩
  | succ fuel ih =>
    rw [nextEntry]
    by_cases hpos : pos < storeMaxEntries
    · rw [dif_pos hpos, usedFrom_of_lt hpos]
      by_cases hused : (e ⟨pos, hpos⟩).used
      · rw [if_pos hused, if_pos hused]
        exact .inr ⟨_, pos + 1, rfl, by omega, rfl⟩
      · rw [if_neg hused, if_neg hused]
        rcases ih (pos + 1) (by omega) with hnone | ⟨x, pos', hx, hlt, hrest⟩
        · exact .inl hnone
        · exact .inr ⟨x, pos', hx, by omega, hrest⟩
    · rw [dif_neg hpos]
      exact .inl ⟨usedFrom_of_le (by omega), pos, rfl⟩

/-- An iteration with a call to spare sees every entry in use. -/
theorem enumerateFrom_eq (hf : findMap s h = some i) (fuel pos : ℕ) (hfuel : storeMaxEntries < fuel + pos) :
    enumerateFrom s h fuel pos = usedFrom (s.maps i).entries pos := by
  induction fuel generalizing pos with
  | zero => exact (usedFrom_of_le (by omega)).symm
  | succ fuel ih =>
    rw [enumerateFrom, merlinStoreNext, hf]
    rcases nextEntry_spec (e := (s.maps i).entries) storeMaxEntries pos (by omega) with
      ⟨hnil, pos', hnone⟩ | ⟨x, pos', hx, hlt, hrest⟩
    · simp only [hnone, hnil]
    · simp only [hx, hrest]
      rw [ih pos' (by omega)]

/-- What a reader learns of a map through `merlin_store_lookup` and `merlin_store_next`: exactly the
pairs of a partial function, no key twice. -/
structure ReadsAs (s : Store) (h : BitVec 32) (f : MapFun) : Prop where
  lookup : merlinStoreLookup s h = f
  next : ∀ fuel > storeMaxEntries, ∀ k v, (k, v) ∈ enumerateFrom s h fuel 0 ↔ f k = some v
  nodup : ∀ fuel > storeMaxEntries, ((enumerateFrom s h fuel 0).map Prod.fst).Nodup

theorem readsAs_contents (hu : s.Unique) (hf : findMap s h = some i) : ReadsAs s h (s.contents i) := by
  refine ⟨?_, fun fuel hfuel k v => ?_, fun fuel hfuel => ?_⟩
  · funext k
    rw [merlinStoreLookup, hf]
    rfl
  · rw [enumerateFrom_eq hf fuel 0 (by omega), Store.contents, (hu i).contents_eq_some]
    simp only [usedFrom, List.drop_zero, List.mem_filterMap, List.mem_finRange, true_and]
    apply exists_congr
    intro j
    split <;> simp_all
  · rw [enumerateFrom_eq hf fuel 0 (by omega)]
    simp only [usedFrom, List.drop_zero, List.map_filterMap]
    apply List.Nodup.filterMap _ (List.nodup_finRange _)
    intro a b k ha hb
    simp only [Option.mem_def, Option.map_eq_some_iff, Option.ite_none_right_eq_some, Option.some.injEq] at ha hb
    obtain ⟨x, ⟨hau, rfl⟩, hak⟩ := ha
    obtain ⟨y, ⟨hbu, rfl⟩, hbk⟩ := hb
    exact hu i a b hau hbu (hak.trans hbk.symm)

end Reads

section Runs

variable {w w' : World}

structure World.Ok (w : World) : Prop where
  unique : w.store.Unique
  unlocked : w.store.Unlocked
  tracked : ∀ id t, w.txns id = some t → t.Tracked

theorem merlinStoreInit_unique : merlinStoreInit.Unique := by
  intro i a b ha
  cases ha

theorem World.Ok.init : World.init.Ok := by
  refine ⟨merlinStoreInit_unique, fun _ => rfl, fun id t ht => ?_⟩
  cases ht

theorem merlinStoreMapCreate_keeps {s : Store} (hu : s.Unique) :
    (merlinStoreMapCreate s).1.Unique ∧ (merlinStoreMapCreate s).1.locked = s.locked := by
  unfold merlinStoreMapCreate
  split
  · refine ⟨fun j => ?_, rfl⟩
    rw [Store.setMap_maps]
    split
    · intro a b ha
      cases ha
    · exact hu j
  · exact ⟨hu, rfl⟩

theorem merlinStoreMapDestroy_keeps {s : Store} (hu : s.Unique) (h : BitVec 32) :
    (merlinStoreMapDestroy s h).Unique ∧ (merlinStoreMapDestroy s h).locked = s.locked := by
  unfold merlinStoreMapDestroy
  split
  · exact ⟨hu, rfl⟩
  · rename_i i _
    refine ⟨fun j => ?_, rfl⟩
    rw [Store.setMap_maps]
    split
    · exact hu i
    · exact hu j

theorem merlinTxnCommit_lists (s : Store) (t : Txn) (flags : BitVec 32) (stats : TxnStats) :
    (merlinTxnCommit s t flags stats).txn.ops = t.ops ∧
      (merlinTxnCommit s t flags stats).txn.touched = t.touched := by
  unfold merlinTxnCommit
  split
  · exact ⟨rfl, rfl⟩
  · split
    · exact ⟨rfl, rfl⟩
    · dsimp only
      split <;> exact ⟨rfl, rfl⟩

theorem merlinTxnCommit_keeps {s : Store} {t : Txn} (hu : s.Unique) (hl : s.Unlocked) (ht : t.Tracked)
    (flags : BitVec 32) (stats : TxnStats) :
    (merlinTxnCommit s t flags stats).store.Unique ∧ (merlinTxnCommit s t flags stats).store.Unlocked ∧
      (merlinTxnCommit s t flags stats).txn.Tracked := by
  have htxn := merlinTxnCommit_lists s t flags stats
  have htracked : (merlinTxnCommit s t flags stats).txn.Tracked := by
    constructor
    · rw [htxn.1, htxn.2]
      exact ht.named
    · rw [htxn.2]
      exact ht.inRange
    · rw [htxn.2]
      exact ht.nodup
    · rw [htxn.1]
      exact ht.bounded
  cases hlive : t.live with
  | false =>
    rw [merlinTxnCommit_of_not_live hlive]
    exact ⟨hu, hl, ht⟩
  | true =>
    obtain ⟨hs, -⟩ := merlinTxnCommit_eq hl hu hlive flags stats
    obtain ⟨hu', hlocked, -⟩ := commitLoop_keeps hu t.ops 0 0
    refine ⟨hs ▸ hu', fun i => ?_, htracked⟩
    rw [hs, hlocked]
    exact hl i

/-- A transaction that is written back keeps the others. -/
theorem txns_update {P : Txn → Prop} {txns : ℕ → Option Txn} (h : ∀ id t, txns id = some t → P t)
    (id : ℕ) {t : Txn} (ht : P t) :
    ∀ id' t', Function.update txns id (some t) id' = some t' → P t' := by
  intro id' t' ht'
  by_cases hid : id' = id
  · rw [hid, Function.update_self] at ht'
    exact Option.some.inj ht' ▸ ht
  · rw [Function.update_of_ne hid] at ht'
    exact h id' t' ht'

theorem World.Ok.step (hw : w.Ok) (h : w.Step w') : w'.Ok := by
  obtain ⟨hu, hl, ht⟩ := hw
  obtain ⟨c, hc⟩ := h
  cases c with
  | storeInit =>
    cases hc
    exact ⟨merlinStoreInit_unique, hl, ht⟩
  | mapCreate =>
    cases hc
    obtain ⟨hu', hlocked⟩ := merlinStoreMapCreate_keeps hu
    exact ⟨hu', fun i => by rw [hlocked]; exact hl i, ht⟩
  | mapDestroy h =>
    cases hc
    obtain ⟨hu', hlocked⟩ := merlinStoreMapDestroy_keeps hu h
    exact ⟨hu', fun i => by rw [hlocked]; exact hl i, ht⟩
  | txnBegin id ns =>
    cases hc
    exact ⟨hu, hl, txns_update ht id ⟨by simp [merlinTxnBegin], by simp [merlinTxnBegin],
      by simp [merlinTxnBegin], by simp [merlinTxnBegin]⟩⟩
  | txnStage id h op key value =>
    obtain ⟨t, hid, rfl⟩ := Option.map_eq_some_iff.mp hc
    exact ⟨hu, hl, txns_update ht id (merlinTxnStage_tracked (ht id t hid) h op key value)⟩
  | txnCommit id flags =>
    obtain ⟨t, hid, rfl⟩ := Option.map_eq_some_iff.mp hc
    obtain ⟨hu', hl', ht'⟩ := merlinTxnCommit_keeps hu hl (ht id t hid) flags noStats
    exact ⟨hu', hl', txns_update ht id ht'⟩
  | txnAbort id =>
    obtain ⟨t, hid, rfl⟩ := Option.map_eq_some_iff.mp hc
    have htr := ht id t hid
    exact ⟨hu, hl, txns_update ht id ⟨htr.named, htr.inRange, htr.nodup, htr.bounded⟩⟩

theorem World.Reached.ok (h : w.Reached) : w.Ok := by
  induction h with
  | refl => exact World.Ok.init
  | tail _ hstep ih => exact ih.step hstep

end Runs

section Commute

variable {s : Store} {t u : Txn}

theorem Txn.Tracked.names_disjoint (ht : t.Tracked) (hu : u.Tracked) (hd : t.touched.Disjoint u.touched)
    {j : Fin storeMaxMaps} (hj : Names t.ops j) : ¬ Names u.ops j := by
  rintro ⟨o', ho', hj'⟩
  obtain ⟨o, ho, hjo⟩ := hj
  have hmem := hu.named o' ho'
  rw [← slotIndex?_inj hjo hj'] at hmem
  exact hd (ht.named o ho) hmem

/-- A loop over maps that another loop does not name neither sees nor disturbs it. -/
theorem commitLoop_comm (hs : s.Unique) {os ps : List TxnOp} (hd : ∀ j, Names os j → ¬ Names ps j) :
    (commitLoop ps (commitLoop os s 0 0).1 0 0).1 = (commitLoop os (commitLoop ps s 0 0).1 0 0).1 ∧
      (commitLoop ps (commitLoop os s 0 0).1 0 0).2 = (commitLoop ps s 0 0).2 := by
  have hos : SameOn (Names ps) (commitLoop os s 0 0).1 s := fun j hj =>
    commitLoop_frame (fun hj' => hd j hj' hj) s 0 0
  have hps : SameOn (Names os) (commitLoop ps s 0 0).1 s := fun j hj => commitLoop_frame (hd j hj) s 0 0
  obtain ⟨hmaps, hrest⟩ := commitLoop_congr (fun _ h => h) hos 0 0
  obtain ⟨hmaps', -⟩ := commitLoop_congr (fun _ h => h) hps 0 0
  refine ⟨Store.ext_maps (fun j => ?_) (fun j => ?_), hrest⟩
  · by_cases hj : Names ps j
    · have hj' : ¬ Names os j := fun h => hd j h hj
      rw [hmaps j hj, commitLoop_frame hj']
    · by_cases hj' : Names os j
      · rw [commitLoop_frame hj, hmaps' j hj']
      · rw [commitLoop_frame hj, commitLoop_frame hj', commitLoop_frame hj', commitLoop_frame hj]
  · obtain ⟨huos, hlos, -⟩ := commitLoop_keeps hs os 0 0
    obtain ⟨hups, hlps, -⟩ := commitLoop_keeps hs ps 0 0
    rw [(commitLoop_keeps huos ps 0 0).2.1, (commitLoop_keeps hups os 0 0).2.1, hlos, hlps]

/-- Commits of transactions that touch different maps commute, and neither decides the other's
outcome. -/
theorem merlinTxnCommit_comm (hs : s.Unique) (hl : s.Unlocked) (ht : t.Tracked) (hu : u.Tracked)
    (hd : t.touched.Disjoint u.touched) (f g : BitVec 32) (x : TxnStats) :
    (merlinTxnCommit (merlinTxnCommit s t f x).store u g x).store =
        (merlinTxnCommit (merlinTxnCommit s u g x).store t f x).store ∧
      (merlinTxnCommit (merlinTxnCommit s t f x).store u g x).txn = (merlinTxnCommit s u g x).txn := by
  obtain ⟨hst, hlt, -⟩ := merlinTxnCommit_keeps hs hl ht f x
  obtain ⟨hsu, hlu, -⟩ := merlinTxnCommit_keeps hs hl hu g x
  cases hlive : t.live with
  | false => simp only [merlinTxnCommit_of_not_live hlive, true_and]
  | true =>
    cases hlive' : u.live with
    | false => simp only [merlinTxnCommit_of_not_live hlive', true_and]
    | true =>
      obtain ⟨h₁, -⟩ := merlinTxnCommit_eq hl hs hlive f x
      obtain ⟨h₂, -, -, h₂t⟩ := merlinTxnCommit_eq hl hs hlive' g x
      obtain ⟨h₃, -, -, h₃t⟩ := merlinTxnCommit_eq hlt hst hlive' g x
      obtain ⟨h₄, -⟩ := merlinTxnCommit_eq hlu hsu hlive f x
      obtain ⟨hcomm, hrest⟩ := commitLoop_comm hs fun j hj => ht.names_disjoint hu hd hj
      constructor
      · rw [h₃, h₄, h₁, h₂, hcomm]
      · rw [h₃t, h₂t, h₁, hrest]

end Commute

/-- What a commit that returned zero has done, read against the algebra of maps. -/
structure CommitRefines (s : Store) (t : Txn) (out : CommitOut) : Prop where
  contents : out.store.contents = t.ops.foldl storeOp s.contents
  reads : ∀ h i, findMap out.store h = some i → ReadsAs out.store h (t.ops.foldl storeOp s.contents i)
  staged : out.stats.opsStaged = t.ops.length
  applied : out.stats.opsApplied = effectiveOps t.ops s.contents
  total : out.stats.opsApplied + out.stats.opsSkipped = out.stats.opsStaged

theorem commitRefines_of_ok {s : Store} {t : Txn} (hs : s.Unique) (hl : s.Unlocked) {flags : BitVec 32}
    {stats : TxnStats} (hrc : (merlinTxnCommit s t flags stats).rc = none) :
    CommitRefines s t (merlinTxnCommit s t flags stats) := by
  have hlive : t.live = true := by
    by_contra hlive
    rw [merlinTxnCommit_of_not_live (Bool.eq_false_of_not_eq_true hlive)] at hrc
    cases hrc
  obtain ⟨hstore, hrc', hstats, -⟩ := merlinTxnCommit_eq hl hs hlive flags stats
  have hloop : commitLoop t.ops s 0 0 =
      ((commitLoop t.ops s 0 0).1, (commitLoop t.ops s 0 0).2.1, (commitLoop t.ops s 0 0).2.2.1, none) := by
    rw [← hrc, hrc']
  obtain ⟨hcontents, happlied, htotal⟩ := commitLoop_ok hs hloop
  have hunique := (commitLoop_keeps hs t.ops 0 0).1
  rw [← hstore] at hcontents hunique
  refine ⟨hcontents, fun h i hf => ?_, ?_, ?_, ?_⟩
  · rw [← hcontents]
    exact readsAs_contents hunique hf
  · rw [hstats]
  · rw [hstats, happlied, Nat.zero_add]
  · rw [hstats, htotal]
    simp

/-- In every reachable state a commit that returns zero has applied the algebra of maps, and two
transactions that touch different maps may commit in either order. -/
theorem merlinTxnCommit_refines {w : World} (hw : w.Reached) :
    (∀ id t flags stats, w.txns id = some t → (merlinTxnCommit w.store t flags stats).rc = none →
      CommitRefines w.store t (merlinTxnCommit w.store t flags stats)) ∧
    ∀ i j t u f g, i ≠ j → w.txns i = some t → w.txns j = some u → t.touched.Disjoint u.touched →
      (w.call (.txnCommit i f)).bind (fun w' => w'.call (.txnCommit j g)) =
        (w.call (.txnCommit j g)).bind (fun w' => w'.call (.txnCommit i f)) := by
  obtain ⟨hs, hl, htr⟩ := hw.ok
  constructor
  · intro id t flags stats _ hrc
    exact commitRefines_of_ok hs hl hrc
  · intro i j t u f g hij ht hu hd
    have htt := htr i t ht
    have hut := htr j u hu
    obtain ⟨hstore, htxn⟩ := merlinTxnCommit_comm hs hl htt hut hd f g noStats
    obtain ⟨-, htxn'⟩ := merlinTxnCommit_comm hs hl hut htt hd.symm g f noStats
    simp only [World.call, ht, hu, Option.map_some, Option.bind_some,
      Function.update_of_ne hij, Function.update_of_ne hij.symm, hstore, htxn, htxn']
    rw [Function.update_comm hij]

/-- Two maps and two open transactions, one for each map. -/
def twoTxnCalls : List StoreCall :=
  [.mapCreate, .mapCreate, .txnBegin 0 0, .txnBegin 1 0, .txnStage 0 1 1 7 70, .txnStage 0 1 4 9 0,
    .txnStage 1 2 3 7 71]

def firstTxn : Txn := ⟨true, false, false, 0, [⟨1, 1, 7, 70⟩, ⟨1, 4, 9, 0⟩], [1]⟩

def secondTxn : Txn := ⟨true, false, false, 0, [⟨2, 3, 7, 71⟩], [2]⟩

theorem twoTxnCalls_refines :
    ∃ w, World.init.calls twoTxnCalls = some w ∧ w.txns 0 = some firstTxn ∧ w.txns 1 = some secondTxn ∧
      CommitRefines w.store firstTxn (merlinTxnCommit w.store firstTxn 0 noStats) ∧
      (w.call (.txnCommit 0 0)).bind (fun w' => w'.call (.txnCommit 1 0)) =
        (w.call (.txnCommit 1 0)).bind (fun w' => w'.call (.txnCommit 0 0)) := by
  have hw : World.Reached ((World.init.calls twoTxnCalls).get rfl) :=
    World.reached_of_calls .refl (Option.some_get _).symm
  have h₀ : ((World.init.calls twoTxnCalls).get rfl).txns 0 = some firstTxn := by decide +kernel
  have h₁ : ((World.init.calls twoTxnCalls).get rfl).txns 1 = some secondTxn := by decide +kernel
  obtain ⟨hrefines, hcomm⟩ := merlinTxnCommit_refines hw
  refine ⟨_, (Option.some_get _).symm, h₀, h₁, hrefines 0 _ 0 noStats h₀ ?_,
    hcomm 0 1 _ _ 0 0 (by decide) h₀ h₁ ?_⟩
  · decide +kernel
  · simp [firstTxn, secondTxn]

end MerlinV
