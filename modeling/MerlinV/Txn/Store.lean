import MerlinV.Lib.SlotTable

/-! # The map store and its transactions

`tools/merlin-txn/store.c`: a table of 64 maps with 256 slots each, named by handles that
are slot numbers, and transactions that stage operations and apply them one at a time at
commit.  Wall-clock times and the recorded drain flag are left out.
-/
namespace MerlinV

abbrev storeMaxMaps : ℕ := 64

abbrev storeMaxEntries : ℕ := 256

def txnMaxOps : ℕ := 4096

abbrev Entries := Lib.Table storeMaxEntries (BitVec 64) (BitVec 64)

def blankEntries : Entries := fun _ => ⟨false, 0, 0⟩

structure MerlinMap where
  handle : BitVec 32
  valid : Bool
  entries : Entries
  count : BitVec 32
  version : BitVec 32

/-- `g_maps` and `g_map_locked`. -/
structure Store where
  maps : Fin storeMaxMaps → MerlinMap
  locked : Fin storeMaxMaps → Bool

/-- The error codes of the store; a return value of zero is `none`. -/
inductive Errno where
  | einval | enospc | ebadf | ebusy | eexist | enoent
  deriving DecidableEq, Repr

namespace Store

def setMap (s : Store) (i : Fin storeMaxMaps) (m : MerlinMap) : Store :=
  { s with maps := Function.update s.maps i m }

@[simp] theorem setMap_locked (s : Store) (i : Fin storeMaxMaps) (m : MerlinMap) :
    (s.setMap i m).locked = s.locked := rfl

theorem setMap_maps (s : Store) (i j : Fin storeMaxMaps) (m : MerlinMap) :
    (s.setMap i m).maps j = if j = i then m else s.maps j := by
  simp [setMap, Function.update_apply]

@[simp] theorem setMap_self (s : Store) (i : Fin storeMaxMaps) : s.setMap i (s.maps i) = s := by
  simp [setMap]

end Store

/-- `merlin_store_init` on zeroed memory; a second call resets the maps and not the locks. -/
def merlinStoreInit : Store where
  maps i := ⟨BitVec.ofNat 32 (i + 1), false, blankEntries, 0, 0⟩
  locked _ := false

/-- `merlin_store_map_create`: the first invalid slot, or handle zero. -/
def merlinStoreMapCreate (s : Store) : Store × BitVec 32 :=
  match (List.finRange storeMaxMaps).find? fun i => !(s.maps i).valid with
  | some i =>
    (s.setMap i { s.maps i with valid := true, count := 0, version := 0, entries := blankEntries },
      (s.maps i).handle)
  | none => (s, 0)

def slotIndex? (handle : BitVec 32) : Option (Fin storeMaxMaps) :=
  if h : handle.toNat ≠ 0 ∧ handle.toNat ≤ storeMaxMaps then some ⟨handle.toNat - 1, by omega⟩ else none

/-- `merlin_store_map_destroy`: the entries and the version stay behind. -/
def merlinStoreMapDestroy (s : Store) (handle : BitVec 32) : Store :=
  match slotIndex? handle with
  | none => s
  | some i => s.setMap i { s.maps i with valid := false, count := 0 }

def findMap (s : Store) (handle : BitVec 32) : Option (Fin storeMaxMaps) :=
  match slotIndex? handle with
  | none => none
  | some i => if (s.maps i).valid then some i else none

section Reads

def merlinStoreLookup (s : Store) (handle : BitVec 32) (key : BitVec 64) : Option (BitVec 64) :=
  match findMap s handle with
  | none => none
  | some i => ((s.maps i).entries.slotOf key).map fun j => ((s.maps i).entries j).value

/-- The loop of `merlin_store_next` over the slots from `pos` on, with `fuel` slots left: the entry
it stops at and the new position. -/
def nextEntry (e : Entries) : ℕ → ℕ → Option (BitVec 64 × BitVec 64) × ℕ
  | 0, pos => (none, pos)
  | fuel + 1, pos =>
    if h : pos < storeMaxEntries then
      if (e ⟨pos, h⟩).used then (some ((e ⟨pos, h⟩).key, (e ⟨pos, h⟩).value), pos + 1)
      else nextEntry e fuel (pos + 1)
    else (none, pos)

def merlinStoreNext (s : Store) (handle : BitVec 32) (pos : ℕ) : Option (BitVec 64 × BitVec 64) × ℕ :=
  match findMap s handle with
  | none => (none, pos)
  | some i => nextEntry (s.maps i).entries storeMaxEntries pos

/-- The entries a caller of `merlin_store_next` sees who starts at `pos` and stops at the first
`false`. -/
def enumerateFrom (s : Store) (handle : BitVec 32) : ℕ → ℕ → List (BitVec 64 × BitVec 64)
  | 0, _ => []
  | fuel + 1, pos =>
    match merlinStoreNext s handle pos with
    | (none, _) => []
    | (some e, pos') => e :: enumerateFrom s handle fuel pos'

end Reads

section Mutations

def mapInsert (m : MerlinMap) (key val : BitVec 64) : MerlinMap × Option Errno :=
  match m.entries.slotOf key with
  | some _ => (m, some .eexist)
  | none =>
    match m.entries.free with
    | some i =>
      ({ m with entries := Function.update m.entries i ⟨true, key, val⟩, count := m.count + 1 }, none)
    | none => (m, some .enospc)

def mapUpdate (m : MerlinMap) (key val : BitVec 64) : MerlinMap × Option Errno :=
  match m.entries.slotOf key with
  | some i => ({ m with entries := Function.update m.entries i { m.entries i with value := val } }, none)
  | none => (m, some .enoent)

def mapUpsert (m : MerlinMap) (key val : BitVec 64) : MerlinMap × Option Errno :=
  match m.entries.slotOf key with
  | some i => ({ m with entries := Function.update m.entries i { m.entries i with value := val } }, none)
  | none => mapInsert m key val

def mapDelete (m : MerlinMap) (key : BitVec 64) : MerlinMap × Option Errno :=
  match m.entries.slotOf key with
  | some i =>
    ({ m with entries := Function.update m.entries i { m.entries i with used := false },
              count := m.count - 1 }, none)
  | none => (m, some .enoent)

/-- `map_replace_all` with the pairs `keys[i], vals[i]`. -/
def mapReplaceAll (m : MerlinMap) (pairs : List (BitVec 64 × BitVec 64)) : MerlinMap :=
  { m with
    entries := fun i => match pairs[i.val]? with
      | some (key, val) => ⟨true, key, val⟩
      | none => ⟨false, 0, 0⟩
    count := BitVec.ofNat 32 (min pairs.length storeMaxEntries) }

end Mutations

section Transactions

/-- `struct merlin_txn_op_v1`; `op` is an `enum merlin_txn_op_type` that nobody has checked. -/
structure TxnOp where
  mapHandle : BitVec 32
  op : BitVec 32
  key : BitVec 64
  value : BitVec 64
  deriving DecidableEq

/-- `struct merlin_txn`; the counters are the lengths of the two lists. -/
structure Txn where
  isOpen : Bool
  committed : Bool
  aborted : Bool
  nsId : BitVec 32
  ops : List TxnOp
  touched : List (BitVec 32)
  deriving DecidableEq

structure TxnStats where
  opsStaged : ℕ
  opsApplied : ℕ
  opsSkipped : ℕ
  conflictMapHandle : BitVec 32
  deriving DecidableEq

def merlinTxnBegin (nsId : BitVec 32) : Txn := ⟨true, false, false, nsId, [], []⟩

/-- The test with which `merlin_txn_stage` and `merlin_txn_commit` begin. -/
def Txn.live (t : Txn) : Bool := t.isOpen && !t.committed && !t.aborted

def merlinTxnStage (s : Store) (t : Txn) (handle op : BitVec 32) (key value : BitVec 64) :
    Txn × Option Errno :=
  if !t.live then (t, some .einval)
  else if t.ops.length ≥ txnMaxOps then (t, some .enospc)
  else if (findMap s handle).isNone then (t, some .ebadf)
  else
    ({ t with
      ops := t.ops ++ [⟨handle, op, key, value⟩]
      touched := if handle ∈ t.touched then t.touched
        else if t.touched.length < storeMaxMaps then t.touched ++ [handle] else t.touched }, none)

def merlinTxnAbort (t : Txn) : Txn := { t with isOpen := false, aborted := true }

/-- The `switch` of the commit loop: what an operation does to its map. -/
def applyOp (m : MerlinMap) (o : TxnOp) : MerlinMap × Option Errno :=
  match o.op.toNat with
  | 1 => mapInsert m o.key o.value
  | 2 => mapUpdate m o.key o.value
  | 3 => mapUpsert m o.key o.value
  | 4 => mapDelete m o.key
  | 5 => (mapReplaceAll m [(o.key, o.value)], none)
  | _ => (m, some .einval)

def commitLoop : List TxnOp → Store → ℕ → ℕ → Store × ℕ × ℕ × Option Errno
  | [], s, applied, skipped => (s, applied, skipped, none)
  | o :: os, s, applied, skipped =>
    match findMap s o.mapHandle with
    | none => (s, applied, skipped, some .ebadf)
    | some i =>
      match applyOp (s.maps i) o with
      | (m, none) =>
        commitLoop os (s.setMap i { m with version := m.version + 1 }) (applied + 1) skipped
      | (m, some .eexist) => commitLoop os (s.setMap i m) applied (skipped + 1)
      | (m, some .enoent) => commitLoop os (s.setMap i m) applied (skipped + 1)
      | (m, some e) => (s.setMap i m, applied, skipped, some e)

def setLocks (s : Store) (touched : List (BitVec 32)) (b : Bool) : Store :=
  touched.foldl (fun s h => match slotIndex? h with
    | some i => { s with locked := Function.update s.locked i b }
    | none => s) s

def txnFast : BitVec 32 := 2

structure CommitOut where
  store : Store
  txn : Txn
  stats : TxnStats
  rc : Option Errno

/-- The first touched map that another commit has locked. -/
def conflict? (s : Store) (touched : List (BitVec 32)) : Option (BitVec 32) :=
  touched.find? fun h => (slotIndex? h).any s.locked

def merlinTxnCommit (s : Store) (t : Txn) (flags : BitVec 32) (stats : TxnStats) : CommitOut :=
  if !t.live then ⟨s, t, stats, some .einval⟩
  else match (if flags &&& txnFast = 0 then conflict? s t.touched else none) with
    | some h => ⟨s, t, { stats with conflictMapHandle := h }, some .ebusy⟩
    | none =>
      let (s', applied, skipped, rc) := commitLoop t.ops (setLocks s t.touched true) 0 0
      ⟨setLocks s' t.touched false,
        if rc = none then { t with committed := true, isOpen := false }
        else { t with aborted := true, isOpen := false },
        ⟨t.ops.length, applied, skipped, 0⟩, rc⟩

end Transactions

section Calls

structure World where
  store : Store
  txns : ℕ → Option Txn

def World.init : World := ⟨merlinStoreInit, fun _ => none⟩

/-- The calls that change the store or a transaction; transactions are named by numbers. -/
inductive StoreCall where
  | storeInit
  | mapCreate
  | mapDestroy (handle : BitVec 32)
  | txnBegin (id : ℕ) (nsId : BitVec 32)
  | txnStage (id : ℕ) (handle op : BitVec 32) (key value : BitVec 64)
  | txnCommit (id : ℕ) (flags : BitVec 32)
  | txnAbort (id : ℕ)

/-- The statistics a caller passes in are overwritten or ignored. -/
def noStats : TxnStats := ⟨0, 0, 0, 0⟩

/-- The state after a call; a transaction has to have begun. -/
def World.call (w : World) : StoreCall → Option World
  | .storeInit => some { w with store := { merlinStoreInit with locked := w.store.locked } }
  | .mapCreate => some { w with store := (merlinStoreMapCreate w.store).1 }
  | .mapDestroy h => some { w with store := merlinStoreMapDestroy w.store h }
  | .txnBegin id ns => some { w with txns := Function.update w.txns id (some (merlinTxnBegin ns)) }
  | .txnStage id h op key value => (w.txns id).map fun t =>
      { w with txns := Function.update w.txns id (some (merlinTxnStage w.store t h op key value).1) }
  | .txnCommit id flags => (w.txns id).map fun t =>
      ⟨(merlinTxnCommit w.store t flags noStats).store,
        Function.update w.txns id (some (merlinTxnCommit w.store t flags noStats).txn)⟩
  | .txnAbort id => (w.txns id).map fun t =>
      { w with txns := Function.update w.txns id (some (merlinTxnAbort t)) }

def World.calls (w : World) : List StoreCall → Option World
  | [] => some w
  | c :: cs => (w.call c).bind fun w' => w'.calls cs

def World.Step (w w' : World) : Prop := ∃ c, w.call c = some w'

def World.Reached (w : World) : Prop := Relation.ReflTransGen World.Step World.init w

theorem World.reached_of_calls {w w' : World} (hw : w.Reached) {cs : List StoreCall}
    (h : w.calls cs = some w') : w'.Reached := by
  induction cs generalizing w with
  | nil =>
    cases h
    exact hw
  | cons c cs ih =>
    obtain ⟨w₁, hc, hcs⟩ := Option.bind_eq_some_iff.mp h
    exact ih (hw.tail ⟨c, hc⟩) hcs

end Calls

end MerlinV
