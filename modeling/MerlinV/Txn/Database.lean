import MerlinV.Txn.Atomicity
import MerlinV.Txn.Command
import MerlinV.Txn.Invariant

/-! # Scripts against an abstract database

What a script is for: a database of at most 64 finite maps and at most one list of pending operations, on which
each command is one step.  `run_script` prints what the database answers, and it stops for the reasons that the
database gives, for every list of lines whose words fit into the token array.
-/
namespace MerlinV

open Lib

/-- The live maps, and the operations of the open transaction. -/
structure Database where
  maps : Fin storeMaxMaps → Option MapFun
  pending : Option (List TxnOp)

namespace Database

def empty : Database := ⟨fun _ => none, none⟩

def live (D : Database) (i : Fin storeMaxMaps) : Bool := (D.maps i).isSome

def contents (D : Database) (i : Fin storeMaxMaps) : MapFun := (D.maps i).getD fun _ => none

def at? (D : Database) (h : BitVec 32) : Option MapFun := (slotIndex? h).bind D.maps

def freeMap (D : Database) : Option (Fin storeMaxMaps) :=
  (List.finRange storeMaxMaps).find? fun i => (D.maps i).isNone

def drop (D : Database) (h : BitVec 32) : Database :=
  { D with maps := fun i => if slotIndex? h = some i then none else D.maps i }

def applyOps (D : Database) (ops : List TxnOp) (i : Fin storeMaxMaps) : Option MapFun :=
  (D.maps i).map fun _ => ops.foldl storeOp D.contents i

structure Lists (f : Option MapFun) (entries : List (BitVec 64 × BitVec 64)) : Prop where
  mem : ∀ k v, (k, v) ∈ entries ↔ f.bind (· k) = some v
  nodup : (entries.map Prod.fst).Nodup

structure Tells (D : Database) (ops : List TxnOp) (st : TxnStats) : Prop where
  staged : st.opsStaged = ops.length
  applied : st.opsApplied = effectiveOps ops D.contents
  total : st.opsApplied + st.opsSkipped = st.opsStaged

/-- One command: the reply and the database after it. -/
inductive Step : Database → TxnCommand → TxnReply → Database → Prop where
  | mapCreate {D i} (hfree : D.freeMap = some i) :
      Step D .mapCreate (.mapCreate (BitVec.ofNat 32 (i.val + 1)))
        { D with maps := Function.update D.maps i (some fun _ => none) }
  | mapDestroy {D h} : Step D (.mapDestroy h) (.mapDestroy h) (D.drop h)
  | mapDump {D h n es} (hes : Lists (D.at? h) es) (hn : n = BitVec.ofNat 32 es.length) :
      Step D (.mapDump h) (.mapDump h n es) D
  | mapLookup {D h k} : Step D (.mapLookup h k) (.lookup k ((D.at? h).bind (· k))) D
  | txnBegin {D ns} (hno : D.pending = none) : Step D (.txnBegin ns) (.txnBegin ns) { D with pending := some [] }
  | txnStage {D h op code k v ops} (hops : D.pending = some ops) (hcode : parseOp op = some code)
      (hroom : ops.length < txnMaxOps) (hlive : (D.at? h).isSome = true) :
      Step D (.txnStage h op k v) (.txnStage h op k v) { D with pending := some (ops ++ [⟨h, code, k, v⟩]) }
  | txnCommit {D flags ops st} (hops : D.pending = some ops) (hok : NoneFails D.live ops D.contents)
      (hst : Tells D ops st) :
      Step D (.txnCommit flags) (.committed st (flags &&& txnDrainRcu != 0)) ⟨D.applyOps ops, none⟩
  | txnAbort {D} : Step D .txnAbort .txnAbort { D with pending := none }

inductive Dies : Database → TxnCommand → TxnDeath → Prop where
  | noSlots {D} (hfull : D.freeMap = none) : Dies D .mapCreate .noSlots
  | alreadyOpen {D ns ops} (hops : D.pending = some ops) : Dies D (.txnBegin ns) .alreadyOpen
  | stageNoTxn {D h op k v} (hno : D.pending = none) : Dies D (.txnStage h op k v) .stageNoTxn
  | unknownOp {D h op k v ops} (hops : D.pending = some ops) (hcode : parseOp op = none) :
      Dies D (.txnStage h op k v) (.unknownOp op)
  | tooMany {D h op k v ops code} (hops : D.pending = some ops) (hcode : parseOp op = some code)
      (hfull : ops.length = txnMaxOps) : Dies D (.txnStage h op k v) (.stageError .enospc txnMaxOps)
  | noMap {D h op k v ops code} (hops : D.pending = some ops) (hcode : parseOp op = some code)
      (hroom : ops.length < txnMaxOps) (hdead : D.at? h = none) :
      Dies D (.txnStage h op k v) (.stageError .ebadf ops.length)
  | commitNoTxn {D flags} (hno : D.pending = none) : Dies D (.txnCommit flags) .commitNoTxn
  | commitError {D flags ops e} (hops : D.pending = some ops) (hfails : ¬ NoneFails D.live ops D.contents)
      (he : e ≠ .ebusy) : Dies D (.txnCommit flags) (.commitError e)

/-- A script behind `lineno` lines: the replies and the reason for which it stops. -/
inductive Runs : ℕ → Database → List (List Bytes) → List TxnReply → ScriptStop → Prop where
  | eof {n D} : Runs n D [] [] .eof
  | blank {n D lines rs stop} (h : Runs (n + 1) D lines rs stop) : Runs n D ([] :: lines) rs stop
  | step {n D D' toks lines r rs stop} (hne : toks ≠ []) (hstep : Step D (readCommand toks) r D')
      (h : Runs (n + 1) D' lines rs stop) : Runs n D (toks :: lines) (r :: rs) stop
  | dies {n D toks lines d} (hne : toks ≠ []) (hdies : Dies D (readCommand toks) d) :
      Runs n D (toks :: lines) [] (.died d)
  | unknown {n D toks lines name} (hne : toks ≠ []) (hname : readCommand toks = .unknown name) :
      Runs n D (toks :: lines) [] (.failed (n + 1) 1)

end Database

section Represents

/-- A map has as many entries to list as it has slots in use. -/
theorem length_usedFrom (e : Entries) : (usedFrom e 0).length = e.usedCount := by
  rw [usedFrom, List.drop_zero, List.length_filterMap_eq_countP, List.countP_eq_length_filter]
  have hp : (fun i => (if (e i).used then some ((e i).key, (e i).value) else none).isSome) = fun i => (e i).used := by
    funext i
    split_ifs with hused
    · exact hused.symm
    · exact (Bool.eq_false_of_not_eq_true hused).symm
  have hcard : e.usedCount = ((List.finRange storeMaxEntries).filter fun i => decide ((e i).used = true)).length := rfl
  rw [hp, hcard]
  simp only [Bool.decide_eq_true]

/-- The tool holds the database `D`: its store and its transaction are those of a run of the store. -/
structure Represents (c : TxnCli) (D : Database) : Prop where
  reached : ∃ w : World, w.Reached ∧ w.store = c.store ∧ (c.active = true → w.txns 0 = some c.txn)
  maps : ∀ i, D.maps i = if (c.store.maps i).valid then some (c.store.contents i) else none
  handles : ∀ i, (c.store.maps i).handle = BitVec.ofNat 32 (i.val + 1)
  pending : D.pending = if c.active then some c.txn.ops else none
  isLive : c.active = true → c.txn.live = true

variable {c : TxnCli} {D : Database} {h : BitVec 32} {i : Fin storeMaxMaps}

theorem represents_init : Represents .init .empty := by
  refine ⟨⟨World.init, .refl, rfl, fun h => ?_⟩, fun i => rfl, fun i => rfl, rfl, fun h => ?_⟩
  · cases h
  · cases h

namespace Represents

theorem live_eq (hR : Represents c D) : D.live = c.store.live := by
  funext i
  rw [Database.live, hR.maps i, Store.live]
  cases (c.store.maps i).valid <;> rfl

/-- The database and the store agree on the live maps. -/
theorem contents_eq (hR : Represents c D) (hi : c.store.live i = true) : D.contents i = c.store.contents i := by
  have hvalid : (c.store.maps i).valid = true := hi
  rw [Database.contents, hR.maps i, if_pos hvalid]
  rfl

theorem at_eq (hR : Represents c D) (h : BitVec 32) : D.at? h = (findMap c.store h).map c.store.contents := by
  unfold Database.at? findMap
  cases slotIndex? h with
  | none => rfl
  | some i =>
    rw [Option.bind_some, hR.maps i]
    dsimp only
    split_ifs <;> rfl

theorem free_eq (hR : Represents c D) :
    D.freeMap = (List.finRange storeMaxMaps).find? fun i => !(c.store.maps i).valid := by
  unfold Database.freeMap
  congr 1
  funext i
  rw [hR.maps i]
  cases (c.store.maps i).valid <;> rfl

theorem invariant (hR : Represents c D) : c.store.Unique ∧ c.store.Unlocked ∧ c.store.Counted := by
  obtain ⟨w, hw, hstore, -⟩ := hR.reached
  have hrep := hw.represented
  rw [← hstore]
  exact ⟨hrep.unique, hrep.unlocked, hrep.counted⟩

theorem pending_some (hR : Represents c D) (hact : c.active = true) : D.pending = some c.txn.ops := by
  rw [hR.pending, if_pos hact]

theorem pending_none (hR : Represents c D) (hact : ¬ c.active = true) : D.pending = none := by
  rw [hR.pending, if_neg hact]

theorem dump (hR : Represents c D) (h : BitVec 32) : Database.Lists (D.at? h) (dumpEntries c.store h) ∧
    merlinStoreCount c.store h = BitVec.ofNat 32 (dumpEntries c.store h).length := by
  obtain ⟨hu, -, hcount⟩ := hR.invariant
  rw [hR.at_eq h]
  cases hf : findMap c.store h with
  | none =>
    have hnil : dumpEntries c.store h = [] := by
      rw [dumpEntries, enumerateFrom, merlinStoreNext, hf]
    rw [hnil, merlinStoreCount, hf]
    exact ⟨⟨fun k v => by simp, List.nodup_nil⟩, rfl⟩
  | some i =>
    have hreads := readsAs_contents hu hf
    refine ⟨⟨hreads.next _ (Nat.lt_succ_self _), hreads.nodup _ (Nat.lt_succ_self _)⟩, ?_⟩
    have hlen : (dumpEntries c.store h).length = (c.store.maps i).count.toNat := by
      rw [hcount i (findMap_eq_some.mp hf).2, dumpEntries, enumerateFrom_eq hf _ 0 (by omega)]
      exact length_usedFrom _
    rw [merlinStoreCount, hf, hlen, BitVec.ofNat_toNat, BitVec.setWidth_eq]

end Represents

/-- What a command does, against the database. -/
def Follows (D : Database) (cmd : TxnCommand) : CommandEnd → Prop
  | .returns 0 c' (some r) => ∃ D', D.Step cmd r D' ∧ Represents c' D'
  | .returns rc _ reply => rc = 1 ∧ reply = none ∧ ∃ name, cmd = .unknown name
  | .dies d => D.Dies cmd d

theorem contents_blankEntries : Table.contents blankEntries = fun _ => none := by
  funext k
  rw [Table.contents_eq_none, Table.slotOf_eq_none]
  intro i hused
  cases hused

theorem handle_ne_zero (i : Fin storeMaxMaps) : ¬ BitVec.ofNat 32 (i.val + 1) = 0 := by
  have hi : i.val < 64 := i.isLt
  intro hzero
  have hval := congrArg BitVec.toNat hzero
  rw [BitVec.toNat_ofNat] at hval
  change (i.val + 1) % 2 ^ 32 = 0 at hval
  omega

theorem exec_mapCreate (hR : Represents c D) : Follows D .mapCreate (c.exec .mapCreate) := by
  obtain ⟨w, hw, hstore, htxn⟩ := hR.reached
  have hfree := hR.free_eq
  rw [TxnCli.exec]
  cases hfind : (List.finRange storeMaxMaps).find? fun i => !(c.store.maps i).valid with
  | none =>
    rw [hfind] at hfree
    rw [merlinStoreMapCreate, hfind]
    exact .noSlots hfree
  | some i =>
    rw [hfind] at hfree
    have hcreate : merlinStoreMapCreate c.store = (c.store.setMap i
        { c.store.maps i with valid := true, count := 0, version := 0, entries := blankEntries },
        BitVec.ofNat 32 (i.val + 1)) := by
      rw [merlinStoreMapCreate, hfind]
      dsimp only
      rw [hR.handles i]
    rw [hcreate]
    dsimp only
    rw [if_neg (handle_ne_zero i)]
    refine ⟨_, .mapCreate hfree, ⟨_, hw.tail ⟨.mapCreate, rfl⟩, ?_, htxn⟩, fun j => ?_, fun j => ?_, hR.pending,
      hR.isLive⟩
    · dsimp only
      rw [hstore, hcreate]
    · rw [Store.contents, Store.setMap_maps]
      change Function.update D.maps i (some fun _ => none) j = _
      by_cases hj : j = i
      · subst hj
        rw [if_pos rfl, Function.update_self, if_pos rfl]
        exact congrArg some contents_blankEntries.symm
      · rw [if_neg hj, Function.update_of_ne hj, hR.maps j]
        rfl
    · rw [Store.setMap_maps]
      by_cases hj : j = i
      · rw [if_pos hj, hj]
        exact hR.handles i
      · rw [if_neg hj, hR.handles j]

theorem exec_mapDestroy (hR : Represents c D) (h : BitVec 32) :
    Follows D (.mapDestroy h) (c.exec (.mapDestroy h)) := by
  obtain ⟨w, hw, hstore, htxn⟩ := hR.reached
  have hmap : ∀ j, (merlinStoreMapDestroy c.store h).maps j =
      if slotIndex? h = some j then { c.store.maps j with valid := false, count := 0 } else c.store.maps j := by
    intro j
    unfold merlinStoreMapDestroy
    cases slotIndex? h with
    | none => rfl
    | some i =>
      dsimp only
      rw [Store.setMap_maps]
      by_cases hj : j = i
      · rw [if_pos hj, hj, if_pos rfl]
      · rw [if_neg hj, if_neg fun hi => hj (Option.some.inj hi).symm]
  refine ⟨_, .mapDestroy, ⟨_, hw.tail ⟨.mapDestroy h, rfl⟩, ?_, htxn⟩, fun j => ?_, fun j => ?_, hR.pending, hR.isLive⟩
  · dsimp only
    rw [hstore]
  · rw [Store.contents, hmap j]
    change (if slotIndex? h = some j then none else D.maps j) = _
    by_cases hj : slotIndex? h = some j
    · rw [if_pos hj, if_pos hj]
      rfl
    · rw [if_neg hj, if_neg hj]
      exact hR.maps j
  · rw [hmap j]
    split_ifs <;> exact hR.handles j

theorem exec_reads (hR : Represents c D) (h : BitVec 32) (k : BitVec 64) :
    Follows D (.mapDump h) (c.exec (.mapDump h)) ∧ Follows D (.mapLookup h k) (c.exec (.mapLookup h k)) := by
  obtain ⟨hlists, hcount⟩ := hR.dump h
  have hlookup : merlinStoreLookup c.store h k = (D.at? h).bind (· k) := by
    rw [hR.at_eq h, merlinStoreLookup]
    cases findMap c.store h <;> rfl
  refine ⟨⟨D, .mapDump hlists hcount, hR⟩, D, ?_, hR⟩
  rw [hlookup]
  exact .mapLookup

theorem exec_txnBegin (hR : Represents c D) (ns : BitVec 32) :
    Follows D (.txnBegin ns) (c.exec (.txnBegin ns)) := by
  obtain ⟨w, hw, hstore, -⟩ := hR.reached
  rw [TxnCli.exec]
  by_cases hact : c.active = true
  · rw [if_pos hact]
    exact .alreadyOpen (hR.pending_some hact)
  · rw [if_neg hact]
    refine ⟨_, .txnBegin (hR.pending_none hact), ⟨_, hw.tail ⟨.txnBegin 0 ns, rfl⟩, hstore, fun _ => ?_⟩, hR.maps,
      hR.handles, rfl, fun _ => rfl⟩
    change Function.update w.txns 0 (some (merlinTxnBegin ns)) 0 = some (merlinTxnBegin ns)
    rw [Function.update_self]

theorem exec_txnAbort (hR : Represents c D) : Follows D .txnAbort (c.exec .txnAbort) := by
  obtain ⟨w, hw, hstore, -⟩ := hR.reached
  rw [TxnCli.exec]
  refine ⟨_, .txnAbort, ?_⟩
  by_cases hact : c.active = true
  · rw [if_pos hact]
    exact ⟨⟨w, hw, hstore, nofun⟩, hR.maps, hR.handles, rfl, nofun⟩
  · rw [if_neg hact]
    have hsame : ({ D with pending := none } : Database) = D := by
      rw [← hR.pending_none hact]
    rw [hsame]
    exact hR

theorem merlinTxnStage_cases {s : Store} {t : Txn} (hlive : t.live = true) (h op : BitVec 32) (k v : BitVec 64) :
    (t.ops.length ≥ txnMaxOps ∧ merlinTxnStage s t h op k v = (t, some .enospc)) ∨
    (t.ops.length < txnMaxOps ∧ findMap s h = none ∧ merlinTxnStage s t h op k v = (t, some .ebadf)) ∨
    (t.ops.length < txnMaxOps ∧ (findMap s h).isSome = true ∧ ∃ t', merlinTxnStage s t h op k v = (t', none) ∧
      t'.ops = t.ops ++ [⟨h, op, k, v⟩] ∧ t'.live = true) := by
  unfold merlinTxnStage
  rw [if_neg (by simp [hlive])]
  by_cases hfull : t.ops.length ≥ txnMaxOps
  · exact .inl ⟨hfull, if_pos hfull⟩
  rw [if_neg hfull]
  cases hf : findMap s h with
  | none => exact .inr (.inl ⟨not_le.mp hfull, rfl, rfl⟩)
  | some i => exact .inr (.inr ⟨not_le.mp hfull, rfl, _, rfl, rfl, hlive⟩)

theorem exec_txnStage (hR : Represents c D) (h : BitVec 32) (op : Bytes) (k v : BitVec 64) :
    Follows D (.txnStage h op k v) (c.exec (.txnStage h op k v)) := by
  obtain ⟨w, hw, hstore, htxn⟩ := hR.reached
  rw [TxnCli.exec]
  by_cases hact : c.active = true
  swap
  · rw [if_pos (by simpa using hact)]
    exact .stageNoTxn (hR.pending_none hact)
  have hops := hR.pending_some hact
  have hbound := (hw.ok.tracked 0 c.txn (htxn hact)).bounded
  have hat := hR.at_eq h
  rw [if_neg (by simpa using hact), TxnCli.stage]
  cases hcode : parseOp op with
  | none => exact .unknownOp hops hcode
  | some code =>
    dsimp only
    rcases @merlinTxnStage_cases c.store c.txn (hR.isLive hact) h code k v with
      ⟨hfull, hstage⟩ | ⟨hroom, hf, hstage⟩ | ⟨hroom, hf, t', hstage, hops', hlive'⟩
    · have hlen : c.txn.ops.length = txnMaxOps := le_antisymm hbound hfull
      rw [hstage]
      change Database.Dies D _ (.stageError .enospc c.txn.ops.length)
      rw [hlen]
      exact .tooMany hops hcode hlen
    · rw [hf] at hat
      rw [hstage]
      exact .noMap hops hcode hroom hat
    · obtain ⟨i, hi⟩ := Option.isSome_iff_exists.mp hf
      rw [hi] at hat
      rw [hstage]
      have hcall : w.call (.txnStage 0 h code k v) = some { w with
          txns := Function.update w.txns 0 (some (merlinTxnStage w.store c.txn h code k v).1) } := by
        rw [World.call, htxn hact]
        rfl
      refine ⟨_, .txnStage hops hcode hroom (by rw [hat]; rfl), ⟨_, hw.tail ⟨_, hcall⟩, hstore, fun _ => ?_⟩,
        hR.maps, hR.handles, ?_, fun _ => hlive'⟩
      · change Function.update w.txns 0 (some (merlinTxnStage w.store c.txn h code k v).1) 0 = some t'
        rw [Function.update_self, hstore, hstage]
      · change some (c.txn.ops ++ _) = if c.active then some t'.ops else none
        rw [if_pos hact, hops']

/-- The operations of a commit see the live maps only. -/
theorem opFails_congr {live : Fin storeMaxMaps → Bool} {A B : Fin storeMaxMaps → MapFun}
    (h : ∀ i, live i = true → A i = B i) (o : TxnOp) : OpFails live A o ↔ OpFails live B o := by
  unfold OpFails
  cases slotIndex? o.mapHandle with
  | none => exact Iff.rfl
  | some i =>
    dsimp only
    cases hi : live i with
    | false => simp
    | true => rw [h i hi]

theorem storeOp_congr {live : Fin storeMaxMaps → Bool} {A B : Fin storeMaxMaps → MapFun}
    (h : ∀ i, live i = true → A i = B i) (o : TxnOp) : ∀ i, live i = true → storeOp A o i = storeOp B o i :=
  fun i hi => foldl_storeOp_congr (h i hi) [o]

theorem noneFails_congr {live : Fin storeMaxMaps → Bool} {A B : Fin storeMaxMaps → MapFun}
    (h : ∀ i, live i = true → A i = B i) (os : List TxnOp) : NoneFails live os A ↔ NoneFails live os B := by
  induction os generalizing A B with
  | nil => exact Iff.rfl
  | cons o os ih =>
    rw [NoneFails, NoneFails, opFails_congr h o, ih (storeOp_congr h o)]

theorem effectiveOps_congr {live : Fin storeMaxMaps → Bool} {A B : Fin storeMaxMaps → MapFun}
    (h : ∀ i, live i = true → A i = B i) {os : List TxnOp} (hok : NoneFails live os A) :
    effectiveOps os A = effectiveOps os B := by
  induction os generalizing A B with
  | nil => rfl
  | cons o os ih =>
    obtain ⟨hno, hrest⟩ := hok
    have hsame : (∃ i, slotIndex? o.mapHandle = some i ∧ Effective o (A i)) ↔
        ∃ i, slotIndex? o.mapHandle = some i ∧ Effective o (B i) := by
      apply exists_congr
      intro i
      apply and_congr_right
      intro hi
      -- an operation that does not fail names a live map
      have hlive : live i = true := by
        by_contra hdead
        apply hno
        rw [OpFails, hi]
        exact .inl (Bool.eq_false_of_not_eq_true hdead)
      rw [h i hlive]
    rw [effectiveOps, effectiveOps, ih (storeOp_congr h o) hrest]
    simp only [hsame]

theorem applyOp_handle (m : MerlinMap) (o : TxnOp) : (applyOp m o).1.handle = m.handle := by
  have hinsert : ∀ k v, (mapInsert m k v).1.handle = m.handle := by
    intro k v
    unfold mapInsert
    split
    · rfl
    · split <;> rfl
  unfold applyOp
  split
  · exact hinsert _ _
  · unfold mapUpdate
    split <;> rfl
  · unfold mapUpsert
    split
    · rfl
    · exact hinsert _ _
  · unfold mapDelete
    split <;> rfl
  · rfl
  · rfl

theorem commitLoop_handle (s : Store) (os : List TxnOp) (a k : ℕ) (j : Fin storeMaxMaps) :
    ((commitLoop os s a k).1.maps j).handle = (s.maps j).handle := by
  induction os generalizing s a k with
  | nil => rfl
  | cons o os ih =>
    rw [commitLoop]
    cases hf : findMap s o.mapHandle with
    | none => rfl
    | some i =>
      have hhandle := applyOp_handle (s.maps i) o
      have hset : ∀ m : MerlinMap, m.handle = (s.maps i).handle → ((s.setMap i m).maps j).handle = (s.maps j).handle := by
        intro m hm
        rw [Store.setMap_maps]
        split_ifs with hj
        · rw [hm, hj]
        · rfl
      dsimp only
      generalize applyOp (s.maps i) o = r at hhandle ⊢
      rcases r with ⟨m, _ | e⟩
      · exact (ih _ _ _).trans (hset _ hhandle)
      · cases e
        case eexist => exact (ih _ _ _).trans (hset _ hhandle)
        case enoent => exact (ih _ _ _).trans (hset _ hhandle)
        all_goals exact hset _ hhandle

theorem exec_txnCommit (hR : Represents c D) (flags : BitVec 32) :
    Follows D (.txnCommit flags) (c.exec (.txnCommit flags)) := by
  obtain ⟨w, hw, hstore, htxn⟩ := hR.reached
  obtain ⟨hu, hl, -⟩ := hR.invariant
  rw [TxnCli.exec]
  by_cases hact : c.active = true
  swap
  · rw [if_pos (by simpa using hact)]
    exact .commitNoTxn (hR.pending_none hact)
  have hops := hR.pending_some hact
  have hagree : ∀ i, D.live i = true → D.contents i = c.store.contents i := by
    intro i hi
    rw [hR.live_eq] at hi
    exact hR.contents_eq hi
  have houtcome := (hw.ok.commit_outcome (htxn hact) (hR.isLive hact) flags noStats).1
  rw [hstore, ← hR.live_eq, ← noneFails_congr hagree] at houtcome
  have hbusy := @merlinTxnCommit_ne_ebusy c.store c.txn hu hl flags noStats
  rw [if_neg (by simpa using hact), TxnCli.commit]
  cases hrc : (merlinTxnCommit c.store c.txn flags noStats).rc with
  | some e =>
    rw [hrc] at houtcome hbusy
    have hfails : ¬ NoneFails D.live c.txn.ops D.contents := fun hok => Option.some_ne_none e (houtcome.mpr hok)
    have he : e ≠ .ebusy := fun h => hbusy (congrArg some h)
    cases e with
    | ebusy => exact absurd rfl he
    | einval => exact .commitError hops hfails he
    | enospc => exact .commitError hops hfails he
    | ebadf => exact .commitError hops hfails he
    | eexist => exact .commitError hops hfails he
    | enoent => exact .commitError hops hfails he
  | none =>
    rw [hrc] at houtcome
    have hok := houtcome.mp rfl
    have hrefines := @commitRefines_of_ok c.store c.txn hu hl flags noStats hrc
    have hvalid := merlinTxnCommit_valid hu hl c.txn flags noStats
    refine ⟨⟨D.applyOps c.txn.ops, none⟩, .txnCommit hops hok ⟨hrefines.staged, ?_, hrefines.total⟩,
      ⟨_, hw.tail ⟨.txnCommit 0 flags, by rw [World.call, htxn hact]; rfl⟩, by rw [hstore], nofun⟩, fun i => ?_,
      fun i => ?_, rfl, nofun⟩
    · rw [hrefines.applied, effectiveOps_congr hagree hok]
    · rw [hvalid i, hrefines.contents]
      change (D.maps i).map _ = _
      rw [hR.maps i]
      by_cases hi : (c.store.maps i).valid = true
      · rw [if_pos hi, if_pos hi, Option.map_some, foldl_storeOp_congr (hR.contents_eq hi)]
      · rw [if_neg hi, if_neg hi]
        rfl
    · dsimp only
      rw [(merlinTxnCommit_eq hl hu (hR.isLive hact) flags noStats).1, commitLoop_handle, hR.handles i]

/-- Every command does what the database does. -/
theorem exec_follows (hR : Represents c D) (cmd : TxnCommand) : Follows D cmd (c.exec cmd) := by
  cases cmd with
  | mapCreate => exact exec_mapCreate hR
  | mapDestroy h => exact exec_mapDestroy hR h
  | mapDump h => exact (exec_reads hR h 0).1
  | mapLookup h k => exact (exec_reads hR h k).2
  | txnBegin ns => exact exec_txnBegin hR ns
  | txnStage h op k v => exact exec_txnStage hR h op k v
  | txnCommit flags => exact exec_txnCommit hR flags
  | txnAbort => exact exec_txnAbort hR
  | unknown name => exact ⟨rfl, rfl, name, rfl⟩

end Represents

section Scripts

variable {c : TxnCli} {D : Database}

def LineBuffer.words (L : LineBuffer) : List Bytes := runs isBlank L.line

theorem lineTokens_eq (L : LineBuffer) :
    lineTokens L = if L.words.length ≤ scriptMaxToks then some L.words else none := by
  obtain ⟨buf, toks, htok, -, hholds⟩ := tokenize_bytes L
  have hmap := (HoldsToken.tokens hholds).1
  have hlen : toks.length = L.words.length := by
    rw [LineBuffer.words, ← hmap, List.length_map]
  rw [lineTokens, htok, Option.bind_some, hlen, LineBuffer.words, hmap]

/-- A script that has no line with too many words is a run of the database: its replies are the answers of the
database, and it stops where and why the database does. -/
theorem runScript_runs (hR : Represents c D) (n : ℕ) {lines : List LineBuffer}
    (hfit : ∀ L ∈ lines, L.words.length ≤ scriptMaxToks) :
    D.Runs n (lines.map LineBuffer.words) (runScript n c lines).1 (runScript n c lines).2 := by
  induction lines generalizing n c D with
  | nil => exact .eof
  | cons L lines ih =>
    obtain ⟨hL, hlines⟩ := List.forall_mem_cons.mp hfit
    rw [runScript, lineTokens_eq, if_pos hL, List.map_cons]
    dsimp only
    by_cases hne : L.words = []
    · rw [hne, execCmd, if_pos (by decide)]
      exact .blank (ih hR (n + 1) hlines)
    have hlen : ¬ L.words.length < 1 := by
      rw [Nat.lt_one_iff, List.length_eq_zero_iff]
      exact hne
    rw [execCmd, if_neg hlen]
    have hfollows := exec_follows hR (readCommand L.words)
    generalize c.exec (readCommand L.words) = out at hfollows ⊢
    rcases out with ⟨rc, c', reply⟩ | d
    · rcases rc with _ | rc
      · rcases reply with _ | r
        · obtain ⟨hrc, -⟩ := hfollows
          cases hrc
        · obtain ⟨D', hstep, hR'⟩ := hfollows
          exact .step hne hstep (ih hR' (n + 1) hlines)
      · obtain ⟨hrc, rfl, name, hname⟩ := hfollows
        obtain rfl : rc = 0 := Nat.succ.inj hrc
        exact .unknown hne hname
    · exact .dies hne hfollows

/-- `merlin-txn script` on any lines: the whole output is that of a database that starts empty. -/
theorem runScript_refines (lines : List LineBuffer) (hfit : ∀ L ∈ lines, L.words.length ≤ scriptMaxToks) :
    Database.empty.Runs 0 (lines.map LineBuffer.words) (runScript 0 .init lines).1 (runScript 0 .init lines).2 :=
  runScript_runs represents_init 0 hfit

def lineOf (bs : Bytes) (h : bs.length ≤ 511) : LineBuffer where
  chars := bs
  rest := List.replicate (511 - bs.length) 0
  fits := by
    rw [List.length_replicate]
    omega

/-- A map, a transaction with a comment behind it, and the map after it. -/
def sampleScript : List LineBuffer :=
  [lineOf (ascii "map-create\n") (by decide), lineOf (ascii "# nothing here\n") (by decide),
    lineOf (ascii "txn-begin 3\n") (by decide), lineOf (ascii "txn-stage 1 upsert 0x7 010 # eight\n") (by decide),
    lineOf (ascii "txn-stage 1 delete 9\n") (by decide), lineOf (ascii "txn-commit\n") (by decide),
    lineOf (ascii "map-dump 1\n") (by decide), lineOf (ascii "map-destroy\n") (by decide)]

theorem runScript_refines_sample : Database.empty.Runs 0 (sampleScript.map LineBuffer.words)
    [.mapCreate 1, .txnBegin 3, .txnStage 1 (ascii "upsert") 7 8, .txnStage 1 (ascii "delete") 9 0,
      .committed ⟨2, 1, 1, 0⟩ true, .mapDump 1 1 [(7, 8)]] (.failed 8 1) := by
  have hrun : runScript 0 .init sampleScript = ([.mapCreate 1, .txnBegin 3, .txnStage 1 (ascii "upsert") 7 8,
      .txnStage 1 (ascii "delete") 9 0, .committed ⟨2, 1, 1, 0⟩ true, .mapDump 1 1 [(7, 8)]], .failed 8 1) := by
    decide +kernel
  have hruns := runScript_refines sampleScript (by decide +kernel)
  rw [hrun] at hruns
  exact hruns

end Scripts

end MerlinV
