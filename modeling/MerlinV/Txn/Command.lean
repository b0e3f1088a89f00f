import MerlinV.Lib.Numerals
import MerlinV.Txn.Script
import MerlinV.Txn.Store

/-! # The commands of a transaction script

`exec_cmd` and `run_script` of `tools/merlin-txn/merlin-txn.c`: one store and one transaction for the whole
script, a reply for each command, and an end at the first command that fails.  A reply holds what the line on
`stdout` shows, but for the time a commit took; `g_last_map` is written and never read.
-/
namespace MerlinV

open Lib

structure TxnCli where
  store : Store
  txn : Txn
  active : Bool

def TxnCli.init : TxnCli := ⟨merlinStoreInit, ⟨false, false, false, 0, [], []⟩, false⟩

inductive TxnReply where
  | mapCreate (handle : BitVec 32)
  | mapDestroy (handle : BitVec 32)
  | mapDump (handle count : BitVec 32) (entries : List (BitVec 64 × BitVec 64))
  | lookup (key : BitVec 64) (value : Option (BitVec 64))
  | txnBegin (nsId : BitVec 32)
  | txnStage (handle : BitVec 32) (op : Bytes) (key value : BitVec 64)
  | conflict (handle : BitVec 32)
  | committed (stats : TxnStats) (drain : Bool)
  | txnAbort
  deriving DecidableEq

/-- The calls of `die`. -/
inductive TxnDeath where
  | noSlots
  | unknownOp (op : Bytes)
  | alreadyOpen
  | stageNoTxn
  | stageError (e : Errno) (staged : ℕ)
  | commitNoTxn
  | commitError (e : Errno)
  deriving DecidableEq

section Commands

inductive TxnCommand where
  | mapCreate
  | mapDestroy (handle : BitVec 32)
  | mapDump (handle : BitVec 32)
  | mapLookup (handle : BitVec 32) (key : BitVec 64)
  | txnBegin (nsId : BitVec 32)
  | txnStage (handle : BitVec 32) (op : Bytes) (key value : BitVec 64)
  | txnCommit (flags : BitVec 32)
  | txnAbort
  | unknown (name : Bytes)
  deriving DecidableEq

def txnDrainRcu : BitVec 32 := 1

/-- The tests of `exec_cmd` on the words of a command line; a known name with too few words is unknown. -/
def readCommand (argv : List Bytes) : TxnCommand :=
  let cmd := argv.getD 0 []
  let argc := argv.length
  let handle := (strtoul (argv.getD 1 [])).1.setWidth 32
  if cmd = ascii "map-create" then .mapCreate
  else if cmd = ascii "map-destroy" ∧ argc ≥ 2 then .mapDestroy handle
  else if cmd = ascii "map-dump" ∧ argc ≥ 2 then .mapDump handle
  else if cmd = ascii "map-lookup" ∧ argc ≥ 3 then .mapLookup handle (strtoul (argv.getD 2 [])).1
  else if cmd = ascii "txn-begin" then .txnBegin (if argc ≥ 2 then handle else 0)
  else if cmd = ascii "txn-stage" ∧ argc ≥ 4 then
    .txnStage handle (argv.getD 2 []) (strtoul (argv.getD 3 [])).1
      (if argc ≥ 5 then (strtoul (argv.getD 4 [])).1 else 0)
  else if cmd = ascii "txn-commit" then
    .txnCommit (if argc ≥ 2 ∧ argv.getD 1 [] = ascii "fast" then txnFast else txnDrainRcu)
  else if cmd = ascii "txn-abort" then .txnAbort
  else .unknown cmd

def parseOp (s : Bytes) : Option (BitVec 32) :=
  if s = ascii "insert" then some 1
  else if s = ascii "update" then some 2
  else if s = ascii "upsert" then some 3
  else if s = ascii "delete" then some 4
  else if s = ascii "replace-all" then some 5
  else none

/-- How a command ends: it returns a code, or the process exits. -/
inductive CommandEnd where
  | returns (rc : ℕ) (cli : TxnCli) (reply : Option TxnReply)
  | dies (d : TxnDeath)

def merlinStoreCount (s : Store) (handle : BitVec 32) : BitVec 32 :=
  match findMap s handle with
  | some i => (s.maps i).count
  | none => 0

/-- The entries that the loop of `map-dump` prints; a call of `merlin_store_next` takes at least one slot. -/
def dumpEntries (s : Store) (handle : BitVec 32) : List (BitVec 64 × BitVec 64) :=
  enumerateFrom s handle (storeMaxEntries + 1) 0

def TxnCli.stage (c : TxnCli) (handle : BitVec 32) (op : Bytes) (key value : BitVec 64) : CommandEnd :=
  match parseOp op with
  | none => .dies (.unknownOp op)
  | some code =>
    match merlinTxnStage c.store c.txn handle code key value with
    | (t, some e) => .dies (.stageError e t.ops.length)
    | (t, none) => .returns 0 { c with txn := t } (some (.txnStage handle op key value))

def TxnCli.commit (c : TxnCli) (flags : BitVec 32) : CommandEnd :=
  let out := merlinTxnCommit c.store c.txn flags noStats
  let c' : TxnCli := ⟨out.store, out.txn, false⟩
  match out.rc with
  | some .ebusy => .returns 2 c' (some (.conflict out.stats.conflictMapHandle))
  | some e => .dies (.commitError e)
  | none => .returns 0 c' (some (.committed out.stats (flags &&& txnDrainRcu != 0)))

def TxnCli.exec (c : TxnCli) : TxnCommand → CommandEnd
  | .mapCreate =>
    let (s, h) := merlinStoreMapCreate c.store
    if h = 0 then .dies .noSlots else .returns 0 { c with store := s } (some (.mapCreate h))
  | .mapDestroy h => .returns 0 { c with store := merlinStoreMapDestroy c.store h } (some (.mapDestroy h))
  | .mapDump h => .returns 0 c (some (.mapDump h (merlinStoreCount c.store h) (dumpEntries c.store h)))
  | .mapLookup h k => .returns 0 c (some (.lookup k (merlinStoreLookup c.store h k)))
  | .txnBegin ns =>
    if c.active then .dies .alreadyOpen
    else .returns 0 { c with txn := merlinTxnBegin ns, active := true } (some (.txnBegin ns))
  | .txnStage h op k v => if !c.active then .dies .stageNoTxn else c.stage h op k v
  | .txnCommit flags => if !c.active then .dies .commitNoTxn else c.commit flags
  | .txnAbort =>
    .returns 0 (if c.active then { c with txn := merlinTxnAbort c.txn, active := false } else c) (some .txnAbort)
  | .unknown _ => .returns 1 c none

def execCmd (c : TxnCli) (argv : List Bytes) : CommandEnd :=
  if argv.length < 1 then .returns 0 c none else c.exec (readCommand argv)

end Commands

section Scripts

/-- How a script ends: at its end, at a command that returned an error, with `die`, or in the token array of a
line that has too many words for it. -/
inductive ScriptStop where
  | eof
  | failed (lineno rc : ℕ)
  | died (d : TxnDeath)
  | overrun (lineno : ℕ)
  deriving DecidableEq

def lineTokens (L : LineBuffer) : Option (List Bytes) :=
  (tokenize L.bytes).bind fun r => if r.2.length ≤ scriptMaxToks then some (r.2.map (cString r.1)) else none

/-- The loop of `run_script` over the lines that `fgets` returns, behind `lineno` of them. -/
def runScript : ℕ → TxnCli → List LineBuffer → List TxnReply × ScriptStop
  | _, _, [] => ([], .eof)
  | lineno, c, L :: lines =>
    match lineTokens L with
    | none => ([], .overrun (lineno + 1))
    | some toks =>
      match execCmd c toks with
      | .dies d => ([], .died d)
      | .returns 0 c' reply =>
        let rest := runScript (lineno + 1) c' lines
        (reply.toList ++ rest.1, rest.2)
      | .returns rc _ reply => (reply.toList, .failed (lineno + 1) rc)

end Scripts

end MerlinV
