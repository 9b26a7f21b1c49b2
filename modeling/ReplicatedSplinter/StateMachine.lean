import ReplicatedSplinter.Operation
/-!
# `splinterdb_state_machine`: committing log entries into SplinterDB

SplinterDB is a submodule and enters as a parameter `db : SplinterDB S` over an unspecified store
type `S`.

| here | there |
| --- | --- |
| `SplinterDB.insert` / `update` / `delete` | `splinterdb_insert` / `_update` / `_delete`: a return code and the store afterwards |
| `SplinterDB.lookup`, `lookupResultValue`  | `splinterdb_lookup`, `splinterdb_lookup_result_value` (`replica.cpp:154,161`) |
| `StateMachine`     | `spl_handle_`, `last_committed_idx_`, `commit_thread_initialized_` (`splinterdb_state_machine.h:183-189`) |
| `dispatch`         | the `switch` of `commit` (`splinterdb_state_machine.cpp:47-69`): which SplinterDB function is called, on what |
| `commitStore`      | `commit` up to and including the SplinterDB call (`:36-69`) |
| `setCommitted`     | `last_committed_idx_ = log_idx` (`:71`, and all of `commit_config`, `:79-82`) |
| `encodeResult`     | the returned buffer (`:73-76`) |
| `commit`           | `commit` (`:35-77`), as the three in order; a reader may run between them |

The snapshot callbacks all throw "Not implemented." and touch nothing; they are left out.
-/

namespace ReplicatedSplinter
open ByteCodec

/-! ## SplinterDB -/

/-- One SplinterDB instance: what each call returns and what the store is afterwards. -/
structure SplinterDB (S : Type) where
  insert : Bytes → Bytes → S → Int32 × S
  update : Bytes → Bytes → S → Int32 × S
  delete : Bytes → S → Int32 × S
  /-- `splinterdb_lookup_result`. -/
  LookupResult : Type
  lookup : Bytes → S → Int32 × LookupResult
  lookupResultValue : LookupResult → Int32 × Bytes

/-- A mutation call to SplinterDB with its arguments. -/
inductive SplinterCall
  | insert (key value : Bytes)
  | update (key value : Bytes)
  | delete (key : Bytes)
deriving DecidableEq, Repr

def SplinterDB.exec {S : Type} (db : SplinterDB S) : SplinterCall → S → Int32 × S
  | .insert k v => db.insert k v
  | .update k v => db.update k v
  | .delete k => db.delete k

/-! ## `commit` -/

structure StateMachine (S : Type) where
  store : S
  lastCommittedIdx : Nat
  commitThreadInitialized : Bool

namespace StateMachine
variable {S : Type}

/-- The constructor (`:17-29`) over a freshly created store. -/
def new (store : S) : StateMachine S := ⟨store, 0, false⟩

/-- `last_commit_index` (`:117-119`). -/
def lastCommitIndex (sm : StateMachine S) : Nat := sm.lastCommittedIdx

/-- The `switch` on the operation's type. -/
def dispatch (op : SplinterdbOperation) : Except Exn SplinterCall :=
  if op.type_ = .PUT then do
    let v ← op.value
    return .insert op.key_ v
  else if op.type_ = .UPDATE then do
    let v ← op.value
    return .update op.key_ v
  else if op.type_ = .DELETE then
    return .delete op.key_
  else
    .error (.runtimeError "Unknown operation type.")

/-- The SplinterDB call that `commit` makes for a payload, or what it throws before any. -/
def commitCall (nu : Nuraft) (buf : Bytes) : Except Exn SplinterCall := do
  let op ← SplinterdbOperation.deserialize nu buf
  dispatch op

/-- `commit` up to its SplinterDB call. The state survives a throw: the thread flag is set. -/
def commitStore (nu : Nuraft) (db : SplinterDB S) (sm : StateMachine S) (buf : Bytes) :
    Except Exn Int32 × StateMachine S :=
  let sm := { sm with commitThreadInitialized := true }
  match commitCall nu buf with
  | .error e => (.error e, sm)
  | .ok call => (.ok (db.exec call sm.store).1, { sm with store := (db.exec call sm.store).2 })

def setCommitted (sm : StateMachine S) (logIdx : Nat) : StateMachine S :=
  { sm with lastCommittedIdx := logIdx }

def encodeResult (nu : Nuraft) (retCode : Int32) : Except Exn Bytes := do
  let ret ← nu.alloc 4
  let bs ← nu.putI32 ⟨ret, 0⟩ retCode
  return bs.buf

def commit (nu : Nuraft) (db : SplinterDB S) (sm : StateMachine S) (logIdx : Nat) (buf : Bytes) :
    Except Exn Bytes × StateMachine S :=
  match sm.commitStore nu db buf with
  | (.error e, sm) => (.error e, sm)
  | (.ok retCode, sm) => (encodeResult nu retCode, sm.setCommitted logIdx)

/-- `commit_config` (`:79-82`). -/
def commitConfig (sm : StateMachine S) (logIdx : Nat) : StateMachine S := sm.setCommitted logIdx

/-! ## What they do -/

/-- The return code travels as its four bytes. -/
theorem encodeResult_eq (nu : Nuraft) (c : Int32) : encodeResult nu c = .ok (nu.order.enc c.toUInt32) := by
  have hstart := filled_start (nu.fresh 4)
  rw [nu.length_fresh] at hstart
  obtain ⟨w, hw, hf⟩ := Nuraft.putRaw_filled hstart (nu.order.enc c.toUInt32) (by simp)
  rw [List.nil_append, ← nu.order.length_enc c.toUInt32] at hf
  simp [encodeResult, nu.alloc_of_fits (nu.fits_of_lt (show 4 < 2 ^ 31 by decide)), Nuraft.putI32, hw, hf.buf_eq.1]

theorem commitStore_ok {nu : Nuraft} {db : SplinterDB S} {sm : StateMachine S} {buf : Bytes}
    {call : SplinterCall} (h : commitCall nu buf = .ok call) :
    sm.commitStore nu db buf =
      (.ok (db.exec call sm.store).1,
        ⟨(db.exec call sm.store).2, sm.lastCommittedIdx, true⟩) := by
  simp [commitStore, h]

theorem commit_ok {nu : Nuraft} {db : SplinterDB S} {sm : StateMachine S} {logIdx : Nat} {buf : Bytes}
    {call : SplinterCall} (h : commitCall nu buf = .ok call) :
    sm.commit nu db logIdx buf =
      (.ok (nu.order.enc (db.exec call sm.store).1.toUInt32),
        ⟨(db.exec call sm.store).2, logIdx, true⟩) := by
  simp [commit, commitStore_ok h, encodeResult_eq, setCommitted]

end StateMachine

/-- The SplinterDB call each factory's operation ends in. -/
def SplinterdbOperation.callOf (op : SplinterdbOperation) : SplinterCall :=
  if op.type_ = .PUT then .insert op.key_ (op.value_.getD [])
  else if op.type_ = .UPDATE then .update op.key_ (op.value_.getD [])
  else .delete op.key_

theorem SplinterdbOperation.Made.dispatch_eq {op : SplinterdbOperation} (h : op.Made) :
    StateMachine.dispatch op = .ok op.callOf := by
  cases h <;> rfl

/-- From a factory through the codec to the store: the call is the operation's own. -/
theorem SplinterdbOperation.Made.commitCall_encoding {op : SplinterdbOperation} (nu : Nuraft) (h : op.Made)
    (hsize : op.bufferSize < 2 ^ 32) :
    StateMachine.commitCall nu (op.encoding nu) = .ok op.callOf := by
  rw [StateMachine.commitCall, SplinterdbOperation.deserialize_encoding nu h.valueInStep hsize, ok_bind,
    h.dispatch_eq]

end ReplicatedSplinter
