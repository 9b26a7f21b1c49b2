import ReplicatedSplinter.StateMachine
/-!
# The server: RPC handlers, `replica` and `extract_result`

| here | there |
| --- | --- |
| `RpcReadResult`, `RpcMutationResult` | the messages of `common/types.h:14-76`; `value_` is a pointer, `none` when null |
| `read`              | `replica::read` (`replica.cpp:149-169`) |
| `appendLog`         | `replica::append_log` (`replica.cpp:191-203`); `raft` is `raft_instance_->append_entries` |
| `getReturnMethod`   | `replica_config::get_return_method` (`replica_config.h:37-39`): private, set to `blocking` and never written again |
| `MutationRpc`       | `RPC_SPLINTERDB_PUT` / `_UPDATE` / `_DELETE` (`common/rpc.h:14-16`) with their arguments |
| `requestOperation`  | the operation each mutation handler builds (`server.cpp:130-155`) |
| `handlePut` / `handleDelete` / `handleUpdate` / `handleGet` | the handlers bound in `server::initialize` (`server.cpp:118-155`) |
| `extractResult`     | `extract_result` (`server.cpp:45-68`) |

A throw in a handler travels to the caller as an RPC error; the console output is left out.
-/

namespace ReplicatedSplinter
open ByteCodec

/-! ## Messages -/

structure RpcReadResult where
  value_ : Option Bytes
  rc : Int32
deriving DecidableEq, Repr

structure RpcMutationResult where
  splinterdbRc : Int32
  raftRc : Int32
  raftMsg : String
deriving DecidableEq, Repr

namespace RpcMutationResult

/-- `was_accepted` (`types.h:62`). -/
def wasAccepted (r : RpcMutationResult) : Bool := r.raftRc == 0

/-- `is_success` (`types.h:64`). -/
def isSuccess (r : RpcMutationResult) : Bool := r.splinterdbRc == 0 && r.wasAccepted

end RpcMutationResult

inductive MutationRpc
  | put (key value : Bytes)
  | update (key value : Bytes)
  | delete (key : Bytes)
deriving DecidableEq, Repr

namespace Server

/-! ## `replica` -/

/-- `replica::read`: the value (null unless found) and a return code. -/
def read {S : Type} (db : SplinterDB S) (store : S) (key : Bytes) : Option Bytes × Int32 :=
  let (retcode, result) := db.lookup key store
  if retcode ≠ 0 then (none, retcode)
  else
    let (retcode, value) := db.lookupResultValue result
    if retcode ≠ 0 then (none, retcode) else (some value, retcode)

inductive ReturnMethod
  | blocking
  | asyncHandler
deriving DecidableEq, Repr

def getReturnMethod : ReturnMethod := .blocking

def appendLog (nu : Nuraft) (raft : Bytes → Except Exn RaftResult) (op : SplinterdbOperation) :
    Except Exn RaftResult := do
  let newLog ← op.serialize nu
  let ret ← raft newLog
  if getReturnMethod = .blocking then return ret
  else .error (.runtimeError "async handler not implemented")

/-! ## The handlers -/

/-- `extract_result`. `spl_rc` stays 0 unless a result buffer is read. -/
def extractResult (nu : Nuraft) (result : RaftResult) : Except Exn RpcMutationResult :=
  if !result.accepted then
    .ok ⟨0, result.resultCode, result.resultStr⟩
  else if !result.hasResult then
    .ok ⟨0, result.resultCode, result.resultStr⟩
  else match result.result with
    | some buf => do
      let (splRc, _) ← nu.getInt ⟨buf, 0⟩
      return ⟨splRc, result.resultCode, result.resultStr⟩
    | none => .ok ⟨0, result.resultCode, result.resultStr⟩

/-- The operation a mutation handler builds. The UPDATE handler, too, calls `make_put`
(`server.cpp:150-151`). -/
def requestOperation : MutationRpc → SplinterdbOperation
  | .put key value => .makePut key value
  | .delete key => .makeDelete key
  | .update key value => .makePut key value

/-- The three mutation handlers are one function of the operation they build. -/
def handleMutation (nu : Nuraft) (raft : Bytes → Except Exn RaftResult) (op : SplinterdbOperation) :
    Except Exn RpcMutationResult := do
  let result ← appendLog nu raft op
  extractResult nu result

def handlePut (nu : Nuraft) (raft : Bytes → Except Exn RaftResult) (key value : Bytes) :
    Except Exn RpcMutationResult :=
  handleMutation nu raft (requestOperation (.put key value))

def handleDelete (nu : Nuraft) (raft : Bytes → Except Exn RaftResult) (key : Bytes) :
    Except Exn RpcMutationResult :=
  handleMutation nu raft (requestOperation (.delete key))

def handleUpdate (nu : Nuraft) (raft : Bytes → Except Exn RaftResult) (key value : Bytes) :
    Except Exn RpcMutationResult :=
  handleMutation nu raft (requestOperation (.update key value))

/-- `client_srv_.bind`: the handler an RPC reaches. -/
def handle (nu : Nuraft) (raft : Bytes → Except Exn RaftResult) : MutationRpc → Except Exn RpcMutationResult
  | .put key value => handlePut nu raft key value
  | .update key value => handleUpdate nu raft key value
  | .delete key => handleDelete nu raft key

def handleGet {S : Type} (db : SplinterDB S) (store : S) (key : Bytes) : RpcReadResult :=
  let (data, rc) := read db store key
  if rc = 0 then ⟨data, 0⟩ else ⟨none, rc⟩

/-- The log entry a mutation RPC appends. -/
def appendedPayload (nu : Nuraft) (req : MutationRpc) : Except Exn Bytes := (requestOperation req).serialize nu

/-- A mutation handler appends exactly one entry and reports what Raft made of it. -/
theorem handle_eq (nu : Nuraft) (raft : Bytes → Except Exn RaftResult) (req : MutationRpc) :
    handle nu raft req = (appendedPayload nu req >>= fun p => raft p >>= extractResult nu) := by
  have key : ∀ op : SplinterdbOperation,
      handleMutation nu raft op = (op.serialize nu >>= fun p => raft p >>= extractResult nu) := by
    intro op
    unfold handleMutation appendLog
    cases op.serialize nu with
    | error e => rfl
    | ok p => cases h : raft p <;> simp [h, getReturnMethod]
  cases req <;> exact key _

theorem made_requestOperation (req : MutationRpc) : (requestOperation req).Made := by
  cases req with
  | put k v => exact .put k v
  | update k v => exact .put k v
  | delete k => exact .delete k

/-! ## What a client is told -/

/-- Whatever branch is taken, the Raft code is passed on unchanged. -/
theorem extractResult_raftRc {nu : Nuraft} {r : RaftResult} {res : RpcMutationResult}
    (h : extractResult nu r = .ok res) : res.raftRc = r.resultCode := by
  unfold extractResult at h
  split at h
  · cases h; rfl
  · split at h
    · cases h; rfl
    · split at h
      · rename_i buf _
        cases hg : nu.getInt ⟨buf, 0⟩ with
        | error e => simp [hg] at h
        | ok x => simp only [hg, ok_bind, pure_eq_ok, Except.ok.injEq] at h; rw [← h]
      · cases h; rfl

/-- The result buffer is null, or holds what `commit` wrote for the code `c`. -/
def ResultOfCommit (nu : Nuraft) (r : RaftResult) (c : Int32) : Prop :=
  r.result = none ∨ ∃ buf, StateMachine.encodeResult nu c = .ok buf ∧ r.result = some buf

/-- All that a successful mutation needs: the entry was accepted, its result is there, is OK, and
carries SplinterDB's 0. -/
def ReallySucceeded (r : RaftResult) (c : Int32) : Prop :=
  r.accepted = true ∧ r.hasResult = true ∧ r.resultCode = cmdResultOk ∧ r.result ≠ none ∧ c = 0

/-- The report is faithful: `is_success` says what happened, and a code that is there is passed on. -/
def ReportFaithful (nu : Nuraft) (r : RaftResult) (c : Int32) : Prop :=
  ∃ res, extractResult nu r = .ok res ∧
    (res.isSuccess = true ↔ ReallySucceeded r c) ∧
    (r.accepted = true → r.hasResult = true → r.result ≠ none → res.splinterdbRc = c)

theorem extractResult_code {nu : Nuraft} {r : RaftResult} {c : Int32} (hr : ResultOfCommit nu r c) :
    extractResult nu r = .ok
      ⟨if r.accepted = true ∧ r.hasResult = true ∧ r.result ≠ none then c else 0, r.resultCode, r.resultStr⟩ := by
  obtain ⟨acc, has, code, result, str⟩ := r
  unfold extractResult
  cases acc with
  | false => simp
  | true =>
    cases has with
    | false => simp
    | true =>
      rcases hr with hnone | ⟨buf, hbuf, hsome⟩
      · simp only at hnone
        simp [hnone]
      · simp only at hsome
        rw [StateMachine.encodeResult_eq, Except.ok.injEq] at hbuf
        have hat : Reader.At ⟨buf, 0⟩ buf (nu.order.enc c.toUInt32 ++ []) :=
          at_start (by simp [hbuf])
        obtain ⟨r', hget, _⟩ := nu.getInt_at hat
        simp [hsome, hget]

/-- **When a reported success is a real one.** A report is faithful exactly when the result code is
not OK, or the entry was accepted and its result is present with a buffer: on every other answer with
code OK the default `spl_rc = 0` makes an unapplied write a success. -/
theorem report_faithful_iff (nu : Nuraft) (r : RaftResult) (c : Int32) (hr : ResultOfCommit nu r c) :
    ReportFaithful nu r c ↔
      (r.resultCode ≠ cmdResultOk ∨ (r.accepted = true ∧ r.hasResult = true ∧ r.result ≠ none)) := by
  have hcode := extractResult_code hr
  constructor
  · rintro ⟨res, hres, hsucc, _⟩
    rw [hcode, Except.ok.injEq] at hres
    by_cases hall : r.accepted = true ∧ r.hasResult = true ∧ r.result ≠ none
    · exact Or.inr hall
    · left
      intro hok
      -- code OK and no result read: both integers are 0, so the client sees a success
      have hs : res.isSuccess = true := by
        rw [← hres, if_neg hall, hok]; rfl
      obtain ⟨ha, hh, _, hb, _⟩ := hsucc.1 hs
      exact hall ⟨ha, hh, hb⟩
  · intro hcond
    refine ⟨_, hcode, ?_, fun ha hh hb => if_pos ⟨ha, hh, hb⟩⟩
    simp only [RpcMutationResult.isSuccess, RpcMutationResult.wasAccepted, Bool.and_eq_true, beq_iff_eq,
      ReallySucceeded]
    constructor
    · rintro ⟨hrc, hzero⟩
      rcases hcond with hne | ⟨ha, hh, hb⟩
      · exact absurd hzero hne
      · rw [if_pos ⟨ha, hh, hb⟩] at hrc
        exact ⟨ha, hh, hzero, hb, hrc⟩
    · rintro ⟨ha, hh, hok, hb, hc⟩
      exact ⟨by rw [if_pos ⟨ha, hh, hb⟩, hc], hok⟩

/-- Accepted, with a result, code OK, and the four bytes of 0. -/
theorem report_faithful_iff_success :
    let r : RaftResult := ⟨true, true, 0, some (leEnc 0), "Ok."⟩
    ReportFaithful refNuraft r 0 ∧ (r.resultCode ≠ cmdResultOk ∨
      (r.accepted = true ∧ r.hasResult = true ∧ r.result ≠ none)) := by
  intro r
  have hr : ResultOfCommit refNuraft r 0 := Or.inr ⟨_, StateMachine.encodeResult_eq refNuraft 0, rfl⟩
  have hcond : r.resultCode ≠ cmdResultOk ∨ (r.accepted = true ∧ r.hasResult = true ∧ r.result ≠ none) := by
    decide
  exact ⟨(report_faithful_iff refNuraft r 0 hr).2 hcond, hcond⟩

/-- The null-buffer branch (`server.cpp:61-64`): accepted, OK, and no result to read is a success. -/
theorem null_result_reports_success :
    let r : RaftResult := ⟨true, true, cmdResultOk, none, "Ok."⟩
    ResultOfCommit refNuraft r 0 ∧ ¬ ReportFaithful refNuraft r 0 := by
  intro r
  refine ⟨Or.inl rfl, ?_⟩
  rintro ⟨res, hres, hsucc, _⟩
  have hs : res.isSuccess = true := by
    cases hres; rfl
  exact (hsucc.1 hs).2.2.2.1 rfl

end Server

end ReplicatedSplinter
