import ReplicatedSplinter.ReadPolicy
import ReplicatedSplinter.Server
/-!
# The client: connecting, finding the leader, retrying mutations, reading

| here | there |
| --- | --- |
| `splitEndpoint`, `stoi`   | the endpoint parsing of the constructor (`client.cpp:46-48`) and `std::stoi` |
| `connectAll`              | the connection loop (`client.cpp:45-66`); `connects i` says whether the `i`-th `rpc::client` could be built |
| `Client.new`              | the constructor (`client.cpp:20-96`); `Seed` is what the seed server answers |
| `getLeaderHandle`         | `get_leader_handle` (`client.cpp:120`); a handle is named by its key in `clients_` |
| `askServer`, `searchLeader`, `getLeaderId` | the two loops of `get_leader_id` (`client.cpp:216-249`) with the servers asked, call by call |
| `tryHandleLeaderChange`   | `try_handle_leader_change` (`client.cpp:122-136`) |
| `retryLoop`, `retryMutation` | `retry_mutation` (`client.cpp:152-176`) with the `leader_id_` of each moment `f` is called |
| `callMutation`, `put`, `update`, `del` | `put` / `update` / `del` (`client.cpp:178-199`) with the attempts sent |
| `get`                     | `get` (`client.cpp:138-150`) with the server its RPC goes to |
| `setFixedKeyMapping`      | `set_fixed_key_mapping` (`client.cpp:251-256`) |

The servers and the network are a `CallEnv`: what Raft on a server makes of the entry of the `i`-th
attempt, and what the `k`-th `get_leader_id` RPC to a server answers after the `i`-th attempt. A call
asks for each of these at most once, so every behaviour of the servers during a call is one `CallEnv`.
Sleeping, printing and the timeouts' durations are left out.
-/

namespace ReplicatedSplinter
open ByteCodec Std

/-! ## Constants (`client.cpp:11-14`) -/

def GET_LEADER_NO_LIVE_LEADER : Int32 := -1
def CMD_RESULT_NOT_LEADER : Int32 := -3
def CMD_RESULT_REQUEST_CANCELLED : Int32 := -1
def CMD_RESULT_WEIRD_CASE : Int32 := 999

/-! ## Endpoints -/

structure RpcServerInfo where
  id : Int32
  endpoint : Bytes
deriving DecidableEq, Repr

/-- The target of an `rpc::client`. -/
structure Endpoint where
  host : Bytes
  port : UInt16
deriving DecidableEq, Repr

def isSpace (b : UInt8) : Bool := b == 32 || (9 ≤ b && b ≤ 13)
def isDigit (b : UInt8) : Bool := 48 ≤ b && b ≤ 57

/-- `std::stoi` in base 10: white space, a sign, digits; what follows them is ignored. -/
def stoi (s : Bytes) : Except Exn Int :=
  let s := s.dropWhile isSpace
  let (neg, s) := match s with
    | 45 :: t => (true, t)
    | 43 :: t => (false, t)
    | s => (false, s)
  let digits := s.takeWhile isDigit
  if digits = [] then .error (.invalidArgument "stoi")
  else
    let n : Int := digits.foldl (fun acc d => 10 * acc + (d.toNat - 48 : Nat)) 0
    let v := if neg then -n else n
    if v < -2147483648 ∨ 2147483647 < v then .error (.outOfRange "stoi") else .ok v

/-- `find(':')` and the two `substr`. Without a colon `npos + 1` is 0, so both parts are the whole. -/
def splitEndpoint (s : Bytes) : Bytes × Bytes :=
  if 58 ∈ s then (s.takeWhile (· != 58), (s.dropWhile (· != 58)).drop 1) else (s, s)

/-- A byte string as text in an error message. -/
def latin1 (s : Bytes) : String := String.ofList (s.map fun b => Char.ofNat b.toNat)

def parseEndpoint (s : Bytes) : Except Exn Endpoint := do
  let (host, rest) := splitEndpoint s
  let port ← stoi rest
  if 1 > port ∨ port > 65535 then
    .error (.runtimeError ("invalid port number for host \"" ++ latin1 host ++ "\": " ++ toString port))
  else return ⟨host, UInt16.ofNat port.toNat⟩

/-! ## The client's state -/

structure Client where
  clients : ExtTreeMap Int32 Endpoint
  readPolicy : ReadPolicy
  algo : Algorithm
  leaderId : Int32
  numRetries : UInt16
  printErrors : Bool

/-- What the seed server does when the client is built. -/
structure Seed where
  connect : Except Exn Unit
  ping : Except Exn Bytes
  allServers : Except Exn (List RpcServerInfo)
  leaderId : Except Exn Int32

/-- "pong". -/
def pong : Bytes := [112, 111, 110, 103]

namespace Client

/-- The loop over `srvs.endpoints()`. A failed connection is skipped; `emplace` keeps an entry that
is already there. -/
def connectAll (connects : Nat → Bool) : Nat → List RpcServerInfo → ExtTreeMap Int32 Endpoint →
    Except Exn (ExtTreeMap Int32 Endpoint)
  | _, [], m => .ok m
  | i, srv :: rest, m => do
    let e ← parseEndpoint srv.endpoint
    if connects i then connectAll connects (i + 1) rest (m.insertIfNew srv.id e)
    else connectAll connects (i + 1) rest m

/-- The three calls to the seed inside the `try` (`:34-39`). -/
def askSeed (seed : Seed) : Except Exn (List RpcServerInfo × Int32) := do
  let pong' ← seed.ping
  if pong' ≠ pong then .error (.runtimeError "server returned unexpected response")
  else
    let srvs ← seed.allServers
    let leader ← seed.leaderId
    return (srvs, leader)

/-- The constructor. An exception of the seed's calls ends the process (`exit(1)`, `:42`). -/
def new (seed : Seed) (connects : Nat → Bool) (algo : Algorithm) (numTokens : Nat) (numRetries : UInt16)
    (printErrors : Bool) : Except Exn Client := do
  let _ ← seed.connect
  match askSeed seed with
  | .error _ => .error (.processExit 1)
  | .ok (srvs, leader) => do
    let clients ← connectAll connects 0 srvs ∅
    let policy ← ReadPolicy.make algo clients.keys numTokens
    return ⟨clients, policy, algo, leader, numRetries, printErrors⟩

/-! ## Finding the leader -/

def getLeaderHandle (c : Client) : Except Exn Int32 :=
  if c.leaderId ∈ c.clients then .ok c.leaderId else .error (.outOfRange "map::at")

/-- The inner loop of `get_leader_id` on one server: `n` tries left, `k` made. -/
def askServer (srv : Int32) (ask : Nat → Except Exn Int32) : Nat → Nat → Except Exn Int32 × List Int32
  | 0, _ => (.error (.runtimeError "no live leader"), [])
  | n + 1, k => match ask k with
    | .error e => (.error e, [srv])
    | .ok leader =>
      if leader ≠ GET_LEADER_NO_LIVE_LEADER then (.ok leader, [srv])
      else
        let (r, asked) := askServer srv ask n (k + 1)
        (r, srv :: asked)

/-- The outer loop. The `catch` (`:239-247`) takes every exception and goes to the next server. -/
def searchLeader (n : Nat) (ask : Int32 → Nat → Except Exn Int32) :
    List Int32 → Except Exn Int32 × List Int32
  | [] => (.error (.runtimeError "failed to connect to any server"), [])
  | srv :: rest => match askServer srv (ask srv) n 0 with
    | (.ok leader, asked) => (.ok leader, asked)
    | (.error _, asked) =>
      let (r, asked') := searchLeader n ask rest
      (r, asked ++ asked')

/-- `get_leader_id`: the answer, and the servers asked, one for each RPC. -/
def getLeaderId (c : Client) (ask : Int32 → Nat → Except Exn Int32) : Except Exn Int32 × List Int32 :=
  searchLeader c.numRetries.toNat ask c.clients.keys

def isLeaderChange (code : Int32) : Bool :=
  code == CMD_RESULT_NOT_LEADER || code == CMD_RESULT_REQUEST_CANCELLED

def tryHandleLeaderChange (c : Client) (ask : Int32 → Nat → Except Exn Int32) (code : Int32) :
    Except Exn (Bool × Client) :=
  if isLeaderChange code then do
    let leader ← (c.getLeaderId ask).1
    return (true, { c with leaderId := leader })
  else return (false, c)

/-! ## Mutations -/

/-- What `retry_mutation` did: its outcome (`none`: the default-constructed result, never assigned),
the client afterwards, and `leader_id_` at each call of `f`. -/
structure RetryRun where
  outcome : Except Exn (Option RpcMutationResult)
  client : Client
  leaders : List Int32

/-- The loop with `n` iterations left; `f i` is what the closure returns or throws in iteration `i`. -/
def retryLoop (f : Nat → Except Exn RpcMutationResult) (ask : Nat → Int32 → Nat → Except Exn Int32) :
    Nat → Nat → Client → Option RpcMutationResult → RetryRun
  | 0, _, c, result => ⟨.ok result, c, []⟩
  | n + 1, i, c, _ => match f i with
    | .error e => ⟨.error e, c, [c.leaderId]⟩
    | .ok result =>
      if result.wasAccepted then ⟨.ok (some result), c, [c.leaderId]⟩
      else if result.raftRc = CMD_RESULT_WEIRD_CASE then ⟨.ok (some result), c, [c.leaderId]⟩
      else match c.tryHandleLeaderChange (ask i) result.raftRc with
        | .error e => ⟨.error e, c, [c.leaderId]⟩
        | .ok (_, c') =>
          let run := retryLoop f ask n (i + 1) c' (some result)
          { run with leaders := c.leaderId :: run.leaders }

def retryMutation (c : Client) (f : Nat → Except Exn RpcMutationResult)
    (ask : Nat → Int32 → Nat → Except Exn Int32) : RetryRun :=
  retryLoop f ask c.numRetries.toNat 0 c none

end Client

/-- The servers during one mutation call. -/
structure CallEnv where
  append : Nat → Int32 → Bytes → Except Exn RaftResult
  leader : Nat → Int32 → Nat → Except Exn Int32

/-- An RPC sent: the server whose handle was used, `leader_id_` at that moment, and what Raft on that
server made of the entry. -/
structure Attempt where
  target : Int32
  leaderId : Int32
  raft : Except Exn RaftResult

structure CallRun where
  outcome : Except Exn (Option RpcMutationResult)
  client : Client
  sent : List Attempt

namespace Client

/-- What Raft on server `srv` makes of the entry of attempt `i`. -/
def raftOutcome (nu : Nuraft) (req : MutationRpc) (env : CallEnv) (srv : Int32) (i : Nat) : Except Exn RaftResult :=
  Server.appendedPayload nu req >>= env.append i srv

/-- The common body of `put`, `update` and `del`: the handle is taken once, before the retries, and
the closure keeps it. -/
def callMutation (nu : Nuraft) (c : Client) (req : MutationRpc) (env : CallEnv) : CallRun :=
  match c.getLeaderHandle with
  | .error e => ⟨.error e, c, []⟩
  | .ok cl =>
    let run := c.retryMutation (fun i => Server.handle nu (env.append i cl) req) env.leader
    ⟨run.outcome, run.client, run.leaders.mapIdx fun i leader => ⟨cl, leader, raftOutcome nu req env cl i⟩⟩

def put (nu : Nuraft) (c : Client) (key value : Bytes) (env : CallEnv) : CallRun :=
  callMutation nu c (.put key value) env

def update (nu : Nuraft) (c : Client) (key value : Bytes) (env : CallEnv) : CallRun :=
  callMutation nu c (.update key value) env

def del (nu : Nuraft) (c : Client) (key : Bytes) (env : CallEnv) : CallRun :=
  callMutation nu c (.delete key) env

end Client

/-- A mutation call of the client's interface. -/
inductive Mutation
  | put (key value : Bytes)
  | update (key value : Bytes)
  | del (key : Bytes)
deriving DecidableEq, Repr

/-- The RPC each call sends (`client.cpp:181`, `:189`, `:197`). -/
def Mutation.rpc : Mutation → MutationRpc
  | .put key value => .put key value
  | .update key value => .update key value
  | .del key => .delete key

def Client.mutate (nu : Nuraft) (c : Client) (m : Mutation) (env : CallEnv) : CallRun :=
  match m with
  | .put key value => c.put nu key value env
  | .update key value => c.update nu key value env
  | .del key => c.del nu key env

/-! ## Reads -/

/-- What `get` did: its outcome, the client afterwards and the server the RPC was sent to. -/
structure ReadRun where
  outcome : Except Exn RpcReadResult
  client : Client
  sentTo : Option Int32

/-- The server of a read, with the read policy afterwards. The constructor sets `read_policy_` or throws,
so the branch for a null policy is not reached. -/
def Client.targetServer (c : Client) (key : Bytes) (server : Option Int32) (draw : Draw) :
    Except Exn (Int32 × ReadPolicy) :=
  match server with
  | some srv => .ok (srv, c.readPolicy)
  | none => c.readPolicy.nextServer key draw

/-- `rpc srv key` is what the call to `srv` returns or throws. -/
def Client.get (c : Client) (key : Bytes) (server : Option Int32) (draw : Draw)
    (rpc : Int32 → Bytes → Except Exn RpcReadResult) : ReadRun :=
  match c.targetServer key server draw with
  | .error e => ⟨.error e, c, none⟩
  | .ok (srv, policy) =>
    if srv ∈ c.clients then ⟨rpc srv key, { c with readPolicy := policy }, some srv⟩
    else ⟨.error (.undefinedBehaviour "clients_.end() dereferenced"), { c with readPolicy := policy }, none⟩

def Client.setFixedKeyMapping (c : Client) (mapping : Bytes → Option Nat) : Client :=
  if c.algo = .fixed then { c with readPolicy := c.readPolicy.setMapping mapping } else c

/-! ## The mutation calls are one function -/

theorem Client.mutate_eq (nu : Nuraft) (c : Client) (m : Mutation) (env : CallEnv) :
    c.mutate nu m env = c.callMutation nu m.rpc env := by
  cases m <;> rfl

end ReplicatedSplinter
