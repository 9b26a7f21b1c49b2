import ReplicatedSplinter.MurmurHash
/-!
# `read_policy`: where a read goes

The policies as the client's constructor builds them (`client.cpp:74-95`), and the server they
choose for a key.

| here | there |
| --- | --- |
| `Algorithm`        | `read_policy::algorithm` (`read_policy.h:15`) |
| `ReadPolicy`       | `server_ids_` and the members of the subclass (`read_policy.h:30`, `:46`, `:63`, `:87`, `:144`) |
| `rangeBoundaries`  | the `range_based_read_policy<uint32_t>` constructor (`read_policy.h:70-84`) |
| `ReadPolicy.make`  | the `switch` of the client's constructor (`client.cpp:74-95`) |
| `Draw`             | what a `uniform_int_distribution<uint32_t>` from 0 to `upper` returns (`read_policy.h:60`, `:113`) |
| `rangeNext`        | the scan of `range_based_read_policy<uint32_t>::next` for the token (`read_policy.h:92-99`) |
| `ReadPolicy.next`  | `next` of each subclass (`read_policy.h:39-43`, `:60`, `:91-100`, `:139-141`) with the policy afterwards |
| `nextServer`       | `read_policy::next_server` (`read_policy.h:22`); an index that is not below the size is undefined |
| `setMapping`       | `fixed_read_policy::set_mapping` (`read_policy.h:134-136`) |

`size_t` is a natural number below 2^64; the product of the server and token counts wraps there and
is then cast to 32 bits to be the divisor.
-/

namespace ReplicatedSplinter
open ByteCodec

inductive Algorithm
  | hash
  | roundRobin
  | randomToken
  | randomUniform
  | fixed
deriving DecidableEq, Repr

inductive ReadPolicy
  | roundRobin (serverIds : List Int32) (rri : Nat)
  | randomUniform (serverIds : List Int32) (upper : UInt32)
  | hash (serverIds : List Int32) (ranges : List UInt32)
  | randomToken (serverIds : List Int32) (ranges : List UInt32)
  | fixed (serverIds : List Int32) (mapping : Bytes → Option Nat)

/-- `for (i = 0; i < n; ++i) { next += incr; ranges_.push_back(next); }`. -/
def accumulate (incr : UInt32) : Nat → UInt32 → List UInt32
  | 0, _ => []
  | n + 1, next => (next + incr) :: accumulate incr n (next + incr)

def rangeBoundaries (serverIds : List Int32) (numTokens : Nat) : Except Exn (List UInt32) :=
  if numTokens = 0 then .error (.invalidArgument "num_tokens cannot be 0")
  else
    let totalTokens := serverIds.length * numTokens % 2 ^ 64
    let divisor := UInt32.ofNat totalTokens
    if divisor = 0 then .error (.undefinedBehaviour "division by zero")
    else .ok (accumulate (4294967295 / divisor) totalTokens 0)

/-- The distribution's upper bound `static_cast<uint32_t>(num_servers() - 1)`, in unsigned arithmetic. -/
def uniformUpper (serverIds : List Int32) : UInt32 := UInt32.ofNat ((serverIds.length + 2 ^ 64 - 1) % 2 ^ 64)

def ReadPolicy.make (algo : Algorithm) (serverIds : List Int32) (numTokens : Nat) : Except Exn ReadPolicy :=
  match algo with
  | .roundRobin => .ok (.roundRobin serverIds 0)
  | .hash => do
    let ranges ← rangeBoundaries serverIds numTokens
    return .hash serverIds ranges
  | .randomToken => do
    let ranges ← rangeBoundaries serverIds numTokens
    return .randomToken serverIds ranges
  | .randomUniform => .ok (.randomUniform serverIds (uniformUpper serverIds))
  | .fixed => .ok (.fixed serverIds fun _ => none)

/-! ## Choosing a server -/

/-- A draw of a uniform distribution, whatever its upper bound is. -/
structure Draw where
  value : UInt32 → UInt32
  le_upper : ∀ upper, value upper ≤ upper

/-- The index of a token. A token above every boundary gets `(size_t)-1`. -/
def rangeNext (numServers : Nat) (ranges : List UInt32) (token : UInt32) : Except Exn Nat :=
  match ranges.findIdx? (fun r => token ≤ r) with
  | some i => if numServers = 0 then .error (.undefinedBehaviour "remainder by zero") else .ok (i % numServers)
  | none => .ok (2 ^ 64 - 1)

namespace ReadPolicy

def serverIds : ReadPolicy → List Int32
  | .roundRobin ids _ => ids
  | .randomUniform ids _ => ids
  | .hash ids _ => ids
  | .randomToken ids _ => ids
  | .fixed ids _ => ids

def next (p : ReadPolicy) (key : Bytes) (draw : Draw) : Except Exn (Nat × ReadPolicy) :=
  match p with
  | .roundRobin ids rri =>
    if ids.length = 0 then .error (.undefinedBehaviour "remainder by zero")
    else .ok (rri, .roundRobin ids ((rri + 1) % ids.length))
  | .randomUniform _ upper => .ok ((draw.value upper).toNat, p)
  | .hash ids ranges => do
    let token ← getToken key
    let i ← rangeNext ids.length ranges token
    return (i, p)
  | .randomToken ids ranges => do
    let i ← rangeNext ids.length ranges (draw.value 4294967295)
    return (i, p)
  | .fixed _ mapping => match mapping key with
    | some i => .ok (i, p)
    | none => .error (.outOfRange "unordered_map::at")

def nextServer (p : ReadPolicy) (key : Bytes) (draw : Draw) : Except Exn (Int32 × ReadPolicy) := do
  let (i, p') ← p.next key draw
  match p.serverIds[i]? with
  | some srv => return (srv, p')
  | none => .error (.undefinedBehaviour "server_ids_ read out of range")

def setMapping (mapping : Bytes → Option Nat) : ReadPolicy → ReadPolicy
  | .fixed ids _ => .fixed ids mapping
  | p => p

end ReadPolicy

end ReplicatedSplinter
