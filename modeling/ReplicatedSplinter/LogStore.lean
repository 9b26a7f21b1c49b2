import ReplicatedSplinter.Lib.OrderedMap
import ReplicatedSplinter.Nuraft
/-!
# The in-memory log store

| here | there |
| --- | --- |
| `LogStore`           | `inmem_log_store` (`in_memory_log_store.h:79-92`): `logs_` and `start_idx_`; the disk-delay emulation is off |
| `new`, `dummyEntry`  | the constructor (`in_memory_log_store.cpp:26-36`) with its entry for index 0 |
| `nextSlot`, `startIndex`, `lastEntry` | `:59-76` |
| `append`, `writeAt`  | `:78-121` |
| `logEntries`, `entryAt`, `termAt` | `:123-145`, `:178-200`; `findOrDummy` is their `find(index)`, else `find(0)` |
| `extLoop`, `logEntriesExt` | `log_entries_ext` (`:146-174`) |
| `packBufs`, `putBufs`, `pack` | `:202-234` |
| `readEntry`, `applyLoop`, `applyPack` | `:236-271`; what a throw leaves behind is returned too |
| `compact`            | `:273-289`; `none` when its loop does not end |

Indices are `ulong`s: sums and differences are taken modulo 2^64. Each operation holds `logs_lock_`
while it touches the map, so it is one step. Asserts are off (Release build). Buffer sizes are counted
without bound: what a `size_t` cannot count does not fit in memory.
-/

namespace ReplicatedSplinter
open ByteCodec Std

structure LogStore where
  logs : ExtTreeMap Nat LogEntry
  startIdx : Nat

/-- `log_entry(0, buffer::alloc(sz_ulong))`, of type `app_log`. -/
def dummyEntry (nu : Nuraft) : LogEntry :=
  ⟨0, nu.fresh 8, 1, 0, (nu.checksum (nu.fresh 8)).1, (nu.checksum (nu.fresh 8)).2⟩

/-- A deep copy: a new entry with the fields of the old one. -/
def makeClone (entry : LogEntry) : LogEntry :=
  ⟨entry.term, entry.buf, entry.valType, entry.timestamp, entry.hasCrc32, entry.crc32⟩

@[simp] theorem makeClone_eq (e : LogEntry) : makeClone e = e := rfl

namespace LogStore

def new (nu : Nuraft) : LogStore := ⟨(∅ : ExtTreeMap Nat LogEntry).insert 0 (dummyEntry nu), 1⟩

/-! ## Reading -/

/-- `start_idx_ + logs_.size() - 1`. -/
def nextSlot (st : LogStore) : Nat := (st.startIdx + st.logs.size + (2 ^ 64 - 1)) % 2 ^ 64

def startIndex (st : LogStore) : Nat := st.startIdx

/-- There is no entry but the one for index 0. -/
def isEmpty (st : LogStore) : Bool := st.logs.keys.all (· == 0)

/-- `find(index)`, else `find(0)`, and the entry there. -/
def findOrDummy (st : LogStore) (index : Nat) : Except Exn LogEntry :=
  match st.logs[index]? with
  | some e => .ok e
  | none => match st.logs[0]? with
    | some e => .ok e
    | none => .error (.undefinedBehaviour "dereference of logs_.end()")

def lastEntry (st : LogStore) : Except Exn LogEntry := do
  let e ← st.findOrDummy ((st.nextSlot + (2 ^ 64 - 1)) % 2 ^ 64)
  return makeClone e

/-- `log_entries` with an end before the start. `resize` gets the difference modulo 2^64 and throws from 2^59 on, which
is more than a vector of pointers can have; below, the caller gets that many null entries, as the loop does not run. -/
def endBeforeStart (start stop : Nat) : Exn :=
  if 2 ^ 59 ≤ 2 ^ 64 + stop - start then .lengthError "vector::_M_default_append"
  else .undefinedBehaviour "null log entries"

def logEntries (st : LogStore) (start stop : Nat) : Except Exn (List LogEntry) :=
  if stop < start then .error (endBeforeStart start stop)
  else (List.range' start (stop - start)).mapM fun ii => do
    let src ← st.findOrDummy ii
    return makeClone src

/-- The loop of `log_entries_ext` at index `ii`, with `n` indices left. `accum_size` counts the bytes of
payloads that `ret` holds copies of, so it does not wrap. -/
def extLoop (st : LogStore) (batchSizeHint : Int64) : Nat → Nat → Nat → Except Exn (List LogEntry)
  | 0, _, _ => .ok []
  | n + 1, ii, accumSize => do
    let src ← st.findOrDummy ii
    let accumSize := accumSize + src.buf.length
    if batchSizeHint ≠ 0 ∧ batchSizeHint.toUInt64.toNat ≤ accumSize then return [makeClone src]
    else
      let ret ← extLoop st batchSizeHint n (ii + 1) accumSize
      return makeClone src :: ret

def logEntriesExt (st : LogStore) (start stop : Nat) (batchSizeHint : Int64) : Except Exn (List LogEntry) :=
  if batchSizeHint < 0 then .ok []
  else st.extLoop batchSizeHint (stop - start) start 0

def entryAt (st : LogStore) (index : Nat) : Except Exn LogEntry := do
  let src ← st.findOrDummy index
  return makeClone src

def termAt (st : LogStore) (index : Nat) : Except Exn UInt64 := do
  let e ← st.findOrDummy index
  return e.term

/-! ## Writing -/

def append (st : LogStore) (entry : LogEntry) : Nat × LogStore :=
  let idx := (st.startIdx + st.logs.size + (2 ^ 64 - 1)) % 2 ^ 64
  (idx, { st with logs := st.logs.insert idx (makeClone entry) })

/-- All keys from `lower_bound(index)` on are erased. -/
def writeAt (st : LogStore) (index : Nat) (entry : LogEntry) : LogStore :=
  { st with logs := (OrderedMap.eraseWhere st.logs fun k => index ≤ k).insert index (makeClone entry) }

/-- Always returns true. With the greatest `ulong`, `ii <= last_log_index` never fails. -/
def compact (st : LogStore) (lastLogIndex : Nat) : Option LogStore :=
  if lastLogIndex = 2 ^ 64 - 1 then none
  else
    let logs := OrderedMap.eraseAll st.logs (List.range' st.startIdx (lastLogIndex + 1 - st.startIdx))
    some ⟨logs, if st.startIdx ≤ lastLogIndex then lastLogIndex + 1 else st.startIdx⟩

/-! ## Packs -/

/-- The first loop of `pack`. `logs_[ii]` leaves a stored key as it is; for a missing one it makes a
null entry, which `serialize` dereferences. -/
def packBufs (nu : Nuraft) (logs : ExtTreeMap Nat LogEntry) : List Nat → Except Exn (List Bytes)
  | [] => .ok []
  | ii :: rest => match logs[ii]? with
    | none => .error (.undefinedBehaviour "null log entry")
    | some le => do
      let bufs ← packBufs nu logs rest
      return nu.entrySerialize le :: bufs

/-- The second loop of `pack`: each buffer after its size. -/
def putBufs (nu : Nuraft) : Writer → List Bytes → Except Exn Writer
  | w, [] => .ok w
  | w, bb :: rest => do
    let w ← nu.putI32 w (Int32.ofNat bb.length)
    let w ← Nuraft.putRaw w bb
    putBufs nu w rest

/-- The pack, and the store afterwards. The loop runs to `index + count`, modulo 2^64. -/
def pack (nu : Nuraft) (st : LogStore) (index : Nat) (cnt : Int32) : Except Exn Bytes × LogStore :=
  if cnt < 0 then (.error (.runtimeError "Packing negative number of logs"), st)
  else
    let count := cnt.toInt.toNat
    let packed := do
      let logs ← packBufs nu st.logs (List.range' index ((index + count) % 2 ^ 64 - index))
      let bufOut ← nu.alloc (4 + count * 4 + (logs.map List.length).sum)
      let w ← nu.putI32 ⟨bufOut, 0⟩ cnt
      let w ← putBufs nu w logs
      return w.buf
    (packed, st)

def readEntry (nu : Nuraft) (pack : Reader) : Except Exn (LogEntry × Reader) := do
  let (bufSize, pack) ← nu.getInt pack
  if bufSize < 0 then .error (.runtimeError "Invalid buffer size (negative)")
  else
    let _ ← nu.alloc bufSize.toInt.toNat
    let (bufLocal, pack) ← Nuraft.getRaw pack bufSize.toInt.toNat
    match nu.entryDeserialize bufLocal with
    | some le => return (le, pack)
    | none => .error (.overflowError "not enough space")

/-- The loop of `apply_pack` with `n` entries left, the next one being number `ii`. -/
def applyLoop (nu : Nuraft) (index : Nat) : Nat → Nat → Reader → LogStore → Except Exn Unit × LogStore
  | 0, _, _, st => (.ok (), st)
  | n + 1, ii, pack, st => match readEntry nu pack with
    | .error e => (.error e, st)
    | .ok (le, pack) =>
      applyLoop nu index n (ii + 1) pack { st with logs := st.logs.insert ((index + ii) % 2 ^ 64) le }

/-- The last block of `apply_pack`: `start_idx_` from `upper_bound(0)`. -/
def resetStart (st : LogStore) : LogStore :=
  { st with startIdx := (OrderedMap.upperBound st.logs 0).getD 1 }

def applyPack (nu : Nuraft) (st : LogStore) (index : Nat) (pack : Bytes) : Except Exn Unit × LogStore :=
  match nu.getInt ⟨pack, 0⟩ with
  | .error e => (.error e, st)
  | .ok (nlogs, pack) =>
    if nlogs < 0 then (.error (.runtimeError "Invalid number of logs (negative)"), st)
    else match applyLoop nu index nlogs.toInt.toNat 0 pack st with
      | (.error e, st) => (.error e, st)
      | (.ok (), st) => (.ok (), st.resetStart)

end LogStore

end ReplicatedSplinter
