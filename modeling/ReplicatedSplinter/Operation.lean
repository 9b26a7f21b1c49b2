import ReplicatedSplinter.Nuraft
/-!
# `splinterdb_operation`: the operation a log entry carries, and its byte codec

| here | there |
| --- | --- |
| `OperationType`       | `enum splinterdb_operation_type : uint8_t` (`splinterdb_operation.h:12`); `static_cast` accepts every byte, so the type is the byte |
| `SplinterdbOperation` | the class' three members (`splinterdb_operation.h:38-40`) |
| `serializeTo`         | `serialize` (`splinterdb_operation.cpp:11-27`) up to the state of its `buffer_serializer` |
| `deserializeFrom`     | `deserialize` (`splinterdb_operation.cpp:36-49`), with the reader's final position |
| `makePut` / `makeUpdate` / `makeDelete` | the three factories (`splinterdb_operation.cpp:51-66`) |

The writer decides from `value_.has_value()` whether a value follows, the reader from the type
byte (`:42-45`). The two agree on operations whose value is present exactly when the type is PUT
or UPDATE (`ValueInStep`): every factory builds such an operation (`Made.valueInStep`).
-/

namespace ReplicatedSplinter
open ByteCodec

/-- A fixed underlying type: every byte is a value of the enumeration, three have names. -/
structure OperationType where
  raw : UInt8
deriving DecidableEq, Repr

namespace OperationType
def PUT : OperationType := ⟨0⟩
def UPDATE : OperationType := ⟨1⟩
def DELETE : OperationType := ⟨2⟩
end OperationType

structure SplinterdbOperation where
  key_ : Bytes
  value_ : Option Bytes
  type_ : OperationType
deriving DecidableEq, Repr

namespace SplinterdbOperation

/-- `value()` (`splinterdb_operation.h:18`): `*value_`, with no check. -/
def value (op : SplinterdbOperation) : Except Exn Bytes :=
  match op.value_ with
  | some v => .ok v
  | none => .error (.undefinedBehaviour "*value_")

def makePut (key value : Bytes) : SplinterdbOperation := ⟨key, some value, .PUT⟩
def makeUpdate (key value : Bytes) : SplinterdbOperation := ⟨key, some value, .UPDATE⟩
def makeDelete (key : Bytes) : SplinterdbOperation := ⟨key, none, .DELETE⟩

/-- `buffer_size` (`:12-15`). -/
def bufferSize (op : SplinterdbOperation) : Nat :=
  1 + 4 + op.key_.length + match op.value_ with
    | some v => 4 + v.length
    | none => 0

/-- `serialize` (`:11-27`): the buffer and how far it has been written. -/
def serializeTo (nu : Nuraft) (op : SplinterdbOperation) : Except Exn Writer := do
  let buf ← nu.alloc op.bufferSize
  let bs ← Nuraft.putU8 ⟨buf, 0⟩ op.type_.raw
  let bs ← nu.putStr bs op.key_
  match op.value_ with
  | some v => nu.putStr bs v
  | none => return bs

def serialize (nu : Nuraft) (op : SplinterdbOperation) : Except Exn Bytes := do
  let bs ← op.serializeTo nu
  return bs.buf

/-- `deserialize` (`:36-49`): the operation and how far the payload has been read. -/
def deserializeFrom (nu : Nuraft) (payload : Bytes) : Except Exn (SplinterdbOperation × Reader) := do
  let (b, bs) ← Nuraft.getU8 ⟨payload, 0⟩
  let opty : OperationType := ⟨b⟩
  let (key, bs) ← nu.getStr bs
  if opty = .PUT ∨ opty = .UPDATE then
    let (v, bs) ← nu.getStr bs
    return (⟨key, some v, opty⟩, bs)
  else
    return (⟨key, none, opty⟩, bs)

def deserialize (nu : Nuraft) (payload : Bytes) : Except Exn SplinterdbOperation := do
  let (op, _) ← deserializeFrom nu payload
  return op

/-! ## The encoding -/

/-- The bytes `serialize` lays out: type byte, key, and the value if there is one. -/
def encoding (nu : Nuraft) (op : SplinterdbOperation) : Bytes :=
  [op.type_.raw] ++ nu.strBytes op.key_ ++ (op.value_.map nu.strBytes).getD []

@[simp] theorem length_encoding (nu : Nuraft) (op : SplinterdbOperation) :
    (op.encoding nu).length = op.bufferSize := by
  unfold encoding bufferSize
  cases op.value_ <;> simp <;> omega

/-- The buffer `serialize` allocates is filled to its last byte, and holds the encoding. -/
theorem serializeTo_ok (nu : Nuraft) (op : SplinterdbOperation) (hfit : nu.fits op.bufferSize = true) :
    ∃ w, op.serializeTo nu = .ok w ∧ w.buf = op.encoding nu ∧ w.pos = w.buf.length := by
  have hstart := filled_start (nu.fresh op.bufferSize)
  rw [nu.length_fresh] at hstart
  have hsize : 5 + op.key_.length ≤ op.bufferSize := by unfold bufferSize; omega
  obtain ⟨w1, h1, f1⟩ := Nuraft.putRaw_filled hstart [op.type_.raw] (by simp; omega)
  obtain ⟨w2, h2, f2⟩ := Nuraft.putRaw_filled f1 (nu.strBytes op.key_) (by simp; omega)
  rw [List.nil_append] at f2
  rw [← op.length_encoding nu] at f2
  simp only [serializeTo, nu.alloc_of_fits hfit, ok_bind, Nuraft.putU8, h1, Nuraft.putStr, h2, pure_eq_ok]
  cases hv : op.value_ with
  | none =>
    have henc : op.encoding nu = [op.type_.raw] ++ nu.strBytes op.key_ := by simp [encoding, hv]
    rw [← henc] at f2
    exact ⟨w2, rfl, f2.buf_eq⟩
  | some v =>
    have henc : op.encoding nu = [op.type_.raw] ++ nu.strBytes op.key_ ++ nu.strBytes v := by
      simp [encoding, hv]
    obtain ⟨w3, h3, f3⟩ := Nuraft.putRaw_filled f2 (nu.strBytes v)
      (Nat.le_of_eq (by rw [henc]; exact List.length_append.symm))
    rw [← henc] at f3
    exact ⟨w3, h3, f3.buf_eq⟩

theorem serialize_ok (nu : Nuraft) (op : SplinterdbOperation) (hfit : nu.fits op.bufferSize = true) :
    op.serialize nu = .ok (op.encoding nu) := by
  obtain ⟨w, hw, hb, _⟩ := serializeTo_ok nu op hfit
  simp [serialize, hw, hb]

/-- Conversely, a buffer `serialize` returns was allocated and holds the encoding. -/
theorem serialize_eq_ok {nu : Nuraft} {op : SplinterdbOperation} {p : Bytes} (h : op.serialize nu = .ok p) :
    nu.fits op.bufferSize = true ∧ p = op.encoding nu := by
  cases hfit : nu.fits op.bufferSize with
  | false => simp [serialize, serializeTo, Nuraft.alloc, hfit] at h
  | true =>
    rw [serialize_ok nu op hfit, Except.ok.injEq] at h
    exact ⟨rfl, h.symm⟩

/-- A value is present exactly when the reader will look for one. -/
def ValueInStep (op : SplinterdbOperation) : Prop :=
  op.value_.isSome = true ↔ (op.type_ = .PUT ∨ op.type_ = .UPDATE)

/-- Key and value have lengths a 32-bit word can hold. -/
structure LengthsFit (op : SplinterdbOperation) : Prop where
  key : op.key_.length < 2 ^ 32
  value : ∀ v, op.value_ = some v → v.length < 2 ^ 32

theorem lengthsFit_of_bufferSize {op : SplinterdbOperation} (h : op.bufferSize < 2 ^ 32) : op.LengthsFit := by
  unfold bufferSize at h
  refine ⟨by omega, ?_⟩
  intro v hv
  simp only [hv] at h
  omega

/-- Reading back an encoding gives the operation and stops right after it. -/
theorem deserializeFrom_append (nu : Nuraft) (op : SplinterdbOperation) (hop : op.ValueInStep)
    (hfit : op.LengthsFit) (tl : Bytes) :
    ∃ r, deserializeFrom nu (op.encoding nu ++ tl) = .ok (op, r) ∧ r.At (op.encoding nu ++ tl) tl := by
  obtain ⟨hk, hval⟩ := hfit
  generalize hbuf : op.encoding nu ++ tl = buf
  have h0 : Reader.At ⟨buf, 0⟩ buf
      (op.type_.raw :: (nu.strBytes op.key_ ++ ((op.value_.map nu.strBytes).getD [] ++ tl))) :=
    at_start (by rw [← hbuf]; simp [encoding])
  obtain ⟨r1, e1, a1⟩ := Nuraft.getU8_at h0
  obtain ⟨r2, e2, a2⟩ := nu.getStr_at a1 hk
  obtain ⟨k, v, t⟩ := op
  simp only [deserializeFrom, e1, e2, ok_bind, pure_eq_ok]
  cases v with
  | none =>
    have ht : ¬(t = .PUT ∨ t = .UPDATE) := fun h => by simpa using hop.2 h
    rw [if_neg ht]
    exact ⟨r2, rfl, by simpa using a2⟩
  | some v =>
    have ht : t = .PUT ∨ t = .UPDATE := hop.1 rfl
    obtain ⟨r3, e3, a3⟩ := nu.getStr_at (by simpa using a2) (hval v rfl)
    rw [if_pos ht, e3]
    exact ⟨r3, rfl, a3⟩

theorem deserializeFrom_encoding (nu : Nuraft) (op : SplinterdbOperation) (hop : op.ValueInStep)
    (hsize : op.bufferSize < 2 ^ 32) (tl : Bytes) :
    ∃ r, deserializeFrom nu (op.encoding nu ++ tl) = .ok (op, r) ∧ r.At (op.encoding nu ++ tl) tl :=
  deserializeFrom_append nu op hop (lengthsFit_of_bufferSize hsize) tl

/-! ## Round trip -/

/-- The operations the factories build. -/
inductive Made : SplinterdbOperation → Prop
  | put (k v : Bytes) : Made (makePut k v)
  | update (k v : Bytes) : Made (makeUpdate k v)
  | delete (k : Bytes) : Made (makeDelete k)

theorem Made.valueInStep {op : SplinterdbOperation} (h : Made op) : op.ValueInStep := by
  cases h <;> simp [ValueInStep, makePut, makeUpdate, makeDelete, OperationType.PUT, OperationType.UPDATE,
    OperationType.DELETE]

theorem deserialize_encoding (nu : Nuraft) {op : SplinterdbOperation} (hop : op.ValueInStep)
    (hsize : op.bufferSize < 2 ^ 32) : deserialize nu (op.encoding nu) = .ok op := by
  obtain ⟨r, hr, _⟩ := deserializeFrom_encoding nu op hop hsize []
  rw [List.append_nil] at hr
  simp [deserialize, hr]

/-- **Round trip with exact sizing.** The puts of `serialize` fill the buffer it allocated to the
last byte, and `deserialize` reads that buffer to its end and returns the same operation. -/
theorem serialize_roundtrip (nu : Nuraft) (op : SplinterdbOperation) (hop : Made op)
    (hsize : op.bufferSize < 2 ^ 31) :
    ∃ w, op.serializeTo nu = .ok w ∧ op.serialize nu = .ok w.buf ∧
      w.buf.length = op.bufferSize ∧ w.pos = w.buf.length ∧
      ∃ r, deserializeFrom nu w.buf = .ok (op, r) ∧ r.pos = w.buf.length := by
  obtain ⟨w, hw, hb, hp⟩ := serializeTo_ok nu op (nu.fits_of_lt hsize)
  obtain ⟨r, hr, ha⟩ := deserializeFrom_encoding nu op hop.valueInStep (by omega) []
  rw [List.append_nil] at hr ha
  refine ⟨w, hw, by simp [serialize, hw], by rw [hb, length_encoding], hp, r, by rw [hb, hr], ?_⟩
  have hend := ha.pos_add
  rw [hb]
  simpa using hend

/-- A present empty value stays present. -/
theorem serialize_roundtrip_empty_value :
    ∃ w, (makePut [107, 0] []).serializeTo refNuraft = .ok w ∧
      (makePut [107, 0] []).serialize refNuraft = .ok w.buf ∧
      w.buf.length = (makePut [107, 0] []).bufferSize ∧ w.pos = w.buf.length ∧
      ∃ r, deserializeFrom refNuraft w.buf = .ok (makePut [107, 0] [], r) ∧ r.pos = w.buf.length :=
  serialize_roundtrip refNuraft (makePut [107, 0] []) (.put _ _) (by decide)

end SplinterdbOperation

end ReplicatedSplinter
