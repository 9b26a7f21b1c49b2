import ReplicatedSplinter.Lib.Codec
/-!
# What the program uses of NuRaft

NuRaft is a submodule and not part of the repository, so everything the code calls of it enters
as a parameter `nu : Nuraft` whose fields say what the code relies on.

| here | there |
| --- | --- |
| `Nuraft.order`            | byte order of `buffer_serializer::put_u32` / `put_i32` and of `buffer::put(int32)` / `get_int` (one order, unspecified) |
| `Nuraft.bufferLimit`      | the size from which `buffer::alloc` throws (`none`: never); every size below 2^31 is allocated |
| `Nuraft.fresh`            | the unspecified contents of a buffer just allocated |
| `putU8`, `putStr`, `putI32` | `buffer_serializer::put_u8` / `put_str` / `put_i32`: one byte; a 32-bit length and the bytes; four bytes |
| `getU8`, `getStr`         | the getters of the same; all throw when too few bytes remain |
| `LogEntry`                | `nuraft::log_entry` as `make_clone` reads it (`in_memory_log_store.cpp:48-57`) |
| `refNuraft`               | an implementation of the parameter, used where a concrete run is shown |
| `RaftResult`              | `cmd_result<ptr<buffer>>` (`replica.h:17`), any combination of its getters' answers |
-/

namespace ReplicatedSplinter
open ByteCodec

/-- The C++ exceptions the code throws or lets through. `undefinedBehaviour` stands for a
dereference or a division the language gives no meaning to, `processExit` for `exit`. -/
inductive Exn
  | runtimeError (what : String)
  | invalidArgument (what : String)
  | outOfRange (what : String)
  | overflowError (what : String)
  | lengthError (what : String)
  | rpcError (what : String)
  | undefinedBehaviour (what : String)
  | processExit (code : Int)
deriving DecidableEq, Repr

/-- A C++ exception, which a caller can catch. -/
def Exn.isThrow : Exn → Bool
  | .undefinedBehaviour _ => false
  | .processExit _ => false
  | _ => true

/-! ## `Except` as the control flow of code that throws -/

instance decidableEqExcept {ε α : Type} [DecidableEq ε] [DecidableEq α] : DecidableEq (Except ε α)
  | .ok a, .ok b => decidable_of_iff (a = b) (by simp)
  | .error e, .error e' => decidable_of_iff (e = e') (by simp)
  | .ok _, .error _ => isFalse (by simp)
  | .error _, .ok _ => isFalse (by simp)

@[simp] theorem ok_bind {ε α β : Type} (a : α) (f : α → Except ε β) : (Except.ok a >>= f) = f a := rfl

@[simp] theorem error_bind {ε α β : Type} (e : ε) (f : α → Except ε β) :
    (Except.error e >>= f) = .error e := rfl

@[simp] theorem pure_eq_ok {ε α : Type} (a : α) : (pure a : Except ε α) = .ok a := rfl

/-- If the code does not return, it ends with a C++ exception. -/
def OnlyThrows {α : Type} (x : Except Exn α) : Prop := ∀ e, x = .error e → e.isThrow = true

theorem onlyThrows_ok {α : Type} (a : α) : OnlyThrows (.ok a) := by
  rintro e ⟨⟩

theorem OnlyThrows.bind {α β : Type} {x : Except Exn α} {f : α → Except Exn β} (hx : OnlyThrows x)
    (hf : ∀ a, OnlyThrows (f a)) : OnlyThrows (x >>= f) := by
  cases x with
  | error e =>
    rintro e' ⟨⟩
    exact hx e rfl
  | ok a => exact hf a

/-! ## Data -/

/-- `nuraft::log_entry`. -/
structure LogEntry where
  term : UInt64
  buf : Bytes
  valType : UInt8
  timestamp : UInt64
  hasCrc32 : Bool
  crc32 : UInt32
deriving DecidableEq, Repr

/-- Equal in what a serialized entry carries: term, value type and payload. -/
structure LogEntry.Same (e e' : LogEntry) : Prop where
  term : e.term = e'.term
  valType : e.valType = e'.valType
  buf : e.buf = e'.buf

/-- `cmd_result<ptr<buffer>>`; `result = none` is the null buffer. -/
structure RaftResult where
  accepted : Bool
  hasResult : Bool
  resultCode : Int32
  result : Option Bytes
  resultStr : String
deriving DecidableEq, Repr

/-- `cmd_result_code::OK`. -/
def cmdResultOk : Int32 := 0

structure Nuraft where
  order : ByteOrder
  bufferLimit : Option Nat
  /-- Sizes below 2^31 can be allocated. -/
  limit_ge : ∀ L, bufferLimit = some L → 2 ^ 31 ≤ L
  fresh : Nat → Bytes
  length_fresh : ∀ n, (fresh n).length = n
  /-- What `log_entry`'s constructor stores as `has_crc32`, `crc32` when it computes them. -/
  checksum : Bytes → Bool × UInt32
  /-- `log_entry::serialize`. -/
  entrySerialize : LogEntry → Bytes
  /-- `log_entry::deserialize`; `none` when it throws. -/
  entryDeserialize : Bytes → Option LogEntry
  /-- `deserialize` undoes `serialize` on term, value type and payload. -/
  entry_roundtrip : ∀ e, ∃ e', entryDeserialize (entrySerialize e) = some e' ∧ e.Same e'

namespace Nuraft
variable (nu : Nuraft)

/-- Whether `buffer::alloc(n)` returns a buffer. -/
def fits (n : Nat) : Bool := nu.bufferLimit.all (n < ·)

theorem fits_of_lt {n : Nat} (h : n < 2 ^ 31) : nu.fits n = true := by
  unfold fits
  cases hL : nu.bufferLimit with
  | none => rfl
  | some L => simpa using Nat.lt_of_lt_of_le h (nu.limit_ge L hL)

theorem fits_of_le {m n : Nat} (h : nu.fits n = true) (hle : m ≤ n) : nu.fits m = true := by
  unfold fits at *
  cases hL : nu.bufferLimit with
  | none => rfl
  | some L =>
    simp only [hL, Option.all_some, decide_eq_true_eq] at h ⊢
    omega

/-- `buffer::alloc`. -/
def alloc (n : Nat) : Except Exn Bytes :=
  if nu.fits n then .ok (nu.fresh n)
  else .error (.outOfRange "size exceed the max size that nuraft::buffer could support")

theorem alloc_of_fits {n : Nat} (h : nu.fits n = true) : nu.alloc n = .ok (nu.fresh n) := by
  simp [alloc, h]

/-! ## `buffer_serializer` and `buffer`: writing -/

/-- A put that does not fit throws. -/
def putRaw (w : Writer) (bs : Bytes) : Except Exn Writer :=
  match w.put bs with
  | some w' => .ok w'
  | none => .error (.overflowError "not enough space")

def putU8 (w : Writer) (b : UInt8) : Except Exn Writer := putRaw w [b]

def putI32 (w : Writer) (c : Int32) : Except Exn Writer := putRaw w (nu.order.enc c.toUInt32)

/-- The bytes of `put_str`: a 32-bit length, then the string. -/
def strBytes (s : Bytes) : Bytes := nu.order.enc (UInt32.ofNat s.length) ++ s

def putStr (w : Writer) (s : Bytes) : Except Exn Writer := putRaw w (nu.strBytes s)

@[simp] theorem length_strBytes (s : Bytes) : (nu.strBytes s).length = 4 + s.length := by
  simp [strBytes]

theorem putRaw_filled {w : Writer} {pre : Bytes} {size : Nat} (h : w.Filled pre size) (bs : Bytes)
    (hfit : pre.length + bs.length ≤ size) :
    ∃ w', putRaw w bs = .ok w' ∧ w'.Filled (pre ++ bs) size := by
  obtain ⟨w', hw, hf⟩ := put_filled h bs hfit
  exact ⟨w', by simp [putRaw, hw], hf⟩

/-! ## `buffer_serializer` and `buffer`: reading -/

/-- A get past the end throws. -/
def getRaw (r : Reader) (n : Nat) : Except Exn (Bytes × Reader) :=
  match r.get n with
  | some x => .ok x
  | none => .error (.overflowError "not enough space")

def getU8 (r : Reader) : Except Exn (UInt8 × Reader) := do
  let (bs, r) ← getRaw r 1
  return (bs.headD 0, r)

def getU32 (r : Reader) : Except Exn (UInt32 × Reader) := do
  let (bs, r) ← getRaw r 4
  return (nu.order.dec bs, r)

/-- `buffer::get_int`. -/
def getInt (r : Reader) : Except Exn (Int32 × Reader) := do
  let (w, r) ← nu.getU32 r
  return (w.toInt32, r)

def getStr (r : Reader) : Except Exn (Bytes × Reader) := do
  let (len, r) ← nu.getU32 r
  getRaw r len.toNat

theorem onlyThrows_getRaw (r : Reader) (n : Nat) : OnlyThrows (getRaw r n) := by
  unfold getRaw
  cases r.get n with
  | none => rintro e ⟨⟩; rfl
  | some x => exact onlyThrows_ok x

theorem onlyThrows_getU8 (r : Reader) : OnlyThrows (getU8 r) :=
  (onlyThrows_getRaw r 1).bind fun _ => onlyThrows_ok _

theorem onlyThrows_getU32 (r : Reader) : OnlyThrows (nu.getU32 r) :=
  (onlyThrows_getRaw r 4).bind fun _ => onlyThrows_ok _

theorem onlyThrows_getStr (r : Reader) : OnlyThrows (nu.getStr r) :=
  (nu.onlyThrows_getU32 r).bind fun x => onlyThrows_getRaw x.2 x.1.toNat

theorem getRaw_at {r : Reader} {buf bs tl : Bytes} (h : r.At buf (bs ++ tl)) :
    ∃ r', getRaw r bs.length = .ok (bs, r') ∧ r'.At buf tl := by
  obtain ⟨r', hr, ha⟩ := get_append h
  exact ⟨r', by simp [getRaw, hr], ha⟩

theorem getU8_at {r : Reader} {buf tl : Bytes} {b : UInt8} (h : r.At buf (b :: tl)) :
    ∃ r', getU8 r = .ok (b, r') ∧ r'.At buf tl := by
  obtain ⟨r', hr, ha⟩ := getRaw_at (show r.At buf ([b] ++ tl) from h)
  exact ⟨r', by simp [getU8, show getRaw r 1 = _ from hr], ha⟩

theorem getU32_at {r : Reader} {buf tl : Bytes} {w : UInt32}
    (h : r.At buf (nu.order.enc w ++ tl)) :
    ∃ r', nu.getU32 r = .ok (w, r') ∧ r'.At buf tl := by
  obtain ⟨r', hr, ha⟩ := getRaw_at h
  rw [nu.order.length_enc] at hr
  exact ⟨r', by simp [getU32, hr], ha⟩

theorem getInt_at {r : Reader} {buf tl : Bytes} {c : Int32}
    (h : r.At buf (nu.order.enc c.toUInt32 ++ tl)) :
    ∃ r', nu.getInt r = .ok (c, r') ∧ r'.At buf tl := by
  obtain ⟨r', hr, ha⟩ := nu.getU32_at h
  exact ⟨r', by simp [getInt, hr], ha⟩

theorem getStr_at {r : Reader} {buf s tl : Bytes} (h : r.At buf (nu.strBytes s ++ tl))
    (hs : s.length < 2 ^ 32) :
    ∃ r', nu.getStr r = .ok (s, r') ∧ r'.At buf tl := by
  rw [strBytes, List.append_assoc] at h
  obtain ⟨r1, h1, a1⟩ := nu.getU32_at h
  obtain ⟨r2, h2, a2⟩ := getRaw_at a1
  exact ⟨r2, by simp [getStr, h1, toNat_ofNat_length hs, h2], a2⟩

/-! ### What a getter that returned has read -/

section Returned
variable {nu} {r r' : Reader} {buf tl : Bytes}

theorem getRaw_eq_ok {n : Nat} {bs : Bytes} (h : r.At buf tl) (hget : getRaw r n = .ok (bs, r')) :
    bs.length = n ∧ ∃ tl', tl = bs ++ tl' ∧ r'.At buf tl' := by
  unfold getRaw at hget
  cases hr : r.get n with
  | none => simp [hr] at hget
  | some x =>
    simp only [hr, Except.ok.injEq] at hget
    subst hget
    exact get_eq_some h hr

theorem getU8_eq_ok {b : UInt8} (h : r.At buf tl) (hget : getU8 r = .ok (b, r')) :
    ∃ tl', tl = b :: tl' ∧ r'.At buf tl' := by
  unfold getU8 at hget
  cases hr : getRaw r 1 with
  | error e => simp [hr] at hget
  | ok x =>
    obtain ⟨bs, r1⟩ := x
    simp only [hr, ok_bind, pure_eq_ok, Except.ok.injEq, Prod.mk.injEq] at hget
    obtain ⟨hlen, tl', htl, hat⟩ := getRaw_eq_ok h hr
    obtain ⟨b', rfl⟩ := List.length_eq_one_iff.1 hlen
    obtain ⟨rfl, rfl⟩ := hget
    exact ⟨tl', htl, hat⟩

theorem getU32_eq_ok {w : UInt32} (h : r.At buf tl) (hget : nu.getU32 r = .ok (w, r')) :
    ∃ tl', tl = nu.order.enc w ++ tl' ∧ r'.At buf tl' := by
  unfold getU32 at hget
  cases hr : getRaw r 4 with
  | error e => simp [hr] at hget
  | ok x =>
    obtain ⟨bs, r1⟩ := x
    simp only [hr, ok_bind, pure_eq_ok, Except.ok.injEq, Prod.mk.injEq] at hget
    obtain ⟨rfl, rfl⟩ := hget
    obtain ⟨hlen, tl', htl, hat⟩ := getRaw_eq_ok h hr
    exact ⟨tl', by rw [nu.order.enc_dec bs hlen, htl], hat⟩

theorem getStr_eq_ok {s : Bytes} (h : r.At buf tl) (hget : nu.getStr r = .ok (s, r')) :
    s.length < 2 ^ 32 ∧ ∃ tl', tl = nu.strBytes s ++ tl' ∧ r'.At buf tl' := by
  unfold getStr at hget
  cases hr : nu.getU32 r with
  | error e => simp [hr] at hget
  | ok x =>
    obtain ⟨len, r1⟩ := x
    simp only [hr, ok_bind] at hget
    obtain ⟨tl1, rfl, hat1⟩ := getU32_eq_ok h hr
    obtain ⟨hlen, tl', rfl, hat⟩ := getRaw_eq_ok hat1 hget
    have hlt : len.toNat < 2 ^ 32 := len.toNat_lt
    refine ⟨by omega, tl', ?_, hat⟩
    rw [strBytes, hlen, UInt32.ofNat_toNat, List.append_assoc]

end Returned

end Nuraft

/-! ## A reference NuRaft

An implementation of the parameter: little-endian words, buffers below 2^31 bytes, and the
`term, type, payload` layout of a serialized entry (timestamp and checksum are not carried). -/

def refEntrySerialize (e : LogEntry) : Bytes :=
  leEnc (UInt32.ofNat e.term.toNat) ++ leEnc (UInt32.ofNat (e.term.toNat / 2 ^ 32)) ++
    e.valType :: e.buf

def refEntryDeserialize : Bytes → Option LogEntry
  | a :: b :: c :: d :: e :: f :: g :: h :: t :: buf =>
    some ⟨UInt64.ofNat ((leDec [a, b, c, d]).toNat + 2 ^ 32 * (leDec [e, f, g, h]).toNat), buf, t, 0, false, 0⟩
  | _ => none

theorem refEntry_roundtrip (e : LogEntry) :
    refEntryDeserialize (refEntrySerialize e) = some ⟨e.term, e.buf, e.valType, 0, false, 0⟩ := by
  have ht : e.term.toNat < 2 ^ 64 := e.term.toNat_lt
  have h1 := leDec_leEnc (UInt32.ofNat e.term.toNat)
  have h2 := leDec_leEnc (UInt32.ofNat (e.term.toNat / 2 ^ 32))
  simp only [refEntrySerialize, leEnc, refEntryDeserialize, List.cons_append, List.nil_append] at h1 h2 ⊢
  rw [h1, h2]
  congr 2
  apply UInt64.toNat_inj.1
  rw [UInt64.toNat_ofNat', UInt32.toNat_ofNat', UInt32.toNat_ofNat']
  omega

def refNuraft : Nuraft where
  order := littleEndian
  bufferLimit := some (2 ^ 31)
  limit_ge := by rintro L ⟨⟩; exact Nat.le_refl _
  fresh := fun n => List.replicate n 0
  length_fresh := fun n => List.length_replicate
  checksum := fun _ => (false, 0)
  entrySerialize := refEntrySerialize
  entryDeserialize := refEntryDeserialize
  entry_roundtrip := fun e => ⟨_, refEntry_roundtrip e, rfl, rfl, rfl⟩

end ReplicatedSplinter
