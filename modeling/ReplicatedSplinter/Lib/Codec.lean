import Mathlib.Algebra.Ring.Nat
import Mathlib.Data.List.Basic
import Mathlib.Tactic.Common
/-!
# Bytes: 32-bit words, bounded writers, checked readers

A buffer of a fixed size is filled by a `Writer`, which refuses to write past the end, and is
read back by a `Reader`, which refuses to read past the end. The order in which the four bytes
of a 32-bit word are laid out is a parameter (`ByteOrder`): nothing below depends on it, only on
the word and its four bytes determining each other.

* `Writer.Filled w pre size`: the bytes written so far are `pre`. `put_filled` is the one rule for
  writing; a sequence of puts whose lengths add up to the buffer fills it (`Filled.buf_eq`).
* `Reader.At r buf tl`: the bytes not yet read are `tl`. `get_append` is the one rule for reading, and
  `get_eq_some` says what a read that succeeded has read.
-/

namespace ByteCodec

abbrev Bytes := List UInt8

/-! ## 32-bit words -/

/-- A layout of 32-bit words as four bytes, either endianness. -/
structure ByteOrder where
  enc : UInt32 → Bytes
  dec : Bytes → UInt32
  length_enc : ∀ w, (enc w).length = 4
  dec_enc : ∀ w, dec (enc w) = w
  enc_dec : ∀ bs, bs.length = 4 → enc (dec bs) = bs

attribute [simp] ByteOrder.length_enc ByteOrder.dec_enc

/-- Least significant byte first. -/
def leEnc (w : UInt32) : Bytes :=
  [UInt8.ofNat w.toNat, UInt8.ofNat (w.toNat / 256), UInt8.ofNat (w.toNat / 65536),
    UInt8.ofNat (w.toNat / 16777216)]

def leDec : Bytes → UInt32
  | [a, b, c, d] => UInt32.ofNat (a.toNat + 256 * b.toNat + 65536 * c.toNat + 16777216 * d.toNat)
  | _ => 0

theorem leDec_leEnc (w : UInt32) : leDec (leEnc w) = w := by
  have hw : w.toNat < 4294967296 := w.toNat_lt
  apply UInt32.toNat_inj.1
  simp only [leEnc, leDec, UInt8.toNat_ofNat', UInt32.toNat_ofNat']
  omega

theorem leEnc_leDec (bs : Bytes) (h : bs.length = 4) : leEnc (leDec bs) = bs := by
  match bs, h with
  | [a, b, c, d], _ =>
    have ha : a.toNat < 256 := a.toNat_lt
    have hb : b.toNat < 256 := b.toNat_lt
    have hc : c.toNat < 256 := c.toNat_lt
    have hd : d.toNat < 256 := d.toNat_lt
    simp only [leEnc, leDec, UInt32.toNat_ofNat', List.cons.injEq, ← UInt8.toNat_inj,
      UInt8.toNat_ofNat', and_true]
    refine ⟨?_, ?_, ?_, ?_⟩ <;> omega

def littleEndian : ByteOrder := ⟨leEnc, leDec, fun _ => rfl, leDec_leEnc, leEnc_leDec⟩

/-- A length that fits a word survives the trip through it. -/
theorem toNat_ofNat_length {n : Nat} (h : n < 2 ^ 32) : (UInt32.ofNat n).toNat = n := by
  rw [UInt32.toNat_ofNat']; exact Nat.mod_eq_of_lt h

/-! ## Writing -/

/-- A buffer being filled: `pos` is the offset of the next byte to write. -/
structure Writer where
  buf : Bytes
  pos : Nat
deriving DecidableEq, Repr

/-- Overwrite the next `bs.length` bytes; `none` when they do not fit. -/
def Writer.put (w : Writer) (bs : Bytes) : Option Writer :=
  if w.pos + bs.length ≤ w.buf.length then
    some ⟨w.buf.take w.pos ++ bs ++ w.buf.drop (w.pos + bs.length), w.pos + bs.length⟩
  else none

/-- The bytes written so far are `pre`, in a buffer of `size` bytes. -/
structure Writer.Filled (w : Writer) (pre : Bytes) (size : Nat) : Prop where
  pos_eq : w.pos = pre.length
  take_eq : w.buf.take pre.length = pre
  length_eq : w.buf.length = size

theorem filled_start (buf : Bytes) : Writer.Filled ⟨buf, 0⟩ [] buf.length := ⟨rfl, rfl, rfl⟩

theorem put_filled {w : Writer} {pre : Bytes} {size : Nat} (h : w.Filled pre size) (bs : Bytes)
    (hfit : pre.length + bs.length ≤ size) :
    ∃ w', w.put bs = some w' ∧ w'.Filled (pre ++ bs) size := by
  have hle : w.pos + bs.length ≤ w.buf.length := by rw [h.pos_eq, h.length_eq]; exact hfit
  refine ⟨_, by rw [Writer.put, if_pos hle], ?_⟩
  rw [h.pos_eq, h.take_eq]
  refine ⟨by simp, List.take_left' rfl, ?_⟩
  have hlen := h.length_eq
  simp only [List.length_append, List.length_drop]
  omega

/-- A completely written buffer holds exactly what was written: nothing of its initial
contents is left. -/
theorem Writer.Filled.buf_eq {w : Writer} {pre : Bytes} (h : w.Filled pre pre.length) :
    w.buf = pre ∧ w.pos = w.buf.length := by
  have hb : w.buf = pre := by
    rw [← h.take_eq, List.take_of_length_le (Nat.le_of_eq h.length_eq)]
  exact ⟨hb, by rw [hb, h.pos_eq]⟩

/-! ## Reading -/

/-- A buffer being read: `pos` is the offset of the next byte to read. -/
structure Reader where
  buf : Bytes
  pos : Nat
deriving DecidableEq, Repr

/-- The next `n` bytes; `none` when fewer remain. -/
def Reader.get (r : Reader) (n : Nat) : Option (Bytes × Reader) :=
  if r.pos + n ≤ r.buf.length then some ((r.buf.drop r.pos).take n, ⟨r.buf, r.pos + n⟩) else none

/-- The reader is inside `buf` with the bytes `tl` still ahead of it. -/
structure Reader.At (r : Reader) (buf tl : Bytes) : Prop where
  buf_eq : r.buf = buf
  pos_le : r.pos ≤ buf.length
  drop_eq : buf.drop r.pos = tl

theorem at_start {buf tl : Bytes} (h : buf = tl) : Reader.At ⟨buf, 0⟩ buf tl := ⟨rfl, Nat.zero_le _, h⟩

theorem Reader.At.pos_add {r : Reader} {buf tl : Bytes} (h : r.At buf tl) :
    r.pos + tl.length = buf.length := by
  have hle := h.pos_le
  rw [← h.drop_eq, List.length_drop]
  omega

/-- Reading `bs.length` bytes from a reader that is at `bs ++ tl` gives `bs` and leaves `tl`. -/
theorem get_append {r : Reader} {buf bs tl : Bytes} (h : r.At buf (bs ++ tl)) :
    ∃ r', r.get bs.length = some (bs, r') ∧ r'.At buf tl := by
  have hpos := h.pos_add
  rw [List.length_append] at hpos
  obtain ⟨rfl, _, hdrop⟩ := h
  have hle : r.pos + bs.length ≤ r.buf.length := by omega
  refine ⟨⟨r.buf, r.pos + bs.length⟩, ?_, rfl, hle, ?_⟩
  · rw [Reader.get, if_pos hle, hdrop, List.take_left' rfl]
  · rw [← List.drop_drop, hdrop, List.drop_left' rfl]

/-- What was read stands at the front of what was ahead. -/
theorem get_eq_some {r r' : Reader} {buf bs tl : Bytes} {n : Nat} (h : r.At buf tl) (hget : r.get n = some (bs, r')) :
    bs.length = n ∧ ∃ tl', tl = bs ++ tl' ∧ r'.At buf tl' := by
  have hpos := h.pos_add
  obtain ⟨rfl, -, rfl⟩ := h
  by_cases hle : r.pos + n ≤ r.buf.length
  · rw [Reader.get, if_pos hle, Option.some.injEq, Prod.mk.injEq] at hget
    obtain ⟨rfl, rfl⟩ := hget
    refine ⟨?_, r.buf.drop (r.pos + n), ?_, rfl, hle, rfl⟩
    · rw [List.length_take, List.length_drop]
      omega
    · rw [← List.drop_drop, List.take_append_drop]
  · rw [Reader.get, if_neg hle] at hget
    cases hget

end ByteCodec
