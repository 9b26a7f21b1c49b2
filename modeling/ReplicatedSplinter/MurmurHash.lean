import ReplicatedSplinter.Nuraft
/-!
# `MurmurHash3_x86_32`, the token of a key

| here | there |
| --- | --- |
| `rotl32`, `fmix32`        | `rotl32` (`MurmurHash3.cpp:34-36`) and `fmix32` (`:60-68`) |
| `mixK1`                   | the three lines that mix a block or the tail into `k1` (`:101-103`, `:124-126`) |
| `mixBlock`, `mixBlocks`   | the loop over the blocks (`:98-108`) |
| `mixTail`                 | the `switch` that falls through (`:117-128`) |
| `murmurHash3X86_32`       | `MurmurHash3_x86_32` (`:84-138`) |
| `getToken`                | `hash_read_policy::get_token` (`read_policy.cpp:9-13`) |

The blocks are read as the host lays out words, least significant byte first here. `len` is the cast
of the key's size to `int`: from 2^31 on it can be negative, and the loop then counts up from a
positive number and never meets its end.

* `getToken_surjective`: every 32-bit token is the token of a key, of a four-byte one even.
-/

namespace ReplicatedSplinter
open ByteCodec

def rotl32 (x r : UInt32) : UInt32 := (x <<< r) ||| (x >>> (32 - r))

def fmix32 (h : UInt32) : UInt32 :=
  let h := h ^^^ (h >>> 16)
  let h := h * 0x85ebca6b
  let h := h ^^^ (h >>> 13)
  let h := h * 0xc2b2ae35
  h ^^^ (h >>> 16)

def mixK1 (k1 : UInt32) : UInt32 := rotl32 (k1 * 0xcc9e2d51) 15 * 0x1b873593

def mixBlock (h1 k1 : UInt32) : UInt32 := rotl32 (h1 ^^^ mixK1 k1) 13 * 5 + 0xe6546b64

def mixBlocks : Nat → Bytes → UInt32 → UInt32
  | 0, _, h1 => h1
  | n + 1, data, h1 => mixBlocks n (data.drop 4) (mixBlock h1 (leDec (data.take 4)))

/-- The last `len & 3` bytes. -/
def mixTail (tail : Bytes) (len : Int32) (h1 : UInt32) : UInt32 :=
  let byte (i : Nat) : UInt32 := (tail.getD i 0).toUInt32
  match (len &&& 3).toInt.toNat with
  | 0 => h1
  | 1 => h1 ^^^ mixK1 (byte 0)
  | 2 => h1 ^^^ mixK1 ((byte 1 <<< 8) ^^^ byte 0)
  | _ => h1 ^^^ mixK1 ((byte 2 <<< 16) ^^^ (byte 1 <<< 8) ^^^ byte 0)

def murmurHash3X86_32 (data : Bytes) (len : Int32) (seed : UInt32) : Except Exn UInt32 :=
  let nblocks := len.toInt.tdiv 4
  if nblocks < 0 then .error (.undefinedBehaviour "blocks read past the key")
  else
    let h1 := mixBlocks nblocks.toNat data seed
    let h1 := mixTail (data.drop (nblocks.toNat * 4)) len h1
    .ok (fmix32 (h1 ^^^ len.toUInt32))

/-- `MMHSEED`. -/
def mmhSeed : UInt32 := 1234567890

def getToken (k : Bytes) : Except Exn UInt32 := murmurHash3X86_32 k (Int32.ofNat k.length) mmhSeed

/-! ## Every token is taken -/

theorem surjective_xor_shift_16 : Function.Surjective fun h : UInt32 => h ^^^ (h >>> 16) := by
  intro h
  refine ⟨h ^^^ (h >>> 16), ?_⟩
  rw [← UInt32.toBitVec_inj]
  ext i hi
  have htop : h.toBitVec.getLsbD (16 + (16 + i)) = false := BitVec.getLsbD_of_ge _ _ (by omega)
  simp [htop]

theorem surjective_xor_shift_13 : Function.Surjective fun h : UInt32 => h ^^^ (h >>> 13) := by
  intro h
  -- two shifts by 13 are not yet the whole word, so the inverse has a third term
  refine ⟨h ^^^ (h >>> 13) ^^^ (h >>> 26), ?_⟩
  rw [← UInt32.toBitVec_inj]
  ext i hi
  have htop : h.toBitVec.getLsbD (26 + (13 + i)) = false := BitVec.getLsbD_of_ge _ _ (by omega)
  have hmid : 13 + (13 + i) = 26 + i := by omega
  simp [htop, hmid]

/-- Rotating by `a` undoes rotating by the rest of the word. -/
theorem rotate_rotate (x : BitVec 32) {a b : Nat} (h : a + b = 32) :
    ((x <<< b ||| x >>> a) <<< a) ||| ((x <<< b ||| x >>> a) >>> b) = x := by
  ext i hi
  have htop : x.getLsbD (a + (b + i)) = false := BitVec.getLsbD_of_ge _ _ (by omega)
  by_cases hia : i < a
  · have hb : b + i < 32 := by omega
    have hnb : ¬ b + i < b := by omega
    simp [hia, hb, hnb, htop]
  · have hb : ¬ b + i < 32 := by omega
    have h1 : i - a < b := by omega
    have h2 : a + (i - a) = i := by omega
    simp [hia, hb, h1, h2, htop, BitVec.getLsbD_eq_getElem hi]

theorem surjective_rotl32_13 : Function.Surjective fun x => rotl32 x 13 := by
  intro x
  refine ⟨rotl32 x 19, ?_⟩
  rw [← UInt32.toBitVec_inj]
  simpa [rotl32] using rotate_rotate x.toBitVec (a := 13) (b := 19) rfl

theorem surjective_rotl32_15 : Function.Surjective fun x => rotl32 x 15 := by
  intro x
  refine ⟨rotl32 x 17, ?_⟩
  rw [← UInt32.toBitVec_inj]
  simpa [rotl32] using rotate_rotate x.toBitVec (a := 15) (b := 17) rfl

theorem surjective_mul {c d : UInt32} (h : d * c = 1) : Function.Surjective fun x => x * c := by
  intro x
  refine ⟨x * d, ?_⟩
  simp [UInt32.mul_assoc, h]

theorem surjective_xor (c : UInt32) : Function.Surjective fun x => c ^^^ x := by
  intro x
  refine ⟨c ^^^ x, ?_⟩
  simp only [← UInt32.xor_assoc, UInt32.xor_self, UInt32.zero_xor]

theorem surjective_fmix32 : Function.Surjective fmix32 :=
  surjective_xor_shift_16.comp <|
    (surjective_mul (show (0x7ed1b41d : UInt32) * 0xc2b2ae35 = 1 by decide)).comp <|
      surjective_xor_shift_13.comp <|
        (surjective_mul (show (0xa5cb9243 : UInt32) * 0x85ebca6b = 1 by decide)).comp
          surjective_xor_shift_16

theorem surjective_mixK1 : Function.Surjective mixK1 :=
  (surjective_mul (show (0x56ed309b : UInt32) * 0x1b873593 = 1 by decide)).comp <|
    surjective_rotl32_15.comp (surjective_mul (show (0xdee13bb1 : UInt32) * 0xcc9e2d51 = 1 by decide))

theorem surjective_mixBlock (h1 : UInt32) : Function.Surjective (mixBlock h1) := by
  have hadd : Function.Surjective fun x : UInt32 => x + 0xe6546b64 := by
    intro x
    exact ⟨x - 0xe6546b64, UInt32.sub_add_cancel _ _⟩
  exact hadd.comp <| (surjective_mul (show (0xcccccccd : UInt32) * 5 = 1 by decide)).comp <|
    surjective_rotl32_13.comp <| (surjective_xor h1).comp surjective_mixK1

theorem mixBlocks_one (data : Bytes) (h1 : UInt32) : mixBlocks 1 data h1 = mixBlock h1 (leDec (data.take 4)) := rfl

theorem getToken_leEnc (w : UInt32) : getToken (leEnc w) = .ok (fmix32 (4 ^^^ mixBlock mmhSeed w)) := by
  have hw : (leEnc w).take 4 = leEnc w := rfl
  have hlen : Int32.ofNat (leEnc w).length = 4 := rfl
  have hblocks : (4 : Int32).toInt.tdiv 4 = 1 := by decide
  have htail (t : Bytes) (h1 : UInt32) : mixTail t 4 h1 = h1 := rfl
  have hxor : (4 : Int32).toUInt32 = 4 := by decide
  simp only [getToken, murmurHash3X86_32, hlen, hblocks, htail, hxor, Int.toNat_one, mixBlocks_one, hw,
    leDec_leEnc, UInt32.xor_comm (mixBlock mmhSeed w) 4, Int.reduceLT, if_false]

theorem getToken_surjective (token : UInt32) : ∃ key : Bytes, getToken key = .ok token := by
  obtain ⟨x, hx⟩ := surjective_fmix32.comp ((surjective_xor 4).comp (surjective_mixBlock mmhSeed)) token
  refine ⟨leEnc x, ?_⟩
  rw [getToken_leEnc]
  exact congrArg Except.ok hx

end ReplicatedSplinter
