import ReplicatedSplinter.Operation
/-!
# The language `splinterdb_operation::deserialize` accepts

`InGrammar` says which byte strings the decoder accepts, without mentioning it: a type byte, a string,
and for a PUT or an UPDATE a second string, each string behind its length. Whatever follows is not read.

* `deserialize_iff`: the decoder returns the operation whose encoding the bytes begin with.
* Encodings are read back whatever follows them, so none is the beginning of another
  (`encoding_unambiguous`).
-/

namespace ReplicatedSplinter
open ByteCodec

/-- A 32-bit length and that many bytes `s`. -/
def LengthPrefixed (nu : Nuraft) (s bs : Bytes) : Prop :=
  ∃ len : Bytes, len.length = 4 ∧ (nu.order.dec len).toNat = s.length ∧ bs = len ++ s

theorem lengthPrefixed_iff {nu : Nuraft} {s bs : Bytes} :
    LengthPrefixed nu s bs ↔ s.length < 2 ^ 32 ∧ bs = nu.strBytes s := by
  constructor
  · rintro ⟨len, hlen, hs, rfl⟩
    have hlt : (nu.order.dec len).toNat < 2 ^ 32 := UInt32.toNat_lt _
    refine ⟨by omega, ?_⟩
    rw [Nuraft.strBytes, ← hs, UInt32.ofNat_toNat, nu.order.enc_dec len hlen]
  · rintro ⟨hs, rfl⟩
    exact ⟨nu.order.enc (UInt32.ofNat s.length), by simp, by simp [toNat_ofNat_length hs], rfl⟩

/-- The bytes begin with a type byte, then a 32-bit length and that many key bytes, and then, when the type is
PUT or UPDATE, a 32-bit length and that many value bytes. -/
def InGrammar (nu : Nuraft) (b : Bytes) : Prop :=
  ∃ (t : OperationType) (key keyBytes rest : Bytes), LengthPrefixed nu key keyBytes ∧ b = t.raw :: (keyBytes ++ rest) ∧
    (t = .PUT ∨ t = .UPDATE → ∃ value valueBytes tl, LengthPrefixed nu value valueBytes ∧ rest = valueBytes ++ tl)

namespace SplinterdbOperation

/-- What the decoder returned is what it has read. -/
theorem deserializeFrom_sound {nu : Nuraft} {b : Bytes} {op : SplinterdbOperation} {r : Reader}
    (h : deserializeFrom nu b = .ok (op, r)) :
    op.ValueInStep ∧ op.LengthsFit ∧ ∃ tl, b = op.encoding nu ++ tl ∧ r.At b tl := by
  have h0 : Reader.At ⟨b, 0⟩ b b := at_start rfl
  unfold deserializeFrom at h
  cases e1 : Nuraft.getU8 ⟨b, 0⟩ with
  | error e => simp [e1] at h
  | ok x1 =>
    obtain ⟨t, r1⟩ := x1
    obtain ⟨tl1, hb1, a1⟩ := Nuraft.getU8_eq_ok h0 e1
    cases e2 : nu.getStr r1 with
    | error e => simp [e1, e2] at h
    | ok x2 =>
      obtain ⟨key, r2⟩ := x2
      obtain ⟨hkey, tl2, rfl, a2⟩ := Nuraft.getStr_eq_ok a1 e2
      simp only [e1, e2, ok_bind] at h
      by_cases ht : (⟨t⟩ : OperationType) = .PUT ∨ (⟨t⟩ : OperationType) = .UPDATE
      · rw [if_pos ht] at h
        cases e3 : nu.getStr r2 with
        | error e => simp [e3] at h
        | ok x3 =>
          obtain ⟨v, r3⟩ := x3
          obtain ⟨hv, tl3, rfl, a3⟩ := Nuraft.getStr_eq_ok a2 e3
          simp only [e3, ok_bind, pure_eq_ok, Except.ok.injEq, Prod.mk.injEq] at h
          obtain ⟨rfl, rfl⟩ := h
          refine ⟨by simp [ValueInStep, ht], ⟨hkey, by rintro _ ⟨⟩; exact hv⟩, tl3, ?_, a3⟩
          simp [encoding, hb1]
      · rw [if_neg ht, pure_eq_ok, Except.ok.injEq, Prod.mk.injEq] at h
        obtain ⟨rfl, rfl⟩ := h
        refine ⟨by simpa [ValueInStep] using ht, ⟨hkey, by rintro _ ⟨⟩⟩, tl2, ?_, a2⟩
        simp [encoding, hb1]

theorem deserialize_eq_ok {nu : Nuraft} {b : Bytes} {op : SplinterdbOperation} :
    deserialize nu b = .ok op ↔ ∃ r, deserializeFrom nu b = .ok (op, r) := by
  unfold deserialize
  cases deserializeFrom nu b with
  | error e => simp
  | ok x => simp [Prod.ext_iff]

/-- What `deserialize` accepts, and as what. -/
theorem deserialize_iff {nu : Nuraft} {b : Bytes} {op : SplinterdbOperation} :
    deserialize nu b = .ok op ↔ op.ValueInStep ∧ op.LengthsFit ∧ op.encoding nu <+: b := by
  rw [deserialize_eq_ok]
  constructor
  · rintro ⟨r, hr⟩
    obtain ⟨hstep, hfit, tl, htl, -⟩ := deserializeFrom_sound hr
    exact ⟨hstep, hfit, tl, htl.symm⟩
  · rintro ⟨hstep, hfit, tl, rfl⟩
    obtain ⟨r, hr, -⟩ := deserializeFrom_append nu op hstep hfit tl
    exact ⟨r, hr⟩

theorem accepted_iff {nu : Nuraft} {b : Bytes} : (∃ op, deserialize nu b = .ok op) ↔ InGrammar nu b := by
  simp only [deserialize_iff]
  constructor
  · rintro ⟨⟨key, value, t⟩, hstep, hfit, tl, rfl⟩
    refine ⟨t, key, nu.strBytes key, (value.map nu.strBytes).getD [] ++ tl, ?_, by simp [encoding], ?_⟩
    · exact lengthPrefixed_iff.2 ⟨hfit.key, rfl⟩
    · intro ht
      obtain ⟨v, hv⟩ := Option.isSome_iff_exists.1 (hstep.2 ht)
      simp only at hv
      subst hv
      exact ⟨v, nu.strBytes v, tl, lengthPrefixed_iff.2 ⟨hfit.value v rfl, rfl⟩, rfl⟩
  · rintro ⟨t, key, keyBytes, rest, hkey, rfl, hvalue⟩
    obtain ⟨hkeylen, rfl⟩ := lengthPrefixed_iff.1 hkey
    by_cases ht : t = .PUT ∨ t = .UPDATE
    · obtain ⟨v, valueBytes, tl, hv, rfl⟩ := hvalue ht
      obtain ⟨hvlen, rfl⟩ := lengthPrefixed_iff.1 hv
      refine ⟨⟨key, some v, t⟩, by simp [ValueInStep, ht], ⟨hkeylen, by rintro _ ⟨⟩; exact hvlen⟩, tl, ?_⟩
      simp [encoding]
    · refine ⟨⟨key, none, t⟩, by simpa [ValueInStep] using ht, ⟨hkeylen, by rintro _ ⟨⟩⟩, rest, ?_⟩
      simp [encoding]

/-- Reading past an encoding is not possible, so no encoding begins another. -/
theorem encoding_unambiguous {nu : Nuraft} {op₁ op₂ : SplinterdbOperation} (h₁ : op₁.ValueInStep) (h₂ : op₂.ValueInStep)
    (hfit₁ : op₁.LengthsFit) (hfit₂ : op₂.LengthsFit) (h : op₁.encoding nu <+: op₂.encoding nu) : op₁ = op₂ := by
  have hread₁ : deserialize nu (op₂.encoding nu) = .ok op₁ := deserialize_iff.2 ⟨h₁, hfit₁, h⟩
  have hread₂ : deserialize nu (op₂.encoding nu) = .ok op₂ := deserialize_iff.2 ⟨h₂, hfit₂, List.prefix_rfl⟩
  rw [hread₁, Except.ok.injEq] at hread₂
  exact hread₂

/-- The decoded operation serializes to the bytes that were read, when the payload is itself a buffer. -/
theorem serialize_consumed {nu : Nuraft} {b : Bytes} {op : SplinterdbOperation} {r : Reader}
    (h : deserializeFrom nu b = .ok (op, r)) (hb : nu.fits b.length = true) :
    op.serialize nu = .ok (b.take r.pos) := by
  obtain ⟨-, -, tl, htl, hat⟩ := deserializeFrom_sound h
  have hpos := hat.pos_add
  have hlen : r.pos = (op.encoding nu).length := by
    rw [htl, List.length_append] at hpos
    omega
  have hfit : nu.fits op.bufferSize = true := by
    rw [← op.length_encoding nu, ← hlen]
    exact nu.fits_of_le hb (by omega)
  rw [serialize_ok nu op hfit, hlen, htl, List.take_left' rfl]

/-- **The decoder accepts exactly its grammar, and the encoding is unambiguous.** -/
theorem decodes_grammar (nu : Nuraft) :
    (∀ b, (∃ op, deserialize nu b = .ok op) ↔ InGrammar nu b) ∧
      (∀ b op r, deserializeFrom nu b = .ok (op, r) → nu.fits b.length = true →
        op.serialize nu = .ok (b.take r.pos)) ∧
      ∀ op₁ op₂ p₁ p₂, Made op₁ → Made op₂ → op₁ ≠ op₂ → op₁.bufferSize < 2 ^ 32 → op₂.bufferSize < 2 ^ 32 →
        op₁.serialize nu = .ok p₁ → op₂.serialize nu = .ok p₂ → ¬ p₁ <+: p₂ ∧ ¬ p₂ <+: p₁ := by
  refine ⟨fun b => accepted_iff, fun b op r h hb => serialize_consumed h hb, ?_⟩
  intro op₁ op₂ p₁ p₂ hm₁ hm₂ hne hsize₁ hsize₂ hs₁ hs₂
  obtain ⟨-, rfl⟩ := serialize_eq_ok hs₁
  obtain ⟨-, rfl⟩ := serialize_eq_ok hs₂
  have hfit₁ := lengthsFit_of_bufferSize hsize₁
  have hfit₂ := lengthsFit_of_bufferSize hsize₂
  constructor
  · intro hpre
    exact hne (encoding_unambiguous hm₁.valueInStep hm₂.valueInStep hfit₁ hfit₂ hpre)
  · intro hpre
    exact hne (encoding_unambiguous hm₂.valueInStep hm₁.valueInStep hfit₂ hfit₁ hpre).symm

/-- A type byte no operation has is accepted, with what follows the key left unread. -/
theorem decodes_grammar_demo :
    InGrammar refNuraft [9, 1, 0, 0, 0, 107, 255] ∧
      (⟨[107], none, ⟨9⟩⟩ : SplinterdbOperation).serialize refNuraft = .ok [9, 1, 0, 0, 0, 107] ∧
      ¬ (makePut [107] []).encoding refNuraft <+: (makePut [107] [118]).encoding refNuraft := by
  obtain ⟨haccept, hconsumed, hfree⟩ := decodes_grammar refNuraft
  refine ⟨(haccept _).1 ⟨⟨[107], none, ⟨9⟩⟩, rfl⟩, hconsumed [9, 1, 0, 0, 0, 107, 255] _ ⟨_, 6⟩ rfl rfl, ?_⟩
  exact (hfree (makePut [107] []) (makePut [107] [118]) _ _ (.put _ _) (.put _ _) (by decide) (by decide) (by decide)
    rfl rfl).1

end SplinterdbOperation

end ReplicatedSplinter
