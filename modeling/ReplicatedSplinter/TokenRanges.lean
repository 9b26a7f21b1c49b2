import ReplicatedSplinter.Lib.EvenPartition
import ReplicatedSplinter.ReadPolicy
/-!
# The token ranges of `range_based_read_policy<uint32_t>`

With `n` servers and `num_tokens` tokens each, `T = n * num_tokens`, the constructor cuts the 32-bit
tokens into `T` ranges of width `(2^32 - 1) / T` and deals them to the servers in turn. As long as
`T` is between 1 and 2^32 - 1 the boundaries are those of an even partition (`rangeBoundaries_even`);
the scan of `next` then finds the slot of a token (`EvenRanges.rangeNext_eq`).

The quotient is rounded down, so the last boundary is `T * ((2^32 - 1) / T)` and the tokens above it
lie in no range. `Covered` says which tokens lie in one, whatever `T` is.
-/

namespace ReplicatedSplinter
open ByteCodec EvenPartition

/-! ## The boundaries -/

/-- `total_tokens` (`read_policy.h:76`). -/
def totalTokens (serverIds : List Int32) (numTokens : Nat) : Nat := serverIds.length * numTokens % 2 ^ 64

/-- The divisor `static_cast<uint32_t>(total_tokens)` (`read_policy.h:77`). -/
def rangeDivisor (serverIds : List Int32) (numTokens : Nat) : UInt32 := UInt32.ofNat (totalTokens serverIds numTokens)

variable {ids : List Int32} {numTokens : Nat}

theorem rangeBoundaries_zero : rangeBoundaries ids 0 = .error (.invalidArgument "num_tokens cannot be 0") := rfl

theorem rangeBoundaries_of_ne (hk : numTokens ≠ 0) (hd : rangeDivisor ids numTokens ≠ 0) :
    rangeBoundaries ids numTokens =
      .ok (accumulate (4294967295 / rangeDivisor ids numTokens) (totalTokens ids numTokens) 0) := by
  rw [rangeBoundaries, if_neg hk]
  exact if_neg hd

theorem rangeBoundaries_division (hk : numTokens ≠ 0) (hd : rangeDivisor ids numTokens = 0) :
    rangeBoundaries ids numTokens = .error (.undefinedBehaviour "division by zero") := by
  rw [rangeBoundaries, if_neg hk]
  exact if_pos hd

theorem rangeBoundaries_ok {ranges : List UInt32} (h : rangeBoundaries ids numTokens = .ok ranges) :
    rangeDivisor ids numTokens ≠ 0 ∧
      ranges = accumulate (4294967295 / rangeDivisor ids numTokens) (totalTokens ids numTokens) 0 := by
  have hk : numTokens ≠ 0 := by
    rintro rfl
    rw [rangeBoundaries_zero] at h
    cases h
  have hd : rangeDivisor ids numTokens ≠ 0 := by
    intro hd
    rw [rangeBoundaries_division hk hd] at h
    cases h
  rw [rangeBoundaries_of_ne hk hd, Except.ok.injEq] at h
  exact ⟨hd, h.symm⟩

/-- Without servers there are no ranges. -/
theorem length_pos_of_rangeBoundaries {ranges : List UInt32} (h : rangeBoundaries ids numTokens = .ok ranges) :
    0 < ids.length := by
  obtain ⟨hd, -⟩ := rangeBoundaries_ok h
  refine Nat.pos_of_ne_zero fun h0 => hd ?_
  rw [rangeDivisor, totalTokens, h0, Nat.zero_mul]
  rfl

/-- The boundaries are the multiples of the increment, in 32 bits. -/
theorem toNat_accumulate_mod (incr : UInt32) (m : Nat) (start : UInt32) :
    (accumulate incr m start).map UInt32.toNat =
      (List.range m).map fun j => (start.toNat + (j + 1) * incr.toNat) % 2 ^ 32 := by
  induction m generalizing start with
  | zero => rfl
  | succ m ih =>
    rw [accumulate, List.map_cons, ih (start + incr), List.range_succ_eq_map, List.map_cons, List.map_map]
    refine congrArg₂ List.cons (by rw [UInt32.toNat_add, Nat.zero_add, Nat.one_mul]) (List.map_congr_left ?_)
    intro j _
    simp only [Function.comp, UInt32.toNat_add, Nat.mod_add_mod, Nat.succ_mul]
    congr 1
    omega

theorem toNat_accumulate (incr : UInt32) (m : Nat) (start : UInt32) (h : start.toNat + m * incr.toNat < 2 ^ 32) :
    (accumulate incr m start).map UInt32.toNat =
      (List.range m).map fun j => start.toNat + (j + 1) * incr.toNat := by
  rw [toNat_accumulate_mod]
  refine List.map_congr_left fun j hj => ?_
  have hle : (j + 1) * incr.toNat ≤ m * incr.toNat := Nat.mul_le_mul_right _ (List.mem_range.1 hj)
  exact Nat.mod_eq_of_lt (by omega)

/-- With a product that fits, the cast loses nothing and the increment is the quotient rounded down. -/
theorem rangeDivisor_fits (hpos : 1 ≤ ids.length * numTokens) (hT : ids.length * numTokens ≤ 2 ^ 32 - 1) :
    totalTokens ids numTokens = ids.length * numTokens ∧
      (rangeDivisor ids numTokens).toNat = ids.length * numTokens ∧ rangeDivisor ids numTokens ≠ 0 ∧
      (4294967295 / rangeDivisor ids numTokens).toNat = (2 ^ 32 - 1) / (ids.length * numTokens) := by
  have htotal : totalTokens ids numTokens = ids.length * numTokens := Nat.mod_eq_of_lt (by omega)
  have hdiv : (rangeDivisor ids numTokens).toNat = ids.length * numTokens := by
    rw [rangeDivisor, htotal, UInt32.toNat_ofNat', Nat.mod_eq_of_lt (by omega)]
  refine ⟨htotal, hdiv, ?_, ?_⟩
  · intro h0
    rw [h0, UInt32.toNat_zero] at hdiv
    omega
  · rw [UInt32.toNat_div, hdiv]
    rfl

/-- The boundaries as numbers are those of an even partition into `T` slots. -/
def EvenRanges (T : Nat) (ranges : List UInt32) : Prop :=
  ranges.map UInt32.toNat = boundaries ((2 ^ 32 - 1) / T) T

theorem rangeBoundaries_even (hpos : 1 ≤ ids.length * numTokens) (hT : ids.length * numTokens ≤ 2 ^ 32 - 1) :
    ∃ ranges, rangeBoundaries ids numTokens = .ok ranges ∧ EvenRanges (ids.length * numTokens) ranges := by
  obtain ⟨htotal, -, hd, hincr⟩ := rangeDivisor_fits hpos hT
  have hk : numTokens ≠ 0 := by
    rintro rfl
    simp at hpos
  refine ⟨_, rangeBoundaries_of_ne hk hd, ?_⟩
  rw [EvenRanges, htotal, toNat_accumulate, hincr]
  · simp [boundaries]
  · have hlast := Nat.mul_div_le (2 ^ 32 - 1) (ids.length * numTokens)
    rw [hincr, UInt32.toNat_zero, Nat.zero_add]
    omega

namespace EvenRanges

variable {ranges : List UInt32} {T : Nat}

theorem length_eq (h : EvenRanges T ranges) : ranges.length = T := by
  have hlen := congrArg List.length h
  rwa [List.length_map, length_boundaries] at hlen

theorem toNat_getElem? (h : EvenRanges T ranges) {j : Nat} {r : UInt32} (hr : ranges[j]? = some r) :
    r.toNat = (j + 1) * ((2 ^ 32 - 1) / T) := by
  have hj : (ranges.map UInt32.toNat)[j]? = some r.toNat := by
    rw [List.getElem?_map, hr]
    rfl
  rw [h, List.getElem?_eq_some_iff] at hj
  obtain ⟨hlt, heq⟩ := hj
  rw [← heq, getElem_boundaries]

theorem pairwise_lt (h : EvenRanges T ranges) (hpos : 1 ≤ T) (hT : T ≤ 2 ^ 32 - 1) : ranges.Pairwise (· < ·) := by
  have hnat : (ranges.map UInt32.toNat).Pairwise (· < ·) := by
    rw [h]
    exact pairwise_boundaries (Nat.div_pos hT hpos)
  rw [List.pairwise_map] at hnat
  exact hnat.imp fun hlt => UInt32.lt_iff_toNat_lt.2 hlt

end EvenRanges

/-- The constructor ends with an exception, or the product does not overflow, is not changed by the cast
and is not 0, and there are as many boundaries as the product says, strictly increasing, each the exact
multiple of the increment. -/
def RangesSound (ids : List Int32) (numTokens : Nat) : Prop :=
  (∃ e, rangeBoundaries ids numTokens = .error e ∧ e.isThrow = true) ∨
    (ids.length * numTokens < 2 ^ 64 ∧ rangeDivisor ids numTokens ≠ 0 ∧
      (rangeDivisor ids numTokens).toNat = ids.length * numTokens ∧
      ∃ ranges, rangeBoundaries ids numTokens = .ok ranges ∧ ranges.length = ids.length * numTokens ∧
        ranges.Pairwise (· < ·) ∧
        ∀ j r, ranges[j]? = some r → r.toNat = (j + 1) * (4294967295 / rangeDivisor ids numTokens).toNat ∧
          r.toNat ≤ 2 ^ 32 - 1)

/-- **When the ranges can be built.** Only `num_tokens` is checked, so the product has to be a divisor on its
own account. -/
theorem ranges_sound_iff (ids : List Int32) (numTokens : Nat) :
    RangesSound ids numTokens ↔
      numTokens = 0 ∨ (1 ≤ ids.length * numTokens ∧ ids.length * numTokens ≤ 2 ^ 32 - 1) := by
  constructor
  · rintro (⟨e, he, hthrow⟩ | ⟨-, hd, hdiv, -⟩)
    · -- the only exception is the one for `num_tokens == 0`
      by_cases hk : numTokens = 0
      · exact .inl hk
      · by_cases hd : rangeDivisor ids numTokens = 0
        · rw [rangeBoundaries_division hk hd] at he
          cases he
          cases hthrow
        · rw [rangeBoundaries_of_ne hk hd] at he
          cases he
    · have hlt : (rangeDivisor ids numTokens).toNat < 2 ^ 32 := UInt32.toNat_lt _
      have hne : (rangeDivisor ids numTokens).toNat ≠ 0 := by
        intro h0
        exact hd (UInt32.toNat_inj.1 h0)
      exact .inr ⟨by omega, by omega⟩
  · rintro (rfl | ⟨hpos, hT⟩)
    · exact .inl ⟨_, rangeBoundaries_zero, rfl⟩
    · obtain ⟨ranges, hok, heven⟩ := rangeBoundaries_even hpos hT
      obtain ⟨-, hdiv, hd, hincr⟩ := rangeDivisor_fits hpos hT
      refine .inr ⟨by omega, hd, hdiv, ranges, hok, heven.length_eq, heven.pairwise_lt hpos hT, ?_⟩
      intro j r hr
      have hlt : r.toNat < 2 ^ 32 := r.toNat_lt
      rw [hincr]
      exact ⟨heven.toNat_getElem? hr, by omega⟩

theorem not_rangesSound_of_division (hk : numTokens ≠ 0) (hd : rangeDivisor ids numTokens = 0) :
    ¬ RangesSound ids numTokens := by
  rintro (⟨e, he, hthrow⟩ | ⟨-, hne, -⟩)
  · rw [rangeBoundaries_division hk hd] at he
    cases he
    cases hthrow
  · exact hne hd

/-- No endpoint connected: the divisor is 0. One server with 2^32 tokens: the cast makes it 0. -/
theorem ranges_divide_by_zero :
    ¬ RangesSound [] 3 ∧ ¬ RangesSound [1] (2 ^ 32) ∧
      rangeBoundaries [] 3 = .error (.undefinedBehaviour "division by zero") ∧
      rangeBoundaries [1] (2 ^ 32) = .error (.undefinedBehaviour "division by zero") := by
  have hempty : rangeDivisor [] 3 = 0 := by decide
  have hcast : rangeDivisor [1] (2 ^ 32) = 0 := by decide
  exact ⟨not_rangesSound_of_division (by decide) hempty, not_rangesSound_of_division (by decide) hcast,
    rangeBoundaries_division (by decide) hempty, rangeBoundaries_division (by decide) hcast⟩

/-! ## The scan -/

/-- The last boundary: tokens above it lie in no range. -/
def lastBoundary (T : Nat) : Nat := T * ((2 ^ 32 - 1) / T)

theorem lastBoundary_le (T : Nat) : lastBoundary T ≤ 2 ^ 32 - 1 := Nat.mul_div_le _ _

theorem lastBoundary_eq_iff (T : Nat) : lastBoundary T = 2 ^ 32 - 1 ↔ T ∣ 2 ^ 32 - 1 := by
  constructor
  · intro h
    exact ⟨_, h.symm⟩
  · exact Nat.mul_div_cancel'

namespace EvenRanges

variable {ranges : List UInt32} {T n : Nat}

theorem rangeNext_eq (h : EvenRanges T ranges) (hpos : 1 ≤ T) (hT : T ≤ 2 ^ 32 - 1) (hn : 0 < n) (token : UInt32) :
    rangeNext n ranges token =
      .ok (if token.toNat ≤ lastBoundary T then slot ((2 ^ 32 - 1) / T) token.toNat % n else 2 ^ 64 - 1) := by
  have hq : 0 < (2 ^ 32 - 1) / T := Nat.div_pos hT hpos
  have hscan : ranges.findIdx? (fun r => token ≤ r) =
      (ranges.map UInt32.toNat).findIdx? (fun b => token.toNat ≤ b) := by
    rw [List.findIdx?_map]
    rfl
  have hn0 : n ≠ 0 := by omega
  by_cases hle : token.toNat ≤ lastBoundary T
  · have hslot : slot ((2 ^ 32 - 1) / T) token.toNat < T := (slot_lt_iff hq hpos).2 hle
    rw [rangeNext, hscan, h, findIdx?_boundaries hq, if_pos hslot, if_pos hle]
    exact if_neg hn0
  · have hslot : ¬ slot ((2 ^ 32 - 1) / T) token.toNat < T := fun hlt => hle ((slot_lt_iff hq hpos).1 hlt)
    rw [rangeNext, hscan, h, findIdx?_boundaries hq, if_neg hslot, if_neg hle]

/-- `next` gives an index of a server exactly for the tokens up to the last boundary. -/
theorem rangeNext_lt_iff (h : EvenRanges T ranges) (hpos : 1 ≤ T) (hT : T ≤ 2 ^ 32 - 1) (hn : 0 < n) (hnT : n ≤ T)
    (token : UInt32) : (∃ i < n, rangeNext n ranges token = .ok i) ↔ token.toNat ≤ lastBoundary T := by
  rw [h.rangeNext_eq hpos hT hn]
  constructor
  · rintro ⟨i, hi, hok⟩
    by_contra hle
    rw [if_neg hle] at hok
    cases hok
    omega
  · intro hle
    rw [if_pos hle]
    exact ⟨_, Nat.mod_lt _ hn, rfl⟩

end EvenRanges

/-- Some range has the token in it: its `j`-th boundary is `j` times the increment, in 32 bits. -/
def Covered (numServers numTokens : Nat) (token : UInt32) : Prop :=
  ∃ j, 1 ≤ j ∧ j ≤ numServers * numTokens % 2 ^ 64 ∧
    token.toNat ≤ j * ((2 ^ 32 - 1) / (numServers * numTokens % 2 ^ 32)) % 2 ^ 32

theorem covered_iff_le_lastBoundary {n k : Nat} (hpos : 1 ≤ n * k) (hT : n * k ≤ 2 ^ 32 - 1) {token : UInt32} :
    Covered n k token ↔ token.toNat ≤ lastBoundary (n * k) := by
  have hmod : n * k % 2 ^ 32 = n * k := Nat.mod_eq_of_lt (by omega)
  have htotal : n * k % 2 ^ 64 = n * k := Nat.mod_eq_of_lt (by omega)
  have hlast := lastBoundary_le (n * k)
  unfold Covered
  rw [hmod, htotal]
  constructor
  · rintro ⟨j, -, hj, hle⟩
    calc token.toNat ≤ j * ((2 ^ 32 - 1) / (n * k)) % 2 ^ 32 := hle
      _ ≤ j * ((2 ^ 32 - 1) / (n * k)) := Nat.mod_le _ _
      _ ≤ lastBoundary (n * k) := Nat.mul_le_mul_right _ hj
  · intro hle
    refine ⟨n * k, hpos, Nat.le_refl _, ?_⟩
    -- the last boundary itself
    show token.toNat ≤ lastBoundary (n * k) % 2 ^ 32
    rwa [Nat.mod_eq_of_lt (by omega)]

/-- The boundaries of a constructed policy reach exactly the covered tokens. -/
theorem exists_boundary_iff {ranges : List UInt32} (h : rangeBoundaries ids numTokens = .ok ranges) (token : UInt32) :
    (∃ r ∈ ranges, token ≤ r) ↔ Covered ids.length numTokens token := by
  obtain ⟨-, rfl⟩ := rangeBoundaries_ok h
  have hincr : (4294967295 / rangeDivisor ids numTokens).toNat =
      (2 ^ 32 - 1) / (ids.length * numTokens % 2 ^ 32) := by
    rw [UInt32.toNat_div, rangeDivisor, totalTokens, UInt32.toNat_ofNat', Nat.mod_mod_of_dvd _ (by decide)]
    rfl
  have hnat (rs : List UInt32) : (∃ r ∈ rs, token ≤ r) ↔ ∃ b ∈ rs.map UInt32.toNat, token.toNat ≤ b := by
    simp only [List.mem_map, UInt32.le_iff_toNat_le, exists_exists_and_eq_and]
  rw [hnat, toNat_accumulate_mod, hincr]
  constructor
  · rintro ⟨b, hb, hle⟩
    obtain ⟨j, hj, rfl⟩ := List.mem_map.1 hb
    rw [UInt32.toNat_zero, Nat.zero_add] at hle
    exact ⟨j + 1, by omega, List.mem_range.1 hj, hle⟩
  · rintro ⟨j, hpos, hj, hle⟩
    refine ⟨_, List.mem_map.2 ⟨j - 1, List.mem_range.2 (show j - 1 < totalTokens ids numTokens from ?_), rfl⟩, ?_⟩
    · rw [totalTokens]
      omega
    · rwa [UInt32.toNat_zero, Nat.zero_add, Nat.sub_add_cancel hpos]

/-- `next` gives an index of a server exactly when some boundary is not below the token. -/
theorem rangeNext_lt_iff_exists {n : Nat} (hn : 0 < n) (hn64 : n < 2 ^ 64) (ranges : List UInt32) (token : UInt32) :
    (∃ i < n, rangeNext n ranges token = .ok i) ↔ ∃ r ∈ ranges, token ≤ r := by
  have hn0 : n ≠ 0 := by omega
  unfold rangeNext
  cases hscan : ranges.findIdx? fun r => token ≤ r with
  | none =>
    rw [List.findIdx?_eq_none_iff] at hscan
    constructor
    · rintro ⟨i, hi, hok⟩
      cases hok
      omega
    · rintro ⟨r, hr, hle⟩
      exact absurd hle (by simpa using hscan r hr)
  | some j =>
    simp only [if_neg hn0]
    refine iff_of_true ⟨_, Nat.mod_lt _ hn, rfl⟩ ?_
    obtain ⟨hj, hle, -⟩ := List.findIdx?_eq_some_iff_getElem.1 hscan
    exact ⟨ranges[j], List.getElem_mem hj, by simpa using hle⟩

/-- `next` yields the index of an entry of `server_ids_`, and `next_server` that entry. -/
def Routed (p : ReadPolicy) (key : Bytes) (draw : Draw) : Prop :=
  ∃ i srv p', p.next key draw = .ok (i, p') ∧ i < p.serverIds.length ∧ p.serverIds[i]? = some srv ∧
    p.nextServer key draw = .ok (srv, p')

theorem routed_iff {p : ReadPolicy} {key : Bytes} {draw : Draw} :
    Routed p key draw ↔ ∃ i p', p.next key draw = .ok (i, p') ∧ i < p.serverIds.length := by
  constructor
  · rintro ⟨i, srv, p', hnext, hi, -⟩
    exact ⟨i, p', hnext, hi⟩
  · rintro ⟨i, p', hnext, hi⟩
    have hsrv : p.serverIds[i]? = some p.serverIds[i] := List.getElem?_eq_getElem hi
    refine ⟨i, p.serverIds[i], p', hnext, hi, hsrv, ?_⟩
    simp only [ReadPolicy.nextServer, hnext, ok_bind, hsrv, pure_eq_ok]

/-- A token `next` computes an index from makes the read go where that index says. -/
theorem routed_of_rangeNext {p : ReadPolicy} {key : Bytes} {draw : Draw} {ranges : List UInt32} {token : UInt32}
    (h : p.next key draw = rangeNext p.serverIds.length ranges token >>= fun i => .ok (i, p)) :
    Routed p key draw ↔ ∃ i < p.serverIds.length, rangeNext p.serverIds.length ranges token = .ok i := by
  rw [routed_iff, h]
  cases rangeNext p.serverIds.length ranges token with
  | error e => simp
  | ok i => simp

theorem exists_draw (token : UInt32) : ∃ draw : Draw, draw.value 4294967295 = token := by
  refine ⟨⟨fun upper => if upper = 4294967295 then token else 0, ?_⟩, by simp⟩
  intro upper
  by_cases h : upper = 4294967295
  · have hle : token.toNat < 2 ^ 32 := token.toNat_lt
    simp only [h, if_true, UInt32.le_iff_toNat_le]
    exact Nat.le_sub_one_of_lt hle
  · simp [h]

/-- **Which tokens are covered.** The division leaves a remainder at the top: a token is routed when it is not
above the last boundary, and every token is exactly when `T` divides 2^32 - 1. -/
theorem token_covered_iff (ids : List Int32) (hne : ids ≠ []) (numTokens : Nat) (hk : 1 ≤ numTokens)
    (hT : ids.length * numTokens ≤ 2 ^ 32 - 1) :
    ∃ ranges, rangeBoundaries ids numTokens = .ok ranges ∧
      ReadPolicy.make .hash ids numTokens = .ok (.hash ids ranges) ∧
      ReadPolicy.make .randomToken ids numTokens = .ok (.randomToken ids ranges) ∧
      (∀ token, (∃ i < ids.length, rangeNext ids.length ranges token = .ok i) ↔
        token.toNat ≤ lastBoundary (ids.length * numTokens)) ∧
      (∀ key token draw, getToken key = .ok token →
        (Routed (.hash ids ranges) key draw ↔ token.toNat ≤ lastBoundary (ids.length * numTokens))) ∧
      (∀ key draw, Routed (.randomToken ids ranges) key draw ↔
        (draw.value 4294967295).toNat ≤ lastBoundary (ids.length * numTokens)) ∧
      ((∀ key token draw, getToken key = .ok token → Routed (.hash ids ranges) key draw) ↔
        ids.length * numTokens ∣ 2 ^ 32 - 1) ∧
      ((∀ key draw, Routed (.randomToken ids ranges) key draw) ↔ ids.length * numTokens ∣ 2 ^ 32 - 1) := by
  have hn : 0 < ids.length := List.length_pos_iff.2 hne
  have hnT : ids.length ≤ ids.length * numTokens := Nat.le_mul_of_pos_right _ hk
  obtain ⟨ranges, hok, heven⟩ := rangeBoundaries_even (by omega) hT
  have hnext := heven.rangeNext_lt_iff (by omega) hT hn hnT
  have hhash : ∀ key token draw, getToken key = .ok token →
      (Routed (.hash ids ranges) key draw ↔ token.toNat ≤ lastBoundary (ids.length * numTokens)) := by
    intro key token draw htoken
    rw [← hnext]
    refine routed_of_rangeNext (p := .hash ids ranges) ?_
    simp [ReadPolicy.next, ReadPolicy.serverIds, htoken]
  have hdraw : ∀ key draw, Routed (.randomToken ids ranges) key draw ↔
      (draw.value 4294967295).toNat ≤ lastBoundary (ids.length * numTokens) := by
    intro key draw
    rw [← hnext]
    exact routed_of_rangeNext (p := .randomToken ids ranges) rfl
  -- all tokens are covered when the largest one is
  have hall : (∀ token : UInt32, token.toNat ≤ lastBoundary (ids.length * numTokens)) ↔
      ids.length * numTokens ∣ 2 ^ 32 - 1 := by
    rw [← lastBoundary_eq_iff]
    constructor
    · intro h
      exact Nat.le_antisymm (lastBoundary_le _) (h 4294967295)
    · intro h token
      have hlt : token.toNat < 2 ^ 32 := token.toNat_lt
      omega
  refine ⟨ranges, hok, by simp [ReadPolicy.make, hok], by simp [ReadPolicy.make, hok], hnext, hhash, hdraw, ?_, ?_⟩
  · rw [← hall]
    constructor
    · intro h token
      obtain ⟨key, hkey⟩ := getToken_surjective token
      obtain ⟨draw, -⟩ := exists_draw token
      exact (hhash key token draw hkey).1 (h key token draw hkey)
    · intro h key token draw htoken
      exact (hhash key token draw htoken).2 (h token)
  · rw [← hall]
    constructor
    · intro h token
      obtain ⟨draw, rfl⟩ := exists_draw token
      exact (hdraw [] draw).1 (h [] draw)
    · intro h key draw
      exact (hdraw key draw).2 (h _)

theorem token_covered_iff_three :
    (6 : Nat) ≤ 2 ^ 32 - 1 ∧ ∃ ranges, rangeBoundaries [1, 2] 3 = .ok ranges ∧
      ((∃ i < 2, rangeNext 2 ranges 4294967292 = .ok i) ∧ ¬ ∃ i < 2, rangeNext 2 ranges 4294967293 = .ok i) := by
  refine ⟨by decide, ?_⟩
  obtain ⟨ranges, hok, -, -, hnext, -⟩ := token_covered_iff [1, 2] (by decide) 3 (by decide) (by decide)
  refine ⟨ranges, hok, (hnext 4294967292).2 (by decide), ?_⟩
  intro h
  exact absurd ((hnext 4294967293).1 h) (by decide)

/-- A distribution that draws its upper bound. -/
def Draw.top : Draw := ⟨id, fun _ => UInt32.le_refl _⟩

instance : Nonempty Draw := ⟨Draw.top⟩

/-- Two servers with the default of three tokens: the key 52 0f 54 fd hashes to the largest token, which
no range contains. -/
theorem top_token_uncovered :
    ∃ ranges, rangeBoundaries [1, 2] 3 = .ok ranges ∧ getToken [82, 15, 84, 253] = .ok 4294967295 ∧
      rangeNext 2 ranges 4294967295 = .ok (2 ^ 64 - 1) ∧
      (ReadPolicy.hash [1, 2] ranges).nextServer [82, 15, 84, 253] Draw.top =
        .error (.undefinedBehaviour "server_ids_ read out of range") ∧
      (ReadPolicy.randomToken [1, 2] ranges).nextServer [] Draw.top =
        .error (.undefinedBehaviour "server_ids_ read out of range") := by
  refine ⟨_, rfl, ?_, ?_, ?_, ?_⟩ <;> rfl

/-! ## How many tokens a server gets -/

/-- The token lies in the `j`-th range: above the boundary before it, which the first range does not have,
and not above its own. -/
structure InRange (ranges : List UInt32) (j : Nat) (token : UInt32) : Prop where
  above : ∀ i lo, j = i + 1 → ranges[i]? = some lo → lo < token
  upto : ∃ hi, ranges[j]? = some hi ∧ token ≤ hi

/-- How many of the 2^32 tokens `next` sends to index `i`. -/
def tokensTo (numServers : Nat) (ranges : List UInt32) (i : Nat) : Nat :=
  Nat.count (fun t => rangeNext numServers ranges (UInt32.ofNat t) = .ok i) (2 ^ 32)

namespace EvenRanges

variable {ranges : List UInt32} {T n : Nat}

theorem rangeNext_inRange (h : EvenRanges T ranges) (hpos : 1 ≤ T) (hT : T ≤ 2 ^ 32 - 1) (hn : 0 < n) {j : Nat}
    {token : UInt32} (hj : InRange ranges j token) : rangeNext n ranges token = .ok (j % n) := by
  have hq : 0 < (2 ^ 32 - 1) / T := Nat.div_pos hT hpos
  obtain ⟨hi, hhi, hle⟩ := hj.upto
  have hjT : j < T := by
    obtain ⟨hlt, -⟩ := List.getElem?_eq_some_iff.1 hhi
    rwa [h.length_eq] at hlt
  have hupper : token.toNat ≤ (j + 1) * ((2 ^ 32 - 1) / T) := by
    rw [← h.toNat_getElem? hhi]
    exact UInt32.le_iff_toNat_le.1 hle
  have hlower : j = 0 ∨ j * ((2 ^ 32 - 1) / T) < token.toNat := by
    rcases j with _ | i
    · exact .inl rfl
    · have hi' : i < ranges.length := by rw [h.length_eq]; omega
      have hlo : ranges[i]? = some ranges[i] := List.getElem?_eq_getElem hi'
      rw [← h.toNat_getElem? hlo]
      exact .inr (UInt32.lt_iff_toNat_lt.1 (hj.above i _ rfl hlo))
  have hslot : slot ((2 ^ 32 - 1) / T) token.toNat = j := slot_eq hq hlower hupper
  have hlast : token.toNat ≤ lastBoundary T := (slot_lt_iff hq hpos).1 (by omega)
  rw [h.rangeNext_eq hpos hT hn, if_pos hlast, hslot]

theorem tokensTo_eq {k : Nat} (h : EvenRanges (n * k) ranges) (hpos : 1 ≤ n * k) (hT : n * k ≤ 2 ^ 32 - 1) {i : Nat}
    (hi : i < n) : tokensTo n ranges i = k * ((2 ^ 32 - 1) / (n * k)) + if i = 0 then 1 else 0 := by
  have hq : 0 < (2 ^ 32 - 1) / (n * k) := Nat.div_pos hT hpos
  have hn : 0 < n := by omega
  have hnT : n ≤ n * k := Nat.le_mul_of_pos_right _ (Nat.pos_of_mul_pos_left hpos)
  have hlast : lastBoundary (n * k) = k * (n * ((2 ^ 32 - 1) / (n * k))) := by
    rw [lastBoundary, Nat.mul_comm n k, Nat.mul_assoc]
  have hle := lastBoundary_le (n * k)
  -- up to the last boundary `next` is the owner of the slot, above it nothing
  have hiff (t : Nat) (ht : t < 2 ^ 32) : rangeNext n ranges (UInt32.ofNat t) = .ok i ↔
      t ≤ lastBoundary (n * k) ∧ slot ((2 ^ 32 - 1) / (n * k)) t % n = i := by
    rw [h.rangeNext_eq hpos hT hn, UInt32.toNat_ofNat', Nat.mod_eq_of_lt ht, Except.ok.injEq]
    by_cases hle : t ≤ lastBoundary (n * k)
    · simp [hle]
    · simp only [hle, if_false, false_and, iff_false]
      omega
  rw [tokensTo, count_eq_of_below (m := lastBoundary (n * k) + 1)
    (r := fun t => slot ((2 ^ 32 - 1) / (n * k)) t % n = i) (by omega), hlast, count_slot hq hi]
  · intro t ht
    rw [hiff t (by omega)]
    exact and_iff_right (by omega)
  · intro t hge hlt
    rw [hiff t hlt]
    omega

end EvenRanges

/-- **The ranges are balanced.** Index 0 gets one token more than the others, the token 0. -/
theorem ranges_balanced (ids : List Int32) (hne : ids ≠ []) (numTokens : Nat) (hk : 1 ≤ numTokens)
    (hT : ids.length * numTokens ≤ 2 ^ 32 - 1) :
    ∃ ranges, rangeBoundaries ids numTokens = .ok ranges ∧ ranges.length = ids.length * numTokens ∧
      ranges.Pairwise (· < ·) ∧
      (∀ j token, InRange ranges j token → rangeNext ids.length ranges token = .ok (j % ids.length)) ∧
      (∀ i < ids.length, Nat.count (fun j => j % ids.length = i) ranges.length = numTokens) ∧
      ∀ i < ids.length, ∀ j < ids.length,
        tokensTo ids.length ranges i ≤ tokensTo ids.length ranges j + 1 := by
  have hn : 0 < ids.length := List.length_pos_iff.2 hne
  have hpos : 1 ≤ ids.length * numTokens := Nat.mul_pos hn hk
  obtain ⟨ranges, hok, heven⟩ := rangeBoundaries_even hpos hT
  refine ⟨ranges, hok, heven.length_eq, heven.pairwise_lt hpos hT, ?_, ?_, ?_⟩
  · intro j token hj
    exact heven.rangeNext_inRange hpos hT hn hj
  · intro i hi
    have hown := count_rounds (q := 1) Nat.one_pos hi numTokens
    simp only [Nat.div_one, Nat.mul_one] at hown
    rw [heven.length_eq, Nat.mul_comm, hown]
  · intro i hi j hj
    rw [heven.tokensTo_eq hpos hT hi, heven.tokensTo_eq hpos hT hj]
    split <;> omega

theorem ranges_balanced_three :
    ∃ ranges, rangeBoundaries [1, 2] 3 = .ok ranges ∧ ranges.length = 6 ∧
      tokensTo 2 ranges 0 ≤ tokensTo 2 ranges 1 + 1 := by
  obtain ⟨ranges, hok, hlen, -, -, -, hbal⟩ := ranges_balanced [1, 2] (by decide) 3 (by decide) (by decide)
  exact ⟨ranges, hok, hlen, hbal 0 (by decide) 1 (by decide)⟩

end ReplicatedSplinter
