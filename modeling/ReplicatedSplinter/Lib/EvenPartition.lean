import Mathlib.Algebra.Ring.Nat
import Mathlib.Data.Nat.Count
import Mathlib.Tactic.Common
/-!
# Cutting the naturals into slots of equal width, dealt to owners in turn

`boundaries q m` lists the upper ends `q, 2q, …, mq` of `m` slots of width `q`. An end belongs to its
slot, and so does 0 to the first one, which therefore has one number more than the others. Slot `j`
goes to owner `j % n`.

* `findIdx?_boundaries`: scanning the ends for the first one not below `t` finds the slot of `t`.
* `count_slot`: with `k` slots for each of the `n` owners, owner 0 has one number more than the rest.
-/

namespace EvenPartition

def boundaries (q m : Nat) : List Nat := (List.range m).map fun j => (j + 1) * q

def slot (q t : Nat) : Nat := (t - 1) / q

variable {q m n t : Nat}

theorem slot_lt_iff (hq : 0 < q) (hm : 0 < m) : slot q t < m ↔ t ≤ m * q := by
  have hpos : 0 < m * q := Nat.mul_pos hm hq
  rw [slot, Nat.div_lt_iff_lt_mul hq]
  omega

/-- No end before the slot of `t` reaches `t`. -/
theorem end_lt {j : Nat} (hq : 0 < q) (h : j < slot q t) : (j + 1) * q < t := by
  have hle : (j + 1) * q ≤ t - 1 := (Nat.le_div_iff_mul_le hq).1 h
  have hpos : 0 < (j + 1) * q := Nat.mul_pos j.succ_pos hq
  omega

theorem slot_eq {j : Nat} (hq : 0 < q) (hlow : j = 0 ∨ j * q < t) (hhigh : t ≤ (j + 1) * q) : slot q t = j := by
  have hlt : slot q t < j + 1 := (slot_lt_iff hq j.succ_pos).2 hhigh
  rcases hlow with rfl | hlow
  · omega
  · have hge : j ≤ slot q t := (Nat.le_div_iff_mul_le hq).2 (by omega)
    omega

theorem length_boundaries : (boundaries q m).length = m := by simp [boundaries]

theorem getElem_boundaries {j : Nat} (h : j < (boundaries q m).length) : (boundaries q m)[j] = (j + 1) * q := by
  simp [boundaries]

theorem pairwise_boundaries (hq : 0 < q) : (boundaries q m).Pairwise (· < ·) := by
  rw [boundaries, List.pairwise_map]
  refine List.pairwise_lt_range.imp ?_
  intro i j hij
  exact Nat.mul_lt_mul_of_pos_right (by omega) hq

theorem findIdx?_boundaries (hq : 0 < q) :
    (boundaries q m).findIdx? (fun b => t ≤ b) = if slot q t < m then some (slot q t) else none := by
  split
  case isTrue h =>
    refine List.findIdx?_eq_some_iff_getElem.2 ⟨by rwa [length_boundaries], ?_, ?_⟩
    · have hle : t ≤ (slot q t + 1) * q := (slot_lt_iff hq (Nat.succ_pos _)).1 (Nat.lt_succ_self _)
      simpa [getElem_boundaries] using hle
    · intro j hj
      have hlt : (j + 1) * q < t := end_lt hq hj
      simpa [getElem_boundaries] using hlt
  case isFalse h =>
    rw [List.findIdx?_eq_none_iff]
    intro b hb
    obtain ⟨j, hj, rfl⟩ := List.mem_map.1 hb
    have hlt : (j + 1) * q < t := end_lt hq (by have := List.mem_range.1 hj; omega)
    simpa using hlt

/-! ## How many numbers an owner has -/

/-- Below `m` the two properties agree, from there to `N` the first has no number. -/
theorem count_eq_of_below {p r : Nat → Prop} [DecidablePred p] [DecidablePred r] {N : Nat} (hm : m ≤ N)
    (hbelow : ∀ t < m, p t ↔ r t) (habove : ∀ t, m ≤ t → t < N → ¬ p t) : Nat.count p N = Nat.count r m := by
  have hrest : Nat.count (fun t => p (m + t)) (N - m) = 0 := by
    rw [Nat.count_iff_forall_not]
    intro t ht
    exact habove (m + t) (by omega) (by omega)
  have hfirst : Nat.count p m = Nat.count r m :=
    Nat.le_antisymm (Nat.count_mono_left fun t ht => (hbelow t ht).1) (Nat.count_mono_left fun t ht => (hbelow t ht).2)
  have hsplit : N = m + (N - m) := by omega
  rw [hsplit, Nat.count_add, hrest, hfirst, Nat.add_zero]

/-- In one round of the owners, `i` has the `i`-th block of `q` numbers. -/
theorem count_round {i : Nat} (hq : 0 < q) (hi : i < n) :
    Nat.count (fun s => s / q % n = i) (n * q) = q := by
  have hsplit : n * q = i * q + (q + (n - 1 - i) * q) := by
    have hn : n = i + (1 + (n - 1 - i)) := by omega
    calc n * q = (i + (1 + (n - 1 - i))) * q := by rw [← hn]
      _ = i * q + (q + (n - 1 - i) * q) := by rw [Nat.add_mul, Nat.add_mul, Nat.one_mul]
  have hbefore : Nat.count (fun s => s / q % n = i) (i * q) = 0 := by
    rw [Nat.count_iff_forall_not]
    intro s hs
    have hdiv : s / q < i := (Nat.div_lt_iff_lt_mul hq).2 hs
    rw [Nat.mod_eq_of_lt (by omega)]
    omega
  have hown : Nat.count (fun s => (i * q + s) / q % n = i) q = q := by
    rw [Nat.count_iff_forall]
    intro s hs
    rw [Nat.mul_comm, Nat.mul_add_div hq, Nat.div_eq_of_lt hs, Nat.add_zero, Nat.mod_eq_of_lt hi]
  have hafter : Nat.count (fun s => (i * q + (q + s)) / q % n = i) ((n - 1 - i) * q) = 0 := by
    rw [Nat.count_iff_forall_not]
    intro s hs
    have hdiv : s / q < n - 1 - i := (Nat.div_lt_iff_lt_mul hq).2 hs
    have hblock : (i * q + (q + s)) / q = i + 1 + s / q := by
      rw [← Nat.add_assoc, ← Nat.succ_mul, Nat.mul_comm, Nat.mul_add_div hq]
    generalize s / q = d at hdiv hblock
    rw [hblock, Nat.mod_eq_of_lt (by omega)]
    omega
  rw [hsplit, Nat.count_add, Nat.count_add, hbefore, hown, hafter]
  omega

theorem count_rounds {i : Nat} (hq : 0 < q) (hi : i < n) (k : Nat) :
    Nat.count (fun s => s / q % n = i) (k * (n * q)) = k * q := by
  induction k with
  | zero => simp
  | succ k ih =>
    have hperiod (s : Nat) : (k * (n * q) + s) / q % n = s / q % n := by
      rw [← Nat.mul_assoc, Nat.mul_comm _ q, Nat.mul_add_div hq, Nat.mul_comm k n, Nat.mul_add_mod]
    rw [Nat.succ_mul, Nat.count_add, ih]
    simp only [hperiod, count_round hq hi, Nat.succ_mul]

theorem count_slot {i : Nat} (hq : 0 < q) (hi : i < n) (k : Nat) :
    Nat.count (fun t => slot q t % n = i) (k * (n * q) + 1) = k * q + if i = 0 then 1 else 0 := by
  have hzero : slot q 0 % n = i ↔ i = 0 := by
    rw [slot, Nat.zero_sub, Nat.zero_div, Nat.zero_mod]
    exact eq_comm
  have hsucc : Nat.count (fun s => slot q (s + 1) % n = i) (k * (n * q)) = k * q := count_rounds hq hi k
  rw [Nat.count_succ', hsucc]
  simp only [hzero]

end EvenPartition
