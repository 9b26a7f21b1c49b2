import Mathlib.Data.List.Rotate
import Mathlib.Data.List.Nodup
/-!
# Taking turns

`Turns xs t out`: the elements of `out` are those of `xs` taken in turn, over and over, from turn `t`
on. A round of turns, wherever it begins, is a rotation of `xs`; and over any number of turns no
element comes up more than once more often than another.
-/

namespace Rotation

variable {α : Type*} {xs out : List α} {t : Nat}

def Turns (xs : List α) (t : Nat) (out : List α) : Prop :=
  ∀ j < out.length, out[j]? = xs[(t + j) % xs.length]?

theorem turns_nil (xs : List α) (t : Nat) : Turns xs t [] := by
  intro j hj
  simp at hj

theorem Turns.cons {a : α} (ha : xs[t % xs.length]? = some a) (h : Turns xs (t + 1) out) : Turns xs t (a :: out) := by
  intro j hj
  cases j with
  | zero => rw [List.getElem?_cons_zero, Nat.add_zero, ha]
  | succ j =>
    rw [List.getElem?_cons_succ, h j (Nat.lt_of_succ_lt_succ hj), Nat.add_assoc, Nat.add_comm 1]

theorem Turns.drop (h : Turns xs t out) (d : Nat) : Turns xs (t + d) (out.drop d) := by
  intro j hj
  rw [List.length_drop] at hj
  rw [List.getElem?_drop, h (d + j) (by omega), Nat.add_assoc]

theorem Turns.take (h : Turns xs t out) (m : Nat) : Turns xs t (out.take m) := by
  intro j hj
  rw [List.length_take] at hj
  rw [List.getElem?_take_of_lt (by omega), h j (by omega)]

/-- One round at most: the beginning of a rotation. -/
theorem Turns.eq_take_rotate (h : Turns xs t out) (hlen : out.length ≤ xs.length) :
    out = (xs.rotate t).take out.length := by
  refine List.ext_getElem? fun j => ?_
  by_cases hj : j < out.length
  · rw [h j hj, List.getElem?_take_of_lt hj, List.getElem?_rotate (by omega), Nat.add_comm]
  · rw [List.getElem?_eq_none (by omega), List.getElem?_eq_none (by simp; omega)]

theorem Turns.perm (h : Turns xs t out) (hlen : out.length = xs.length) : out.Perm xs := by
  have hrot := h.eq_take_rotate (Nat.le_of_eq hlen)
  rw [hlen, ← List.length_rotate xs t, List.take_length] at hrot
  rw [hrot]
  exact List.rotate_perm xs t

/-- Over any number of turns no element comes up more than once more often than another. -/
theorem Turns.count_le [DecidableEq α] (h : Turns xs t out) (hnodup : xs.Nodup) {a b : α} (ha : a ∈ xs) (hb : b ∈ xs) :
    out.count a ≤ out.count b + 1 := by
  -- whole rounds are taken off the front; they count once for every element
  induction hm : out.length using Nat.strong_induction_on generalizing out t with
  | _ m ih =>
    have hpos : 0 < xs.length := List.length_pos_of_mem ha
    by_cases hlt : xs.length ≤ out.length
    · have hround : (out.take xs.length).Perm xs := (h.take _).perm (by rw [List.length_take]; omega)
      have hrest := ih (out.drop xs.length).length (by rw [List.length_drop]; omega) (h.drop _) rfl
      have hsplit : ∀ c ∈ xs, out.count c = 1 + (out.drop xs.length).count c := by
        intro c hc
        conv_lhs => rw [← List.take_append_drop xs.length out, List.count_append]
        rw [hround.count_eq, List.count_eq_one_of_mem hnodup hc]
      rw [hsplit a ha, hsplit b hb]
      omega
    · have hle := h.eq_take_rotate (by omega)
      have hdistinct : out.Nodup := by
        rw [hle]
        exact (List.nodup_rotate.2 hnodup).sublist (List.take_sublist _ _)
      have := List.nodup_iff_count_le_one.1 hdistinct a
      omega

end Rotation
