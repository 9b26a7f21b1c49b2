import Mathlib.Data.List.Infix
import Mathlib.Algebra.BigOperators.Group.List.Basic
import Mathlib.Algebra.Ring.Nat
/-!
# Batches of a given size

Elements have sizes. `fill size h acc xs` takes elements from the front of `xs` until their sizes,
added to `acc`, reach `h`; the element that reaches it is still taken.
-/

namespace Batch

variable {α : Type*}

def fill (size : α → Nat) (h : Nat) : Nat → List α → List α
  | _, [] => []
  | acc, x :: xs => x :: if h ≤ acc + size x then [] else fill size h (acc + size x) xs

/-- The sizes of all elements together. -/
def total (size : α → Nat) (xs : List α) : Nat := (xs.map size).sum

@[simp] theorem total_nil (size : α → Nat) : total size [] = 0 := rfl

@[simp] theorem total_cons (size : α → Nat) (x : α) (xs : List α) : total size (x :: xs) = size x + total size xs := by
  simp [total]

/-- `pre` is the shortest of the non-empty prefixes of `xs` whose sizes, added to `acc`, reach `h`. -/
structure Shortest (size : α → Nat) (h acc : Nat) (xs pre : List α) : Prop where
  isPre : pre <+: xs
  nonempty : pre ≠ []
  reaches : h ≤ acc + total size pre
  shortest : ∀ q, q <+: xs → q ≠ [] → h ≤ acc + total size q → pre.length ≤ q.length

theorem fill_ne_nil (size : α → Nat) (h acc : Nat) {xs : List α} (hxs : xs ≠ []) : fill size h acc xs ≠ [] := by
  cases xs with
  | nil => exact absurd rfl hxs
  | cons x xs => simp [fill]

theorem fill_pre (size : α → Nat) (h acc : Nat) (xs : List α) : fill size h acc xs <+: xs := by
  induction xs generalizing acc with
  | nil => exact List.prefix_refl _
  | cons x xs ih =>
    rw [fill, List.cons_prefix_cons]
    split
    · exact ⟨rfl, List.nil_prefix⟩
    · exact ⟨rfl, ih _⟩

/-- If the sizes reach `h` at all, the batch is the shortest prefix that does. -/
theorem shortest_fill (size : α → Nat) (h : Nat) {xs : List α} {acc : Nat}
    (hex : ∃ q, q <+: xs ∧ q ≠ [] ∧ h ≤ acc + total size q) : Shortest size h acc xs (fill size h acc xs) := by
  induction xs generalizing acc with
  | nil =>
    obtain ⟨q, hq, hne, -⟩ := hex
    exact absurd (List.prefix_nil.1 hq) hne
  | cons x xs ih =>
    rw [fill]
    by_cases hstop : h ≤ acc + size x
    · rw [if_pos hstop]
      refine ⟨⟨xs, rfl⟩, List.cons_ne_nil _ _, by simpa using hstop, fun q _ hne _ => ?_⟩
      exact List.length_pos_of_ne_nil hne
    · rw [if_neg hstop]
      -- a prefix that reaches `h` has a second element here
      have hrest : ∀ q, q <+: x :: xs → q ≠ [] → h ≤ acc + total size q →
          ∃ q', q = x :: q' ∧ q' <+: xs ∧ q' ≠ [] ∧ h ≤ acc + size x + total size q' := by
        intro q hq hne hreach
        obtain ⟨y, q', rfl⟩ := List.exists_cons_of_ne_nil hne
        obtain ⟨rfl, hq'⟩ := List.cons_prefix_cons.1 hq
        rw [total_cons] at hreach
        refine ⟨q', rfl, hq', ?_, by omega⟩
        rintro rfl
        rw [total_nil] at hreach
        omega
      obtain ⟨q, hq, hne, hreach⟩ := hex
      obtain ⟨q', -, hq', hne', hreach'⟩ := hrest q hq hne hreach
      have hs := ih ⟨q', hq', hne', hreach'⟩
      refine ⟨List.cons_prefix_cons.2 ⟨rfl, hs.isPre⟩, List.cons_ne_nil _ _, ?_, ?_⟩
      · have := hs.reaches
        rw [total_cons]
        omega
      · intro p hp hpne hpr
        obtain ⟨p', rfl, hp', hpne', hpr'⟩ := hrest p hp hpne hpr
        exact Nat.succ_le_succ (hs.shortest p' hp' hpne' hpr')

/-- If no prefix reaches `h`, everything is taken. -/
theorem fill_eq_self (size : α → Nat) (h : Nat) {xs : List α} {acc : Nat}
    (hno : ∀ q, q <+: xs → q ≠ [] → acc + total size q < h) : fill size h acc xs = xs := by
  induction xs generalizing acc with
  | nil => rfl
  | cons x xs ih =>
    have hx := hno [x] ⟨xs, rfl⟩ (List.cons_ne_nil _ _)
    simp only [total_cons, total_nil] at hx
    rw [fill, if_neg (by omega), ih]
    intro q hq hne
    have := hno (x :: q) (List.cons_prefix_cons.2 ⟨rfl, hq⟩) (List.cons_ne_nil _ _)
    rw [total_cons] at this
    omega

end Batch
