import Mathlib.Data.List.Basic
import Mathlib.Tactic.Common
/-!
# A ring of slots

Slots stand in a circle and a cursor moves around it. Read from the cursor on, the slot the cursor is
about to reach is the first, the one it has left the last. A slot holds something or nothing.

* `fromCursor c xs`: the slots in that order; `held`: what they hold;
* `held_write`: filling a free slot at the cursor and moving on puts its content last.
-/

namespace Ring

variable {α β : Type}

/-- The slots from `c` on, all around. -/
def fromCursor (c : Nat) (xs : List α) : List α := xs.drop c ++ xs.take c

/-- What the slots hold, read from `c` on. -/
def held (f : α → Option β) (c : Nat) (xs : List α) : List β := (fromCursor c xs).filterMap f

theorem fromCursor_split {xs : List α} {c : Nat} {y : α} (h : xs[c]? = some y) :
    ∃ a b, xs = a ++ y :: b ∧ a.length = c ∧ fromCursor c xs = y :: (b ++ a) := by
  obtain ⟨hlt, rfl⟩ := List.getElem?_eq_some_iff.1 h
  refine ⟨xs.take c, xs.drop (c + 1), ?_, by simp; omega, ?_⟩
  · rw [← List.drop_eq_getElem_cons hlt, List.take_append_drop]
  · rw [fromCursor, List.drop_eq_getElem_cons hlt, List.cons_append]

/-- Writing at the cursor and moving on: the slot goes from the front to the back. -/
theorem fromCursor_set {xs : List α} {c : Nat} {y : α} (h : xs[c]? = some y) (x : α) :
    ∃ rest, fromCursor c xs = y :: rest ∧ fromCursor ((c + 1) % xs.length) (xs.set c x) = rest ++ [x] := by
  obtain ⟨a, b, hxs, hlen, hcur⟩ := fromCursor_split h
  refine ⟨b ++ a, hcur, ?_⟩
  have hset : xs.set c x = a ++ x :: b := by
    rw [hxs, List.set_append_right c x (by omega), hlen, Nat.sub_self, List.set_cons_zero]
  have hn : xs.length = c + 1 + b.length := by
    rw [hxs, List.length_append, List.length_cons]
    omega
  rw [hset, hn]
  cases b with
  | nil =>
    rw [List.length_nil, Nat.add_zero, Nat.mod_self]
    simp [fromCursor]
  | cons z b =>
    have hsplit : a ++ x :: z :: b = (a ++ [x]) ++ z :: b := by simp
    have hlen' : (a ++ [x]).length = c + 1 := by simp [hlen]
    rw [List.length_cons, Nat.mod_eq_of_lt (by omega), hsplit, fromCursor, ← hlen', List.drop_left, List.take_left]
    simp

/-- A free slot filled at the cursor holds the last element. -/
theorem held_write {f : α → Option β} {xs : List α} {c : Nat} {y x : α} {v : β} (h : xs[c]? = some y)
    (hfree : f y = none) (hx : f x = some v) :
    held f ((c + 1) % xs.length) (xs.set c x) = held f c xs ++ [v] := by
  obtain ⟨rest, hold, hnew⟩ := fromCursor_set h x
  simp [held, hold, hnew, hfree, hx]

end Ring
