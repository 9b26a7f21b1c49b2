import Mathlib.Data.Nat.Basic
/-!
# Logs with a first index

A log is a first index `start ≥ 1` and the entries at `start`, `start + 1`, ... . What each operation
does is said once, by its `start`, its `next` (one past the last index) and its `get?`.
-/

/-- A finite sequence of entries whose first has index `start`. -/
structure IndexedLog (α : Type) where
  start : Nat
  start_pos : 1 ≤ start
  entries : List α

namespace IndexedLog
variable {α : Type}

def empty : IndexedLog α := ⟨1, Nat.le_refl 1, []⟩

/-- The index the next entry will get. -/
def next (l : IndexedLog α) : Nat := l.start + l.entries.length

def get? (l : IndexedLog α) (i : Nat) : Option α := if l.start ≤ i then l.entries[i - l.start]? else none

def append (l : IndexedLog α) (e : α) : IndexedLog α := { l with entries := l.entries ++ [e] }

/-- Truncate at `i` and put `e` there. -/
def writeAt (l : IndexedLog α) (i : Nat) (e : α) : IndexedLog α :=
  { l with entries := l.entries.take (i - l.start) ++ [e] }

/-- Put `e` at `i`, or at the end if `i` is the next index; nothing is truncated. -/
def put (l : IndexedLog α) (i : Nat) (e : α) : IndexedLog α :=
  if i < l.next then { l with entries := l.entries.set (i - l.start) e } else l.append e

/-- Drop the entries up to `j`. -/
def compact (l : IndexedLog α) (j : Nat) : IndexedLog α where
  start := max l.start (j + 1)
  start_pos := Nat.le_trans l.start_pos (Nat.le_max_left _ _)
  entries := l.entries.drop (j + 1 - l.start)

/-- Put `es` at the end; a log without entries starts over at `i`. -/
def extend (l : IndexedLog α) (i : Nat) (hi : 1 ≤ i) (es : List α) : IndexedLog α :=
  if l.entries = [] then ⟨i, hi, es⟩ else { l with entries := l.entries ++ es }

/-- The `n` entries from index `i` on. -/
def slice (l : IndexedLog α) (i n : Nat) : List α := (l.entries.drop (i - l.start)).take n

theorem next_pos (l : IndexedLog α) : 1 ≤ l.next := Nat.le_trans l.start_pos (Nat.le_add_right _ _)

theorem get?_of_le {l : IndexedLog α} {i : Nat} (h : l.start ≤ i) : l.get? i = l.entries[i - l.start]? := if_pos h

theorem get?_of_lt {l : IndexedLog α} {i : Nat} (h : i < l.start) : l.get? i = none := if_neg (by omega)

theorem get?_of_nil {l : IndexedLog α} (h : l.entries = []) (i : Nat) : l.get? i = none := by
  rw [get?, h]
  split <;> simp

theorem get?_eq_some_of_lt {l : IndexedLog α} {i : Nat} (h1 : l.start ≤ i) (h2 : i < l.next) :
    ∃ e, l.get? i = some e := by
  unfold next at h2
  have hlt : i - l.start < l.entries.length := by omega
  exact ⟨l.entries[i - l.start], by rw [get?_of_le h1, List.getElem?_eq_getElem hlt]⟩

theorem get?_eq_none {l : IndexedLog α} {i : Nat} (h : i < l.start ∨ l.next ≤ i) : l.get? i = none := by
  unfold next at h
  rcases h with h | h
  · exact get?_of_lt h
  · rw [get?_of_le (by omega), List.getElem?_eq_none (by omega)]

theorem isSome_get? {l : IndexedLog α} {i : Nat} : (l.get? i).isSome = true ↔ l.start ≤ i ∧ i < l.next := by
  by_cases h : l.start ≤ i ∧ i < l.next
  · obtain ⟨e, he⟩ := get?_eq_some_of_lt h.1 h.2
    simp [he, h]
  · have hnone : l.get? i = none := get?_eq_none (by omega)
    simp [hnone, h]

theorem length_slice {l : IndexedLog α} {i n : Nat} (h1 : l.start ≤ i) (h2 : i + n ≤ l.next) :
    (l.slice i n).length = n := by
  unfold next at h2
  rw [slice, List.length_take, List.length_drop]
  omega

theorem getElem?_slice {l : IndexedLog α} {i n t : Nat} (h1 : l.start ≤ i) (ht : t < n) :
    (l.slice i n)[t]? = l.get? (i + t) := by
  rw [slice, List.getElem?_take, if_pos ht, List.getElem?_drop, get?_of_le (by omega),
    show i - l.start + t = i + t - l.start by omega]

/-- An entry of a slice, and where it stands in the log. -/
theorem get?_of_slice {l : IndexedLog α} {i n t : Nat} {e : α} (h1 : l.start ≤ i) (h : (l.slice i n)[t]? = some e) :
    t < n ∧ l.get? (i + t) = some e := by
  have hlt : t < (l.slice i n).length := (List.getElem?_eq_some_iff.1 h).1
  rw [slice, List.length_take] at hlt
  have ht : t < n := by omega
  exact ⟨ht, by rw [← getElem?_slice h1 ht, h]⟩

/-! ## The operations -/

@[simp] theorem next_append (l : IndexedLog α) (e : α) : (l.append e).next = l.next + 1 := by
  simp [next, append, Nat.add_assoc]

theorem get?_append (l : IndexedLog α) (e : α) (i : Nat) :
    (l.append e).get? i = if i = l.next then some e else l.get? i := by
  by_cases hs : l.start ≤ i
  · have hget : (l.append e).get? i = (l.entries ++ [e])[i - l.start]? := get?_of_le hs
    rw [hget, get?_of_le hs]
    unfold next
    by_cases hi : i = l.start + l.entries.length
    · simp [hi]
    · rw [if_neg hi, List.getElem?_append]
      by_cases hlt : i - l.start < l.entries.length
      · rw [if_pos hlt]
      · rw [if_neg hlt, List.getElem?_eq_none (by simp; omega), List.getElem?_eq_none (by omega)]
  · have hlt : i < l.start := by omega
    have hnext : i ≠ l.next := by unfold next; omega
    rw [if_neg hnext, get?_of_lt hlt, get?_of_lt (show i < (l.append e).start from hlt)]

theorem next_writeAt {l : IndexedLog α} {i : Nat} (e : α) (h1 : l.start ≤ i) (h2 : i ≤ l.next) :
    (l.writeAt i e).next = i + 1 := by
  unfold next at h2
  simp only [next, writeAt, List.length_append, List.length_take, List.length_singleton]
  omega

theorem get?_writeAt {l : IndexedLog α} {i : Nat} (e : α) (h1 : l.start ≤ i) (h2 : i ≤ l.next) (k : Nat) :
    (l.writeAt i e).get? k = if k = i then some e else if i < k then none else l.get? k := by
  rcases Nat.lt_or_ge i k with hik | hki
  · rw [if_neg (by omega), if_pos hik]
    exact get?_eq_none (Or.inr (by rw [next_writeAt e h1 h2]; omega))
  · rcases Nat.lt_or_ge k l.start with hlt | hs
    · rw [if_neg (by omega), if_neg (by omega), get?_of_lt hlt,
        get?_of_lt (show k < (l.writeAt i e).start from hlt)]
    · have hlen : (l.entries.take (i - l.start)).length = i - l.start := by
        unfold next at h2
        rw [List.length_take]
        omega
      have hget : (l.writeAt i e).get? k = (l.entries.take (i - l.start) ++ [e])[k - l.start]? := get?_of_le hs
      rw [hget, List.getElem?_append, hlen]
      by_cases hk : k = i
      · simp [hk]
      · rw [if_pos (by omega), if_neg hk, if_neg (by omega), List.getElem?_take, if_pos (by omega), get?_of_le hs]

theorem get?_compact (l : IndexedLog α) (j k : Nat) :
    (l.compact j).get? k = if k ≤ j then none else l.get? k := by
  have hstart : (l.compact j).start = max l.start (j + 1) := rfl
  by_cases hk : k ≤ j
  · rw [if_pos hk, get?_of_lt (by omega)]
  · rw [if_neg hk]
    rcases Nat.lt_or_ge k l.start with hlt | hs
    · rw [get?_of_lt hlt, get?_of_lt (by omega)]
    · have hget : (l.compact j).get? k = (l.entries.drop (j + 1 - l.start))[k - max l.start (j + 1)]? :=
        get?_of_le (by omega)
      rw [hget, get?_of_le hs, List.getElem?_drop]
      congr 1
      omega

theorem next_compact (l : IndexedLog α) (j : Nat) : (l.compact j).next = max l.next (j + 1) := by
  simp only [next, compact, List.length_drop]
  omega

section Put
variable {l : IndexedLog α} {i : Nat}

@[simp] theorem start_put (l : IndexedLog α) (i : Nat) (e : α) : (l.put i e).start = l.start := by
  unfold put
  split <;> rfl

theorem next_put (e : α) (h : i ≤ l.next) : (l.put i e).next = max l.next (i + 1) := by
  unfold put
  split
  · simp only [next, List.length_set] at *
    omega
  · rw [next_append]
    omega

theorem get?_put (e : α) (h1 : l.start ≤ i) (h2 : i ≤ l.next) (k : Nat) :
    (l.put i e).get? k = if k = i then some e else l.get? k := by
  unfold put
  split
  · rename_i hlt
    unfold next at hlt
    rcases Nat.lt_or_ge k l.start with hk | hk
    · rw [if_neg (by omega), get?_of_lt hk]
      exact get?_of_lt hk
    · have hget : ({ l with entries := l.entries.set (i - l.start) e } : IndexedLog α).get? k =
          (l.entries.set (i - l.start) e)[k - l.start]? := get?_of_le hk
      rw [hget, get?_of_le hk]
      by_cases hki : k = i
      · rw [if_pos hki, hki, List.getElem?_set_self (by omega)]
      · rw [if_neg hki, List.getElem?_set_ne (by omega)]
  · have hi : i = l.next := by omega
    rw [get?_append, hi]

end Put

section Extend
variable {l : IndexedLog α} {i : Nat} {es : List α}

theorem extend_of_nil (hi : 1 ≤ i) (h : l.entries = []) : l.extend i hi es = ⟨i, hi, es⟩ := if_pos h

theorem extend_of_ne_nil (hi : 1 ≤ i) (h : l.entries ≠ []) :
    l.extend i hi es = { l with entries := l.entries ++ es } := if_neg h

theorem entries_extend_ne_nil (hi : 1 ≤ i) (hes : es ≠ []) : (l.extend i hi es).entries ≠ [] := by
  by_cases he : l.entries = []
  · rw [extend_of_nil hi he]
    exact hes
  · rw [extend_of_ne_nil hi he]
    simp [he]

theorem next_extend (hi : 1 ≤ i) (h : i = l.next ∨ l.entries = []) :
    (l.extend i hi es).next = i + es.length := by
  by_cases he : l.entries = []
  · rw [extend_of_nil hi he]; rfl
  · rw [extend_of_ne_nil hi he, h.resolve_right he]
    simp only [next, List.length_append]
    omega

theorem get?_extend (hi : 1 ≤ i) (h : i = l.next ∨ l.entries = []) (k : Nat) :
    (l.extend i hi es).get? k = if i ≤ k ∧ k < i + es.length then es[k - i]? else l.get? k := by
  by_cases hnext : i + es.length ≤ k
  · have hnone : l.get? k = none := by
      rcases h with h | h
      · exact get?_eq_none (Or.inr (by omega))
      · exact get?_of_nil h k
    rw [if_neg (by omega), hnone]
    exact get?_eq_none (Or.inr (by rw [next_extend hi h]; exact hnext))
  by_cases he : l.entries = []
  · rw [extend_of_nil hi he]
    by_cases hk : i ≤ k
    · rw [if_pos (by omega)]
      exact get?_of_le hk
    · rw [if_neg (by omega), get?_of_nil he]
      exact get?_of_lt (show k < i by omega)
  · have hn : i = l.start + l.entries.length := h.resolve_right he
    rw [extend_of_ne_nil hi he]
    rcases Nat.lt_or_ge k l.start with hlt | hs
    · rw [if_neg (by omega), get?_of_lt hlt]
      exact get?_of_lt hlt
    · have hget : ({ l with entries := l.entries ++ es } : IndexedLog α).get? k = (l.entries ++ es)[k - l.start]? :=
        get?_of_le hs
      rw [hget, List.getElem?_append]
      by_cases hk : i ≤ k
      · rw [if_neg (by omega), if_pos (by omega)]
        congr 1
        omega
      · rw [if_pos (by omega), if_neg (by omega), get?_of_le hs]

end Extend

end IndexedLog
