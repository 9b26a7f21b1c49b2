import Mathlib.Data.List.Induction
import Mathlib.Logic.Function.Basic
import Mathlib.Tactic.Common
/-!
# Key-value maps under a sequence of writes

A map is a function to `Option`; a write binds or unbinds one key. What a key holds after a
sequence of writes is decided by the last write naming it (`replay_eq_lastWrite`).
-/

namespace KeyValue

variable {κ ν : Type} [DecidableEq κ]

abbrev Map (κ ν : Type) := κ → Option ν

/-- Bind a key to a value, or unbind it (`none`). -/
structure Write (κ ν : Type) where
  key : κ
  binding : Option ν
deriving DecidableEq, Repr

def Write.apply (w : Write κ ν) (m : Map κ ν) : Map κ ν := Function.update m w.key w.binding

/-- The map after the writes, in order. -/
def replay (ws : List (Write κ ν)) (m : Map κ ν) : Map κ ν := ws.foldl (fun m w => w.apply m) m

/-- The last write naming `k`. -/
def lastWrite (ws : List (Write κ ν)) (k : κ) : Option (Write κ ν) :=
  ws.reverse.find? fun w => decide (w.key = k)

@[simp] theorem replay_nil (m : Map κ ν) : replay [] m = m := rfl

theorem replay_append (ws vs : List (Write κ ν)) (m : Map κ ν) :
    replay (ws ++ vs) m = replay vs (replay ws m) := List.foldl_append

theorem replay_concat (ws : List (Write κ ν)) (w : Write κ ν) (m : Map κ ν) :
    replay (ws ++ [w]) m = w.apply (replay ws m) := by
  rw [replay_append]; rfl

theorem lastWrite_concat (ws : List (Write κ ν)) (w : Write κ ν) (k : κ) :
    lastWrite (ws ++ [w]) k = if w.key = k then some w else lastWrite ws k := by
  unfold lastWrite
  rw [List.reverse_append, List.reverse_singleton, List.singleton_append, List.find?_cons]
  by_cases h : w.key = k <;> simp [h]

/-- **Last writer wins.** -/
theorem replay_eq_lastWrite (ws : List (Write κ ν)) (m : Map κ ν) (k : κ) :
    replay ws m k = match lastWrite ws k with
      | some w => w.binding
      | none => m k := by
  induction ws using List.reverseRecOn with
  | nil => rfl
  | append_singleton ws w ih =>
    rw [replay_concat, lastWrite_concat]
    by_cases h : w.key = k
    · subst h
      rw [if_pos rfl, Write.apply, Function.update_self]
    · rw [if_neg h, Write.apply, Function.update_of_ne (Ne.symm h), ih]

/-- From the empty map: a key is bound to `v` exactly when the last write naming it binds `v`. -/
theorem replay_empty_eq_some (ws : List (Write κ ν)) (k : κ) (v : ν) :
    replay ws (fun _ => none) k = some v ↔ lastWrite ws k = some ⟨k, some v⟩ := by
  rw [replay_eq_lastWrite]
  cases hw : lastWrite ws k with
  | none => simp
  | some w =>
    have hk : w.key = k := by
      have := List.find?_some hw
      simpa using this
    obtain ⟨key, binding⟩ := w
    subst hk
    simp

/-! ## The same write twice -/

theorem lastWrite_append (ws vs : List (Write κ ν)) (k : κ) :
    lastWrite (ws ++ vs) k = (lastWrite vs k).or (lastWrite ws k) := by
  simp [lastWrite, List.find?_append]

theorem lastWrite_cons (w : Write κ ν) (ws : List (Write κ ν)) (k : κ) :
    lastWrite (w :: ws) k = (lastWrite ws k).or (if w.key = k then some w else none) := by
  by_cases h : w.key = k <;> simp [lastWrite, List.find?_append, h]

theorem replay_congr {ws vs : List (Write κ ν)} {m : Map κ ν} {k : κ} (h : lastWrite ws k = lastWrite vs k) :
    replay ws m k = replay vs m k := by
  rw [replay_eq_lastWrite, replay_eq_lastWrite, h]

/-- Of two copies of a write, the first may go. -/
theorem replay_without_first (as bs cs : List (Write κ ν)) (w : Write κ ν) (m : Map κ ν) :
    replay (as ++ w :: (bs ++ w :: cs)) m = replay (as ++ (bs ++ w :: cs)) m := by
  funext k
  refine replay_congr ?_
  by_cases h : w.key = k <;> simp [lastWrite_append, lastWrite_cons, h]

/-- The second may go when its key is written again afterwards, or was not written to something else in between. -/
theorem replay_without_second (as bs cs : List (Write κ ν)) (w : Write κ ν) (m : Map κ ν) :
    replay (as ++ w :: (bs ++ w :: cs)) m = replay (as ++ w :: (bs ++ cs)) m ↔
      lastWrite cs w.key ≠ none ∨ ∀ b, lastWrite bs w.key = some b → b.binding = w.binding := by
  have hother : ∀ k, w.key ≠ k →
      replay (as ++ w :: (bs ++ w :: cs)) m k = replay (as ++ w :: (bs ++ cs)) m k := by
    intro k h
    refine replay_congr ?_
    simp [lastWrite_append, lastWrite_cons, h]
  have hkey : replay (as ++ w :: (bs ++ w :: cs)) m w.key = replay (as ++ w :: (bs ++ cs)) m w.key ↔
      lastWrite cs w.key ≠ none ∨ ∀ b, lastWrite bs w.key = some b → b.binding = w.binding := by
    rw [replay_eq_lastWrite, replay_eq_lastWrite]
    cases hc : lastWrite cs w.key with
    | some c => simp [lastWrite_append, lastWrite_cons, hc]
    | none =>
      cases hb : lastWrite bs w.key with
      | none => simp [lastWrite_append, lastWrite_cons, hc, hb]
      | some b => simp [lastWrite_append, lastWrite_cons, hc, hb, eq_comm]
  rw [← hkey]
  refine ⟨fun h => congrFun h _, fun h => funext fun k => ?_⟩
  by_cases hk : w.key = k
  · exact hk ▸ h
  · exact hother k hk

end KeyValue
