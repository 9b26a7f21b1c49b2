import ReplicatedSplinter.Lib.KeyValue
import Mathlib.Logic.Relation
import Mathlib.Tactic.Common
/-!
# Replicas of one log

A node consumes a shared log in order. An entry takes effect on the node's state first and moves
the node's index afterwards, so between the two moments (`busy`) the state is one entry ahead of
the index. Whatever the nodes do and in whatever order, each is always at a prefix of the log:

* `prefixState app init log i`: the state after the first `i` entries;
* `view_prefixState`: a key-value view of that state, as a replay of writes;
* `Node.AtPrefix`: the invariant; `atPrefix_step` is the step lemma, `atPrefix_steps` the run lemma;
* `AtPrefix.state_cases`: seen from outside, the state is that of the first `idx` or the first
  `idx + 1` entries;
* `applied_le_steps`: a node never goes back; `prefixState_append`: nor does a growing log change what
  its first entries gave.

How an entry acts may depend on its position (`app i e s`).
-/

namespace ReplicatedLog

variable {ε σ : Type}

/-- The state after the first `i` entries of the log. -/
def prefixState (app : Nat → ε → σ → σ) (init : σ) (log : List ε) : Nat → σ
  | 0 => init
  | i + 1 => match log[i]? with
    | some e => app i e (prefixState app init log i)
    | none => prefixState app init log i

theorem prefixState_succ (app : Nat → ε → σ → σ) (init : σ) {log : List ε} {i : Nat} {e : ε}
    (h : log[i]? = some e) :
    prefixState app init log (i + 1) = app i e (prefixState app init log i) := by
  rw [prefixState, h]

/-- Two ways of applying entries that agree on the entries of the prefix reach the same state. -/
theorem prefixState_congr {app app' : Nat → ε → σ → σ} {init : σ} {log : List ε} {n : Nat}
    (h : ∀ i e, i < n → log[i]? = some e → app i e = app' i e) :
    prefixState app init log n = prefixState app' init log n := by
  induction n with
  | zero => rfl
  | succ n ih =>
    have ihn := ih fun i e hi he => h i e (Nat.lt_succ_of_lt hi) he
    cases he : log[n]? with
    | none => simp only [prefixState, he, ihn]
    | some e => rw [prefixState_succ app init he, prefixState_succ app' init he, ihn, h n e n.lt_succ_self he]

/-- Entries that come later do not change the state after a prefix. -/
theorem prefixState_append (app : Nat → ε → σ → σ) (init : σ) (log more : List ε) {n : Nat} (h : n ≤ log.length) :
    prefixState app init (log ++ more) n = prefixState app init log n := by
  induction n with
  | zero => rfl
  | succ n ih =>
    have hlt : n < log.length := h
    simp only [prefixState, List.getElem?_append_left hlt, ih (Nat.le_of_lt hlt)]

/-- Where each entry acts on a key-value view of the state as at most one write, the view after a
prefix is the replay of the prefix's writes. -/
theorem view_prefixState {κ ν : Type} [DecidableEq κ] {app : Nat → ε → σ → σ} {init : σ} (log : List ε)
    (view : σ → KeyValue.Map κ ν) (wr : Nat → ε → Option (KeyValue.Write κ ν)) (n : Nat)
    (h : ∀ i e s, log[i]? = some e → view (app i e s) = (wr i e).elim (view s) (·.apply (view s))) :
    view (prefixState app init log n) =
      KeyValue.replay ((log.take n).zipIdx.filterMap fun p => wr p.2 p.1) (view init) := by
  induction n with
  | zero => rfl
  | succ n ih =>
    cases he : log[n]? with
    | none =>
      have hlen : log.length ≤ n := List.getElem?_eq_none_iff.1 he
      rw [List.take_of_length_le hlen] at ih
      rw [List.take_of_length_le (Nat.le_succ_of_le hlen), ← ih]
      simp only [prefixState, he]
    | some e =>
      have hlt : n < log.length := (List.getElem?_eq_some_iff.1 he).1
      have hn : 0 + (log.take n).length = n := by rw [List.length_take]; omega
      rw [prefixState_succ app init he, h n e _ he, List.take_add_one, he, List.zipIdx_append, hn,
        List.filterMap_append, KeyValue.replay_append, ← ih]
      cases hw : wr n e with
      | none => simp [hw]
      | some w => simp [hw, KeyValue.replay]

/-- A node: its state, the index it reports, and whether an entry has taken effect that the
index does not count yet. -/
structure Node (σ : Type) where
  state : σ
  idx : Nat
  busy : Bool

def Node.start (init : σ) : Node σ := ⟨init, 0, false⟩

/-- The number of entries that have taken effect. -/
def Node.applied (n : Node σ) : Nat := n.idx + n.busy.toNat

inductive Step (app : Nat → ε → σ → σ) (log : List ε) : Node σ → Node σ → Prop
  | apply (s : σ) (i : Nat) (e : ε) : log[i]? = some e → Step app log ⟨s, i, false⟩ ⟨app i e s, i, true⟩
  | advance (s : σ) (i : Nat) : Step app log ⟨s, i, true⟩ ⟨s, i + 1, false⟩

structure Node.AtPrefix (app : Nat → ε → σ → σ) (init : σ) (log : List ε) (n : Node σ) : Prop where
  le : n.applied ≤ log.length
  state_eq : n.state = prefixState app init log n.applied

variable {app : Nat → ε → σ → σ} {init : σ} {log : List ε}

theorem atPrefix_start : (Node.start init).AtPrefix app init log := ⟨Nat.zero_le _, rfl⟩

theorem atPrefix_step {n n' : Node σ} (h : n.AtPrefix app init log) (hs : Step app log n n') :
    n'.AtPrefix app init log := by
  cases hs with
  | apply s i e he =>
    obtain ⟨_, hst⟩ := h
    have hi : i < log.length := (List.getElem?_eq_some_iff.1 he).1
    simp only [Node.applied, Bool.toNat_false, Nat.add_zero] at hst
    refine ⟨by simp only [Node.applied, Bool.toNat_true]; omega, ?_⟩
    simp only [Node.applied, Bool.toNat_true, prefixState_succ app init he, hst]
  | advance s i =>
    obtain ⟨hle, hst⟩ := h
    exact ⟨hle, hst⟩

theorem atPrefix_steps {n n' : Node σ} (h : n.AtPrefix app init log)
    (hs : Relation.ReflTransGen (Step app log) n n') : n'.AtPrefix app init log := by
  induction hs with
  | refl => exact h
  | tail _ hstep ih => exact atPrefix_step ih hstep

theorem applied_le_step {n n' : Node σ} (hs : Step app log n n') : n.applied ≤ n'.applied := by
  cases hs with
  | apply s i e he => simp [Node.applied]
  | advance s i => simp [Node.applied]

theorem applied_le_steps {n n' : Node σ} (hs : Relation.ReflTransGen (Step app log) n n') :
    n.applied ≤ n'.applied := by
  induction hs with
  | refl => exact Nat.le_refl _
  | tail _ hstep ih => exact Nat.le_trans ih (applied_le_step hstep)

/-- At index `i` the state is that of the first `i` or the first `i + 1` entries. -/
theorem Node.AtPrefix.state_cases {n : Node σ} (h : n.AtPrefix app init log) :
    ∃ j, (j = n.idx ∨ j = n.idx + 1) ∧ j ≤ log.length ∧ n.state = prefixState app init log j := by
  refine ⟨n.applied, ?_, h.le, h.state_eq⟩
  unfold Node.applied
  cases n.busy
  · exact Or.inl rfl
  · exact Or.inr rfl

end ReplicatedLog
