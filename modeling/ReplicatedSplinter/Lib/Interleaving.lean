import Mathlib.Logic.Relation
import Mathlib.Tactic.Common
/-!
# A reader among writers

A thread reads a shared state in several atomic sections and computes with what it has read; other
threads change the state between the sections. If they leave alone whatever the reader asks for, it
returns what it would have returned at any one moment:

* `Thread`: the thread, as a tree of questions; `run` is the whole thread in one moment;
* `Asks`: the questions asked along a run;
* `steps_run`: the rule. Every interleaving keeps the value of `run`.
-/

namespace Interleaving

variable {σ Q A R R' : Type}

/-- A thread that asks, one section each, and returns. -/
inductive Thread (Q A R : Type)
  | done (r : R)
  | ask (q : Q) (k : A → Thread Q A R)

namespace Thread

def run (answer : Q → A) : Thread Q A R → R
  | .done r => r
  | .ask q k => (k (answer q)).run answer

/-- One thread after the other. -/
def bind (f : R → Thread Q A R') : Thread Q A R → Thread Q A R'
  | .done r => f r
  | .ask q k => .ask q fun a => (k a).bind f

@[simp] theorem run_done (answer : Q → A) (r : R) : (done r : Thread Q A R).run answer = r := rfl

@[simp] theorem run_ask (answer : Q → A) (q : Q) (k : A → Thread Q A R) :
    (ask q k).run answer = (k (answer q)).run answer := rfl

theorem run_bind (answer : Q → A) (p : Thread Q A R) (f : R → Thread Q A R') :
    (p.bind f).run answer = (f (p.run answer)).run answer := by
  induction p with
  | done r => rfl
  | ask q k ih => exact ih (answer q)

/-- With these answers, only questions in `I` are asked. -/
inductive Asks (answer : Q → A) (I : Q → Prop) : Thread Q A R → Prop
  | done (r : R) : Asks answer I (.done r)
  | ask (q : Q) (k : A → Thread Q A R) : I q → Asks answer I (k (answer q)) → Asks answer I (.ask q k)

theorem Asks.mono {answer : Q → A} {I J : Q → Prop} {p : Thread Q A R} (h : p.Asks answer I) (hIJ : ∀ q, I q → J q) :
    p.Asks answer J := by
  induction h with
  | done r => exact .done r
  | ask q k hq _ ih => exact .ask q k (hIJ q hq) ih

theorem Asks.bind {answer : Q → A} {I : Q → Prop} {p : Thread Q A R} {f : R → Thread Q A R'}
    (h : p.Asks answer I) (hf : (f (p.run answer)).Asks answer I) : (p.bind f).Asks answer I := by
  induction h with
  | done r => exact hf
  | ask q k hq _ ih => exact .ask q _ hq (ih hf)

/-- Answers that agree on the questions asked lead to the same run. -/
theorem Asks.congr {f g : Q → A} {I : Q → Prop} {p : Thread Q A R} (h : p.Asks f I)
    (hfg : ∀ q, I q → g q = f q) : p.run g = p.run f ∧ p.Asks g I := by
  induction h with
  | done r => exact ⟨rfl, .done r⟩
  | ask q k hq _ ih =>
    have heq := hfg q hq
    exact ⟨by rw [run_ask, heq, ih.1, run_ask], .ask q k hq (by rw [heq]; exact ih.2)⟩

end Thread

/-- Another thread's step, or the reader's next section. -/
inductive Step (read : σ → Q → A) (env : σ → σ → Prop) : σ × Thread Q A R → σ × Thread Q A R → Prop
  | other (s s' : σ) (p : Thread Q A R) : env s s' → Step read env (s, p) (s', p)
  | own (s : σ) (q : Q) (k : A → Thread Q A R) : Step read env (s, .ask q k) (s, k (read s q))

/-- **Interference-free reads are atomic.** If the other threads keep `Inv`, and under it leave the
answers in `I` alone, a reader that asks only these computes at every moment what it did at the first. -/
theorem steps_run {read : σ → Q → A} {env : σ → σ → Prop} (Inv : σ → Prop) (I : Q → Prop)
    (hstable : ∀ s s', Inv s → env s s' → Inv s' ∧ ∀ q, I q → read s' q = read s q)
    {x y : σ × Thread Q A R} (hs : Relation.ReflTransGen (Step read env) x y) (hinv : Inv x.1)
    (hp : x.2.Asks (read x.1) I) :
    Inv y.1 ∧ y.2.Asks (read y.1) I ∧ y.2.run (read y.1) = x.2.run (read x.1) ∧
      ∀ q, I q → read y.1 q = read x.1 q := by
  induction hs with
  | refl => exact ⟨hinv, hp, rfl, fun _ _ => rfl⟩
  | tail _ hstep ih =>
    obtain ⟨hinv', hask, hrun, hsame⟩ := ih
    cases hstep with
    | other s s' p henv =>
      obtain ⟨hinv'', heq⟩ := hstable s s' hinv' henv
      obtain ⟨hr, ha⟩ := hask.congr heq
      exact ⟨hinv'', ha, hr.trans hrun, fun q hq => (heq q hq).trans (hsame q hq)⟩
    | own s q k =>
      cases hask with
      | ask _ _ hq hrest => exact ⟨hinv', hrest, hrun, hsame⟩

end Interleaving
