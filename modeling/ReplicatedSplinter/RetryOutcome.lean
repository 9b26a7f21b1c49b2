import ReplicatedSplinter.ClientRuns
/-!
# What `retry_mutation` returns

The closure `f` answers by a script, `script i` in iteration `i`, and the leader lookups that are made
find a leader. The variable `result` is declared before the loop (`client.cpp:154`), so what is
returned is the answer of the last iteration, if there was one.

| here | there |
| --- | --- |
| `Final`     | the answers the loop breaks on (`client.cpp:159-164`) |
| `attempts`  | the number of iterations: up to the first final answer, at most `num_retries` |
| `ReturnsAttempt` | the call made `attempts` calls of `f` and returned the answer of the last |
-/

namespace ReplicatedSplinter
open ByteCodec Std

namespace Client

/-- `raft_rc` 0 or 999. -/
def Final (res : RpcMutationResult) : Bool := res.raftRc == cmdResultOk || res.raftRc == CMD_RESULT_WEIRD_CASE

/-- The position of the first final answer among the first `n`, counted from 1; `n` if there is none. -/
def attempts (n : Nat) (script : Nat → RpcMutationResult) : Nat :=
  match (List.range n).findIdx? fun i => Final (script i) with
  | some i => i + 1
  | none => n

/-- Iteration `t` takes place exactly when there are that many and no answer before it was final. -/
theorem lt_attempts_iff {n t : Nat} {script : Nat → RpcMutationResult} :
    t < attempts n script ↔ t < n ∧ ∀ j < t, Final (script j) = false := by
  unfold attempts
  cases hfind : (List.range n).findIdx? fun i => Final (script i) with
  | none =>
    have hnone : ∀ j < n, Final (script j) = false := by
      simpa [List.findIdx?_eq_none_iff] using hfind
    simp only
    exact ⟨fun ht => ⟨ht, fun j hj => hnone j (by omega)⟩, fun h => h.1⟩
  | some i =>
    obtain ⟨hi, hfinal, hbefore⟩ := List.findIdx?_eq_some_iff_getElem.1 hfind
    simp only [List.getElem_range, List.length_range, Bool.not_eq_true] at hi hfinal hbefore
    simp only
    constructor
    · intro ht
      exact ⟨by omega, fun j hj => hbefore j (by omega)⟩
    · rintro ⟨-, hall⟩
      by_contra hlt
      rw [hall i (by omega)] at hfinal
      cases hfinal

theorem Final.of_accepted {res : RpcMutationResult} (h : res.wasAccepted = true) : Final res = true := by
  simp [Final, wasAccepted_iff.1 h]

section Loop
variable (script : Nat → RpcMutationResult) (ask : Nat → Int32 → Nat → Except Exn Int32)

theorem retryLoop_final (n i : Nat) (c : Client) (r : Option RpcMutationResult) (h : Final (script i) = true) :
    retryLoop (fun i => .ok (script i)) ask (n + 1) i c r = ⟨.ok (some (script i)), c, [c.leaderId]⟩ := by
  unfold retryLoop
  by_cases hacc : (script i).wasAccepted = true
  · simp [hacc]
  · have hweird : (script i).raftRc = CMD_RESULT_WEIRD_CASE := by
      rw [wasAccepted_iff] at hacc
      simpa [Final, hacc] using h
    simp [hacc, hweird]

/-- An answer that is not final: the leader may change, the answer is kept, and the loop goes on. -/
theorem retryLoop_next (n i : Nat) (c : Client) (r : Option RpcMutationResult) (h : Final (script i) = false)
    (hlook : isLeaderChange (script i).raftRc = true → c.LeaderReported (ask i)) :
    ∃ leader, retryLoop (fun i => .ok (script i)) ask (n + 1) i c r =
      let run := retryLoop (fun i => .ok (script i)) ask n (i + 1) { c with leaderId := leader } (some (script i))
      { run with leaders := c.leaderId :: run.leaders } := by
  simp only [Final, Bool.or_eq_false_iff, beq_eq_false_iff_ne] at h
  have hacc : ¬ (script i).wasAccepted = true := fun hacc => h.1 (wasAccepted_iff.1 hacc)
  by_cases hlc : isLeaderChange (script i).raftRc = true
  · obtain ⟨leader, hleader⟩ := getLeaderId_isOk.2 (hlook hlc)
    refine ⟨leader, ?_⟩
    rw [retryLoop]
    simp [hacc, h.2, tryHandleLeaderChange, hlc, hleader]
  · refine ⟨c.leaderId, ?_⟩
    rw [retryLoop]
    simp [hacc, h.2, tryHandleLeaderChange, hlc]

/-- With at least one iteration: how many are made and what is returned. The lookups of an iteration that takes
place find a leader. -/
theorem retryLoop_script (n i : Nat) (c : Client) (r : Option RpcMutationResult)
    (hlook : ∀ t ≤ n, (∀ j < t, Final (script (i + j)) = false) →
      isLeaderChange (script (i + t)).raftRc = true → c.LeaderReported (ask (i + t))) :
    ∃ t ≤ n, (∀ j < t, Final (script (i + j)) = false) ∧ (t < n → Final (script (i + t)) = true) ∧
      (retryLoop (fun i => .ok (script i)) ask (n + 1) i c r).outcome = .ok (some (script (i + t))) ∧
      (retryLoop (fun i => .ok (script i)) ask (n + 1) i c r).leaders.length = t + 1 := by
  induction n generalizing i c r with
  | zero =>
    refine ⟨0, Nat.le_refl 0, by omega, by omega, ?_⟩
    cases hfinal : Final (script i) with
    | true =>
      rw [retryLoop_final script ask 0 i c r hfinal]
      exact ⟨rfl, rfl⟩
    | false =>
      obtain ⟨leader, hnext⟩ := retryLoop_next script ask 0 i c r hfinal (hlook 0 (Nat.le_refl 0) (by omega))
      rw [hnext]
      exact ⟨rfl, rfl⟩
  | succ n ih =>
    cases hfinal : Final (script i) with
    | true =>
      refine ⟨0, Nat.zero_le _, by omega, fun _ => hfinal, ?_⟩
      rw [retryLoop_final script ask (n + 1) i c r hfinal]
      exact ⟨rfl, rfl⟩
    | false =>
      obtain ⟨leader, hnext⟩ := retryLoop_next script ask (n + 1) i c r hfinal (hlook 0 (Nat.zero_le _) (by omega))
      -- the rest of the loop is the same with everything one iteration later
      have hshift (t : Nat) : i + 1 + t = i + (t + 1) := by omega
      have hfrom {t : Nat} := forall_lt_succ_from (p := fun j => Final (script j) = false) (i := i) (k := t)
      have hlook' : ∀ t ≤ n, (∀ j < t, Final (script (i + 1 + j)) = false) →
          isLeaderChange (script (i + 1 + t)).raftRc = true →
            ({ c with leaderId := leader } : Client).LeaderReported (ask (i + 1 + t)) := by
        intro t ht hbefore hlc
        rw [hshift] at hlc ⊢
        exact hlook (t + 1) (by omega) (hfrom.2 ⟨hfinal, hbefore⟩) hlc
      obtain ⟨t, ht, hbefore, hstop, hout, hlen⟩ :=
        ih (i + 1) { c with leaderId := leader } (some (script i)) hlook'
      refine ⟨t + 1, by omega, hfrom.2 ⟨hfinal, hbefore⟩, ?_, ?_, ?_⟩
      · intro hlt
        rw [← hshift]
        exact hstop (by omega)
      · rw [← hshift t, hnext]
        exact hout
      · rw [hnext]
        simpa using hlen

end Loop

/-- The call made `attempts` calls of `f`, returned the answer of the last one, and that was accepted exactly
when one of them was. -/
def ReturnsAttempt (c : Client) (script : Nat → RpcMutationResult) (ask : Nat → Int32 → Nat → Except Exn Int32) : Prop :=
  let run := c.retryMutation (fun i => .ok (script i)) ask
  let k := attempts c.numRetries.toNat script
  run.leaders.length = k ∧ ∃ i, k = i + 1 ∧ run.outcome = .ok (some (script i)) ∧
    ((script i).wasAccepted = true ↔ ∃ j < k, (script j).wasAccepted = true)

theorem retryMutation_zero (c : Client) (h : c.numRetries.toNat = 0) (f : Nat → Except Exn RpcMutationResult)
    (ask : Nat → Int32 → Nat → Except Exn Int32) : c.retryMutation f ask = ⟨.ok none, c, []⟩ := by
  rw [retryMutation, h]
  rfl

/-- **The outcome is an attempt's outcome**, for every script, as soon as there is an attempt at all. -/
theorem returns_attempt_iff (c : Client) (script : Nat → RpcMutationResult)
    (ask : Nat → Int32 → Nat → Except Exn Int32)
    (hlook : ∀ i < attempts c.numRetries.toNat script,
      isLeaderChange (script i).raftRc = true → c.LeaderReported (ask i)) :
    c.ReturnsAttempt script ask ↔ 1 ≤ c.numRetries.toNat := by
  constructor
  · rintro ⟨-, i, hk, hout, -⟩
    by_contra hzero
    rw [retryMutation_zero c (by omega)] at hout
    cases hout
  · intro hpos
    obtain ⟨n, hn⟩ : ∃ n, c.numRetries.toNat = n + 1 := ⟨c.numRetries.toNat - 1, by omega⟩
    obtain ⟨t, ht, hbefore, hstop, hout, hlen⟩ := retryLoop_script script ask n 0 c none (by
      intro t ht hbefore hlc
      simp only [Nat.zero_add] at hbefore hlc ⊢
      exact hlook t (lt_attempts_iff.2 ⟨by omega, hbefore⟩) hlc)
    simp only [Nat.zero_add] at hbefore hstop hout
    have hk : attempts c.numRetries.toNat script = t + 1 := by
      have hlt : t < attempts c.numRetries.toNat script := lt_attempts_iff.2 ⟨by omega, hbefore⟩
      have hnot : ¬ t + 1 < attempts c.numRetries.toNat script := by
        intro hmore
        obtain ⟨hn', hall⟩ := lt_attempts_iff.1 hmore
        rw [hall t (by omega)] at hstop
        exact absurd (hstop (by omega)) (by decide)
      omega
    refine ⟨?_, t, hk, ?_, ?_⟩
    · rw [hk, retryMutation, hn]
      exact hlen
    · rw [retryMutation, hn]
      exact hout
    · rw [hk]
      constructor
      · intro hacc
        exact ⟨t, by omega, hacc⟩
      · rintro ⟨j, hj, hacc⟩
        have hjt : ¬ j < t := by
          intro hlt
          have hfinal := Final.of_accepted hacc
          rw [hbefore j hlt] at hfinal
          cases hfinal
        rwa [show t = j by omega]

/-- The first try is answered NOT_LEADER, the second is accepted. -/
def demoScript (i : Nat) : RpcMutationResult := if i = 0 then ⟨0, -3, ""⟩ else ⟨0, 0, ""⟩

theorem returns_attempt_iff_second : demoClient.ReturnsAttempt demoScript fun _ _ _ => .ok 1 := by
  refine (returns_attempt_iff demoClient demoScript (fun _ _ _ => .ok 1) ?_).2 (by decide)
  intro i _ _
  exact ⟨1, by decide, 1, 0, by decide, by omega, rfl, by decide⟩

/-- A client built with no retries sends nothing and returns a result that no server sent. -/
theorem no_retries_returns_nothing :
    ∃ c, Client.new demoSeed (fun _ => true) .roundRobin 1 0 false = .ok c ∧
      (c.retryMutation (fun i => .ok (demoScript i)) fun _ _ _ => .ok 1).outcome = .ok none ∧
      ¬ c.ReturnsAttempt demoScript fun _ _ _ => .ok 1 := by
  refine ⟨_, rfl, rfl, ?_⟩
  rintro ⟨-, i, -, hout, -⟩
  cases hout

end Client

end ReplicatedSplinter
