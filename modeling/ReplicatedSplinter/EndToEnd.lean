import ReplicatedSplinter.SessionGuarantees
import ReplicatedSplinter.RetryOutcome
/-!
# From the client's call to the replicas

A mutation call of the client sends one RPC per attempt (`client.cpp:152-199`); each of them is a call of
the group in `Sessions.lean`. `Carried` ties the two together, and `mutate_success_applied` is what a
caller of `put`, `update` or `del` has when the call returns a success.
-/

namespace ReplicatedSplinter
open ByteCodec KeyValue ReplicatedLog

namespace Client

/-- A result the loop returns is what the closure returned last, and nothing before it was reported as accepted. -/
theorem retryLoop_outcome {f : Nat → Except Exn RpcMutationResult} {ask : Nat → Int32 → Nat → Except Exn Int32}
    {n i : Nat} {c : Client} {r : Option RpcMutationResult} {res : RpcMutationResult}
    (h : (retryLoop f ask n i c r).outcome = .ok (some res)) :
    (n = 0 ∧ r = some res) ∨ ∃ k, k < n ∧ (retryLoop f ask n i c r).leaders.length = k + 1 ∧ f (i + k) = .ok res ∧
      ∀ j < k, ∃ res', f (i + j) = .ok res' ∧ res'.wasAccepted = false := by
  induction n generalizing i c r with
  | zero =>
    rw [retryLoop, Except.ok.injEq] at h
    exact .inl ⟨rfl, h⟩
  | succ n ih =>
    right
    cases hf : f i with
    | error e => simp [retryLoop, hf] at h
    | ok result =>
      by_cases hacc : result.wasAccepted = true
      · simp only [retryLoop, hf, hacc, if_true, Except.ok.injEq, Option.some.injEq] at h
        exact ⟨0, by omega, by simp [retryLoop, hf, hacc], by rw [Nat.add_zero, hf, h], by omega⟩
      · by_cases hweird : result.raftRc = CMD_RESULT_WEIRD_CASE
        · simp only [retryLoop, hf, hacc, hweird, if_true, if_false, Except.ok.injEq, Option.some.injEq,
            Bool.false_eq_true] at h
          exact ⟨0, by omega, by simp [retryLoop, hf, hacc, hweird], by rw [Nat.add_zero, hf, h], by omega⟩
        · cases hlead : c.tryHandleLeaderChange (ask i) result.raftRc with
          | error e => simp [retryLoop, hf, hacc, hweird, hlead] at h
          | ok next =>
            have hloop : retryLoop f ask (n + 1) i c r =
                { retryLoop f ask n (i + 1) next.2 (some result) with
                  leaders := c.leaderId :: (retryLoop f ask n (i + 1) next.2 (some result)).leaders } := by
              simp [retryLoop, hf, hacc, hweird, hlead]
            rw [hloop] at h ⊢
            rcases ih h with ⟨rfl, hres⟩ | ⟨k, hk, hlen, hlast, hbefore⟩
            · -- the last iteration's own answer
              rw [Option.some.injEq] at hres
              exact ⟨0, by omega, by simp [retryLoop], by rw [Nat.add_zero, hf, hres], by omega⟩
            · refine ⟨k + 1, by omega, by simp [hlen], by rw [← hlast]; congr 1; omega, fun j hj => ?_⟩
              cases j with
              | zero => exact ⟨result, hf, by simpa using hacc⟩
              | succ j =>
                obtain ⟨res', hres', hnot⟩ := hbefore j (by omega)
                exact ⟨res', by rw [← hres']; congr 1; omega, hnot⟩

end Client

namespace Group
variable {ι S : Type} [DecidableEq ι]

/-- The RPCs of a mutation call as calls of the group: attempt `i` is call `t i`, and what its handler returned
is a reply of the run. -/
structure Carried (nu : Nuraft) (g : Group ι S) (c : Client) (m : Mutation) (env : CallEnv) (t : Nat → Nat) : Prop where
  distinct : ∀ i j, i < (c.mutate nu m env).sent.length → j < (c.mutate nu m env).sent.length → t i = t j → i = j
  call : ∀ i < (c.mutate nu m env).sent.length, ∃ cl, g.calls[t i]? = some cl ∧ cl.req = m.rpc
  reply : ∀ i < (c.mutate nu m env).sent.length, ∀ res, Server.handle nu (env.append i c.leaderId) m.rpc = .ok res →
    ∃ leader entry, .replied (t i) leader res entry ∈ g.history

/-- **A mutation that returns a success was applied.** Its last RPC has put the request into the log, the state
machine of a leader has committed it there with SplinterDB's 0, and none of the RPCs before it was reported as
accepted. Raft may have accepted some of them all the same: every entry the call has in the log is its request,
at a position of its own, so there are at most `num_retries` copies. -/
theorem mutate_success_applied (nu : Nuraft) (hlim : ∀ n, nu.fits n = true → n < 2 ^ 31)
    (db : ι → Nat → SplinterDB S) (init : S) (g : Group ι S) (hg : Reachable nu db init g) (c : Client) (m : Mutation)
    (env : CallEnv) (t : Nat → Nat) (hcarried : Carried nu g c m env t) (res : RpcMutationResult)
    (hout : (c.mutate nu m env).outcome = .ok (some res)) (hres : res.isSuccess = true) :
    ∃ k i leader, (c.mutate nu m env).sent.length = k + 1 ∧ k < c.numRetries.toNat ∧
      position? g.calls (t k) = some i ∧ g.submitted[i]? = some (.request m.rpc) ∧ i < g.applied leader ∧
      ((db leader i).exec (Server.requestOperation m.rpc).callOf
        (prefixState (applyEntry nu (db leader)) init g.log i)).1 = 0 ∧
      (∀ j < k, ∃ res', Server.handle nu (env.append j c.leaderId) m.rpc = .ok res' ∧ res'.wasAccepted = false) ∧
      ∀ j p, j ≤ k → position? g.calls (t j) = some p → g.submitted[p]? = some (.request m.rpc) ∧
        ∀ j' ≤ k, position? g.calls (t j') = some p → j' = j := by
  obtain ⟨_, h⟩ := reachable_inv hg
  obtain ⟨hdistinct, hcall, hreply⟩ := hcarried
  rw [Client.mutate_eq] at hout hdistinct hcall hreply ⊢
  have hmem : c.leaderId ∈ c.clients := by
    by_contra hnot
    simp [Client.callMutation, Client.getLeaderHandle, hnot] at hout
  have hloop : (c.retryMutation (fun i => Server.handle nu (env.append i c.leaderId) m.rpc) env.leader).outcome =
      .ok (some res) := by
    simpa [Client.callMutation, Client.getLeaderHandle, hmem] using hout
  have hsent : (c.callMutation nu m.rpc env).sent.length =
      (c.retryMutation (fun i => Server.handle nu (env.append i c.leaderId) m.rpc) env.leader).leaders.length := by
    rw [Client.callMutation_of_mem hmem, List.length_mapIdx]
  obtain ⟨_, hnone⟩ | ⟨k, hk, hlen, hlast, hbefore⟩ := Client.retryLoop_outcome hloop
  · cases hnone
  · have hlength := hsent.trans hlen
    rw [Nat.zero_add] at hlast
    obtain ⟨leader, entry, hmemh⟩ := hreply k (by omega) res hlast
    obtain ⟨cl, i, hcl, hci, hsub, hlt, hcode⟩ := h.applied_of_success hlim hmemh hres
    obtain ⟨cl', hcl', hreq⟩ := hcall k (by omega)
    rw [hcl, Option.some.injEq] at hcl'
    subst hcl'
    rw [hreq] at hsub hcode
    refine ⟨k, i, leader, hlength, hk, by simp [position?, hcl, hci], hsub, hlt, hcode, ?_, fun j p hj hp => ⟨?_, ?_⟩⟩
    · intro j hj
      obtain ⟨res', hres', hnot⟩ := hbefore j hj
      rw [Nat.zero_add] at hres'
      exact ⟨res', hres', hnot⟩
    · obtain ⟨clj, hclj, hreqj⟩ := hcall j (by omega)
      rw [← hreqj]
      exact h.entries (t j) clj p hclj (by simpa [position?, hclj] using hp)
    · intro j' hj' hp'
      exact hdistinct j' j (by omega) (by omega) (h.distinct _ _ p hp' hp)

/-- The append of the first attempt is cancelled after Raft has accepted it, that of the second one returns. -/
def cancelledOnce (i : Nat) : RaftResult :=
  if i = 0 then ⟨true, false, CMD_RESULT_REQUEST_CANCELLED, none, "Request cancelled."⟩
  else ⟨true, true, cmdResultOk, some (leEnc 0), "Ok."⟩

/-- `put "k" "v"` in two attempts: both entries stay in the log, and the leader has committed both. -/
theorem retried_session : ∃ g : Group Bool (Map Bytes Bytes),
    Reachable refNuraft (fun _ _ => mapDB) (fun _ => none) g ∧
    g.calls = [⟨false, .put [107] [118], some 0, true⟩, ⟨false, .put [107] [118], some 1, true⟩] ∧
    g.history = [.invoked 0, .replied 0 true ⟨0, -1, "Request cancelled."⟩ (some 0), .invoked 1,
      .replied 1 true ⟨0, 0, "Ok."⟩ (some 1)] := by
  have h : Reachable refNuraft (fun _ _ => mapDB) (fun _ => none) _ :=
    Relation.ReflTransGen.single (.invoke (start fun _ => none) false (.put [107] [118]))
  have h := h.tail (.append _ 0 ⟨false, .put [107] [118], none, false⟩ demoPayload rfl rfl (by decide))
  have h := h.tail (.reply _ 0 ⟨false, .put [107] [118], some 0, false⟩ true (cancelledOnce 0)
    ⟨0, -1, "Request cancelled."⟩ rfl rfl (fun hok => absurd hok (by decide)) (by decide))
  have h := h.tail (.invoke _ false (.put [107] [118]))
  have h := h.tail (.append _ 1 ⟨false, .put [107] [118], none, false⟩ demoPayload rfl rfl (by decide))
  have h := h.tail (.store _ true demoPayload _ _ rfl rfl (StateMachine.commitStore_ok demoPayload_call))
  have h := h.tail (.index _ true rfl)
  have h := h.tail (.store _ true demoPayload _ _ rfl rfl (StateMachine.commitStore_ok demoPayload_call))
  have h := h.tail (.index _ true rfl)
  have h := h.tail (.reply _ 1 ⟨false, .put [107] [118], some 1, false⟩ true (cancelledOnce 1) ⟨0, 0, "Ok."⟩ rfl rfl
    (fun _ => ⟨1, 0, leEnc 0, rfl, Nat.one_lt_two, rfl, StateMachine.encodeResult_eq refNuraft 0, rfl, rfl, rfl⟩)
    (by decide))
  exact ⟨_, h, rfl, rfl⟩

/-- The second attempt's success is entry 1 of the log; the first one, reported as cancelled, is there too. -/
theorem mutate_success_applied_demo : ∃ (g : Group Bool (Map Bytes Bytes)) (i : Nat) (leader : Bool),
    Reachable refNuraft (fun _ _ => mapDB) (fun _ => none) g ∧ position? g.calls 1 = some i ∧
    g.submitted[i]? = some (.request (.put [107] [118])) ∧ i < g.applied leader ∧
    position? g.calls 0 = some 0 ∧ g.submitted[0]? = some (.request (.put [107] [118])) := by
  obtain ⟨g, hg, hcalls, hhist⟩ := retried_session
  let env : CallEnv := ⟨fun i _ _ => .ok (cancelledOnce i), fun _ _ _ => .ok 1⟩
  have hlen : (demoClient.mutate refNuraft (.put [107] [118]) env).sent.length = 2 := by decide
  have hcarried : Carried refNuraft g demoClient (.put [107] [118]) env id := by
    refine ⟨fun i j _ _ hij => hij, fun i hi => ?_, fun i hi res hres => ?_⟩
    · obtain rfl | rfl : i = 0 ∨ i = 1 := by omega
      · exact ⟨_, by rw [hcalls]; rfl, rfl⟩
      · exact ⟨_, by rw [hcalls]; rfl, rfl⟩
    · obtain rfl | rfl : i = 0 ∨ i = 1 := by omega
      · have hhandle : Server.handle refNuraft (fun _ => .ok (cancelledOnce 0)) (.put [107] [118]) =
            .ok ⟨0, -1, "Request cancelled."⟩ := by decide
        obtain rfl := Except.ok.inj (hhandle.symm.trans hres)
        exact ⟨true, some 0, by simp [hhist]⟩
      · have hhandle : Server.handle refNuraft (fun _ => .ok (cancelledOnce 1)) (.put [107] [118]) =
            .ok ⟨0, 0, "Ok."⟩ := by decide
        obtain rfl := Except.ok.inj (hhandle.symm.trans hres)
        exact ⟨true, some 1, by simp [hhist]⟩
  obtain ⟨k, i, leader, hk, _, hpos, hsub, happ, _, _, hall⟩ := mutate_success_applied refNuraft refNuraft_fits
    (fun _ _ => mapDB) _ g hg demoClient (.put [107] [118]) env id hcarried ⟨0, 0, "Ok."⟩ (by decide) (by decide)
  obtain rfl : k = 1 := by omega
  have hfirst : position? g.calls 0 = some 0 := by rw [hcalls]; rfl
  exact ⟨g, i, leader, hg, hpos, hsub, happ, hfirst, (hall 0 0 (by omega) hfirst).1⟩

end Group

end ReplicatedSplinter
