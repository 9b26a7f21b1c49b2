import ReplicatedSplinter.Client
/-!
# The retries of one mutation call

| here | there |
| --- | --- |
| `Reports`, `LeaderReported` | a server, or some connected server, names a leader within the tries of `get_leader_id` (`client.cpp:216-249`) |
| `NextLeader`           | one iteration of `retry_mutation` that is not the last (`client.cpp:156-173`), and the leader it leaves |
| `GoesOn`               | the answers after which `retry_mutation` starts its next iteration (`client.cpp:159-172`) |
| `StopsOnceAccepted`    | no attempt follows an accepted one |
| `FollowsLeader`        | every attempt goes to the server `leader_id_` names at that moment |

The retry loop sees only `raft_rc`, and `extract_result` copies the result code there on all its
branches (`extractResult_raftRc`): whether an entry was accepted is lost on the way. `retryLoop_succ`
says once what an iteration does; the number of attempts and their leaders follow by induction.
-/

namespace ReplicatedSplinter
open ByteCodec Std

/-- The iterations from `i` on are iteration `i` and those from the next one on. -/
theorem forall_lt_succ_from {p : Nat → Prop} {i k : Nat} :
    (∀ j < k + 1, p (i + j)) ↔ p i ∧ ∀ j < k, p (i + 1 + j) := by
  simp only [Nat.forall_lt_succ_left, Nat.add_zero, Nat.add_right_comm i 1, Nat.add_assoc]

/-- A first iteration with `q` after iterations with `p` is iteration `i`, or a later one after it. -/
theorem exists_lt_succ_from {p q : Nat → Prop} {i n : Nat} :
    (∃ t < n + 1, (∀ j < t, p (i + j)) ∧ q (i + t)) ↔
      q i ∨ p i ∧ ∃ t < n, (∀ j < t, p (i + 1 + j)) ∧ q (i + 1 + t) := by
  have hshift (t : Nat) : i + 1 + t = i + (t + 1) := by omega
  constructor
  · rintro ⟨t, ht, hbefore, hat⟩
    cases t with
    | zero => exact Or.inl hat
    | succ t =>
      obtain ⟨hfirst, hrest⟩ := forall_lt_succ_from.1 hbefore
      exact Or.inr ⟨hfirst, t, by omega, hrest, by rwa [hshift]⟩
  · rintro (hat | ⟨hfirst, t, ht, hrest, hat⟩)
    · exact ⟨0, by omega, by omega, hat⟩
    · exact ⟨t + 1, by omega, forall_lt_succ_from.2 ⟨hfirst, hrest⟩, by rwa [← hshift]⟩

/-! ## When the loop goes on -/

namespace Client

/-- A server names a leader after at most `numRetries` tries, answering "no leader" before. -/
def Reports (c : Client) (ask : Int32 → Nat → Except Exn Int32) (srv leader : Int32) : Prop :=
  ∃ k < c.numRetries.toNat, (∀ i < k, ask srv i = .ok GET_LEADER_NO_LIVE_LEADER) ∧
    ask srv k = .ok leader ∧ leader ≠ GET_LEADER_NO_LIVE_LEADER

def LeaderReported (c : Client) (ask : Int32 → Nat → Except Exn Int32) : Prop :=
  ∃ srv ∈ c.clients, ∃ leader, c.Reports ask srv leader

theorem askServer_eq_ok {srv leader : Int32} {ask : Nat → Except Exn Int32} {n k : Nat} :
    (askServer srv ask n k).1 = .ok leader ↔
      ∃ t < n, (∀ i < t, ask (k + i) = .ok GET_LEADER_NO_LIVE_LEADER) ∧
        ask (k + t) = .ok leader ∧ leader ≠ GET_LEADER_NO_LIVE_LEADER := by
  induction n generalizing k with
  | zero => simp [askServer]
  | succ n ih =>
    rw [askServer, exists_lt_succ_from (p := fun i => ask i = .ok GET_LEADER_NO_LIVE_LEADER)
      (q := fun i => ask i = .ok leader ∧ leader ≠ GET_LEADER_NO_LIVE_LEADER), ← ih]
    cases hk : ask k with
    | error e => simp
    | ok l =>
      by_cases hl : l = GET_LEADER_NO_LIVE_LEADER
      · -- the loop goes on
        have hnot : ¬ (l = leader ∧ leader ≠ GET_LEADER_NO_LIVE_LEADER) := fun h => h.2 (h.1 ▸ hl)
        simp only [hl, ne_eq, not_true, if_false] at hnot ⊢
        simp [hnot]
      · simp only [ne_eq, hl, not_false_iff, if_true, Except.ok.injEq, false_and, or_false]
        exact ⟨fun h => ⟨h, h ▸ hl⟩, And.left⟩

theorem searchLeader_isOk {n : Nat} {ask : Int32 → Nat → Except Exn Int32} {srvs : List Int32} :
    (∃ leader, (searchLeader n ask srvs).1 = .ok leader) ↔
      ∃ srv ∈ srvs, ∃ leader, (askServer srv (ask srv) n 0).1 = .ok leader := by
  induction srvs with
  | nil => simp [searchLeader]
  | cons srv rest ih =>
    simp only [List.mem_cons, exists_eq_or_imp, ← ih, searchLeader]
    rcases h : askServer srv (ask srv) n 0 with ⟨r, asked⟩
    cases r with
    | ok l => simp
    | error e => simp

/-- `get_leader_id` returns exactly when a connected server reports a leader. -/
theorem getLeaderId_isOk {c : Client} {ask : Int32 → Nat → Except Exn Int32} :
    (∃ leader, (c.getLeaderId ask).1 = .ok leader) ↔ c.LeaderReported ask := by
  rw [getLeaderId, searchLeader_isOk]
  simp only [askServer_eq_ok, Nat.zero_add, ExtTreeMap.mem_keys]
  rfl

/-- After iteration `i`, answered neither OK nor 999, the loop continues with `leader_id_ = leader`. -/
def NextLeader (f : Nat → Except Exn RpcMutationResult) (ask : Nat → Int32 → Nat → Except Exn Int32)
    (c : Client) (i : Nat) (leader : Int32) : Prop :=
  ∃ res, f i = .ok res ∧ res.raftRc ≠ cmdResultOk ∧ res.raftRc ≠ CMD_RESULT_WEIRD_CASE ∧
    if isLeaderChange res.raftRc then (c.getLeaderId (ask i)).1 = .ok leader else leader = c.leaderId

theorem wasAccepted_iff {res : RpcMutationResult} : res.wasAccepted = true ↔ res.raftRc = cmdResultOk := by
  simp [RpcMutationResult.wasAccepted, cmdResultOk]

section Loop
variable (f : Nat → Except Exn RpcMutationResult) (ask : Nat → Int32 → Nat → Except Exn Int32)

variable {f ask} in
theorem NextLeader.unique {c : Client} {i : Nat} {l l' : Int32} (h : NextLeader f ask c i l)
    (h' : NextLeader f ask c i l') : l = l' := by
  obtain ⟨res, hres, _, _, hl⟩ := h
  obtain ⟨res', hres', _, _, hl'⟩ := h'
  rw [hres] at hres'
  cases hres'
  by_cases hlc : isLeaderChange res.raftRc = true
  · rw [if_pos hlc] at hl hl'
    rw [hl] at hl'
    cases hl'
    rfl
  · rw [if_neg hlc] at hl hl'
    rw [hl, hl']

/-- What one iteration does: it goes on with the next leader, or it was the last one. -/
theorem retryLoop_succ (n i : Nat) (c : Client) (r : Option RpcMutationResult) :
    (∃ leader res, NextLeader f ask c i leader ∧
      (retryLoop f ask (n + 1) i c r).client =
        (retryLoop f ask n (i + 1) { c with leaderId := leader } res).client ∧
      (retryLoop f ask (n + 1) i c r).leaders =
        c.leaderId :: (retryLoop f ask n (i + 1) { c with leaderId := leader } res).leaders) ∨
    ((∀ leader, ¬ NextLeader f ask c i leader) ∧ (retryLoop f ask (n + 1) i c r).client = c ∧
      (retryLoop f ask (n + 1) i c r).leaders = [c.leaderId]) := by
  have hstop : (∀ res, f i = .ok res → res.raftRc ≠ cmdResultOk → res.raftRc ≠ CMD_RESULT_WEIRD_CASE →
      isLeaderChange res.raftRc = true ∧ ∀ leader, (c.getLeaderId (ask i)).1 ≠ .ok leader) →
      ∀ leader, ¬ NextLeader f ask c i leader := by
    rintro h leader ⟨res, hres, hne, hweird, hnext⟩
    obtain ⟨hlc, hno⟩ := h res hres hne hweird
    rw [if_pos hlc] at hnext
    exact hno leader hnext
  cases hf : f i with
  | error e =>
    right
    simp only [retryLoop, hf, and_true]
    exact hstop fun res hres => by rw [hf] at hres; cases hres
  | ok res =>
    have hres : ∀ res', f i = .ok res' → res' = res := by
      intro res' h
      rw [hf] at h
      cases h
      rfl
    by_cases hacc : res.raftRc = cmdResultOk
    · right
      simp only [retryLoop, hf, wasAccepted_iff.2 hacc, if_true, and_true]
      exact hstop fun res' h hne => absurd (hres res' h ▸ hacc) hne
    have hnacc : ¬ res.wasAccepted = true := fun h => hacc (wasAccepted_iff.1 h)
    by_cases hweird : res.raftRc = CMD_RESULT_WEIRD_CASE
    · right
      simp only [retryLoop, hf, if_neg hnacc, if_pos hweird, and_true]
      exact hstop fun res' h _ hne => absurd (hres res' h ▸ hweird) hne
    simp only [retryLoop, hf, if_neg hnacc, if_neg hweird, tryHandleLeaderChange]
    by_cases hlc : isLeaderChange res.raftRc = true
    · simp only [if_pos hlc]
      cases hl : (c.getLeaderId (ask i)).1 with
      | error e =>
        right
        refine ⟨hstop fun res' h _ _ => ⟨hres res' h ▸ hlc, ?_⟩, rfl, rfl⟩
        intro leader h'
        rw [hl] at h'
        cases h'
      | ok leader =>
        left
        exact ⟨leader, some res, ⟨res, hf, hacc, hweird, by rw [if_pos hlc, hl]⟩, rfl, rfl⟩
    · left
      simp only [if_neg hlc]
      exact ⟨c.leaderId, some res, ⟨res, hf, hacc, hweird, by rw [if_neg hlc]⟩, rfl, rfl⟩

/-- An iteration starts with the client's `leader_id_`. -/
theorem leaders_succ (n i : Nat) (c : Client) (r : Option RpcMutationResult) :
    c.leaderId ∈ (retryLoop f ask (n + 1) i c r).leaders := by
  rcases retryLoop_succ f ask n i c r with ⟨_, _, _, _, hlead⟩ | ⟨_, _, hlead⟩
  · rw [hlead]; exact List.mem_cons_self
  · rw [hlead]; exact List.mem_cons_self

/-- The loop goes on after an answer that is neither OK nor 999, unless it needs a leader and finds none. -/
theorem exists_nextLeader {c : Client} {i : Nat} :
    (∃ leader, NextLeader f ask c i leader) ↔
      ∃ res, f i = .ok res ∧ res.raftRc ≠ cmdResultOk ∧ res.raftRc ≠ CMD_RESULT_WEIRD_CASE ∧
        (isLeaderChange res.raftRc = true → c.LeaderReported (ask i)) := by
  constructor
  · rintro ⟨leader, res, hres, hne, hweird, hnext⟩
    refine ⟨res, hres, hne, hweird, fun hlc => ?_⟩
    rw [if_pos hlc] at hnext
    exact getLeaderId_isOk.1 ⟨leader, hnext⟩
  · rintro ⟨res, hres, hne, hweird, hnext⟩
    by_cases hlc : isLeaderChange res.raftRc = true
    · obtain ⟨leader, hl⟩ := getLeaderId_isOk.2 (hnext hlc)
      exact ⟨leader, res, hres, hne, hweird, by rwa [if_pos hlc]⟩
    · exact ⟨c.leaderId, res, hres, hne, hweird, by rw [if_neg hlc]⟩

/-- That does not depend on `leader_id_`, the one field the loop changes. -/
theorem exists_nextLeader_withLeader {c : Client} {leader : Int32} {i : Nat} :
    (∃ l, NextLeader f ask { c with leaderId := leader } i l) ↔ ∃ l, NextLeader f ask c i l := by
  rw [exists_nextLeader, exists_nextLeader]
  rfl

/-- Iteration `k` takes place exactly when there are that many and all before it went on. -/
theorem lt_length_leaders (n i k : Nat) (c : Client) (r : Option RpcMutationResult) :
    k < (retryLoop f ask n i c r).leaders.length ↔
      k < n ∧ ∀ j < k, ∃ leader, NextLeader f ask c (i + j) leader := by
  induction n generalizing i k c r with
  | zero => simp [retryLoop]
  | succ n ih =>
    rcases retryLoop_succ f ask n i c r with ⟨leader, res, hnext, _, hlead⟩ | ⟨hstop, _, hlead⟩
    · rw [hlead]
      cases k with
      | zero => simp
      | succ k =>
        simp only [List.length_cons, Nat.add_lt_add_iff_right, ih, exists_nextLeader_withLeader,
          forall_lt_succ_from (p := fun t => ∃ leader, NextLeader f ask c t leader)]
        constructor
        · rintro ⟨hk, hall⟩
          exact ⟨hk, ⟨leader, hnext⟩, hall⟩
        · rintro ⟨hk, -, hall⟩
          exact ⟨hk, hall⟩
    · rw [hlead]
      cases k with
      | zero => simp
      | succ k =>
        constructor
        · intro h
          simp at h
        · rintro ⟨_, hall⟩
          obtain ⟨leader, h⟩ := hall 0 (by omega)
          exact absurd h (hstop leader)

/-- `leader_id_` stays what it was exactly when no iteration that is followed by another one stores
a different leader. -/
theorem leaders_const_iff (n i : Nat) (c : Client) (r : Option RpcMutationResult) :
    (∀ l ∈ (retryLoop f ask n i c r).leaders, l = c.leaderId) ↔
      ∀ j, j + 1 < n → (∀ t < j, ∃ l, NextLeader f ask c (i + t) l) →
        ∀ l, NextLeader f ask c (i + j) l → l = c.leaderId := by
  induction n generalizing i c r with
  | zero => simp [retryLoop]
  | succ n ih =>
    rcases retryLoop_succ f ask n i c r with ⟨leader, res, hnext, _, hlead⟩ | ⟨hstop, _, hlead⟩
    · rw [hlead]
      simp only [List.mem_cons, forall_eq_or_imp, true_and]
      by_cases hsame : leader = c.leaderId
      · -- nothing has changed: the rest of the loop runs from the same client
        rw [hsame, ih]
        have hshift (j : Nat) : i + 1 + j = i + (j + 1) := by omega
        have hfrom {j : Nat} := forall_lt_succ_from (p := fun t => ∃ l, NextLeader f ask c t l) (i := i) (k := j)
        constructor
        · intro h j hj hbefore l hl
          cases j with
          | zero => rw [hl.unique hnext, hsame]
          | succ j =>
            rw [← hshift] at hl
            exact h j (by omega) (hfrom.1 hbefore).2 l hl
        · intro h j hj hbefore l hl
          rw [hshift] at hl
          exact h (j + 1) (by omega) (hfrom.2 ⟨⟨leader, hnext⟩, hbefore⟩) l hl
      · -- the next iteration, if there is one, runs under the new leader
        cases n with
        | zero => simp [retryLoop]
        | succ n =>
          constructor
          · intro h
            exact absurd (h leader (leaders_succ f ask n (i + 1) { c with leaderId := leader } res)) hsame
          · intro h
            exact absurd (h 0 (by omega) (by omega) leader hnext) hsame
    · rw [hlead]
      simp only [List.mem_singleton, forall_eq, true_iff]
      intro j _ hbefore l hl
      cases j with
      | zero => exact absurd hl (hstop l)
      | succ j =>
        obtain ⟨l', hl'⟩ := hbefore 0 (by omega)
        exact absurd hl' (hstop l')

end Loop

end Client

/-! ## One call -/

/-- `extract_result` can read the answer: a result buffer it looks at holds an integer. -/
def Server.Readable (r : RaftResult) : Prop :=
  r.accepted = true → r.hasResult = true → ∀ buf, r.result = some buf → 4 ≤ buf.length

theorem Server.extractResult_isOk {nu : Nuraft} {r : RaftResult} :
    (∃ res, Server.extractResult nu r = .ok res) ↔ Server.Readable r := by
  obtain ⟨acc, has, code, result, str⟩ := r
  unfold Server.extractResult Server.Readable
  cases acc with
  | false => simp
  | true =>
    cases has with
    | false => simp
    | true =>
      cases result with
      | none => simp
      | some buf =>
        by_cases hlen : 4 ≤ buf.length
        · simp [Nuraft.getInt, Nuraft.getU32, Nuraft.getRaw, Reader.get, hlen]
        · simp [Nuraft.getInt, Nuraft.getU32, Nuraft.getRaw, Reader.get, hlen]

namespace Client

/-- Raft's answers to the entry `p` of attempt `i` after which the client sends another attempt, if it
has one left: readable, with a code that is neither OK nor 999, and with a leader to be found when the
code is NOT_LEADER or REQUEST_CANCELLED. -/
def GoesOn (c : Client) (env : CallEnv) (p : Bytes) (i : Nat) : Prop :=
  ∃ r, env.append i c.leaderId p = .ok r ∧ Server.Readable r ∧
    r.resultCode ≠ cmdResultOk ∧ r.resultCode ≠ CMD_RESULT_WEIRD_CASE ∧
    (isLeaderChange r.resultCode = true → c.LeaderReported (env.leader i))

section Call
variable {nu : Nuraft} {c : Client} {req : MutationRpc} {env : CallEnv} {p : Bytes}

theorem handle_append (hp : Server.appendedPayload nu req = .ok p) (i : Nat) :
    Server.handle nu (env.append i c.leaderId) req = env.append i c.leaderId p >>= Server.extractResult nu := by
  rw [Server.handle_eq, hp, ok_bind]

/-- What the closure returns is what `extract_result` makes of Raft's answer. -/
theorem handle_eq_ok (hp : Server.appendedPayload nu req = .ok p) {i : Nat} {res : RpcMutationResult} :
    Server.handle nu (env.append i c.leaderId) req = .ok res ↔
      ∃ r, env.append i c.leaderId p = .ok r ∧ Server.extractResult nu r = .ok res := by
  rw [handle_append hp]
  cases env.append i c.leaderId p with
  | error e => simp
  | ok r => simp

theorem goesOn_iff (hp : Server.appendedPayload nu req = .ok p) (i : Nat) :
    (∃ l, NextLeader (fun i => Server.handle nu (env.append i c.leaderId) req) env.leader c i l) ↔
      c.GoesOn env p i := by
  rw [exists_nextLeader]
  constructor
  · rintro ⟨res, hres, hne, hweird, hlead⟩
    obtain ⟨r, hr, hext⟩ := (handle_eq_ok hp).1 hres
    rw [Server.extractResult_raftRc hext] at hne hweird hlead
    exact ⟨r, hr, Server.extractResult_isOk.1 ⟨res, hext⟩, hne, hweird, hlead⟩
  · rintro ⟨r, hr, hread, hne, hweird, hlead⟩
    obtain ⟨res, hext⟩ := Server.extractResult_isOk.2 hread
    rw [← Server.extractResult_raftRc hext] at hne hweird hlead
    exact ⟨res, (handle_eq_ok hp).2 ⟨r, hr, hext⟩, hne, hweird, hlead⟩

theorem callMutation_of_mem (hmem : c.leaderId ∈ c.clients) :
    (c.callMutation nu req env).sent =
      (c.retryMutation (fun i => Server.handle nu (env.append i c.leaderId) req) env.leader).leaders.mapIdx
        fun i leader => ⟨c.leaderId, leader, raftOutcome nu req env c.leaderId i⟩ := by
  simp [callMutation, getLeaderHandle, hmem]

theorem callMutation_of_not_mem (hmem : c.leaderId ∉ c.clients) : (c.callMutation nu req env).sent = [] := by
  simp [callMutation, getLeaderHandle, hmem]

theorem lt_length_sent (hmem : c.leaderId ∈ c.clients) (hp : Server.appendedPayload nu req = .ok p) (k : Nat) :
    k < (c.callMutation nu req env).sent.length ↔ k < c.numRetries.toNat ∧ ∀ j < k, c.GoesOn env p j := by
  rw [callMutation_of_mem hmem, List.length_mapIdx, retryMutation, lt_length_leaders]
  simp only [Nat.zero_add, goesOn_iff hp]

/-- An entry that cannot be built is tried once: the handler throws. -/
theorem length_sent_of_error (c : Client) (env : CallEnv) {e : Exn} (hp : Server.appendedPayload nu req = .error e) :
    (c.callMutation nu req env).sent.length ≤ 1 := by
  by_cases hmem : c.leaderId ∈ c.clients
  · by_contra hlen
    rw [callMutation_of_mem hmem, List.length_mapIdx, retryMutation, Nat.not_le, lt_length_leaders] at hlen
    obtain ⟨l, res, hres, _⟩ := hlen.2 0 (by omega)
    simp only [Server.handle_eq, hp, error_bind] at hres
    cases hres
  · simp [callMutation_of_not_mem hmem]

theorem getElem_sent {k : Nat} (h : k < (c.callMutation nu req env).sent.length) :
    (c.callMutation nu req env).sent[k].target = c.leaderId ∧
      (c.callMutation nu req env).sent[k].raft = raftOutcome nu req env c.leaderId k := by
  by_cases hmem : c.leaderId ∈ c.clients
  · simp [callMutation_of_mem hmem]
  · simp [callMutation_of_not_mem hmem] at h

end Call

end Client

/-! ## At most one accepted append -/

def Attempt.accepted (a : Attempt) : Bool :=
  match a.raft with
  | .ok r => r.accepted
  | .error _ => false

/-- An attempt that is followed by another one was not accepted. -/
def StopsOnceAccepted (sent : List Attempt) : Prop := sent.Pairwise fun a _ => a.accepted = false

instance (sent : List Attempt) : Decidable (StopsOnceAccepted sent) :=
  inferInstanceAs (Decidable (sent.Pairwise _))

theorem StopsOnceAccepted.countP_le_one {sent : List Attempt} (h : StopsOnceAccepted sent) :
    sent.countP Attempt.accepted ≤ 1 := by
  induction sent with
  | nil => simp
  | cons a rest ih =>
    obtain ⟨ha, hrest⟩ := List.pairwise_cons.1 h
    cases rest with
    | nil => simp [List.countP_cons]; split <;> omega
    | cons b rest =>
      rw [List.countP_cons_of_neg (by rw [ha b List.mem_cons_self]; decide)]
      exact ih hrest

/-- **At most one accepted append per call**, exactly when no attempt with a retry left is accepted
under a code after which the client resends: neither OK nor 999. -/
theorem stops_once_accepted_iff (nu : Nuraft) (c : Client) (m : Mutation) (env : CallEnv) :
    (StopsOnceAccepted (c.mutate nu m env).sent ∧ (c.mutate nu m env).sent.countP Attempt.accepted ≤ 1) ↔
      (c.leaderId ∈ c.clients → ∀ p, Server.appendedPayload nu m.rpc = .ok p →
        ∀ j, j + 1 < c.numRetries.toNat → (∀ i ≤ j, c.GoesOn env p i) →
          ∀ r, env.append j c.leaderId p = .ok r → r.accepted = false) := by
  rw [Client.mutate_eq]
  constructor
  · rintro ⟨hstops, _⟩ hmem p hp j hj hgo r hr
    have hlen : j + 1 < (c.callMutation nu m.rpc env).sent.length :=
      (Client.lt_length_sent hmem hp _).2 ⟨hj, fun i hi => hgo i (by omega)⟩
    have hacc := List.pairwise_iff_getElem.1 hstops j (j + 1) (by omega) hlen (by omega)
    rw [Attempt.accepted, (Client.getElem_sent (by omega)).2, Client.raftOutcome, hp, ok_bind, hr] at hacc
    exact hacc
  · intro hcond
    have hstops : StopsOnceAccepted (c.callMutation nu m.rpc env).sent := by
      refine List.pairwise_iff_getElem.2 fun j k hj hk hjk => ?_
      cases hp : Server.appendedPayload nu m.rpc with
      | error e =>
        have hone := Client.length_sent_of_error c env hp
        omega
      | ok p =>
        by_cases hmem : c.leaderId ∈ c.clients
        · obtain ⟨hkn, hgo⟩ := (Client.lt_length_sent hmem hp k).1 hk
          rw [Attempt.accepted, (Client.getElem_sent hj).2, Client.raftOutcome, hp, ok_bind]
          cases hr : env.append j c.leaderId p with
          | error e => rfl
          | ok r => exact hcond hmem p hp j (by omega) (fun i hi => hgo i (by omega)) r hr
        · simp [Client.callMutation_of_not_mem hmem] at hk
    exact ⟨hstops, hstops.countP_le_one⟩

/-- A client of servers 1 and 2 that takes 1 for the leader. -/
def demoClient : Client where
  clients := ((∅ : ExtTreeMap Int32 Endpoint).insert 1 ⟨[97], 9001⟩).insert 2 ⟨[98], 9001⟩
  readPolicy := .roundRobin [1, 2] 0
  algo := .roundRobin
  leaderId := 1
  numRetries := 3
  printErrors := false

/-- Every append is accepted and runs into the client timeout (code -2) before it has a result. -/
def timeoutEnv : CallEnv where
  append := fun _ _ _ => .ok ⟨true, false, -2, none, "Request timeout."⟩
  leader := fun _ _ _ => .ok 1

/-- All three attempts of one `put` are accepted. -/
theorem timeout_appends_again :
    ¬ (StopsOnceAccepted (demoClient.mutate refNuraft (.put [107] [118]) timeoutEnv).sent ∧
      (demoClient.mutate refNuraft (.put [107] [118]) timeoutEnv).sent.countP Attempt.accepted ≤ 1) := by
  decide

/-! ## Retries and the leader -/

/-- Each attempt went to the server that `leader_id_` named when it was sent. -/
def FollowsLeader (sent : List Attempt) : Prop := ∀ a ∈ sent, a.target = a.leaderId

instance (sent : List Attempt) : Decidable (FollowsLeader sent) :=
  inferInstanceAs (Decidable (∀ a ∈ sent, _))

theorem followsLeader_callMutation {nu : Nuraft} {c : Client} {req : MutationRpc} {env : CallEnv}
    (hmem : c.leaderId ∈ c.clients) :
    FollowsLeader (c.callMutation nu req env).sent ↔
      ∀ l ∈ (c.retryMutation (fun i => Server.handle nu (env.append i c.leaderId) req) env.leader).leaders,
        l = c.leaderId := by
  rw [FollowsLeader, Client.callMutation_of_mem hmem]
  constructor
  · intro h l hl
    obtain ⟨i, hi, rfl⟩ := List.mem_iff_getElem.1 hl
    exact (h _ (List.mem_mapIdx.2 ⟨i, hi, rfl⟩)).symm
  · intro h a ha
    obtain ⟨i, hi, rfl⟩ := List.mem_mapIdx.1 ha
    exact (h _ (List.getElem_mem hi)).symm

/-- **Retries follow the leader**, exactly when no leader change that is followed by a retry names
another server than the one the call started with: the handle is looked up once per call. -/
theorem follows_leader_iff (nu : Nuraft) (c : Client) (m : Mutation) (env : CallEnv) :
    FollowsLeader (c.mutate nu m env).sent ↔
      (c.leaderId ∈ c.clients → ∀ p, Server.appendedPayload nu m.rpc = .ok p →
        ∀ j, j + 1 < c.numRetries.toNat → (∀ i ≤ j, c.GoesOn env p i) →
          ∀ r, env.append j c.leaderId p = .ok r → Client.isLeaderChange r.resultCode = true →
            ∀ leader, (c.getLeaderId (env.leader j)).1 = .ok leader → leader = c.leaderId) := by
  rw [Client.mutate_eq]
  by_cases hmem : c.leaderId ∈ c.clients
  · rw [followsLeader_callMutation hmem, Client.retryMutation, Client.leaders_const_iff]
    simp only [Nat.zero_add, hmem, true_implies]
    constructor
    · intro h p hp j hj hgo r hr hlc leader hl
      obtain ⟨r', hr', hread, hne, hweird, _⟩ := hgo j (by omega)
      rw [hr] at hr'
      cases hr'
      obtain ⟨res, hext⟩ := Server.extractResult_isOk.2 hread
      have hrc := Server.extractResult_raftRc hext
      refine h j hj (fun t ht => (Client.goesOn_iff hp t).2 (hgo t (by omega))) leader
        ⟨res, (Client.handle_eq_ok hp).2 ⟨r, hr, hext⟩, hrc ▸ hne, hrc ▸ hweird, ?_⟩
      rw [hrc, if_pos hlc, hl]
    · intro h j hj hbefore l hl
      cases hp : Server.appendedPayload nu m.rpc with
      | error e =>
        obtain ⟨res, hres, _⟩ := hl
        simp only [Server.handle_eq, hp, error_bind] at hres
        cases hres
      | ok p =>
        have hgo : ∀ i ≤ j, c.GoesOn env p i := by
          intro i hi
          rcases Nat.lt_or_eq_of_le hi with hlt | rfl
          · exact (Client.goesOn_iff hp i).1 (hbefore i hlt)
          · exact (Client.goesOn_iff hp i).1 ⟨l, hl⟩
        obtain ⟨res, hres, _, _, hnext⟩ := hl
        obtain ⟨r, hr, hext⟩ := (Client.handle_eq_ok hp).1 hres
        rw [Server.extractResult_raftRc hext] at hnext
        by_cases hlc : Client.isLeaderChange r.resultCode = true
        · rw [if_pos hlc] at hnext
          exact h p hp j hj hgo r hr hlc l hnext
        · rwa [if_neg hlc] at hnext
  · simp [FollowsLeader, Client.callMutation_of_not_mem hmem, hmem]

/-- Server 1 has stepped down, and every server names 2. -/
def steppedDownEnv : CallEnv where
  append := fun _ srv _ =>
    if srv = 2 then .ok ⟨true, true, 0, some (leEnc 0), "Ok."⟩ else .ok ⟨false, false, -3, none, "Not leader."⟩
  leader := fun _ _ _ => .ok 2

/-- After the change of leader the second and third attempts still go to server 1. -/
theorem retries_stay_behind :
    ¬ FollowsLeader (demoClient.mutate refNuraft (.put [107] [118]) steppedDownEnv).sent := by
  decide

end ReplicatedSplinter
