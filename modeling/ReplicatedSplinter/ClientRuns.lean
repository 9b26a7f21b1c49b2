import ReplicatedSplinter.Retries
/-!
# The client over a whole run of calls

| here | there |
| --- | --- |
| `Connected`      | the servers the constructor's loop connected to (`client.cpp:45-66`) |
| `reportAt`, `reports` | the ids `get_leader_id` returned to `try_handle_leader_change` (`client.cpp:126`) during a call |
| `Reached`        | a constructed client after any run of `put` / `update` / `del`, with the leader last reported to it |

`clients_` is filled once, by the constructor; `leader_id_` takes every id that is reported, without
looking whether `clients_` has it. A call that throws keeps the changes made before the throw.
-/

namespace ReplicatedSplinter
open ByteCodec Std

/-- The `i`-th server of the seed's list has this id and could be connected to. -/
def Connected (srvs : List RpcServerInfo) (connects : Nat → Bool) (id : Int32) : Prop :=
  ∃ i srv, srvs[i]? = some srv ∧ srv.id = id ∧ connects i = true

theorem connected_cons {srv : RpcServerInfo} {rest : List RpcServerInfo} {connects : Nat → Bool} {id : Int32} :
    Connected (srv :: rest) connects id ↔
      (srv.id = id ∧ connects 0 = true) ∨ Connected rest (fun j => connects (j + 1)) id := by
  constructor
  · rintro ⟨j, s, hs, hid, hc⟩
    cases j with
    | zero =>
      left
      rw [List.getElem?_cons_zero, Option.some.injEq] at hs
      exact ⟨hs ▸ hid, hc⟩
    | succ j =>
      right
      exact ⟨j, s, by simpa using hs, hid, hc⟩
  · rintro (⟨hid, hc⟩ | ⟨j, s, hs, hid, hc⟩)
    · exact ⟨0, srv, rfl, hid, hc⟩
    · exact ⟨j + 1, s, by simpa using hs, hid, hc⟩

namespace Client

/-! ## Construction -/

/-- The loop keeps what the map had and adds the servers that connect. -/
theorem mem_connectAll {connects : Nat → Bool} {srvs : List RpcServerInfo} {i : Nat}
    {m clients : ExtTreeMap Int32 Endpoint} (h : connectAll connects i srvs m = .ok clients) (id : Int32) :
    id ∈ clients ↔ id ∈ m ∨ Connected srvs (fun j => connects (i + j)) id := by
  induction srvs generalizing i m with
  | nil =>
    cases h
    simp [Connected]
  | cons srv rest ih =>
    have hshift : (fun j => connects (i + (j + 1))) = fun j => connects (i + 1 + j) := by
      funext j
      congr 1
      omega
    rw [connected_cons, hshift]
    unfold connectAll at h
    cases he : parseEndpoint srv.endpoint with
    | error e => simp [he] at h
    | ok e =>
      simp only [he, ok_bind] at h
      by_cases hc : connects i = true
      · rw [if_pos hc] at h
        rw [ih h, ExtTreeMap.mem_insertIfNew, Std.compare_eq_iff_eq]
        simp only [Nat.add_zero, hc, and_true]
        tauto
      · rw [if_neg hc] at h
        rw [ih h]
        simp [hc]

theorem askSeed_eq_ok {seed : Seed} {srvs : List RpcServerInfo} {leader : Int32}
    (h : askSeed seed = .ok (srvs, leader)) : seed.allServers = .ok srvs ∧ seed.leaderId = .ok leader := by
  unfold askSeed at h
  cases hp : seed.ping with
  | error e => simp [hp] at h
  | ok b =>
    by_cases hb : b = pong
    · cases hs : seed.allServers with
      | error e => simp [hp, hb, hs] at h
      | ok srvs' =>
        cases hl : seed.leaderId with
        | error e => simp [hp, hb, hs, hl] at h
        | ok leader' =>
          simp only [hp, hb, hs, hl, ok_bind, ne_eq, not_true, if_false, pure_eq_ok, Except.ok.injEq,
            Prod.mk.injEq] at h
          rw [h.1, h.2]
          exact ⟨rfl, rfl⟩
    · simp [hp, hb] at h

/-- What the constructor did when it returned a client. -/
theorem new_inv {seed : Seed} {connects : Nat → Bool} {algo : Algorithm} {numTokens : Nat} {numRetries : UInt16}
    {printErrors : Bool} {c : Client} (h : new seed connects algo numTokens numRetries printErrors = .ok c) :
    ∃ srvs, seed.allServers = .ok srvs ∧ seed.leaderId = .ok c.leaderId ∧
      connectAll connects 0 srvs ∅ = .ok c.clients ∧
      ReadPolicy.make algo c.clients.keys numTokens = .ok c.readPolicy ∧ c.algo = algo := by
  unfold new at h
  cases hc : seed.connect with
  | error e => simp [hc] at h
  | ok u =>
    simp only [hc, ok_bind] at h
    cases ha : askSeed seed with
    | error e => simp [ha] at h
    | ok x =>
      obtain ⟨srvs, leader⟩ := x
      obtain ⟨hsrvs, hleader⟩ := askSeed_eq_ok ha
      simp only [ha] at h
      cases hm : connectAll connects 0 srvs ∅ with
      | error e => simp [hm] at h
      | ok clients =>
        cases hr : ReadPolicy.make algo clients.keys numTokens with
        | error e => simp [hm, hr] at h
        | ok policy =>
          simp only [hm, hr, ok_bind, pure_eq_ok, Except.ok.injEq] at h
          subst h
          exact ⟨srvs, hsrvs, hleader, hm, hr, rfl⟩

/-- A constructed client: the seed's leader, and exactly the servers it could connect to. -/
theorem new_eq_ok {seed : Seed} {connects : Nat → Bool} {algo : Algorithm} {numTokens : Nat} {numRetries : UInt16}
    {printErrors : Bool} {c : Client} (h : new seed connects algo numTokens numRetries printErrors = .ok c) :
    ∃ srvs, seed.allServers = .ok srvs ∧ seed.leaderId = .ok c.leaderId ∧
      ∀ id, id ∈ c.clients ↔ Connected srvs connects id := by
  obtain ⟨srvs, hsrvs, hleader, hm, -⟩ := new_inv h
  refine ⟨srvs, hsrvs, hleader, fun id => ?_⟩
  rw [mem_connectAll hm]
  simp

/-! ## What a call leaves behind -/

section Loop
variable (f : Nat → Except Exn RpcMutationResult) (ask : Nat → Int32 → Nat → Except Exn Int32)

theorem clients_retryLoop (n i : Nat) (c : Client) (r : Option RpcMutationResult) :
    (retryLoop f ask n i c r).client.clients = c.clients := by
  induction n generalizing i c r with
  | zero => rfl
  | succ n ih =>
    rcases retryLoop_succ f ask n i c r with ⟨leader, res, _, hcl, _⟩ | ⟨_, hcl, _⟩
    · rw [hcl, ih]
    · rw [hcl]

/-- The leader found after iteration `i`, if one was looked for and found. -/
def reportAt (c : Client) (i : Nat) : Option Int32 :=
  match f i with
  | .ok res => if isLeaderChange res.raftRc then (c.getLeaderId (ask i)).1.toOption else none
  | .error _ => none

theorem reportAt_of_nextLeader {f : Nat → Except Exn RpcMutationResult}
    {ask : Nat → Int32 → Nat → Except Exn Int32} {c : Client} {i : Nat} {leader : Int32}
    (h : NextLeader f ask c i leader) :
    reportAt f ask c i = some leader ∨ (reportAt f ask c i = none ∧ leader = c.leaderId) := by
  obtain ⟨res, hres, _, _, hnext⟩ := h
  by_cases hlc : isLeaderChange res.raftRc = true
  · left
    rw [if_pos hlc] at hnext
    simp [reportAt, hres, hlc, hnext, Except.toOption]
  · right
    rw [if_neg hlc] at hnext
    exact ⟨by simp [reportAt, hres, hlc], hnext⟩

theorem reportAt_eq_none {f : Nat → Except Exn RpcMutationResult}
    {ask : Nat → Int32 → Nat → Except Exn Int32} {c : Client} {i : Nat}
    (h : ∀ leader, ¬ NextLeader f ask c i leader) : reportAt f ask c i = none := by
  by_contra hsome
  obtain ⟨leader, hl⟩ := Option.ne_none_iff_exists'.1 hsome
  unfold reportAt at hl
  cases hf : f i with
  | error e => simp [hf] at hl
  | ok res =>
    simp only [hf] at hl
    by_cases hlc : isLeaderChange res.raftRc = true
    · -- neither of the two leader-change codes is OK or 999
      have hcodes : res.raftRc ≠ cmdResultOk ∧ res.raftRc ≠ CMD_RESULT_WEIRD_CASE := by
        constructor
        · intro h0
          rw [h0] at hlc
          exact absurd hlc (by decide)
        · intro h0
          rw [h0] at hlc
          exact absurd hlc (by decide)
      refine h leader ⟨res, hf, hcodes.1, hcodes.2, ?_⟩
      rw [if_pos hlc] at hl ⊢
      cases hg : (c.getLeaderId (ask i)).1 with
      | error e => simp [hg, Except.toOption] at hl
      | ok l => simpa [hg, Except.toOption] using hl
    · simp [hlc] at hl

/-- After the loop `leader_id_` is the last leader found in it, if any. -/
theorem leaderId_retryLoop (n i : Nat) (c : Client) (r : Option RpcMutationResult) :
    (retryLoop f ask n i c r).client.leaderId =
      ((List.range (retryLoop f ask n i c r).leaders.length).filterMap
        fun j => reportAt f ask c (i + j)).getLastD c.leaderId := by
  induction n generalizing i c r with
  | zero => rfl
  | succ n ih =>
    rcases retryLoop_succ f ask n i c r with ⟨leader, res, hnext, hcl, hlead⟩ | ⟨hstop, hcl, hlead⟩
    · have hshift : (fun j => reportAt f ask { c with leaderId := leader } (i + 1 + j)) =
          (fun j => reportAt f ask c (i + j)) ∘ Nat.succ := by
        funext j
        simp only [Function.comp_apply, Nat.succ_eq_add_one, show i + (j + 1) = i + 1 + j by omega]
        rfl
      rw [hcl, ih, hlead, List.length_cons, List.range_succ_eq_map, List.filterMap_cons, List.filterMap_map, hshift]
      rcases reportAt_of_nextLeader hnext with hsome | ⟨hnone, hsame⟩
      · rw [show reportAt f ask c (i + 0) = some leader from hsome, List.getLastD_cons]
      · rw [show reportAt f ask c (i + 0) = none from hnone, hsame]
    · rw [hcl, hlead]
      simp [reportAt_eq_none hstop]

end Loop

/-- The leaders reported to the client during a call, in order. -/
def reports (nu : Nuraft) (c : Client) (m : Mutation) (env : CallEnv) : List Int32 :=
  (List.range (c.mutate nu m env).sent.length).filterMap
    (reportAt (fun i => Server.handle nu (env.append i c.leaderId) m.rpc) env.leader c)

theorem mutate_client (nu : Nuraft) (c : Client) (m : Mutation) (env : CallEnv) :
    (c.mutate nu m env).client.clients = c.clients ∧
      (c.mutate nu m env).client.leaderId = (c.reports nu m env).getLastD c.leaderId := by
  rw [reports, mutate_eq]
  by_cases hmem : c.leaderId ∈ c.clients
  · have hclient : (c.callMutation nu m.rpc env).client =
        (c.retryMutation (fun i => Server.handle nu (env.append i c.leaderId) m.rpc) env.leader).client := by
      simp [callMutation, getLeaderHandle, hmem]
    rw [hclient, callMutation_of_mem hmem, List.length_mapIdx]
    refine ⟨clients_retryLoop _ _ _ _ _ _, ?_⟩
    rw [retryMutation, leaderId_retryLoop]
    simp only [Nat.zero_add]
  · have hclient : (c.callMutation nu m.rpc env).client = c := by
      simp [callMutation, getLeaderHandle, hmem]
    rw [hclient, callMutation_of_not_mem hmem]
    exact ⟨rfl, rfl⟩

end Client

/-! ## Whole runs -/

/-- The client that `Client.new` built from `seed` and `connects`, after any run of mutation calls,
with the leader last reported to it: by the seed, or by a lookup since. -/
inductive Reached (nu : Nuraft) (seed : Seed) (connects : Nat → Bool) : Client → Int32 → Prop
  | new {algo : Algorithm} {numTokens : Nat} {numRetries : UInt16} {printErrors : Bool} {c : Client} {leader : Int32}
      (hnew : Client.new seed connects algo numTokens numRetries printErrors = .ok c)
      (hseed : seed.leaderId = .ok leader) : Reached nu seed connects c leader
  | call {c : Client} {leader : Int32} (m : Mutation) (env : CallEnv) (h : Reached nu seed connects c leader) :
      Reached nu seed connects (c.mutate nu m env).client ((c.reports nu m env).getLastD leader)

theorem Reached.inv {nu : Nuraft} {seed : Seed} {connects : Nat → Bool} {c : Client} {leader : Int32}
    (h : Reached nu seed connects c leader) :
    c.leaderId = leader ∧ ∃ srvs, seed.allServers = .ok srvs ∧ ∀ id, id ∈ c.clients ↔ Connected srvs connects id := by
  induction h with
  | new hnew hseed =>
    obtain ⟨srvs, hsrvs, hlead, hmem⟩ := Client.new_eq_ok hnew
    rw [hseed, Except.ok.injEq] at hlead
    exact ⟨hlead.symm, srvs, hsrvs, hmem⟩
  | @call c leader m env _ ih =>
    obtain ⟨hlead, srvs, hsrvs, hmem⟩ := ih
    obtain ⟨hclients, hleader⟩ := Client.mutate_client nu c m env
    refine ⟨by rw [hleader, hlead], srvs, hsrvs, ?_⟩
    rw [hclients]
    exact hmem

/-- **Which leader the client can reach.** In every reachable state `clients_` has exactly the servers
of the seed's list that were connected to at construction, and `leader_id_` is the leader last
reported. So the next mutation finds its handle when that leader is one of these servers; a leader it
never connected to makes it throw. -/
theorem leader_reachable_iff_connected (nu : Nuraft) (seed : Seed) (connects : Nat → Bool) (c : Client) (leader : Int32)
    (srvs : List RpcServerInfo) (h : Reached nu seed connects c leader) (hsrvs : seed.allServers = .ok srvs) :
    c.leaderId = leader ∧ (∀ id, id ∈ c.clients ↔ Connected srvs connects id) ∧
      (Connected srvs connects leader → c.leaderId ∈ c.clients ∧ c.getLeaderHandle = .ok leader) ∧
      (leader ≠ GET_LEADER_NO_LIVE_LEADER → ¬ Connected srvs connects leader →
        c.getLeaderHandle = .error (.outOfRange "map::at")) := by
  obtain ⟨hlead, srvs', hsrvs', hmem⟩ := h.inv
  rw [hsrvs, Except.ok.injEq] at hsrvs'
  subst hsrvs'
  refine ⟨hlead, hmem, ?_, ?_⟩
  · intro hconn
    have hin : c.leaderId ∈ c.clients := (hmem _).2 (hlead ▸ hconn)
    exact ⟨hin, by rw [Client.getLeaderHandle, if_pos hin, hlead]⟩
  · intro _ hconn
    have hout : c.leaderId ∉ c.clients := fun hin => hconn (hlead ▸ (hmem _).1 hin)
    rw [Client.getLeaderHandle, if_neg hout]

/-- A seed that lists two servers and names the first as leader. -/
def demoSeed : Seed where
  connect := .ok ()
  ping := .ok pong
  -- "a:1" and "b:1"
  allServers := .ok [⟨1, [97, 58, 49]⟩, ⟨2, [98, 58, 49]⟩]
  leaderId := .ok 1

/-- The client built from it when both connect. -/
def demoStart : Client :=
  (Client.new demoSeed (fun _ => true) .roundRobin 1 3 false).toOption.getD demoClient

theorem demoStart_new : Client.new demoSeed (fun _ => true) .roundRobin 1 3 false = .ok demoStart := rfl

theorem demoStart_reached : Reached refNuraft demoSeed (fun _ => true) demoStart 1 := .new demoStart_new rfl

/-- The leader moves to server 2 during a put: the client ends with a handle for it. -/
theorem leader_reachable_iff_connected_changed :
    let c := (demoStart.mutate refNuraft (.put [107] [118]) steppedDownEnv).client
    Reached refNuraft demoSeed (fun _ => true) c 2 ∧ c.leaderId ∈ c.clients ∧ c.getLeaderHandle = .ok 2 := by
  intro c
  have hreached : Reached refNuraft demoSeed (fun _ => true) c 2 :=
    demoStart_reached.call (.put [107] [118]) steppedDownEnv
  have hall := leader_reachable_iff_connected refNuraft demoSeed (fun _ => true) c 2 _ hreached rfl
  exact ⟨hreached, hall.2.2.1 ⟨1, ⟨2, [98, 58, 49]⟩, rfl, rfl, rfl⟩⟩

/-- A server 3 has joined the group and become its leader. -/
def joinedEnv : CallEnv where
  append := fun _ _ _ => .ok ⟨false, false, -3, none, "Not leader."⟩
  leader := fun _ _ _ => .ok 3

/-- After the put that learns of server 3, `leader_id_` is no key of `clients_`. -/
theorem joined_leader_unreachable :
    ¬ ∀ c leader, Reached refNuraft demoSeed (fun _ => true) c leader → c.leaderId ∈ c.clients := by
  intro h
  have hmem := h _ _ (demoStart_reached.call (.put [107] [118]) joinedEnv)
  exact absurd hmem (by decide)

end ReplicatedSplinter
