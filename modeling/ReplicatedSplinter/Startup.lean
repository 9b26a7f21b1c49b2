import ReplicatedSplinter.Endpoints
import Mathlib.Tactic.FinCases
/-!
# Starting `spl-server` processes, and the clusters they form

A process checks its flags, starts a replica, and either is a cluster of its own or asks a running one to take it
in. Only then does it serve; whatever goes wrong before ends the process.

| here | there |
| --- | --- |
| `Flags`, `validatePort`, `validateNthreads` | the flags of `spl_server.cpp` (`:11-53`), already parsed; a refused value ends the process |
| `Flags.replicaConfig` | `main` up to the server's constructor (`:99-146`) |
| `waitInitialized`     | the loop of `replica::initialize` (`replica.cpp:117-130`) with the default of 20 rounds |
| `startReplica`        | the replica's constructor (`replica.cpp:43-88`) with it |
| `AddResult`           | the `raft_result` of NuRaft's `add_srv` |
| `joinReplicaGroup`    | the handler of `RPC_JOIN_REPLICA_GROUP` (`server.cpp:72-78`) and both `replica::add_server` (`replica.cpp:171-189`) |
| `tryJoinCluster`      | `try_join_cluster` (`spl_server.cpp:68-97`) |
| `splServerMain`       | `main` (`:99-157`) until `srv.run` |
| `RaftGroup`           | the processes of a cluster, and what NuRaft has accepted of their requests; a `Deployment` is all clusters |
| `StartEnv`            | what one start depends on: Raft getting ready, the network, and NuRaft's `add_srv` |
| `Serves`              | the processes that get to `srv.run` (`:155`) |
| `splClientEndpoint`   | what `main` of `spl_client.cpp` makes of `-endpoint` (`:127-148`) |

`add_srv` is asynchronous: what it accepts is carried out later, or not at all. So a group has no configuration here;
of the one that a member answers with, `Configured` says what is relied on. That the ports can be bound, and what
SplinterDB is configured with, is left out.
-/

namespace ReplicatedSplinter
open ByteCodec Std

/-! ## One process -/

structure Flags where
  serverid : Int32
  bind : Bytes
  raftport : Int32
  joinport : Int32
  clientport : Int32
  seed : Bytes
  nthreads : Int64
deriving DecidableEq

def validatePort (value : Int32) : Bool := 0 < value && value < 32768

/-- The message says 50, the check 80. -/
def validateNthreads (value : Int64) : Bool := 4 ≤ value && value ≤ 80

def Flags.valid (f : Flags) : Bool :=
  validatePort f.raftport && validatePort f.clientport && validatePort f.joinport && validateNthreads f.nthreads

/-- `static_cast<uint16_t>` -/
def castPort (value : Int32) : UInt16 := value.toUInt32.toUInt16

def Flags.replicaConfig (f : Flags) : Except Exn ReplicaConfig := do
  if f.valid = false then .error (.processExit 1)
  else if f.serverid < 1 then .error (.processExit 1)
  else
    let addr ← bindAddr f.bind
    return ⟨f.serverid, castPort f.raftport, castPort f.clientport, addr⟩

def waitInitialized (isInitialized : Nat → Bool) : Nat → Nat → Except Exn Unit
  | 0, _ => .error (.processExit (-1))
  | n + 1, i => if isInitialized i then .ok () else waitInitialized isInitialized n (i + 1)

/-- The replica's constructor, and the configuration it starts with. -/
def startReplica (cfg : ReplicaConfig) (isInitialized : Nat → Bool) : Except Exn (List SrvConfig) := do
  let own ← cfg.start
  waitInitialized isInitialized 20 0
  return own

/-- A process that serves, with the port of its `join_srv_`. -/
structure Process where
  cfg : ReplicaConfig
  joinPort : UInt16
deriving DecidableEq

/-- `accepted` is the configuration that the first member started with, and the servers that `add_srv` has accepted
since. -/
structure RaftGroup where
  members : List Process
  accepted : List SrvConfig
deriving DecidableEq

abbrev Deployment := List RaftGroup

/-- What NuRaft may have made of it: a configuration of servers that have been accepted, no two under one id. -/
structure RaftGroup.Configured (g : RaftGroup) (configs : List SrvConfig) : Prop where
  accepted : configs ⊆ g.accepted
  ids : (configs.map SrvConfig.id).Nodup

structure AddResult where
  accepted : Bool
  code : Int32
  str : String

/-- `reaches e p`: the endpoint leads to `join_srv_` of `p`; `addSrv g p` is the `add_srv` of `p`, a member of `g`;
`answered`: the answer to the request comes back. -/
structure StartEnv where
  isInitialized : Nat → Bool
  reaches : Endpoint → Process → Bool
  addSrv : RaftGroup → Process → SrvConfig → AddResult
  answered : Bool

/-- What the code relies on: the code is OK exactly for what is accepted, and then the answer arrives. -/
structure StartEnv.Reliable (env : StartEnv) : Prop where
  ok : ∀ g p conf, (env.addSrv g p conf).accepted = true ↔ (env.addSrv g p conf).code = 0
  arrives : ∀ g p conf, (env.addSrv g p conf).accepted = true → env.answered = true

/-! ## Joining -/

def joinReplicaGroup (addSrv : SrvConfig → AddResult) (serverId : Int32) (raftEndpoint clientEndpoint : Bytes) :
    Int32 × String :=
  let ret := addSrv ⟨serverId, raftEndpoint, clientEndpoint⟩
  (ret.code, ret.str)

/-- The process that the request comes to, its group and the group's place. -/
def Deployment.asked (d : Deployment) (reached : Process → Bool) : Option (Nat × RaftGroup × Process) := do
  let k ← d.findIdx? fun g => g.members.any reached
  let g ← d[k]?
  let p ← g.members.find? reached
  return (k, g, p)

/-- The group after a request with this result. -/
def RaftGroup.requested (g : RaftGroup) (ret : AddResult) (cfg : ReplicaConfig) : RaftGroup :=
  if ret.accepted then
    { g with accepted := addServer g.accepted cfg.serverId cfg.raftEndpoint cfg.clientEndpoint }
  else g

/-- The place of the group that took the process in (`Except.ok`), and what has become of the deployment. -/
def tryJoinCluster (env : StartEnv) (d : Deployment) (seed : Bytes) (cfg : ReplicaConfig) :
    Except Exn Nat × Deployment :=
  match parseEndpoint seed with
  | .error e => (.error e, d)
  | .ok e =>
    match d.asked (env.reaches e) with
    | none => (.error (.rpcError "connection"), d)
    | some (k, g, p) =>
      let reply := joinReplicaGroup (env.addSrv g p) cfg.serverId cfg.raftEndpoint cfg.clientEndpoint
      (if env.answered = false then .error (.rpcError "timeout")
        else if reply.1 ≠ 0 then .error (.processExit 1) else .ok k,
        d.set k (g.requested (env.addSrv g p cfg.srvConfig) cfg))

def splServerMain (env : StartEnv) (d : Deployment) (f : Flags) : Except Exn Process × Deployment :=
  match f.replicaConfig with
  | .error e => (.error e, d)
  | .ok cfg =>
    match startReplica cfg env.isInitialized with
    | .error e => (.error e, d)
    | .ok own =>
      let p : Process := ⟨cfg, castPort f.joinport⟩
      if f.seed = [] then (.ok p, d ++ [⟨[p], own⟩])
      else
        match tryJoinCluster env d f.seed cfg with
        | (.error e, d') => (.error e, d')
        | (.ok k, d') => (.ok p, d'.modify k fun g => { g with members := g.members ++ [p] })

/-- Processes started one after the other, from none. -/
def deploy (starts : List (Flags × StartEnv)) : Deployment :=
  starts.foldl (fun d s => (splServerMain s.2 d s.1).2) []

/-- One of the starts has got to where the process serves, as `p`. -/
def Serves (starts : List (Flags × StartEnv)) (p : Process) : Prop :=
  ∃ before s after, starts = before ++ s :: after ∧ (splServerMain s.2 (deploy before) s.1).1 = .ok p

/-- Where `spl-client` connects to. -/
def splClientEndpoint (endpoint : Bytes) : Except Exn Endpoint :=
  if endpoint = [] then .error (.processExit 1)
  else if 58 ∉ endpoint then .error (.processExit 1)
  else do
    let (host, rest) := splitEndpoint endpoint
    let port ← stoi rest
    if port < 1024 ∨ port > 65535 then .error (.processExit 1) else return ⟨host, UInt16.ofNat port.toNat⟩

/-! ## What a start leaves behind -/

section Start
variable {env : StartEnv} {d : Deployment} {f : Flags} {cfg : ReplicaConfig}

theorem castPort_range {value : Int32} (h : validatePort value = true) :
    castPort value ≠ 0 ∧ (castPort value).toNat < 32768 := by
  simp only [validatePort, Bool.and_eq_true, decide_eq_true_eq, Int32.lt_iff_toInt_lt] at h
  obtain ⟨hpos, hlt⟩ := h
  have h0 : (0 : Int32).toInt = 0 := by decide
  have hmax : (32768 : Int32).toInt = 32768 := by decide
  have hnat : ((castPort value).toNat : Int) = value.toInt := by
    have hbmod : value.toInt = (value.toUInt32.toNat : Int).bmod (2 ^ 32) := BitVec.toInt_eq_toNat_bmod _
    rw [Int.bmod] at hbmod
    rw [castPort, UInt32.toNat_toUInt16]
    omega
  refine ⟨fun hzero => ?_, by omega⟩
  rw [hzero] at hnat
  simp at hnat
  omega

theorem Flags.replicaConfig_ok (h : f.replicaConfig = .ok cfg) :
    f.valid = true ∧ 1 ≤ cfg.serverId ∧ cfg.raftPort = castPort f.raftport ∧ cfg.clientPort = castPort f.clientport ∧
      bindAddr f.bind = .ok cfg.addr := by
  unfold Flags.replicaConfig at h
  split at h
  · cases h
  · rename_i hvalid
    split at h
    · cases h
    · rename_i hid
      cases haddr : bindAddr f.bind with
      | error e =>
        rw [haddr] at h
        cases h
      | ok addr =>
        rw [haddr] at h
        cases h
        exact ⟨by simpa using hvalid, Int32.not_lt.1 hid, rfl, rfl, rfl⟩

theorem Deployment.get_of_asked {reached : Process → Bool} {k : Nat} {g : RaftGroup} {p : Process}
    (h : d.asked reached = some (k, g, p)) : d[k]? = some g := by
  simp only [Deployment.asked, Option.bind_eq_bind, Option.bind_eq_some_iff, Option.pure_def, Option.some.injEq,
    Prod.mk.injEq] at h
  obtain ⟨k', -, g', hg, p', -, rfl, rfl, -⟩ := h
  exact hg

/-- A request changes nothing and the process ends, or it is accepted and the process goes on. -/
theorem tryJoinCluster_cases (henv : env.Reliable) (d : Deployment) (seed : Bytes) (cfg : ReplicaConfig) :
    (∃ e, tryJoinCluster env d seed cfg = (.error e, d)) ∨
      ∃ k g, d[k]? = some g ∧
        tryJoinCluster env d seed cfg = (.ok k, d.set k
          { g with accepted := addServer g.accepted cfg.serverId cfg.raftEndpoint cfg.clientEndpoint }) := by
  unfold tryJoinCluster
  split
  · exact .inl ⟨_, rfl⟩
  · split
    · exact .inl ⟨_, rfl⟩
    · rename_i k g p hasked
      have hg := Deployment.get_of_asked hasked
      have hreply : (joinReplicaGroup (env.addSrv g p) cfg.serverId cfg.raftEndpoint cfg.clientEndpoint).1 =
          (env.addSrv g p cfg.srvConfig).code := rfl
      have hok := henv.ok g p cfg.srvConfig
      cases hacc : (env.addSrv g p cfg.srvConfig).accepted with
      | false =>
        have hrc : (env.addSrv g p cfg.srvConfig).code ≠ 0 := by simpa [hacc] using hok
        have hsame : d.set k (g.requested (env.addSrv g p cfg.srvConfig) cfg) = d := by
          obtain ⟨hlt, rfl⟩ := List.getElem?_eq_some_iff.1 hg
          simp [RaftGroup.requested, hacc, List.set_getElem_self hlt]
        left
        simp only [hreply, hsame, if_pos hrc]
        split
        · exact ⟨_, rfl⟩
        · exact ⟨_, rfl⟩
      | true =>
        refine .inr ⟨k, g, hg, ?_⟩
        simp [hreply, hok.1 hacc, henv.arrives g p _ hacc, RaftGroup.requested, hacc]

/-- A start either changes nothing, or puts one process into a group of its own or at the end of one there is. -/
theorem splServerMain_cases (henv : env.Reliable) (d : Deployment) (f : Flags) :
    (∃ e, splServerMain env d f = (.error e, d)) ∨
      ∃ p : Process, f.replicaConfig = .ok p.cfg ∧ ∃ own, p.cfg.start = .ok own ∧
        (splServerMain env d f = (.ok p, d ++ [⟨[p], own⟩]) ∨
          ∃ k g, d[k]? = some g ∧ splServerMain env d f = (.ok p, d.set k ⟨g.members ++ [p],
            addServer g.accepted p.cfg.serverId p.cfg.raftEndpoint p.cfg.clientEndpoint⟩)) := by
  unfold splServerMain
  cases hcfg : f.replicaConfig with
  | error e => exact .inl ⟨e, rfl⟩
  | ok cfg =>
    simp only [startReplica]
    cases hstart : cfg.start with
    | error e => exact .inl ⟨e, rfl⟩
    | ok own =>
      cases hwait : waitInitialized env.isInitialized 20 0 with
      | error e => exact .inl ⟨e, by simp⟩
      | ok _ =>
        simp only [ok_bind, pure_eq_ok]
        by_cases hseed : f.seed = []
        · refine .inr ⟨⟨cfg, castPort f.joinport⟩, rfl, own, hstart, .inl ?_⟩
          rw [if_pos hseed]
        · rw [if_neg hseed]
          rcases tryJoinCluster_cases henv d f.seed cfg with ⟨e, he⟩ | ⟨k, g, hg, hjoin⟩
          · exact .inl ⟨e, by rw [he]⟩
          · refine .inr ⟨⟨cfg, castPort f.joinport⟩, rfl, own, hstart, .inr ⟨k, g, hg, ?_⟩⟩
            rw [hjoin]
            obtain ⟨hlt, -⟩ := List.getElem?_eq_some_iff.1 hg
            simp [List.modify_eq_set_getElem?, hlt]

theorem deploy_concat (starts : List (Flags × StartEnv)) (s : Flags × StartEnv) :
    deploy (starts ++ [s]) = (splServerMain s.2 (deploy starts) s.1).2 := by
  rw [deploy, List.foldl_append]
  rfl

theorem Serves.concat {starts : List (Flags × StartEnv)} {p : Process} (h : Serves starts p) (s : Flags × StartEnv) :
    Serves (starts ++ [s]) p := by
  obtain ⟨before, s', after, rfl, hp⟩ := h
  exact ⟨before, s', after ++ [s], by simp, hp⟩

theorem Serves.replicaConfig {starts : List (Flags × StartEnv)} (henv : ∀ s ∈ starts, s.2.Reliable) {p : Process}
    (h : Serves starts p) : ∃ s ∈ starts, s.1.replicaConfig = .ok p.cfg := by
  obtain ⟨before, s, after, rfl, hp⟩ := h
  have hs : s ∈ before ++ s :: after := by simp
  refine ⟨s, hs, ?_⟩
  rcases splServerMain_cases (henv s hs) (deploy before) s.1 with ⟨e, he⟩ | ⟨q, hcfg, own, -, hmain | ⟨k, g, -, hmain⟩⟩
  · rw [he] at hp
    cases hp
  · rw [hmain] at hp
    cases hp
    exact hcfg
  · rw [hmain] at hp
    cases hp
    exact hcfg

/-- The members of a group all serve, and what has been accepted is the configuration of a cluster of them. -/
structure Formed (starts : List (Flags × StartEnv)) (g : RaftGroup) : Prop where
  config : RaftConfig (g.members.map Process.cfg) g.accepted
  serves : ∀ p ∈ g.members, Serves starts p

section Group
variable {starts : List (Flags × StartEnv)} {g : RaftGroup} {p : Process} {own : List SrvConfig} {connects : Nat → Bool}

theorem Formed.concat (h : Formed starts g) (s : Flags × StartEnv) : Formed (starts ++ [s]) g :=
  ⟨h.config, fun p hp => (h.serves p hp).concat s⟩

theorem Formed.alone (hp : Serves starts p) (hown : p.cfg.start = .ok own) : Formed starts ⟨[p], own⟩ where
  config := .start p.cfg hown
  serves q hq := by
    rw [List.mem_singleton.1 hq]
    exact hp

theorem Formed.join (h : Formed starts g) (hp : Serves starts p) (hown : p.cfg.start = .ok own) :
    Formed starts ⟨g.members ++ [p],
      addServer g.accepted p.cfg.serverId p.cfg.raftEndpoint p.cfg.clientEndpoint⟩ where
  config := by
    show RaftConfig ((g.members ++ [p]).map Process.cfg) _
    rw [List.map_append]
    exact .join p.cfg h.config hown
  serves q hq := by
    rcases List.mem_append.1 hq with hq | hq
    · exact h.serves q hq
    · rw [List.mem_singleton.1 hq]
      exact hp

theorem formed_deploy (starts : List (Flags × StartEnv)) (henv : ∀ s ∈ starts, s.2.Reliable) :
    ∀ g ∈ deploy starts, Formed starts g := by
  induction starts using List.reverseRecOn with
  | nil => exact fun g hg => nomatch hg
  | append_singleton starts s ih =>
    have hold := fun g hg => (ih (fun s' hs' => henv s' (List.mem_append_left _ hs')) g hg).concat s
    have hserves (p : Process) (hmain : (splServerMain s.2 (deploy starts) s.1).1 = .ok p) : Serves (starts ++ [s]) p :=
      ⟨starts, s, [], rfl, hmain⟩
    rw [deploy_concat]
    rcases splServerMain_cases (henv s (by simp)) (deploy starts) s.1 with
      ⟨e, he⟩ | ⟨p, -, own, hown, hmain | ⟨k, g, hg, hmain⟩⟩
    · rw [he]
      exact hold
    · have hp := hserves p (by rw [hmain])
      rw [hmain]
      intro g hg
      rcases List.mem_append.1 hg with hg | hg
      · exact hold g hg
      · rw [List.mem_singleton.1 hg]
        exact Formed.alone hp hown
    · have hp := hserves p (by rw [hmain])
      rw [hmain]
      intro g' hg'
      rcases List.mem_or_eq_of_mem_set hg' with hg' | rfl
      · exact hold g' hg'
      · exact (hold g (List.mem_of_getElem? hg)).join hp hown

/-- A process stays in its group. -/
theorem mem_splServerMain (henv : env.Reliable) (d : Deployment) (f : Flags) (h : ∃ g ∈ d, p ∈ g.members) :
    ∃ g ∈ (splServerMain env d f).2, p ∈ g.members := by
  obtain ⟨g, hg, hp⟩ := h
  rcases splServerMain_cases henv d f with ⟨e, he⟩ | ⟨q, -, own, -, hmain | ⟨k, g', hg', hmain⟩⟩
  · exact ⟨g, by rw [he]; exact hg, hp⟩
  · exact ⟨g, by rw [hmain]; exact List.mem_append_left _ hg, hp⟩
  · rw [hmain]
    obtain ⟨i, hi⟩ := List.mem_iff_getElem?.1 hg
    by_cases hik : i = k
    · subst hik
      rw [hi, Option.some.injEq] at hg'
      subst hg'
      exact ⟨_, List.mem_of_getElem? (List.getElem?_set_self (List.getElem?_eq_some_iff.1 hi).1), by simp [hp]⟩
    · refine ⟨g, List.mem_of_getElem? (i := i) ?_, hp⟩
      rwa [List.getElem?_set_ne (Ne.symm hik)]

/-- A process that serves is in a group. -/
theorem Serves.mem_deploy (henv : ∀ s ∈ starts, s.2.Reliable) (h : Serves starts p) :
    ∃ g ∈ deploy starts, p ∈ g.members := by
  obtain ⟨before, s, after, rfl, hp⟩ := h
  have hjoined : ∃ g ∈ deploy (before ++ [s]), p ∈ g.members := by
    rw [deploy_concat]
    rcases splServerMain_cases (henv s (by simp)) (deploy before) s.1 with
      ⟨e, he⟩ | ⟨q, -, own, -, hmain | ⟨k, g, hg, hmain⟩⟩
    · rw [he] at hp
      cases hp
    · rw [hmain] at hp ⊢
      cases hp
      exact ⟨_, List.mem_append_right _ (List.mem_singleton_self _), List.mem_singleton_self _⟩
    · rw [hmain] at hp ⊢
      cases hp
      exact ⟨_, List.mem_of_getElem? (List.getElem?_set_self (List.getElem?_eq_some_iff.1 hg).1), by simp⟩
  induction after using List.reverseRecOn with
  | nil => exact hjoined
  | append_singleton after s' ih =>
    have hassoc : before ++ s :: (after ++ [s']) = before ++ s :: after ++ [s'] := by simp
    rw [hassoc] at henv ⊢
    rw [deploy_concat]
    exact mem_splServerMain (henv s' (by simp)) _ _ (ih fun t ht => henv t (List.mem_append_left _ ht))

/-- Values of a list, in any order and number, are those of some of its elements. -/
theorem exists_eq_map_of_subset {α β : Type} {f : α → β} {as : List α} {bs : List β} (h : bs ⊆ as.map f) :
    ∃ as' : List α, as' ⊆ as ∧ bs = as'.map f := by
  induction bs with
  | nil => exact ⟨[], List.nil_subset _, rfl⟩
  | cons b bs ih =>
    obtain ⟨hb, hrest⟩ := List.cons_subset.1 h
    obtain ⟨a, ha, rfl⟩ := List.mem_map.1 hb
    obtain ⟨as', has', rfl⟩ := ih hrest
    exact ⟨a :: as', List.cons_subset.2 ⟨ha, has'⟩, rfl⟩

theorem Formed.accepted_eq (h : Formed starts g) : g.accepted = g.members.map fun p => p.cfg.srvConfig := by
  rw [h.config.eq_map, List.map_map]
  rfl

/-- The servers of a configuration are members, under different ids. -/
theorem Formed.exists_of_configured (h : Formed starts g) {configs : List SrvConfig} (hconf : g.Configured configs) :
    ∃ ps : List Process, ps ⊆ g.members ∧ configs = ps.map (fun p => p.cfg.srvConfig) ∧
      (ps.map fun p => p.cfg.serverId).Nodup := by
  have hsub := hconf.accepted
  rw [h.accepted_eq] at hsub
  obtain ⟨ps, hps, rfl⟩ := exists_eq_map_of_subset hsub
  refine ⟨ps, hps, rfl, ?_⟩
  have hids := hconf.ids
  rwa [List.map_map] at hids

theorem Serves.range (henv : ∀ s ∈ starts, s.2.Reliable) (h : Serves starts p) :
    1 ≤ p.cfg.serverId ∧ p.cfg.raftPort.toNat < 32768 ∧ p.cfg.clientPort ≠ 0 ∧ p.cfg.clientPort.toNat < 32768 := by
  obtain ⟨s, -, hcfg⟩ := h.replicaConfig henv
  obtain ⟨hvalid, hid, hraft, hclient, -⟩ := Flags.replicaConfig_ok hcfg
  simp only [Flags.valid, Bool.and_eq_true] at hvalid
  obtain ⟨⟨⟨hr, hc⟩, -⟩, -⟩ := hvalid
  rw [hraft, hclient]
  exact ⟨hid, (castPort_range hr).2, castPort_range hc⟩

section Handles
variable {ps : List Process}

/-- Every handle is for a process that could be connected to. -/
theorem handle_of (hids : (ps.map fun p => p.cfg.serverId).Nodup) {clients : ExtTreeMap Int32 Endpoint}
    (hclients : Client.connectAll connects 0 (getAllServers ((ps.map Process.cfg).map ReplicaConfig.srvConfig)) ∅ =
      .ok clients)
    (hof : ∀ (id : Int32) (e : Endpoint), clients[id]? = some e →
      ∃ cfg ∈ ps.map Process.cfg, cfg.serverId = id ∧ e = ⟨cfg.addr, cfg.clientPort⟩)
    {id : Int32} {e : Endpoint} (he : clients[id]? = some e) :
    ∃ i p, ps[i]? = some p ∧ connects i = true ∧ p.cfg.serverId = id ∧ e = ⟨p.cfg.addr, p.cfg.clientPort⟩ := by
  have hmem : id ∈ clients := by
    rw [← ExtTreeMap.isSome_getElem?_iff_mem, he]
    rfl
  rcases (Client.mem_connectAll hclients id).1 hmem with hempty | ⟨i, srv, hsrv, hid, hconn⟩
  · simp at hempty
  · rw [getAllServers, List.map_map, List.map_map, List.getElem?_map] at hsrv
    obtain ⟨p, hp, rfl⟩ := Option.map_eq_some_iff.1 hsrv
    obtain ⟨_, hcfg, hqid, rfl⟩ := hof id e he
    obtain ⟨q, hq, rfl⟩ := List.mem_map.1 hcfg
    have heq : q = p := List.inj_on_of_nodup_map hids hq (List.mem_of_getElem? hp) (hqid.trans hid.symm)
    simp only [Nat.zero_add] at hconn
    exact ⟨i, p, hp, hconn, hid, by rw [heq]⟩

/-- The client's loop over the processes of a configuration. -/
theorem handles (hids : (ps.map fun p => p.cfg.serverId).Nodup) (hport : ∀ p ∈ ps, p.cfg.clientPort ≠ 0)
    (haddr : ∀ p ∈ ps, 58 ∉ p.cfg.addr) (connects : Nat → Bool) :
    ∃ clients, Client.connectAll connects 0
        (getAllServers ((ps.map Process.cfg).map ReplicaConfig.srvConfig)) ∅ = .ok clients ∧
      ∀ (id : Int32) (e : Endpoint), clients[id]? = some e ↔
        ∃ i p, ps[i]? = some p ∧ connects i = true ∧ p.cfg.serverId = id ∧ e = ⟨p.cfg.addr, p.cfg.clientPort⟩ := by
  obtain ⟨clients, hclients, hof⟩ := clients_of_advertised (List.forall_mem_map.2 hport) (List.forall_mem_map.2 haddr)
    connects
  refine ⟨clients, hclients, fun id e => ⟨fun he => handle_of hids hclients hof he, ?_⟩⟩
  rintro ⟨i, p, hp, hconn, rfl, rfl⟩
  have hmem : p.cfg.serverId ∈ clients := by
    refine (Client.mem_connectAll hclients _).2 (.inr ⟨i, ⟨p.cfg.serverId, p.cfg.clientEndpoint⟩, ?_, rfl, ?_⟩)
    · rw [getAllServers, List.map_map, List.map_map, List.getElem?_map, hp]
      rfl
    · simpa only [Nat.zero_add] using hconn
  obtain ⟨e, he⟩ := Option.isSome_iff_exists.1 (ExtTreeMap.isSome_getElem?_iff_mem.2 hmem)
  obtain ⟨j, q, hq, -, hqid, rfl⟩ := handle_of hids hclients hof he
  have heq : q = p := List.inj_on_of_nodup_map hids (List.mem_of_getElem? hq) (List.mem_of_getElem? hp) hqid
  rw [he, heq]

end Handles

end Group

/-- `spl-client` refuses ports that `spl-server` takes. -/
theorem splClientEndpoint_iff (cfg : ReplicaConfig) :
    splClientEndpoint cfg.clientEndpoint = .ok ⟨cfg.addr, cfg.clientPort⟩ ↔
      58 ∉ cfg.addr ∧ 1024 ≤ cfg.clientPort.toNat := by
  have hlt := cfg.clientPort.toNat_lt
  have hcolon : 58 ∈ cfg.clientEndpoint := by simp [ReplicaConfig.clientEndpoint]
  have hne : cfg.clientEndpoint ≠ [] := List.ne_nil_of_mem hcolon
  rw [splClientEndpoint, if_neg hne, if_neg (not_not.2 hcolon)]
  by_cases haddr : 58 ∈ cfg.addr
  · -- the host that is split off has no colon
    have hhost := not_mem_host hcolon
    simp only [haddr, not_true_eq_false, false_and, iff_false]
    cases hstoi : stoi (splitEndpoint cfg.clientEndpoint).2 with
    | error e => simp
    | ok port =>
      simp only [ok_bind]
      split
      · simp
      · intro heq
        have hsame : (splitEndpoint cfg.clientEndpoint).1 = cfg.addr := congrArg Endpoint.host (Except.ok.inj heq)
        exact hhost (hsame ▸ haddr)
  · have hsplit : splitEndpoint cfg.clientEndpoint = (cfg.addr, toDecimal cfg.clientPort.toNat) :=
      splitEndpoint_append haddr _
    simp only [hsplit, stoi_toDecimal (show cfg.clientPort.toNat ≤ 2147483647 by omega), ok_bind, haddr,
      not_false_eq_true, true_and]
    split
    · simp only [reduceCtorEq, false_iff]
      omega
    · simp only [Int.toNat_natCast, UInt16.ofNat_toNat, pure_eq_ok, true_iff]
      omega

end Start

/-- **Clusters form as they are asked to.** Whatever processes are started, with whatever flags, and whoever their
seeds lead to: the processes that serve are those in the groups, with positive ids and ports below 32768, and what has
been accepted in a group is its processes, in the order they came. Given the client endpoint of one, `spl-client` goes to
its address and port exactly when the address has no colon and the port is 1024 or above. A member whose configuration
has only servers that were accepted, no two under one id, answers with processes of the group, under their ids and
client endpoints, none twice; with all of them, once all have been taken in. If no `-bind` had a colon in it, the
client's loop over such an answer ends, with a handle for each process in it that could be connected to, under its id
and for its address and port, and no other. -/
theorem clusters_form (starts : List (Flags × StartEnv)) (henv : ∀ s ∈ starts, s.2.Reliable) :
    (∀ p, Serves starts p ↔ ∃ g ∈ deploy starts, p ∈ g.members) ∧
    (∀ p, Serves starts p → 1 ≤ p.cfg.serverId ∧ p.cfg.raftPort.toNat < 32768 ∧
      p.cfg.clientPort ≠ 0 ∧ p.cfg.clientPort.toNat < 32768 ∧
      (splClientEndpoint p.cfg.clientEndpoint = .ok ⟨p.cfg.addr, p.cfg.clientPort⟩ ↔
        58 ∉ p.cfg.addr ∧ 1024 ≤ p.cfg.clientPort.toNat)) ∧
    ∀ g ∈ deploy starts, g.accepted = g.members.map (fun p => p.cfg.srvConfig) ∧
      ∀ configs, g.Configured configs → ∃ ps : List Process, ps ⊆ g.members ∧
        (ps.map fun p => p.cfg.serverId).Nodup ∧
        getAllServers configs = ps.map (fun p => ⟨p.cfg.serverId, p.cfg.clientEndpoint⟩) ∧
        (g.accepted ⊆ configs → ∀ p ∈ g.members, ⟨p.cfg.serverId, p.cfg.clientEndpoint⟩ ∈ getAllServers configs) ∧
        ((∀ s ∈ starts, 58 ∉ s.1.bind) → ∀ connects : Nat → Bool,
          ∃ clients, Client.connectAll connects 0 (getAllServers configs) ∅ = .ok clients ∧
            ∀ (id : Int32) (e : Endpoint), clients[id]? = some e ↔
              ∃ i p, ps[i]? = some p ∧ connects i = true ∧ p.cfg.serverId = id ∧
                e = ⟨p.cfg.addr, p.cfg.clientPort⟩) := by
  have hformed := formed_deploy starts henv
  refine ⟨fun p => ⟨Serves.mem_deploy henv, ?_⟩, fun p hp => ?_, fun g hg => ?_⟩
  · rintro ⟨g, hg, hp⟩
    exact (hformed g hg).serves p hp
  · obtain ⟨hid, hraft, hport, hlt⟩ := hp.range henv
    exact ⟨hid, hraft, hport, hlt, splClientEndpoint_iff p.cfg⟩
  · have hform := hformed g hg
    refine ⟨hform.accepted_eq, fun configs hconf => ?_⟩
    obtain ⟨ps, hps, rfl, hids⟩ := hform.exists_of_configured hconf
    refine ⟨ps, hps, hids, ?_, fun hall p hp => ?_, fun hcolon connects => ?_⟩
    · rw [getAllServers, List.map_map]
      rfl
    · have hmem := hall (hform.accepted_eq ▸ List.mem_map_of_mem hp)
      exact List.mem_map_of_mem (f := fun srv : SrvConfig => (⟨srv.id, srv.aux⟩ : RpcServerInfo)) hmem
    · have hserve := fun p hp => hform.serves p (hps hp)
      have hmap : ps.map (fun p => p.cfg.srvConfig) = (ps.map Process.cfg).map ReplicaConfig.srvConfig := by
        rw [List.map_map]
        rfl
      rw [hmap]
      refine handles hids (fun p hp => ((hserve p hp).range henv).2.2.1) (fun p hp => ?_) connects
      obtain ⟨s, hs, hcfg⟩ := (hserve p hp).replicaConfig henv
      obtain ⟨-, -, -, -, hbind⟩ := Flags.replicaConfig_ok hcfg
      exact colon_not_mem_bindAddr hbind (hcolon s hs)

/-- A NuRaft that takes in every new id. -/
def refAddSrv (g : RaftGroup) (_ : Process) (conf : SrvConfig) : AddResult :=
  if g.accepted.any (·.id == conf.id) then ⟨false, -5, "SERVER_ALREADY_EXISTS"⟩ else ⟨true, 0, "OK"⟩

/-- Seeds lead to the process with that join port. -/
def refEnv (isInitialized : Nat → Bool) : StartEnv := ⟨isInitialized, fun e p => e.port == p.joinPort, refAddSrv, true⟩

theorem refEnv_reliable (isInitialized : Nat → Bool) : (refEnv isInitialized).Reliable where
  ok g p conf := by
    simp only [refEnv, refAddSrv]
    split <;> simp
  arrives _ _ _ _ := rfl

/-- Server 1 on all addresses, server 2 with server 1 as its seed, and a second server 2, which is refused. While
server 1 is still alone in its configuration, a client gets a handle for server 1; afterwards for both. -/
theorem clusters_form_demo :
    let all : Bytes := [97, 108, 108]
    let seed : Bytes := [108, 111, 99, 97, 108, 104, 111, 115, 116, 58, 49, 48, 48, 48, 49]
    let starts : List (Flags × StartEnv) := [(⟨1, all, 10000, 10001, 10002, [], 40⟩, refEnv fun i => i == 2),
      (⟨2, all, 10003, 10004, 10005, seed, 40⟩, refEnv fun _ => true),
      (⟨2, all, 10006, 10007, 10008, seed, 40⟩, refEnv fun _ => true)]
    ∃ g, deploy starts = [g] ∧
      (∃ clients, Client.connectAll (fun _ => true) 0 (getAllServers (g.accepted.take 1)) ∅ = .ok clients ∧
        clients[(1 : Int32)]? = some ⟨[48, 46, 48, 46, 48, 46, 48], 10002⟩) ∧
      ∃ clients, Client.connectAll (fun _ => true) 0 (getAllServers g.accepted) ∅ = .ok clients ∧
        clients[(2 : Int32)]? = some ⟨[48, 46, 48, 46, 48, 46, 48], 10005⟩ ∧ clients[(3 : Int32)]? = none := by
  intro all seed starts
  have henv : ∀ s ∈ starts, s.2.Reliable := by
    simp [starts, refEnv_reliable]
  let one : Process := ⟨⟨1, 10000, 10002, [48, 46, 48, 46, 48, 46, 48]⟩, 10001⟩
  let two : Process := ⟨⟨2, 10003, 10005, [48, 46, 48, 46, 48, 46, 48]⟩, 10004⟩
  have hdeploy : deploy starts = [⟨[one, two], [one.cfg.srvConfig, two.cfg.srvConfig]⟩] := by decide
  obtain ⟨-, -, hgroups⟩ := clusters_form starts henv
  obtain ⟨-, hconfigs⟩ := hgroups _ (hdeploy ▸ List.mem_singleton_self _)
  refine ⟨_, hdeploy, ?_, ?_⟩
  · obtain ⟨ps, hps, -, hanswer, -, hhandles⟩ := hconfigs [one.cfg.srvConfig] ⟨by simp, by decide⟩
    obtain ⟨clients, hclients, hiff⟩ := hhandles (by decide) fun _ => true
    have hlen : ps.length = 1 := by simpa [getAllServers] using (congrArg List.length hanswer).symm
    obtain ⟨p, rfl⟩ := List.length_eq_one_iff.1 hlen
    have hp := hps (List.mem_singleton_self p)
    fin_cases hp
    · exact ⟨clients, hclients, (hiff 1 _).2 ⟨0, one, rfl, rfl, rfl, rfl⟩⟩
    · exact absurd hanswer (by decide)
  · obtain ⟨ps, hps, -, hanswer, -, hhandles⟩ :=
      hconfigs [one.cfg.srvConfig, two.cfg.srvConfig] ⟨List.Subset.refl _, by decide⟩
    obtain ⟨clients, hclients, hiff⟩ := hhandles (by decide) fun _ => true
    have hids : (ps.map fun p => p.cfg.serverId) = [1, 2] := by
      have h := congrArg (List.map RpcServerInfo.id) hanswer
      simpa [getAllServers, List.map_map, Function.comp_def, one, two, ReplicaConfig.srvConfig] using h.symm
    obtain ⟨p, q, rfl⟩ : ∃ p q, ps = [p, q] := by
      have hlen := congrArg List.length hids
      rw [List.length_map] at hlen
      exact List.length_eq_two.1 hlen
    have hq : q = two := by
      have hmem : q ∈ [one, two] := hps (by simp)
      have hid : q.cfg.serverId = 2 := by simpa using (List.cons.inj (List.cons.inj hids).2).1
      fin_cases hmem
      · exact absurd hid (by decide)
      · rfl
    subst hq
    refine ⟨clients, hclients, (hiff 2 _).2 ⟨1, two, rfl, rfl, rfl, rfl⟩, ?_⟩
    cases hthree : clients[(3 : Int32)]? with
    | none => rfl
    | some e =>
      obtain ⟨i, r, hr, -, hid, -⟩ := (hiff 3 e).1 hthree
      have hr := hps (List.mem_of_getElem? hr)
      fin_cases hr
      · exact absurd hid (by decide)
      · exact absurd hid (by decide)

end ReplicatedSplinter
