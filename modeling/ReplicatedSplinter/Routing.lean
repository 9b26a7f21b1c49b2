import ReplicatedSplinter.Reads
/-!
# Two clients of one cluster route alike

The seed servers may list the cluster in different orders. `clients_` is a `std::map`, so `server_ids_`
comes out sorted by id whatever the order was, and the policies look at nothing else of the servers. So
two clients always compute the same index; that there is a server at this index is another matter.

| here | there |
| --- | --- |
| `SameCluster` | two answers to `get_all_servers` with the same servers, and the same of them connecting |
| `byPolicy`, `lastMapping` | what of a client's history its policy still remembers: `rri_` (`read_policy.h:41`) and `mapping_` (`:135`) |
| `SameServer` | where `get` (`client.cpp:138-150`) of both clients sends its RPC |
-/

namespace ReplicatedSplinter
open ByteCodec Std

/-! ## The same map of clients -/

/-- The two lists have the same servers, with distinct ids, and a server connects from both or from neither. -/
structure SameCluster (srvs₁ srvs₂ : List RpcServerInfo) (connects₁ connects₂ : Nat → Bool) : Prop where
  same : ∀ srv, srv ∈ srvs₁ ↔ srv ∈ srvs₂
  distinct₁ : (srvs₁.map RpcServerInfo.id).Nodup
  distinct₂ : (srvs₂.map RpcServerInfo.id).Nodup
  connects : ∀ i j srv, srvs₁[i]? = some srv → srvs₂[j]? = some srv → connects₁ i = connects₂ j

theorem SameCluster.symm {srvs₁ srvs₂ : List RpcServerInfo} {connects₁ connects₂ : Nat → Bool}
    (h : SameCluster srvs₁ srvs₂ connects₁ connects₂) : SameCluster srvs₂ srvs₁ connects₂ connects₁ where
  same := fun srv => (h.same srv).symm
  distinct₁ := h.distinct₂
  distinct₂ := h.distinct₁
  connects := fun i j srv hi hj => (h.connects j i srv hj hi).symm

theorem SameCluster.connected {srvs₁ srvs₂ : List RpcServerInfo} {connects₁ connects₂ : Nat → Bool}
    (h : SameCluster srvs₁ srvs₂ connects₁ connects₂) {id : Int32} (hc : Connected srvs₁ connects₁ id) :
    Connected srvs₂ connects₂ id := by
  obtain ⟨i, srv, hi, hid, hcon⟩ := hc
  have hmem : srv ∈ srvs₂ := (h.same srv).1 (List.mem_of_getElem? hi)
  obtain ⟨j, hj⟩ := List.mem_iff_getElem?.1 hmem
  refine ⟨j, srv, hj, hid, ?_⟩
  rw [← h.connects i j srv hi hj, hcon]

namespace Client

/-- What the loop stores under an id is the endpoint of a server of the list with that id. -/
theorem getElem?_connectAll {connects : Nat → Bool} {srvs : List RpcServerInfo} {i : Nat}
    {m clients : ExtTreeMap Int32 Endpoint} (h : connectAll connects i srvs m = .ok clients) {id : Int32} {e : Endpoint}
    (he : clients[id]? = some e) :
    m[id]? = some e ∨ ∃ srv ∈ srvs, srv.id = id ∧ parseEndpoint srv.endpoint = .ok e := by
  induction srvs generalizing i m with
  | nil =>
    cases h
    exact .inl he
  | cons srv rest ih =>
    unfold connectAll at h
    cases hp : parseEndpoint srv.endpoint with
    | error ex => simp [hp] at h
    | ok e' =>
      simp only [hp, ok_bind] at h
      by_cases hc : connects i = true
      · rw [if_pos hc] at h
        rcases ih h with hins | ⟨s, hs, hsid, hse⟩
        · rw [ExtTreeMap.getElem?_insertIfNew] at hins
          by_cases hnew : compare srv.id id = .eq ∧ srv.id ∉ m
          · rw [if_pos hnew, Option.some.injEq] at hins
            have hid : srv.id = id := Std.compare_eq_iff_eq.1 hnew.1
            exact .inr ⟨srv, List.mem_cons_self, hid, by rw [hp, hins]⟩
          · rw [if_neg hnew] at hins
            exact .inl hins
        · exact .inr ⟨s, List.mem_cons_of_mem _ hs, hsid, hse⟩
      · rw [if_neg hc] at h
        rcases ih h with hm | ⟨s, hs, hsid, hse⟩
        · exact .inl hm
        · exact .inr ⟨s, List.mem_cons_of_mem _ hs, hsid, hse⟩

theorem connectAll_alike {srvs₁ srvs₂ : List RpcServerInfo} {connects₁ connects₂ : Nat → Bool}
    (h : SameCluster srvs₁ srvs₂ connects₁ connects₂) {m₁ m₂ : ExtTreeMap Int32 Endpoint}
    (h₁ : connectAll connects₁ 0 srvs₁ ∅ = .ok m₁) (h₂ : connectAll connects₂ 0 srvs₂ ∅ = .ok m₂) : m₁ = m₂ := by
  have hmem (id : Int32) : id ∈ m₁ ↔ id ∈ m₂ := by
    rw [mem_connectAll h₁, mem_connectAll h₂]
    simp only [ExtTreeMap.not_mem_empty, false_or, Nat.zero_add]
    exact ⟨h.connected, h.symm.connected⟩
  apply ExtTreeMap.ext_getElem?
  intro id
  by_cases hid : id ∈ m₁
  · obtain ⟨e₁, he₁⟩ : ∃ e, m₁[id]? = some e := by
      rw [← Option.isSome_iff_exists, ExtTreeMap.isSome_getElem?_iff_mem]
      exact hid
    obtain ⟨e₂, he₂⟩ : ∃ e, m₂[id]? = some e := by
      rw [← Option.isSome_iff_exists, ExtTreeMap.isSome_getElem?_iff_mem]
      exact (hmem id).1 hid
    rcases getElem?_connectAll h₁ he₁ with hempty | ⟨s₁, hs₁, hid₁, hp₁⟩
    · simp at hempty
    rcases getElem?_connectAll h₂ he₂ with hempty | ⟨s₂, hs₂, hid₂, hp₂⟩
    · simp at hempty
    -- the ids are distinct, so the two entries come from one server
    have heq : s₁ = s₂ :=
      List.inj_on_of_nodup_map h.distinct₁ hs₁ ((h.same s₂).2 hs₂) (hid₁.trans hid₂.symm)
    rw [heq, hp₂, Except.ok.injEq] at hp₁
    rw [he₁, he₂, hp₁]
  · rw [ExtTreeMap.getElem?_eq_none hid, ExtTreeMap.getElem?_eq_none fun h' => hid ((hmem id).2 h')]

end Client

/-! ## What a policy remembers -/

namespace ReadOp

/-- The read is one the policy chooses the server of. -/
def byPolicy : ReadOp → Bool
  | .get _ none _ _ => true
  | _ => false

/-- The mapping after a run of calls, `m` before it. -/
def lastMapping (m : Bytes → Option Nat) : List ReadOp → Bytes → Option Nat
  | [] => m
  | .setFixedKeyMapping m' :: ops => lastMapping m' ops
  | .get _ _ _ _ :: ops => lastMapping m ops

end ReadOp

namespace ReadPolicy

theorem foldl_afterOp_hash (ids : List Int32) (ranges : List UInt32) (ops : List ReadOp) :
    ops.foldl afterOp (.hash ids ranges) = .hash ids ranges := by
  induction ops with
  | nil => rfl
  | cons op ops ih =>
    have hop : afterOp (.hash ids ranges) op = .hash ids ranges := by
      rcases op with ⟨key, _ | srv, draw, rpc⟩ | mapping <;> rfl
    rw [List.foldl_cons, hop, ih]

theorem foldl_afterOp_fixed (ids : List Int32) (m : Bytes → Option Nat) (ops : List ReadOp) :
    ops.foldl afterOp (.fixed ids m) = .fixed ids (ReadOp.lastMapping m ops) := by
  induction ops generalizing m with
  | nil => rfl
  | cons op ops ih =>
    rcases op with ⟨key, _ | srv, draw, rpc⟩ | mapping
    · exact ih m
    · exact ih m
    · exact ih mapping

theorem foldl_afterOp_roundRobin (ids : List Int32) (hn : ids.length ≠ 0) (rri : Nat) (ops : List ReadOp) :
    ops.foldl afterOp (.roundRobin ids (rri % ids.length)) =
      .roundRobin ids ((rri + ops.countP ReadOp.byPolicy) % ids.length) := by
  induction ops generalizing rri with
  | nil => rfl
  | cons op ops ih =>
    rcases op with ⟨key, _ | srv, draw, rpc⟩ | mapping
    · have hstep : afterOp (.roundRobin ids (rri % ids.length)) (.get key none draw rpc) =
          .roundRobin ids ((rri + 1) % ids.length) := by
        simp [afterOp, advance, hn]
      rw [List.foldl_cons, hstep, ih, List.countP_cons_of_pos rfl, Nat.add_assoc, Nat.add_comm 1]
    · rw [List.countP_cons_of_neg (by simp [ReadOp.byPolicy])]
      exact ih rri
    · rw [List.countP_cons_of_neg (by simp [ReadOp.byPolicy])]
      exact ih rri

/-- With no server, round robin stands still. -/
theorem foldl_afterOp_nil {ids : List Int32} (hn : ids.length = 0) (rri : Nat) (ops : List ReadOp) :
    ops.foldl afterOp (.roundRobin ids rri) = .roundRobin ids rri := by
  induction ops with
  | nil => rfl
  | cons op ops ih =>
    have hop : afterOp (.roundRobin ids rri) op = .roundRobin ids rri := by
      rcases op with ⟨key, _ | srv, draw, rpc⟩ | mapping
      · simp [afterOp, advance, hn]
      · rfl
      · rfl
    rw [List.foldl_cons, hop, ih]

/-- The server a read by the policy goes to, if it goes to one. -/
def route (p : ReadPolicy) (key : Bytes) (draw : Draw) : Option Int32 :=
  (p.nextServer key draw).toOption.map Prod.fst

theorem route_eq {p : ReadPolicy} {key : Bytes} {draw : Draw} :
    p.route key draw = (p.next key draw).toOption.bind fun x => p.serverIds[x.1]? := by
  unfold route nextServer
  cases p.next key draw with
  | error e => rfl
  | ok x =>
    cases hsrv : p.serverIds[x.1]? with
    | none => simp [hsrv, Except.toOption]
    | some srv => simp [hsrv, Except.toOption]

/-- The index `next` returns. -/
def index (p : ReadPolicy) (key : Bytes) (draw : Draw) : Except Exn Nat := (p.next key draw).map Prod.fst

theorem route_eq_index (p : ReadPolicy) (key : Bytes) (draw : Draw) :
    p.route key draw = (p.index key draw).toOption.bind fun i => p.serverIds[i]? := by
  rw [route_eq, index]
  cases p.next key draw with
  | error e => rfl
  | ok x => rfl

theorem route_eq_some_iff {p : ReadPolicy} {key : Bytes} {draw : Draw} {srv : Int32} :
    p.route key draw = some srv ↔ ∃ i, p.index key draw = .ok i ∧ p.serverIds[i]? = some srv := by
  rw [route_eq_index]
  cases p.index key draw with
  | error e => simp [Except.toOption]
  | ok i => simp [Except.toOption]

theorem index_hash (ids : List Int32) (ranges : List UInt32) (key : Bytes) (draw : Draw) :
    (ReadPolicy.hash ids ranges).index key draw = getToken key >>= rangeNext ids.length ranges := by
  simp only [index, next]
  cases getToken key with
  | error e => rfl
  | ok token =>
    simp only [ok_bind]
    cases rangeNext ids.length ranges token with
    | error e => rfl
    | ok i => rfl

theorem index_fixed (ids : List Int32) (mapping : Bytes → Option Nat) (key : Bytes) (draw : Draw) :
    (ReadPolicy.fixed ids mapping).index key draw =
      match mapping key with
      | some i => .ok i
      | none => .error (.outOfRange "unordered_map::at") := by
  simp only [index, next]
  cases mapping key with
  | none => rfl
  | some i => rfl

theorem index_roundRobin (ids : List Int32) (rri : Nat) (key : Bytes) (draw : Draw) :
    (ReadPolicy.roundRobin ids rri).index key draw =
      if ids.length = 0 then .error (.undefinedBehaviour "remainder by zero") else .ok rri := by
  simp only [index, next]
  by_cases hn : ids.length = 0
  · rw [if_pos hn, if_pos hn]
    rfl
  · rw [if_neg hn, if_neg hn]
    rfl

/-- The index of round robin is the number of reads by the policy so far. -/
theorem index_foldl_roundRobin (ids : List Int32) (ops : List ReadOp) (key : Bytes) (draw : Draw) :
    (ops.foldl afterOp (.roundRobin ids 0)).index key draw =
      if ids.length = 0 then .error (.undefinedBehaviour "remainder by zero")
      else .ok (ops.countP ReadOp.byPolicy % ids.length) := by
  by_cases hn : ids.length = 0
  · rw [foldl_afterOp_nil hn, index_roundRobin, if_pos hn, if_pos hn]
  · have hrr := foldl_afterOp_roundRobin ids hn 0 ops
    rw [Nat.zero_mod, Nat.zero_add] at hrr
    rw [hrr, index_roundRobin, if_neg hn]

end ReadPolicy

theorem PolicyInv.sentTo_get {c : Client} (h : PolicyInv c) (key : Bytes) (draw : Draw)
    (rpc : Int32 → Bytes → Except Exn RpcReadResult) :
    (c.get key none draw rpc).sentTo = c.readPolicy.route key draw := by
  unfold Client.get Client.targetServer ReadPolicy.route
  cases hs : c.readPolicy.nextServer key draw with
  | error e => rfl
  | ok x =>
    obtain ⟨srv, p'⟩ := x
    have hroute : c.readPolicy.route key draw = some srv := by simp [ReadPolicy.route, hs, Except.toOption]
    have hmem : srv ∈ c.clients := by
      rw [ReadPolicy.route_eq, Option.bind_eq_some_iff] at hroute
      obtain ⟨x, -, hx⟩ := hroute
      rw [← ExtTreeMap.mem_keys, ← h.ids]
      exact List.mem_of_getElem? hx
    simp [hmem, Except.toOption]

/-- The two clients compute the same index for these reads by the policy, or fail alike, and where the one sends its
RPC the other sends it too. -/
def RouteAlike (c₁ c₂ : Client) (key₁ key₂ : Bytes) : Prop :=
  ∀ d₁ d₂ rpc₁ rpc₂, c₁.readPolicy.index key₁ d₁ = c₂.readPolicy.index key₂ d₂ ∧
    (c₁.get key₁ none d₁ rpc₁).sentTo = (c₂.get key₂ none d₂ rpc₂).sentTo

/-- Both clients send their RPC to one server, which is in `clients_` of both. -/
def SameServer (c₁ c₂ : Client) (key₁ key₂ : Bytes) : Prop :=
  ∀ d₁ d₂ rpc₁ rpc₂, ∃ srv, srv ∈ c₁.clients ∧ srv ∈ c₂.clients ∧
    (c₁.get key₁ none d₁ rpc₁).sentTo = some srv ∧ (c₂.get key₂ none d₂ rpc₂).sentTo = some srv

section Alike
variable {c₁ c₂ : Client} {key₁ key₂ : Bytes}

theorem routeAlike_of_index (h₁ : PolicyInv c₁) (h₂ : PolicyInv c₂) (hclients : c₁.clients = c₂.clients)
    (hindex : ∀ d₁ d₂, c₁.readPolicy.index key₁ d₁ = c₂.readPolicy.index key₂ d₂) : RouteAlike c₁ c₂ key₁ key₂ := by
  intro d₁ d₂ rpc₁ rpc₂
  refine ⟨hindex d₁ d₂, ?_⟩
  rw [h₁.sentTo_get, h₂.sentTo_get, ReadPolicy.route_eq_index, ReadPolicy.route_eq_index, hindex d₁ d₂, h₁.ids, h₂.ids,
    hclients]

/-- Clients that route alike send to one server exactly when the index is below the number of servers. -/
theorem RouteAlike.sameServer_iff (h : RouteAlike c₁ c₂ key₁ key₂) (h₁ : PolicyInv c₁)
    (hclients : c₁.clients = c₂.clients) :
    SameServer c₁ c₂ key₁ key₂ ↔ ∀ d, ∃ i < c₁.clients.size, c₁.readPolicy.index key₁ d = .ok i := by
  have hlen : c₁.readPolicy.serverIds.length = c₁.clients.size := by rw [h₁.ids, ExtTreeMap.length_keys]
  constructor
  · intro hsame d
    obtain ⟨srv, -, -, hsent, -⟩ := hsame d d (fun _ _ => .ok ⟨none, 0⟩) fun _ _ => .ok ⟨none, 0⟩
    rw [h₁.sentTo_get, ReadPolicy.route_eq_some_iff] at hsent
    obtain ⟨i, hi, hsrv⟩ := hsent
    obtain ⟨hlt, -⟩ := List.getElem?_eq_some_iff.1 hsrv
    exact ⟨i, by omega, hi⟩
  · intro hindex d₁ d₂ rpc₁ rpc₂
    obtain ⟨i, hlt, hi⟩ := hindex d₁
    have hsrv : c₁.readPolicy.serverIds[i]? = some (c₁.readPolicy.serverIds[i]) := List.getElem?_eq_getElem (by omega)
    have hmem : c₁.readPolicy.serverIds[i] ∈ c₁.clients := by
      rw [← ExtTreeMap.mem_keys, ← h₁.ids]
      exact List.getElem_mem _
    have hsent : (c₁.get key₁ none d₁ rpc₁).sentTo = some c₁.readPolicy.serverIds[i] := by
      rw [h₁.sentTo_get, ReadPolicy.route_eq_some_iff]
      exact ⟨i, hi, hsrv⟩
    refine ⟨_, hmem, hclients ▸ hmem, hsent, ?_⟩
    rw [← (h d₁ d₂ rpc₁ rpc₂).2, hsent]

end Alike

/-- **All clients route alike, as far as the index leads to a server.** Two clients of one cluster, after any history
of reads and mappings of each: by hash every key, by a fixed mapping every key that both map alike, and by round robin
the reads that come after equally many others have the same index in both. They go to one connected server exactly
when a range has the token of the key in it, when the mapping is below the number of connected servers, and when there
is one. -/
theorem clients_route_alike_iff (seed₁ seed₂ : Seed) (srvs₁ srvs₂ : List RpcServerInfo)
    (connects₁ connects₂ : Nat → Bool) (hsrvs₁ : seed₁.allServers = .ok srvs₁) (hsrvs₂ : seed₂.allServers = .ok srvs₂)
    (hsame : SameCluster srvs₁ srvs₂ connects₁ connects₂) (algo₁ algo₂ : Algorithm) (numTokens₁ numTokens₂ : Nat)
    (numRetries₁ numRetries₂ : UInt16) (printErrors₁ printErrors₂ : Bool) (c₁ c₂ : Client)
    (hnew₁ : Client.new seed₁ connects₁ algo₁ numTokens₁ numRetries₁ printErrors₁ = .ok c₁)
    (hnew₂ : Client.new seed₂ connects₂ algo₂ numTokens₂ numRetries₂ printErrors₂ = .ok c₂) :
    c₁.clients = c₂.clients ∧ c₁.readPolicy.serverIds = c₂.readPolicy.serverIds ∧
      (algo₁ = .hash → algo₂ = .hash → numTokens₁ = numTokens₂ → ∀ ops₁ ops₂ key,
        RouteAlike (c₁.readRun ops₁) (c₂.readRun ops₂) key key ∧
          (SameServer (c₁.readRun ops₁) (c₂.readRun ops₂) key key ↔
            ∃ token, getToken key = .ok token ∧ Covered c₁.clients.size numTokens₁ token)) ∧
      (algo₁ = .fixed → algo₂ = .fixed → ∀ ops₁ ops₂ key,
        ReadOp.lastMapping (fun _ => none) ops₁ key = ReadOp.lastMapping (fun _ => none) ops₂ key →
          RouteAlike (c₁.readRun ops₁) (c₂.readRun ops₂) key key ∧
            ∀ i, ReadOp.lastMapping (fun _ => none) ops₁ key = some i →
              (SameServer (c₁.readRun ops₁) (c₂.readRun ops₂) key key ↔ i < c₁.clients.size)) ∧
      (algo₁ = .roundRobin → algo₂ = .roundRobin → ∀ ops₁ ops₂ key₁ key₂,
        ops₁.countP ReadOp.byPolicy = ops₂.countP ReadOp.byPolicy →
          RouteAlike (c₁.readRun ops₁) (c₂.readRun ops₂) key₁ key₂ ∧
            (SameServer (c₁.readRun ops₁) (c₂.readRun ops₂) key₁ key₂ ↔ 0 < c₁.clients.size)) := by
  have hinv₁ : PolicyInv c₁ := .new hnew₁
  have hinv₂ : PolicyInv c₂ := .new hnew₂
  obtain ⟨s₁, hs₁, -, hm₁, hmake₁, -⟩ := Client.new_inv hnew₁
  obtain ⟨s₂, hs₂, -, hm₂, hmake₂, -⟩ := Client.new_inv hnew₂
  rw [hsrvs₁, Except.ok.injEq] at hs₁
  rw [hsrvs₂, Except.ok.injEq] at hs₂
  subst hs₁ hs₂
  have hclients : c₁.clients = c₂.clients := Client.connectAll_alike hsame hm₁ hm₂
  rw [hclients] at hmake₁
  have hsize : c₂.clients.keys.length = c₁.clients.size := by rw [ExtTreeMap.length_keys, hclients]
  -- from one policy at the start, it is enough to compare it after the two histories
  have halike {p : ReadPolicy} (hp₁ : c₁.readPolicy = p) (hp₂ : c₂.readPolicy = p) (ops₁ ops₂ : List ReadOp)
      (key₁ key₂ : Bytes) (hindex : ∀ d₁ d₂,
        (ops₁.foldl ReadPolicy.afterOp p).index key₁ d₁ = (ops₂.foldl ReadPolicy.afterOp p).index key₂ d₂) :
      RouteAlike (c₁.readRun ops₁) (c₂.readRun ops₂) key₁ key₂ ∧
        (SameServer (c₁.readRun ops₁) (c₂.readRun ops₂) key₁ key₂ ↔
          ∀ d, ∃ i < c₁.clients.size, (ops₁.foldl ReadPolicy.afterOp p).index key₁ d = .ok i) := by
    have hfields : (c₁.readRun ops₁).clients = (c₂.readRun ops₂).clients := by
      rw [(Client.readRun_fields c₁ ops₁).1, (Client.readRun_fields c₂ ops₂).1, hclients]
    have h : RouteAlike (c₁.readRun ops₁) (c₂.readRun ops₂) key₁ key₂ := by
      refine routeAlike_of_index (hinv₁.readRun ops₁) (hinv₂.readRun ops₂) hfields ?_
      rw [hinv₁.readPolicy_readRun, hinv₂.readPolicy_readRun, hp₁, hp₂]
      exact hindex
    refine ⟨h, ?_⟩
    rw [h.sameServer_iff (hinv₁.readRun ops₁) hfields, hinv₁.readPolicy_readRun, hp₁,
      (Client.readRun_fields c₁ ops₁).1]
  refine ⟨hclients, by rw [hinv₁.ids, hinv₂.ids, hclients], ?_, ?_, ?_⟩
  · rintro rfl rfl rfl ops₁ ops₂ key
    obtain ⟨ranges, hranges, hhash⟩ := ReadPolicy.make_hash hmake₂
    have hpolicy : c₁.readPolicy = c₂.readPolicy := Except.ok.inj (hmake₁.symm.trans hmake₂)
    obtain ⟨h, hiff⟩ := halike (hpolicy.trans hhash) hhash ops₁ ops₂ key key fun d₁ d₂ => by
      rw [ReadPolicy.foldl_afterOp_hash, ReadPolicy.foldl_afterOp_hash, ReadPolicy.index_hash, ReadPolicy.index_hash]
    refine ⟨h, hiff.trans ?_⟩
    rw [ReadPolicy.foldl_afterOp_hash, ← hsize]
    simp only [ReadPolicy.index_hash, ← exists_boundary_iff hranges]
    have hn : 0 < c₂.clients.keys.length := length_pos_of_rangeBoundaries hranges
    have hn64 : c₂.clients.keys.length < 2 ^ 64 := by
      have hmany := size_clients_le c₂.clients
      rw [ExtTreeMap.length_keys]
      omega
    simp only [← rangeNext_lt_iff_exists hn hn64]
    cases getToken key with
    | error e => simp
    | ok token => simp
  · rintro rfl rfl ops₁ ops₂ key hkey
    obtain ⟨h, hiff⟩ := halike (Except.ok.inj hmake₁).symm (Except.ok.inj hmake₂).symm ops₁ ops₂ key key fun d₁ d₂ => by
      rw [ReadPolicy.foldl_afterOp_fixed, ReadPolicy.foldl_afterOp_fixed, ReadPolicy.index_fixed,
        ReadPolicy.index_fixed, hkey]
    refine ⟨h, fun i hi => hiff.trans ?_⟩
    simp [ReadPolicy.foldl_afterOp_fixed, ReadPolicy.index_fixed, hi]
  · rintro rfl rfl ops₁ ops₂ key₁ key₂ hcount
    have hindex (d₁ d₂ : Draw) : (ops₁.foldl ReadPolicy.afterOp (.roundRobin c₂.clients.keys 0)).index key₁ d₁ =
        (ops₂.foldl ReadPolicy.afterOp (.roundRobin c₂.clients.keys 0)).index key₂ d₂ := by
      rw [ReadPolicy.index_foldl_roundRobin, ReadPolicy.index_foldl_roundRobin, hcount]
    obtain ⟨h, hiff⟩ := halike (Except.ok.inj hmake₁).symm (Except.ok.inj hmake₂).symm ops₁ ops₂ key₁ key₂ hindex
    refine ⟨h, hiff.trans ?_⟩
    simp only [ReadPolicy.index_foldl_roundRobin, ← hsize]
    by_cases hn : c₂.clients.keys.length = 0
    · refine iff_of_false (fun hindex => ?_) (by omega)
      obtain ⟨i, hi, -⟩ := hindex Draw.top
      omega
    · have hpos : 0 < c₂.clients.keys.length := Nat.pos_of_ne_zero hn
      exact iff_of_true (fun _ => ⟨_, Nat.mod_lt _ hpos, if_neg hn⟩) hpos

/-- The same two servers, listed the other way round. -/
def demoSeedReversed : Seed := { demoSeed with allServers := .ok [⟨2, [98, 58, 49]⟩, ⟨1, [97, 58, 49]⟩] }

theorem demoSeeds_same : SameCluster [⟨1, [97, 58, 49]⟩, ⟨2, [98, 58, 49]⟩] [⟨2, [98, 58, 49]⟩, ⟨1, [97, 58, 49]⟩]
    (fun _ => true) (fun _ => true) where
  same := fun srv => by simp [or_comm]
  distinct₁ := by decide
  distinct₂ := by decide
  connects := fun _ _ _ _ _ => rfl

/-- Built from the two lists, with one read by the policy behind each, among other calls: both clients go on with one
server, which is server 2. -/
theorem clients_route_alike_iff_reversed :
    let ops₁ : List ReadOp := [.get [107] none Draw.top fun _ _ => .ok ⟨none, 0⟩,
      .get [107] (some 2) Draw.top fun _ _ => .ok ⟨none, 0⟩]
    let ops₂ : List ReadOp := [.setFixedKeyMapping fun _ => some 1, .get [108] none Draw.top fun _ _ => .ok ⟨none, 0⟩]
    ∃ c₁ c₂, Client.new demoSeed (fun _ => true) .roundRobin 1 3 false = .ok c₁ ∧
      Client.new demoSeedReversed (fun _ => true) .roundRobin 1 3 false = .ok c₂ ∧
      SameServer (c₁.readRun ops₁) (c₂.readRun ops₂) [107] [108] ∧
      ∀ d rpc, ((c₁.readRun ops₁).get [107] none d rpc).sentTo = some 2 := by
  intro ops₁ ops₂
  refine ⟨demoStart, _, demoStart_new, rfl, ?_, fun d rpc => rfl⟩
  obtain ⟨-, -, -, -, hrr⟩ := clients_route_alike_iff demoSeed demoSeedReversed _ _ _ _ rfl rfl demoSeeds_same
    .roundRobin .roundRobin 1 1 3 3 false false demoStart _ demoStart_new rfl
  exact (hrr rfl rfl ops₁ ops₂ [107] [108] rfl).2.2 (by decide)

/-- With three tokens a server, the ranges end at 4294967292, and the key 52 0f 54 fd has the token 4294967295: both
clients of the cluster read `server_ids_` out of range, and neither sends its RPC to any server. -/
theorem uncovered_key_goes_nowhere :
    ∃ srvs₁ srvs₂, demoSeed.allServers = .ok srvs₁ ∧ demoSeedReversed.allServers = .ok srvs₂ ∧
      SameCluster srvs₁ srvs₂ (fun _ => true) (fun _ => true) ∧
      ∃ c₁ c₂, Client.new demoSeed (fun _ => true) .hash 3 3 false = .ok c₁ ∧
        Client.new demoSeedReversed (fun _ => true) .hash 3 3 false = .ok c₂ ∧
        (∀ d rpc, (c₁.get [82, 15, 84, 253] none d rpc).outcome =
          .error (.undefinedBehaviour "server_ids_ read out of range")) ∧
        (∀ d rpc, (c₂.get [82, 15, 84, 253] none d rpc).outcome =
          .error (.undefinedBehaviour "server_ids_ read out of range")) ∧
        ¬ SameServer c₁ c₂ [82, 15, 84, 253] [82, 15, 84, 253] := by
  refine ⟨_, _, rfl, rfl, demoSeeds_same, _, _, rfl, rfl, fun _ _ => rfl, fun _ _ => rfl, fun h => ?_⟩
  obtain ⟨srv, -, -, hsent, -⟩ := h Draw.top Draw.top (fun _ _ => .ok ⟨none, 0⟩) fun _ _ => .ok ⟨none, 0⟩
  cases hsent

end ReplicatedSplinter
