import ReplicatedSplinter.ClientRuns
import ReplicatedSplinter.TokenRanges
/-!
# Reads over a whole run of calls

| here | there |
| --- | --- |
| `ReadOp`, `readStep`, `readRun` | any sequence of `get` and `set_fixed_key_mapping` (`client.cpp:138-150`, `:251-256`) |
| `afterOp`   | the read policy a call leaves behind: only `rri_` and `mapping_` ever change |

A `get` uses an index into `server_ids_` and then a key of `clients_`, both unchecked. `server_ids_`
holds the keys of `clients_`, so an index below its size is always good; what is left to the caller
is that there is a server at all, that a fixed mapping stays below their number and that an explicit
server id is one of them (`ReadAllowed`).
-/

namespace ReplicatedSplinter
open ByteCodec Std

/-- A call of the read interface: `draw` is what the distribution draws if it is asked, `rpc` what the
servers answer. -/
inductive ReadOp
  | get (key : Bytes) (server : Option Int32) (draw : Draw) (rpc : Int32 → Bytes → Except Exn RpcReadResult)
  | setFixedKeyMapping (mapping : Bytes → Option Nat)

namespace Client

def readStep (c : Client) : ReadOp → Client
  | .get key server draw rpc => (c.get key server draw rpc).client
  | .setFixedKeyMapping mapping => c.setFixedKeyMapping mapping

def readRun (c : Client) (ops : List ReadOp) : Client := ops.foldl readStep c

/-! ## What reads change -/

theorem get_client (c : Client) (key : Bytes) (server : Option Int32) (draw : Draw)
    (rpc : Int32 → Bytes → Except Exn RpcReadResult) :
    (c.get key server draw rpc).client =
      match c.targetServer key server draw with
      | .ok (_, policy) => { c with readPolicy := policy }
      | .error _ => c := by
  unfold get
  cases c.targetServer key server draw with
  | error e => rfl
  | ok x =>
    by_cases hx : x.1 ∈ c.clients
    · simp [hx]
    · simp [hx]

theorem readStep_fields (c : Client) (op : ReadOp) :
    (c.readStep op).clients = c.clients ∧ (c.readStep op).algo = c.algo := by
  cases op with
  | get key server draw rpc =>
    rw [readStep, get_client]
    cases c.targetServer key server draw with
    | error e => exact ⟨rfl, rfl⟩
    | ok x => exact ⟨rfl, rfl⟩
  | setFixedKeyMapping mapping =>
    rw [readStep, setFixedKeyMapping]
    split
    · exact ⟨rfl, rfl⟩
    · exact ⟨rfl, rfl⟩

theorem readRun_fields (c : Client) (ops : List ReadOp) :
    (c.readRun ops).clients = c.clients ∧ (c.readRun ops).algo = c.algo := by
  induction ops generalizing c with
  | nil => exact ⟨rfl, rfl⟩
  | cons op ops ih =>
    obtain ⟨hclients, halgo⟩ := readStep_fields c op
    obtain ⟨ihclients, ihalgo⟩ := ih (c.readStep op)
    exact ⟨ihclients.trans hclients, ihalgo.trans halgo⟩

end Client

namespace ReadPolicy

/-- The policy after one read it chose the server of. -/
def advance : ReadPolicy → ReadPolicy
  | .roundRobin ids rri => if ids.length = 0 then .roundRobin ids rri else .roundRobin ids ((rri + 1) % ids.length)
  | p => p

theorem next_advance {p p' : ReadPolicy} {key : Bytes} {draw : Draw} {i : Nat} (h : p.next key draw = .ok (i, p')) :
    p' = p.advance := by
  cases p with
  | roundRobin ids rri =>
    by_cases hn : ids.length = 0
    · simp [next, hn] at h
    · simp only [next, hn, if_false, Except.ok.injEq, Prod.mk.injEq] at h
      simp only [advance, hn, if_false, h.2]
  | randomUniform ids upper =>
    simp only [next, Except.ok.injEq, Prod.mk.injEq] at h
    exact h.2.symm
  | hash ids ranges =>
    cases ht : getToken key with
    | error e => simp [next, ht] at h
    | ok token =>
      cases hr : rangeNext ids.length ranges token with
      | error e => simp [next, ht, hr] at h
      | ok i =>
        simp only [next, ht, hr, ok_bind, pure_eq_ok, Except.ok.injEq, Prod.mk.injEq] at h
        exact h.2.symm
  | randomToken ids ranges =>
    cases hr : rangeNext ids.length ranges (draw.value 4294967295) with
    | error e => simp [next, hr] at h
    | ok i =>
      simp only [next, hr, ok_bind, pure_eq_ok, Except.ok.injEq, Prod.mk.injEq] at h
      exact h.2.symm
  | fixed ids mapping =>
    cases hm : mapping key with
    | none => simp [next, hm] at h
    | some i =>
      simp only [next, hm, Except.ok.injEq, Prod.mk.injEq] at h
      exact h.2.symm

/-- The algorithm a policy was built for. -/
def algorithm : ReadPolicy → Algorithm
  | .roundRobin _ _ => .roundRobin
  | .randomUniform _ _ => .randomUniform
  | .hash _ _ => .hash
  | .randomToken _ _ => .randomToken
  | .fixed _ _ => .fixed

/-- The counter is an index as long as there is one, the distribution is the one the constructor made. -/
def Sound : ReadPolicy → Prop
  | .roundRobin ids rri => ids.length = 0 ∨ rri < ids.length
  | .randomUniform ids upper => upper = uniformUpper ids
  | _ => True

def afterOp (p : ReadPolicy) : ReadOp → ReadPolicy
  | .get _ none _ _ => p.advance
  | .get _ (some _) _ _ => p
  | .setFixedKeyMapping mapping => p.setMapping mapping

@[simp] theorem serverIds_advance (p : ReadPolicy) : p.advance.serverIds = p.serverIds := by
  cases p with
  | roundRobin ids rri =>
    by_cases hn : ids.length = 0
    · simp [advance, hn]
    · simp [advance, hn, serverIds]
  | _ => rfl

@[simp] theorem algorithm_advance (p : ReadPolicy) : p.advance.algorithm = p.algorithm := by
  cases p with
  | roundRobin ids rri =>
    by_cases hn : ids.length = 0
    · simp [advance, hn]
    · simp [advance, hn, algorithm]
  | _ => rfl

theorem Sound.advance {p : ReadPolicy} (h : p.Sound) : p.advance.Sound := by
  cases p with
  | roundRobin ids rri =>
    by_cases hn : ids.length = 0
    · simp [ReadPolicy.advance, hn, Sound]
    · simp only [ReadPolicy.advance, hn, if_false, Sound]
      exact .inr (Nat.mod_lt _ (Nat.pos_of_ne_zero hn))
  | _ => exact h

theorem afterOp_keeps (p : ReadPolicy) (op : ReadOp) :
    (p.afterOp op).serverIds = p.serverIds ∧ (p.afterOp op).algorithm = p.algorithm ∧
      (p.Sound → (p.afterOp op).Sound) := by
  rcases op with ⟨key, _ | srv, draw, rpc⟩ | mapping
  · exact ⟨serverIds_advance p, algorithm_advance p, Sound.advance⟩
  · exact ⟨rfl, rfl, id⟩
  · cases p <;> exact ⟨rfl, rfl, id⟩

/-- A sound policy that fails to choose a server is the same afterwards. -/
theorem Sound.advance_of_error {p : ReadPolicy} (h : p.Sound) {key : Bytes} {draw : Draw} {e : Exn}
    (he : p.nextServer key draw = .error e) : p.advance = p := by
  cases p with
  | roundRobin ids rri =>
    rcases h with hn | hlt
    · simp [ReadPolicy.advance, hn]
    · have hn : ids.length ≠ 0 := by omega
      have hsrv : ids[rri]? = some ids[rri] := List.getElem?_eq_getElem hlt
      simp [nextServer, next, hn, serverIds, hsrv] at he
  | _ => rfl

theorem nextServer_advance {p p' : ReadPolicy} {key : Bytes} {draw : Draw} {srv : Int32}
    (h : p.nextServer key draw = .ok (srv, p')) : p' = p.advance := by
  cases hnext : p.next key draw with
  | error e => simp [nextServer, hnext] at h
  | ok x =>
    obtain ⟨i, q⟩ := x
    cases hsrv : p.serverIds[i]? with
    | none => simp [nextServer, hnext, hsrv] at h
    | some s =>
      simp only [nextServer, hnext, ok_bind, hsrv, pure_eq_ok, Except.ok.injEq, Prod.mk.injEq] at h
      rw [← h.2]
      exact next_advance hnext

end ReadPolicy

/-! ## The invariant of a constructed client -/

/-- `server_ids_` lists the keys of `clients_`, the policy is of the kind `algo_` says, and it is sound. -/
structure PolicyInv (c : Client) : Prop where
  ids : c.readPolicy.serverIds = c.clients.keys
  kind : c.readPolicy.algorithm = c.algo
  sound : c.readPolicy.Sound

theorem ReadPolicy.make_hash {ids : List Int32} {numTokens : Nat} {p : ReadPolicy}
    (h : make .hash ids numTokens = .ok p) :
    ∃ ranges, rangeBoundaries ids numTokens = .ok ranges ∧ p = .hash ids ranges := by
  cases hr : rangeBoundaries ids numTokens with
  | error e => simp [make, hr] at h
  | ok ranges =>
    simp only [make, hr, ok_bind, pure_eq_ok, Except.ok.injEq] at h
    exact ⟨ranges, rfl, h.symm⟩

theorem ReadPolicy.make_randomToken {ids : List Int32} {numTokens : Nat} {p : ReadPolicy}
    (h : make .randomToken ids numTokens = .ok p) : ∃ ranges, p = .randomToken ids ranges := by
  cases hr : rangeBoundaries ids numTokens with
  | error e => simp [make, hr] at h
  | ok ranges =>
    simp only [make, hr, ok_bind, pure_eq_ok, Except.ok.injEq] at h
    exact ⟨ranges, h.symm⟩

theorem ReadPolicy.make_inv {algo : Algorithm} {ids : List Int32} {numTokens : Nat} {p : ReadPolicy}
    (h : ReadPolicy.make algo ids numTokens = .ok p) : p.serverIds = ids ∧ p.algorithm = algo ∧ p.Sound := by
  cases algo with
  | roundRobin =>
    cases h
    refine ⟨rfl, rfl, ?_⟩
    rcases ids with _ | ⟨a, ids⟩
    · exact .inl rfl
    · exact .inr (Nat.succ_pos _)
  | randomUniform =>
    cases h
    exact ⟨rfl, rfl, rfl⟩
  | fixed =>
    cases h
    exact ⟨rfl, rfl, trivial⟩
  | hash =>
    obtain ⟨ranges, -, rfl⟩ := make_hash h
    exact ⟨rfl, rfl, trivial⟩
  | randomToken =>
    obtain ⟨ranges, rfl⟩ := make_randomToken h
    exact ⟨rfl, rfl, trivial⟩

namespace PolicyInv

theorem new {seed : Seed} {connects : Nat → Bool} {algo : Algorithm} {numTokens : Nat} {numRetries : UInt16}
    {printErrors : Bool} {c : Client} (h : Client.new seed connects algo numTokens numRetries printErrors = .ok c) :
    PolicyInv c := by
  obtain ⟨srvs, -, -, -, hmake, halgo⟩ := Client.new_inv h
  obtain ⟨hids, hkind, hsound⟩ := ReadPolicy.make_inv hmake
  exact ⟨hids, hkind.trans halgo.symm, hsound⟩

/-- One call changes the policy as `afterOp` says. -/
theorem readPolicy_readStep {c : Client} (h : PolicyInv c) (op : ReadOp) :
    (c.readStep op).readPolicy = c.readPolicy.afterOp op := by
  rcases op with ⟨key, _ | srv, draw, rpc⟩ | mapping
  · rw [Client.readStep, Client.get_client, ReadPolicy.afterOp, Client.targetServer]
    cases hs : c.readPolicy.nextServer key draw with
    | error e => exact (h.sound.advance_of_error hs).symm
    | ok x => exact ReadPolicy.nextServer_advance hs
  · rw [Client.readStep, Client.get_client]
    rfl
  · rw [Client.readStep, Client.setFixedKeyMapping, ReadPolicy.afterOp]
    split
    case isTrue => rfl
    case isFalse hne =>
      -- a policy of another kind has no mapping
      rw [← h.kind] at hne
      cases hp : c.readPolicy with
      | fixed ids m => simp [hp, ReadPolicy.algorithm] at hne
      | _ => rfl

theorem readStep {c : Client} (h : PolicyInv c) (op : ReadOp) : PolicyInv (c.readStep op) := by
  obtain ⟨hclients, halgo⟩ := Client.readStep_fields c op
  obtain ⟨hids, hkind, hsound⟩ := c.readPolicy.afterOp_keeps op
  have hpolicy := h.readPolicy_readStep op
  refine ⟨?_, ?_, ?_⟩
  · rw [hpolicy, hids, hclients, h.ids]
  · rw [hpolicy, hkind, halgo, h.kind]
  · rw [hpolicy]
    exact hsound h.sound

theorem readRun {c : Client} (h : PolicyInv c) (ops : List ReadOp) : PolicyInv (c.readRun ops) := by
  induction ops generalizing c with
  | nil => exact h
  | cons op ops ih => exact ih (h.readStep op)

theorem readPolicy_readRun {c : Client} (h : PolicyInv c) (ops : List ReadOp) :
    (c.readRun ops).readPolicy = ops.foldl ReadPolicy.afterOp c.readPolicy := by
  induction ops generalizing c with
  | nil => rfl
  | cons op ops ih =>
    rw [List.foldl_cons, ← h.readPolicy_readStep op]
    exact ih (h.readStep op)

end PolicyInv

/-! ## Where a read goes -/

/-- The RPC went to a server of `clients`, or the call threw a C++ exception before it. -/
def ReadRun.Safe (r : ReadRun) (clients : ExtTreeMap Int32 Endpoint) : Prop :=
  (∃ srv, r.sentTo = some srv ∧ srv ∈ clients) ∨ ∃ e, r.sentTo = none ∧ r.outcome = .error e ∧ e.isThrow = true

def ReadSafe (c : Client) : ReadOp → Prop
  | .get key server draw rpc => (c.get key server draw rpc).Safe c.clients
  | .setFixedKeyMapping _ => True

/-- An explicit server is one of `clients_`; a key the fixed policy maps, it maps below their number;
the other policies have a server to choose. -/
def ReadAllowed (c : Client) : ReadOp → Prop
  | .get _ (some srv) _ _ => srv ∈ c.clients
  | .get key none _ _ => match c.readPolicy with
    | .fixed _ mapping => ∀ i, mapping key = some i → i < c.clients.size
    | _ => 0 < c.clients.size
  | .setFixedKeyMapping _ => True

theorem Client.safe_get_iff (c : Client) (key : Bytes) (server : Option Int32) (draw : Draw)
    (rpc : Int32 → Bytes → Except Exn RpcReadResult) :
    (c.get key server draw rpc).Safe c.clients ↔
      (∃ srv policy, c.targetServer key server draw = .ok (srv, policy) ∧ srv ∈ c.clients) ∨
        ∃ e, c.targetServer key server draw = .error e ∧ e.isThrow = true := by
  unfold Client.get ReadRun.Safe
  cases c.targetServer key server draw with
  | error e => simp
  | ok x =>
    obtain ⟨srv, policy⟩ := x
    by_cases hx : srv ∈ c.clients
    · simp [hx]
    · simp [hx, Exn.isThrow]

/-- A read by the policy is safe when `next` gives an index of `server_ids_` or throws. -/
theorem PolicyInv.safe_iff {c : Client} (h : PolicyInv c) (key : Bytes) (draw : Draw)
    (rpc : Int32 → Bytes → Except Exn RpcReadResult) :
    (c.get key none draw rpc).Safe c.clients ↔
      (∃ i p', c.readPolicy.next key draw = .ok (i, p') ∧ i < c.clients.size) ∨
        ∃ e, c.readPolicy.next key draw = .error e ∧ e.isThrow = true := by
  have hlen : c.readPolicy.serverIds.length = c.clients.size := by rw [h.ids, ExtTreeMap.length_keys]
  rw [Client.safe_get_iff]
  simp only [Client.targetServer, ReadPolicy.nextServer]
  cases c.readPolicy.next key draw with
  | error e => simp
  | ok x =>
    obtain ⟨i, p'⟩ := x
    by_cases hi : i < c.clients.size
    · have hget : c.readPolicy.serverIds[i]? = some (c.readPolicy.serverIds[i]) :=
        List.getElem?_eq_getElem (by omega)
      have hmem : c.readPolicy.serverIds[i] ∈ c.clients := by
        rw [← ExtTreeMap.mem_keys, ← h.ids]
        exact List.getElem_mem _
      simp [hget, hi, hmem]
    · have hget : c.readPolicy.serverIds[i]? = none := List.getElem?_eq_none (by omega)
      simp [hget, hi, Exn.isThrow]

/-- There are at most 2^32 server ids. -/
theorem size_clients_le (m : ExtTreeMap Int32 Endpoint) : m.size ≤ 2 ^ 32 := by
  have hinj : Function.Injective fun id : Int32 => id.toUInt32.toNat := by
    intro a b hab
    exact Int32.toBitVec_inj.1 (congrArg UInt32.toBitVec (UInt32.toNat_inj.1 hab))
  have hnodup : (m.keys.map fun id => id.toUInt32.toNat).Nodup := ExtTreeMap.nodup_keys.map hinj
  have hsub : m.keys.map (fun id => id.toUInt32.toNat) ⊆ List.range (2 ^ 32) := by
    intro k hk
    obtain ⟨id, -, rfl⟩ := List.mem_map.1 hk
    exact List.mem_range.2 id.toUInt32.toNat_lt
  simpa using (hnodup.subperm hsub).length_le

/-- A draw is an index as long as there is one. -/
theorem Draw.lt_length_iff (draw : Draw) {ids : List Int32} (h : ids.length ≤ 2 ^ 32) :
    (draw.value (uniformUpper ids)).toNat < ids.length ↔ 0 < ids.length := by
  constructor
  · intro hlt
    omega
  · intro hpos
    have hupper : (uniformUpper ids).toNat = ids.length - 1 := by
      have hwrap : (ids.length + 2 ^ 64 - 1) % 2 ^ 64 = ids.length - 1 := by omega
      rw [uniformUpper, hwrap, UInt32.toNat_ofNat', Nat.mod_eq_of_lt (by omega)]
    have hle : (draw.value (uniformUpper ids)).toNat ≤ (uniformUpper ids).toNat :=
      UInt32.le_iff_toNat_le.1 (draw.le_upper _)
    omega

/-- The policies whose index does not come from a token. -/
def Algorithm.tokenless : Algorithm → Bool
  | .roundRobin | .randomUniform | .fixed => true
  | .hash | .randomToken => false

theorem PolicyInv.readSafe_iff {c : Client} (h : PolicyInv c) (halgo : c.algo.tokenless = true) (op : ReadOp) :
    ReadSafe c op ↔ ReadAllowed c op := by
  have hlen : c.readPolicy.serverIds.length = c.clients.size := by rw [h.ids, ExtTreeMap.length_keys]
  have hsound := h.sound
  rw [← h.kind] at halgo
  rcases op with ⟨key, _ | srv, draw, rpc⟩ | mapping
  · rw [ReadSafe, ReadAllowed, h.safe_iff]
    cases hp : c.readPolicy with
    | roundRobin ids rri =>
      simp only [hp, ReadPolicy.serverIds, ReadPolicy.Sound] at hlen hsound
      by_cases hn : ids.length = 0
      · simp [ReadPolicy.next, hn, ← hlen, Exn.isThrow]
      · have hlt : rri < ids.length := by omega
        simp [ReadPolicy.next, hn, ← hlen, hlt]
        omega
    | randomUniform ids upper =>
      simp only [hp, ReadPolicy.serverIds, ReadPolicy.Sound] at hlen hsound
      have hmany : ids.length ≤ 2 ^ 32 := by
        rw [hlen]
        exact size_clients_le _
      have hdraw := draw.lt_length_iff hmany
      simp [ReadPolicy.next, hsound, ← hlen, hdraw]
    | fixed ids mapping =>
      cases hm : mapping key with
      | none => simp [ReadPolicy.next, hm, Exn.isThrow]
      | some i => simp [ReadPolicy.next, hm]
    | hash ids ranges => simp [hp, ReadPolicy.algorithm, Algorithm.tokenless] at halgo
    | randomToken ids ranges => simp [hp, ReadPolicy.algorithm, Algorithm.tokenless] at halgo
  · rw [ReadSafe, ReadAllowed, Client.safe_get_iff]
    simp [Client.targetServer]
  · exact Iff.rfl

/-- `P` holds of every call of the run, in the state the call is made in. -/
def EveryCall (P : Client → ReadOp → Prop) (c : Client) (ops : List ReadOp) : Prop :=
  ∀ pre op post, ops = pre ++ op :: post → P (c.readRun pre) op

theorem everyCall_nil {P : Client → ReadOp → Prop} {c : Client} : EveryCall P c [] := by
  intro pre op post hops
  simp at hops

theorem everyCall_cons {P : Client → ReadOp → Prop} {c : Client} {op : ReadOp} {ops : List ReadOp}
    (hop : P c op) (hops : EveryCall P (c.readStep op) ops) : EveryCall P c (op :: ops) := by
  intro pre op' post heq
  rcases pre with _ | ⟨a, pre⟩
  · rw [List.nil_append, List.cons.injEq] at heq
    rw [← heq.1]
    exact hop
  · rw [List.cons_append, List.cons.injEq] at heq
    obtain ⟨rfl, heq⟩ := heq
    exact hops pre op' post heq

/-- **Reads stay among the connected servers.** For a client its constructor made, with the round robin, random
uniform or fixed policy, and for every run of reads and mappings: every read is safe exactly when every
call is allowed. -/
theorem reads_safe_iff (seed : Seed) (connects : Nat → Bool) (algo : Algorithm) (numTokens : Nat)
    (numRetries : UInt16) (printErrors : Bool) (c : Client)
    (hnew : Client.new seed connects algo numTokens numRetries printErrors = .ok c)
    (halgo : algo = .roundRobin ∨ algo = .randomUniform ∨ algo = .fixed) (ops : List ReadOp) :
    EveryCall ReadSafe c ops ↔ EveryCall ReadAllowed c ops := by
  have hinv : PolicyInv c := .new hnew
  obtain ⟨-, -, -, -, -, hkind⟩ := Client.new_inv hnew
  have hstep (pre : List ReadOp) (op : ReadOp) :
      ReadSafe (c.readRun pre) op ↔ ReadAllowed (c.readRun pre) op := by
    refine (hinv.readRun pre).readSafe_iff ?_ op
    rw [(Client.readRun_fields c pre).2, hkind]
    rcases halgo with rfl | rfl | rfl <;> rfl
  constructor
  · intro h pre op post hops
    exact (hstep pre op).1 (h pre op post hops)
  · intro h pre op post hops
    exact (hstep pre op).2 (h pre op post hops)

/-- Two reads by round robin and one from server 2, on a client connected to servers 1 and 2. -/
theorem reads_safe_iff_demo :
    EveryCall ReadSafe demoStart
      [.get [107] none Draw.top fun _ _ => .ok ⟨none, 0⟩, .get [107] none Draw.top fun _ _ => .ok ⟨none, 0⟩,
        .get [107] (some 2) Draw.top fun _ _ => .ok ⟨none, 0⟩] := by
  rw [reads_safe_iff demoSeed (fun _ => true) .roundRobin 1 3 false demoStart demoStart_new (.inl rfl)]
  have hsize : 0 < demoStart.clients.size := by decide
  have htwo : (2 : Int32) ∈ demoStart.clients := by decide
  exact everyCall_cons hsize (everyCall_cons hsize (everyCall_cons htwo everyCall_nil))

theorem ReadRun.not_safe_of_undefined {r : ReadRun} {clients : ExtTreeMap Int32 Endpoint} {what : String}
    (hsent : r.sentTo = none) (hout : r.outcome = .error (.undefinedBehaviour what)) : ¬ r.Safe clients := by
  rintro (⟨srv, hsrv, -⟩ | ⟨e, -, he, hthrow⟩)
  · rw [hsent] at hsrv
    cases hsrv
  · rw [hout] at he
    cases he
    cases hthrow

/-- A read from a server the client has never heard of, a read by the policy of a client that reached no
server, and a read of a key mapped to index 5 of two. -/
theorem read_of_absent_server :
    (∃ c, Client.new demoSeed (fun _ => true) .roundRobin 1 3 false = .ok c ∧
        ¬ ReadSafe c (.get [107] (some 7) Draw.top fun _ _ => .ok ⟨none, 0⟩)) ∧
      (∃ c, Client.new demoSeed (fun _ => false) .roundRobin 1 3 false = .ok c ∧
        ¬ ReadSafe c (.get [107] none Draw.top fun _ _ => .ok ⟨none, 0⟩)) ∧
      ∃ c, Client.new demoSeed (fun _ => true) .fixed 1 3 false = .ok c ∧
        ¬ ReadSafe (c.setFixedKeyMapping fun _ => some 5) (.get [107] none Draw.top fun _ _ => .ok ⟨none, 0⟩) := by
  refine ⟨⟨_, rfl, ?_⟩, ⟨_, rfl, ?_⟩, _, rfl, ?_⟩
  · exact ReadRun.not_safe_of_undefined rfl rfl
  · exact ReadRun.not_safe_of_undefined rfl rfl
  · exact ReadRun.not_safe_of_undefined rfl rfl

end ReplicatedSplinter
