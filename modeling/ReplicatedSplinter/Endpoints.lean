import Mathlib.Data.List.TakeWhile
import ReplicatedSplinter.Routing
/-!
# Advertised endpoints

A replica advertises the address its clients should use as one text, `addr:port`. The text travels
through the Raft configuration as the `aux` field of a `srv_config` and is taken apart again by the
client's constructor.

| here | there |
| --- | --- |
| `ReplicaConfig`    | `replica_config` (`replica_config.h:43-46`): id, ports, address |
| `bindAddr`         | what `-bind` makes of `addr_` (`spl_server.cpp:110-115`, `:140`) |
| `toDecimal`        | `std::to_string` of a port |
| `raftEndpoint`, `clientEndpoint` | the members of `replica` (`replica.cpp:48-49`); `try_join_cluster` builds the same (`spl_server.cpp:87-89`) |
| `SrvConfig`        | `nuraft::srv_config`, without data centre and learner flag |
| `start`            | the replica's constructor (`replica.cpp:43-88`) and the configuration `inmem_state_mgr` starts with (`in_memory_state_mgr.hxx:47-51`) |
| `addServer`        | `replica::add_server` (`replica.cpp:171-176`), asked for by a joining replica (`server.cpp:72-78`), once Raft has accepted it |
| `RaftConfig`       | the configurations of a cluster that one replica starts and others join |
| `getAllServers`    | the handler of `RPC_GET_ALL_SERVERS` (`server.cpp:105-116`) |
| `parseEndpoint`    | the client's side (`client.cpp:46-55`), in `Client` |

The client splits at the first colon. So the text comes back as address and port exactly when the
address has no colon in it, and an IPv6 address has.
-/

namespace ReplicatedSplinter
open ByteCodec Std

structure ReplicaConfig where
  serverId : Int32
  raftPort : UInt16
  clientPort : UInt16
  addr : Bytes
deriving DecidableEq, Repr

structure SrvConfig where
  id : Int32
  endpoint : Bytes
  aux : Bytes
deriving DecidableEq, Repr

/-- The flag must not be empty, "all" is "0.0.0.0", and `c_str()` ends at the first NUL. -/
def bindAddr (flag : Bytes) : Except Exn Bytes :=
  if flag = [] then .error (.processExit 1)
  else if flag = [97, 108, 108] then .ok [48, 46, 48, 46, 48, 46, 48]
  else .ok (flag.takeWhile (· != 0))

/-- The ASCII code of a digit. -/
def charByte (c : Char) : UInt8 := UInt8.ofNat c.toNat

def toDecimal (n : Nat) : Bytes := (Nat.toDigits 10 n).map charByte

namespace ReplicaConfig

def raftEndpoint (cfg : ReplicaConfig) : Bytes := cfg.addr ++ [58] ++ toDecimal cfg.raftPort.toNat

def clientEndpoint (cfg : ReplicaConfig) : Bytes := cfg.addr ++ [58] ++ toDecimal cfg.clientPort.toNat

def srvConfig (cfg : ReplicaConfig) : SrvConfig := ⟨cfg.serverId, cfg.raftEndpoint, cfg.clientEndpoint⟩

def start (cfg : ReplicaConfig) : Except Exn (List SrvConfig) :=
  if cfg.serverId = 0 then .error (.invalidArgument "server_id must be set") else .ok [cfg.srvConfig]

end ReplicaConfig

def addServer (configs : List SrvConfig) (serverId : Int32) (raftEndpoint clientEndpoint : Bytes) : List SrvConfig :=
  configs ++ [⟨serverId, raftEndpoint, clientEndpoint⟩]

def getAllServers (configs : List SrvConfig) : List RpcServerInfo := configs.map fun srv => ⟨srv.id, srv.aux⟩

/-- The configuration of a cluster with these members. -/
inductive RaftConfig : List ReplicaConfig → List SrvConfig → Prop
  | start (cfg : ReplicaConfig) {configs : List SrvConfig} (h : cfg.start = .ok configs) : RaftConfig [cfg] configs
  | join {members : List ReplicaConfig} {configs own : List SrvConfig} (cfg : ReplicaConfig)
      (h : RaftConfig members configs) (hown : cfg.start = .ok own) :
      RaftConfig (members ++ [cfg]) (addServer configs cfg.serverId cfg.raftEndpoint cfg.clientEndpoint)

/-- Started or joined, a member is in the configuration with the endpoints it built. -/
theorem RaftConfig.eq_map {members : List ReplicaConfig} {configs : List SrvConfig} (h : RaftConfig members configs) :
    configs = members.map ReplicaConfig.srvConfig := by
  induction h with
  | start cfg h =>
    unfold ReplicaConfig.start at h
    split at h
    · cases h
    · cases h
      rfl
  | join cfg _ _ ih => rw [addServer, ih, List.map_append, List.map_singleton, ReplicaConfig.srvConfig]

theorem RaftConfig.served {members : List ReplicaConfig} {configs : List SrvConfig} (h : RaftConfig members configs) :
    getAllServers configs = members.map fun cfg => ⟨cfg.serverId, cfg.clientEndpoint⟩ := by
  rw [h.eq_map, getAllServers, List.map_map]
  rfl

/-- `-bind` adds no colon. -/
theorem colon_not_mem_bindAddr {flag addr : Bytes} (h : bindAddr flag = .ok addr) (hcolon : 58 ∉ flag) : 58 ∉ addr := by
  unfold bindAddr at h
  split at h
  · cases h
  · split at h
    · cases h
      decide
    · cases h
      exact fun hmem => hcolon (List.takeWhile_subset _ hmem)

/-! ## The port -/

section Port
variable {c : Char} {n : Nat}

theorem toNat_charByte (h : c.isDigit = true) : (charByte c).toNat = c.toNat := by
  have hc := Char.isDigit_iff_toNat.1 h
  have h9 : '9'.toNat = 57 := rfl
  rw [charByte, UInt8.toNat_ofNat_of_lt' (by simp only [UInt8.size]; omega)]

theorem isDigit_charByte (h : c.isDigit = true) : isDigit (charByte c) = true := by
  have hc := Char.isDigit_iff_toNat.1 h
  have h0 : '0'.toNat = 48 := rfl
  have h9 : '9'.toNat = 57 := rfl
  have hbyte := toNat_charByte h
  rw [isDigit, Bool.and_eq_true, decide_eq_true_eq, decide_eq_true_eq, UInt8.le_iff_toNat_le, UInt8.le_iff_toNat_le,
    hbyte]
  exact ⟨by simpa using hc.1, by simpa using hc.2⟩

/-- Every byte of a decimal is a digit. -/
theorem isDigit_of_mem_toDecimal {b : UInt8} (h : b ∈ toDecimal n) : isDigit b = true := by
  obtain ⟨c, hc, rfl⟩ := List.mem_map.1 h
  exact isDigit_charByte (Nat.isDigit_of_mem_toDigits (by decide) (by decide) hc)

theorem toDecimal_ne_nil (n : Nat) : toDecimal n ≠ [] := by
  simp [toDecimal, Nat.toDigits_ne_nil]

/-- The loop of `stoi` computes the number that the digits stand for. -/
theorem foldl_charByte {cs : List Char} (h : ∀ c ∈ cs, c.isDigit = true) (n : Nat) :
    (cs.map charByte).foldl (fun (acc : Int) (d : UInt8) => 10 * acc + (d.toNat - 48 : Nat)) (n : Int) =
      Nat.ofDigitChars 10 cs n := by
  induction cs generalizing n with
  | nil => rfl
  | cons c cs ih =>
    rw [List.map_cons, List.foldl_cons, Nat.ofDigitChars_cons, ← ih fun c' hc' => h c' (List.mem_cons_of_mem _ hc'),
      toNat_charByte (h c List.mem_cons_self)]
    rfl

/-- A digit is neither white space nor a sign. -/
theorem not_special_of_isDigit {b : UInt8} (h : isDigit b = true) : isSpace b = false ∧ b ≠ 45 ∧ b ≠ 43 := by
  have hlo : 48 ≤ b.toNat := by
    rw [isDigit, Bool.and_eq_true, decide_eq_true_eq, UInt8.le_iff_toNat_le] at h
    exact h.1
  refine ⟨Bool.eq_false_iff.2 fun hs => ?_, ?_, ?_⟩
  · simp only [isSpace, Bool.or_eq_true, beq_iff_eq, Bool.and_eq_true, decide_eq_true_eq, UInt8.le_iff_toNat_le] at hs
    rcases hs with rfl | ⟨-, hhi⟩
    · exact absurd hlo (by decide)
    · exact absurd (Nat.le_trans hlo hhi) (by decide)
  · rintro rfl
    exact absurd hlo (by decide)
  · rintro rfl
    exact absurd hlo (by decide)

/-- `stoi` undoes `to_string` on what an `int` holds. -/
theorem stoi_toDecimal (h : n ≤ 2147483647) : stoi (toDecimal n) = .ok (n : Int) := by
  have hdigits : ∀ c ∈ Nat.toDigits 10 n, c.isDigit = true :=
    fun c hc => Nat.isDigit_of_mem_toDigits (by decide) (by decide) hc
  have hall : (toDecimal n).takeWhile isDigit = toDecimal n :=
    List.takeWhile_eq_self_iff.2 fun b hb => isDigit_of_mem_toDecimal hb
  have hvalue := foldl_charByte hdigits 0
  rw [Nat.ofDigitChars_ten_toDigits] at hvalue
  have hne := toDecimal_ne_nil n
  obtain ⟨b, bs, hcons⟩ := List.exists_cons_of_ne_nil hne
  obtain ⟨hspace, hminus, hplus⟩ := not_special_of_isDigit (isDigit_of_mem_toDecimal (hcons ▸ List.mem_cons_self))
  have hdrop : (toDecimal n).dropWhile isSpace = toDecimal n := by
    rw [hcons, List.dropWhile_cons_of_neg (by rw [hspace]; decide)]
  unfold stoi
  simp only [hdrop]
  split
  · -- no minus sign
    rename_i t ht
    rw [hcons] at ht
    exact absurd (List.cons.inj ht).1 hminus
  · -- no plus sign
    rename_i t ht
    rw [hcons] at ht
    exact absurd (List.cons.inj ht).1 hplus
  · have hfold : (toDecimal n).foldl (fun (acc : Int) (d : UInt8) => 10 * acc + (d.toNat - 48 : Nat)) 0 = n := hvalue
    simp only [hall, if_neg hne, hfold, Bool.false_eq_true, if_false]
    rw [if_neg (by omega)]

end Port

/-! ## Splitting -/

section Split
variable {addr : Bytes}

/-- An address without a colon ends at the first colon. -/
theorem splitEndpoint_append (h : 58 ∉ addr) (rest : Bytes) : splitEndpoint (addr ++ [58] ++ rest) = (addr, rest) := by
  have hne : ∀ b ∈ addr, (b != 58) = true := by
    intro b hb
    have : b ≠ 58 := fun h58 => h (h58 ▸ hb)
    simpa using this
  rw [List.append_assoc, splitEndpoint, if_pos (by simp), List.takeWhile_append_of_pos hne,
    List.dropWhile_append_of_pos hne]
  simp

/-- The host never has a colon in it, if the text has one. -/
theorem not_mem_host {s : Bytes} (h : 58 ∈ s) : 58 ∉ (splitEndpoint s).1 := by
  rw [splitEndpoint, if_pos h]
  intro hmem
  exact absurd (List.mem_takeWhile_imp hmem) (by decide)

theorem host_of_parse {s : Bytes} {e : Endpoint} (h : parseEndpoint s = .ok e) : e.host = (splitEndpoint s).1 := by
  unfold parseEndpoint at h
  cases hstoi : stoi (splitEndpoint s).2 with
  | error x => simp [hstoi] at h
  | ok port =>
    simp only [hstoi, ok_bind] at h
    split at h
    · cases h
    · cases h
      rfl

end Split

/-- The client's side of an endpoint: right exactly for an address without a colon. -/
theorem parse_clientEndpoint_iff {cfg : ReplicaConfig} (hport : cfg.clientPort ≠ 0) :
    parseEndpoint cfg.clientEndpoint = .ok ⟨cfg.addr, cfg.clientPort⟩ ↔ 58 ∉ cfg.addr := by
  constructor
  · intro h
    have hhost : cfg.addr = (splitEndpoint cfg.clientEndpoint).1 := host_of_parse h
    rw [hhost]
    exact not_mem_host (by simp [ReplicaConfig.clientEndpoint])
  · intro h
    have hlt := cfg.clientPort.toNat_lt
    have hpos : 0 < cfg.clientPort.toNat := Nat.pos_of_ne_zero fun h0 => hport (UInt16.toNat_inj.1 h0)
    have hrange : ¬ (1 > (cfg.clientPort.toNat : Int) ∨ (cfg.clientPort.toNat : Int) > 65535) := by omega
    unfold parseEndpoint ReplicaConfig.clientEndpoint
    simp only [splitEndpoint_append h, stoi_toDecimal (show cfg.clientPort.toNat ≤ 2147483647 by omega), ok_bind,
      if_neg hrange]
    simp

/-! ## From the replica to the client -/

/-- The loop returns if every endpoint can be split. -/
theorem connectAll_ok {srvs : List RpcServerInfo} (h : ∀ srv ∈ srvs, ∃ e, parseEndpoint srv.endpoint = .ok e)
    (connects : Nat → Bool) (i : Nat) (m : ExtTreeMap Int32 Endpoint) :
    ∃ clients, Client.connectAll connects i srvs m = .ok clients := by
  induction srvs generalizing i m with
  | nil => exact ⟨m, rfl⟩
  | cons srv rest ih =>
    obtain ⟨e, he⟩ := h srv List.mem_cons_self
    have hrest := ih fun s hs => h s (List.mem_cons_of_mem _ hs)
    rw [Client.connectAll, he, ok_bind]
    split
    · exact hrest _ _
    · exact hrest _ _

/-- **Addresses without colons are reached.** The constructor's loop over what members advertise returns, and
every handle it keeps is for the address and port of a member with its id. -/
theorem clients_of_advertised {members : List ReplicaConfig} (hport : ∀ cfg ∈ members, cfg.clientPort ≠ 0)
    (hcolon : ∀ cfg ∈ members, 58 ∉ cfg.addr) (connects : Nat → Bool) :
    ∃ clients, Client.connectAll connects 0 (getAllServers (members.map ReplicaConfig.srvConfig)) ∅ = .ok clients ∧
      ∀ (id : Int32) (e : Endpoint), clients[id]? = some e →
        ∃ cfg ∈ members, cfg.serverId = id ∧ e = ⟨cfg.addr, cfg.clientPort⟩ := by
  have hparse : ∀ srv ∈ getAllServers (members.map ReplicaConfig.srvConfig), ∃ cfg ∈ members, cfg.serverId = srv.id ∧
      parseEndpoint srv.endpoint = .ok ⟨cfg.addr, cfg.clientPort⟩ := by
    intro srv hsrv
    rw [getAllServers, List.map_map] at hsrv
    obtain ⟨cfg, hcfg, rfl⟩ := List.mem_map.1 hsrv
    exact ⟨cfg, hcfg, rfl, (parse_clientEndpoint_iff (hport cfg hcfg)).2 (hcolon cfg hcfg)⟩
  obtain ⟨clients, hclients⟩ := connectAll_ok (fun srv hsrv => by
    obtain ⟨cfg, -, -, hok⟩ := hparse srv hsrv
    exact ⟨_, hok⟩) connects 0 ∅
  refine ⟨clients, hclients, fun id e he => ?_⟩
  rcases Client.getElem?_connectAll hclients he with hempty | ⟨srv, hsrv, hid, hok⟩
  · simp at hempty
  · obtain ⟨cfg, hcfg, hcid, hcok⟩ := hparse srv hsrv
    rw [hok, Except.ok.injEq] at hcok
    exact ⟨cfg, hcfg, hcid.trans hid, hcok⟩

/-- **An advertised endpoint parses back, exactly for an address without a colon.** Whatever cluster a
replica is a member of, its endpoint text is what the servers answer for its id, and the client splits
that text into the replica's address and port, without throwing, if and only if the address has no
colon. -/
theorem advertised_endpoint_parses_iff (members : List ReplicaConfig) (configs : List SrvConfig)
    (h : RaftConfig members configs) (cfg : ReplicaConfig) (hcfg : cfg ∈ members) (hport : cfg.clientPort ≠ 0) :
    ⟨cfg.serverId, cfg.clientEndpoint⟩ ∈ getAllServers configs ∧
      (parseEndpoint cfg.clientEndpoint = .ok ⟨cfg.addr, cfg.clientPort⟩ ↔ 58 ∉ cfg.addr) := by
  refine ⟨?_, parse_clientEndpoint_iff hport⟩
  rw [h.served]
  exact List.mem_map.2 ⟨cfg, hcfg, rfl⟩

/-- Server 1 at "::1". -/
def ipv6Config : ReplicaConfig := ⟨1, 10000, 10002, [58, 58, 49]⟩

/-- Server 2 at "127.0.0.1". -/
def ipv4Config : ReplicaConfig := ⟨2, 10003, 10005, [49, 50, 55, 46, 48, 46, 48, 46, 49]⟩

/-- Server 2, which has joined server 1, is found at its address. -/
theorem advertised_endpoint_parses_iff_demo :
    parseEndpoint ipv4Config.clientEndpoint = .ok ⟨[49, 50, 55, 46, 48, 46, 48, 46, 49], 10005⟩ := by
  have hcluster : RaftConfig [ipv6Config, ipv4Config] _ := .join ipv4Config (.start ipv6Config rfl) rfl
  have hiff := advertised_endpoint_parses_iff _ _ hcluster ipv4Config (by simp) (by decide)
  exact hiff.2.2 (by decide)

/-- **An IPv6 address is not parsed back.** Server 1 alone advertises "::1:10002", and the client's
constructor throws on it. -/
theorem ipv6_endpoint_throws :
    RaftConfig [ipv6Config] [ipv6Config.srvConfig] ∧ ipv6Config.clientPort ≠ 0 ∧
      getAllServers [ipv6Config.srvConfig] = [⟨1, [58, 58, 49, 58, 49, 48, 48, 48, 50]⟩] ∧
      parseEndpoint [58, 58, 49, 58, 49, 48, 48, 48, 50] = .error (.invalidArgument "stoi") ∧
      ∀ connects, Client.connectAll connects 0 (getAllServers [ipv6Config.srvConfig]) ∅ =
        .error (.invalidArgument "stoi") := by
  refine ⟨.start ipv6Config rfl, by decide, by decide, by decide, fun connects => ?_⟩
  have hserved : getAllServers [ipv6Config.srvConfig] = [⟨1, [58, 58, 49, 58, 49, 48, 48, 48, 50]⟩] := by decide
  have hparse : parseEndpoint [58, 58, 49, 58, 49, 48, 48, 48, 50] = .error (.invalidArgument "stoi") := by decide
  rw [hserved, Client.connectAll, hparse]
  rfl

end ReplicatedSplinter
