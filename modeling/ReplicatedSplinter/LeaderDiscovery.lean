import ReplicatedSplinter.Retries
/-!
# Which servers `get_leader_id` asks, and how often

| here | there |
| --- | --- |
| `Tries`        | how many calls one server gets (`client.cpp:219-238`): it is left at the first call that throws or names a leader, or after `num_retries` answers of -1 |
| `tries`, `callsTo` | that number, and the calls themselves |

The inner loop ends in a `throw` that the `catch` of the same iteration takes, so a server without a
leader and one that cannot be reached are left in the same way. `clients_` is a `std::map`: the
servers come in the order of their ids.
-/

namespace ReplicatedSplinter
open ByteCodec Std

namespace Client

/-- A server gets `t` of at most `n` calls: all but the last one answered -1, and the last one did not if there
was a try left. -/
structure Tries (ask : Nat → Except Exn Int32) (n t : Nat) : Prop where
  le : t ≤ n
  before : ∀ i, i + 1 < t → ask i = .ok GET_LEADER_NO_LIVE_LEADER
  stop : t < n → ∃ i, t = i + 1 ∧ ask i ≠ .ok GET_LEADER_NO_LIVE_LEADER

theorem askServer_tries (srv : Int32) (ask : Nat → Except Exn Int32) (n k : Nat) :
    ∃ t, (askServer srv ask n k).2 = List.replicate t srv ∧ Tries (fun i => ask (k + i)) n t := by
  induction n generalizing k with
  | zero => exact ⟨0, rfl, Nat.le_refl 0, by intro i hi; omega, by intro h; omega⟩
  | succ n ih =>
    have hone (h : ask k ≠ .ok GET_LEADER_NO_LIVE_LEADER) : Tries (fun i => ask (k + i)) (n + 1) 1 :=
      ⟨by omega, by intro i hi; omega, fun _ => ⟨0, rfl, h⟩⟩
    unfold askServer
    cases hk : ask k with
    | error e => exact ⟨1, rfl, hone (by rw [hk]; simp)⟩
    | ok leader =>
      by_cases hl : leader = GET_LEADER_NO_LIVE_LEADER
      · obtain ⟨t, hasked, ht⟩ := ih (k + 1)
        refine ⟨t + 1, ?_, by have := ht.le; omega, ?_, ?_⟩
        · simp [hl, hasked, List.replicate_succ]
        · intro i hi
          cases i with
          | zero => rw [Nat.add_zero, hk, hl]
          | succ i =>
            rw [← ht.before i (by omega)]
            congr 1
            omega
        · intro hlt
          obtain ⟨i, rfl, hi⟩ := ht.stop (by omega)
          refine ⟨i + 1, rfl, ?_⟩
          rwa [show k + (i + 1) = k + 1 + i by omega]
      · refine ⟨1, by simp [hl], hone ?_⟩
        rw [hk]
        simpa using hl

/-- How many calls a server gets once it is its turn. -/
def tries (c : Client) (ask : Int32 → Nat → Except Exn Int32) (srv : Int32) : Nat :=
  (askServer srv (ask srv) c.numRetries.toNat 0).2.length

def callsTo (c : Client) (ask : Int32 → Nat → Except Exn Int32) (srv : Int32) : List Int32 :=
  List.replicate (c.tries ask srv) srv

theorem tries_spec (c : Client) (ask : Int32 → Nat → Except Exn Int32) (srv : Int32) :
    Tries (ask srv) c.numRetries.toNat (c.tries ask srv) ∧
      (askServer srv (ask srv) c.numRetries.toNat 0).2 = c.callsTo ask srv := by
  obtain ⟨t, hasked, ht⟩ := askServer_tries srv (ask srv) c.numRetries.toNat 0
  have htries : c.tries ask srv = t := by rw [tries, hasked, List.length_replicate]
  simp only [Nat.zero_add] at ht
  exact ⟨htries ▸ ht, by rw [hasked, callsTo, htries]⟩

theorem reports_iff {c : Client} {ask : Int32 → Nat → Except Exn Int32} {srv leader : Int32} :
    (askServer srv (ask srv) c.numRetries.toNat 0).1 = .ok leader ↔ c.Reports ask srv leader := by
  rw [askServer_eq_ok]
  simp only [Nat.zero_add]
  rfl

/-- The outer loop: the servers up to the first one that reports a leader, or all of them. -/
theorem searchLeader_cases (c : Client) (ask : Int32 → Nat → Except Exn Int32) (srvs : List Int32) :
    (∃ pre srv post leader, srvs = pre ++ srv :: post ∧
        searchLeader c.numRetries.toNat ask srvs = (.ok leader, (pre ++ [srv]).flatMap (c.callsTo ask)) ∧
        c.Reports ask srv leader ∧ ∀ s ∈ pre, ∀ l, ¬ c.Reports ask s l) ∨
      (∃ e, searchLeader c.numRetries.toNat ask srvs = (.error e, srvs.flatMap (c.callsTo ask)) ∧
        ∀ s ∈ srvs, ∀ l, ¬ c.Reports ask s l) := by
  induction srvs with
  | nil => exact .inr ⟨_, rfl, by simp⟩
  | cons srv rest ih =>
    obtain ⟨-, hcalls⟩ := c.tries_spec ask srv
    cases hask : askServer srv (ask srv) c.numRetries.toNat 0 with
    | mk r asked =>
      rw [hask] at hcalls
      simp only at hcalls
      cases r with
      | ok leader =>
        have hrep : c.Reports ask srv leader := reports_iff.1 (by rw [hask])
        refine .inl ⟨[], srv, rest, leader, rfl, ?_, hrep, by simp⟩
        simp [searchLeader, hask, hcalls]
      | error e =>
        have hno : ∀ l, ¬ c.Reports ask srv l := by
          intro l hl
          have := reports_iff.2 hl
          rw [hask] at this
          cases this
        rcases ih with ⟨pre, s, post, leader, rfl, hsearch, hrep, hpre⟩ | ⟨e', hsearch, hrest⟩
        · refine .inl ⟨srv :: pre, s, post, leader, rfl, ?_, hrep, ?_⟩
          · simp [searchLeader, hask, hsearch, hcalls]
          · intro s' hs'
            rcases List.mem_cons.1 hs' with rfl | hs'
            · exact hno
            · exact hpre s' hs'
        · refine .inr ⟨e', ?_, ?_⟩
          · simp [searchLeader, hask, hsearch, hcalls]
          · intro s' hs'
            rcases List.mem_cons.1 hs' with rfl | hs'
            · exact hno
            · exact hrest s' hs'

/-! ## How many calls -/

theorem mem_flatMap_callsTo {c : Client} {ask : Int32 → Nat → Except Exn Int32} {srvs : List Int32} {srv : Int32}
    (h : srv ∈ srvs.flatMap (c.callsTo ask)) : srv ∈ srvs := by
  obtain ⟨s, hs, hmem⟩ := List.mem_flatMap.1 h
  rw [(List.mem_replicate.1 hmem).2]
  exact hs

theorem count_flatMap_callsTo_le (c : Client) (ask : Int32 → Nat → Except Exn Int32) {srvs : List Int32}
    (h : srvs.Nodup) (srv : Int32) : (srvs.flatMap (c.callsTo ask)).count srv ≤ c.numRetries.toNat := by
  induction srvs with
  | nil => simp
  | cons s rest ih =>
    obtain ⟨hs, hrest⟩ := List.nodup_cons.1 h
    rw [List.flatMap_cons, List.count_append]
    by_cases heq : s = srv
    · subst heq
      -- the later servers are others
      have hzero : (rest.flatMap (c.callsTo ask)).count s = 0 :=
        List.count_eq_zero.2 fun hmem => hs (mem_flatMap_callsTo hmem)
      have hle := (c.tries_spec ask s).1.le
      rw [hzero, callsTo, List.count_replicate_self]
      omega
    · have hzero : (c.callsTo ask s).count srv = 0 :=
        List.count_eq_zero.2 fun hmem => heq (List.mem_replicate.1 hmem).2.symm
      rw [hzero, Nat.zero_add]
      exact ih hrest

theorem length_flatMap_callsTo_le (c : Client) (ask : Int32 → Nat → Except Exn Int32) (srvs : List Int32) :
    (srvs.flatMap (c.callsTo ask)).length ≤ c.numRetries.toNat * srvs.length := by
  induction srvs with
  | nil => simp
  | cons s rest ih =>
    have hle := (c.tries_spec ask s).1.le
    rw [List.flatMap_cons, List.length_append, callsTo, List.length_replicate, List.length_cons, Nat.mul_succ]
    omega

/-- **Leader discovery.** The servers are asked in the order of their ids, each with its `Tries`, up to the
first one that reports a leader, which is the answer; without one all are asked and it throws. -/
theorem getLeaderId_discovers (c : Client) (ask : Int32 → Nat → Except Exn Int32) :
    c.clients.keys.Pairwise (· < ·) ∧
      (∀ srv, Tries (ask srv) c.numRetries.toNat (c.tries ask srv)) ∧
      ((∃ pre srv post leader, c.clients.keys = pre ++ srv :: post ∧
          c.getLeaderId ask = (.ok leader, (pre ++ [srv]).flatMap (c.callsTo ask)) ∧
          c.Reports ask srv leader ∧ ∀ s ∈ pre, ∀ l, ¬ c.Reports ask s l) ∨
        ∃ e, c.getLeaderId ask = (.error e, c.clients.keys.flatMap (c.callsTo ask)) ∧
          ∀ s ∈ c.clients.keys, ∀ l, ¬ c.Reports ask s l) ∧
      ((∃ e, (c.getLeaderId ask).1 = .error e) ↔ ¬ c.LeaderReported ask) ∧
      (∀ srv, (c.getLeaderId ask).2.count srv ≤ c.numRetries.toNat) ∧
      (c.getLeaderId ask).2.length ≤ c.numRetries.toNat * c.clients.size ∧
      (c.getLeaderId ask).1 ≠ .ok GET_LEADER_NO_LIVE_LEADER := by
  have hcases := searchLeader_cases c ask c.clients.keys
  have hnodup : c.clients.keys.Nodup := ExtTreeMap.nodup_keys
  -- in both cases a prefix of the servers is asked
  obtain ⟨visited, rest, hkeys, hasked⟩ : ∃ visited rest, c.clients.keys = visited ++ rest ∧
      (c.getLeaderId ask).2 = visited.flatMap (c.callsTo ask) := by
    rcases hcases with ⟨pre, srv, post, leader, hkeys, hsearch, -⟩ | ⟨e, hsearch, -⟩
    · exact ⟨pre ++ [srv], post, by simp [hkeys], by rw [getLeaderId, hsearch]⟩
    · exact ⟨c.clients.keys, [], by simp, by rw [getLeaderId, hsearch]⟩
  refine ⟨?_, fun srv => (c.tries_spec ask srv).1, hcases, ?_, ?_, ?_, ?_⟩
  · refine ExtTreeMap.ordered_keys.imp ?_
    intro a b hab
    exact Std.compare_eq_lt.1 hab
  · rw [← getLeaderId_isOk]
    cases (c.getLeaderId ask).1 with
    | ok leader => simp
    | error e => simp
  · intro srv
    rw [hasked]
    rw [hkeys] at hnodup
    exact count_flatMap_callsTo_le c ask (List.nodup_append.1 hnodup).1 srv
  · have hlen := length_flatMap_callsTo_le c ask visited
    have hle : visited.length ≤ c.clients.size := by
      rw [← ExtTreeMap.length_keys, hkeys, List.length_append]
      omega
    rw [hasked]
    exact Nat.le_trans hlen (Nat.mul_le_mul_left _ hle)
  · intro hno
    rcases hcases with ⟨pre, srv, post, leader, -, hsearch, ⟨k, -, -, -, hne⟩, -⟩ | ⟨e, hsearch, -⟩
    · rw [getLeaderId, hsearch, Except.ok.injEq] at hno
      exact hne hno
    · rw [getLeaderId, hsearch] at hno
      cases hno

end Client

end ReplicatedSplinter
