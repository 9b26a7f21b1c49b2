import ReplicatedSplinter.Lib.Rotation
import ReplicatedSplinter.ReadPolicy
/-!
# Round robin over whole runs

| here | there |
| --- | --- |
| `nextServers` | `next_server` called for one key after the other on the same policy object (`read_policy.h:22`) |

The counter `rri_` starts at 0 (`read_policy.h:36`) and is kept below the number of servers
(`:39-43`), so the servers take turns in the order of `server_ids_`, whatever the keys are.
-/

namespace ReplicatedSplinter
open ByteCodec Rotation

namespace ReadPolicy

/-- The servers for these keys, and the policy afterwards; the first call that fails ends the run. -/
def nextServers (p : ReadPolicy) : List (Bytes × Draw) → Except Exn (List Int32 × ReadPolicy)
  | [] => .ok ([], p)
  | (key, draw) :: calls => do
    let (srv, p) ← p.nextServer key draw
    let (srvs, p) ← nextServers p calls
    return (srv :: srvs, p)

variable {ids : List Int32}

/-- One call of `next_server`: the server whose turn it is, and on to the next turn. -/
theorem nextServer_roundRobin (hne : ids ≠ []) (t : Nat) (key : Bytes) (draw : Draw) :
    ∃ srv, ids[t % ids.length]? = some srv ∧
      nextServer (.roundRobin ids (t % ids.length)) key draw = .ok (srv, .roundRobin ids ((t + 1) % ids.length)) := by
  have hlen : ids.length ≠ 0 := fun h => hne (List.length_eq_zero_iff.1 h)
  have hlt : t % ids.length < ids.length := Nat.mod_lt _ (Nat.pos_of_ne_zero hlen)
  have hsrv : ids[t % ids.length]? = some ids[t % ids.length] := List.getElem?_eq_getElem hlt
  refine ⟨_, hsrv, ?_⟩
  simp [nextServer, next, serverIds, hlen, hsrv]

/-- A run of calls that starts at turn `t`. -/
theorem nextServers_roundRobin (hne : ids ≠ []) (calls : List (Bytes × Draw)) (t : Nat) :
    ∃ out, nextServers (.roundRobin ids (t % ids.length)) calls =
        .ok (out, .roundRobin ids ((t + calls.length) % ids.length)) ∧
      out.length = calls.length ∧ Turns ids t out := by
  induction calls generalizing t with
  | nil => exact ⟨[], rfl, rfl, turns_nil ids t⟩
  | cons call calls ih =>
    obtain ⟨key, draw⟩ := call
    obtain ⟨srv, hsrv, hcall⟩ := nextServer_roundRobin hne t key draw
    obtain ⟨out, hout, hlen, hturns⟩ := ih (t + 1)
    refine ⟨srv :: out, ?_, by rw [List.length_cons, List.length_cons, hlen], hturns.cons hsrv⟩
    rw [nextServers, hcall, ok_bind]
    simp only [hout, ok_bind, List.length_cons, pure_eq_ok]
    rw [Nat.add_assoc, Nat.add_comm 1]

end ReadPolicy

/-- **Round robin is exact.** From the constructor on, for every list of distinct servers and every
sequence of keys: each call returns, any `n` calls in a row, wherever they begin, return each of the
`n` servers exactly once, and after any number of calls no server has been returned more than once
more often than another. -/
theorem round_robin_exact (ids : List Int32) (hne : ids ≠ []) (hnodup : ids.Nodup) (calls : List (Bytes × Draw)) :
    ∃ out p, (ReadPolicy.roundRobin ids 0).nextServers calls = .ok (out, p) ∧ out.length = calls.length ∧
      (∀ t, t + ids.length ≤ calls.length → ((out.drop t).take ids.length).Perm ids ∧
        ∀ id ∈ ids, ((out.drop t).take ids.length).count id = 1) ∧
      ∀ m, ∀ a ∈ ids, ∀ b ∈ ids, (out.take m).count a ≤ (out.take m).count b + 1 := by
  obtain ⟨out, hout, hlen, hturns⟩ := ReadPolicy.nextServers_roundRobin hne calls 0
  rw [Nat.zero_mod] at hout
  refine ⟨out, _, hout, hlen, fun t ht => ?_, fun m a ha b hb => (hturns.take m).count_le hnodup ha hb⟩
  have hround : ((out.drop t).take ids.length).Perm ids := by
    refine ((hturns.drop t).take _).perm ?_
    rw [List.length_take, List.length_drop]
    omega
  refine ⟨hround, fun id hid => ?_⟩
  rw [hround.count_eq, List.count_eq_one_of_mem hnodup hid]

/-- Three servers and five calls: the window from the second call on wraps around. -/
theorem round_robin_exact_demo :
    ∃ out p, (ReadPolicy.roundRobin [4, 7, 2] 0).nextServers
        (List.replicate 5 ([107], ⟨fun _ => 0, fun _ => UInt32.zero_le⟩)) = .ok (out, p) ∧
      out = [4, 7, 2, 4, 7] ∧ ((out.drop 1).take 3).Perm [4, 7, 2] := by
  obtain ⟨out, p, hout, -, hround, -⟩ := round_robin_exact [4, 7, 2] (by decide) (by decide)
    (List.replicate 5 ([107], ⟨fun _ => 0, fun _ => UInt32.zero_le⟩))
  have hrun : (ReadPolicy.roundRobin [4, 7, 2] 0).nextServers
      (List.replicate 5 ([107], ⟨fun _ => 0, fun _ => UInt32.zero_le⟩)) =
        .ok ([4, 7, 2, 4, 7], .roundRobin [4, 7, 2] 2) := rfl
  refine ⟨out, p, hout, ?_, (hround 1 (by decide)).1⟩
  rw [hrun] at hout
  cases hout
  rfl

end ReplicatedSplinter
