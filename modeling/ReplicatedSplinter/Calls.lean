import ReplicatedSplinter.Client
/-!
# Which operation a mutation call commits

| here | there |
| --- | --- |
| `Mutation.operation`, `Mutation.call` | what `put` / `update` / `del` mean: the factory (`splinterdb_operation.cpp:51-66`) and the SplinterDB call (`splinterdb_state_machine.cpp:48-66`) of the same name |
| `Mutation.Faithful`    | the entry the call's handler appends is committed as that operation |

Client stub, RPC binding, factory and codec, and `commit`'s dispatch each make their own choice between
three kinds; `faithful_iff` is about all four together.
-/

namespace ReplicatedSplinter
open ByteCodec Std

namespace Mutation

/-- The operation a mutation call stands for. -/
def operation : Mutation → SplinterdbOperation
  | .put key value => .makePut key value
  | .update key value => .makeUpdate key value
  | .del key => .makeDelete key

/-- The SplinterDB call a mutation call stands for. -/
def call : Mutation → SplinterCall
  | .put key value => .insert key value
  | .update key value => .update key value
  | .del key => .delete key

/-- The handler appends one entry `p`; `commit` decodes it to the operation of the mutation and makes
its SplinterDB call on any store. -/
def Faithful (nu : Nuraft) (m : Mutation) : Prop :=
  ∃ p, (∀ raft, Server.handle nu raft m.rpc = raft p >>= Server.extractResult nu) ∧
    SplinterdbOperation.deserialize nu p = .ok m.operation ∧
    ∀ (S : Type) (db : SplinterDB S) (sm : StateMachine S) (i : Nat),
      sm.commit nu db i p =
        (.ok (nu.order.enc (db.exec m.call sm.store).1.toUInt32), ⟨(db.exec m.call sm.store).2, i, true⟩)

theorem bufferSize_requestOperation (m : Mutation) :
    (Server.requestOperation m.rpc).bufferSize = m.operation.bufferSize := by
  cases m <;> rfl

/-- The handler's entry is the encoding of the operation it built. -/
theorem handle_rpc (nu : Nuraft) (m : Mutation) (hsize : m.operation.bufferSize < 2 ^ 31)
    (raft : Bytes → Except Exn RaftResult) :
    Server.handle nu raft m.rpc =
      raft ((Server.requestOperation m.rpc).encoding nu) >>= Server.extractResult nu := by
  rw [← bufferSize_requestOperation] at hsize
  rw [Server.handle_eq, Server.appendedPayload, SplinterdbOperation.serialize_ok nu _ (nu.fits_of_lt hsize),
    ok_bind]

/-- A handler cannot be explained by two different entries. -/
theorem appended_unique {nu : Nuraft} {req : MutationRpc} {p q : Bytes}
    (hp : ∀ raft, Server.handle nu raft req = raft p >>= Server.extractResult nu)
    (hq : ∀ raft, Server.handle nu raft req = raft q >>= Server.extractResult nu) : p = q := by
  -- a Raft that treats `p` and everything else differently tells them apart
  by_contra hne
  have h := (hp fun x => .error (.processExit (if x = p then 0 else 1))).symm.trans (hq _)
  rw [if_pos rfl, if_neg (Ne.symm hne)] at h
  cases h

/-- **Which calls are committed as what they are.** The committed operation has the type, key and
value of the client's call exactly when the call is no `update`: the UPDATE handler builds a PUT. -/
theorem faithful_iff (nu : Nuraft) (m : Mutation) (hsize : m.operation.bufferSize < 2 ^ 31) :
    m.Faithful nu ↔ ∀ key value, m ≠ .update key value := by
  have hreq : (Server.requestOperation m.rpc).bufferSize < 2 ^ 32 := by
    rw [bufferSize_requestOperation]; omega
  have hmade := Server.made_requestOperation m.rpc
  have hdec := SplinterdbOperation.deserialize_encoding nu hmade.valueInStep hreq
  constructor
  · rintro ⟨p, hp, hop, _⟩ key value rfl
    have hpe := appended_unique hp (handle_rpc nu _ hsize)
    rw [hpe, hdec, Except.ok.injEq] at hop
    have htype : OperationType.PUT = OperationType.UPDATE := congrArg SplinterdbOperation.type_ hop
    exact absurd htype (by decide)
  · intro hm
    have hsame : Server.requestOperation m.rpc = m.operation ∧ m.operation.callOf = m.call := by
      cases m with
      | put key value => exact ⟨rfl, rfl⟩
      | update key value => exact absurd rfl (hm key value)
      | del key => exact ⟨rfl, rfl⟩
    have hcall := hmade.commitCall_encoding nu hreq
    rw [hsame.1, hsame.2] at hcall
    rw [hsame.1] at hdec
    refine ⟨m.operation.encoding nu, ?_, hdec, fun S db sm i => StateMachine.commit_ok hcall⟩
    intro raft
    rw [handle_rpc nu m hsize, hsame.1]

/-- A put of an empty value under a key with an embedded NUL. -/
theorem faithful_iff_put :
    (put [107, 0] []).operation.bufferSize < 2 ^ 31 ∧ (put [107, 0] []).Faithful refNuraft :=
  ⟨by decide, (faithful_iff refNuraft (put [107, 0] []) (by decide)).2 (by intro _ _ h; cases h)⟩

/-- `update("\x01", "\x02")` is committed as a PUT. -/
theorem update_not_faithful : ¬ (update [1] [2]).Faithful refNuraft := by
  rintro ⟨p, hp, hop, _⟩
  have hpe := appended_unique hp (handle_rpc refNuraft (update [1] [2]) (by decide))
  rw [hpe] at hop
  exact absurd hop (by decide)

end Mutation

end ReplicatedSplinter
