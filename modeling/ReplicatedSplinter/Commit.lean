import ReplicatedSplinter.Grammar
import ReplicatedSplinter.StateMachine
/-!
# `commit` on every payload

`deserialize` accepts every type byte and reads a value for PUT and UPDATE only; the `switch` of
`commit` reads the value for the same two and rejects what is not PUT, UPDATE or DELETE. So `value()`
is only ever called on an operation that has one (`dispatch_of_valueInStep`).

| here | there |
| --- | --- |
| `CallFor`   | the call a `case` of the `switch` makes (`splinterdb_state_machine.cpp:48-66`) |
| `SplinterDB.logged` | a SplinterDB that also keeps the mutation calls made to it, in order |
-/

namespace ReplicatedSplinter
open ByteCodec

/-- The SplinterDB call of an operation: the kind its type names, with its key and its value. -/
inductive CallFor : SplinterdbOperation → SplinterCall → Prop
  | put (k v : Bytes) : CallFor ⟨k, some v, .PUT⟩ (.insert k v)
  | update (k v : Bytes) : CallFor ⟨k, some v, .UPDATE⟩ (.update k v)
  | delete (k : Bytes) : CallFor ⟨k, none, .DELETE⟩ (.delete k)

/-- The type is one of the three that have a name. -/
def OperationType.Known (t : OperationType) : Prop := t = .PUT ∨ t = .UPDATE ∨ t = .DELETE

/-- The same store with the mutation calls made so far. -/
def SplinterDB.logged {S : Type} (db : SplinterDB S) : SplinterDB (S × List SplinterCall) where
  insert := fun k v s => ((db.insert k v s.1).1, (db.insert k v s.1).2, s.2 ++ [.insert k v])
  update := fun k v s => ((db.update k v s.1).1, (db.update k v s.1).2, s.2 ++ [.update k v])
  delete := fun k s => ((db.delete k s.1).1, (db.delete k s.1).2, s.2 ++ [.delete k])
  LookupResult := db.LookupResult
  lookup := fun k s => db.lookup k s.1
  lookupResultValue := db.lookupResultValue

theorem SplinterDB.exec_logged {S : Type} (db : SplinterDB S) (call : SplinterCall) (s : S × List SplinterCall) :
    db.logged.exec call s = ((db.exec call s.1).1, (db.exec call s.1).2, s.2 ++ [call]) := by
  cases call <;> rfl

namespace StateMachine
variable {S : Type}

/-- The mutation calls `commit` makes. -/
def callsMade (nu : Nuraft) (db : SplinterDB S) (sm : StateMachine S) (logIdx : Nat) (buf : Bytes) :
    List SplinterCall :=
  let sm' : StateMachine (S × List SplinterCall) := ⟨(sm.store, []), sm.lastCommittedIdx, sm.commitThreadInitialized⟩
  (sm'.commit nu db.logged logIdx buf).2.store.2

/-- The getters throw, they do nothing worse. -/
theorem onlyThrows_deserialize (nu : Nuraft) (buf : Bytes) : OnlyThrows (SplinterdbOperation.deserialize nu buf) := by
  have hfrom : OnlyThrows (SplinterdbOperation.deserializeFrom nu buf) := by
    refine (Nuraft.onlyThrows_getU8 _).bind ?_
    rintro ⟨b, r1⟩
    refine (nu.onlyThrows_getStr r1).bind ?_
    rintro ⟨key, r2⟩
    simp only
    split
    · exact (nu.onlyThrows_getStr r2).bind fun _ => onlyThrows_ok _
    · exact onlyThrows_ok _
  exact hfrom.bind fun _ => onlyThrows_ok _

/-- An operation with a value exactly where the reader looks for one: the `switch` never misses it. -/
theorem dispatch_of_valueInStep {op : SplinterdbOperation} (h : op.ValueInStep) :
    (op.type_.Known ∧ ∃ call, dispatch op = .ok call ∧ CallFor op call) ∨
      (¬ op.type_.Known ∧ dispatch op = .error (.runtimeError "Unknown operation type.")) := by
  obtain ⟨k, v, t⟩ := op
  by_cases hknown : t.Known
  · refine .inl ⟨hknown, ?_⟩
    rcases hknown with rfl | rfl | rfl
    · obtain ⟨v, rfl⟩ := Option.isSome_iff_exists.1 (h.2 (.inl rfl))
      exact ⟨_, rfl, .put k v⟩
    · obtain ⟨v, rfl⟩ := Option.isSome_iff_exists.1 (h.2 (.inr rfl))
      exact ⟨_, rfl, .update k v⟩
    · have hnone : v = none := by
        rw [← Option.not_isSome_iff_eq_none]
        intro hsome
        have hvalued : ¬ (OperationType.DELETE = .PUT ∨ OperationType.DELETE = .UPDATE) := by decide
        exact hvalued (h.1 hsome)
      subst hnone
      exact ⟨_, rfl, .delete k⟩
  · have hput : t ≠ .PUT := fun ht => hknown (.inl ht)
    have hupdate : t ≠ .UPDATE := fun ht => hknown (.inr (.inl ht))
    have hdelete : t ≠ .DELETE := fun ht => hknown (.inr (.inr ht))
    exact .inr ⟨hknown, by simp [dispatch, hput, hupdate, hdelete]⟩

/-- A payload `commit` makes a call for, or throws on before any. -/
theorem commitCall_cases (nu : Nuraft) (buf : Bytes) :
    (∃ op call, SplinterdbOperation.deserialize nu buf = .ok op ∧ op.type_.Known ∧ CallFor op call ∧
        commitCall nu buf = .ok call) ∨
      ((∀ op, SplinterdbOperation.deserialize nu buf = .ok op → ¬ op.type_.Known) ∧
        ∃ e, commitCall nu buf = .error e ∧ e.isThrow = true) := by
  cases hop : SplinterdbOperation.deserialize nu buf with
  | error e =>
    have hthrow : e.isThrow = true := onlyThrows_deserialize nu buf e hop
    exact .inr ⟨by rintro op ⟨⟩, e, by simp [commitCall, hop], hthrow⟩
  | ok op =>
    obtain ⟨hstep, -⟩ := SplinterdbOperation.deserialize_iff.1 hop
    have hcall : commitCall nu buf = dispatch op := by simp [commitCall, hop]
    rcases dispatch_of_valueInStep hstep with ⟨hknown, call, hdispatch, hfor⟩ | ⟨hunknown, hdispatch⟩
    · exact .inl ⟨op, call, rfl, hknown, hfor, by rw [hcall, hdispatch]⟩
    · refine .inr ⟨?_, _, by rw [hcall, hdispatch], rfl⟩
      rintro _ ⟨⟩
      exact hunknown

theorem commit_error {nu : Nuraft} {db : SplinterDB S} {sm : StateMachine S} {logIdx : Nat} {buf : Bytes} {e : Exn}
    (h : commitCall nu buf = .error e) :
    sm.commit nu db logIdx buf = (.error e, ⟨sm.store, sm.lastCommittedIdx, true⟩) := by
  simp [commit, commitStore, h]

/-- **`commit` is atomic on every payload.** It returns exactly on the payloads that decode to an operation of
a known type. A throw leaves store and index alone and comes before any call; otherwise there is one
call, the operation's own, the index is set and the code is in the four bytes returned. -/
theorem commit_atomic (nu : Nuraft) (db : SplinterDB S) (sm : StateMachine S) (logIdx : Nat) (buf : Bytes) :
    ((∃ ret, (sm.commit nu db logIdx buf).1 = .ok ret) ↔
        ∃ op, SplinterdbOperation.deserialize nu buf = .ok op ∧ op.type_.Known) ∧
      (∀ e, (sm.commit nu db logIdx buf).1 = .error e →
        e.isThrow = true ∧ (sm.commit nu db logIdx buf).2.store = sm.store ∧
          (sm.commit nu db logIdx buf).2.lastCommittedIdx = sm.lastCommittedIdx ∧
          sm.callsMade nu db logIdx buf = []) ∧
      ∀ ret, (sm.commit nu db logIdx buf).1 = .ok ret →
        ∃ op call, SplinterdbOperation.deserialize nu buf = .ok op ∧ CallFor op call ∧
          sm.callsMade nu db logIdx buf = [call] ∧
          (sm.commit nu db logIdx buf).2.store = (db.exec call sm.store).2 ∧
          (sm.commit nu db logIdx buf).2.lastCommittedIdx = logIdx ∧
          ret.length = 4 ∧ ∃ r, nu.getInt ⟨ret, 0⟩ = .ok ((db.exec call sm.store).1, r) := by
  rcases commitCall_cases nu buf with ⟨op, call, hop, hknown, hfor, hcall⟩ | ⟨hunknown, e, hcall, hthrow⟩
  · have hcalls : sm.callsMade nu db logIdx buf = [call] := by
      simp [callsMade, commit_ok hcall, SplinterDB.exec_logged]
    rw [commit_ok hcall]
    refine ⟨iff_of_true ⟨_, rfl⟩ ⟨op, hop, hknown⟩, by rintro e ⟨⟩, ?_⟩
    rintro ret ⟨⟩
    obtain ⟨r, hr, -⟩ := nu.getInt_at (c := (db.exec call sm.store).1)
      (at_start (List.append_nil _).symm)
    exact ⟨op, call, hop, hfor, hcalls, rfl, rfl, nu.order.length_enc _, r, hr⟩
  · have hcalls : sm.callsMade nu db logIdx buf = [] := by simp [callsMade, commit_error hcall]
    rw [commit_error hcall]
    refine ⟨iff_of_false (by rintro ⟨ret, ⟨⟩⟩) ?_, ?_, by rintro ret ⟨⟩⟩
    · rintro ⟨op, hop, hknown⟩
      exact hunknown op hop hknown
    · rintro e' ⟨⟩
      exact ⟨hthrow, rfl, rfl, hcalls⟩

end StateMachine

end ReplicatedSplinter
