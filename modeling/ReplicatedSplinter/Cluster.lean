import ReplicatedSplinter.Lib.ReplicatedLog
import ReplicatedSplinter.Server
/-!
# The cluster: replicas committing one log while clients read

NuRaft hands every replica the same entries in order, each once: a configuration change goes to
`commit_config`, a payload to `commit`. Reads run concurrently with commits, on other threads
(`server.cpp:118-128`), so a `get` may fall between `commit`'s SplinterDB call and its update of
`last_committed_idx_`; `committing` marks that moment. Steps of different replicas and reads
interleave in any order.

| here | there |
| --- | --- |
| `Replica`         | one server's `splinterdb_state_machine`, and how many entries NuRaft has handed to it |
| `Step.store`, `Step.index` | the two halves of `commit` (`splinterdb_state_machine.cpp:36-69`, `:71-76`); `commit_halves` |
| `Step.config`     | `commit_config` (`:79-82`) |
| `Step.get`        | the GET handler (`server.cpp:118-128`) with the `last_commit_index()` it runs at |
| `db r i`          | replica `r`'s SplinterDB as it behaves on entry `i + 1` |

Each replica refines a `ReplicatedLog.Node` (`step_sim`), hence is always at a prefix of the log
(`reachable_inv`). `Consistency.lean` reads this through the handlers and the codec.
-/

namespace ReplicatedSplinter
open ByteCodec KeyValue ReplicatedLog

/-! ## The system -/

inductive RaftEntry
  | config
  | app (payload : Bytes)
deriving DecidableEq, Repr

structure Replica (S : Type) where
  sm : StateMachine S
  handed : Nat
  committing : Bool

/-- A read that was answered: by whom, for which key, at which `last_commit_index()`, with what. -/
structure Answer (ι : Type) where
  replica : ι
  key : Bytes
  lastCommitIndex : Nat
  result : RpcReadResult

structure World (ι S : Type) where
  replicas : ι → Replica S
  answers : List (Answer ι)

section System
variable {ι S : Type} [DecidableEq ι]

def World.start (init : S) : World ι S := ⟨fun _ => ⟨.new init, 0, false⟩, []⟩

def World.set (w : World ι S) (r : ι) (x : Replica S) : World ι S :=
  { w with replicas := Function.update w.replicas r x }

inductive Step (nu : Nuraft) (db : ι → Nat → SplinterDB S) (log : List RaftEntry) : World ι S → World ι S → Prop
  | store (w : World ι S) (r : ι) (p : Bytes) (rc : Int32) (sm : StateMachine S) :
      (w.replicas r).committing = false → log[(w.replicas r).handed]? = some (.app p) →
      (w.replicas r).sm.commitStore nu (db r (w.replicas r).handed) p = (.ok rc, sm) →
      Step nu db log w (w.set r ⟨sm, (w.replicas r).handed, true⟩)
  | index (w : World ι S) (r : ι) :
      (w.replicas r).committing = true →
      Step nu db log w (w.set r
        ⟨(w.replicas r).sm.setCommitted ((w.replicas r).handed + 1), (w.replicas r).handed + 1, false⟩)
  | config (w : World ι S) (r : ι) :
      (w.replicas r).committing = false → log[(w.replicas r).handed]? = some .config →
      Step nu db log w (w.set r
        ⟨(w.replicas r).sm.commitConfig ((w.replicas r).handed + 1), (w.replicas r).handed + 1, false⟩)
  | get (w : World ι S) (r : ι) (key : Bytes) :
      Step nu db log w { w with answers := w.answers ++ [⟨r, key, (w.replicas r).sm.lastCommitIndex,
        Server.handleGet (db r (w.replicas r).handed) (w.replicas r).sm.store key⟩] }

/-- The states some interleaving reaches. -/
def Reachable (nu : Nuraft) (db : ι → Nat → SplinterDB S) (log : List RaftEntry) (init : S) (w : World ι S) : Prop :=
  Relation.ReflTransGen (Step nu db log) (World.start init) w

theorem World.set_set (w : World ι S) (r : ι) (x y : Replica S) : (w.set r x).set r y = w.set r y := by
  simp [World.set]

section Halves
variable {nu : Nuraft} {db : ι → Nat → SplinterDB S} {log : List RaftEntry} {w : World ι S} {r : ι} {p : Bytes}
  {sm : StateMachine S}

/-- The two halves are `commit`, on every payload: one after the other where it returns; where it throws, the first
cannot be taken. -/
theorem commit_halves (hidle : (w.replicas r).committing = false)
    (he : log[(w.replicas r).handed]? = some (.app p)) :
    (∀ ret, (w.replicas r).sm.commit nu (db r (w.replicas r).handed) ((w.replicas r).handed + 1) p = (.ok ret, sm) →
      Relation.ReflTransGen (Step nu db log) w (w.set r ⟨sm, (w.replicas r).handed + 1, false⟩)) ∧
    ∀ e, (w.replicas r).sm.commit nu (db r (w.replicas r).handed) ((w.replicas r).handed + 1) p = (.error e, sm) →
      ∀ rc sm', (w.replicas r).sm.commitStore nu (db r (w.replicas r).handed) p ≠ (.ok rc, sm') := by
  unfold StateMachine.commit
  split
  case h_1 e₁ sm₁ hstore =>
    refine ⟨fun ret hc => ?_, fun e _ rc sm' hok => ?_⟩
    · cases hc
    · rw [hstore] at hok
      cases hok
  case h_2 rc₁ sm₁ hstore =>
    refine ⟨fun ret hc => ?_, fun e hc => ?_⟩
    · obtain ⟨-, rfl⟩ := Prod.mk.inj hc
      have hindex : Step nu db log (w.set r ⟨sm₁, (w.replicas r).handed, true⟩) _ :=
        .index _ r (by simp [World.set])
      rw [World.set_set] at hindex
      simp only [World.set, Function.update_self] at hindex
      exact (Relation.ReflTransGen.single (.store w r p rc₁ sm₁ hidle he hstore)).tail hindex
    · rw [StateMachine.encodeResult_eq] at hc
      cases hc

end Halves

/-! ## Each replica refines a node of the abstract log -/

/-- What an entry does to the store. -/
def applyEntry (nu : Nuraft) (db : Nat → SplinterDB S) (i : Nat) (e : RaftEntry) (s : S) : S :=
  match e with
  | .config => s
  | .app p => match StateMachine.commitCall nu p with
    | .ok call => ((db i).exec call s).2
    | .error _ => s

def Replica.node (x : Replica S) : Node S := ⟨x.sm.store, x.sm.lastCommittedIdx, x.committing⟩

theorem commitStore_eq_ok {nu : Nuraft} {db : SplinterDB S} {sm sm' : StateMachine S} {p : Bytes} {rc : Int32}
    (h : sm.commitStore nu db p = (.ok rc, sm')) :
    ∃ call, StateMachine.commitCall nu p = .ok call ∧ rc = (db.exec call sm.store).1 ∧
      sm' = ⟨(db.exec call sm.store).2, sm.lastCommittedIdx, true⟩ := by
  cases hc : StateMachine.commitCall nu p with
  | error e => simp [StateMachine.commitStore, hc] at h
  | ok call =>
    rw [StateMachine.commitStore_ok hc] at h
    simp only [Prod.mk.injEq, Except.ok.injEq] at h
    exact ⟨call, rfl, h.1.symm, h.2.symm⟩

/-- NuRaft's count of the entries it has handed out is the index the state machine reports. -/
def InStep (w : World ι S) : Prop := ∀ r, (w.replicas r).handed = (w.replicas r).sm.lastCommittedIdx

variable {nu : Nuraft} {db : ι → Nat → SplinterDB S} {log : List RaftEntry} {w w' : World ι S}

theorem inStep_step (h : InStep w) (hs : Step nu db log w w') : InStep w' := by
  intro q
  cases hs with
  | store r p rc sm hb he hc =>
    obtain ⟨call, _, _, rfl⟩ := commitStore_eq_ok hc
    by_cases hq : q = r
    · subst hq; simpa [World.set] using h q
    · simpa [World.set, hq] using h q
  | index r hb =>
    by_cases hq : q = r
    · subst hq; simp [World.set, StateMachine.setCommitted]
    · simpa [World.set, hq] using h q
  | config r hb he =>
    by_cases hq : q = r
    · subst hq; simp [World.set, StateMachine.commitConfig, StateMachine.setCommitted]
    · simpa [World.set, hq] using h q
  | get r key => exact h q

/-- **Simulation.** A step of the cluster moves each replica's node by steps of the abstract log: a
commit half is one step, a configuration change two (it acts on nothing), a read none. -/
theorem step_sim (h : InStep w) (hs : Step nu db log w w') (q : ι) :
    Relation.ReflTransGen (ReplicatedLog.Step (applyEntry nu (db q)) log)
      (w.replicas q).node (w'.replicas q).node := by
  have hq0 := h q
  cases hs with
  | store r p rc sm hb he hc =>
    by_cases hq : q = r
    · subst hq
      obtain ⟨call, hcall, _, rfl⟩ := commitStore_eq_ok hc
      have hstep : ReplicatedLog.Step (applyEntry nu (db q)) log _ _ :=
        .apply (w.replicas q).sm.store (w.replicas q).handed (.app p) he
      simp only [applyEntry, hcall] at hstep
      simp only [World.set, Function.update_self, Replica.node, hb, ← hq0]
      exact .single hstep
    · simp only [World.set, Function.update_of_ne hq]
      exact .refl
  | index r hb =>
    by_cases hq : q = r
    · subst hq
      simp only [World.set, Function.update_self, Replica.node, StateMachine.setCommitted, hb, ← hq0]
      exact .single (.advance _ _)
    · simp only [World.set, Function.update_of_ne hq]
      exact .refl
  | config r hb he =>
    by_cases hq : q = r
    · subst hq
      have hstep : ReplicatedLog.Step (applyEntry nu (db q)) log _ _ :=
        .apply (w.replicas q).sm.store (w.replicas q).handed .config he
      simp only [World.set, Function.update_self, Replica.node, StateMachine.commitConfig,
        StateMachine.setCommitted, hb, ← hq0]
      exact (Relation.ReflTransGen.single hstep).tail (.advance _ _)
    · simp only [World.set, Function.update_of_ne hq]
      exact .refl
  | get r key => exact .refl

/-! ## What holds in every reachable state -/

/-- An answer read off the state after the first `last_commit_index()` entries or one more. -/
def Answer.FromPrefix (nu : Nuraft) (db : ι → Nat → SplinterDB S) (log : List RaftEntry) (init : S)
    (a : Answer ι) : Prop :=
  ∃ i j, (j = a.lastCommitIndex ∨ j = a.lastCommitIndex + 1) ∧ j ≤ log.length ∧
    a.result = Server.handleGet (db a.replica i)
      (prefixState (applyEntry nu (db a.replica)) init log j) a.key

structure Inv (nu : Nuraft) (db : ι → Nat → SplinterDB S) (log : List RaftEntry) (init : S)
    (w : World ι S) : Prop where
  inStep : InStep w
  atPrefix : ∀ r, (w.replicas r).node.AtPrefix (applyEntry nu (db r)) init log
  answers : ∀ a ∈ w.answers, a.FromPrefix nu db log init

variable {init : S}

omit [DecidableEq ι] in
theorem inv_start : Inv nu db log init (World.start init) :=
  ⟨fun _ => rfl, fun _ => atPrefix_start, fun a ha => by simp [World.start] at ha⟩

theorem inv_step (h : Inv nu db log init w) (hs : Step nu db log w w') : Inv nu db log init w' := by
  refine ⟨inStep_step h.inStep hs, fun r => atPrefix_steps (h.atPrefix r) (step_sim h.inStep hs r), ?_⟩
  intro a ha
  cases hs with
  | store r p rc sm hb he hc => exact h.answers a ha
  | index r hb => exact h.answers a ha
  | config r hb he => exact h.answers a ha
  | get r key =>
    rcases List.mem_append.1 ha with ha | ha
    · exact h.answers a ha
    · rw [List.mem_singleton] at ha
      subst ha
      obtain ⟨j, hj, hle, hst⟩ := (h.atPrefix r).state_cases
      refine ⟨(w.replicas r).handed, j, hj, hle, ?_⟩
      rw [← hst]
      rfl

theorem reachable_inv (h : Reachable nu db log init w) : Inv nu db log init w := by
  induction h with
  | refl => exact inv_start
  | tail _ hs ih => exact inv_step ih hs

end System

end ReplicatedSplinter
