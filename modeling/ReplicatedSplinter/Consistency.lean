import ReplicatedSplinter.Cluster
import Mathlib.Data.List.Forall2
/-!
# Consistency of replicated reads, and what a failing store does to it

Over the invariant of `Cluster.lean`, two results about every interleaving:

* `reads_prefix_consistent`: where SplinterDB behaves as a key-value map (`IsMap`), a read at
  `last_commit_index()` `i` answers from the first `i` or the first `i + 1` requests, through the
  handlers, the codec and the commit dispatch.
* `maps_of_equal_index`: where its calls may fail on some replicas and entries, `commit` records
  the index all the same (`splinterdb_state_machine.cpp:71` comes after the `switch` whatever
  `ret_code` is), so a replica's map is the replay of the entries that succeeded there, and equal
  indices mean equal maps when the same entries failed. `failure_diverges` is a run where they
  did not.
-/

namespace ReplicatedSplinter
open ByteCodec KeyValue ReplicatedLog

/-! ## SplinterDB as a key-value map -/

def SplinterCall.write : SplinterCall → Write Bytes Bytes
  | .insert k v => ⟨k, some v⟩
  | .update k v => ⟨k, some v⟩
  | .delete k => ⟨k, none⟩

/-- The instance behaves as a map: mutations return 0 and write through, a bound key is found with
its value, an unbound one gives a non-zero code in one of the two lookup calls. -/
structure IsMap {S : Type} (view : S → Map Bytes Bytes) (db : SplinterDB S) : Prop where
  exec : ∀ call s, (db.exec call s).1 = 0 ∧ view (db.exec call s).2 = call.write.apply (view s)
  bound : ∀ k v s, view s k = some v →
    (db.lookup k s).1 = 0 ∧ db.lookupResultValue (db.lookup k s).2 = (0, v)
  unbound : ∀ k s, view s k = none →
    (db.lookup k s).1 ≠ 0 ∨ (db.lookupResultValue (db.lookup k s).2).1 ≠ 0

/-- A GET answers 0 with the bound value, or a non-zero code. -/
theorem IsMap.handleGet {S : Type} {view : S → Map Bytes Bytes} {db : SplinterDB S} (h : IsMap view db)
    (s : S) (k : Bytes) :
    (∀ v, ((Server.handleGet db s k).rc = 0 ∧ (Server.handleGet db s k).value_ = some v) ↔ view s k = some v) ∧
    (view s k = none → (Server.handleGet db s k).rc ≠ 0) := by
  cases hk : view s k with
  | some v =>
    obtain ⟨h1, h2⟩ := h.bound k v s hk
    have hget : Server.handleGet db s k = ⟨some v, 0⟩ := by
      simp [Server.handleGet, Server.read, h1, h2]
    rw [hget]
    exact ⟨fun v' => by simp, fun hn => by cases hn⟩
  | none =>
    have hrc : (Server.handleGet db s k).rc ≠ 0 := by
      simp only [Server.handleGet, Server.read]
      by_cases h1 : (db.lookup k s).1 = 0
      · have h2 := (h.unbound k s hk).resolve_left (fun hne => hne h1)
        simp [h1, h2]
      · simp [h1]
    exact ⟨fun v => ⟨fun hv => absurd hv.1 hrc, fun hv => (by cases hv)⟩, fun _ => hrc⟩

/-! ## What an entry writes -/

/-- The write an entry's commit asks of SplinterDB; a configuration change asks none. -/
def entryWrite (nu : Nuraft) : RaftEntry → Option (Write Bytes Bytes)
  | .config => none
  | .app p => match StateMachine.commitCall nu p with
    | .ok call => some call.write
    | .error _ => none

theorem view_applyEntry {S : Type} {nu : Nuraft} {view : S → Map Bytes Bytes} {db : Nat → SplinterDB S}
    (hmap : ∀ i, IsMap view (db i)) (i : Nat) (e : RaftEntry) (s : S) :
    view (applyEntry nu db i e s) = (entryWrite nu e).elim (view s) (·.apply (view s)) := by
  cases e with
  | config => rfl
  | app p =>
    cases hc : StateMachine.commitCall nu p with
    | error err => simp [applyEntry, entryWrite, hc]
    | ok call => simp [applyEntry, entryWrite, hc, ((hmap i).exec call s).2]

theorem filterMap_zipIdx_fst {α β : Type} (l : List α) (f : α → Option β) :
    (l.zipIdx.filterMap fun p => f p.1) = l.filterMap f := by
  conv_rhs => rw [← List.zipIdx_map_fst 0 l, List.filterMap_map]
  rfl

/-! ## Reads -/

/-- What stands at a position of the log: a configuration change or a client's request. -/
inductive Submitted
  | config
  | request (req : MutationRpc)
deriving DecidableEq, Repr

/-- The log entry is a configuration change, or the payload the request's handler serialized. -/
inductive Submitted.BuildsEntry (nu : Nuraft) : Submitted → RaftEntry → Prop
  | config : BuildsEntry nu .config .config
  | request (req : MutationRpc) (p : Bytes) :
      Server.appendedPayload nu req = .ok p → BuildsEntry nu (.request req) (.app p)

def MutationRpc.key : MutationRpc → Bytes
  | .put k _ => k
  | .update k _ => k
  | .delete k => k

def Submitted.request? : Submitted → Option MutationRpc
  | .config => none
  | .request req => some req

/-- The last request naming `k`. -/
def lastNaming (subs : List Submitted) (k : Bytes) : Option MutationRpc :=
  (subs.filterMap Submitted.request?).reverse.find? fun req => decide (req.key = k)

/-- The answer of the state after the requests `subs`: 0 with `v` exactly when the last request
naming the key is a put or an update carrying `v`, a non-zero code when it is none of these. -/
def AnswerOf (subs : List Submitted) (k : Bytes) (res : RpcReadResult) : Prop :=
  (∀ v, (res.rc = 0 ∧ res.value_ = some v) ↔
    (lastNaming subs k = some (.put k v) ∨ lastNaming subs k = some (.update k v))) ∧
  ((∀ v, lastNaming subs k ≠ some (.put k v) ∧ lastNaming subs k ≠ some (.update k v)) → res.rc ≠ 0)

/-- What a request asks of the map. -/
def MutationRpc.write : MutationRpc → Write Bytes Bytes
  | .put k v => ⟨k, some v⟩
  | .update k v => ⟨k, some v⟩
  | .delete k => ⟨k, none⟩

@[simp] theorem write_key (req : MutationRpc) : req.write.key = req.key := by cases req <;> rfl

/-- The SplinterDB call at the end of a request's path writes what the request asked. -/
theorem write_callOf (req : MutationRpc) : (Server.requestOperation req).callOf.write = req.write := by
  cases req <;> rfl

def Submitted.write? (s : Submitted) : Option (Write Bytes Bytes) := s.request?.map MutationRpc.write

theorem lastWrite_write? (subs : List Submitted) (k : Bytes) :
    lastWrite (subs.filterMap Submitted.write?) k = (lastNaming subs k).map MutationRpc.write := by
  have hmap : subs.filterMap Submitted.write? = (subs.filterMap Submitted.request?).map MutationRpc.write := by
    rw [List.map_filterMap]; rfl
  have hfun : ((fun w : Write Bytes Bytes => decide (w.key = k)) ∘ MutationRpc.write) =
      fun req => decide (req.key = k) := by
    funext req; simp
  rw [hmap, lastWrite, ← List.map_reverse, List.find?_map, hfun]
  rfl

/-- Bound to `v` after the requests, as a statement about the last request naming the key. -/
theorem replay_eq_some_iff (subs : List Submitted) (k v : Bytes) :
    replay (subs.filterMap Submitted.write?) (fun _ => none) k = some v ↔
      (lastNaming subs k = some (.put k v) ∨ lastNaming subs k = some (.update k v)) := by
  rw [replay_empty_eq_some, lastWrite_write?]
  cases hl : lastNaming subs k with
  | none => simp
  | some req => cases req <;> simp [MutationRpc.write]

section Reads
variable {ι S : Type} [DecidableEq ι] {nu : Nuraft} {subs : List Submitted} {log : List RaftEntry}

/-- The payload of a request is decoded to the call that writes what the request asked. -/
theorem commitCall_of_payload (hlim : ∀ n, nu.fits n = true → n < 2 ^ 31) {req : MutationRpc} {p : Bytes}
    (hp : Server.appendedPayload nu req = .ok p) :
    StateMachine.commitCall nu p = .ok (Server.requestOperation req).callOf := by
  obtain ⟨hfit, rfl⟩ := SplinterdbOperation.serialize_eq_ok hp
  have hsize := hlim _ hfit
  exact (Server.made_requestOperation req).commitCall_encoding nu (by omega)

theorem entryWrite_of_builds (hlim : ∀ n, nu.fits n = true → n < 2 ^ 31) {sub : Submitted} {e : RaftEntry}
    (he : sub.BuildsEntry nu e) : entryWrite nu e = sub.write? := by
  cases he with
  | config => rfl
  | request req p hp =>
    simp only [entryWrite, commitCall_of_payload hlim hp, Submitted.write?, Submitted.request?, Option.map_some,
      write_callOf]

theorem filterMap_entryWrite (hlim : ∀ n, nu.fits n = true → n < 2 ^ 31)
    (hlog : List.Forall₂ (Submitted.BuildsEntry nu) subs log) :
    log.filterMap (entryWrite nu) = subs.filterMap Submitted.write? := by
  induction hlog with
  | nil => rfl
  | cons he _ ih => simp only [List.filterMap_cons, entryWrite_of_builds hlim he, ih]

/-- The map after the first `j` entries is the replay of the first `j` requests. -/
theorem view_prefix_requests (hlim : ∀ n, nu.fits n = true → n < 2 ^ 31) {view : S → Map Bytes Bytes}
    {db : Nat → SplinterDB S} (hmap : ∀ i, IsMap view (db i)) {init : S} (hinit : ∀ k, view init k = none)
    (hlog : List.Forall₂ (Submitted.BuildsEntry nu) subs log) (j : Nat) :
    view (prefixState (applyEntry nu db) init log j) =
      replay ((subs.take j).filterMap Submitted.write?) (fun _ => none) := by
  rw [view_prefixState log view (fun _ => entryWrite nu) j fun i e s _ => view_applyEntry hmap i e s,
    filterMap_zipIdx_fst, filterMap_entryWrite hlim (List.forall₂_take j hlog),
    show view init = fun _ => none from funext hinit]

/-- **Prefix consistency.** In every interleaving, a read answered at `last_commit_index()` `i` gives
the answer of the state after the first `i` or the first `i + 1` requests of the log. -/
theorem reads_prefix_consistent (nu : Nuraft) (hlim : ∀ n, nu.fits n = true → n < 2 ^ 31)
    (db : ι → Nat → SplinterDB S) (view : S → Map Bytes Bytes) (hmap : ∀ r i, IsMap view (db r i))
    (init : S) (hinit : ∀ k, view init k = none) (subs : List Submitted) (log : List RaftEntry)
    (hlog : List.Forall₂ (Submitted.BuildsEntry nu) subs log) (w : World ι S)
    (hw : Reachable nu db log init w) (a : Answer ι) (ha : a ∈ w.answers) :
    ∃ j, (j = a.lastCommitIndex ∨ j = a.lastCommitIndex + 1) ∧ j ≤ subs.length ∧
      AnswerOf (subs.take j) a.key a.result := by
  obtain ⟨i, j, hj, hle, hres⟩ := (reachable_inv hw).answers a ha
  refine ⟨j, hj, by rw [hlog.length_eq]; exact hle, ?_⟩
  obtain ⟨hbound, hunbound⟩ := (hmap a.replica i).handleGet
    (prefixState (applyEntry nu (db a.replica)) init log j) a.key
  rw [view_prefix_requests hlim (hmap a.replica) hinit hlog j] at hbound hunbound
  rw [← hres] at hbound hunbound
  refine ⟨fun v => (hbound v).trans (replay_eq_some_iff _ _ _), fun hno => hunbound ?_⟩
  cases hv : replay ((subs.take j).filterMap Submitted.write?) (fun _ => none) a.key with
  | none => rfl
  | some v =>
    rcases (replay_eq_some_iff _ _ _).1 hv with h | h
    · exact absurd h (hno v).1
    · exact absurd h (hno v).2

end Reads

/-! ## A reference SplinterDB -/

/-- The map itself as an instance: lookups return 0, and the value of an absent key is `EINVAL` (22). -/
def mapDB : SplinterDB (Map Bytes Bytes) where
  insert k v m := (0, Function.update m k (some v))
  update k v m := (0, Function.update m k (some v))
  delete k m := (0, Function.update m k none)
  LookupResult := Option Bytes
  lookup k m := (0, m k)
  lookupResultValue
    | some v => (0, v)
    | none => (22, [])

theorem mapDB_exec (call : SplinterCall) (m : Map Bytes Bytes) : mapDB.exec call m = (0, call.write.apply m) := by
  cases call <;> rfl

theorem isMap_mapDB : IsMap (fun m => m) mapDB where
  exec call m := by rw [mapDB_exec]; exact ⟨rfl, rfl⟩
  bound k v m h := by simp [mapDB, h]
  unbound k m h := Or.inr (by simp [mapDB, h])

/-- `put "k" "v"` as it stands in the log. -/
def demoPayload : Bytes := (SplinterdbOperation.makePut [107] [118]).encoding refNuraft

theorem demoPayload_call : StateMachine.commitCall refNuraft demoPayload = .ok (.insert [107] [118]) := by decide

/-- One replica has called SplinterDB for an update of "k" but still reports index 0 when it is read:
the answer is that of the first entry. -/
theorem reads_prefix_consistent_midCommit :
    ∃ (w : World Bool (Map Bytes Bytes)) (a : Answer Bool),
      Reachable refNuraft (fun _ _ => mapDB) [.app demoPayload] (fun _ => none) w ∧ a ∈ w.answers ∧
      a.lastCommitIndex = 0 ∧ a.result = ⟨some [118], 0⟩ ∧
      ∃ j, (j = a.lastCommitIndex ∨ j = a.lastCommitIndex + 1) ∧ j ≤ 1 ∧
        AnswerOf (List.take j [.request (.update [107] [118])]) a.key a.result := by
  have hstore : Step refNuraft (fun _ _ => mapDB) [.app demoPayload]
      (World.start (fun _ => none) : World Bool (Map Bytes Bytes)) _ :=
    .store _ true demoPayload _ _ rfl rfl (StateMachine.commitStore_ok demoPayload_call)
  have hw := (Relation.ReflTransGen.single hstore).tail (Step.get _ true [107])
  have hlog : List.Forall₂ (Submitted.BuildsEntry refNuraft) [.request (.update [107] [118])] [.app demoPayload] :=
    .cons (.request _ _ (by decide)) .nil
  refine ⟨_, _, hw, List.mem_singleton.2 rfl, rfl, rfl, ?_⟩
  exact reads_prefix_consistent refNuraft (fun n hn => by simpa [Nuraft.fits, refNuraft] using hn) _ (fun m => m)
    (fun _ _ => isMap_mapDB) _ (fun _ => rfl) _ _ hlog _ hw _ (List.mem_singleton.2 rfl)

/-! ## Stores that fail -/

/-- A map whose mutations return `fail` and change nothing when it is set. -/
def failingDB (fail : Option Int32) : SplinterDB (Map Bytes Bytes) :=
  match fail with
  | none => mapDB
  | some c => { mapDB with
      insert := fun _ _ m => (c, m)
      update := fun _ _ m => (c, m)
      delete := fun _ m => (c, m) }

theorem failingDB_exec (fail : Option Int32) (call : SplinterCall) (m : Map Bytes Bytes) :
    ((failingDB fail).exec call m).2 = if fail.isSome then m else call.write.apply m := by
  cases fail with
  | none => rw [failingDB, mapDB_exec]; rfl
  | some c => cases call <;> rfl

/-- The writes among the first `i` entries whose SplinterDB call succeeded, in order. -/
def survivingWrites (nu : Nuraft) (fail : Nat → Option Int32) (log : List RaftEntry) (i : Nat) :
    List (Write Bytes Bytes) :=
  (log.take i).zipIdx.filterMap fun p => if (fail p.2).isSome then none else entryWrite nu p.1

/-- A replica outside `commit` can take the next entry, if it decodes. -/
theorem reachable_commit {ι S : Type} [DecidableEq ι] {nu : Nuraft} {db : ι → Nat → SplinterDB S} {log : List RaftEntry}
    {init : S} {w : World ι S} (hw : Reachable nu db log init w) (r : ι) {p : Bytes} {call : SplinterCall}
    (hidle : (w.replicas r).committing = false) (he : log[(w.replicas r).handed]? = some (.app p))
    (hcall : StateMachine.commitCall nu p = .ok call) :
    Reachable nu db log init (w.set r ⟨⟨((db r (w.replicas r).handed).exec call (w.replicas r).sm.store).2,
      (w.replicas r).handed + 1, true⟩, (w.replicas r).handed + 1, false⟩) :=
  Relation.ReflTransGen.trans hw ((commit_halves hidle he).1 _ (StateMachine.commit_ok hcall))

/-- The run in which two replicas commit the put of "k", one after the other, `fail r` being what
replica `r`'s store returns. -/
theorem demo_run (fail : Bool → Option Int32) :
    ∃ w : World Bool (Map Bytes Bytes),
      Reachable refNuraft (fun r _ => failingDB (fail r)) [.app demoPayload] (fun _ => none) w ∧
      ∀ r, (w.replicas r).sm.lastCommitIndex = 1 ∧ (w.replicas r).committing = false ∧
        (w.replicas r).sm.store =
          if (fail r).isSome then fun _ => none else Function.update (fun _ => none) [107] (some [118]) := by
  have h0 : Reachable refNuraft (fun r _ => failingDB (fail r)) [.app demoPayload] (fun _ => none)
      (World.start (fun _ => none) : World Bool (Map Bytes Bytes)) := .refl
  have h1 := reachable_commit h0 true rfl rfl demoPayload_call
  have h2 := reachable_commit h1 false rfl rfl demoPayload_call
  refine ⟨_, h2, fun r => ?_⟩
  cases r with
  | true => exact ⟨rfl, rfl, failingDB_exec (fail true) (.insert [107] [118]) _⟩
  | false => exact ⟨rfl, rfl, failingDB_exec (fail false) (.insert [107] [118]) _⟩

section Failures
variable {ι : Type} [DecidableEq ι]

theorem applyEntry_failing (nu : Nuraft) (fail : Nat → Option Int32) (i : Nat) (e : RaftEntry)
    (m : Map Bytes Bytes) :
    applyEntry nu (fun i => failingDB (fail i)) i e m =
      (if (fail i).isSome then none else entryWrite nu e).elim m (·.apply m) := by
  cases e with
  | config => cases (fail i).isSome <;> rfl
  | app p =>
    cases hc : StateMachine.commitCall nu p with
    | error err => cases (fail i).isSome <;> simp [applyEntry, entryWrite, hc]
    | ok call => cases hf : (fail i).isSome <;> simp [applyEntry, entryWrite, hc, failingDB_exec, hf]

/-- **What a replica's map is when stores fail.** Two replicas outside `commit` that report the same
index hold the replay of the entries that succeeded on each; so their maps are equal when the same
entries failed on both. -/
theorem maps_of_equal_index (nu : Nuraft) (fail : ι → Nat → Option Int32) (log : List RaftEntry)
    (w : World ι (Map Bytes Bytes))
    (hw : Reachable nu (fun r i => failingDB (fail r i)) log (fun _ => none) w) (r₁ r₂ : ι)
    (h₁ : (w.replicas r₁).committing = false) (h₂ : (w.replicas r₂).committing = false)
    (hidx : (w.replicas r₁).sm.lastCommitIndex = (w.replicas r₂).sm.lastCommitIndex) :
    (w.replicas r₁).sm.store =
        replay (survivingWrites nu (fail r₁) log (w.replicas r₁).sm.lastCommitIndex) (fun _ => none) ∧
    (w.replicas r₂).sm.store =
        replay (survivingWrites nu (fail r₂) log (w.replicas r₂).sm.lastCommitIndex) (fun _ => none) ∧
    ((∀ j p, j < (w.replicas r₁).sm.lastCommitIndex → log[j]? = some (.app p) →
        ((fail r₁ j).isSome ↔ (fail r₂ j).isSome)) →
      (w.replicas r₁).sm.store = (w.replicas r₂).sm.store) := by
  have key : ∀ r, (w.replicas r).committing = false → (w.replicas r).sm.store =
      prefixState (applyEntry nu fun i => failingDB (fail r i)) (fun _ => none) log
        (w.replicas r).sm.lastCommitIndex := by
    intro r hr
    have hst := ((reachable_inv hw).atPrefix r).state_eq
    simpa [Replica.node, Node.applied, StateMachine.lastCommitIndex, hr] using hst
  have hreplay : ∀ r i, prefixState (applyEntry nu fun i => failingDB (fail r i)) (fun _ => none) log i =
      replay (survivingWrites nu (fail r) log i) (fun _ => none) := fun r i =>
    view_prefixState log (fun m => m) (fun i e => if (fail r i).isSome then none else entryWrite nu e) i
      fun j e m _ => applyEntry_failing nu (fail r) j e m
  refine ⟨by rw [key r₁ h₁, hreplay], by rw [key r₂ h₂, hreplay], fun hsame => ?_⟩
  rw [key r₁ h₁, key r₂ h₂, ← hidx]
  apply prefixState_congr
  intro j e hj he
  funext m
  rw [applyEntry_failing, applyEntry_failing]
  cases e with
  | config => simp [entryWrite]
  | app p =>
    have hiff := hsame j p hj he
    by_cases hf : (fail r₁ j).isSome = true
    · rw [if_pos hf, if_pos (hiff.1 hf)]
    · rw [if_neg hf, if_neg (fun h => hf (hiff.2 h))]

end Failures

/-- `put "k" "v"`, `put "k" "w"` and `delete "x"`; SplinterDB fails with the second on both replicas, with `ENOSPC` (28)
on one and `EIO` (5) on the other. Both have committed all three and hold "v". -/
theorem maps_of_equal_index_common_failure :
    let log : List RaftEntry := [.app demoPayload, .app ((SplinterdbOperation.makePut [107] [119]).encoding refNuraft),
      .app ((SplinterdbOperation.makeDelete [120]).encoding refNuraft)]
    let fail : Bool → Nat → Option Int32 := fun r j => if j = 1 then some (if r then 28 else 5) else none
    ∃ w : World Bool (Map Bytes Bytes),
      Reachable refNuraft (fun r i => failingDB (fail r i)) log (fun _ => none) w ∧
      (w.replicas true).sm.lastCommitIndex = 3 ∧ (w.replicas false).sm.lastCommitIndex = 3 ∧
      (w.replicas true).sm.store = (w.replicas false).sm.store ∧ (w.replicas true).sm.store [107] = some [118] := by
  intro log fail
  have hsecond : StateMachine.commitCall refNuraft ((SplinterdbOperation.makePut [107] [119]).encoding refNuraft) =
      .ok (.insert [107] [119]) := by decide
  have hthird : StateMachine.commitCall refNuraft ((SplinterdbOperation.makeDelete [120]).encoding refNuraft) =
      .ok (.delete [120]) := by decide
  have h : Reachable refNuraft (fun r i => failingDB (fail r i)) log (fun _ => none)
      (World.start (fun _ => none) : World Bool (Map Bytes Bytes)) := .refl
  have h := reachable_commit h true rfl rfl demoPayload_call
  have h := reachable_commit h false rfl rfl demoPayload_call
  have h := reachable_commit h false rfl rfl hsecond
  have h := reachable_commit h true rfl rfl hsecond
  have h := reachable_commit h true rfl rfl hthird
  have h := reachable_commit h false rfl rfl hthird
  refine ⟨_, h, rfl, rfl, ?_, rfl⟩
  refine (maps_of_equal_index refNuraft fail log _ h true false rfl rfl rfl).2.2 fun j p _ _ => ?_
  by_cases hj : j = 1
  · simp [fail, hj]
  · simp [fail, hj]

/-- Equal indices of replicas outside `commit` would mean equal maps. -/
def EqualIndexEqualMap (nu : Nuraft) (fail : Bool → Nat → Option Int32) (log : List RaftEntry) : Prop :=
  ∀ w : World Bool (Map Bytes Bytes),
    Reachable nu (fun r i => failingDB (fail r i)) log (fun _ => none) w → ∀ r₁ r₂,
    (w.replicas r₁).committing = false → (w.replicas r₂).committing = false →
    (w.replicas r₁).sm.lastCommitIndex = (w.replicas r₂).sm.lastCommitIndex →
    (w.replicas r₁).sm.store = (w.replicas r₂).sm.store

/-- SplinterDB returns `ENOSPC` (28) for the put of "k" on one replica and stores it on the other:
both report index 1, and only one has the key. -/
theorem failure_diverges :
    StateMachine.commitCall refNuraft demoPayload = .ok (.insert [107] [118]) ∧
    ¬ EqualIndexEqualMap refNuraft (fun r _ => if r then some 28 else none) [.app demoPayload] := by
  refine ⟨demoPayload_call, fun h => ?_⟩
  obtain ⟨w, hw, hr⟩ := demo_run fun r => if r then some 28 else none
  have heq := h w hw true false (hr true).2.1 (hr false).2.1 ((hr true).1.trans (hr false).1.symm)
  rw [(hr true).2.2, (hr false).2.2] at heq
  exact absurd (congrFun heq [107]) (by decide)

end ReplicatedSplinter
