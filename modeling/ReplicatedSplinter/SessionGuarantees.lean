import ReplicatedSplinter.Sessions
/-!
# What clients may conclude, and that replicas catch up

Over the invariant of `Sessions.lean`:

* `success_applied_once`: a reported success was applied, once, with SplinterDB's 0, on the leader.
* `history_consistent`: reads and successes respect real time, per replica for reads, everywhere for writes.
* `reads_own_write`: a read at the replica that committed a write answers with it or with a later one.
* `replicas_converge`: no entry a handler can append stops a replica, so from every state all of them can
  commit the rest of the log, and then answer alike.

With `auto_forwarding_` the server a client talks to need not be the one that committed its write; of a read
at another replica `reads_own_write` says nothing.
-/

namespace ReplicatedSplinter
open ByteCodec KeyValue ReplicatedLog

namespace Group
variable {ι S : Type} [DecidableEq ι] {nu : Nuraft} {db : ι → Nat → SplinterDB S} {init : S} {g g' : Group ι S}

/-! ## What clients may conclude -/

/-- The answer a request leaves behind for its key. -/
def Leaves (req : MutationRpc) (res : RpcReadResult) : Prop :=
  match req.write.binding with
  | some v => res.rc = 0 ∧ res.value_ = some v
  | none => res.rc ≠ 0

/-- A read of the state after the first `j` entries answers as the first `j` requests say. -/
theorem answerOf_prefix (hlim : ∀ n, nu.fits n = true → n < 2 ^ 31) {view : S → Map Bytes Bytes}
    {db : Nat → SplinterDB S} (hmap : ∀ i, IsMap view (db i)) (hinit : ∀ k, view init k = none)
    {subs : List Submitted} {log : List RaftEntry} (hlog : List.Forall₂ (Submitted.BuildsEntry nu) subs log)
    (i j : Nat) (k : Bytes) :
    AnswerOf (subs.take j) k (Server.handleGet (db i) (prefixState (applyEntry nu db) init log j) k) := by
  obtain ⟨hbound, hunbound⟩ := (hmap i).handleGet (prefixState (applyEntry nu db) init log j) k
  rw [view_prefix_requests hlim hmap hinit hlog j] at hbound hunbound
  refine ⟨fun v => (hbound v).trans (replay_eq_some_iff _ _ _), fun hno => hunbound ?_⟩
  cases hv : replay ((subs.take j).filterMap Submitted.write?) (fun _ => none) k with
  | none => rfl
  | some v =>
    rcases (replay_eq_some_iff _ _ _).1 hv with h | h
    · exact absurd h (hno v).1
    · exact absurd h (hno v).2

theorem lastNaming_concat (subs : List Submitted) (x : Submitted) (k : Bytes) :
    lastNaming (subs ++ [x]) k = match x with
      | .config => lastNaming subs k
      | .request req => if req.key = k then some req else lastNaming subs k := by
  cases x with
  | config =>
    have hnone : List.filterMap Submitted.request? [.config] = [] := rfl
    simp [lastNaming, List.filterMap_append, hnone]
  | request req =>
    have hone : List.filterMap Submitted.request? [.request req] = [req] := rfl
    by_cases hk : req.key = k <;> simp [lastNaming, List.filterMap_append, hone, hk]

/-- The last request naming a key stands no earlier than any request that names it. -/
theorem lastNaming_after {subs : List Submitted} {i : Nat} {req : MutationRpc}
    (hi : subs[i]? = some (.request req)) :
    ∃ (j : Nat) (req' : MutationRpc), i ≤ j ∧ subs[j]? = some (.request req') ∧ req'.key = req.key ∧
      lastNaming subs req.key = some req' := by
  induction subs using List.reverseRecOn with
  | nil => simp at hi
  | append_singleton subs x ih =>
    rw [lastNaming_concat]
    have hlt : i < subs.length + 1 := by simpa using (List.getElem?_eq_some_iff.1 hi).1
    have hearlier : i < subs.length → ∃ (j : Nat) (req' : MutationRpc), i ≤ j ∧
        (subs ++ [x])[j]? = some (.request req') ∧ req'.key = req.key ∧ lastNaming subs req.key = some req' := by
      intro h
      rw [List.getElem?_append_left h] at hi
      obtain ⟨j, req', hij, hj, hk, hlast⟩ := ih hi
      exact ⟨j, req', hij, by rw [List.getElem?_append_left (List.getElem?_eq_some_iff.1 hj).1, hj], hk, hlast⟩
    have hend : ¬ i < subs.length → x = .request req := by
      intro h
      have : i = subs.length := by omega
      simpa [this] using hi
    cases x with
    | config => exact hearlier (by by_contra h; cases hend h)
    | request r =>
      by_cases hk : r.key = req.key
      · exact ⟨subs.length, r, by omega, List.getElem?_concat_length, hk, if_pos hk⟩
      · simp only [if_neg hk]
        exact hearlier (by by_contra h; cases hend h; exact hk rfl)

/-- The answer of the requests is what the last one naming the key leaves behind. -/
theorem leaves_of_answerOf {subs : List Submitted} {k : Bytes} {req : MutationRpc} {res : RpcReadResult}
    (hlast : lastNaming subs k = some req) (hk : req.key = k) (h : AnswerOf subs k res) : Leaves req res := by
  subst hk
  unfold AnswerOf at h
  rw [hlast] at h
  cases req with
  | put k v => exact (h.1 v).2 (.inl rfl)
  | update k v => exact (h.1 v).2 (.inr rfl)
  | delete k => exact h.2 fun v => ⟨by simp, by simp⟩

/-- The entry at a position is the one its request built. -/
theorem builds_at {subs : List Submitted} {log : List RaftEntry} {i : Nat} {sub : Submitted}
    (h : List.Forall₂ (Submitted.BuildsEntry nu) subs log) (hi : subs[i]? = some sub) :
    ∃ e, log[i]? = some e ∧ sub.BuildsEntry nu e := by
  induction h generalizing i with
  | nil => simp at hi
  | cons hb _ ih =>
    cases i with
    | zero =>
      rw [List.getElem?_cons_zero, Option.some.injEq] at hi
      subst hi
      exact ⟨_, rfl, hb⟩
    | succ i => exact ih (by simpa using hi)

/-- `put "k" "v"` sent to one server, committed and read back at the other, the leader. -/
theorem demo_session : ∃ g : Group Bool (Map Bytes Bytes),
    Reachable refNuraft (fun _ _ => mapDB) (fun _ => none) g ∧
    g.calls = [⟨false, .put [107] [118], some 0, true⟩] ∧ g.submitted = [.request (.put [107] [118])] ∧
    g.history = [.invoked 0, .replied 0 true ⟨0, 0, "Ok."⟩ (some 0),
      .answered ⟨true, [107], 1, ⟨some [118], 0⟩⟩ 1] := by
  have h1 : Step refNuraft (fun _ _ => mapDB) (start (fun _ => none) : Group Bool (Map Bytes Bytes)) _ :=
    .invoke _ false (.put [107] [118])
  have h2 := (Relation.ReflTransGen.single h1).tail (.append _ 0 ⟨false, .put [107] [118], none, false⟩ demoPayload
    rfl rfl (by decide))
  have h3 := h2.tail (.store _ true demoPayload _ _ rfl rfl (StateMachine.commitStore_ok demoPayload_call))
  have h4 := h3.tail (.index _ true rfl)
  have h5 := h4.tail (.reply _ 0 ⟨false, .put [107] [118], some 0, false⟩ true
    ⟨true, true, 0, some (leEnc 0), "Ok."⟩ ⟨0, 0, "Ok."⟩ rfl rfl
    (fun _ => ⟨0, 0, leEnc 0, rfl, Nat.zero_lt_one, rfl, StateMachine.encodeResult_eq refNuraft 0, rfl, rfl, rfl⟩)
    (by decide))
  have h6 := h5.tail (.get _ true [107] _ rfl)
  exact ⟨_, h6, rfl, rfl, rfl⟩

theorem refNuraft_fits (n : Nat) (hn : refNuraft.fits n = true) : n < 2 ^ 31 := by
  simpa [Nuraft.fits, refNuraft] using hn

omit [DecidableEq ι] in
/-- What the invariant says of a reported success. -/
theorem Inv.applied_of_success (h : Inv nu db init g) (hlim : ∀ n, nu.fits n = true → n < 2 ^ 31) {t : Nat} {leader : ι}
    {res : RpcMutationResult} {entry : Option Nat} (he : .replied t leader res entry ∈ g.history)
    (hres : res.isSuccess = true) :
    ∃ c i, g.calls[t]? = some c ∧ c.entry = some i ∧ g.submitted[i]? = some (.request c.req) ∧ i < g.applied leader ∧
      ((db leader i).exec (Server.requestOperation c.req).callOf
        (prefixState (applyEntry nu (db leader)) init g.log i)).1 = 0 := by
  obtain ⟨i, _, hi, hlt, p, call, hp, hcall, hcode⟩ := h.sound _ he hres
  obtain ⟨c, hct, hci⟩ := Option.bind_eq_some_iff.1 hi
  have hsub := h.entries t c i hct hci
  refine ⟨c, i, hct, hci, hsub, hlt, ?_⟩
  obtain ⟨e, hei, hbuild⟩ := builds_at h.builds hsub
  rw [hp, Option.some.injEq] at hei
  subst hei
  cases hbuild with
  | request req p hpay =>
    rw [commitCall_of_payload hlim hpay, Except.ok.injEq] at hcall
    rw [hcall, hcode]

/-- **An acknowledged mutation was applied, once.** Whatever the stores return: when a handler reports a
success, its call stands at a position of the log that no other call has, `leader` has applied it, and
there SplinterDB was called with the request's own arguments, after all entries before it, and returned 0. -/
theorem success_applied_once (nu : Nuraft) (hlim : ∀ n, nu.fits n = true → n < 2 ^ 31)
    (db : ι → Nat → SplinterDB S) (init : S) (g : Group ι S) (hg : Reachable nu db init g) (t : Nat) (leader : ι)
    (res : RpcMutationResult) (entry : Option Nat) (he : .replied t leader res entry ∈ g.history)
    (hres : res.isSuccess = true) :
    ∃ c i, g.calls[t]? = some c ∧ c.entry = some i ∧ g.submitted[i]? = some (.request c.req) ∧
      (∀ t', position? g.calls t' = some i → t' = t) ∧ i < g.applied leader ∧
      ((db leader i).exec (Server.requestOperation c.req).callOf
        (prefixState (applyEntry nu (db leader)) init g.log i)).1 = 0 := by
  obtain ⟨_, h⟩ := reachable_inv hg
  obtain ⟨c, i, hct, hci, hsub, hlt, hcode⟩ := h.applied_of_success hlim he hres
  have hpos : position? g.calls t = some i := by simp [position?, hct, hci]
  exact ⟨c, i, hct, hci, hsub, fun t' ht' => h.distinct t' t i ht' hpos, hlt, hcode⟩

/-- The put of "k", sent to one replica and committed on the other. -/
theorem success_applied_once_forwarded : ∃ g : Group Bool (Map Bytes Bytes),
    Event.replied 0 true ⟨0, 0, "Ok."⟩ (some 0) ∈ g.history ∧
    ∃ c i, g.calls[0]? = some c ∧ c.entry = some i ∧ g.submitted[i]? = some (.request c.req) ∧
      (∀ t', position? g.calls t' = some i → t' = 0) ∧ i < g.applied true ∧
      (mapDB.exec (Server.requestOperation c.req).callOf
        (prefixState (applyEntry refNuraft fun _ => mapDB) (fun _ => none) g.log i)).1 = 0 := by
  obtain ⟨g, hg, _, _, hhist⟩ := demo_session
  have hmem : Event.replied 0 true ⟨0, 0, "Ok."⟩ (some 0) ∈ g.history := by simp [hhist]
  exact ⟨g, hmem, success_applied_once refNuraft refNuraft_fits (fun _ _ => mapDB) _ g hg 0 true _ _ hmem rfl⟩

/-- **Real time.** Where SplinterDB behaves as a map, every read answers as some first requests of the log
say, every reported success has its request in the log, and the order of events is respected: what a read
or a success has seen at a replica, every later read there sees; and a call made afterwards, anywhere,
stands behind it in the log. -/
theorem history_consistent (nu : Nuraft) (hlim : ∀ n, nu.fits n = true → n < 2 ^ 31)
    (db : ι → Nat → SplinterDB S) (view : S → Map Bytes Bytes) (hmap : ∀ r i, IsMap view (db r i)) (init : S)
    (hinit : ∀ k, view init k = none) (g : Group ι S) (hg : Reachable nu db init g) :
    (∀ a seen, .answered a seen ∈ g.history →
      seen ≤ g.submitted.length ∧ AnswerOf (g.submitted.take seen) a.key a.result) ∧
    (∀ t leader res entry, .replied t leader res entry ∈ g.history → res.isSuccess = true →
      ∃ c i, entry = some i ∧ g.calls[t]? = some c ∧ c.entry = some i ∧
        g.submitted[i]? = some (.request c.req)) ∧
    g.history.Pairwise (Before g.calls) := by
  obtain ⟨hc, h⟩ := reachable_inv hg
  refine ⟨fun a seen ha => ?_, fun t l res entry he hres => ?_, h.ordered⟩
  · obtain ⟨hle, i, hres⟩ := h.sound _ ha
    refine ⟨?_, ?_⟩
    · rw [h.builds.length_eq]
      exact Nat.le_trans hle (applied_le_length hc _)
    · rw [hres]
      exact answerOf_prefix hlim (hmap a.replica) hinit h.builds i seen a.key
  · obtain ⟨i, hei, hi, _⟩ := h.sound _ he hres
    obtain ⟨c, hct, hci⟩ := Option.bind_eq_some_iff.1 hi
    exact ⟨c, i, hei, hct, hci, h.entries t c i hct hci⟩

/-- The read that came after the success has seen its entry. -/
theorem history_consistent_forwarded : ∃ g : Group Bool (Map Bytes Bytes),
    g.history = [.invoked 0, .replied 0 true ⟨0, 0, "Ok."⟩ (some 0),
      .answered ⟨true, [107], 1, ⟨some [118], 0⟩⟩ 1] ∧
    AnswerOf (g.submitted.take 1) [107] ⟨some [118], 0⟩ ∧ g.history.Pairwise (Before g.calls) := by
  obtain ⟨g, hg, _, _, hhist⟩ := demo_session
  obtain ⟨hreads, _, hord⟩ := history_consistent refNuraft refNuraft_fits (fun _ _ => mapDB) (fun m => m)
    (fun _ _ => isMap_mapDB) _ (fun _ => rfl) g hg
  exact ⟨g, hhist, (hreads ⟨true, [107], 1, ⟨some [118], 0⟩⟩ 1 (by simp [hhist])).2, hord⟩

/-- **Reading one's own writes.** After a reported success, a read of its key at the replica that committed
it answers with what that request left, or a request that stands later in the log. -/
theorem reads_own_write (nu : Nuraft) (hlim : ∀ n, nu.fits n = true → n < 2 ^ 31)
    (db : ι → Nat → SplinterDB S) (view : S → Map Bytes Bytes) (hmap : ∀ r i, IsMap view (db r i)) (init : S)
    (hinit : ∀ k, view init k = none) (g : Group ι S) (hg : Reachable nu db init g) (h₁ h₂ h₃ : List (Event ι))
    (t : Nat) (leader : ι) (res : RpcMutationResult) (entry : Option Nat) (a : Answer ι) (seen : Nat)
    (hhist : g.history = h₁ ++ .replied t leader res entry :: (h₂ ++ .answered a seen :: h₃))
    (hres : res.isSuccess = true) (hat : a.replica = leader) (c : Call ι) (hcall : g.calls[t]? = some c)
    (hkey : a.key = c.req.key) :
    ∃ (i j : Nat) (req : MutationRpc), c.entry = some i ∧ i ≤ j ∧ j < seen ∧
      g.submitted[j]? = some (.request req) ∧ req.key = a.key ∧ Leaves req a.result := by
  obtain ⟨hc, h⟩ := reachable_inv hg
  have hmem : Event.replied t leader res entry ∈ g.history := by simp [hhist]
  have hmem' : Event.answered a seen ∈ g.history := by simp [hhist]
  obtain ⟨i, hei, hi, _, _⟩ := h.sound _ hmem hres
  subst hei
  have hci : c.entry = some i := by simpa [position?, hcall] using hi
  -- the read came later, at the same replica, so it has seen the entry
  have hseen : i < seen := by
    have hord := h.ordered
    rw [hhist, List.pairwise_append] at hord
    have hb := (List.pairwise_cons.1 hord.2.1).1 (.answered a seen) (by simp)
    have hle := hb (by rw [hat]; rfl)
    simp only [Event.seen, if_pos hres, Option.elim_some] at hle
    exact hle
  obtain ⟨_, k, hget⟩ := h.sound _ hmem'
  have hans : AnswerOf (g.submitted.take seen) a.key a.result := by
    rw [hget]
    exact answerOf_prefix hlim (hmap a.replica) hinit h.builds k seen a.key
  have hsub : (g.submitted.take seen)[i]? = some (.request c.req) := by
    rw [List.getElem?_take_of_lt hseen]
    exact h.entries t c i hcall hci
  obtain ⟨j, req, hij, hj, hkj, hlast⟩ := lastNaming_after hsub
  have hjlt : j < seen := by
    have := (List.getElem?_eq_some_iff.1 hj).1
    rw [List.length_take] at this
    omega
  rw [List.getElem?_take_of_lt hjlt] at hj
  rw [hkey] at hans
  exact ⟨i, j, req, hci, hij, hjlt, hj, hkj.trans hkey.symm, leaves_of_answerOf hlast hkj hans⟩

/-- The leader answers the put's own value. -/
theorem reads_own_write_forwarded : ∃ (g : Group Bool (Map Bytes Bytes)) (i j : Nat) (req : MutationRpc),
    some 0 = some i ∧ i ≤ j ∧ j < 1 ∧ g.submitted[j]? = some (.request req) ∧ req.key = [107] ∧
      Leaves req ⟨some [118], 0⟩ := by
  obtain ⟨g, hg, hcalls, _, hhist⟩ := demo_session
  exact ⟨g, reads_own_write refNuraft refNuraft_fits (fun _ _ => mapDB) (fun m => m) (fun _ _ => isMap_mapDB) _
    (fun _ => rfl) g hg [.invoked 0] [] [] 0 true ⟨0, 0, "Ok."⟩ (some 0) ⟨true, [107], 1, ⟨some [118], 0⟩⟩ 1
    hhist rfl rfl ⟨false, .put [107] [118], some 0, true⟩ (by simp [hcalls]) rfl⟩

/-! ## Catching up -/

/-- From `g` to `g'` only replica `r` has moved. -/
structure OnlyMoves (r : ι) (g g' : Group ι S) : Prop where
  log : g'.log = g.log
  submitted : g'.submitted = g.submitted
  calls : g'.calls = g.calls
  history : g'.history = g.history
  others : ∀ q, q ≠ r → g'.world.replicas q = g.world.replicas q

omit [DecidableEq ι] in
theorem OnlyMoves.trans {r : ι} {g₁ g₂ g₃ : Group ι S} (h : OnlyMoves r g₁ g₂) (h' : OnlyMoves r g₂ g₃) :
    OnlyMoves r g₁ g₃ where
  log := h'.log.trans h.log
  submitted := h'.submitted.trans h.submitted
  calls := h'.calls.trans h.calls
  history := h'.history.trans h.history
  others := fun q hq => (h'.others q hq).trans (h.others q hq)

theorem others_set (w : World ι S) (r : ι) (x : Replica S) (q : ι) (hq : q ≠ r) :
    (w.set r x).replicas q = w.replicas q := Function.update_of_ne hq _ _

/-- Replica `r` has committed the whole log. -/
def Done (g : Group ι S) (r : ι) : Prop :=
  (g.world.replicas r).handed = g.log.length ∧ (g.world.replicas r).committing = false

/-- A replica outside `commit` that has entries left can commit the next one: no entry in the log makes
`commit` throw. -/
theorem commit_next (hlim : ∀ n, nu.fits n = true → n < 2 ^ 31) (hg : Reachable nu db init g) {r : ι}
    (hidle : (g.world.replicas r).committing = false) (hlt : (g.world.replicas r).handed < g.log.length) :
    ∃ g', Relation.ReflTransGen (Step nu db) g g' ∧ OnlyMoves r g g' ∧
      (g'.world.replicas r).committing = false ∧
      (g'.world.replicas r).handed = (g.world.replicas r).handed + 1 := by
  obtain ⟨_, h⟩ := reachable_inv hg
  have hsub : (g.world.replicas r).handed < g.submitted.length := by rwa [h.builds.length_eq]
  obtain ⟨sub, hsub⟩ : ∃ sub, g.submitted[(g.world.replicas r).handed]? = some sub :=
    ⟨_, List.getElem?_eq_getElem hsub⟩
  obtain ⟨e, he, hbuild⟩ := builds_at h.builds hsub
  cases hbuild with
  | config =>
    refine ⟨_, .single (.config g r hidle he), ⟨rfl, rfl, rfl, rfl, others_set _ _ _⟩, ?_, ?_⟩ <;>
      simp [World.set]
  | request req p hp =>
    have hcall := commitCall_of_payload hlim hp
    have hstore : Step nu db g _ := .store g r p _ _ hidle he (StateMachine.commitStore_ok hcall)
    refine ⟨_, (Relation.ReflTransGen.single hstore).tail (.index _ r (by simp [World.set])),
      ⟨rfl, rfl, rfl, rfl, fun q hq => ?_⟩, ?_, ?_⟩
    · rw [others_set _ _ _ _ hq, others_set _ _ _ _ hq]
    · simp [World.set]
    · simp [World.set]

/-- A replica that is outside `commit` can commit all that is left. -/
theorem catch_up_idle (hlim : ∀ n, nu.fits n = true → n < 2 ^ 31) (k : Nat) {g : Group ι S}
    (hg : Reachable nu db init g) {r : ι} (hidle : (g.world.replicas r).committing = false)
    (hk : (g.world.replicas r).handed + k = g.log.length) :
    ∃ g', Relation.ReflTransGen (Step nu db) g g' ∧ OnlyMoves r g g' ∧ Done g' r := by
  induction k generalizing g with
  | zero => exact ⟨g, .refl, ⟨rfl, rfl, rfl, rfl, fun _ _ => rfl⟩, by omega, hidle⟩
  | succ k ih =>
    obtain ⟨g₁, hs₁, hm₁, hidle₁, hh₁⟩ := commit_next hlim hg hidle (by omega)
    obtain ⟨g₂, hs₂, hm₂, hd₂⟩ := ih (Relation.ReflTransGen.trans hg hs₁) hidle₁ (by rw [hm₁.log, hh₁]; omega)
    exact ⟨g₂, hs₁.trans hs₂, hm₁.trans hm₂, hd₂⟩

theorem catch_up (hlim : ∀ n, nu.fits n = true → n < 2 ^ 31) (hg : Reachable nu db init g) (r : ι) :
    ∃ g', Relation.ReflTransGen (Step nu db) g g' ∧ OnlyMoves r g g' ∧ Done g' r := by
  obtain ⟨hc, _⟩ := reachable_inv hg
  have hle := applied_le_length hc r
  rw [applied_eq, ← hc.inStep r] at hle
  cases hb : (g.world.replicas r).committing with
  | false =>
    rw [hb] at hle
    exact catch_up_idle hlim (g.log.length - (g.world.replicas r).handed) hg hb (by simp at hle; omega)
  | true =>
    rw [hb] at hle
    have hs : Step nu db g _ := .index g r hb
    obtain ⟨g', hs', hm, hd⟩ := catch_up_idle hlim (g.log.length - ((g.world.replicas r).handed + 1))
      (Relation.ReflTransGen.tail hg hs) (r := r) (by simp [World.set]) (by simp [World.set] at hle ⊢; omega)
    exact ⟨g', .head hs hs', ⟨hm.log, hm.submitted, hm.calls, hm.history, fun q hq => by
      rw [hm.others q hq, others_set _ _ _ _ hq]⟩, hd⟩

/-- **Convergence.** From every reachable state, with no further request, any replicas can commit the rest
of the log; each then reports the log's length and answers every read as all requests together say. -/
theorem replicas_converge (nu : Nuraft) (hlim : ∀ n, nu.fits n = true → n < 2 ^ 31)
    (db : ι → Nat → SplinterDB S) (view : S → Map Bytes Bytes) (hmap : ∀ r i, IsMap view (db r i)) (init : S)
    (hinit : ∀ k, view init k = none) (g : Group ι S) (hg : Reachable nu db init g) (rs : List ι) :
    ∃ g', Relation.ReflTransGen (Step nu db) g g' ∧ g'.log = g.log ∧ g'.submitted = g.submitted ∧
      g'.calls = g.calls ∧ g'.history = g.history ∧
      ∀ r ∈ rs, (g'.world.replicas r).sm.lastCommitIndex = g.log.length ∧ ∀ i k,
        AnswerOf g.submitted k (Server.handleGet (db r i) (g'.world.replicas r).sm.store k) := by
  have hall : ∃ g', Relation.ReflTransGen (Step nu db) g g' ∧ g'.log = g.log ∧ g'.submitted = g.submitted ∧
      g'.calls = g.calls ∧ g'.history = g.history ∧ ∀ r ∈ rs, Done g' r := by
    induction rs with
    | nil => exact ⟨g, .refl, rfl, rfl, rfl, rfl, fun r hr => by cases hr⟩
    | cons r rs ih =>
      obtain ⟨g₁, hs₁, hl₁, hsub₁, hc₁, hh₁, hd₁⟩ := ih
      obtain ⟨g₂, hs₂, hm, hd₂⟩ := catch_up hlim (Relation.ReflTransGen.trans hg hs₁) r
      refine ⟨g₂, hs₁.trans hs₂, hm.log.trans hl₁, hm.submitted.trans hsub₁, hm.calls.trans hc₁,
        hm.history.trans hh₁, fun q hq => ?_⟩
      by_cases hqr : q = r
      · exact hqr ▸ hd₂
      · have hd := hd₁ q ((List.mem_cons.1 hq).resolve_left hqr)
        unfold Done at hd ⊢
        rw [hm.others q hqr, hm.log]
        exact hd
  obtain ⟨g', hs, hlog, hsub, hcalls, hhist, hdone⟩ := hall
  refine ⟨g', hs, hlog, hsub, hcalls, hhist, fun r hr => ?_⟩
  obtain ⟨hc, h⟩ := reachable_inv (Relation.ReflTransGen.trans hg hs)
  obtain ⟨hhanded, hidle⟩ := hdone r hr
  have hidx : (g'.world.replicas r).sm.lastCommittedIdx = g.log.length := by
    rw [← hc.inStep r, hhanded, hlog]
  refine ⟨hidx, fun i k => ?_⟩
  have happ : g'.applied r = g.submitted.length := by
    rw [applied_eq, hidx, hidle, ← hsub, h.builds.length_eq, hlog]
    rfl
  have hans := answerOf_prefix hlim (hmap r) hinit h.builds i (g'.applied r) k
  rwa [← store_eq hc r, happ, hsub, List.take_length] at hans

/-- The replica that had not committed the put catches up with the one that had. -/
theorem replicas_converge_forwarded : ∃ g' : Group Bool (Map Bytes Bytes),
    ∀ r ∈ [true, false], (g'.world.replicas r).sm.lastCommitIndex = 1 ∧ ∀ (_ : Nat) k,
      AnswerOf [.request (.put [107] [118])] k (Server.handleGet mapDB (g'.world.replicas r).sm.store k) := by
  obtain ⟨g, hg, _, hsub, _⟩ := demo_session
  obtain ⟨g', _, _, _, _, _, hall⟩ := replicas_converge refNuraft refNuraft_fits (fun _ _ => mapDB) (fun m => m)
    (fun _ _ => isMap_mapDB) _ (fun _ => rfl) g hg [true, false]
  have hlen : g.log.length = 1 := by rw [← (reachable_inv hg).2.builds.length_eq, hsub]; rfl
  rw [hlen, hsub] at hall
  exact ⟨g', hall⟩

end Group

end ReplicatedSplinter
