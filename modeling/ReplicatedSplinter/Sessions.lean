import ReplicatedSplinter.Consistency
/-!
# Sessions: what a client may conclude from the answers it got

`Cluster.lean` fixes the log. Here it grows while the replicas commit it: a mutation RPC reaches some
server, NuRaft forwards it to the leader (`auto_forwarding_`, `replica.cpp:40`) and appends its entry,
and the handler answers once a state machine has committed the entry, or gives up. What clients see is
the `history`; its order is real time.

| here | there |
| --- | --- |
| `Step.invoke`       | a mutation RPC arrives (`server.cpp:130-155`) |
| `Step.append`       | `append_entries` in `append_log` (`replica.cpp:191-193`): the call's one entry enters the log |
| `Step.reconfigure`  | a configuration entry, as `add_srv` appends it (`replica.cpp:178-180`) |
| `Step.store`, `Step.index`, `Step.config` | `commit` and `commit_config`, as in `Cluster.lean`; `returned` keeps what `commit` returned |
| `Step.get`          | the GET handler (`server.cpp:118-128`) |
| `Step.reply`        | the handler returns `extract_result` of what `append_entries` gave (`server.cpp:130-155`) |
| `Promise`           | "`ret` already has the result from state machine" (`replica.cpp:195-199`), of a result whose code is OK |

A result with another code promises nothing: the entry may still be appended afterwards. `leader` is the
replica whose state machine produced the result; with forwarding it need not be the one that answers.
-/

namespace ReplicatedSplinter
open ByteCodec KeyValue ReplicatedLog

/-! ## The system -/

/-- A mutation RPC at a server: what it asks, and where in the log its entry stands once it has one. -/
structure Call (ι : Type) where
  server : ι
  req : MutationRpc
  entry : Option Nat
  replied : Bool

/-- What clients see. `seen` counts the entries that had taken effect where the answer was read. -/
inductive Event (ι : Type)
  | invoked (t : Nat)
  | replied (t : Nat) (leader : ι) (res : RpcMutationResult) (entry : Option Nat)
  | answered (a : Answer ι) (seen : Nat)

/-- How much of the log an event bears witness to: a reported success to its entry. -/
def Event.seen {ι : Type} : Event ι → Nat
  | .invoked _ => 0
  | .replied _ _ res entry => if res.isSuccess then entry.elim 0 (· + 1) else 0
  | .answered _ seen => seen

/-- The replica it was seen at. -/
def Event.replica? {ι : Type} : Event ι → Option ι
  | .invoked _ => none
  | .replied _ leader _ _ => some leader
  | .answered a _ => some a.replica

structure Group (ι S : Type) where
  log : List RaftEntry
  submitted : List Submitted
  world : World ι S
  /-- What `commit` returned for each entry a replica has consumed; a configuration entry returns nothing. -/
  returned : ι → List (Option Int32)
  calls : List (Call ι)
  history : List (Event ι)

namespace Group
variable {ι S : Type} [DecidableEq ι]

def start (init : S) : Group ι S := ⟨[], [], .start init, fun _ => [], [], []⟩

/-- The number of entries that have taken effect on a replica. -/
def applied (g : Group ι S) (r : ι) : Nat := (g.world.replicas r).node.applied

def record (g : Group ι S) (r : ι) (rc : Option Int32) : ι → List (Option Int32) :=
  Function.update g.returned r (g.returned r ++ [rc])

/-- A result with code OK means that the call's entry is in the log, that `leader` has committed it, and
that the buffer is the one `commit` returned there. -/
def Promise (nu : Nuraft) (g : Group ι S) (c : Call ι) (leader : ι) (a : RaftResult) : Prop :=
  a.resultCode = cmdResultOk → ∃ i rc buf, c.entry = some i ∧ i < (g.world.replicas leader).handed ∧
    (g.returned leader)[i]? = some (some rc) ∧ StateMachine.encodeResult nu rc = .ok buf ∧
    a.accepted = true ∧ a.hasResult = true ∧ a.result = some buf

inductive Step (nu : Nuraft) (db : ι → Nat → SplinterDB S) : Group ι S → Group ι S → Prop
  | invoke (g : Group ι S) (r : ι) (req : MutationRpc) :
      Step nu db g { g with
        calls := g.calls ++ [⟨r, req, none, false⟩]
        history := g.history ++ [.invoked g.calls.length] }
  | append (g : Group ι S) (t : Nat) (c : Call ι) (p : Bytes) :
      g.calls[t]? = some c → c.entry = none → Server.appendedPayload nu c.req = .ok p →
      Step nu db g { g with
        log := g.log ++ [.app p]
        submitted := g.submitted ++ [.request c.req]
        calls := g.calls.set t { c with entry := some g.log.length } }
  | reconfigure (g : Group ι S) :
      Step nu db g { g with log := g.log ++ [.config], submitted := g.submitted ++ [.config] }
  | store (g : Group ι S) (r : ι) (p : Bytes) (rc : Int32) (sm : StateMachine S) :
      (g.world.replicas r).committing = false → g.log[(g.world.replicas r).handed]? = some (.app p) →
      (g.world.replicas r).sm.commitStore nu (db r (g.world.replicas r).handed) p = (.ok rc, sm) →
      Step nu db g { g with
        world := g.world.set r ⟨sm, (g.world.replicas r).handed, true⟩
        returned := g.record r (some rc) }
  | index (g : Group ι S) (r : ι) :
      (g.world.replicas r).committing = true →
      Step nu db g { g with
        world := g.world.set r ⟨(g.world.replicas r).sm.setCommitted ((g.world.replicas r).handed + 1),
          (g.world.replicas r).handed + 1, false⟩ }
  | config (g : Group ι S) (r : ι) :
      (g.world.replicas r).committing = false → g.log[(g.world.replicas r).handed]? = some .config →
      Step nu db g { g with
        world := g.world.set r ⟨(g.world.replicas r).sm.commitConfig ((g.world.replicas r).handed + 1),
          (g.world.replicas r).handed + 1, false⟩
        returned := g.record r none }
  | get (g : Group ι S) (r : ι) (key : Bytes) (a : Answer ι) :
      a = ⟨r, key, (g.world.replicas r).sm.lastCommitIndex,
        Server.handleGet (db r (g.world.replicas r).handed) (g.world.replicas r).sm.store key⟩ →
      Step nu db g { g with
        world := { g.world with answers := g.world.answers ++ [a] }
        history := g.history ++ [.answered a (g.applied r)] }
  | reply (g : Group ι S) (t : Nat) (c : Call ι) (leader : ι) (a : RaftResult) (res : RpcMutationResult) :
      g.calls[t]? = some c → c.replied = false → Promise nu g c leader a →
      Server.handle nu (fun _ => .ok a) c.req = .ok res →
      Step nu db g { g with
        calls := g.calls.set t { c with replied := true }
        history := g.history ++ [.replied t leader res c.entry] }

def Reachable (nu : Nuraft) (db : ι → Nat → SplinterDB S) (init : S) (g : Group ι S) : Prop :=
  Relation.ReflTransGen (Step nu db) (start init) g

/-! ## A growing log is the fixed log seen from its end -/

omit [DecidableEq ι] in
theorem applied_eq (g : Group ι S) (r : ι) :
    g.applied r = (g.world.replicas r).sm.lastCommittedIdx + (g.world.replicas r).committing.toNat := rfl

variable {nu : Nuraft} {db : ι → Nat → SplinterDB S} {init : S} {g g' : Group ι S}

/-- A step that the first entries of a log allow is allowed by the whole log. -/
theorem cluster_step_append {log : List RaftEntry} {w w' : World ι S} (more : List RaftEntry)
    (hs : ReplicatedSplinter.Step nu db log w w') : ReplicatedSplinter.Step nu db (log ++ more) w w' := by
  have hget : ∀ (i : Nat) (e : RaftEntry), log[i]? = some e → (log ++ more)[i]? = some e := by
    intro i e he
    rw [List.getElem?_append_left (List.getElem?_eq_some_iff.1 he).1, he]
  cases hs with
  | store r p rc sm hb he hc => exact .store w r p rc sm hb (hget _ _ he) hc
  | index r hb => exact .index w r hb
  | config r hb he => exact .config w r hb (hget _ _ he)
  | get r key => exact .get w r key

theorem cluster_reachable_append {log : List RaftEntry} {w : World ι S} (more : List RaftEntry)
    (h : ReplicatedSplinter.Reachable nu db log init w) : ReplicatedSplinter.Reachable nu db (log ++ more) init w :=
  Relation.ReflTransGen.mono (fun _ _ hs => cluster_step_append more hs) _ _ h

/-- A step grows the log, or is a step of the cluster on the log as it stands, or concerns clients only. -/
theorem step_world (hs : Step nu db g g') :
    (∃ more, g'.log = g.log ++ more) ∧
      (g'.world = g.world ∨ (g'.log = g.log ∧ ReplicatedSplinter.Step nu db g.log g.world g'.world)) := by
  have hlog : ∃ more, g.log = g.log ++ more := ⟨[], (List.append_nil _).symm⟩
  cases hs with
  | invoke r req => exact ⟨hlog, .inl rfl⟩
  | append t c p hc he hp => exact ⟨⟨_, rfl⟩, .inl rfl⟩
  | reconfigure => exact ⟨⟨_, rfl⟩, .inl rfl⟩
  | store r p rc sm hb he hc => exact ⟨hlog, .inr ⟨rfl, .store _ r p rc sm hb he hc⟩⟩
  | index r hb => exact ⟨hlog, .inr ⟨rfl, .index _ r hb⟩⟩
  | config r hb he => exact ⟨hlog, .inr ⟨rfl, .config _ r hb he⟩⟩
  | get r key a ha => subst ha; exact ⟨hlog, .inr ⟨rfl, .get _ r key⟩⟩
  | reply t c l a res hc hr hp hh => exact ⟨hlog, .inl rfl⟩

/-- **Simulation.** A run of the group is a run of the cluster over the log it has built so far. -/
theorem world_reachable (h : Reachable nu db init g) :
    ReplicatedSplinter.Reachable nu db g.log init g.world := by
  induction h with
  | refl => exact .refl
  | tail _ hs ih =>
    obtain ⟨⟨more, hlog⟩, hw | ⟨heq, hstep⟩⟩ := step_world hs
    · rw [hw, hlog]
      exact cluster_reachable_append more ih
    · rw [heq]
      exact ih.tail hstep

/-! ## What a step keeps -/

/-- The log position of call `t`'s entry. -/
def position? (calls : List (Call ι)) (t : Nat) : Option Nat := calls[t]?.bind Call.entry

/-- Later states know everything earlier ones did, and give a call no position the log had already filled. -/
structure Extends (g g' : Group ι S) : Prop where
  log : g.log <+: g'.log
  submitted : g.submitted <+: g'.submitted
  req : ∀ (t : Nat) (c : Call ι), g.calls[t]? = some c → ∃ c', g'.calls[t]? = some c' ∧ c'.req = c.req
  entry : ∀ t i, position? g.calls t = some i → position? g'.calls t = some i
  fresh : ∃ u, ∀ t i, position? g'.calls t = some i → position? g.calls t = some i ∨ (t = u ∧ g.log.length ≤ i)
  applied : ∀ r, g.applied r ≤ g'.applied r

omit [DecidableEq ι] in
/-- Replacing call `t` by one with the same request, whose entry is the old one or a new position. -/
theorem calls_set {calls : List (Call ι)} {t : Nat} {c : Call ι} (c' : Call ι) (n : Nat) (hc : calls[t]? = some c)
    (hreq : c'.req = c.req) (he : c'.entry = c.entry ∨ (c.entry = none ∧ c'.entry = some n)) :
    (∀ (u : Nat) (d : Call ι), calls[u]? = some d → ∃ d', (calls.set t c')[u]? = some d' ∧ d'.req = d.req) ∧
    (∀ u i, position? calls u = some i → position? (calls.set t c') u = some i) ∧
    (∀ u i, position? (calls.set t c') u = some i → position? calls u = some i ∨ (u = t ∧ i = n)) := by
  have hlt : t < calls.length := (List.getElem?_eq_some_iff.1 hc).1
  have hself : (calls.set t c')[t]? = some c' := List.getElem?_set_self hlt
  have hother : ∀ u, u ≠ t → (calls.set t c')[u]? = calls[u]? := fun u hu => List.getElem?_set_ne (Ne.symm hu)
  refine ⟨fun u d hd => ?_, fun u i hi => ?_, fun u i hi => ?_⟩
  · by_cases hu : u = t
    · subst hu
      rw [hc, Option.some.injEq] at hd
      subst hd
      exact ⟨c', hself, hreq⟩
    · exact ⟨d, by rw [hother u hu, hd], rfl⟩
  · by_cases hu : u = t
    · subst hu
      simp only [position?, hc, hself, Option.bind_some] at hi ⊢
      rcases he with h | ⟨h, _⟩
      · rw [h, hi]
      · rw [h] at hi; cases hi
    · simp only [position?, hother u hu] at hi ⊢
      exact hi
  · by_cases hu : u = t
    · subst hu
      simp only [position?, hself, Option.bind_some] at hi
      rcases he with h | ⟨_, h⟩
      · exact .inl (by simp only [position?, hc, Option.bind_some, ← h, hi])
      · rw [h, Option.some.injEq] at hi
        exact .inr ⟨rfl, hi.symm⟩
    · simp only [position?, hother u hu] at hi ⊢
      exact .inl hi

theorem applied_le (h : InStep g.world) (hs : Step nu db g g') (r : ι) : g.applied r ≤ g'.applied r := by
  obtain ⟨_, hw | ⟨_, hstep⟩⟩ := step_world hs
  · simp only [applied, hw]; exact Nat.le_refl _
  · exact applied_le_steps (step_sim h hstep r)

theorem extends_step (h : InStep g.world) (hs : Step nu db g g') : Extends g g' := by
  have happ := applied_le h hs
  have same : ∀ (t : Nat) (c : Call ι), g.calls[t]? = some c → ∃ c', g.calls[t]? = some c' ∧ c'.req = c.req :=
    fun t c hc => ⟨c, hc, rfl⟩
  have old : ∃ u, ∀ t i, position? g.calls t = some i → position? g.calls t = some i ∨ (t = u ∧ g.log.length ≤ i) :=
    ⟨0, fun _ _ h => .inl h⟩
  cases hs with
  | invoke r req =>
    have hold : ∀ t, t < g.calls.length → (g.calls ++ [⟨r, req, none, false⟩])[t]? = g.calls[t]? :=
      fun t ht => List.getElem?_append_left ht
    refine ⟨List.prefix_refl _, List.prefix_refl _, fun t c hc => ⟨c, ?_, rfl⟩, fun t i hi => ?_,
      ⟨0, fun t i hi => ?_⟩, happ⟩
    · simp only [hold t (List.getElem?_eq_some_iff.1 hc).1, hc]
    · obtain ⟨c, hc, hci⟩ := Option.bind_eq_some_iff.1 hi
      simp only [position?, hold t (List.getElem?_eq_some_iff.1 hc).1, hc, Option.bind_some, hci]
    · left
      obtain ⟨c, hc, hci⟩ := Option.bind_eq_some_iff.1 hi
      rcases Nat.lt_or_ge t g.calls.length with ht | ht
      · rw [hold t ht] at hc
        simp only [position?, hc, Option.bind_some, hci]
      · have hnew := List.mem_of_getElem? (i := t - g.calls.length) (by rw [← List.getElem?_append_right ht]; exact hc)
        rw [List.mem_singleton] at hnew
        subst hnew
        cases hci
  | append t c p hc he hp =>
    obtain ⟨h1, h2, h3⟩ := calls_set { c with entry := some g.log.length } g.log.length hc rfl
      (.inr ⟨he, rfl⟩)
    exact ⟨List.prefix_append _ _, List.prefix_append _ _, h1, h2,
      ⟨t, fun u i hi => (h3 u i hi).imp_right fun h => ⟨h.1, Nat.le_of_eq h.2.symm⟩⟩, happ⟩
  | reconfigure =>
    exact ⟨List.prefix_append _ _, List.prefix_append _ _, same, fun _ _ h => h, old, happ⟩
  | store r p rc sm hb he hc =>
    exact ⟨List.prefix_refl _, List.prefix_refl _, same, fun _ _ h => h, old, happ⟩
  | index r hb =>
    exact ⟨List.prefix_refl _, List.prefix_refl _, same, fun _ _ h => h, old, happ⟩
  | config r hb he =>
    exact ⟨List.prefix_refl _, List.prefix_refl _, same, fun _ _ h => h, old, happ⟩
  | get r key a ha =>
    exact ⟨List.prefix_refl _, List.prefix_refl _, same, fun _ _ h => h, old, happ⟩
  | reply t c l a res hc hr hp hh =>
    obtain ⟨h1, h2, h3⟩ := calls_set { c with replied := true } g.log.length hc rfl (.inl rfl)
    exact ⟨List.prefix_refl _, List.prefix_refl _, h1, h2,
      ⟨t, fun u i hi => (h3 u i hi).imp_right fun h => ⟨h.1, Nat.le_of_eq h.2.symm⟩⟩, happ⟩

/-! ## What holds in every reachable state -/

/-- Entry `i` is a payload whose SplinterDB call returned `rc` on replica `r`, after the `i` entries before it. -/
def CodeOf (nu : Nuraft) (db : ι → Nat → SplinterDB S) (init : S) (log : List RaftEntry) (r : ι) (i : Nat)
    (rc : Int32) : Prop :=
  ∃ p call, log[i]? = some (.app p) ∧ StateMachine.commitCall nu p = .ok call ∧
    ((db r i).exec call (prefixState (applyEntry nu (db r)) init log i)).1 = rc

/-- A reported success is one: the call has its entry, `leader` has applied it, and SplinterDB returned 0
there. An answer is what `seen` entries give. -/
def Sound (nu : Nuraft) (db : ι → Nat → SplinterDB S) (init : S) (g : Group ι S) : Event ι → Prop
  | .invoked _ => True
  | .replied t leader res entry => res.isSuccess = true → ∃ i, entry = some i ∧ position? g.calls t = some i ∧
      i < g.applied leader ∧ CodeOf nu db init g.log leader i 0
  | .answered a seen => seen ≤ g.applied a.replica ∧ ∃ i, a.result =
      Server.handleGet (db a.replica i) (prefixState (applyEntry nu (db a.replica)) init g.log seen) a.key

/-- What real time asks of two events, the first before the second: a read sees at least what was seen at
its replica before, and a call made later gets a later position. -/
def Before (calls : List (Call ι)) (e : Event ι) : Event ι → Prop
  | .invoked t => ∀ i, position? calls t = some i → e.seen ≤ i
  | .replied _ _ _ _ => True
  | .answered a seen => e.replica? = some a.replica → e.seen ≤ seen

structure Inv (nu : Nuraft) (db : ι → Nat → SplinterDB S) (init : S) (g : Group ι S) : Prop where
  builds : List.Forall₂ (Submitted.BuildsEntry nu) g.submitted g.log
  entries : ∀ (t : Nat) (c : Call ι) i, g.calls[t]? = some c → c.entry = some i →
    g.submitted[i]? = some (.request c.req)
  distinct : ∀ t t' i, position? g.calls t = some i → position? g.calls t' = some i → t = t'
  returned_length : ∀ r, (g.returned r).length = g.applied r
  returned : ∀ r (i : Nat) rc, (g.returned r)[i]? = some (some rc) → CodeOf nu db init g.log r i rc
  sound : ∀ e ∈ g.history, Sound nu db init g e
  ordered : g.history.Pairwise (Before g.calls)

omit [DecidableEq ι] in
theorem CodeOf.append {log : List RaftEntry} {r : ι} {i : Nat} {rc : Int32} (more : List RaftEntry)
    (h : CodeOf nu db init log r i rc) : CodeOf nu db init (log ++ more) r i rc := by
  obtain ⟨p, call, hp, hcall, hrc⟩ := h
  have hi : i < log.length := (List.getElem?_eq_some_iff.1 hp).1
  refine ⟨p, call, by rw [List.getElem?_append_left hi, hp], hcall, ?_⟩
  rw [prefixState_append _ _ _ _ (Nat.le_of_lt hi), hrc]

omit [DecidableEq ι] in
theorem applied_le_length (hc : ReplicatedSplinter.Inv nu db g.log init g.world) (r : ι) :
    g.applied r ≤ g.log.length := (hc.atPrefix r).le

omit [DecidableEq ι] in
theorem Sound.extends (hc : ReplicatedSplinter.Inv nu db g.log init g.world) (hx : Extends g g') {e : Event ι}
    (h : Sound nu db init g e) : Sound nu db init g' e := by
  obtain ⟨more, hlog⟩ := hx.log
  cases e with
  | invoked t => trivial
  | replied t l res entry =>
    intro hres
    obtain ⟨i, he, hi, hlt, hcode⟩ := h hres
    exact ⟨i, he, hx.entry t i hi, Nat.lt_of_lt_of_le hlt (hx.applied l), hlog ▸ hcode.append more⟩
  | answered a seen =>
    obtain ⟨hle, i, hres⟩ := h
    refine ⟨Nat.le_trans hle (hx.applied _), i, ?_⟩
    rw [← hlog, prefixState_append _ _ _ _ (Nat.le_trans hle (applied_le_length hc _)), hres]

omit [DecidableEq ι] in
/-- What an event has seen has been applied where it was seen, and is in the log. -/
theorem Sound.seen_le (hc : ReplicatedSplinter.Inv nu db g.log init g.world) {e : Event ι}
    (h : Sound nu db init g e) : e.seen ≤ g.log.length ∧ ∀ r, e.replica? = some r → e.seen ≤ g.applied r := by
  have key : ∀ r, e.seen ≤ g.applied r → e.replica? = some r →
      e.seen ≤ g.log.length ∧ ∀ r, e.replica? = some r → e.seen ≤ g.applied r := by
    intro r hle hr
    refine ⟨Nat.le_trans hle (applied_le_length hc r), fun q hq => ?_⟩
    rw [hr, Option.some.injEq] at hq
    exact hq ▸ hle
  cases e with
  | invoked t => exact ⟨Nat.zero_le _, fun _ _ => Nat.zero_le _⟩
  | replied t l res entry =>
    refine key l ?_ rfl
    by_cases hres : res.isSuccess = true
    · obtain ⟨i, rfl, _, hlt, _⟩ := h hres
      simp only [Event.seen, if_pos hres, Option.elim_some]
      exact hlt
    · simp [Event.seen, hres]
  | answered a seen => exact key a.replica h.1 rfl

omit [DecidableEq ι] in
/-- An order between two events survives: a call that had no entry gets one past everything seen. -/
theorem Before.extends (hx : Extends g g') {e e' : Event ι} (hle : e.seen ≤ g.log.length)
    (h : Before g.calls e e') : Before g'.calls e e' := by
  cases e' with
  | invoked t =>
    intro i hi
    obtain ⟨u, hu⟩ := hx.fresh
    rcases hu t i hi with hold | ⟨_, hnew⟩
    · exact h i hold
    · exact Nat.le_trans hle hnew
  | replied t l res entry => trivial
  | answered a seen => exact h

theorem builds_step (h : List.Forall₂ (Submitted.BuildsEntry nu) g.submitted g.log) (hs : Step nu db g g') :
    List.Forall₂ (Submitted.BuildsEntry nu) g'.submitted g'.log := by
  cases hs with
  | append t c p hc he hp => exact List.rel_append h (.cons (.request c.req p hp) .nil)
  | reconfigure => exact List.rel_append h (.cons .config .nil)
  | _ => exact h

theorem entries_step (hb : List.Forall₂ (Submitted.BuildsEntry nu) g.submitted g.log)
    (h : ∀ (t : Nat) (c : Call ι) i, g.calls[t]? = some c → c.entry = some i → g.submitted[i]? = some (.request c.req))
    (hs : Step nu db g g') (u : Nat) (d : Call ι) (i : Nat) (hd : g'.calls[u]? = some d) (hi : d.entry = some i) :
    g'.submitted[i]? = some (.request d.req) := by
  have hold : ∀ {more : List Submitted} {j : Nat} {x : Submitted}, g.submitted[j]? = some x →
      (g.submitted ++ more)[j]? = some x := fun hx => by
    rw [List.getElem?_append_left (List.getElem?_eq_some_iff.1 hx).1, hx]
  cases hs with
  | invoke r req =>
    rcases List.mem_append.1 (List.mem_of_getElem? hd) with hmem | hmem
    · obtain ⟨v, hv⟩ := List.mem_iff_getElem?.1 hmem
      exact h v d i hv hi
    · rw [List.mem_singleton] at hmem
      subst hmem
      cases hi
  | append t c p hc he hp =>
    rw [List.getElem?_set] at hd
    split at hd
    · split at hd
      · cases hd
        cases hi
        simp only [← hb.length_eq, List.getElem?_concat_length]
      · cases hd
    · exact hold (h u d i hd hi)
  | reconfigure => exact hold (h u d i hd hi)
  | reply t c l a res hc hr hp hh =>
    rw [List.getElem?_set] at hd
    split at hd
    · split at hd
      · cases hd
        exact h t c i hc hi
      · cases hd
    · exact h u d i hd hi
  | _ => exact h u d i hd hi

omit [DecidableEq ι] in
theorem distinct_step (h : Inv nu db init g) (hx : Extends g g') (t t' i : Nat) (ht : position? g'.calls t = some i)
    (ht' : position? g'.calls t' = some i) : t = t' := by
  have hlt : ∀ v, position? g.calls v = some i → i < g.log.length := by
    intro v hv
    obtain ⟨c, hc, hci⟩ := Option.bind_eq_some_iff.1 hv
    rw [← h.builds.length_eq]
    exact (List.getElem?_eq_some_iff.1 (h.entries v c i hc hci)).1
  obtain ⟨u, hu⟩ := hx.fresh
  rcases hu t i ht with h1 | ⟨rfl, h1⟩
  · rcases hu t' i ht' with h2 | ⟨_, h2⟩
    · exact h.distinct t t' i h1 h2
    · have := hlt t h1
      omega
  · rcases hu t' i ht' with h2 | ⟨rfl, _⟩
    · have := hlt t' h2
      omega
    · rfl

theorem returned_length_step (hc : InStep g.world) (h : ∀ r, (g.returned r).length = g.applied r)
    (hs : Step nu db g g') (q : ι) : (g'.returned q).length = g'.applied q := by
  have hq := h q
  have hin := hc q
  cases hs with
  | store r p rc sm hb he hcs =>
    obtain ⟨call, _, _, rfl⟩ := commitStore_eq_ok hcs
    by_cases hqr : q = r
    · subst hqr
      simpa [record, applied, World.set, Replica.node, Node.applied, hb] using hq
    · simpa [record, applied, World.set, hqr] using hq
  | index r hb =>
    by_cases hqr : q = r
    · subst hqr
      simpa [applied, World.set, Replica.node, Node.applied, StateMachine.setCommitted, hb, hin] using hq
    · simpa [applied, World.set, hqr] using hq
  | config r hb he =>
    by_cases hqr : q = r
    · subst hqr
      simpa [record, applied, World.set, Replica.node, Node.applied, StateMachine.commitConfig,
        StateMachine.setCommitted, hb, hin] using hq
    · simpa [record, applied, World.set, hqr] using hq
  | _ => exact hq

omit [DecidableEq ι] in
/-- Outside `commit` a replica's store is the state after the entries it was handed. -/
theorem store_eq (hc : ReplicatedSplinter.Inv nu db g.log init g.world) (r : ι) :
    (g.world.replicas r).sm.store = prefixState (applyEntry nu (db r)) init g.log (g.applied r) :=
  (hc.atPrefix r).state_eq

theorem returned_step (hc : ReplicatedSplinter.Inv nu db g.log init g.world) (h : Inv nu db init g)
    (hs : Step nu db g g') (q : ι) (i : Nat) (c : Int32) (hq : (g'.returned q)[i]? = some (some c)) :
    CodeOf nu db init g'.log q i c := by
  -- only a replica that has just consumed an entry has a new result, for that entry
  have hrec : ∀ {r : ι} {o : Option Int32}, (g.record r o q)[i]? = some (some c) →
      (g.returned q)[i]? = some (some c) ∨ (q = r ∧ i = g.applied q ∧ o = some c) := by
    intro r o ho
    by_cases hqr : q = r
    · subst hqr
      simp only [record, Function.update_self, List.getElem?_append, h.returned_length] at ho
      split at ho
      · exact .inl ho
      · rename_i hge
        cases hk : i - g.applied q with
        | zero =>
          rw [hk] at ho
          exact .inr ⟨rfl, by omega, by simpa using ho⟩
        | succ k => simp [hk] at ho
    · simp only [record, Function.update_of_ne hqr] at ho
      exact .inl ho
  cases hs with
  | append t c p hc he hp => exact (h.returned q i _ hq).append _
  | reconfigure => exact (h.returned q i _ hq).append _
  | store r p rc sm hb he hcs =>
    rcases hrec hq with hold | ⟨rfl, hi, hrc⟩
    · exact h.returned q i c hold
    · obtain ⟨call, hcall, hcode, _⟩ := commitStore_eq_ok hcs
      have happ : g.applied q = (g.world.replicas q).handed := by
        rw [applied_eq, hb, hc.inStep q]; rfl
      rw [happ] at hi
      subst hi
      refine ⟨p, call, he, hcall, ?_⟩
      rw [← happ, ← store_eq hc q, happ, ← hcode]
      exact Option.some.inj hrc
  | config r hb he =>
    rcases hrec hq with hold | ⟨_, _, hrc⟩
    · exact h.returned q i c hold
    · cases hrc
  | _ => exact h.returned q i c hq

omit [DecidableEq ι] in
/-- What a handler reports as a success was one on the leader. -/
theorem reply_sound (h : Inv nu db init g) (hin : InStep g.world) {t : Nat} {c : Call ι} {l : ι} {a : RaftResult}
    {res : RpcMutationResult} (hc : g.calls[t]? = some c) (hp : Promise nu g c l a)
    (hh : Server.handle nu (fun _ => .ok a) c.req = .ok res) :
    Sound nu db init g (.replied t l res c.entry) := by
  intro hres
  rw [Server.handle_eq] at hh
  have hx : Server.extractResult nu a = .ok res := by
    cases hpay : Server.appendedPayload nu c.req with
    | error err => rw [hpay] at hh; cases hh
    | ok p => rwa [hpay] at hh
  simp only [RpcMutationResult.isSuccess, RpcMutationResult.wasAccepted, Bool.and_eq_true, beq_iff_eq] at hres
  have hok : a.resultCode = cmdResultOk := (Server.extractResult_raftRc hx).symm.trans hres.2
  obtain ⟨i, rc, buf, he, hlt, hret, henc, hacc, hhas, hbuf⟩ := hp hok
  have hrc := Server.extractResult_code (Or.inr ⟨buf, henc, hbuf⟩ : Server.ResultOfCommit nu a rc)
  rw [hx, Except.ok.injEq, if_pos ⟨hacc, hhas, by rw [hbuf]; exact Option.some_ne_none _⟩] at hrc
  have hzero : rc = 0 := by rw [← hres.1, hrc]
  refine ⟨i, he, by simp only [position?, hc, Option.bind_some, he], ?_, hzero ▸ h.returned l i rc hret⟩
  rw [applied_eq, ← hin l]
  omega

theorem sound_step (hc : ReplicatedSplinter.Inv nu db g.log init g.world) (h : Inv nu db init g)
    (hs : Step nu db g g') (e : Event ι) (he : e ∈ g'.history) : Sound nu db init g' e := by
  have hx := extends_step hc.inStep hs
  have hold : e ∈ g.history → Sound nu db init g' e := fun hm => (h.sound e hm).extends hc hx
  cases hs with
  | invoke r req =>
    rcases List.mem_append.1 he with hm | hm
    · exact hold hm
    · rw [List.mem_singleton] at hm
      subst hm
      trivial
  | get r key a ha =>
    rcases List.mem_append.1 he with hm | hm
    · exact hold hm
    · rw [List.mem_singleton] at hm
      subst hm ha
      exact ⟨Nat.le_refl _, (g.world.replicas r).handed, by rw [← store_eq hc r]⟩
  | reply t c l a res hcall hr hp hh =>
    rcases List.mem_append.1 he with hm | hm
    · exact hold hm
    · rw [List.mem_singleton] at hm
      subst hm
      exact (reply_sound h hc.inStep hcall hp hh).extends hc hx
  | _ => exact hold he

theorem ordered_step (hc : ReplicatedSplinter.Inv nu db g.log init g.world) (h : Inv nu db init g)
    (hs : Step nu db g g') : g'.history.Pairwise (Before g'.calls) := by
  have hx := extends_step hc.inStep hs
  have hseen := fun e he => (h.sound e he).seen_le hc
  have hold : g.history.Pairwise (Before g'.calls) :=
    h.ordered.imp_of_mem fun he _ hb => hb.extends hx (hseen _ he).1
  have hadd : ∀ e', (∀ e ∈ g.history, Before g'.calls e e') → (g.history ++ [e']).Pairwise (Before g'.calls) := by
    intro e' he'
    refine List.pairwise_append.2 ⟨hold, List.pairwise_singleton _ _, fun e he x hx => ?_⟩
    rw [List.mem_singleton] at hx
    exact hx ▸ he' e he
  cases hs with
  | invoke r req =>
    refine hadd _ fun e _ i hi => ?_
    simp [position?] at hi
  | get r key a ha =>
    subst ha
    exact hadd _ fun e he hr => (hseen e he).2 r hr
  | reply t c l a res hcall hr hp hh => exact hadd _ fun e _ => trivial
  | _ => exact hold

theorem inv_step (hc : ReplicatedSplinter.Inv nu db g.log init g.world) (h : Inv nu db init g)
    (hs : Step nu db g g') : Inv nu db init g' where
  builds := builds_step h.builds hs
  entries := entries_step h.builds h.entries hs
  distinct := distinct_step h (extends_step hc.inStep hs)
  returned_length := returned_length_step hc.inStep h.returned_length hs
  returned := returned_step hc h hs
  sound := sound_step hc h hs
  ordered := ordered_step hc h hs

omit [DecidableEq ι] in
theorem inv_start : Inv nu db init (start init : Group ι S) where
  builds := .nil
  entries := fun t c i hc _ => by simp [start] at hc
  distinct := fun t t' i ht _ => by simp [start, position?] at ht
  returned_length := fun _ => rfl
  returned := fun r i rc hr => by simp [start] at hr
  sound := fun e he => by simp [start] at he
  ordered := .nil

theorem reachable_inv (h : Reachable nu db init g) :
    ReplicatedSplinter.Inv nu db g.log init g.world ∧ Inv nu db init g := by
  refine ⟨ReplicatedSplinter.reachable_inv (world_reachable h), ?_⟩
  induction h with
  | refl => exact inv_start
  | tail hg hs ih => exact inv_step (ReplicatedSplinter.reachable_inv (world_reachable hg)) ih hs

end Group

end ReplicatedSplinter
