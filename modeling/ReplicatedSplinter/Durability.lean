import ReplicatedSplinter.LogRefinement
/-!
# The emulated disk of the log store

With a delay set (`set_disk_delay`), the log store keeps a map from points in time to indices, "emulating
logs that is being written to disk", and a thread that moves `last_durable_index()` on as time passes.

| here | there |
| --- | --- |
| `DiskStore`       | `inmem_log_store` with its emulation (`in_memory_log_store.h:79-132`) |
| `append`, `writeAt`, `flush`, `lastDurableIndex` | `in_memory_log_store.cpp:78-121`, `:291-294`, `:308-315` |
| `passLoop`, `pass` | what `disk_emul_loop` does under the lock (`:330-343`), and whether it notifies (`:351`) |
| `Written`         | which entry was written when, and the time of the thread's last pass |

`last_durable_index_exact`: as long as the clock moves on between two writes, nothing that has had its time is
missing, and as long as nothing is overwritten nothing is reported early. `overwritten_reported_early` is a run
where an overwrite is: `write_at` forgets what was being written above its index (`:109-117`), not at it.
The thread reads the clock before it takes the lock, so a pass may be at an earlier time than the last write.
How long it sleeps is left out; so is what NuRaft does when it is notified.
-/

namespace ReplicatedSplinter
open ByteCodec Std

/-- `disk_emul_delay` is in milliseconds, the clock in microseconds. -/
structure DiskStore where
  store : LogStore
  delay : Nat
  beingWritten : ExtTreeMap Nat Nat
  lastDurable : Nat

namespace DiskStore

/-- A new log store with a delay set. -/
def new (nu : Nuraft) (delay : Nat) : DiskStore := ⟨.new nu, delay, ∅, 0⟩

def append (d : DiskStore) (now : Nat) (e : LogEntry) : Nat × DiskStore :=
  let (idx, store) := d.store.append e
  (idx, { d with
    store := store
    beingWritten := if d.delay ≠ 0 then d.beingWritten.insert ((now + d.delay * 1000) % 2 ^ 64) idx
      else d.beingWritten })

/-- "Remove entries greater than `index`": those whose log index is. -/
def forgetAbove (m : ExtTreeMap Nat Nat) (index : Nat) : ExtTreeMap Nat Nat :=
  OrderedMap.eraseWhere m fun ts => decide (index < m.getD ts 0)

def writeAt (d : DiskStore) (now index : Nat) (e : LogEntry) : DiskStore :=
  { d with
    store := d.store.writeAt index e
    beingWritten := if d.delay ≠ 0 then
        forgetAbove (d.beingWritten.insert ((now + d.delay * 1000) % 2 ^ 64) index) index
      else d.beingWritten }

def flush (d : DiskStore) : DiskStore := { d with lastDurable := (d.store.nextSlot + (2 ^ 64 - 1)) % 2 ^ 64 }

def lastDurableIndex (d : DiskStore) : Nat :=
  if d.delay = 0 then (d.store.nextSlot + (2 ^ 64 - 1)) % 2 ^ 64 else d.lastDurable

/-- The loop over the map, at the points in time that are left. -/
def passLoop (now : Nat) : List Nat → ExtTreeMap Nat Nat → Nat → Bool → ExtTreeMap Nat Nat × Nat × Bool
  | [], m, durable, notify => (m, durable, notify)
  | ts :: rest, m, durable, notify =>
    if ts ≤ now then passLoop now rest (m.erase ts) (m.getD ts durable) true else (m, durable, notify)

def pass (d : DiskStore) (now : Nat) : DiskStore × Bool :=
  let (m, durable, notify) := passLoop now d.beingWritten.keys d.beingWritten d.lastDurable false
  ({ d with beingWritten := m, lastDurable := durable }, notify)

end DiskStore

/-! ## Calls at points in time -/

inductive DiskOp
  | log (op : LogOp)
  | flush
  | pass

namespace DiskOp

/-- The store after a call at a time; `none` if it throws or does not return. -/
def run (nu : Nuraft) (d : DiskStore) (now : Nat) : DiskOp → Option DiskStore
  | .log (.append e) => some (d.append now e).2
  | .log (.writeAt i e) => some (d.writeAt now i e)
  | .log op => (op.run nu d.store).map fun store => { d with store := store }
  | .flush => some d.flush
  | .pass => some (d.pass now).1

def runAll (nu : Nuraft) (d : DiskStore) (ops : List (Nat × DiskOp)) : Option DiskStore :=
  ops.foldlM (fun d p => p.2.run nu d p.1) d

end DiskOp

/-- What was written when: the log, the time of the last write at each index and of the last write at all, and
the time of the thread's last pass. -/
structure Written where
  log : IndexedLog LogEntry
  time : Nat → Nat
  lastWrite : Nat
  lastPass : Nat

namespace Written

def start : Written := ⟨.empty, fun _ => 0, 0, 0⟩

def step (w : Written) (now : Nat) : DiskOp → Written
  | .log (.append e) => ⟨w.log.append e, Function.update w.time w.log.next now, now, w.lastPass⟩
  | .log (.writeAt i e) => ⟨w.log.writeAt i e, Function.update w.time i now, now, w.lastPass⟩
  | .log op => { w with log := op.spec w.log }
  | .flush => w
  | .pass => { w with lastPass := now }

def runAll (w : Written) (ops : List (Nat × DiskOp)) : Written := ops.foldl (fun w p => w.step p.1 p.2) w

/-- The clock when an entry is written: it has moved on since the last one, and is not behind the thread. -/
def Tick (w : Written) (delay now : Nat) : Prop :=
  w.lastWrite < now ∧ w.lastPass ≤ now ∧ now + delay * 1000 < 2 ^ 64

end Written

namespace DiskOp

/-- A call that is allowed, at a time that is. Packs and `flush` do not go through the emulation. -/
def Timely (nu : Nuraft) (d : DiskStore) (w : Written) (now : Nat) : DiskOp → Prop
  | .log (.append e) => (LogOp.append e).Allowed nu d.store ∧ w.Tick d.delay now
  | .log (.writeAt i e) => (LogOp.writeAt i e).Allowed nu d.store ∧ w.Tick d.delay now
  | .log (.compact j) => (LogOp.compact j).Allowed nu d.store
  | .log (.applyPack _ _ _) => False
  | .flush => False
  | .pass => w.lastPass ≤ now

/-- Nothing is overwritten. -/
def AtEnd (d : DiskStore) : DiskOp → Prop
  | .log (.writeAt i _) => i = d.store.nextSlot
  | _ => True

/-- Each call of the sequence has the property in the state the calls before it lead to. -/
def Every (nu : Nuraft) (P : DiskStore → Written → Nat → DiskOp → Prop) :
    DiskStore → Written → List (Nat × DiskOp) → Prop
  | _, _, [] => True
  | d, w, (now, op) :: ops => P d w now op ∧ ∀ d', op.run nu d now = some d' → Every nu P d' (w.step now op) ops

end DiskOp

/-! ## One pass of the thread -/

namespace DiskStore

/-- What is due is gone, and the index is that of the latest of it. -/
theorem passLoop_spec (now : Nat) (ks : List Nat) (m : ExtTreeMap Nat Nat) (durable : Nat) (notify : Bool)
    (hks : ks.Pairwise (· < ·)) (hm : ∀ ts, ts ∈ m ↔ ts ∈ ks) :
    (∀ ts : Nat, (passLoop now ks m durable notify).1[ts]? = if ts ≤ now then none else m[ts]?) ∧
    ((∃ ts j : Nat, m[ts]? = some j ∧ ts ≤ now ∧ (∀ ts' ∈ m, ts' ≤ now → ts' ≤ ts) ∧
        (passLoop now ks m durable notify).2 = (j, true)) ∨
      ((∀ ts ∈ m, now < ts) ∧ (passLoop now ks m durable notify).2 = (durable, notify))) := by
  induction ks generalizing m durable notify with
  | nil =>
    have hnone : ∀ ts : Nat, m[ts]? = none := fun ts =>
      ExtTreeMap.getElem?_eq_none fun hts => List.not_mem_nil ((hm ts).1 hts)
    refine ⟨fun ts => ?_, .inr ⟨fun ts hts => absurd ((hm ts).1 hts) List.not_mem_nil, rfl⟩⟩
    rw [passLoop, hnone]
    split <;> rfl
  | cons ts rest ih =>
    obtain ⟨hlt, hrest⟩ := List.pairwise_cons.1 hks
    by_cases hdue : ts ≤ now
    · obtain ⟨j, hj⟩ : ∃ j, m[ts]? = some j :=
        Option.isSome_iff_exists.1 (ExtTreeMap.mem_iff_isSome_getElem?.1 ((hm ts).2 List.mem_cons_self))
      have hget : ∀ k : Nat, (m.erase ts)[k]? = if k = ts then none else m[k]? := by
        intro k
        rw [ExtTreeMap.getElem?_erase]
        by_cases hk : k = ts
        · simp [hk]
        · simp [hk, Ne.symm hk]
      have hm' : ∀ k, k ∈ m.erase ts ↔ k ∈ rest := by
        intro k
        rw [ExtTreeMap.mem_iff_isSome_getElem?, hget]
        by_cases hk : k = ts
        · subst hk
          simpa using fun hin => Nat.lt_irrefl _ (hlt k hin)
        · rw [if_neg hk, ← ExtTreeMap.mem_iff_isSome_getElem?, hm, List.mem_cons]
          simp [hk]
      obtain ⟨hmap, hidx⟩ := ih (m.erase ts) (m.getD ts durable) true hrest hm'
      rw [passLoop, if_pos hdue]
      have hgetD : m.getD ts durable = j := by
        rw [ExtTreeMap.getD_eq_getD_getElem?, hj, Option.getD_some]
      refine ⟨fun k => ?_, .inl ?_⟩
      · rw [hmap, hget]
        by_cases hk : k = ts
        · simp [hk, hdue]
        · simp [hk]
      · rcases hidx with ⟨ts', j', hj', hdue', hmax, heq⟩ | ⟨hnone, heq⟩
        · rw [hget] at hj'
          have hne : ts' ≠ ts := by
            rintro rfl
            simp at hj'
          rw [if_neg hne] at hj'
          have hin : ts' ∈ rest := by
            have hmem := (hm ts').1 (ExtTreeMap.mem_iff_isSome_getElem?.2 (by rw [hj']; rfl))
            exact (List.mem_cons.1 hmem).resolve_left hne
          refine ⟨ts', j', hj', hdue', fun k hk hkdue => ?_, heq⟩
          rcases List.mem_cons.1 ((hm k).1 hk) with rfl | hkr
          · exact Nat.le_of_lt (hlt ts' hin)
          · exact hmax k ((hm' k).2 hkr) hkdue
        · refine ⟨ts, j, hj, hdue, fun k hk hkdue => ?_, by rw [heq, hgetD]⟩
          rcases List.mem_cons.1 ((hm k).1 hk) with rfl | hkr
          · exact Nat.le_refl _
          · exact absurd (hnone k ((hm' k).2 hkr)) (Nat.not_lt.2 hkdue)
    · have hnone : ∀ k ∈ m, now < k := by
        intro k hk
        rcases List.mem_cons.1 ((hm k).1 hk) with rfl | hkr
        · omega
        · have := hlt k hkr
          omega
      rw [passLoop, if_neg hdue]
      refine ⟨fun k => ?_, .inr ⟨hnone, rfl⟩⟩
      by_cases hk : k ≤ now
      · rw [if_pos hk]
        exact ExtTreeMap.getElem?_eq_none fun hin => absurd (hnone k hin) (by omega)
      · rw [if_neg hk]

theorem pass_spec (d : DiskStore) (now : Nat) :
    (∀ ts : Nat, (d.pass now).1.beingWritten[ts]? = if ts ≤ now then none else d.beingWritten[ts]?) ∧
    ((∃ ts j : Nat, d.beingWritten[ts]? = some j ∧ ts ≤ now ∧ (∀ ts' ∈ d.beingWritten, ts' ≤ now → ts' ≤ ts) ∧
        (d.pass now).1.lastDurable = j) ∨
      ((∀ ts ∈ d.beingWritten, now < ts) ∧ (d.pass now).1.lastDurable = d.lastDurable)) := by
  have hord : d.beingWritten.keys.Pairwise (· < ·) :=
    (ExtTreeMap.ordered_keys (t := d.beingWritten)).imp fun h => Nat.compare_eq_lt.1 h
  obtain ⟨hmap, hidx⟩ := passLoop_spec now d.beingWritten.keys d.beingWritten d.lastDurable false hord
    fun ts => ExtTreeMap.mem_keys.symm
  refine ⟨hmap, hidx.imp ?_ ?_⟩
  · rintro ⟨ts, j, hj, hdue, hmax, heq⟩
    exact ⟨ts, j, hj, hdue, hmax, congrArg Prod.fst heq⟩
  · rintro ⟨hnone, heq⟩
    exact ⟨hnone, congrArg Prod.fst heq⟩

/-! ## What holds along a run -/

/-- Every entry in the log is being written or has been reported, whatever is being written since then is not
below it, and no point in time in the map has passed. -/
structure Inv (nu : Nuraft) (d : DiskStore) (w : Written) : Prop where
  refines : Refines nu d.store w.log
  delay : d.delay ≠ 0
  sorted : ∀ i j, w.log.start ≤ i → i < j → j < w.log.next → w.time i < w.time j
  time_le : ∀ i, w.log.start ≤ i → i < w.log.next → w.time i ≤ w.lastWrite
  due : ∀ ts j : Nat, d.beingWritten[ts]? = some j →
    w.lastPass < ts ∧ ts ≤ w.lastWrite + d.delay * 1000 ∧ j < w.log.next
  pending : ∀ i, w.log.start ≤ i → i < w.log.next → w.lastPass < w.time i + d.delay * 1000 →
    d.beingWritten[w.time i + d.delay * 1000]? = some i
  after : ∀ i ts j : Nat, w.log.start ≤ i → i < w.log.next → d.beingWritten[ts]? = some j →
    w.time i + d.delay * 1000 ≤ ts → i ≤ j
  reported : ∀ i, w.log.start ≤ i → i < w.log.next → w.time i + d.delay * 1000 ≤ w.lastPass → i ≤ d.lastDurable

/-- The report is not early either: what is being written is what stands in the log. -/
structure Exact (d : DiskStore) (w : Written) : Prop where
  stamps : ∀ ts j : Nat, d.beingWritten[ts]? = some j → w.log.start ≤ j → ts = w.time j + d.delay * 1000
  durable_lt : d.lastDurable < w.log.next
  sound : ∀ i, w.log.start ≤ i → i < w.log.next → i ≤ d.lastDurable → w.time i + d.delay * 1000 ≤ w.lastPass

/-- An entry goes to index `k`, which becomes the last one: what `append` and `write_at` have in common. -/
structure WroteAt (d d' : DiskStore) (w w' : Written) (now k : Nat) : Prop where
  delay : d'.delay = d.delay
  durable : d'.lastDurable = d.lastDurable
  stamp : d'.beingWritten[now + d.delay * 1000]? = some k
  others : ∀ ts j : Nat, ts ≠ now + d.delay * 1000 →
    (d'.beingWritten[ts]? = some j ↔ d.beingWritten[ts]? = some j ∧ j ≤ k)
  start : w'.log.start = w.log.start
  next : w'.log.next = k + 1
  time : w'.time = Function.update w.time k now
  lastWrite : w'.lastWrite = now
  lastPass : w'.lastPass = w.lastPass

section Steps
variable {nu : Nuraft} {d d' : DiskStore} {w w' : Written} {now k : Nat}

theorem Inv.wroteAt (h : Inv nu d w) (hw : WroteAt d d' w w' now k) (hr : Refines nu d'.store w'.log)
    (hk : k ≤ w.log.next) (htick : w.Tick d.delay now) : Inv nu d' w' := by
  obtain ⟨hlast, hpass, _⟩ := htick
  have hpos : 0 < d.delay := Nat.pos_of_ne_zero h.delay
  -- an entry below `k` is the old one
  have hold : ∀ i, w.log.start ≤ i → i < k → w'.time i = w.time i ∧ w.time i ≤ w.lastWrite ∧ i < w.log.next := by
    intro i hi hik
    refine ⟨?_, h.time_le i hi (by omega), by omega⟩
    rw [hw.time, Function.update_of_ne (by omega)]
  have hself : w'.time k = now := by rw [hw.time, Function.update_self]
  have hsplit : ∀ ts j : Nat, d'.beingWritten[ts]? = some j →
      (ts = now + d.delay * 1000 ∧ j = k) ∨ (ts ≠ now + d.delay * 1000 ∧ d.beingWritten[ts]? = some j ∧ j ≤ k) := by
    intro ts j hj
    by_cases hts : ts = now + d.delay * 1000
    · subst hts
      rw [hw.stamp, Option.some.injEq] at hj
      exact .inl ⟨rfl, hj.symm⟩
    · exact .inr ⟨hts, (hw.others ts j hts).1 hj⟩
  refine ⟨hr, by rw [hw.delay]; exact h.delay, ?_, ?_, ?_, ?_, ?_, ?_⟩
  · intro i j hi hij hj
    rw [hw.start] at hi
    rw [hw.next] at hj
    obtain ⟨hti, hle, _⟩ := hold i hi (by omega)
    by_cases hjk : j = k
    · subst hjk
      omega
    · have hlt := h.sorted i j hi hij (by omega)
      rw [hti, (hold j (by omega) (by omega)).1]
      exact hlt
  · intro i hi hlt
    rw [hw.start] at hi
    rw [hw.next] at hlt
    rw [hw.lastWrite]
    by_cases hik : i = k
    · rw [hik, hself]
    · obtain ⟨hti, hle, _⟩ := hold i hi (by omega)
      omega
  · intro ts j hj
    rw [hw.lastPass, hw.lastWrite, hw.next, hw.delay]
    rcases hsplit ts j hj with ⟨rfl, rfl⟩ | ⟨_, hj', hjk⟩
    · omega
    · have := h.due ts j hj'
      omega
  · intro i hi hlt hp
    rw [hw.start] at hi
    rw [hw.next] at hlt
    rw [hw.lastPass, hw.delay] at hp
    rw [hw.delay]
    by_cases hik : i = k
    · rw [hik, hself]
      exact hw.stamp
    · obtain ⟨hti, hle, hin⟩ := hold i hi (by omega)
      rw [hti] at hp ⊢
      exact (hw.others _ i (by omega)).2 ⟨h.pending i hi hin hp, by omega⟩
  · intro i ts j hi hlt hj hle
    rw [hw.start] at hi
    rw [hw.next] at hlt
    rw [hw.delay] at hle
    rcases hsplit ts j hj with ⟨rfl, rfl⟩ | ⟨_, hj', _⟩
    · omega
    · by_cases hik : i = k
      · have := h.due ts j hj'
        rw [hik, hself] at hle
        omega
      · obtain ⟨hti, _, hin⟩ := hold i hi (by omega)
        exact h.after i ts j hi hin hj' (by omega)
  · intro i hi hlt hp
    rw [hw.start] at hi
    rw [hw.next] at hlt
    rw [hw.lastPass, hw.delay] at hp
    rw [hw.durable]
    by_cases hik : i = k
    · rw [hik, hself] at hp
      omega
    · obtain ⟨hti, _, hin⟩ := hold i hi (by omega)
      exact h.reported i hi hin (by omega)

theorem Exact.wroteAt (h : Exact d w) (hinv : Inv nu d w) (hw : WroteAt d d' w w' now k) (hk : k = w.log.next) :
    Exact d' w' := by
  have hold : ∀ i, i < k → w'.time i = w.time i := fun i hi => by rw [hw.time, Function.update_of_ne (by omega)]
  refine ⟨?_, ?_, ?_⟩
  · intro ts j hj hs
    rw [hw.start] at hs
    rw [hw.delay]
    by_cases hts : ts = now + d.delay * 1000
    · subst hts
      rw [hw.stamp, Option.some.injEq] at hj
      rw [← hj, hw.time, Function.update_self]
    · have hj' := ((hw.others ts j hts).1 hj).1
      have hlt := (hinv.due ts j hj').2.2
      rw [hold j (by omega)]
      exact h.stamps ts j hj' hs
  · have := h.durable_lt
    rw [hw.durable, hw.next]
    omega
  · intro i hi hlt hle
    rw [hw.start] at hi
    rw [hw.durable] at hle
    rw [hw.lastPass, hw.delay, hold i (by have := h.durable_lt; omega)]
    exact h.sound i hi (by have := h.durable_lt; omega) hle

theorem wroteAt_append (h : Inv nu d w) (e : LogEntry) (htick : w.Tick d.delay now) :
    WroteAt d (d.append now e).2 w (w.step now (.log (.append e))) now w.log.next := by
  have hidx : (d.store.append e).1 = w.log.next := by
    rw [h.refines.append_fst, Nat.mod_eq_of_lt h.refines.next_lt]
  have hmap : (d.append now e).2.beingWritten = d.beingWritten.insert (now + d.delay * 1000) w.log.next := by
    simp only [append, if_pos h.delay, Nat.mod_eq_of_lt htick.2.2]
    rw [hidx]
  refine ⟨rfl, rfl, ?_, ?_, rfl, IndexedLog.next_append .., rfl, rfl, rfl⟩
  · rw [hmap, OrderedMap.getElem?_insert, if_pos rfl]
  · intro ts j hts
    rw [hmap, OrderedMap.getElem?_insert, if_neg hts]
    exact ⟨fun hj => ⟨hj, Nat.le_of_lt (h.due ts j hj).2.2⟩, And.left⟩

theorem getElem?_forgetAbove (m : ExtTreeMap Nat Nat) (index ts j : Nat) :
    (forgetAbove m index)[ts]? = some j ↔ m[ts]? = some j ∧ j ≤ index := by
  rw [forgetAbove, OrderedMap.getElem?_eraseWhere, ExtTreeMap.getD_eq_getD_getElem?]
  cases m[ts]? with
  | none => simp
  | some idx =>
    by_cases hlt : index < idx
    · simp [hlt]
      omega
    · simp [hlt]
      omega

theorem wroteAt_writeAt (h : Inv nu d w) (e : LogEntry) (hs : w.log.start ≤ k) (hk : k ≤ w.log.next)
    (htick : w.Tick d.delay now) :
    WroteAt d (d.writeAt now k e) w (w.step now (.log (.writeAt k e))) now k := by
  have hmap : ∀ ts j : Nat, (d.writeAt now k e).beingWritten[ts]? = some j ↔
      (if ts = now + d.delay * 1000 then some k else d.beingWritten[ts]?) = some j ∧ j ≤ k := by
    intro ts j
    simp only [writeAt, if_pos h.delay, Nat.mod_eq_of_lt htick.2.2]
    rw [getElem?_forgetAbove, OrderedMap.getElem?_insert]
  refine ⟨rfl, rfl, ?_, ?_, rfl, IndexedLog.next_writeAt e hs hk, rfl, rfl, rfl⟩
  · exact (hmap _ k).2 ⟨if_pos rfl, Nat.le_refl k⟩
  · intro ts j hts
    rw [hmap, if_neg hts]

theorem Inv.compact (h : Inv nu d w) {st : LogStore} {j : Nat} (hr : Refines nu st (w.log.compact j)) :
    Inv nu { d with store := st } { w with log := w.log.compact j } := by
  have hin : ∀ i, (w.log.compact j).start ≤ i → i < (w.log.compact j).next → w.log.start ≤ i ∧ i < w.log.next := by
    intro i hi hlt
    rw [IndexedLog.next_compact] at hlt
    simp only [IndexedLog.compact] at hi
    omega
  refine ⟨hr, h.delay, ?_, ?_, ?_, ?_, ?_, ?_⟩
  · intro i i' hi hlt hi'
    exact h.sorted i i' (hin i hi (Nat.lt_trans hlt hi')).1 hlt (hin i' (Nat.le_trans hi (Nat.le_of_lt hlt)) hi').2
  · intro i hi hlt
    exact h.time_le i (hin i hi hlt).1 (hin i hi hlt).2
  · intro ts k hk
    obtain ⟨h1, h2, h3⟩ := h.due ts k hk
    refine ⟨h1, h2, ?_⟩
    show k < (w.log.compact j).next
    rw [IndexedLog.next_compact]
    omega
  · intro i hi hlt
    exact h.pending i (hin i hi hlt).1 (hin i hi hlt).2
  · intro i ts k hi hlt
    exact h.after i ts k (hin i hi hlt).1 (hin i hi hlt).2
  · intro i hi hlt
    exact h.reported i (hin i hi hlt).1 (hin i hi hlt).2

theorem Exact.compact (h : Exact d w) {st : LogStore} {j : Nat} :
    Exact { d with store := st } { w with log := w.log.compact j } := by
  have hstart : w.log.start ≤ (w.log.compact j).start := Nat.le_max_left _ _
  have hnext := IndexedLog.next_compact w.log j
  refine ⟨fun ts k hk hs => h.stamps ts k hk (Nat.le_trans hstart hs), ?_, fun i hi hlt hle => ?_⟩
  · show d.lastDurable < (w.log.compact j).next
    have := h.durable_lt
    omega
  · refine h.sound i (Nat.le_trans hstart hi) ?_ hle
    have := h.durable_lt
    exact Nat.lt_of_le_of_lt hle this

theorem Inv.pass (h : Inv nu d w) (hpass : w.lastPass ≤ now) : Inv nu (d.pass now).1 { w with lastPass := now } := by
  obtain ⟨hmap, hidx⟩ := pass_spec d now
  have hmap' : ∀ ts j : Nat, (d.pass now).1.beingWritten[ts]? = some j ↔ now < ts ∧ d.beingWritten[ts]? = some j := by
    intro ts j
    rw [hmap]
    by_cases hts : ts ≤ now
    · simp [hts]
    · simp [hts, Nat.not_le.1 hts]
  have hdelay : (d.pass now).1.delay = d.delay := rfl
  refine ⟨h.refines, h.delay, h.sorted, h.time_le, ?_, ?_, ?_, ?_⟩
  · intro ts j hj
    obtain ⟨hts, hj'⟩ := (hmap' ts j).1 hj
    exact ⟨hts, (h.due ts j hj').2⟩
  · intro i hi hlt hp
    refine (hmap' _ i).2 ⟨hp, h.pending i hi hlt ?_⟩
    rw [hdelay] at hp
    exact Nat.lt_of_le_of_lt hpass hp
  · intro i ts j hi hlt hj
    exact h.after i ts j hi hlt ((hmap' ts j).1 hj).2
  · intro i hi hlt hdone
    rw [hdelay] at hdone
    -- its own point in time is in the map or behind the last pass; the latest due one is not before either
    have hcase := h.pending i hi hlt
    rcases hidx with ⟨ts, j, hj, hdue, hmax, heq⟩ | ⟨hnone, heq⟩
    · rw [heq]
      refine h.after i ts j hi hlt hj ?_
      by_cases hold : w.time i + d.delay * 1000 ≤ w.lastPass
      · exact Nat.le_of_lt (Nat.lt_of_le_of_lt hold (h.due ts j hj).1)
      · exact hmax _ (ExtTreeMap.mem_iff_isSome_getElem?.2 (by rw [hcase (by omega)]; rfl)) hdone
    · rw [heq]
      refine h.reported i hi hlt ?_
      by_contra hnot
      have hin := hnone _ (ExtTreeMap.mem_iff_isSome_getElem?.2 (by rw [hcase (by omega)]; rfl))
      exact absurd hin (Nat.not_lt.2 hdone)

theorem Exact.pass (h : Exact d w) (hinv : Inv nu d w) (hpass : w.lastPass ≤ now) :
    Exact (d.pass now).1 { w with lastPass := now } := by
  obtain ⟨hmap, hidx⟩ := pass_spec d now
  have hdelay : (d.pass now).1.delay = d.delay := rfl
  refine ⟨?_, ?_, ?_⟩
  · intro ts j hj hs
    rw [hmap] at hj
    split at hj
    · cases hj
    · exact h.stamps ts j hj hs
  · rcases hidx with ⟨ts, j, hj, _, _, heq⟩ | ⟨_, heq⟩
    · rw [heq]
      exact (hinv.due ts j hj).2.2
    · rw [heq]
      exact h.durable_lt
  · intro i hi hlt hle
    show w.time i + d.delay * 1000 ≤ now
    rcases hidx with ⟨ts, j, hj, hdue, _, heq⟩ | ⟨_, heq⟩
    · rw [heq] at hle
      have hstamp := h.stamps ts j hj (Nat.le_trans hi hle)
      have hji := (hinv.due ts j hj).2.2
      by_cases hij : i = j
      · rw [hij]
        omega
      · have := hinv.sorted i j hi (by omega) hji
        omega
    · rw [heq] at hle
      exact Nat.le_trans (h.sound i hi hlt hle) hpass

/-! ## Whole runs -/

theorem inv_new (nu : Nuraft) {delay : Nat} (hdelay : delay ≠ 0) : Inv nu (new nu delay) .start where
  refines := refines_new nu
  delay := hdelay
  sorted := fun i j hi hij hj => by simp [Written.start, IndexedLog.empty, IndexedLog.next] at hi hj; omega
  time_le := fun i hi hlt => Nat.zero_le _
  due := fun ts j hj => by simp [new] at hj
  pending := fun i hi hlt => by simp [Written.start, IndexedLog.empty, IndexedLog.next] at hi hlt; omega
  after := fun i ts j hi hlt hj => by simp [new] at hj
  reported := fun i hi hlt => by simp [Written.start, IndexedLog.empty, IndexedLog.next] at hi hlt; omega

theorem exact_new (nu : Nuraft) (delay : Nat) : Exact (new nu delay) .start where
  stamps := fun ts j hj => by simp [new] at hj
  durable_lt := Nat.zero_lt_one
  sound := fun i hi _ hle => by simp [Written.start, IndexedLog.empty, new] at hi hle; omega

/-- One call: it returns and keeps both invariants. -/
theorem inv_step (h : Inv nu d w) {op : DiskOp} (hop : op.Timely nu d w now) :
    ∃ d', op.run nu d now = some d' ∧ d'.delay = d.delay ∧ Inv nu d' (w.step now op) ∧
      (op.AtEnd d → Exact d w → Exact d' (w.step now op)) := by
  cases op with
  | log op =>
    cases op with
    | append e =>
      obtain ⟨hallowed, htick⟩ := hop
      obtain ⟨st, hst, hr⟩ := h.refines.run hallowed
      have hw := wroteAt_append h e htick
      rw [LogOp.run, Option.some.injEq] at hst
      subst hst
      exact ⟨_, rfl, rfl, h.wroteAt hw hr (Nat.le_refl _) htick, fun _ hx => hx.wroteAt h hw rfl⟩
    | writeAt i e =>
      obtain ⟨hallowed, htick⟩ := hop
      obtain ⟨st, hst, hr⟩ := h.refines.run hallowed
      rw [LogOp.run, Option.some.injEq] at hst
      subst hst
      have hstart : d.store.startIndex = w.log.start := h.refines.start
      have hnext := h.refines.nextSlot_next
      have hs : w.log.start ≤ i := by rw [← hstart]; exact hallowed.1
      have hk : i ≤ w.log.next := by rw [← hnext]; exact hallowed.2.1
      have hw := wroteAt_writeAt h e hs hk htick
      exact ⟨_, rfl, rfl, h.wroteAt hw hr hk htick, fun hat hx => hx.wroteAt h hw (hat.trans hnext)⟩
    | compact j =>
      have hallowed : (LogOp.compact j).Allowed nu d.store := hop
      obtain ⟨st, hst, hr⟩ := h.refines.run hallowed
      exact ⟨{ d with store := st }, by simp [DiskOp.run, hst], rfl, h.compact hr, fun _ hx => hx.compact⟩
    | applyPack i p es => exact hop.elim
  | flush => exact hop.elim
  | pass => exact ⟨_, rfl, rfl, h.pass hop, fun _ hx => hx.pass h hop⟩

theorem Inv.runAll (h : Inv nu d w) (ops : List (Nat × DiskOp)) (hops : DiskOp.Every nu (DiskOp.Timely nu) d w ops) :
    ∃ d', DiskOp.runAll nu d ops = some d' ∧ d'.delay = d.delay ∧
      Inv nu d' (w.runAll ops) ∧
      (DiskOp.Every nu (fun d _ _ => DiskOp.AtEnd d) d w ops → Exact d w →
        Exact d' (w.runAll ops)) := by
  induction ops generalizing d w with
  | nil => exact ⟨d, rfl, rfl, h, fun _ hx => hx⟩
  | cons p ops ih =>
    obtain ⟨now, op⟩ := p
    obtain ⟨d₁, hrun, hdelay, hinv, hexact⟩ := inv_step h hops.1
    obtain ⟨d₂, hrun₂, hdelay₂, hinv₂, hexact₂⟩ := ih hinv (hops.2 d₁ hrun)
    exact ⟨d₂, by simpa [DiskOp.runAll, hrun] using hrun₂, hdelay₂.trans hdelay, hinv₂,
      fun hat hx => hexact₂ (hat.2 d₁ hrun) (hexact hat.1 hx)⟩

end Steps

/-- **What `last_durable_index()` says.** In every run of appends, overwrites, compactions and passes of the
thread in which the clock moves on between two writes: every entry whose delay had run out at the last pass is
reported. When moreover every `write_at` is at the end, exactly these entries are. -/
theorem last_durable_index_exact (nu : Nuraft) (delay : Nat) (hdelay : delay ≠ 0) (ops : List (Nat × DiskOp))
    (hops : DiskOp.Every nu (DiskOp.Timely nu) (new nu delay) .start ops) :
    ∃ (d : DiskStore) (w : Written), DiskOp.runAll nu (new nu delay) ops = some d ∧
      w = Written.start.runAll ops ∧ Refines nu d.store w.log ∧
      (∀ i, d.store.startIndex ≤ i → i < d.store.nextSlot →
        w.time i + delay * 1000 ≤ w.lastPass → i ≤ d.lastDurableIndex) ∧
      (DiskOp.Every nu (fun d _ _ => DiskOp.AtEnd d) (new nu delay) .start ops →
        d.lastDurableIndex < d.store.nextSlot ∧
        ∀ i, d.store.startIndex ≤ i → i < d.store.nextSlot →
          (i ≤ d.lastDurableIndex ↔ w.time i + delay * 1000 ≤ w.lastPass)) := by
  obtain ⟨d, hrun, hd, hinv, hexact⟩ := (inv_new nu hdelay).runAll ops hops
  have hdelay' : d.delay = delay := hd
  have hlast : d.lastDurableIndex = d.lastDurable := if_neg hinv.delay
  have hstart : d.store.startIndex = (Written.start.runAll ops).log.start := hinv.refines.start
  have hnext := hinv.refines.nextSlot_next
  refine ⟨d, _, hrun, rfl, hinv.refines, fun i hi hlt hdone => ?_, fun hat => ⟨?_, fun i hi hlt => ?_⟩⟩
  · rw [hlast]
    exact hinv.reported i (by rw [← hstart]; exact hi) (by rw [← hnext]; exact hlt) (by rw [hdelay']; exact hdone)
  · rw [hlast, hnext]
    exact (hexact hat (exact_new nu delay)).durable_lt
  · rw [hlast]
    rw [hstart] at hi
    rw [hnext] at hlt
    constructor
    · intro hle
      have hsound := (hexact hat (exact_new nu delay)).sound i hi hlt hle
      rwa [hdelay'] at hsound
    · intro hdone
      exact hinv.reported i hi hlt (by rw [hdelay']; exact hdone)

/-- Two appends half a millisecond apart, and a pass when only the first has had its millisecond. -/
theorem last_durable_index_exact_demo :
    let e : LogEntry := ⟨3, [1], 1, 0, false, 0⟩
    let ops : List (Nat × DiskOp) := [(10, .log (.append e)), (510, .log (.append e)), (1010, .pass)]
    ∃ d, DiskOp.runAll refNuraft (new refNuraft 1) ops = some d ∧ d.lastDurableIndex = 1 := by
  intro e ops
  have htick : ∀ (t₁ t₂ now : Nat) (l : IndexedLog LogEntry) (f : Nat → Nat), t₁ < now → t₂ ≤ now → now < 2 ^ 63 →
      (⟨l, f, t₁, t₂⟩ : Written).Tick 1 now := fun t₁ t₂ now l f h1 h2 h3 => ⟨h1, h2, show now + 1 * 1000 < _ by omega⟩
  have hops : DiskOp.Every refNuraft (DiskOp.Timely refNuraft) (new refNuraft 1) .start ops := by
    refine ⟨⟨show LogStore.nextSlot _ < _ by decide, htick _ _ _ _ _ (by decide) (by decide) (by decide)⟩, ?_⟩
    rintro _ ⟨⟩
    refine ⟨⟨show LogStore.nextSlot _ < _ by decide, htick _ _ _ _ _ (by decide) (by decide) (by decide)⟩, ?_⟩
    rintro _ ⟨⟩
    exact ⟨Nat.zero_le _, fun _ _ => trivial⟩
  have hat : DiskOp.Every refNuraft (fun d _ _ => DiskOp.AtEnd d) (new refNuraft 1) .start ops :=
    ⟨trivial, fun _ _ => ⟨trivial, fun _ _ => ⟨trivial, fun _ _ => trivial⟩⟩⟩
  obtain ⟨d, w, hrun, rfl, href, _, hexact⟩ := last_durable_index_exact refNuraft 1 (by decide) ops hops
  obtain ⟨hlt, hiff⟩ := hexact hat
  have hstart : d.store.startIndex = 1 := href.start
  have hnext : d.store.nextSlot = 3 := href.nextSlot_next
  have h1 : 1 ≤ d.lastDurableIndex := (hiff 1 (by omega) (by omega)).2 (by decide)
  have h2 : ¬ 2 ≤ d.lastDurableIndex := fun h => absurd ((hiff 2 (by omega) (by omega)).1 h) (by decide)
  exact ⟨d, hrun, by omega⟩

/-- An entry is overwritten before its millisecond is over: when it is, the new entry, written 900 microseconds
later, is reported. -/
theorem overwritten_reported_early :
    let e : LogEntry := ⟨3, [1], 1, 0, false, 0⟩
    let ops : List (Nat × DiskOp) := [(10, .log (.append e)), (910, .log (.writeAt 1 e)), (1010, .pass)]
    (DiskOp.runAll refNuraft (new refNuraft 1) ops).map lastDurableIndex = some 1 ∧
      (Written.start.runAll ops).time 1 + 1 * 1000 = 1910 := by
  decide

end DiskStore

end ReplicatedSplinter
