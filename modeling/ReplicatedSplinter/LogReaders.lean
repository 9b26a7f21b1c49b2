import ReplicatedSplinter.Lib.Interleaving
import ReplicatedSplinter.LogBatch
/-!
# Reading the log while it is written

`log_entries`, `log_entries_ext` and `pack` take `logs_lock_` anew for every index, and `last_entry` twice,
so appends, overwrites and compactions by other threads may fall in the middle of one call.

| here | there |
| --- | --- |
| `scanEntries`, `logEntriesSections` | `log_entries` (`in_memory_log_store.cpp:123-144`), one lock section per index |
| `scanExt`, `logEntriesExtSections`  | `log_entries_ext` (`:146-174`) |
| `scanPack`, `packSections`          | `pack` (`:202-234`); after the sections the buffer is built without the lock |
| `lastEntrySections`                 | `last_entry` (`:66-75`) after its `next_slot()` |
| `Beside a b`                        | a call by another thread that stays off `[a, b)`: `append`, `write_at` from `b` on, `compact` below `a` |

Run without interruption they are the functions of `LogStore.lean` (`run_logEntriesSections` and so on).
-/

namespace ReplicatedSplinter
open ByteCodec Std Interleaving

/-- A call that reads entries, section by section; a section is `find(index)`, else `find(0)`. -/
abbrev Sections (R : Type) := Thread Nat (Except Exn LogEntry) (Except Exn R)

namespace LogStore

/-! ## The calls, section by section -/

/-- The loop of `log_entries` with `n` indices left, at `ii`. -/
def scanEntries : Nat → Nat → List LogEntry → Sections (List LogEntry)
  | 0, _, ret => .done (.ok ret)
  | n + 1, ii, ret => .ask ii fun
    | .error e => .done (.error e)
    | .ok src => scanEntries n (ii + 1) (ret ++ [makeClone src])

def logEntriesSections (start stop : Nat) : Sections (List LogEntry) :=
  if stop < start then .done (.error (endBeforeStart start stop))
  else scanEntries (stop - start) start []

def scanExt (batchSizeHint : Int64) : Nat → Nat → Nat → List LogEntry → Sections (List LogEntry)
  | 0, _, _, ret => .done (.ok ret)
  | n + 1, ii, accumSize, ret => .ask ii fun
    | .error e => .done (.error e)
    | .ok src =>
      let accumSize := accumSize + src.buf.length
      let ret := ret ++ [makeClone src]
      if batchSizeHint ≠ 0 ∧ batchSizeHint.toUInt64.toNat ≤ accumSize then .done (.ok ret)
      else scanExt batchSizeHint n (ii + 1) accumSize ret

def logEntriesExtSections (start stop : Nat) (batchSizeHint : Int64) : Sections (List LogEntry) :=
  if batchSizeHint < 0 then .done (.ok [])
  else scanExt batchSizeHint (stop - start) start 0 []

/-- `last_entry` once `next_slot()` has returned `nextIdx`. -/
def lastEntrySections (nextIdx : Nat) : Sections LogEntry :=
  .ask ((nextIdx + (2 ^ 64 - 1)) % 2 ^ 64) fun
    | .error e => .done (.error e)
    | .ok e => .done (.ok (makeClone e))

/-- The loop of `pack`: `logs_[ii]` in a section, `serialize` outside it. -/
def scanPack (nu : Nuraft) (cnt : Int32) : List Nat → List Bytes → Thread Nat (Option LogEntry) (Except Exn Bytes)
  | [], logs => .done do
    let bufOut ← nu.alloc (4 + cnt.toInt.toNat * 4 + (logs.map List.length).sum)
    let w ← nu.putI32 ⟨bufOut, 0⟩ cnt
    let w ← putBufs nu w logs
    return w.buf
  | ii :: rest, logs => .ask ii fun
    | none => .done (.error (.undefinedBehaviour "null log entry"))
    | some le => scanPack nu cnt rest (logs ++ [nu.entrySerialize le])

def packSections (nu : Nuraft) (index : Nat) (cnt : Int32) : Thread Nat (Option LogEntry) (Except Exn Bytes) :=
  if cnt < 0 then .done (.error (.runtimeError "Packing negative number of logs"))
  else scanPack nu cnt (List.range' index ((index + cnt.toInt.toNat) % 2 ^ 64 - index)) []

/-! ## Uninterrupted, they are the calls -/

theorem run_scanEntries (st : LogStore) (n ii : Nat) (ret : List LogEntry) :
    (scanEntries n ii ret).run st.findOrDummy =
      ((List.range' ii n).mapM fun i => do
        let src ← st.findOrDummy i
        return makeClone src) >>= fun es => .ok (ret ++ es) := by
  induction n generalizing ii ret with
  | zero => simp [scanEntries]
  | succ n ih =>
    rw [scanEntries, Thread.run_ask, List.range'_succ, List.mapM_cons]
    cases st.findOrDummy ii with
    | error e => rfl
    | ok src =>
      simp only [ih, ok_bind, pure_eq_ok]
      cases (List.range' (ii + 1) n).mapM fun i => st.findOrDummy i >>= fun src => .ok (makeClone src) with
      | error e => rfl
      | ok es => simp

theorem run_logEntriesSections (st : LogStore) (start stop : Nat) :
    (logEntriesSections start stop).run st.findOrDummy = st.logEntries start stop := by
  unfold logEntriesSections logEntries
  by_cases h : stop < start
  · rw [if_pos h, if_pos h]
    rfl
  · rw [if_neg h, if_neg h, run_scanEntries]
    cases (List.range' start (stop - start)).mapM fun i => do
        let src ← st.findOrDummy i
        return makeClone src with
    | error e => rfl
    | ok es => rfl

theorem run_scanExt (st : LogStore) (h : Int64) (n ii acc : Nat) (ret : List LogEntry) :
    (scanExt h n ii acc ret).run st.findOrDummy = (st.extLoop h n ii acc >>= fun es => .ok (ret ++ es)) := by
  induction n generalizing ii acc ret with
  | zero => simp [scanExt, extLoop]
  | succ n ih =>
    rw [scanExt, extLoop, Thread.run_ask]
    cases st.findOrDummy ii with
    | error e => rfl
    | ok src =>
      simp only [ok_bind]
      by_cases hstop : h ≠ 0 ∧ h.toUInt64.toNat ≤ acc + src.buf.length
      · rw [if_pos hstop, if_pos hstop]
        rfl
      · rw [if_neg hstop, if_neg hstop, ih]
        cases st.extLoop h n (ii + 1) (acc + src.buf.length) with
        | error e => rfl
        | ok es => simp

theorem run_logEntriesExtSections (st : LogStore) (start stop : Nat) (h : Int64) :
    (logEntriesExtSections start stop h).run st.findOrDummy = st.logEntriesExt start stop h := by
  unfold logEntriesExtSections logEntriesExt
  by_cases hneg : h < 0
  · rw [if_pos hneg, if_pos hneg]
    rfl
  · rw [if_neg hneg, if_neg hneg, run_scanExt]
    cases st.extLoop h (stop - start) start 0 with
    | error e => rfl
    | ok es => rfl

theorem run_lastEntrySections (st : LogStore) :
    (lastEntrySections st.nextSlot).run st.findOrDummy = st.lastEntry := by
  rw [lastEntrySections, Thread.run_ask, lastEntry]
  cases st.findOrDummy ((st.nextSlot + (2 ^ 64 - 1)) % 2 ^ 64) with
  | error e => rfl
  | ok e => rfl

theorem run_scanPack (nu : Nuraft) (cnt : Int32) (st : LogStore) (is : List Nat) (logs : List Bytes) :
    (scanPack nu cnt is logs).run (fun i => st.logs[i]?) = (do
      let bufs ← packBufs nu st.logs is
      (scanPack nu cnt [] (logs ++ bufs)).run fun i => st.logs[i]?) := by
  induction is generalizing logs with
  | nil => simp [packBufs]
  | cons ii is ih =>
    rw [scanPack, packBufs, Thread.run_ask]
    cases st.logs[ii]? with
    | none => rfl
    | some le =>
      simp only [ih]
      cases packBufs nu st.logs is with
      | error e => rfl
      | ok bufs => simp

theorem run_packSections (nu : Nuraft) (st : LogStore) (index : Nat) (cnt : Int32) :
    (packSections nu index cnt).run (fun i => st.logs[i]?) = (st.pack nu index cnt).1 := by
  unfold packSections pack
  by_cases hneg : cnt < 0
  · rw [if_pos hneg, if_pos hneg]
    rfl
  · rw [if_neg hneg, if_neg hneg, run_scanPack]
    rfl

/-! ## Which indices they ask for -/

section Asks
variable {I : Nat → Prop}

theorem asks_scanEntries {f : Nat → Except Exn LogEntry} {n ii : Nat} {ret : List LogEntry}
    (hI : ∀ i, ii ≤ i → i < ii + n → I i) : (scanEntries n ii ret).Asks f I := by
  induction n generalizing ii ret with
  | zero => exact .done _
  | succ n ih =>
    refine .ask _ _ (hI ii (Nat.le_refl _) (by omega)) ?_
    cases f ii with
    | error e => exact .done _
    | ok src => exact ih fun i h1 h2 => hI i (by omega) (by omega)

theorem asks_scanExt {f : Nat → Except Exn LogEntry} {h : Int64} {n ii acc : Nat} {ret : List LogEntry}
    (hI : ∀ i, ii ≤ i → i < ii + n → I i) : (scanExt h n ii acc ret).Asks f I := by
  induction n generalizing ii acc ret with
  | zero => exact .done _
  | succ n ih =>
    refine .ask _ _ (hI ii (Nat.le_refl _) (by omega)) ?_
    cases f ii with
    | error e => exact .done _
    | ok src =>
      dsimp only
      split
      · exact .done _
      · exact ih fun i h1 h2 => hI i (by omega) (by omega)

theorem asks_scanPack {nu : Nuraft} {cnt : Int32} {f : Nat → Option LogEntry} {is : List Nat} {logs : List Bytes}
    (hI : ∀ i ∈ is, I i) : (scanPack nu cnt is logs).Asks f I := by
  induction is generalizing logs with
  | nil => exact .done _
  | cons ii is ih =>
    refine .ask _ _ (hI ii (by simp)) ?_
    cases f ii with
    | none => exact .done _
    | some le => exact ih fun i hi => hI i (by simp [hi])

theorem asks_logEntriesSections (f : Nat → Except Exn LogEntry) (a b : Nat) :
    (logEntriesSections a b).Asks f fun i => a ≤ i ∧ i < b := by
  unfold logEntriesSections
  split
  · exact .done _
  · exact asks_scanEntries fun i h1 h2 => ⟨h1, by omega⟩

theorem asks_logEntriesExtSections (f : Nat → Except Exn LogEntry) (a b : Nat) (h : Int64) :
    (logEntriesExtSections a b h).Asks f fun i => a ≤ i ∧ i < b := by
  unfold logEntriesExtSections
  split
  · exact .done _
  · exact asks_scanExt fun i h1 h2 => ⟨h1, by omega⟩

theorem asks_packSections (nu : Nuraft) (f : Nat → Option LogEntry) (index : Nat) (cnt : Int32) {b : Nat}
    (hb : index + cnt.toInt.toNat ≤ b) : (packSections nu index cnt).Asks f fun i => index ≤ i ∧ i < b := by
  unfold packSections
  split
  · exact .done _
  · refine asks_scanPack fun i hi => ?_
    rw [List.mem_range'_1] at hi
    have := Nat.mod_le (index + cnt.toInt.toNat) (2 ^ 64)
    omega

end Asks

/-! ## Reading a range in pages -/

/-- Successive batched reads of `[a, b)`, each from where the one before it ended, with these hints. -/
def pages (b : Nat) : List Int64 → Nat → Sections (List LogEntry)
  | [], _ => .done (.ok [])
  | h :: hs, a => (logEntriesExtSections a b h).bind fun
    | .error e => .done (.error e)
    | .ok batch => (pages b hs (a + batch.length)).bind fun
      | .error e => .done (.error e)
      | .ok rest => .done (.ok (batch ++ rest))

theorem asks_pages (f : Nat → Except Exn LogEntry) (b : Nat) (hs : List Int64) {a₀ a : Nat} (ha : a₀ ≤ a) :
    (pages b hs a).Asks f fun i => a₀ ≤ i ∧ i < b := by
  induction hs generalizing a with
  | nil => exact .done _
  | cons h hs ih =>
    refine Thread.Asks.bind ((asks_logEntriesExtSections f a b h).mono fun i hi => ⟨by omega, hi.2⟩) ?_
    split
    · exact .done _
    · refine (ih (by omega)).bind ?_
      split <;> exact .done _

/-- From a later index a read returns the rest. -/
theorem logEntries_drop {st : LogStore} (hd : HasDummy st) {a b : Nat} (hab : a ≤ b) {es : List LogEntry}
    (h : st.logEntries a b = .ok es) {n : Nat} (hn : a + n ≤ b) : st.logEntries (a + n) b = .ok (es.drop n) := by
  choose f hf using hd.findOrDummy
  rw [logEntries_map hf hab, Except.ok.injEq] at h
  rw [logEntries_map hf hn, ← h, ← List.map_drop, List.drop_range', Nat.mul_one,
    show b - a - n = b - (a + n) by omega]

/-- Uninterrupted pages are the beginning of the range, at least one entry each. -/
theorem run_pages {st : LogStore} (hd : HasDummy st) {b : Nat} {hs : List Int64} (hpos : ∀ h ∈ hs, 0 ≤ h)
    {a : Nat} (hab : a ≤ b) {es : List LogEntry} (hes : st.logEntries a b = .ok es) :
    ∃ got, (pages b hs a).run st.findOrDummy = .ok got ∧ got <+: es ∧ min hs.length (b - a) ≤ got.length := by
  induction hs generalizing a es with
  | nil => exact ⟨[], rfl, List.nil_prefix, by simp⟩
  | cons h hs ih =>
    obtain ⟨es', hes', hlen, hext⟩ := hd.logEntriesExt hab h
    rw [hes, Except.ok.injEq] at hes'
    subst hes'
    obtain ⟨rest, hcut⟩ := cut_pre h es
    have hle : a + (cut h es).length ≤ b := by
      have := congrArg List.length hcut
      rw [List.length_append] at this
      omega
    have hdrop := logEntries_drop hd hab hes hle
    have hrest : (cut h es ++ rest).drop (cut h es).length = rest := List.drop_left
    rw [hcut] at hrest
    rw [hrest] at hdrop
    obtain ⟨got, hgot, ⟨more, hmore⟩, hmin⟩ := ih (fun x hx => hpos x (by simp [hx])) hle hdrop
    refine ⟨cut h es ++ got, ?_, ⟨more, by rw [List.append_assoc, hmore, hcut]⟩, ?_⟩
    · simp only [pages, Thread.run_bind, run_logEntriesExtSections, hext, hgot, Thread.run_done]
    · rw [List.length_append, List.length_cons]
      by_cases hempty : es = []
      · have : b - a = 0 := by rw [← hlen, hempty]; rfl
        omega
      · have := List.length_pos_of_ne_nil (cut_ne_nil (hpos h (by simp)) hempty)
        omega

end LogStore

/-! ## The other threads -/

/-- A call by another thread that stays off the indices `[a, b)`. -/
inductive Beside (a b : Nat) : LogStore → LogStore → Prop
  | append (st : LogStore) (e : LogEntry) : st.nextSlot < 2 ^ 64 - 1 → Beside a b st (st.append e).2
  | writeAt (st : LogStore) (i : Nat) (e : LogEntry) : st.startIndex ≤ i → i ≤ st.nextSlot → i < 2 ^ 64 - 1 → b ≤ i →
      Beside a b st (st.writeAt i e)
  | compact (st st' : LogStore) (j : Nat) : j < a → st.compact j = some st' → Beside a b st st'

/-- The store holds a log with the range in it. -/
def Covers (nu : Nuraft) (a b : Nat) (st : LogStore) : Prop :=
  a ≤ b ∧ ∃ l, Refines nu st l ∧ l.start ≤ a ∧ b ≤ l.next

/-- The range is still there after the call, with the same entries. -/
theorem beside_stable {nu : Nuraft} {a b : Nat} {st st' : LogStore} (h : Covers nu a b st) (hs : Beside a b st st') :
    Covers nu a b st' ∧ ∀ i, a ≤ i ∧ i < b → st'.logs[i]? = st.logs[i]? ∧ st'.findOrDummy i = st.findOrDummy i := by
  obtain ⟨hab, l, href, hstart, hnext⟩ := h
  have hpos := l.start_pos
  -- one call of the log store, whose meaning leaves the range alone
  have key : ∀ op : LogOp, op.Allowed nu st → op.run nu st = some st' → (op.spec l).start ≤ a →
      b ≤ (op.spec l).next → (∀ i, a ≤ i → i < b → (op.spec l).get? i = l.get? i) →
      Covers nu a b st' ∧ ∀ i, a ≤ i ∧ i < b → st'.logs[i]? = st.logs[i]? ∧ st'.findOrDummy i = st.findOrDummy i := by
    intro op hop hrun h1 h2 hget
    obtain ⟨st₁, hrun₁, href₁⟩ := href.run hop
    rw [hrun, Option.some.injEq] at hrun₁
    subst hrun₁
    refine ⟨⟨hab, _, href₁, h1, h2⟩, fun i hi => ?_⟩
    have hi0 : i ≠ 0 := by omega
    rw [href₁.entries i hi0, href.entries i hi0, href₁.findOrDummy_eq, href.findOrDummy_eq, hget i hi.1 hi.2]
    exact ⟨rfl, rfl⟩
  cases hs with
  | append e hlt =>
    refine key (.append e) hlt rfl hstart (by simp only [LogOp.spec, IndexedLog.next_append]; omega) fun i h1 h2 => ?_
    simp only [LogOp.spec, IndexedLog.get?_append]
    rw [if_neg (by omega)]
  | writeAt i e h1 h2 h3 hb =>
    have hle : i ≤ l.next := by rwa [← href.nextSlot_next]
    have hge : l.start ≤ i := by rwa [← href.start]
    refine key (.writeAt i e) ⟨h1, h2, h3⟩ rfl hstart (by simp only [LogOp.spec, IndexedLog.next_writeAt e hge hle]; omega)
      fun k hk1 hk2 => ?_
    simp only [LogOp.spec, IndexedLog.get?_writeAt e hge hle]
    rw [if_neg (by omega), if_neg (by omega)]
  | compact _ j hj hst =>
    have hlt := href.next_lt
    refine key (.compact j) (show j < 2 ^ 64 - 1 by omega) hst ?_ ?_ fun i h1 h2 => ?_
    · simp only [LogOp.spec, IndexedLog.compact]
      omega
    · simp only [LogOp.spec, IndexedLog.next_compact]
      omega
    · simp only [LogOp.spec, IndexedLog.get?_compact]
      rw [if_neg (by omega)]

/-! ## Interrupted calls -/

section Interrupted
variable {nu : Nuraft} {ops : List LogOp} {st st' : LogStore} {a b : Nat}

theorem refines_of_run (hops : LogOp.AllAllowed nu (LogStore.new nu) ops)
    (hst : ops.foldlM (fun st op => op.run nu st) (LogStore.new nu) = some st) : ∃ l, Refines nu st l := by
  obtain ⟨st₁, hst₁, href⟩ := (refines_new nu).runAll hops
  rw [hst, Option.some.injEq] at hst₁
  exact ⟨_, hst₁ ▸ href⟩

theorem covers_of_run (hops : LogOp.AllAllowed nu (LogStore.new nu) ops)
    (hst : ops.foldlM (fun st op => op.run nu st) (LogStore.new nu) = some st) (ha : st.startIndex ≤ a) (hab : a ≤ b)
    (hb : b ≤ st.nextSlot) : Covers nu a b st := by
  obtain ⟨l, href⟩ := refines_of_run hops hst
  exact ⟨hab, l, href, href.start ▸ ha, href.nextSlot_next ▸ hb⟩

theorem Covers.hasDummy (h : Covers nu a b st) : HasDummy st := by
  obtain ⟨_, l, href, _, _⟩ := h
  exact ⟨href.zero, by rw [href.start]; exact l.start_pos⟩

/-- The rule of `Lib/Interleaving.lean` for calls that read entries. -/
theorem sections_steps {R : Type} {p p' : Sections R} (hp : ∀ f, p.Asks f fun i => a ≤ i ∧ i < b)
    (hcov : Covers nu a b st)
    (hs : Relation.ReflTransGen (Interleaving.Step LogStore.findOrDummy (Beside a b)) (st, p) (st', p')) :
    p'.run st'.findOrDummy = p.run st.findOrDummy ∧ p.run st'.findOrDummy = p.run st.findOrDummy := by
  obtain ⟨_, _, hrun, hsame⟩ := steps_run (Covers nu a b) (fun i => a ≤ i ∧ i < b)
    (fun s s' hc hb => ⟨(beside_stable hc hb).1, fun i hi => ((beside_stable hc hb).2 i hi).2⟩) hs hcov (hp _)
  exact ⟨hrun, ((hp _).congr hsame).1⟩

end Interrupted

/-- **Reads are atomic.** In a store that allowed calls have built, a read of `[a, b)` inside its log may be
interrupted at every index by appends, by overwrites from `b` on and by compactions below `a`. Whatever is
left of the call then returns what the whole call returns at its beginning, uninterrupted, or at this moment.
So do `log_entries`, `log_entries_ext` for every hint, and `pack` of a part of the range. -/
theorem reads_atomic (nu : Nuraft) (ops : List LogOp) (st : LogStore)
    (hops : LogOp.AllAllowed nu (LogStore.new nu) ops)
    (hst : ops.foldlM (fun st op => op.run nu st) (LogStore.new nu) = some st) (a b : Nat) (ha : st.startIndex ≤ a)
    (hab : a ≤ b) (hb : b ≤ st.nextSlot) :
    (∀ st' p, Relation.ReflTransGen (Interleaving.Step LogStore.findOrDummy (Beside a b))
        (st, LogStore.logEntriesSections a b) (st', p) →
      p.run st'.findOrDummy = st.logEntries a b ∧ st'.logEntries a b = st.logEntries a b) ∧
    (∀ h st' p, Relation.ReflTransGen (Interleaving.Step LogStore.findOrDummy (Beside a b))
        (st, LogStore.logEntriesExtSections a b h) (st', p) →
      p.run st'.findOrDummy = st.logEntriesExt a b h ∧ st'.logEntriesExt a b h = st.logEntriesExt a b h) ∧
    (∀ cnt : Int32, a + cnt.toInt.toNat ≤ b → ∀ st' p,
      Relation.ReflTransGen (Interleaving.Step (fun st i => st.logs[i]?) (Beside a b))
        (st, LogStore.packSections nu a cnt) (st', p) →
      p.run (fun i => st'.logs[i]?) = (st.pack nu a cnt).1 ∧ (st'.pack nu a cnt).1 = (st.pack nu a cnt).1) := by
  have hcov := covers_of_run hops hst ha hab hb
  refine ⟨fun st' p hs => ?_, fun h st' p hs => ?_, fun cnt hcnt st' p hs => ?_⟩
  · have hsec := sections_steps (fun f => LogStore.asks_logEntriesSections f a b) hcov hs
    simpa only [LogStore.run_logEntriesSections] using hsec
  · have hsec := sections_steps (fun f => LogStore.asks_logEntriesExtSections f a b h) hcov hs
    simpa only [LogStore.run_logEntriesExtSections] using hsec
  · have hasks := fun f => LogStore.asks_packSections nu f a cnt hcnt
    obtain ⟨_, _, hrun, hsame⟩ := steps_run (Covers nu a b) (fun i => a ≤ i ∧ i < b)
      (fun s s' hc hbs => ⟨(beside_stable hc hbs).1, fun i hi => ((beside_stable hc hbs).2 i hi).1⟩) hs hcov
      (hasks _)
    have hend := ((hasks _).congr hsame).1
    have hpack := LogStore.run_packSections nu st a cnt
    exact ⟨hrun.trans hpack, (LogStore.run_packSections nu st' a cnt).symm.trans (hend.trans hpack)⟩

/-- The appends that build `demoBatchStore`. -/
def demoBatchOps : List LogOp :=
  [.append ⟨1, [], 1, 0, false, 0⟩, .append ⟨1, [7, 8], 1, 0, false, 0⟩, .append ⟨1, [9], 1, 0, false, 0⟩]

theorem demoBatchOps_allowed : LogOp.AllAllowed refNuraft (LogStore.new refNuraft) demoBatchOps := by
  refine ⟨show LogStore.nextSlot _ < _ by decide, ?_⟩
  rintro _ ⟨⟩
  refine ⟨show LogStore.nextSlot _ < _ by decide, ?_⟩
  rintro _ ⟨⟩
  refine ⟨show LogStore.nextSlot _ < _ by decide, ?_⟩
  rintro _ _
  trivial

/-- The section of a scan that finds `e`. -/
theorem own_scanEntries (env : LogStore → LogStore → Prop) {st : LogStore} (n : Nat) {ii : Nat} (ret : List LogEntry)
    {e : LogEntry} (h : st.findOrDummy ii = .ok e) :
    Interleaving.Step LogStore.findOrDummy env (st, LogStore.scanEntries (n + 1) ii ret)
      (st, LogStore.scanEntries n (ii + 1) (ret ++ [e])) := by
  have hown : Interleaving.Step LogStore.findOrDummy env (st, LogStore.scanEntries (n + 1) ii ret) _ := .own st ii _
  rwa [h] at hown

/-- An entry is appended between the reads of the first and the second. -/
theorem reads_atomic_append : ∃ st' es, Relation.ReflTransGen (Interleaving.Step LogStore.findOrDummy (Beside 1 3))
      (demoBatchStore, LogStore.logEntriesSections 1 3) (st', .done (.ok es)) ∧
    demoBatchStore.nextSlot < st'.nextSlot ∧ .ok es = demoBatchStore.logEntries 1 3 := by
  have h1 := own_scanEntries (Beside 1 3) 1 [] (show demoBatchStore.findOrDummy 1 = .ok _ from rfl)
  have h2 := (Relation.ReflTransGen.single h1).tail
    (.other _ _ _ (Beside.append _ ⟨1, [9], 1, 0, false, 0⟩ (show LogStore.nextSlot _ < _ by decide)))
  have h3 := h2.tail (own_scanEntries (Beside 1 3) 0 _
    (show (demoBatchStore.append ⟨1, [9], 1, 0, false, 0⟩).2.findOrDummy 2 = .ok _ from rfl))
  have hatomic := (reads_atomic refNuraft demoBatchOps demoBatchStore demoBatchOps_allowed rfl 1 3 (by decide) (by decide)
    (by decide)).1 _ _ h3
  exact ⟨_, _, h3, by decide, hatomic.1⟩

/-- **Pages add up.** Batched reads that each go on where the last one ended, with hints that are not
negative, return entries of the range in order, none twice and none missing, at least one a call; after
`b - a` calls they have returned what one `log_entries` returns, however other threads interrupted them. -/
theorem pages_reassemble (nu : Nuraft) (ops : List LogOp) (st : LogStore)
    (hops : LogOp.AllAllowed nu (LogStore.new nu) ops)
    (hst : ops.foldlM (fun st op => op.run nu st) (LogStore.new nu) = some st) (a b : Nat) (ha : st.startIndex ≤ a)
    (hab : a ≤ b) (hb : b ≤ st.nextSlot) (hs : List Int64) (hpos : ∀ h ∈ hs, 0 ≤ h) (st' : LogStore)
    (p : Sections (List LogEntry))
    (hsteps : Relation.ReflTransGen (Interleaving.Step LogStore.findOrDummy (Beside a b))
      (st, LogStore.pages b hs a) (st', p)) :
    ∃ es got, st.logEntries a b = .ok es ∧ p.run st'.findOrDummy = .ok got ∧ got <+: es ∧
      min hs.length (b - a) ≤ got.length ∧ (b - a ≤ hs.length → got = es) := by
  have hcov := covers_of_run hops hst ha hab hb
  obtain ⟨hrun, _⟩ := sections_steps (fun f => LogStore.asks_pages f b hs (Nat.le_refl a)) hcov hsteps
  obtain ⟨es, hes, hlen, _⟩ := hcov.hasDummy.logEntriesExt hab 0
  obtain ⟨got, hgot, hpre, hmin⟩ := LogStore.run_pages hcov.hasDummy hpos hab hes
  refine ⟨es, got, hes, hrun.trans hgot, hpre, hmin, fun hall => ?_⟩
  exact hpre.eq_of_length_le (by omega)

/-- The first one-byte page takes two entries, an entry is appended, and the second page takes the third; nothing is
left for the last one. -/
theorem pages_reassemble_demo : ∃ st' p es, Relation.ReflTransGen (Interleaving.Step LogStore.findOrDummy (Beside 1 4))
      (demoBatchStore, LogStore.pages 4 (List.replicate 3 1) 1) (st', p) ∧
    demoBatchStore.nextSlot < st'.nextSlot ∧ demoBatchStore.logEntries 1 4 = .ok es ∧
    p.run st'.findOrDummy = .ok es := by
  have hpos : ∀ h ∈ List.replicate 3 (1 : Int64), 0 ≤ h := fun h hh => by
    rw [List.eq_of_mem_replicate hh]
    decide
  have h1 : Interleaving.Step LogStore.findOrDummy (Beside 1 4)
      (demoBatchStore, LogStore.pages 4 (List.replicate 3 1) 1) _ := .own _ 1 _
  have h2 := (Relation.ReflTransGen.single h1).tail (.own _ 2 _)
  have h3 := h2.tail
    (.other _ _ _ (Beside.append _ ⟨1, [6], 1, 0, false, 0⟩ (show LogStore.nextSlot _ < _ by decide)))
  obtain ⟨es, got, hes, hgot, _, _, hall⟩ := pages_reassemble refNuraft demoBatchOps demoBatchStore demoBatchOps_allowed
    rfl 1 4 (by decide) (by decide) (by decide) _ hpos _ _ h3
  exact ⟨_, _, es, h3, by decide, hes, hgot.trans (congrArg _ (hall (by decide)))⟩

/-- **The last entry is that of the first section.** `last_entry` asks for the entry only after `next_slot()`
has returned and the lock was free; appends in between, overwrites behind the last index and compactions
before it do not change what it returns. -/
theorem last_entry_atomic (nu : Nuraft) (ops : List LogOp) (st : LogStore)
    (hops : LogOp.AllAllowed nu (LogStore.new nu) ops)
    (hst : ops.foldlM (fun st op => op.run nu st) (LogStore.new nu) = some st) (hne : st.startIndex < st.nextSlot)
    (st' : LogStore) (p : Sections LogEntry)
    (hsteps : Relation.ReflTransGen (Interleaving.Step LogStore.findOrDummy (Beside (st.nextSlot - 1) st.nextSlot))
      (st, LogStore.lastEntrySections st.nextSlot) (st', p)) :
    p.run st'.findOrDummy = st.lastEntry := by
  have hcov : Covers nu (st.nextSlot - 1) st.nextSlot st :=
    covers_of_run hops hst (by omega) (by omega) (Nat.le_refl _)
  obtain ⟨l, href⟩ := refines_of_run hops hst
  have hlt := href.next_lt
  rw [← href.nextSlot_next] at hlt
  have hasks : ∀ f, (LogStore.lastEntrySections st.nextSlot).Asks f fun i => st.nextSlot - 1 ≤ i ∧ i < st.nextSlot := by
    intro f
    refine .ask _ _ (by omega) ?_
    split <;> exact .done _
  rw [(sections_steps hasks hcov hsteps).1, LogStore.run_lastEntrySections]

/-- Another entry is appended after `next_slot()` has returned. -/
theorem last_entry_atomic_append :
    (LogStore.lastEntrySections 4).run (demoBatchStore.append ⟨2, [], 1, 0, false, 0⟩).2.findOrDummy =
      demoBatchStore.lastEntry := by
  have hslot : demoBatchStore.nextSlot = 4 := by decide
  have h := last_entry_atomic refNuraft demoBatchOps demoBatchStore demoBatchOps_allowed rfl (by decide) _ _
    (.single (.other _ _ _ (Beside.append _ ⟨2, [], 1, 0, false, 0⟩ (by decide))))
  rwa [hslot] at h

end ReplicatedSplinter
