import ReplicatedSplinter.Lib.IndexedLog
import ReplicatedSplinter.LogPack
import Mathlib.Order.Interval.Finset.Nat
/-!
# The log store holds a log

`Holds st l` says that the map and `start_idx_` together are the log `l`: key 0 is there, every other
key is an index of `l`, and `start_idx_` is its first one. `next_slot()` counts keys, so it is right
because, and only as long as, the keys are the dummy and one contiguous range.

| here | there |
| --- | --- |
| `Holds`              | what `logs_` and `start_idx_` stand for |
| `LogOp`, `Allowed`   | the operations of the log store, and when they may be called |
| `Refines`            | `Holds`, with the dummy still at key 0 and all indices below 2^64 - 1 |
-/

namespace ReplicatedSplinter
open ByteCodec Std

/-! ## What the map stands for -/

/-- Key 0 is there, and the other keys are the indices of the log. -/
structure LogsHold (logs : ExtTreeMap Nat LogEntry) (l : IndexedLog LogEntry) : Prop where
  zero : 0 ∈ logs
  entries : ∀ i, i ≠ 0 → logs[i]? = l.get? i

structure Holds (st : LogStore) (l : IndexedLog LogEntry) : Prop extends LogsHold st.logs l where
  start : st.startIdx = l.start
  start_lt : l.start < 2 ^ 64
  next_le : l.next ≤ 2 ^ 64

namespace LogsHold
variable {logs : ExtTreeMap Nat LogEntry} {l : IndexedLog LogEntry}

theorem mem_iff (h : LogsHold logs l) (k : Nat) : k ∈ logs ↔ k = 0 ∨ (l.start ≤ k ∧ k < l.next) := by
  by_cases hk : k = 0
  · simp [hk, h.zero]
  · rw [ExtTreeMap.mem_iff_isSome_getElem?, h.entries k hk, IndexedLog.isSome_get?]
    simp [hk]

theorem size_eq (h : LogsHold logs l) : logs.size = l.entries.length + 1 := by
  have hpos := l.start_pos
  have hmem : ∀ k, k ∈ logs ↔ k ∈ insert 0 (Finset.Ico l.start l.next) := by
    intro k
    rw [h.mem_iff, Finset.mem_insert, Finset.mem_Ico]
  have hnot : (0 : Nat) ∉ Finset.Ico l.start l.next := by
    rw [Finset.mem_Ico]
    omega
  rw [OrderedMap.size_eq_card logs _ hmem, Finset.card_insert_of_notMem hnot, Nat.card_Ico, IndexedLog.next]
  omega

/-- The first key after the dummy is the first index. -/
theorem upperBound_zero (h : LogsHold logs l) :
    OrderedMap.upperBound logs 0 = if l.entries = [] then none else some l.start := by
  have hpos := l.start_pos
  by_cases he : l.entries = []
  · rw [if_pos he, OrderedMap.upperBound_eq_none]
    intro k hk
    rw [h.mem_iff, IndexedLog.next, he, List.length_nil] at hk
    rw [Nat.compare_eq_lt]
    omega
  · have hlen : 0 < l.entries.length := List.length_pos_iff.2 he
    have hmem : l.start ∈ logs := (h.mem_iff _).2 (Or.inr ⟨Nat.le_refl _, by unfold IndexedLog.next; omega⟩)
    rw [if_neg he]
    refine OrderedMap.upperBound_eq_some hmem (Nat.compare_eq_lt.2 (by omega)) ?_
    intro k hk hkpos
    rw [h.mem_iff] at hk
    rw [Nat.compare_eq_lt] at hkpos ⊢
    omega

end LogsHold

theorem holds_new (nu : Nuraft) : Holds (LogStore.new nu) IndexedLog.empty where
  zero := by simp [LogStore.new]
  entries := by
    intro i hi
    rw [IndexedLog.get?_of_nil rfl, LogStore.new, OrderedMap.getElem?_insert, if_neg hi]
    simp
  start := rfl
  start_lt := by decide
  next_le := by decide

namespace Holds
variable {st : LogStore} {l : IndexedLog LogEntry}

theorem nextSlot_eq (h : Holds st l) : st.nextSlot = l.next % 2 ^ 64 := by
  rw [LogStore.nextSlot, h.start, h.size_eq, IndexedLog.next]
  omega

theorem isEmpty_iff (h : Holds st l) : st.isEmpty = true ↔ l.entries = [] := by
  simp only [LogStore.isEmpty, List.all_eq_true, ExtTreeMap.mem_keys, beq_iff_eq, h.mem_iff]
  have hpos := l.start_pos
  constructor
  · intro hall
    by_contra he
    have hlen : 0 < l.entries.length := List.length_pos_iff.2 he
    have h0 := hall l.start (Or.inr ⟨Nat.le_refl _, by unfold IndexedLog.next; omega⟩)
    omega
  · intro he k hk
    rw [IndexedLog.next, he, List.length_nil] at hk
    omega

/-! ## `append`, `write_at`, `compact` -/

theorem append_fst (h : Holds st l) (e : LogEntry) : (st.append e).1 = l.next % 2 ^ 64 := h.nextSlot_eq

theorem append_snd (h : Holds st l) (e : LogEntry) :
    (st.append e).2 = { st with logs := st.logs.insert (l.next % 2 ^ 64) e } := by
  rw [← h.append_fst e]
  rfl

theorem getElem?_append (h : Holds st l) (e : LogEntry) (k : Nat) :
    (st.append e).2.logs[k]? = if k = l.next % 2 ^ 64 then some e else st.logs[k]? := by
  rw [h.append_snd, OrderedMap.getElem?_insert]

theorem append (h : Holds st l) (e : LogEntry) (hnext : l.next < 2 ^ 64) : Holds (st.append e).2 (l.append e) := by
  have hpos := l.next_pos
  rw [h.append_snd, Nat.mod_eq_of_lt hnext]
  refine ⟨⟨?_, ?_⟩, h.start, h.start_lt, by rw [IndexedLog.next_append]; omega⟩
  · simp [h.zero]
  · intro i hi
    rw [OrderedMap.getElem?_insert, IndexedLog.get?_append, h.entries i hi]

/-- Past the last index the dummy is overwritten, and nothing else. -/
theorem append_wrapped (h : Holds st l) (e : LogEntry) (hnext : l.next = 2 ^ 64) : Holds (st.append e).2 l := by
  rw [h.append_snd, hnext, Nat.mod_self]
  refine ⟨⟨by simp, ?_⟩, h.start, h.start_lt, h.next_le⟩
  intro i hi
  rw [OrderedMap.getElem?_insert, if_neg hi, h.entries i hi]

theorem writeAt (h : Holds st l) (e : LogEntry) {i : Nat} (h1 : l.start ≤ i) (h2 : i ≤ l.next) (hi : i < 2 ^ 64) :
    Holds (st.writeAt i e) (l.writeAt i e) := by
  have hpos := l.start_pos
  have hget : ∀ k, (st.writeAt i e).logs[k]? = if k = i then some e else if i ≤ k then none else st.logs[k]? := by
    intro k
    rw [LogStore.writeAt, makeClone_eq, OrderedMap.getElem?_insert, OrderedMap.getElem?_eraseWhere]
    simp only [decide_eq_true_eq]
  refine ⟨⟨?_, ?_⟩, h.start, h.start_lt, by rw [IndexedLog.next_writeAt e h1 h2]; omega⟩
  · rw [ExtTreeMap.mem_iff_isSome_getElem?, hget, if_neg (by omega), if_neg (by omega),
      ← ExtTreeMap.mem_iff_isSome_getElem?]
    exact h.zero
  · intro k hk
    rw [hget, IndexedLog.get?_writeAt e h1 h2, h.entries k hk]
    by_cases hki : k = i
    · rw [if_pos hki, if_pos hki]
    · have hlt : i ≤ k ↔ i < k := by omega
      simp only [if_neg hki, hlt]

theorem compact (h : Holds st l) {j : Nat} (hj : j < 2 ^ 64 - 1) :
    ∃ st', st.compact j = some st' ∧ st'.logs[0]? = st.logs[0]? ∧ Holds st' (l.compact j) := by
  have hpos := l.start_pos
  have hne : j ≠ 2 ^ 64 - 1 := by omega
  have hstart := h.start
  have hstart_lt := h.start_lt
  have hnext_le := h.next_le
  unfold LogStore.compact
  rw [if_neg hne]
  refine ⟨_, rfl, ?_⟩
  have hget : ∀ k, (OrderedMap.eraseAll st.logs (List.range' st.startIdx (j + 1 - st.startIdx)))[k]? =
      if l.start ≤ k ∧ k ≤ j then none else st.logs[k]? := by
    intro k
    simp only [OrderedMap.getElem?_eraseAll, List.mem_range'_1, hstart]
    by_cases hk : l.start ≤ k ∧ k ≤ j
    · rw [if_pos hk, if_pos (by omega)]
    · rw [if_neg hk, if_neg (by omega)]
  have hzero := hget 0
  rw [if_neg (by omega)] at hzero
  refine ⟨hzero, ⟨?_, ?_⟩, ?_, ?_, ?_⟩
  · rw [ExtTreeMap.mem_iff_isSome_getElem?, hzero, ← ExtTreeMap.mem_iff_isSome_getElem?]
    exact h.zero
  · intro k hk
    rw [hget, IndexedLog.get?_compact, h.entries k hk]
    by_cases hkj : k ≤ j
    · rw [if_pos hkj]
      by_cases hs : l.start ≤ k
      · rw [if_pos ⟨hs, hkj⟩]
      · rw [if_neg (by omega)]
        exact IndexedLog.get?_of_lt (by omega)
    · rw [if_neg hkj, if_neg (by omega)]
  · simp only [IndexedLog.compact, hstart]
    split <;> omega
  · simp only [IndexedLog.compact]
    omega
  · rw [IndexedLog.next_compact]
    omega

/-! ## `apply_pack` -/

/-- A pack with entries extends the log; onto a store without entries it starts a new one. -/
theorem applyPack {nu : Nuraft} {p : Bytes} {es : List LogEntry} {i : Nat} (h : Holds st l) (hp : PackOf nu p es)
    (hne : es ≠ []) (hi : 1 ≤ i) (hat : i = l.next ∨ l.entries = []) (hbound : i + es.length ≤ 2 ^ 64) :
    ∃ st', st.applyPack nu i p = (.ok (), st') ∧ st'.logs[0]? = st.logs[0]? ∧ Holds st' (l.extend i hi es) := by
  have hpos : 0 < es.length := List.length_pos_iff.2 hne
  have hget : ∀ k, (LogStore.putFrom st.logs i es)[k]? =
      if i ≤ k ∧ k < i + es.length then es[k - i]? else st.logs[k]? := LogStore.getElem?_putFrom hbound
  have hzero := hget 0
  rw [if_neg (by omega)] at hzero
  have hlogs : LogsHold (LogStore.putFrom st.logs i es) (l.extend i hi es) := by
    constructor
    · rw [ExtTreeMap.mem_iff_isSome_getElem?, hzero, ← ExtTreeMap.mem_iff_isSome_getElem?]
      exact h.zero
    · intro k hk
      rw [hget, IndexedLog.get?_extend hi hat, h.entries k hk]
  have hentries : (l.extend i hi es).entries ≠ [] := IndexedLog.entries_extend_ne_nil hi hne
  have hnext : (l.extend i hi es).next = i + es.length := IndexedLog.next_extend hi hat
  have hlt : (l.extend i hi es).start < (l.extend i hi es).next := by
    have hlen := List.length_pos_iff.2 hentries
    unfold IndexedLog.next
    omega
  refine ⟨_, LogStore.applyPack_ok hp, hzero, hlogs, ?_, by omega, by omega⟩
  simp only [LogStore.resetStart, hlogs.upperBound_zero, if_neg hentries, Option.getD_some]

/-- A pack without entries leaves the map alone; a store without entries goes back to index 1. -/
theorem applyPack_nil {nu : Nuraft} {p : Bytes} (h : Holds st l) (hp : PackOf nu p []) (i : Nat) :
    ∃ st', st.applyPack nu i p = (.ok (), st') ∧ st'.logs = st.logs ∧
      Holds st' (if l.entries = [] then IndexedLog.empty else l) := by
  refine ⟨_, LogStore.applyPack_ok hp, rfl, ?_⟩
  have hlogs : LogsHold (LogStore.putFrom st.logs i []) l := h.toLogsHold
  by_cases he : l.entries = []
  · rw [if_pos he]
    refine ⟨⟨h.zero, ?_⟩, ?_, by decide, by decide⟩
    · intro k hk
      rw [IndexedLog.get?_of_nil rfl]
      exact (h.entries k hk).trans (IndexedLog.get?_of_nil he k)
    · simp only [LogStore.resetStart, hlogs.upperBound_zero, if_pos he]
      rfl
  · rw [if_neg he]
    refine ⟨hlogs, ?_, h.start_lt, h.next_le⟩
    simp only [LogStore.resetStart, hlogs.upperBound_zero, if_neg he, Option.getD_some]

end Holds

/-! ## The operations as one step -/

/-- A call of the log store; a pack comes with the entries it holds. -/
inductive LogOp
  | append (e : LogEntry)
  | writeAt (i : Nat) (e : LogEntry)
  | compact (j : Nat)
  | applyPack (i : Nat) (p : Bytes) (es : List LogEntry)

namespace LogOp

/-- The store after the call; `none` if it throws or does not return. -/
def run (nu : Nuraft) (st : LogStore) : LogOp → Option LogStore
  | .append e => some (st.append e).2
  | .writeAt i e => some (st.writeAt i e)
  | .compact j => st.compact j
  | .applyPack i p _ => match st.applyPack nu i p with
    | (.ok (), st') => some st'
    | (.error _, _) => none

/-- What the call means for the log. -/
def spec (l : IndexedLog LogEntry) : LogOp → IndexedLog LogEntry
  | .append e => l.append e
  | .writeAt i e => l.writeAt i e
  | .compact j => l.compact j
  | .applyPack i _ es => if hi : 1 ≤ i then l.extend i hi es else l

/-- When a call is allowed in a store: overwrites stay in range, packs are well formed and not empty
and go to the end of the log or into a store without entries, and all indices are below 2^64 - 1. -/
def Allowed (nu : Nuraft) (st : LogStore) : LogOp → Prop
  | .append _ => st.nextSlot < 2 ^ 64 - 1
  | .writeAt i _ => st.startIndex ≤ i ∧ i ≤ st.nextSlot ∧ i < 2 ^ 64 - 1
  | .compact j => j < 2 ^ 64 - 1
  | .applyPack i p es => PackOf nu p es ∧ es ≠ [] ∧ i + es.length ≤ 2 ^ 64 - 1 ∧
    (i = st.nextSlot ∨ (st.isEmpty = true ∧ 1 ≤ i))

/-- Each call of the sequence is allowed in the store the calls before it lead to. -/
def AllAllowed (nu : Nuraft) : LogStore → List LogOp → Prop
  | _, [] => True
  | st, op :: ops => op.Allowed nu st ∧ ∀ st', op.run nu st = some st' → AllAllowed nu st' ops

end LogOp

/-- The store holds the log, its dummy is in place, and no index reaches 2^64 - 1. -/
structure Refines (nu : Nuraft) (st : LogStore) (l : IndexedLog LogEntry) : Prop extends Holds st l where
  dummy : st.logs[0]? = some (dummyEntry nu)
  next_lt : l.next < 2 ^ 64

theorem refines_new (nu : Nuraft) : Refines nu (LogStore.new nu) IndexedLog.empty where
  toHolds := holds_new nu
  dummy := by rw [LogStore.new, OrderedMap.getElem?_insert, if_pos rfl]
  next_lt := by decide

/-- A loop over consecutive indices that collects one result each. -/
theorem mapM_range' {f : Nat → Except Exn LogEntry} {es : List LogEntry} {a : Nat}
    (h : ∀ t e, es[t]? = some e → f (a + t) = .ok e) : (List.range' a es.length).mapM f = .ok es := by
  induction es generalizing a with
  | nil => rfl
  | cons e es ih =>
    have hhead : f a = .ok e := h 0 e rfl
    have htail : (List.range' (a + 1) es.length).mapM f = .ok es := by
      apply ih
      intro t e' ht
      rw [show a + 1 + t = a + (t + 1) by omega]
      exact h (t + 1) e' ht
    rw [List.length_cons, List.range'_succ, List.mapM_cons, hhead, ok_bind, htail]
    rfl

namespace Refines
variable {nu : Nuraft} {st : LogStore} {l : IndexedLog LogEntry}

theorem nextSlot_next (h : Refines nu st l) : st.nextSlot = l.next := by
  rw [h.nextSlot_eq, Nat.mod_eq_of_lt h.next_lt]

/-- **One call**: it returns, and the store then holds what the call means. -/
theorem run {op : LogOp} (h : Refines nu st l) (hop : op.Allowed nu st) :
    ∃ st', op.run nu st = some st' ∧ Refines nu st' (op.spec l) := by
  have hpos := l.start_pos
  have hnpos := l.next_pos
  have hslot := h.nextSlot_next
  have hstart : st.startIndex = l.start := h.start
  cases op with
  | append e =>
    simp only [LogOp.Allowed, hslot] at hop
    refine ⟨_, rfl, h.toHolds.append e h.next_lt, ?_, ?_⟩
    · rw [h.append_snd, Nat.mod_eq_of_lt h.next_lt, OrderedMap.getElem?_insert, if_neg (by omega)]
      exact h.dummy
    · simp only [LogOp.spec, IndexedLog.next_append]
      omega
  | writeAt i e =>
    simp only [LogOp.Allowed, hslot, hstart] at hop
    refine ⟨_, rfl, h.toHolds.writeAt e hop.1 hop.2.1 (by omega), ?_, ?_⟩
    · rw [LogStore.writeAt, OrderedMap.getElem?_insert, if_neg (by omega), OrderedMap.getElem?_eraseWhere]
      simp only [decide_eq_true_eq]
      rw [if_neg (by omega)]
      exact h.dummy
    · simp only [LogOp.spec, IndexedLog.next_writeAt e hop.1 hop.2.1]
      omega
  | compact j =>
    simp only [LogOp.Allowed] at hop
    obtain ⟨st', hst', hzero, hholds⟩ := h.toHolds.compact hop
    have hlt := h.next_lt
    refine ⟨st', hst', hholds, hzero.trans h.dummy, ?_⟩
    simp only [LogOp.spec, IndexedLog.next_compact]
    omega
  | applyPack i p es =>
    obtain ⟨hp, hne, hbound, hat⟩ := hop
    rw [hslot, h.isEmpty_iff] at hat
    have hi : 1 ≤ i := by omega
    have hat' : i = l.next ∨ l.entries = [] := hat.imp id And.left
    obtain ⟨st', hst', hzero, hholds⟩ := h.toHolds.applyPack hp hne hi hat' (by omega)
    have hspec : LogOp.spec l (.applyPack i p es) = l.extend i hi es := dif_pos hi
    refine ⟨st', by simp only [LogOp.run, hst'], ?_⟩
    rw [hspec]
    refine ⟨hholds, hzero.trans h.dummy, ?_⟩
    rw [IndexedLog.next_extend hi hat']
    omega

/-- **A whole run**: no call fails, and the store ends with the log that the calls mean. -/
theorem runAll {ops : List LogOp} (h : Refines nu st l) (hops : LogOp.AllAllowed nu st ops) :
    ∃ st', ops.foldlM (fun st op => op.run nu st) st = some st' ∧ Refines nu st' (ops.foldl LogOp.spec l) := by
  induction ops generalizing st l with
  | nil => exact ⟨st, rfl, h⟩
  | cons op ops ih =>
    obtain ⟨st1, h1, href⟩ := h.run hops.1
    obtain ⟨st2, h2, href2⟩ := ih href (hops.2 st1 h1)
    exact ⟨st2, by simp [h1, h2], href2⟩

/-! ## What is observed of a store -/

/-- `find(index)`, else the dummy. -/
theorem findOrDummy_eq (h : Refines nu st l) (i : Nat) :
    st.findOrDummy i = .ok ((l.get? i).getD (dummyEntry nu)) := by
  have hpos := l.start_pos
  unfold LogStore.findOrDummy
  by_cases hi : i = 0
  · have hnone : l.get? 0 = none := IndexedLog.get?_of_lt (by omega)
    simp [hi, h.dummy, hnone]
  · rw [h.entries i hi, h.dummy]
    cases l.get? i with
    | none => rfl
    | some e => rfl

theorem lastEntry_eq (h : Refines nu st l) : st.lastEntry = .ok (l.entries.getLast?.getD (dummyEntry nu)) := by
  have hnpos := l.next_pos
  have hlt := h.next_lt
  have hindex : (st.nextSlot + (2 ^ 64 - 1)) % 2 ^ 64 = l.next - 1 := by
    rw [h.nextSlot_next]
    omega
  have hlast : l.get? (l.next - 1) = l.entries.getLast? := by
    unfold IndexedLog.next
    by_cases he : l.entries = []
    · rw [IndexedLog.get?_of_nil he, he]
      rfl
    · have hlen := List.length_pos_iff.2 he
      rw [IndexedLog.get?_of_le (by omega), List.getLast?_eq_getElem?,
        show l.start + l.entries.length - 1 - l.start = l.entries.length - 1 by omega]
  rw [LogStore.lastEntry, hindex, h.findOrDummy_eq, hlast]
  rfl

theorem logEntries_eq (h : Refines nu st l) {a b : Nat} (h1 : l.start ≤ a) (h2 : a ≤ b) (h3 : b ≤ l.next) :
    st.logEntries a b = .ok (l.slice a (b - a)) := by
  have hlen : (l.slice a (b - a)).length = b - a := IndexedLog.length_slice h1 (by omega)
  have hloop : st.logEntries a b = (List.range' a (l.slice a (b - a)).length).mapM fun ii => do
      let src ← st.findOrDummy ii
      return makeClone src := by
    rw [hlen, LogStore.logEntries, if_neg (by omega)]
  rw [hloop]
  refine mapM_range' fun t e ht => ?_
  rw [h.findOrDummy_eq, (IndexedLog.get?_of_slice h1 ht).2]
  rfl

end Refines

/-- Everything the log store's interface shows of its contents, in terms of a log. -/
structure Observed (nu : Nuraft) (st : LogStore) (l : IndexedLog LogEntry) : Prop where
  keys : ∀ k, k ∈ st.logs ↔ k = 0 ∨ (l.start ≤ k ∧ k < l.next)
  nextSlot : st.nextSlot = l.next
  startIndex : st.startIndex = l.start
  append : ∀ e, (st.append e).1 = l.next
  entryAt : ∀ i, st.entryAt i = .ok ((l.get? i).getD (dummyEntry nu))
  termAt : ∀ i, st.termAt i = .ok (((l.get? i).map LogEntry.term).getD 0)
  lastEntry : st.lastEntry = .ok (l.entries.getLast?.getD (dummyEntry nu))
  logEntries : ∀ a b, l.start ≤ a → a ≤ b → b ≤ l.next →
    st.logEntries a b = .ok (l.slice a (b - a))

theorem Refines.observed {nu : Nuraft} {st : LogStore} {l : IndexedLog LogEntry} (h : Refines nu st l) :
    Observed nu st l where
  keys := h.mem_iff
  nextSlot := h.nextSlot_next
  startIndex := h.start
  append := fun e => by rw [h.append_fst, Nat.mod_eq_of_lt h.next_lt]
  entryAt := fun i => by simp [LogStore.entryAt, h.findOrDummy_eq]
  termAt := fun i => by
    rw [LogStore.termAt, h.findOrDummy_eq, ok_bind, pure_eq_ok]
    cases l.get? i <;> rfl
  lastEntry := h.lastEntry_eq
  logEntries := fun _ _ => h.logEntries_eq

/-- **The log store refines an abstract log.** From a fresh store every sequence of allowed calls
returns, and all that can be observed of the store afterwards is that of the log the calls mean. -/
theorem log_store_refines (nu : Nuraft) (ops : List LogOp) (h : LogOp.AllAllowed nu (LogStore.new nu) ops) :
    ∃ st, ops.foldlM (fun st op => op.run nu st) (LogStore.new nu) = some st ∧
      Observed nu st (ops.foldl LogOp.spec IndexedLog.empty) := by
  obtain ⟨st, hst, href⟩ := (refines_new nu).runAll h
  exact ⟨st, hst, href.observed⟩

/-- Two appends, an overwrite of the first, a compaction beyond the end, and a pack into the store
that is then empty. -/
def demoOps : List LogOp :=
  let e : LogEntry := ⟨3, [1], 1, 0, false, 0⟩
  [.append e, .append e, .writeAt 1 e, .compact 5,
    .applyPack 9 (packBytes refNuraft [refNuraft.entrySerialize e]) [e]]

theorem demoOps_allowed : LogOp.AllAllowed refNuraft (LogStore.new refNuraft) demoOps := by
  refine ⟨show LogStore.nextSlot _ < _ by decide, ?_⟩
  rintro _ ⟨⟩
  refine ⟨show LogStore.nextSlot _ < _ by decide, ?_⟩
  rintro _ ⟨⟩
  refine ⟨show LogStore.startIndex _ ≤ _ ∧ _ ≤ LogStore.nextSlot _ ∧ _ by decide, ?_⟩
  rintro _ ⟨⟩
  refine ⟨show 5 < _ by decide, ?_⟩
  rintro _ ⟨⟩
  have hpack : PackOf refNuraft (packBytes refNuraft [refNuraft.entrySerialize ⟨3, [1], 1, 0, false, 0⟩])
      [⟨3, [1], 1, 0, false, 0⟩] := ⟨_, rfl, by decide, by decide, .cons (by decide) .nil⟩
  refine ⟨⟨hpack, by decide, by decide, Or.inr ⟨by decide, by decide⟩⟩, ?_⟩
  rintro _ _
  trivial

/-- The store of that run holds one entry, at index 9. -/
theorem log_store_refines_demo :
    ∃ st, demoOps.foldlM (fun st op => op.run refNuraft st) (LogStore.new refNuraft) = some st ∧
      Observed refNuraft st (demoOps.foldl LogOp.spec IndexedLog.empty) ∧ st.startIndex = 9 ∧ st.nextSlot = 10 := by
  obtain ⟨st, hst, hobs⟩ := log_store_refines refNuraft demoOps demoOps_allowed
  exact ⟨st, hst, hobs, hobs.startIndex, hobs.nextSlot⟩

end ReplicatedSplinter
