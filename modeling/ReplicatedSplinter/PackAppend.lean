import ReplicatedSplinter.LogTransfer
/-!
# A pack at the end of the log

`apply_pack(next_slot(), p)` writes the entries of `p` at explicit indices and then takes
`start_idx_` from the smallest positive key; `append` derives its index from `start_idx_` and the
number of keys and leaves `start_idx_` alone. Here the two are compared for every pack and store.

| here | there |
| --- | --- |
| `appendAll`      | `append` on each entry in turn |
| `endIndex`       | `start_idx_ + logs_.size() - 1` before it is cut to 64 bits |
| `Alike`          | same `logs_`, `start_idx_` and `next_slot()`, where `view` is what counts of an entry |
| `PackIsAppend`   | when the two ways lead to the same state |

They part in two places. `apply_pack` sets `start_idx_` to 1 in a store without entries, so a pack
without entries moves the end of a log that was compacted away. And past the last index `append`
writes to index 0 again and again, while `apply_pack` goes on to the indices 1, 2, ...
-/

namespace ReplicatedSplinter
open ByteCodec Std

namespace LogStore

def appendAll (st : LogStore) (es : List LogEntry) : LogStore := es.foldl (fun st e => (st.append e).2) st

def endIndex (st : LogStore) : Nat := st.startIdx + st.logs.size - 1

theorem appendAll_cons (st : LogStore) (e : LogEntry) (es : List LogEntry) :
    st.appendAll (e :: es) = (st.append e).2.appendAll es := rfl

@[simp] theorem startIdx_appendAll (st : LogStore) (es : List LogEntry) : (st.appendAll es).startIdx = st.startIdx := by
  induction es generalizing st with
  | nil => rfl
  | cons e es ih => exact ih _

end LogStore

/-- What a serialized entry carries. -/
def LogEntry.carried (e : LogEntry) : UInt64 × UInt8 × Bytes := (e.term, e.valType, e.buf)

theorem LogEntry.Same.carried_eq {e e' : LogEntry} (h : e.Same e') : e.carried = e'.carried := by
  simp [LogEntry.carried, h.term, h.valType, h.buf]

theorem map_carried_eq {es es' : List LogEntry} (h : List.Forall₂ LogEntry.Same es es') :
    es.map LogEntry.carried = es'.map LogEntry.carried := by
  induction h with
  | nil => rfl
  | cons hsame _ ih => rw [List.map_cons, List.map_cons, hsame.carried_eq, ih]

structure Alike {β : Type} (view : LogEntry → β) (st st' : LogStore) : Prop where
  logs : ∀ k : Nat, st.logs[k]?.map view = st'.logs[k]?.map view
  startIdx : st.startIdx = st'.startIdx
  nextSlot : st.nextSlot = st'.nextSlot

/-- The pack has entries, or the store has, or its first index is 1; and an entry that lands past the
last index changes nothing that `append` would not: at index 0 it is the last one appended, further on
it is there already. -/
structure PackIsAppend {β : Type} (view : LogEntry → β) (st : LogStore) (es : List LogEntry) : Prop where
  start : es ≠ [] ∨ st.isEmpty = false ∨ st.startIndex = 1
  wrapped : ∀ j e, es[j]? = some e → 2 ^ 64 ≤ st.endIndex + j →
    (if st.endIndex + j = 2 ^ 64 then es.getLast? else st.logs[st.endIndex + j - 2 ^ 64]?).map view = some (view e)

/-! ## Appending -/

namespace Holds
variable {st : LogStore} {l : IndexedLog LogEntry}

theorem endIndex_eq (h : Holds st l) : st.endIndex = l.next := by
  have hsize := h.size_eq
  have hstart := h.start
  unfold LogStore.endIndex IndexedLog.next
  omega

/-- The store after the appends: from the end on the entries up to the last index, and at index 0 the
last entry if there was no index for it. -/
theorem getElem?_appendAll (h : Holds st l) (es : List LogEntry) (k : Nat) :
    (st.appendAll es).logs[k]? =
      if l.next ≤ k ∧ k < l.next + es.length ∧ k < 2 ^ 64 then es[k - l.next]?
      else if k = 0 ∧ 2 ^ 64 < l.next + es.length then es.getLast? else st.logs[k]? := by
  induction es generalizing st l with
  | nil =>
    have hle := h.next_le
    rw [List.length_nil, if_neg (by omega), if_neg (by omega)]
    rfl
  | cons e es ih =>
    have hpos := l.next_pos
    have hle := h.next_le
    rw [LogStore.appendAll_cons, List.length_cons]
    by_cases hlt : l.next < 2 ^ 64
    · rw [ih (h.append e hlt), h.getElem?_append, IndexedLog.next_append, Nat.mod_eq_of_lt hlt]
      by_cases hk : k = l.next
      · -- the place of `e`, which the later ones leave alone
        rw [if_neg (by omega), if_neg (by omega), if_pos hk, if_pos (by omega), hk, Nat.sub_self]
        rfl
      · rw [if_neg hk]
        by_cases hin : l.next ≤ k ∧ k < l.next + (es.length + 1) ∧ k < 2 ^ 64
        · rw [if_pos (by omega), if_pos hin, show k - l.next = k - (l.next + 1) + 1 by omega, List.getElem?_cons_succ]
        · rw [if_neg (by omega), if_neg hin]
          by_cases hzero : k = 0 ∧ 2 ^ 64 < l.next + (es.length + 1)
          · have hne : es ≠ [] := List.ne_nil_of_length_pos (by omega)
            rw [if_pos (by omega), if_pos hzero, List.getLast?_cons_of_ne_nil hne]
          · rw [if_neg (by omega), if_neg hzero]
    · -- no index is left
      have heq : l.next = 2 ^ 64 := by omega
      have hout : ¬ (2 ^ 64 ≤ k ∧ k < 2 ^ 64 + (es.length + 1) ∧ k < 2 ^ 64) := by omega
      rw [ih (h.append_wrapped e heq), h.getElem?_append, heq, Nat.mod_self, if_neg (by omega), if_neg hout]
      by_cases hk : k = 0
      · cases es with
        | nil => simp [hk]
        | cons e' es => simp [hk]
      · simp [hk]

/-- Appending keeps the first index, and only a store that was empty stays empty. -/
theorem appendAll (h : Holds st l) (es : List LogEntry) :
    ∃ l', Holds (st.appendAll es) l' ∧ l'.start = l.start ∧ (l'.entries = [] ↔ l.entries = [] ∧ es = []) := by
  induction es generalizing st l with
  | nil => exact ⟨l, h, rfl, by simp⟩
  | cons e es ih =>
    by_cases hlt : l.next < 2 ^ 64
    · obtain ⟨l', hl', hstart, hnil⟩ := ih (h.append e hlt)
      exact ⟨l', hl', hstart, by rw [hnil]; simp [IndexedLog.append]⟩
    · -- the log reaches to the last index, so it has entries
      have hle := h.next_le
      have hstart_lt := h.start_lt
      have hne : l.entries ≠ [] := by
        intro he
        rw [IndexedLog.next, he, List.length_nil] at hlt
        omega
      obtain ⟨l', hl', hstart, hnil⟩ := ih (h.append_wrapped e (by omega))
      exact ⟨l', hl', hstart, by rw [hnil]; simp [hne]⟩

end Holds

/-! ## The two maps -/

section Compare
variable {β : Type} {view : LogEntry → β} {nu : Nuraft} {st : LogStore} {l : IndexedLog LogEntry} {es es' : List LogEntry}

theorem Holds.slot_add (h : Holds st l) (j : Nat) : (st.nextSlot + j) % 2 ^ 64 = (l.next + j) % 2 ^ 64 := by
  rw [h.nextSlot_eq, Nat.mod_add_mod]

theorem Holds.getElem?_put (h : Holds st l) (hlen : es.length < 2 ^ 64) {j : Nat} (hj : j < es.length) :
    (LogStore.putFrom st.logs st.nextSlot es)[(l.next + j) % 2 ^ 64]? = es[j]? := by
  rw [← h.slot_add]
  exact LogStore.getElem?_putFrom_wrap (Nat.le_of_lt hlen) hj

theorem Holds.getElem?_put_of_ne (h : Holds st l) {k : Nat} (hk : ∀ j < es.length, k ≠ (l.next + j) % 2 ^ 64) :
    (LogStore.putFrom st.logs st.nextSlot es)[k]? = st.logs[k]? := by
  refine LogStore.getElem?_putFrom_of_ne fun j hj => ?_
  rw [h.slot_add]
  exact hk j hj

/-- What the appends leave where entry `j` of a pack lands, when that is past the last index. -/
theorem Holds.getElem?_appendAll_over (h : Holds st l) (hlen : es.length < 2 ^ 64) {j : Nat} (hj : j < es.length)
    (hge : 2 ^ 64 ≤ l.next + j) : (st.appendAll es).logs[l.next + j - 2 ^ 64]? =
      if l.next + j = 2 ^ 64 then es.getLast? else st.logs[l.next + j - 2 ^ 64]? := by
  have hle := h.next_le
  rw [h.getElem?_appendAll, if_neg (by omega)]
  by_cases heq : l.next + j = 2 ^ 64
  · rw [if_pos (by omega), if_pos heq]
  · rw [if_neg (by omega), if_neg heq]

/-- No entry of the pack lands at `k`: then no append writes there either. -/
theorem Holds.getElem?_appendAll_of_ne (h : Holds st l) {k : Nat} (hk : ∀ j < es.length, k ≠ (l.next + j) % 2 ^ 64) :
    (st.appendAll es).logs[k]? = st.logs[k]? := by
  have hle := h.next_le
  have hrange : ¬ (l.next ≤ k ∧ k < l.next + es.length ∧ k < 2 ^ 64) := by
    rintro ⟨h1, h2, h3⟩
    exact hk (k - l.next) (by omega) (by rw [Nat.mod_eq_of_lt (by omega)]; omega)
  have hzero : ¬ (k = 0 ∧ 2 ^ 64 < l.next + es.length) := by
    rintro ⟨rfl, h2⟩
    exact hk (2 ^ 64 - l.next) (by omega) (by rw [Nat.add_sub_cancel' hle, Nat.mod_self])
  rw [h.getElem?_appendAll, if_neg hrange, if_neg hzero]

/-- The map a pack leaves and the map the appends leave agree unless entries land past the last index. -/
theorem Holds.logs_alike_iff (h : Holds st l) (hview : es.map view = es'.map view) (hlen : es.length < 2 ^ 64) :
    (∀ k : Nat, (LogStore.putFrom st.logs st.nextSlot es')[k]?.map view = (st.appendAll es).logs[k]?.map view) ↔
      ∀ j e, es[j]? = some e → 2 ^ 64 ≤ st.endIndex + j →
        (if st.endIndex + j = 2 ^ 64 then es.getLast? else st.logs[st.endIndex + j - 2 ^ 64]?).map view =
          some (view e) := by
  have hle := h.next_le
  have hlen' : es'.length = es.length := by
    have := congrArg List.length hview
    simpa using this.symm
  have hput : ∀ j < es.length,
      (LogStore.putFrom st.logs st.nextSlot es')[(l.next + j) % 2 ^ 64]?.map view = es[j]?.map view := by
    intro j hj
    rw [h.getElem?_put (by omega) (by omega), ← List.getElem?_map, ← List.getElem?_map, hview]
  rw [h.endIndex_eq]
  constructor
  · intro hall j e hj hge
    have hjlt : j < es.length := (List.getElem?_eq_some_iff.1 hj).1
    have hidx : (l.next + j) % 2 ^ 64 = l.next + j - 2 ^ 64 := by omega
    have hk := hall ((l.next + j) % 2 ^ 64)
    rw [hput j hjlt, hj, hidx, h.getElem?_appendAll_over hlen hjlt hge] at hk
    exact hk.symm
  · intro hwrapped k
    by_cases hk : ∃ j, j < es.length ∧ k = (l.next + j) % 2 ^ 64
    · obtain ⟨j, hj, rfl⟩ := hk
      rw [hput j hj]
      by_cases hge : 2 ^ 64 ≤ l.next + j
      · have he : es[j]? = some es[j] := List.getElem?_eq_getElem hj
        have hidx : (l.next + j) % 2 ^ 64 = l.next + j - 2 ^ 64 := by omega
        rw [hidx, h.getElem?_appendAll_over hlen hj hge, hwrapped j _ he hge, he]
        rfl
      · rw [Nat.mod_eq_of_lt (by omega), h.getElem?_appendAll, if_pos (by omega), Nat.add_sub_cancel_left]
    · have hno : ∀ j < es.length, k ≠ (l.next + j) % 2 ^ 64 := fun j hj heq => hk ⟨j, hj, heq⟩
      rw [h.getElem?_put_of_ne (by rwa [hlen']), h.getElem?_appendAll_of_ne hno]

theorem mem_iff_of_map_eq {m m' : ExtTreeMap Nat LogEntry} (h : ∀ k : Nat, m[k]?.map view = m'[k]?.map view) (k : Nat) :
    k ∈ m ↔ k ∈ m' := by
  have hsome := congrArg Option.isSome (h k)
  rw [Option.isSome_map, Option.isSome_map] at hsome
  rw [ExtTreeMap.mem_iff_isSome_getElem?, ExtTreeMap.mem_iff_isSome_getElem?, hsome]

theorem nextSlot_congr {st st' : LogStore} (hstart : st.startIdx = st'.startIdx) (hkeys : ∀ k, k ∈ st.logs ↔ k ∈ st'.logs) :
    st.nextSlot = st'.nextSlot := by
  rw [LogStore.nextSlot, LogStore.nextSlot, hstart, OrderedMap.size_congr hkeys]

/-! ## `start_idx_` -/

/-- With the keys that the appends leave, `apply_pack` finds the `start_idx_` that was there, except
where there is no entry to find it by. -/
theorem Holds.resetStart_eq_iff (h : Holds st l) {logs : ExtTreeMap Nat LogEntry}
    (hkeys : ∀ k, k ∈ logs ↔ k ∈ (st.appendAll es).logs) :
    (LogStore.resetStart { st with logs := logs }).startIdx = st.startIdx ↔
      es ≠ [] ∨ st.isEmpty = false ∨ st.startIndex = 1 := by
  obtain ⟨l', hA, hstart, hnil⟩ := h.appendAll es
  have hbound : (LogStore.resetStart { st with logs := logs }).startIdx =
      (OrderedMap.upperBound (st.appendAll es).logs 0).getD 1 := by
    rw [← OrderedMap.upperBound_congr hkeys]
    rfl
  rw [hbound, hA.upperBound_zero]
  by_cases he : l'.entries = []
  · obtain ⟨hl, rfl⟩ := hnil.1 he
    rw [if_pos he]
    simp [h.isEmpty_iff.2 hl, LogStore.startIndex, eq_comm]
  · rw [if_neg he, Option.getD_some, hstart, h.start]
    refine iff_of_true rfl ?_
    by_cases hes : es = []
    · have hl : l.entries ≠ [] := fun hl => he (hnil.2 ⟨hl, hes⟩)
      exact Or.inr (Or.inl (Bool.eq_false_iff.2 fun hempty => hl (h.isEmpty_iff.1 hempty)))
    · exact Or.inl hes

/-- The two states agree exactly when `PackIsAppend`. -/
theorem Holds.alike_iff (h : Holds st l) (hview : es.map view = es'.map view) (hlen : es.length < 2 ^ 64) :
    Alike view (LogStore.resetStart { st with logs := LogStore.putFrom st.logs st.nextSlot es' }) (st.appendAll es) ↔
      PackIsAppend view st es := by
  have hiff := h.logs_alike_iff hview hlen
  constructor
  · intro halike
    have hstart := halike.startIdx
    rw [LogStore.startIdx_appendAll] at hstart
    exact ⟨(h.resetStart_eq_iff (mem_iff_of_map_eq halike.logs)).1 hstart, hiff.1 halike.logs⟩
  · intro hcond
    have hlogs := hiff.2 hcond.wrapped
    have hkeys := mem_iff_of_map_eq hlogs
    have hstart := (h.resetStart_eq_iff hkeys).2 hcond.start
    rw [← LogStore.startIdx_appendAll st es] at hstart
    exact ⟨hlogs, hstart, nextSlot_congr hstart hkeys⟩

/-- With room for all entries but one, nothing is overwritten that the appends would not. -/
theorem PackIsAppend.of_room (hroom : st.endIndex + es.length ≤ 2 ^ 64 + 1)
    (hstart : es ≠ [] ∨ st.isEmpty = false ∨ st.startIndex = 1) : PackIsAppend view st es := by
  refine ⟨hstart, fun j e hj hge => ?_⟩
  have hjlt : j < es.length := (List.getElem?_eq_some_iff.1 hj).1
  have hlast : es.length - 1 = j := by omega
  rw [if_pos (by omega), List.getLast?_eq_getElem?, hlast, hj]
  rfl

end Compare

/-- Where all of an entry counts, alike is equal. -/
theorem alike_id_iff {st st' : LogStore} : Alike id st st' ↔ st = st' := by
  constructor
  · intro h
    have hlogs : st.logs = st'.logs := ExtTreeMap.ext_getElem? fun k => by simpa using h.logs k
    have hstart := h.startIdx
    cases st
    cases st'
    simp_all
  · rintro rfl
    exact ⟨fun _ => rfl, rfl, rfl⟩

/-- **A pack at the end is the appends, exactly when `PackIsAppend`.** For every store that calls lead
to and every pack `p` of entries `es`, of which `p` carries term, value type and payload: applied at
`next_slot()`, `p` leaves the state that appending what it decodes to leaves, and, as far as `p`
carries the entries, the state that appending `es` leaves, if and only if the condition holds. -/
theorem apply_pack_at_end_iff (nu : Nuraft) (st : LogStore) (hst : ReachableStore nu st) (es es' : List LogEntry)
    (hes : List.Forall₂ LogEntry.Same es es') (p : Bytes) (hp : PackOf nu p es') :
    (st.applyPack nu st.nextSlot p = (.ok (), st.appendAll es') ↔ PackIsAppend id st es') ∧
      ((∃ st', st.applyPack nu st.nextSlot p = (.ok (), st') ∧ Alike LogEntry.carried st' (st.appendAll es)) ↔
        PackIsAppend LogEntry.carried st es) := by
  obtain ⟨l, h⟩ := hst.holds
  have hlen' : es'.length < 2 ^ 64 := by
    obtain ⟨bufs, -, hcount, -, hbufs⟩ := hp
    have := hbufs.length_eq
    omega
  have hcarried := map_carried_eq hes
  rw [LogStore.applyPack_ok hp]
  constructor
  · rw [← h.alike_iff rfl hlen', alike_id_iff]
    simp
  · rw [← h.alike_iff hcarried (by rw [hes.length_eq]; exact hlen')]
    simp

/-- One entry appended and compacted away again: no entries, and `next_slot()` is 2. -/
def compactedStore : LogStore :=
  (((LogStore.new refNuraft).append ⟨1, [7], 1, 0, false, 0⟩).2.compact 1).getD (LogStore.new refNuraft)

theorem compactedStore_reachable : ReachableStore refNuraft compactedStore := by
  have hrun : ((LogStore.new refNuraft).append ⟨1, [7], 1, 0, false, 0⟩).2.compact 1 = some compactedStore := rfl
  exact .compact 1 (.append _ .new) (by decide) hrun

/-- A pack of one entry at the end of that store is an append. -/
theorem apply_pack_at_end_iff_demo :
    compactedStore.applyPack refNuraft compactedStore.nextSlot
        (packBytes refNuraft [refNuraft.entrySerialize ⟨3, [1], 1, 0, false, 0⟩]) =
      (.ok (), compactedStore.appendAll [⟨3, [1], 1, 0, false, 0⟩]) := by
  have hpack : PackOf refNuraft (packBytes refNuraft [refNuraft.entrySerialize ⟨3, [1], 1, 0, false, 0⟩])
      [⟨3, [1], 1, 0, false, 0⟩] := ⟨_, rfl, by decide, by decide, .cons (by decide) .nil⟩
  have hiff := apply_pack_at_end_iff refNuraft compactedStore compactedStore_reachable _ _
    (.cons ⟨rfl, rfl, rfl⟩ .nil) _ hpack
  refine hiff.1.2 ?_
  exact .of_room (by decide) (Or.inl (by simp))

/-- **A pack without entries moves the end of a compacted log.** It takes `next_slot()` from 2 back to
1, where no append would leave it. -/
theorem apply_pack_at_end_fails :
    ReachableStore refNuraft compactedStore ∧ PackOf refNuraft (packBytes refNuraft []) [] ∧
      (compactedStore.applyPack refNuraft compactedStore.nextSlot (packBytes refNuraft [])).1 = .ok () ∧
      (compactedStore.applyPack refNuraft compactedStore.nextSlot (packBytes refNuraft [])).2.startIdx = 1 ∧
      (compactedStore.applyPack refNuraft compactedStore.nextSlot (packBytes refNuraft [])).2.nextSlot = 1 ∧
      (compactedStore.appendAll []).startIdx = 2 ∧ (compactedStore.appendAll []).nextSlot = 2 := by
  refine ⟨compactedStore_reachable, ⟨[], rfl, by decide, by simp, .nil⟩, ?_⟩
  decide

end ReplicatedSplinter
