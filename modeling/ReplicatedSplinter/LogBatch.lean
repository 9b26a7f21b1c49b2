import ReplicatedSplinter.Lib.Batch
import ReplicatedSplinter.LogRefinement
/-!
# Batched reads of the log

NuRaft reads the entries it sends to a follower with `log_entries_ext`, which stops early once the
payloads reach a size hint; `log_entries` reads the whole range.

| here | there |
| --- | --- |
| `StoreRun`   | the stores that any calls of `append`, `write_at`, `compact` and `apply_pack` lead to, in any order and with any arguments |
| `HasDummy`   | what `find(0)` relies on: index 0 is never erased |
| `payload`    | the sum of `get_buf().size()` |

Whether an index is stored does not matter here: both reads put the dummy in the place of a missing
entry, and its payload counts.
-/

namespace ReplicatedSplinter
open ByteCodec Std

/-- The stores that any calls lead to. A call of `compact` that does not return leads nowhere; a call
of `apply_pack` that throws leads to what it has written by then. -/
inductive StoreRun (nu : Nuraft) : LogStore → Prop
  | new : StoreRun nu (LogStore.new nu)
  | append {st : LogStore} (e : LogEntry) (h : StoreRun nu st) : StoreRun nu (st.append e).2
  | writeAt {st : LogStore} (i : Nat) (e : LogEntry) (h : StoreRun nu st) (hi : i < 2 ^ 64) :
      StoreRun nu (st.writeAt i e)
  | compact {st st' : LogStore} (j : Nat) (h : StoreRun nu st) (hj : j < 2 ^ 64) (hst : st.compact j = some st') :
      StoreRun nu st'
  | applyPack {st : LogStore} (i : Nat) (p : Bytes) (h : StoreRun nu st) (hi : i < 2 ^ 64) :
      StoreRun nu (st.applyPack nu i p).2

/-- Index 0 is stored, and compaction never begins there. -/
structure HasDummy (st : LogStore) : Prop where
  zero : 0 ∈ st.logs
  start : 1 ≤ st.startIdx

/-! ## The dummy stays -/

section Dummy
variable {nu : Nuraft} {st : LogStore}

theorem hasDummy_new (nu : Nuraft) : HasDummy (LogStore.new nu) := ⟨by simp [LogStore.new], Nat.le_refl 1⟩

/-- An entry put anywhere does not remove the dummy. -/
theorem HasDummy.insert (h : HasDummy st) (i : Nat) (e : LogEntry) :
    HasDummy { st with logs := st.logs.insert i e } := ⟨by simp [h.zero], h.start⟩

theorem HasDummy.append (h : HasDummy st) (e : LogEntry) : HasDummy (st.append e).2 := h.insert _ e

/-- `write_at(0, ..)` erases the dummy and puts its own entry in its place. -/
theorem HasDummy.writeAt (h : HasDummy st) (i : Nat) (e : LogEntry) : HasDummy (st.writeAt i e) := by
  refine ⟨?_, h.start⟩
  rw [ExtTreeMap.mem_iff_isSome_getElem?, LogStore.writeAt, OrderedMap.getElem?_insert]
  by_cases hi : 0 = i
  · rw [if_pos hi]
    rfl
  · have hout : ¬ decide (i ≤ 0) = true := by simpa using fun h0 => hi h0.symm
    rw [if_neg hi, OrderedMap.getElem?_eraseWhere, if_neg hout, ← ExtTreeMap.mem_iff_isSome_getElem?]
    exact h.zero

theorem HasDummy.compact {st' : LogStore} {j : Nat} (h : HasDummy st) (hst : st.compact j = some st') :
    HasDummy st' := by
  unfold LogStore.compact at hst
  by_cases hj : j = 2 ^ 64 - 1
  · rw [if_pos hj] at hst
    cases hst
  · rw [if_neg hj] at hst
    cases hst
    have hstart := h.start
    have hout : 0 ∉ List.range' st.startIdx (j + 1 - st.startIdx) := by
      rw [List.mem_range'_1]
      omega
    refine ⟨?_, by dsimp only; split <;> omega⟩
    rw [ExtTreeMap.mem_iff_isSome_getElem?, OrderedMap.getElem?_eraseAll, if_neg hout,
      ← ExtTreeMap.mem_iff_isSome_getElem?]
    exact h.zero

theorem HasDummy.applyLoop (h : HasDummy st) (index n ii : Nat) (r : Reader) :
    HasDummy (LogStore.applyLoop nu index n ii r st).2 := by
  induction n generalizing ii r st with
  | zero => exact h
  | succ n ih =>
    rw [LogStore.applyLoop]
    split
    · exact h
    · exact ih (h.insert _ _) _ _

theorem HasDummy.resetStart (h : HasDummy st) : HasDummy st.resetStart := by
  refine ⟨h.zero, ?_⟩
  show 1 ≤ (OrderedMap.upperBound st.logs 0).getD 1
  cases hub : OrderedMap.upperBound st.logs 0 with
  | none => exact Nat.le_refl 1
  | some k => exact compare_lt_iff_lt.1 (OrderedMap.lt_upperBound hub)

theorem HasDummy.applyPack (h : HasDummy st) (i : Nat) (p : Bytes) : HasDummy (st.applyPack nu i p).2 := by
  unfold LogStore.applyPack
  split
  · exact h
  · rename_i nlogs r _
    by_cases hneg : nlogs < 0
    · rw [if_pos hneg]
      exact h
    · rw [if_neg hneg]
      have hloop : HasDummy (LogStore.applyLoop nu i nlogs.toInt.toNat 0 r st).2 := h.applyLoop i _ 0 r
      split
      · rename_i heq
        rw [heq] at hloop
        exact hloop
      · rename_i heq
        rw [heq] at hloop
        exact hloop.resetStart

theorem StoreRun.hasDummy (h : StoreRun nu st) : HasDummy st := by
  induction h with
  | new => exact hasDummy_new nu
  | append e _ ih => exact ih.append e
  | writeAt i e _ _ ih => exact ih.writeAt i e
  | compact j _ _ hst ih => exact ih.compact hst
  | applyPack i p _ _ ih => exact ih.applyPack i p

end Dummy

/-! ## The two reads -/

section Reads
variable {st : LogStore}

/-- With the dummy there, every index reads as some entry. -/
theorem HasDummy.findOrDummy (h : HasDummy st) (i : Nat) : ∃ e, st.findOrDummy i = .ok e := by
  obtain ⟨e0, he0⟩ := Option.isSome_iff_exists.1 (ExtTreeMap.mem_iff_isSome_getElem?.1 h.zero)
  unfold LogStore.findOrDummy
  cases st.logs[i]? with
  | some e => exact ⟨e, rfl⟩
  | none => exact ⟨e0, by simp only [he0]⟩

/-- The sum of the payload sizes. -/
def payload (es : List LogEntry) : Nat := Batch.total (fun e => e.buf.length) es

variable {f : Nat → LogEntry}

theorem logEntries_map (hf : ∀ i, st.findOrDummy i = .ok (f i)) {start stop : Nat} (hle : start ≤ stop) :
    st.logEntries start stop = .ok ((List.range' start (stop - start)).map f) := by
  have hread : ∀ t e, ((List.range' start (stop - start)).map f)[t]? = some e →
      (st.findOrDummy (start + t) >>= fun src => .ok (makeClone src)) = .ok e := by
    intro t e ht
    rw [List.getElem?_map] at ht
    obtain ⟨i, hi, rfl⟩ := Option.map_eq_some_iff.1 ht
    obtain ⟨hlt, rfl⟩ := List.getElem?_eq_some_iff.1 hi
    simp [hf]
  have hmap : (List.range' start ((List.range' start (stop - start)).map f).length).mapM
      (fun ii => st.findOrDummy ii >>= fun src => .ok (makeClone src)) = .ok _ := mapM_range' hread
  rw [List.length_map, List.length_range'] at hmap
  rw [LogStore.logEntries, if_neg (by omega)]
  exact hmap

/-- Without a hint the loop reads everything. -/
theorem extLoop_zero (hf : ∀ i, st.findOrDummy i = .ok (f i)) (n ii acc : Nat) :
    st.extLoop 0 n ii acc = .ok ((List.range' ii n).map f) := by
  induction n generalizing ii acc with
  | zero => rfl
  | succ n ih =>
    rw [LogStore.extLoop, hf]
    simp [ih, List.range'_succ]

/-- With a hint the loop fills a batch. -/
theorem extLoop_hint (hf : ∀ i, st.findOrDummy i = .ok (f i)) {h : Int64} (hne : h ≠ 0) (n ii acc : Nat) :
    st.extLoop h n ii acc =
      .ok (Batch.fill (fun e => e.buf.length) h.toUInt64.toNat acc ((List.range' ii n).map f)) := by
  induction n generalizing ii acc with
  | zero => rfl
  | succ n ih =>
    rw [LogStore.extLoop, hf, ok_bind, List.range'_succ, List.map_cons, Batch.fill]
    by_cases hstop : h.toUInt64.toNat ≤ acc + (f ii).buf.length
    · rw [if_pos ⟨hne, hstop⟩, if_pos hstop]
      rfl
    · rw [if_neg (fun hand => hstop hand.2), if_neg hstop, ih]
      rfl

/-- What a hint leaves of the entries of a range. -/
def cut (h : Int64) (es : List LogEntry) : List LogEntry :=
  if h < 0 then []
  else if h = 0 then es
  else Batch.fill (fun e => e.buf.length) h.toUInt64.toNat 0 es

/-- `log_entries_ext` cuts off what `log_entries` returns. -/
theorem HasDummy.logEntriesExt (hd : HasDummy st) {start stop : Nat} (hle : start ≤ stop) (h : Int64) :
    ∃ es, st.logEntries start stop = .ok es ∧ es.length = stop - start ∧
      st.logEntriesExt start stop h = .ok (cut h es) := by
  choose f hf using hd.findOrDummy
  refine ⟨_, logEntries_map hf hle, by simp, ?_⟩
  unfold LogStore.logEntriesExt cut
  by_cases hneg : h < 0
  · rw [if_pos hneg, if_pos hneg]
  · rw [if_neg hneg, if_neg hneg]
    by_cases hzero : h = 0
    · rw [if_pos hzero, hzero]
      exact extLoop_zero hf _ _ _
    · rw [if_neg hzero]
      exact extLoop_hint hf hzero _ _ _

end Reads

/-! ## What a hint leaves -/

section Cut
variable {h : Int64} {es : List LogEntry}

theorem cut_neg (hneg : h < 0) : cut h es = [] := if_pos hneg

theorem cut_zero : cut 0 es = es := rfl

theorem cut_pos (hpos : 0 < h) :
    cut h es = Batch.fill (fun e => e.buf.length) h.toUInt64.toNat 0 es := by
  have hne : h ≠ 0 := (Int64.ne_of_lt hpos).symm
  rw [cut, if_neg (Int64.not_lt.2 (Int64.le_of_lt hpos)), if_neg hne]

/-- For a hint that is not negative the cast to `ulong` keeps its value. -/
theorem hint_le_iff (hpos : 0 ≤ h) (n : Nat) : h.toUInt64.toNat ≤ n ↔ h.toInt ≤ n := by
  have hint : 0 ≤ h.toInt := by simpa using Int64.le_iff_toInt_le.1 hpos
  have hcast : (h.toUInt64.toNat : Int) = h.toInt := by
    rw [Int64.toNat_toUInt64_of_le hpos]
    exact Int.toNat_of_nonneg hint
  omega

/-- A prefix that reaches a positive hint has an entry in it. -/
theorem ne_nil_of_payload (hpos : 0 < h) (hreach : h.toInt ≤ payload es) : es ≠ [] := by
  rintro rfl
  have hlt : 0 < h.toInt := by simpa using Int64.lt_iff_toInt_lt.1 hpos
  have hzero : payload [] = 0 := rfl
  omega

theorem shortest_cut (hpos : 0 < h) {q : List LogEntry} (hq : q <+: es) (hreach : h.toInt ≤ payload q) :
    Batch.Shortest (fun e => e.buf.length) h.toUInt64.toNat 0 es (cut h es) := by
  rw [cut_pos hpos]
  refine Batch.shortest_fill _ _ ⟨q, hq, ne_nil_of_payload hpos hreach, ?_⟩
  rw [Nat.zero_add]
  exact (hint_le_iff (Int64.le_of_lt hpos) _).2 hreach

theorem cut_all (hpos : 0 < h) (hno : ∀ q, q <+: es → payload q < h.toInt) : cut h es = es := by
  rw [cut_pos hpos]
  refine Batch.fill_eq_self _ _ fun q hq _ => ?_
  rw [Nat.zero_add, ← Nat.not_le, hint_le_iff (Int64.le_of_lt hpos)]
  exact Int.not_le.2 (hno q hq)

theorem cut_pre (h : Int64) (es : List LogEntry) : cut h es <+: es := by
  unfold cut
  split
  · exact List.nil_prefix
  · split
    · exact List.prefix_refl _
    · exact Batch.fill_pre _ _ _ _

theorem cut_ne_nil (hpos : 0 ≤ h) (hne : es ≠ []) : cut h es ≠ [] := by
  rw [cut, if_neg (Int64.not_lt.2 hpos)]
  by_cases hzero : h = 0
  · rwa [if_pos hzero]
  · rw [if_neg hzero]
    exact Batch.fill_ne_nil _ _ _ hne

end Cut

/-- **A batched read is a read.** In every store that calls lead to, and for every range:
`log_entries_ext` returns nothing for a negative hint, what `log_entries` returns for the hint 0, and
for a positive hint the shortest non-empty prefix of that whose payloads reach the hint, or all of it
if none does. From a range with an index in it a hint that is not negative yields an entry. -/
theorem log_entries_ext_agrees (nu : Nuraft) (st : LogStore) (hst : StoreRun nu st) (start stop : Nat)
    (hle : start ≤ stop) (h : Int64) :
    ∃ es batch, st.logEntries start stop = .ok es ∧ es.length = stop - start ∧
      st.logEntriesExt start stop h = .ok batch ∧
      (h < 0 → batch = []) ∧
      (h = 0 → batch = es) ∧
      (0 < h → (∃ q, q <+: es ∧ h.toInt ≤ payload q) →
        batch <+: es ∧ batch ≠ [] ∧ h.toInt ≤ payload batch ∧
          ∀ q, q <+: es → h.toInt ≤ payload q → batch.length ≤ q.length) ∧
      (0 < h → (∀ q, q <+: es → payload q < h.toInt) → batch = es) ∧
      (start < stop → 0 ≤ h → batch ≠ []) := by
  obtain ⟨es, hread, hlen, hext⟩ := hst.hasDummy.logEntriesExt hle h
  refine ⟨es, cut h es, hread, hlen, hext, cut_neg, ?_, ?_, cut_all, fun hlt hpos => ?_⟩
  · rintro rfl
    exact cut_zero
  · rintro hpos ⟨q, hq, hreach⟩
    have hs := shortest_cut hpos hq hreach
    have hiff := fun n => hint_le_iff (Int64.le_of_lt hpos) n
    have hreaches := hs.reaches
    rw [Nat.zero_add, hiff] at hreaches
    refine ⟨hs.isPre, hs.nonempty, hreaches, fun q hq hreach => ?_⟩
    refine hs.shortest q hq (ne_nil_of_payload hpos hreach) ?_
    rw [Nat.zero_add, hiff]
    exact hreach
  · exact cut_ne_nil hpos (List.ne_nil_of_length_pos (by omega))

/-- Three entries, the first with an empty payload. -/
def demoBatchStore : LogStore :=
  let entry (payload : Bytes) : LogEntry := ⟨1, payload, 1, 0, false, 0⟩
  ((((LogStore.new refNuraft).append (entry [])).2.append (entry [7, 8])).2.append (entry [9])).2

/-- A hint of one byte takes the entry without payload and the next one. -/
theorem log_entries_ext_agrees_demo :
    ∃ es batch, demoBatchStore.logEntries 1 4 = .ok es ∧ demoBatchStore.logEntriesExt 1 4 1 = .ok batch ∧
      batch <+: es ∧ batch.length = 2 := by
  have hst : StoreRun refNuraft demoBatchStore := .append _ (.append _ (.append _ .new))
  obtain ⟨es, batch, hread, -, hext, -, -, hshort, -, -⟩ := log_entries_ext_agrees refNuraft demoBatchStore hst 1 4
    (by decide) 1
  have hes : demoBatchStore.logEntries 1 4 = .ok
      [⟨1, [], 1, 0, false, 0⟩, ⟨1, [7, 8], 1, 0, false, 0⟩, ⟨1, [9], 1, 0, false, 0⟩] := by decide
  have hbatch : demoBatchStore.logEntriesExt 1 4 1 = .ok [⟨1, [], 1, 0, false, 0⟩, ⟨1, [7, 8], 1, 0, false, 0⟩] := by
    decide
  rw [hread] at hes
  cases hes
  rw [hext] at hbatch
  cases hbatch
  exact ⟨_, _, hread, hext, (hshort (by decide) ⟨_, List.prefix_refl _, by decide⟩).1, rfl⟩

end ReplicatedSplinter
