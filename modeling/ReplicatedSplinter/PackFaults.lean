import ReplicatedSplinter.LogTransfer
/-!
# `apply_pack` on damaged packs

The loop of `apply_pack` stores each entry as soon as it has read it, and `start_idx_` is computed
after the loop (`in_memory_log_store.cpp:244-270`). A pack that turns out to be damaged leaves the
entries before the damage in `logs_`, and `start_idx_` as it was.

| here | there |
| --- | --- |
| `ReadsEntries`  | the entries one iteration after the other reads (`:246-255`) |
| `DamagedAfter`  | a pack whose count is read and not negative, with the entries before the first one that fails |
-/

namespace ReplicatedSplinter
open ByteCodec Std

namespace LogStore

/-- From `r` the loop reads `es` and comes to `r'`. -/
inductive ReadsEntries (nu : Nuraft) : Reader → List LogEntry → Reader → Prop
  | nil (r : Reader) : ReadsEntries nu r [] r
  | cons {r r1 r' : Reader} {le : LogEntry} {es : List LogEntry} (h : readEntry nu r = .ok (le, r1))
      (hrest : ReadsEntries nu r1 es r') : ReadsEntries nu r (le :: es) r'

/-- The pack announces more entries than `es`, begins with `es`, and the next entry cannot be read. -/
def DamagedAfter (nu : Nuraft) (pack : Bytes) (es : List LogEntry) (e : Exn) : Prop :=
  ∃ nlogs r r', nu.getInt ⟨pack, 0⟩ = .ok (nlogs, r) ∧ ¬ nlogs < 0 ∧ es.length < nlogs.toInt.toNat ∧
    ReadsEntries nu r es r' ∧ readEntry nu r' = .error e

/-- The loop throws at the first entry it cannot read, with the ones before it stored. -/
theorem applyLoop_error {nu : Nuraft} {index n ii : Nat} {r : Reader} {st st' : LogStore} {e : Exn} :
    applyLoop nu index n ii r st = (.error e, st') ↔
      ∃ es r', es.length < n ∧ ReadsEntries nu r es r' ∧ readEntry nu r' = .error e ∧
        st' = { st with logs := putFrom st.logs (index + ii) es } := by
  induction n generalizing ii r st with
  | zero => simp [applyLoop]
  | succ n ih =>
    cases hr : readEntry nu r with
    | error e' =>
      simp only [applyLoop, hr, Prod.mk.injEq, Except.error.injEq]
      constructor
      · rintro ⟨rfl, rfl⟩
        exact ⟨[], r, Nat.succ_pos n, .nil r, hr, rfl⟩
      · rintro ⟨es, r', -, hread, he, rfl⟩
        cases hread with
        | nil =>
          rw [hr, Except.error.injEq] at he
          exact ⟨he, rfl⟩
        | cons h hrest =>
          rw [hr] at h
          cases h
    | ok x =>
      obtain ⟨le, r1⟩ := x
      simp only [applyLoop, hr]
      rw [ih]
      constructor
      · rintro ⟨es, r', hlen, hread, he, rfl⟩
        exact ⟨le :: es, r', Nat.succ_lt_succ hlen, .cons hr hread, he, rfl⟩
      · rintro ⟨es, r', hlen, hread, he, rfl⟩
        cases hread with
        | nil =>
          rw [hr] at he
          cases he
        | cons h hrest =>
          rw [hr, Except.ok.injEq, Prod.mk.injEq] at h
          obtain ⟨rfl, rfl⟩ := h
          exact ⟨_, r', Nat.lt_of_succ_lt_succ hlen, hrest, he, rfl⟩

/-- What a throw of `apply_pack` leaves behind. -/
theorem applyPack_error {nu : Nuraft} {st st' : LogStore} {index : Nat} {pack : Bytes} {e : Exn}
    (h : st.applyPack nu index pack = (.error e, st')) :
    st' = st ∨ ∃ es, DamagedAfter nu pack es e ∧ st' = { st with logs := putFrom st.logs index es } := by
  unfold applyPack at h
  cases hint : nu.getInt ⟨pack, 0⟩ with
  | error e' =>
    simp only [hint, Prod.mk.injEq] at h
    exact .inl h.2.symm
  | ok x =>
    obtain ⟨nlogs, r⟩ := x
    simp only [hint] at h
    by_cases hneg : nlogs < 0
    · rw [if_pos hneg, Prod.mk.injEq] at h
      exact .inl h.2.symm
    · rw [if_neg hneg] at h
      cases hloop : applyLoop nu index nlogs.toInt.toNat 0 r st with
      | mk res st1 =>
        cases res with
        | ok u =>
          simp only [hloop] at h
          cases h
        | error e1 =>
          simp only [hloop, Prod.mk.injEq, Except.error.injEq] at h
          obtain ⟨rfl, rfl⟩ := h
          obtain ⟨es, r', hlen, hread, he, rfl⟩ := applyLoop_error.1 hloop
          exact .inr ⟨es, ⟨nlogs, r, r', hint, hneg, hlen, hread, he⟩, rfl⟩

theorem applyPack_damaged {nu : Nuraft} {st : LogStore} {index : Nat} {pack : Bytes} {es : List LogEntry} {e : Exn}
    (h : DamagedAfter nu pack es e) :
    st.applyPack nu index pack = (.error e, { st with logs := putFrom st.logs index es }) := by
  obtain ⟨nlogs, r, r', hint, hneg, hlen, hread, he⟩ := h
  have hloop : applyLoop nu index nlogs.toInt.toNat 0 r st =
      (.error e, { st with logs := putFrom st.logs (index + 0) es }) :=
    applyLoop_error.2 ⟨es, r', hlen, hread, he, rfl⟩
  simp only [applyPack, hint, if_neg hneg, hloop]
  rfl

/-! ## When nothing has changed -/

theorem putFrom_eq_iff {es : List LogEntry} {logs : ExtTreeMap Nat LogEntry} {i : Nat} (hlen : es.length ≤ 2 ^ 64) :
    putFrom logs i es = logs ↔ ∀ j le, es[j]? = some le → logs[(i + j) % 2 ^ 64]? = some le := by
  constructor
  · intro h j le hj
    obtain ⟨hlt, -⟩ := List.getElem?_eq_some_iff.1 hj
    have hat : (putFrom logs i es)[(i + j) % 2 ^ 64]? = es[j]? := getElem?_putFrom_wrap hlen hlt
    rw [← hj, ← hat, h]
  · intro h
    apply ExtTreeMap.ext_getElem?
    intro k
    by_cases hk : ∃ j < es.length, k = (i + j) % 2 ^ 64
    · obtain ⟨j, hj, rfl⟩ := hk
      have hget : es[j]? = some es[j] := List.getElem?_eq_getElem hj
      rw [getElem?_putFrom_wrap hlen hj, hget, h j _ hget]
    · refine getElem?_putFrom_of_ne ?_
      intro j hj heq
      exact hk ⟨j, hj, heq⟩

/-- **`apply_pack` and damaged packs.** A throw leaves `logs_` and `start_idx_` as they were exactly when every
entry that stands before the damage was already stored where it goes. -/
theorem applyPack_all_or_nothing_iff (nu : Nuraft) (st : LogStore) (index : Nat) (pack : Bytes) :
    (∀ e, (st.applyPack nu index pack).1 = .error e → (st.applyPack nu index pack).2 = st) ↔
      ∀ es e, DamagedAfter nu pack es e →
        ∀ j le, es[j]? = some le → st.logs[(index + j) % 2 ^ 64]? = some le := by
  have hbound {es : List LogEntry} {e : Exn} (h : DamagedAfter nu pack es e) : es.length ≤ 2 ^ 64 := by
    obtain ⟨nlogs, -, -, -, -, hlen, -⟩ := h
    have hlt := nlogs.toInt_lt
    omega
  constructor
  · intro h es e hdam
    have heq : st.applyPack nu index pack = (.error e, { st with logs := putFrom st.logs index es }) :=
      applyPack_damaged hdam
    have hsame := h e (by rw [heq])
    rw [heq] at hsame
    exact (putFrom_eq_iff (hbound hdam)).1 (congrArg LogStore.logs hsame)
  · intro h e he
    rcases applyPack_error (Prod.ext he rfl) with hst | ⟨es, hdam, hst⟩
    · exact hst
    · refine hst.trans ?_
      rw [(putFrom_eq_iff (hbound hdam)).2 (h es e hdam)]

/-- Two entries announced: an empty payload of term 0, and one of negative size. -/
def demoDamaged : Bytes := leEnc 2 ++ (leEnc 9 ++ List.replicate 9 0 ++ leEnc 4294967295)

/-- A fresh store has taken in the first entry, at index 5, when the second makes `apply_pack` throw: `logs_` has
grown and `start_idx_` is still 1, where no log is. -/
theorem applyPack_keeps_a_part :
    ReachableStore refNuraft (LogStore.new refNuraft) ∧
      ((LogStore.new refNuraft).applyPack refNuraft 5 demoDamaged).1 =
        .error (.runtimeError "Invalid buffer size (negative)") ∧
      ((LogStore.new refNuraft).applyPack refNuraft 5 demoDamaged).2 ≠ LogStore.new refNuraft ∧
      (LogStore.new refNuraft).nextSlot = 1 ∧
      ((LogStore.new refNuraft).applyPack refNuraft 5 demoDamaged).2.nextSlot = 2 ∧
      ((LogStore.new refNuraft).applyPack refNuraft 5 demoDamaged).2.startIndex = 1 ∧
      ((LogStore.new refNuraft).applyPack refNuraft 5 demoDamaged).2.logs.keys = [0, 5] := by
  have hnext : ((LogStore.new refNuraft).applyPack refNuraft 5 demoDamaged).2.nextSlot = 2 := by decide
  refine ⟨.new, by decide, ?_, by decide, hnext, by decide, by decide⟩
  intro h
  rw [h] at hnext
  exact absurd hnext (by decide)

end LogStore

end ReplicatedSplinter
