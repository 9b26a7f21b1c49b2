import ReplicatedSplinter.LogRefinement
/-!
# Copying a range of the log by packs

NuRaft ships a range of one server's log to another as packs (`pack` on the sender, `apply_pack` on
the receiver). The range may be cut into chunks in any way, empty chunks included.

| here | there |
| --- | --- |
| `transfer`         | `R.apply_pack(c, S.pack(c, d - c))` for consecutive chunks `[c, d)` |
| `Transferable`     | a range inside the sender, a cut of it, and a receiver that is empty or ends where it begins |
| `ReachableStore`   | the stores that `append`, `write_at`, `compact` and such transfers lead to |

No bound on the indices is needed: a log that has used up all `ulong` indices has `next_slot() = 0`,
so no range lies inside it and no transfer starts at its end.
-/

namespace ReplicatedSplinter
open ByteCodec Std

namespace LogStore

/-- Chunks of these lengths, one after the other from index `c` on. -/
def transfer (nu : Nuraft) : Nat → List Nat → LogStore → LogStore → Except Exn (LogStore × LogStore)
  | _, [], S, R => .ok (S, R)
  | c, n :: rest, S, R => match S.pack nu c (Int32.ofNat n) with
    | (.error e, _) => .error e
    | (.ok p, S') => match R.applyPack nu c p with
      | (.error e, _) => .error e
      | (.ok (), R') => transfer nu (c + n) rest S' R'

/-- NuRaft can allocate the buffer of each chunk's pack. -/
def PacksFit (nu : Nuraft) (S : LogStore) : Nat → List Nat → Prop
  | _, [] => True
  | c, n :: rest =>
    (∀ bufs, packBufs nu S.logs (List.range' c n) = .ok bufs →
      nu.fits (4 + n * 4 + (bufs.map List.length).sum) = true) ∧ PacksFit nu S (c + n) rest

/-- Where `buffer::alloc` has no limit, every pack fits. -/
theorem packsFit_of_unlimited {nu : Nuraft} (h : nu.bufferLimit = none) (S : LogStore) (c : Nat) (cut : List Nat) :
    S.PacksFit nu c cut := by
  induction cut generalizing c with
  | nil => trivial
  | cons n cut ih =>
    refine ⟨fun bufs _ => ?_, ih (c + n)⟩
    simp [Nuraft.fits, h]

end LogStore

/-- The non-empty range `[a, b)` of `S` can go to `R` in chunks of the lengths `cut`. The last field is
about NuRaft: `buffer::alloc` has no limit, or none that one of the packs reaches. -/
structure Transferable (nu : Nuraft) (S R : LogStore) (a b : Nat) (cut : List Nat) : Prop where
  nonempty : a < b
  start_le : S.startIndex ≤ a
  le_next : b ≤ S.nextSlot
  sum_cut : a + cut.sum = b
  chunk_lt : ∀ n ∈ cut, n < 2 ^ 31
  receiver : R.isEmpty = true ∨ R.nextSlot = a
  entry_lt : ∀ i e, a ≤ i → i < b → S.logs[i]? = some e → (nu.entrySerialize e).length < 2 ^ 31
  packs_fit : nu.bufferLimit = none ∨ S.PacksFit nu a cut

/-- The stores the log store's operations lead to; calls that do not return lead nowhere. -/
inductive ReachableStore (nu : Nuraft) : LogStore → Prop
  | new : ReachableStore nu (LogStore.new nu)
  | append {st : LogStore} (e : LogEntry) (h : ReachableStore nu st) : ReachableStore nu (st.append e).2
  | writeAt {st : LogStore} (i : Nat) (e : LogEntry) (h : ReachableStore nu st) (h1 : st.startIndex ≤ i)
      (h2 : i ≤ st.nextSlot) : ReachableStore nu (st.writeAt i e)
  | compact {st st' : LogStore} (j : Nat) (h : ReachableStore nu st) (hj : j < 2 ^ 64)
      (hst : st.compact j = some st') : ReachableStore nu st'
  | transfer {S R S' R' : LogStore} (a b : Nat) (cut : List Nat) (hS : ReachableStore nu S) (hR : ReachableStore nu R)
      (ht : Transferable nu S R a b cut) (hok : LogStore.transfer nu a cut S R = .ok (S', R')) :
      ReachableStore nu R'

/-! ## One chunk -/

section Chunk
variable {nu : Nuraft} {S R : LogStore} {l r : IndexedLog LogEntry} {c n : Nat}

/-- The sender packs its entries at `[c, c + n)`. -/
theorem Holds.pack_slice (hS : Holds S l) (h1 : l.start ≤ c) (h2 : c + n ≤ l.next) (hbound : c + n < 2 ^ 64)
    (hn : n < 2 ^ 31) (hfits : ∀ bufs, LogStore.packBufs nu S.logs (List.range' c n) = .ok bufs →
      nu.fits (4 + n * 4 + (bufs.map List.length).sum) = true) :
    S.pack nu c (Int32.ofNat n) = (.ok (packBytes nu ((l.slice c n).map nu.entrySerialize)), S) := by
  have hpos := l.start_pos
  have hlen : (l.slice c n).length = n := IndexedLog.length_slice h1 h2
  have hlogs : ∀ t e, (l.slice c n)[t]? = some e → S.logs[c + t]? = some e := by
    intro t e ht
    rw [hS.entries _ (by omega)]
    exact (IndexedLog.get?_of_slice h1 ht).2
  have hbufs : LogStore.packBufs nu S.logs (List.range' c (l.slice c n).length) =
      .ok ((l.slice c n).map nu.entrySerialize) := LogStore.packBufs_ok hlogs
  rw [hlen] at hbufs
  have hpack := LogStore.pack_ok hlogs (by omega) (by omega) (by rw [hlen]; exact hfits _ hbufs)
  rw [hlen] at hpack
  exact hpack

end Chunk

/-! ## All chunks -/

/-- What copying `[c, b)` of the log `l` makes of the log `r`, given that `r` is empty or ends at `c`. -/
structure Copied (l r : IndexedLog LogEntry) (c b : Nat) (r' : IndexedLog LogEntry) : Prop where
  copied : ∀ i, c ≤ i → i < b → ∃ e e', l.get? i = some e ∧ r'.get? i = some e' ∧ e.Same e'
  kept : ∀ i, i < c → r'.get? i = r.get? i
  next : c < b ∨ r.entries ≠ [] → r'.next = b
  start : r'.entries ≠ [] → r'.start = if r.entries = [] then c else r.start

section Chunks
variable {l r : IndexedLog LogEntry} {c n b : Nat}

/-- An empty chunk first: the receiver's log has the same entries afterwards. -/
theorem Copied.of_nil {r1 r' : IndexedLog LogEntry} (hr1 : r1 = if r.entries = [] then IndexedLog.empty else r)
    (h : Copied l r1 c b r') : Copied l r c b r' := by
  by_cases he : r.entries = []
  · rw [if_pos he] at hr1
    subst hr1
    refine ⟨h.copied, fun i hi => ?_, fun hor => h.next ?_, fun hne => ?_⟩
    · rw [h.kept i hi, IndexedLog.get?_of_nil he, IndexedLog.get?_of_nil rfl]
    · exact hor.imp id fun hne => absurd he hne
    · rw [h.start hne, if_pos he]
      rfl
  · rw [if_neg he] at hr1
    rwa [hr1] at h

/-- A chunk with entries first, and then the rest. -/
theorem Copied.of_cons {r' : IndexedLog LogEntry} {es : List LogEntry} (hc : 1 ≤ c) (hat : c = r.next ∨ r.entries = [])
    (h1 : l.start ≤ c) (hn : 0 < n) (h2 : c + n ≤ l.next) (hes : List.Forall₂ LogEntry.Same (l.slice c n) es)
    (h : Copied l (r.extend c hc es) (c + n) b r') : Copied l r c b r' := by
  have hlen : es.length = n := by
    rw [← hes.length_eq]
    exact IndexedLog.length_slice h1 h2
  have hne : (r.extend c hc es).entries ≠ [] :=
    IndexedLog.entries_extend_ne_nil hc (List.ne_nil_of_length_pos (by omega))
  refine ⟨fun i hi hib => ?_, fun i hi => ?_, fun _ => h.next (Or.inr hne), fun hne' => ?_⟩
  · by_cases hin : i < c + n
    · -- inside the first chunk, which the later chunks leave alone
      obtain ⟨e, he⟩ := IndexedLog.get?_eq_some_of_lt (show l.start ≤ i by omega) (by omega)
      have hslice : (l.slice c n)[i - c]? = some e := by
        rw [IndexedLog.getElem?_slice h1 (by omega), ← he, show c + (i - c) = i by omega]
      obtain ⟨hx, hxe⟩ := List.getElem?_eq_some_iff.1 hslice
      have hy : i - c < es.length := by omega
      refine ⟨e, es[i - c], he, ?_, by rw [← hxe]; exact hes.get hx hy⟩
      rw [h.kept i hin, IndexedLog.get?_extend hc hat, if_pos (by omega), List.getElem?_eq_getElem hy]
    · exact h.copied i (by omega) hib
  · rw [h.kept i (by omega), IndexedLog.get?_extend hc hat, if_neg (by omega)]
  · rw [h.start hne', if_neg hne]
    by_cases he : r.entries = []
    · rw [if_pos he, IndexedLog.extend_of_nil hc he]
    · rw [if_neg he, IndexedLog.extend_of_ne_nil hc he]

end Chunks

/-- **One chunk**: the sender packs it, the receiver takes it in, and what the rest of the transfer
makes of the receiver is what the whole makes of it. -/
theorem chunk_ok {nu : Nuraft} {S R : LogStore} {l r : IndexedLog LogEntry} {c n : Nat}
    (hS : Holds S l) (hR : Holds R r) (h1 : l.start ≤ c) (h2 : c + n ≤ l.next) (h64 : c + n < 2 ^ 64) (hn : n < 2 ^ 31)
    (hsize : ∀ i e, c ≤ i → i < c + n → S.logs[i]? = some e → (nu.entrySerialize e).length < 2 ^ 31)
    (hfits : ∀ bufs, LogStore.packBufs nu S.logs (List.range' c n) = .ok bufs →
      nu.fits (4 + n * 4 + (bufs.map List.length).sum) = true) (hat : c = r.next ∨ r.entries = []) :
    ∃ p R1 r1, S.pack nu c (Int32.ofNat n) = (.ok p, S) ∧ R.applyPack nu c p = (.ok (), R1) ∧
      R1.logs[0]? = R.logs[0]? ∧ Holds R1 r1 ∧ (c + n = r1.next ∨ r1.entries = []) ∧
      ∀ b r', Copied l r1 (c + n) b r' → Copied l r c b r' := by
  have hpos := l.start_pos
  have hlen : (l.slice c n).length = n := IndexedLog.length_slice h1 h2
  have hsizes : ∀ e ∈ l.slice c n, (nu.entrySerialize e).length < 2 ^ 31 := by
    intro e he
    obtain ⟨t, ht⟩ := List.mem_iff_getElem?.1 he
    obtain ⟨htn, hget⟩ := IndexedLog.get?_of_slice h1 ht
    refine hsize (c + t) e (by omega) (by omega) ?_
    rw [hS.entries _ (by omega), hget]
  obtain ⟨es, hp, hsame⟩ := LogStore.packOf_serialized (by omega) hsizes
  have hes : es.length = n := by rw [← hsame.length_eq, hlen]
  have hpack := hS.pack_slice h1 h2 h64 hn hfits
  rcases Nat.eq_zero_or_pos n with rfl | hpos'
  · -- nothing is copied; a receiver without entries is reset to index 1
    rw [List.eq_nil_of_length_eq_zero hes] at hp
    obtain ⟨R1, hR1, hlogs, hholds⟩ := hR.applyPack_nil hp c
    refine ⟨_, R1, _, hpack, hR1, by rw [hlogs], hholds, ?_, fun b r' h => Copied.of_nil rfl h⟩
    by_cases he : r.entries = []
    · right
      rw [if_pos he]
      rfl
    · left
      rw [if_neg he]
      exact hat.resolve_right he
  · have hc : 1 ≤ c := by omega
    have hne : es ≠ [] := List.ne_nil_of_length_pos (by omega)
    obtain ⟨R1, hR1, hzero, hholds⟩ := hR.applyPack hp hne hc hat (by omega)
    refine ⟨_, R1, _, hpack, hR1, hzero, hholds, Or.inl ?_,
      fun b r' h => Copied.of_cons hc hat h1 hpos' h2 hsame h⟩
    rw [IndexedLog.next_extend hc hat, hes]

/-- **Chunk by chunk**: the transfer returns, the sender stays as it is, and the receiver has the range. -/
theorem transfer_ok {nu : Nuraft} {S R : LogStore} {l r : IndexedLog LogEntry} {c b : Nat} {cut : List Nat}
    (hS : Holds S l) (hR : Holds R r) (h1 : l.start ≤ c) (hsum : c + cut.sum = b) (hb : b ≤ l.next)
    (hb64 : b < 2 ^ 64) (hcut : ∀ n ∈ cut, n < 2 ^ 31)
    (hsize : ∀ i e, c ≤ i → i < b → S.logs[i]? = some e → (nu.entrySerialize e).length < 2 ^ 31)
    (hfit : S.PacksFit nu c cut) (hat : c = r.next ∨ r.entries = []) :
    ∃ R' r', LogStore.transfer nu c cut S R = .ok (S, R') ∧ R'.logs[0]? = R.logs[0]? ∧ Holds R' r' ∧
      Copied l r c b r' := by
  induction cut generalizing c R r with
  | nil =>
    simp only [List.sum_nil, Nat.add_zero] at hsum
    subst hsum
    refine ⟨R, r, rfl, rfl, hR, by omega, fun _ _ => rfl, ?_, ?_⟩
    · rintro (hlt | hne)
      · omega
      · exact (hat.resolve_right hne).symm
    · intro hne
      rw [if_neg hne]
  | cons n cut ih =>
    rw [List.sum_cons] at hsum
    obtain ⟨p, R1, r1, hpack, hR1, hzero, hholds, hat1, hcopy⟩ := chunk_ok hS hR h1 (by omega) (by omega)
      (hcut n List.mem_cons_self) (fun i e hi hin => hsize i e hi (by omega)) hfit.1 hat
    obtain ⟨R', r', htr, h0, hR', hcopied⟩ := ih hholds (by omega) (by omega)
      (fun m hm => hcut m (List.mem_cons_of_mem _ hm)) (fun i e hi => hsize i e (by omega)) hfit.2 hat1
    refine ⟨R', r', ?_, by rw [h0, hzero], hR', hcopy b r' hcopied⟩
    simp only [LogStore.transfer, hpack, hR1, htr]

/-! ## Reachable stores -/

/-- What `Transferable` says of the logs behind the stores. -/
theorem Transferable.logs {nu : Nuraft} {S R : LogStore} {l r : IndexedLog LogEntry} {a b : Nat} {cut : List Nat}
    (ht : Transferable nu S R a b cut) (hS : Holds S l) (hR : Holds R r) :
    l.start ≤ a ∧ b ≤ l.next ∧ b < 2 ^ 64 ∧ (a = r.next ∨ r.entries = []) := by
  have hpos := l.start_pos
  have hlt := ht.nonempty
  have hstart : l.start ≤ a := by
    rw [← hS.start]
    exact ht.start_le
  have hnext := ht.le_next
  rw [hS.nextSlot_eq] at hnext
  -- a sender without free indices has `next_slot() = 0`
  have hle := hS.next_le
  have hle' := hR.next_le
  refine ⟨hstart, by omega, by omega, ?_⟩
  rcases ht.receiver with hempty | hslot
  · exact Or.inr (hR.isEmpty_iff.1 hempty)
  · left
    rw [hR.nextSlot_eq] at hslot
    omega

theorem Transferable.transfer_ok {nu : Nuraft} {S R : LogStore} {l r : IndexedLog LogEntry} {a b : Nat}
    {cut : List Nat} (ht : Transferable nu S R a b cut) (hS : Holds S l) (hR : Holds R r) :
    ∃ R' r', LogStore.transfer nu a cut S R = .ok (S, R') ∧ R'.logs[0]? = R.logs[0]? ∧ Holds R' r' ∧
      Copied l r a b r' := by
  obtain ⟨hstart, hnext, hb, hat⟩ := ht.logs hS hR
  have hfit : S.PacksFit nu a cut := by
    rcases ht.packs_fit with hnone | hfit
    · exact LogStore.packsFit_of_unlimited hnone S a cut
    · exact hfit
  exact ReplicatedSplinter.transfer_ok hS hR hstart ht.sum_cut hnext hb ht.chunk_lt ht.entry_lt hfit hat

/-- Every reachable store holds a log. -/
theorem ReachableStore.holds {nu : Nuraft} {st : LogStore} (h : ReachableStore nu st) : ∃ l, Holds st l := by
  induction h with
  | new => exact ⟨_, holds_new nu⟩
  | append e _ ih =>
    obtain ⟨l, hl⟩ := ih
    rcases Nat.lt_or_ge l.next (2 ^ 64) with hlt | hge
    · exact ⟨_, hl.append e hlt⟩
    · exact ⟨l, hl.append_wrapped e (Nat.le_antisymm hl.next_le hge)⟩
  | writeAt i e _ h1 h2 ih =>
    obtain ⟨l, hl⟩ := ih
    have hpos := l.start_pos
    have hle := hl.next_le
    have hstart : l.start ≤ i := by
      rw [← hl.start]
      exact h1
    rw [hl.nextSlot_eq] at h2
    exact ⟨_, hl.writeAt e hstart (by omega) (by omega)⟩
  | compact j _ hj hst ih =>
    obtain ⟨l, hl⟩ := ih
    have hne : j ≠ 2 ^ 64 - 1 := by
      rintro rfl
      simp [LogStore.compact] at hst
    obtain ⟨st'', hst'', _, hholds⟩ := hl.compact (show j < 2 ^ 64 - 1 by omega)
    rw [hst, Option.some.injEq] at hst''
    subst hst''
    exact ⟨_, hholds⟩
  | transfer a b cut _ _ ht hok ihS ihR =>
    obtain ⟨l, hl⟩ := ihS
    obtain ⟨r, hr⟩ := ihR
    obtain ⟨R', r', htr, _, hholds, _⟩ := ht.transfer_ok hl hr
    rw [htr, Except.ok.injEq, Prod.mk.injEq] at hok
    rw [← hok.2]
    exact ⟨r', hholds⟩

/-- **Packs lose and duplicate nothing, however the range is cut.** Between reachable stores the
transfer returns and leaves the sender as it is; the receiver then has the sender's entry (term, value
type, payload) at each index of the range, what it had below the range, and ends where the range ends. -/
theorem transfer_lossless (nu : Nuraft) (S R : LogStore) (a b : Nat) (cut : List Nat)
    (hS : ReachableStore nu S) (hR : ReachableStore nu R) (ht : Transferable nu S R a b cut) :
    ∃ R', LogStore.transfer nu a cut S R = .ok (S, R') ∧
      (∀ i, a ≤ i → i < b → ∃ e e', S.logs[i]? = some e ∧ R'.logs[i]? = some e' ∧ e.Same e') ∧
      (∀ i, i < a → R'.logs[i]? = R.logs[i]?) ∧
      R'.nextSlot = b ∧ (R.isEmpty = true → R'.startIndex = a) := by
  obtain ⟨l, hl⟩ := hS.holds
  obtain ⟨r, hr⟩ := hR.holds
  obtain ⟨R', r', htr, hzero, hholds, hcopied⟩ := ht.transfer_ok hl hr
  obtain ⟨hstart, _, hb, _⟩ := ht.logs hl hr
  have hpos := l.start_pos
  have hlt := ht.nonempty
  refine ⟨R', htr, ?_, ?_, ?_, ?_⟩
  · intro i hi hib
    obtain ⟨e, e', he, he', hsame⟩ := hcopied.copied i hi hib
    exact ⟨e, e', by rw [hl.entries i (by omega), he], by rw [hholds.entries i (by omega), he'], hsame⟩
  · intro i hi
    by_cases h0 : i = 0
    · rw [h0, hzero]
    · rw [hholds.entries i h0, hr.entries i h0, hcopied.kept i hi]
  · rw [hholds.nextSlot_eq, hcopied.next (Or.inl hlt), Nat.mod_eq_of_lt hb]
  · intro hempty
    have hne : r'.entries ≠ [] := by
      intro hnil
      obtain ⟨_, e', _, he', _⟩ := hcopied.copied a (Nat.le_refl a) hlt
      rw [IndexedLog.get?_of_nil hnil] at he'
      cases he'
    rw [LogStore.startIndex, hholds.start, hcopied.start hne, if_pos (hr.isEmpty_iff.1 hempty)]

/-- A sender with the entries 2 and 3: three appends and a compaction. -/
def demoSender : LogStore :=
  let st := ((((LogStore.new refNuraft).append ⟨1, [1], 1, 0, false, 0⟩).2.append ⟨1, [2], 1, 0, false, 0⟩).2.append
    ⟨2, [], 1, 0, false, 0⟩).2
  (st.compact 1).getD st

theorem demoSender_reachable : ReachableStore refNuraft demoSender :=
  .compact 1 (.append _ (.append _ (.append _ .new))) (by decide) rfl

/-- The range `[2, 4)` in four chunks, two of them empty, into a fresh store. -/
theorem demoTransferable : Transferable refNuraft demoSender (LogStore.new refNuraft) 2 4 [0, 1, 0, 1] where
  nonempty := by decide
  start_le := by decide
  le_next := by decide
  sum_cut := rfl
  chunk_lt := by decide
  receiver := Or.inl (by decide)
  entry_lt := by
    intro i e h1 h2 he
    have hi : i = 2 ∨ i = 3 := by omega
    rcases hi with rfl | rfl
    · rw [show demoSender.logs[2]? = some ⟨1, [2], 1, 0, false, 0⟩ by decide] at he
      cases he
      decide
    · rw [show demoSender.logs[3]? = some ⟨2, [], 1, 0, false, 0⟩ by decide] at he
      cases he
      decide
  packs_fit := by
    right
    refine ⟨?_, ?_, ?_, ?_, trivial⟩ <;> (rintro _ ⟨⟩; decide)

theorem transfer_lossless_demo :
    ∃ R', LogStore.transfer refNuraft 2 [0, 1, 0, 1] demoSender (LogStore.new refNuraft) = .ok (demoSender, R') ∧
      R'.nextSlot = 4 ∧ R'.startIndex = 2 := by
  obtain ⟨R', htr, _, _, hnext, hstart⟩ := transfer_lossless refNuraft demoSender (LogStore.new refNuraft) 2 4
    [0, 1, 0, 1] demoSender_reachable .new demoTransferable
  exact ⟨R', htr, hnext, hstart (by decide)⟩

end ReplicatedSplinter
