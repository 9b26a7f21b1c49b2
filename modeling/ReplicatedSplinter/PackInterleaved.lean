import ReplicatedSplinter.LogReaders
import Mathlib.Logic.Relation
/-!
# `apply_pack` while others append

`apply_pack` takes the lock once for each entry, and once more at the end (`in_memory_log_store.cpp:236-271`).
Between two entries another thread may `append`. The log has no hole at any moment; but an entry that was
appended at an index of the pack is overwritten when the pack gets there.

| here | there |
| --- | --- |
| `Applying`       | a call of `apply_pack` under way: `num_logs - ii`, `ii` and the position in `pack`; and what others have appended since |
| `Applying.begin` | `:237-242` |
| `Step.put`       | one round of the loop (`:244-261`) |
| `Step.append`    | `append` (`:78-92`) by another thread, with the index it returned |
| `resetStart`     | the last section (`:263-270`), in `LogStore` |

`IndexedLog.put` says what both kinds of steps do to the log. Without appends the steps are `applyPack`.
-/

namespace ReplicatedSplinter
open ByteCodec Std

structure Applying where
  store : LogStore
  left : Nat
  ii : Nat
  pack : Reader
  appended : List (Nat × LogEntry)

namespace Applying

def begin (nu : Nuraft) (st : LogStore) (p : Bytes) : Except Exn Applying := do
  let (nlogs, pack) ← nu.getInt ⟨p, 0⟩
  if nlogs < 0 then .error (.runtimeError "Invalid number of logs (negative)")
  else return ⟨st, nlogs.toInt.toNat, 0, pack, []⟩

/-- The entry read from the pack goes to its place. -/
def put (s : Applying) (index n : Nat) (le : LogEntry) (pack : Reader) : Applying :=
  { s with store := { s.store with logs := s.store.logs.insert ((index + s.ii) % 2 ^ 64) le },
           left := n, ii := s.ii + 1, pack := pack }

def append (s : Applying) (e : LogEntry) : Applying :=
  { s with store := (s.store.append e).2, appended := s.appended ++ [((s.store.append e).1, e)] }

inductive Step (nu : Nuraft) (index : Nat) : Applying → Applying → Prop
  | put {s n le pack} (hleft : s.left = n + 1) (hread : LogStore.readEntry nu s.pack = .ok (le, pack)) :
      Step nu index s (s.put index n le pack)
  | append {s} (e) (hroom : s.store.nextSlot < 2 ^ 64 - 1) : Step nu index s (s.append e)

/-! ## One entry put into the log -/

end Applying

section Put
variable {nu : Nuraft} {st : LogStore} {l : IndexedLog LogEntry}

theorem Refines.put (h : Refines nu st l) {i : Nat} (e : LogEntry) (h1 : l.start ≤ i) (h2 : i ≤ l.next)
    (hi : i < 2 ^ 64 - 1) : Refines nu { st with logs := st.logs.insert i e } (l.put i e) := by
  have hpos := l.start_pos
  have hnext := h.next_lt
  have hlogs : ∀ k, (st.logs.insert i e)[k]? = if k = i then some e else st.logs[k]? :=
    fun k => OrderedMap.getElem?_insert ..
  refine ⟨⟨⟨by simp [h.zero], fun k hk => ?_⟩, ?_, ?_, ?_⟩, ?_, ?_⟩
  · rw [hlogs, IndexedLog.get?_put e h1 h2, h.entries k hk]
  · rw [IndexedLog.start_put]
    exact h.start
  · rw [IndexedLog.start_put]
    exact h.start_lt
  · rw [IndexedLog.next_put e h2]
    omega
  · show (st.logs.insert i e)[0]? = _
    rw [hlogs, if_neg (by omega)]
    exact h.dummy
  · rw [IndexedLog.next_put e h2]
    omega

/-- `append` puts its entry at the next index. -/
theorem Refines.append_put (h : Refines nu st l) (e : LogEntry) :
    (st.append e).1 = l.next ∧ (st.append e).2 = { st with logs := st.logs.insert l.next e } := by
  rw [h.append_fst, h.append_snd, Nat.mod_eq_of_lt h.next_lt]
  exact ⟨rfl, rfl⟩

end Put

/-! ## What the store holds in between -/

namespace Applying

/-- The pack `p` of `es` has been put up to `ii` into the log `l₀`, beginning at `index`; `l` is the log now. -/
structure Inv (nu : Nuraft) (index : Nat) (p : Bytes) (bufs : List Bytes) (es : List LogEntry)
    (l₀ l : IndexedLog LogEntry) (s : Applying) : Prop where
  refines : Refines nu s.store l
  start : l.start = l₀.start
  count : s.ii + s.left = es.length
  reader : s.pack.At p (bufBytes nu (bufs.drop s.ii))
  next : index + s.ii ≤ l.next
  next_ge : l₀.next ≤ l.next
  packed : ∀ k, k < s.ii → l.get? (index + k) = es[k]?
  kept : ∀ k, k < l₀.next → k < index ∨ index + s.ii ≤ k → l.get? k = l₀.get? k
  appended : ∀ a ∈ s.appended, l₀.next ≤ a.1 ∧ a.1 < l.next ∧ (index + s.ii ≤ a.1 → l.get? a.1 = some a.2)
  filled : ∀ k, l₀.next ≤ k → index + s.ii ≤ k → k < l.next → ∃ e, (k, e) ∈ s.appended
  increasing : s.appended.Pairwise fun a b => a.1 < b.1

section Steps
variable {nu : Nuraft} {index : Nat} {p : Bytes} {bufs : List Bytes} {es : List LogEntry} {l₀ l : IndexedLog LogEntry}
  {s s' : Applying}

theorem Inv.put (h : Inv nu index p bufs es l₀ l s) (hstart : l₀.start ≤ index) (hfit : index + es.length ≤ 2 ^ 64 - 1)
    {n : Nat} (hleft : s.left = n + 1) {e : LogEntry} {pack : Reader} (he : es[s.ii]? = some e)
    (hpack : pack.At p (bufBytes nu (bufs.drop (s.ii + 1)))) :
    Inv nu index p bufs es l₀ (l.put (index + s.ii) e) (s.put index n e pack) := by
  have hcount := h.count
  have hlo : l.start ≤ index + s.ii := by
    rw [h.start]
    omega
  have hnext := IndexedLog.next_put e h.next
  have hget := IndexedLog.get?_put e hlo h.next
  have hsame : ∀ k, k ≠ index + s.ii → (l.put (index + s.ii) e).get? k = l.get? k :=
    fun k hk => (hget k).trans (if_neg hk)
  refine ⟨?_, by rw [IndexedLog.start_put, h.start], ?_, hpack, ?_, ?_, fun k hk => ?_, fun k hk hout => ?_,
    fun a ha => ?_, fun k h1 h2 h3 => ?_, h.increasing⟩
  · show Refines nu { s.store with logs := s.store.logs.insert ((index + s.ii) % 2 ^ 64) e } _
    rw [Nat.mod_eq_of_lt (by omega)]
    exact h.refines.put e hlo h.next (by omega)
  · show s.ii + 1 + n = es.length
    omega
  · show index + (s.ii + 1) ≤ _
    omega
  · have := h.next_ge
    omega
  · have hk : k < s.ii + 1 := hk
    by_cases hki : k = s.ii
    · rw [hki, hget, if_pos rfl, he]
    · rw [hsame _ (by omega)]
      exact h.packed k (by omega)
  · have hout : k < index ∨ index + (s.ii + 1) ≤ k := hout
    rw [hsame k (by omega)]
    exact h.kept k hk (by omega)
  · obtain ⟨h1, h2, h3⟩ := h.appended a ha
    refine ⟨h1, by omega, fun hge => ?_⟩
    have hge : index + (s.ii + 1) ≤ a.1 := hge
    rw [hsame _ (by omega)]
    exact h3 (by omega)
  · have h2 : index + (s.ii + 1) ≤ k := h2
    exact h.filled k h1 (by omega) (by omega)

theorem Inv.append (h : Inv nu index p bufs es l₀ l s) (e : LogEntry)
    (hroom : s.store.nextSlot < 2 ^ 64 - 1) : Inv nu index p bufs es l₀ (l.put l.next e) (s.append e) := by
  have hlo : l.start ≤ l.next := by
    rw [IndexedLog.next]
    omega
  have hslot := h.refines.nextSlot_next
  have hnext : (l.put l.next e).next = l.next + 1 := by
    rw [IndexedLog.next_put e (Nat.le_refl _)]
    omega
  have hget := IndexedLog.get?_put e hlo (Nat.le_refl _)
  have hsame : ∀ k, k < l.next → (l.put l.next e).get? k = l.get? k := fun k hk => (hget k).trans (if_neg (by omega))
  obtain ⟨hidx, hstore⟩ := h.refines.append_put e
  have hge := h.next_ge
  have hii := h.next
  refine ⟨?_, by rw [IndexedLog.start_put, h.start], h.count, h.reader, ?_, by omega, fun k hk => ?_,
    fun k hk hout => ?_, fun a ha => ?_, fun k h1 h2 h3 => ?_, ?_⟩
  · show Refines nu (s.store.append e).2 _
    rw [hstore]
    exact h.refines.put e hlo (Nat.le_refl _) (by omega)
  · show index + s.ii ≤ _
    omega
  · have hk : k < s.ii := hk
    rw [hsame _ (by omega)]
    exact h.packed k hk
  · rw [hsame k (by omega)]
    exact h.kept k hk hout
  · rcases List.mem_append.1 ha with ha | ha
    · obtain ⟨h1, h2, h3⟩ := h.appended a ha
      exact ⟨h1, by omega, fun hle => (hsame _ h2).trans (h3 hle)⟩
    · rw [List.mem_singleton.1 ha]
      exact ⟨by omega, by omega, fun _ => by rw [hidx, hget, if_pos rfl]⟩
  · by_cases hk : k = l.next
    · exact ⟨e, List.mem_append.2 (.inr (by rw [hk, hidx]; exact List.mem_singleton_self _))⟩
    · obtain ⟨e', he'⟩ := h.filled k h1 h2 (by omega)
      exact ⟨e', List.mem_append.2 (.inl he')⟩
  · refine List.pairwise_append.2 ⟨h.increasing, List.pairwise_singleton _ _, fun a ha b hb => ?_⟩
    rw [List.mem_singleton.1 hb, hidx]
    exact (h.appended a ha).2.1

/-- The next entry of the pack is read as it was packed. -/
theorem Inv.reads (h : Inv nu index p bufs es l₀ l s)
    (hbufs : List.Forall₂ (fun b e => nu.entryDeserialize b = some e) bufs es) (hlen : ∀ b ∈ bufs, b.length < 2 ^ 31)
    (hlt : s.ii < es.length) :
    ∃ e pack, LogStore.readEntry nu s.pack = .ok (e, pack) ∧ es[s.ii]? = some e ∧
      pack.At p (bufBytes nu (bufs.drop (s.ii + 1))) := by
  have hlt' : s.ii < bufs.length := hbufs.length_eq ▸ hlt
  have hread := h.reader
  rw [List.drop_eq_getElem_cons hlt', bufBytes_cons] at hread
  have he := (List.forall₂_iff_get.1 hbufs).2 s.ii hlt' hlt
  obtain ⟨pack, hpack, hat⟩ := LogStore.readEntry_at hread (hlen _ (List.getElem_mem hlt')) he
  exact ⟨_, pack, hpack, List.getElem?_eq_getElem hlt, hat⟩

theorem inv_step (hbufs : List.Forall₂ (fun b e => nu.entryDeserialize b = some e) bufs es)
    (hlen : ∀ b ∈ bufs, b.length < 2 ^ 31) (hstart : l₀.start ≤ index) (hfit : index + es.length ≤ 2 ^ 64 - 1)
    (h : Inv nu index p bufs es l₀ l s) (hstep : Step nu index s s') : ∃ l', Inv nu index p bufs es l₀ l' s' := by
  cases hstep with
  | put hleft hread =>
    have hcount := h.count
    obtain ⟨e, pack, hread', he, hat⟩ := h.reads hbufs hlen (by omega)
    rw [hread'] at hread
    cases hread
    exact ⟨_, h.put hstart hfit hleft he hat⟩
  | append e hroom => exact ⟨_, h.append e hroom⟩

theorem inv_begin {st : LogStore} (hst : Refines nu st l₀) (hcount : bufs.length < 2 ^ 31)
    (hbufs : List.Forall₂ (fun b e => nu.entryDeserialize b = some e) bufs es) (h2 : index ≤ l₀.next) :
    ∃ s, begin nu st (packBytes nu bufs) = .ok s ∧ s.store = st ∧
      Inv nu index (packBytes nu bufs) bufs es l₀ l₀ s := by
  obtain ⟨hneg, hnat⟩ := int32_ofNat hcount
  have h0 : Reader.At ⟨packBytes nu bufs, 0⟩ (packBytes nu bufs)
      (nu.order.enc (Int32.ofNat bufs.length).toUInt32 ++ bufBytes nu bufs) := at_start rfl
  obtain ⟨r, hr, ha⟩ := nu.getInt_at h0
  refine ⟨⟨st, bufs.length, 0, r, []⟩, ?_, rfl,
    ⟨hst, rfl, ?_, ha, h2, Nat.le_refl _, ?_, fun _ _ _ => rfl, ?_, ?_, .nil⟩⟩
  · simp only [begin, hr, ok_bind, if_neg hneg, hnat, pure_eq_ok]
  · rw [Nat.zero_add]
    exact hbufs.length_eq
  · intro k hk
    exact absurd hk (Nat.not_lt_zero k)
  · intro a ha
    cases ha
  · intro k h1 _ h3
    omega

theorem inv_steps (hbufs : List.Forall₂ (fun b e => nu.entryDeserialize b = some e) bufs es)
    (hlen : ∀ b ∈ bufs, b.length < 2 ^ 31) (hstart : l₀.start ≤ index) (hfit : index + es.length ≤ 2 ^ 64 - 1)
    (h : Inv nu index p bufs es l₀ l s) (hsteps : Relation.ReflTransGen (Step nu index) s s') :
    ∃ l', Inv nu index p bufs es l₀ l' s' := by
  induction hsteps with
  | refl => exact ⟨l, h⟩
  | tail _ hstep ih =>
    obtain ⟨l', h'⟩ := ih
    exact inv_step hbufs hlen hstart hfit h' hstep

/-- The last section finds the first index where it was. -/
theorem Inv.resetStart (h : Inv nu index p bufs es l₀ l s) (hstart : l₀.start ≤ index) (hne : es ≠ [])
    (hleft : s.left = 0) : s.store.resetStart = s.store := by
  have hcount := h.count
  have hpos := List.length_pos_iff.2 hne
  have hnext := h.next
  have hentries : l.entries ≠ [] := by
    intro hnil
    rw [IndexedLog.next, hnil, List.length_nil, h.start] at hnext
    omega
  rw [LogStore.resetStart, h.refines.upperBound_zero, if_neg hentries, Option.getD_some, ← h.refines.start]

/-- The rest of the loop, if nobody appends any more. -/
def rest (nu : Nuraft) (index : Nat) (s : Applying) : Except Exn Unit × LogStore :=
  LogStore.applyLoop nu index s.left s.ii s.pack s.store

/-- As long as nobody appends, the steps are the loop. -/
theorem rest_steps (hsteps : Relation.ReflTransGen (Step nu index) s s') (hnone : s'.appended = []) :
    s'.rest nu index = s.rest nu index := by
  induction hsteps with
  | refl => rfl
  | @tail s₁ _ _ hstep ih =>
    cases hstep with
    | @put n le pack hleft hread =>
      have hround : s₁.rest nu index = (s₁.put index n le pack).rest nu index := by
        rw [rest, hleft, LogStore.applyLoop, hread]
        rfl
      rw [← hround]
      exact ih hnone
    | append e _ => exact absurd hnone (by simp [Applying.append])

theorem applyPack_of_rest {st st' : LogStore} (hbegin : begin nu st p = .ok s)
    (hrest : s.rest nu index = (.ok (), st')) : st.applyPack nu index p = (.ok (), st'.resetStart) := by
  unfold begin at hbegin
  cases hint : nu.getInt ⟨p, 0⟩ with
  | error e =>
    rw [hint] at hbegin
    cases hbegin
  | ok r =>
    obtain ⟨nlogs, pack⟩ := r
    simp only [hint, ok_bind] at hbegin
    split at hbegin
    · cases hbegin
    · rename_i hneg
      cases hbegin
      simp only [rest] at hrest
      simp only [LogStore.applyPack, hint, if_neg hneg, hrest]

end Steps

/-- **`apply_pack` beside appends.** A pack is applied inside or at the end of a log, entry by entry, while other
threads append. At every moment the store holds a log without holes, and the next entry can be put. When the pack is
through, its entries are at their indices and what stood elsewhere is still there; every append had got an index of its
own beyond the old log, and its entry is there if that index is beyond the pack, and overwritten by the pack's
otherwise; nothing else is at the end of the log. If nobody appended, all this is `apply_pack` in one piece. -/
theorem apply_pack_beside_appends (nu : Nuraft) (ops : List LogOp) (st : LogStore)
    (hops : LogOp.AllAllowed nu (LogStore.new nu) ops)
    (hst : ops.foldlM (fun st op => op.run nu st) (LogStore.new nu) = some st) (index : Nat) (p : Bytes)
    (es : List LogEntry) (hp : PackOf nu p es) (hne : es ≠ []) (h1 : st.startIndex ≤ index) (h2 : index ≤ st.nextSlot)
    (hfit : index + es.length ≤ 2 ^ 64 - 1) :
    ∃ s₀, begin nu st p = .ok s₀ ∧ s₀.store = st ∧
      ∀ s, Relation.ReflTransGen (Step nu index) s₀ s →
        (∃ l, Refines nu s.store l) ∧
        (s.left ≠ 0 → ∃ s', Step nu index s s' ∧ s'.left + 1 = s.left ∧ s'.appended = s.appended) ∧
        (s.left = 0 →
          s.store.resetStart = s.store ∧ s.store.startIndex = st.startIndex ∧
          (∀ k, k < es.length → s.store.logs[index + k]? = es[k]?) ∧
          (∀ k, k ≠ 0 → k < st.nextSlot → k < index ∨ index + es.length ≤ k → s.store.logs[k]? = st.logs[k]?) ∧
          s.appended.Pairwise (fun a b => a.1 < b.1) ∧
          (∀ a ∈ s.appended, st.nextSlot ≤ a.1 ∧
            s.store.logs[a.1]? = if a.1 < index + es.length then es[a.1 - index]? else some a.2) ∧
          (∀ k, st.nextSlot ≤ k → index + es.length ≤ k → k < s.store.nextSlot → ∃ e, (k, e) ∈ s.appended) ∧
          (s.appended = [] → st.applyPack nu index p = (.ok (), s.store))) := by
  obtain ⟨l₀, href⟩ := refines_of_run hops hst
  obtain ⟨bufs, rfl, hcount, hlen, hbufs⟩ := hp
  have hstart : l₀.start ≤ index := by rw [← href.start]; exact h1
  have hslot := href.nextSlot_next
  obtain ⟨s₀, hbegin, hstore, hinv₀⟩ := inv_begin href hcount hbufs (hslot ▸ h2)
  refine ⟨s₀, hbegin, hstore, fun s hsteps => ?_⟩
  obtain ⟨l, hinv⟩ := inv_steps hbufs hlen hstart hfit hinv₀ hsteps
  have hcnt := hinv.count
  refine ⟨⟨l, hinv.refines⟩, fun hleft => ?_, fun hleft => ?_⟩
  · obtain ⟨n, hn⟩ := Nat.exists_eq_succ_of_ne_zero hleft
    obtain ⟨e, pack, hread, -, -⟩ := hinv.reads hbufs hlen (by omega)
    exact ⟨_, .put hn hread, hn.symm, rfl⟩
  have hii : s.ii = es.length := by omega
  have hpos := l₀.start_pos
  have hnpos := l₀.next_pos
  have hreset := hinv.resetStart hstart hne hleft
  have hentries := hinv.refines.entries
  refine ⟨hreset, ?_, fun k hk => ?_, fun k hk0 hk hout => ?_, hinv.increasing, fun a ha => ?_, fun k hk1 hk2 hk3 => ?_,
    fun hnone => ?_⟩
  · rw [LogStore.startIndex, LogStore.startIndex, hinv.refines.start, href.start, hinv.start]
  · rw [hentries _ (by omega)]
    exact hinv.packed k (hii ▸ hk)
  · rw [hentries k hk0, href.entries k hk0]
    exact hinv.kept k (hslot ▸ hk) (by rw [hii]; exact hout)
  · obtain ⟨ha1, ha2, ha3⟩ := hinv.appended a ha
    refine ⟨hslot ▸ ha1, ?_⟩
    rw [hentries _ (by omega)]
    split
    · have hidx := hinv.packed (a.1 - index) (by omega)
      rwa [show index + (a.1 - index) = a.1 by omega] at hidx
    · exact ha3 (by omega)
  · exact hinv.filled k (hslot ▸ hk1) (by rw [hii]; exact hk2) (hinv.refines.nextSlot_next ▸ hk3)
  · have hrest := rest_steps hsteps hnone
    have hend : s.rest nu index = (.ok (), s.store) := by
      rw [rest, hleft]
      rfl
    rw [applyPack_of_rest hbegin (hrest.symm.trans hend), hreset]

def raceEntry (term : UInt64) : LogEntry := ⟨term, [], 1, 0, false, 0⟩

def raceStore : LogStore := ((LogStore.new refNuraft).append (raceEntry 1)).2

def racePack : Bytes := packBytes refNuraft ([raceEntry 2, raceEntry 3].map refNuraft.entrySerialize)

/-- Two entries are put at 2 and 3. An append in between gets 3 and is lost, one after them gets 4. -/
theorem apply_pack_beside_appends_race :
    ∃ s₀ s, begin refNuraft raceStore racePack = .ok s₀ ∧ Relation.ReflTransGen (Step refNuraft 2) s₀ s ∧ s.left = 0 ∧
      s.appended = [(3, raceEntry 8), (4, raceEntry 9)] ∧ s.store.logs[3]? = some (raceEntry 3) ∧
      s.store.logs[4]? = some (raceEntry 9) := by
  have hops : LogOp.AllAllowed refNuraft (LogStore.new refNuraft) [.append (raceEntry 1)] :=
    ⟨show LogStore.nextSlot _ < _ by decide, fun _ _ => trivial⟩
  have hpack : PackOf refNuraft racePack [raceEntry 2, raceEntry 3] :=
    ⟨_, rfl, by decide, by decide, .cons (by decide) (.cons (by decide) .nil)⟩
  obtain ⟨s₀, hbegin, -, hall⟩ := apply_pack_beside_appends refNuraft [.append (raceEntry 1)] raceStore hops rfl 2
    racePack [raceEntry 2, raceEntry 3] hpack (by decide) (by decide) (by decide) (by decide)
  have hint : refNuraft.getInt ⟨racePack, 0⟩ = .ok (2, ⟨racePack, 4⟩) := by decide
  have hs₀ : begin refNuraft raceStore racePack = .ok ⟨raceStore, 2, 0, ⟨racePack, 4⟩, []⟩ := by
    simp only [begin, hint, ok_bind]
    rfl
  rw [hs₀] at hbegin
  cases hbegin
  have h := Relation.ReflTransGen.single (@Step.put refNuraft 2 ⟨raceStore, 2, 0, ⟨racePack, 4⟩, []⟩ 1 (raceEntry 2)
    ⟨racePack, 17⟩ rfl (by decide))
  have h := h.tail (.append (raceEntry 8) (by decide))
  have h := h.tail (@Step.put _ _ _ 0 (raceEntry 3) ⟨racePack, 30⟩ rfl (by decide))
  have h := h.tail (.append (raceEntry 9) (by decide))
  obtain ⟨-, -, hend⟩ := hall _ h
  obtain ⟨-, -, -, -, -, hget, -, -⟩ := hend rfl
  exact ⟨_, _, hs₀, h, rfl, by decide, (hget (3, raceEntry 8) (by decide)).2, (hget (4, raceEntry 9) (by decide)).2⟩

end Applying

end ReplicatedSplinter
