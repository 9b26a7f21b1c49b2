import ReplicatedSplinter.LogStore
/-!
# The layout of a pack

A pack is a 32-bit count and then every serialized entry after its 32-bit size
(`in_memory_log_store.cpp:225-233` writes it, `:237-257` reads it). Counts and sizes go through `int32`
casts, which are exact below 2^31.

| here | there |
| --- | --- |
| `bufBytes`, `packBytes` | the bytes of the second loop of `pack`, and of the whole buffer |
| `PackOf nu p es`        | `p` is a well-formed pack that holds the entries `es` |
| `putFrom`               | the map after the loop of `apply_pack` |
| `pack_ok`, `applyPack_ok` | what the two functions do on entries that are there and on well-formed packs |
-/

namespace ReplicatedSplinter
open ByteCodec Std

def bufBytes (nu : Nuraft) (bufs : List Bytes) : Bytes :=
  bufs.flatMap fun b => nu.order.enc (Int32.ofNat b.length).toUInt32 ++ b

def packBytes (nu : Nuraft) (bufs : List Bytes) : Bytes :=
  nu.order.enc (Int32.ofNat bufs.length).toUInt32 ++ bufBytes nu bufs

/-- A pack of these entries: count and sizes fit an `int32`, and each buffer deserializes. -/
def PackOf (nu : Nuraft) (p : Bytes) (es : List LogEntry) : Prop :=
  ∃ bufs, p = packBytes nu bufs ∧ bufs.length < 2 ^ 31 ∧ (∀ b ∈ bufs, b.length < 2 ^ 31) ∧
    List.Forall₂ (fun b e => nu.entryDeserialize b = some e) bufs es

theorem bufBytes_cons (nu : Nuraft) (b : Bytes) (bufs : List Bytes) :
    bufBytes nu (b :: bufs) = nu.order.enc (Int32.ofNat b.length).toUInt32 ++ (b ++ bufBytes nu bufs) := by
  simp [bufBytes]

theorem length_bufBytes (nu : Nuraft) (bufs : List Bytes) :
    (bufBytes nu bufs).length = bufs.length * 4 + (bufs.map List.length).sum := by
  induction bufs with
  | nil => rfl
  | cons b bufs ih =>
    rw [bufBytes_cons]
    simp only [List.length_append, nu.order.length_enc, ih, List.length_cons, List.map_cons, List.sum_cons]
    omega

theorem length_packBytes (nu : Nuraft) (bufs : List Bytes) :
    (packBytes nu bufs).length = 4 + bufs.length * 4 + (bufs.map List.length).sum := by
  rw [packBytes, List.length_append, nu.order.length_enc, length_bufBytes, Nat.add_assoc]

/-- The casts of a size below 2^31 to `int32` and back to `size_t`. -/
theorem int32_ofNat {n : Nat} (h : n < 2 ^ 31) : ¬ Int32.ofNat n < 0 ∧ (Int32.ofNat n).toInt.toNat = n := by
  have hint := Int32.toInt_ofNat_of_lt h
  refine ⟨?_, by rw [hint]; rfl⟩
  rw [Int32.lt_iff_toInt_lt, hint]
  simp

namespace LogStore

/-! ## Writing a pack -/

theorem packBufs_ok {nu : Nuraft} {logs : ExtTreeMap Nat LogEntry} {es : List LogEntry} {index : Nat}
    (h : ∀ t e, es[t]? = some e → logs[index + t]? = some e) :
    packBufs nu logs (List.range' index es.length) = .ok (es.map nu.entrySerialize) := by
  induction es generalizing index with
  | nil => rfl
  | cons e es ih =>
    have hhead : logs[index]? = some e := h 0 e rfl
    have htail : packBufs nu logs (List.range' (index + 1) es.length) = .ok (es.map nu.entrySerialize) := by
      apply ih
      intro t e' ht
      rw [show index + 1 + t = index + (t + 1) by omega]
      exact h (t + 1) e' ht
    rw [List.length_cons, List.range'_succ]
    simp [packBufs, hhead, htail]

theorem putBufs_filled {nu : Nuraft} {bufs : List Bytes} {w : Writer} {pre : Bytes} {size : Nat}
    (h : w.Filled pre size) (hfit : pre.length + (bufBytes nu bufs).length ≤ size) :
    ∃ w', putBufs nu w bufs = .ok w' ∧ w'.Filled (pre ++ bufBytes nu bufs) size := by
  induction bufs generalizing w pre with
  | nil => exact ⟨w, rfl, by simpa [bufBytes] using h⟩
  | cons b bufs ih =>
    rw [bufBytes_cons] at hfit ⊢
    simp only [List.length_append] at hfit
    obtain ⟨w1, h1, f1⟩ := Nuraft.putRaw_filled h (nu.order.enc (Int32.ofNat b.length).toUInt32) (by omega)
    obtain ⟨w2, h2, f2⟩ := Nuraft.putRaw_filled f1 b (by rw [List.length_append]; omega)
    obtain ⟨w3, h3, f3⟩ := ih f2 (by simp only [List.length_append]; omega)
    refine ⟨w3, by simp only [putBufs, Nuraft.putI32, h1, h2, h3, ok_bind], ?_⟩
    simpa only [List.append_assoc] using f3

/-- Entries that are stored at `index` and after it are packed, and the store stays as it is. -/
theorem pack_ok {nu : Nuraft} {st : LogStore} {index : Nat} {es : List LogEntry}
    (h : ∀ t e, es[t]? = some e → st.logs[index + t]? = some e) (hlen : es.length < 2 ^ 31)
    (hbound : index + es.length < 2 ^ 64)
    (hfits : nu.fits (4 + es.length * 4 + ((es.map nu.entrySerialize).map List.length).sum) = true) :
    st.pack nu index (Int32.ofNat es.length) = (.ok (packBytes nu (es.map nu.entrySerialize)), st) := by
  obtain ⟨hneg, hcount⟩ := int32_ofNat hlen
  have hsize := length_packBytes nu (es.map nu.entrySerialize)
  rw [List.length_map] at hsize
  have hiter : (index + es.length) % 2 ^ 64 - index = es.length := by omega
  have hbytes : packBytes nu (es.map nu.entrySerialize) =
      nu.order.enc (Int32.ofNat es.length).toUInt32 ++ bufBytes nu (es.map nu.entrySerialize) := by
    rw [packBytes, List.length_map]
  -- the buffer is filled by the count, and then by the entries
  have hstart := filled_start (nu.fresh (packBytes nu (es.map nu.entrySerialize)).length)
  rw [nu.length_fresh] at hstart
  obtain ⟨w1, h1, f1⟩ := Nuraft.putRaw_filled hstart (nu.order.enc (Int32.ofNat es.length).toUInt32)
    (by rw [hbytes, List.length_append, List.length_nil]; omega)
  rw [List.nil_append] at f1
  obtain ⟨w2, h2, f2⟩ := putBufs_filled f1 (Nat.le_of_eq (by rw [hbytes, List.length_append]))
  rw [← hbytes] at f2
  rw [hsize] at h1
  unfold pack
  rw [if_neg hneg]
  simp only [hcount, hiter, packBufs_ok h, ok_bind, nu.alloc_of_fits hfits, Nuraft.putI32, h1, h2, pure_eq_ok,
    f2.buf_eq.1]

/-! ## Reading a pack -/

theorem readEntry_at {nu : Nuraft} {r : Reader} {buf b tl : Bytes} {e : LogEntry}
    (h : r.At buf (nu.order.enc (Int32.ofNat b.length).toUInt32 ++ (b ++ tl))) (hlen : b.length < 2 ^ 31)
    (he : nu.entryDeserialize b = some e) :
    ∃ r', readEntry nu r = .ok (e, r') ∧ r'.At buf tl := by
  obtain ⟨hneg, hsize⟩ := int32_ofNat hlen
  obtain ⟨r1, h1, a1⟩ := nu.getInt_at h
  obtain ⟨r2, h2, a2⟩ := Nuraft.getRaw_at a1
  refine ⟨r2, ?_, a2⟩
  simp only [readEntry, h1, ok_bind, if_neg hneg, hsize, nu.alloc_of_fits (nu.fits_of_lt hlen), h2, he, pure_eq_ok]

/-- What is serialized into a pack is read back as the same entries. -/
theorem packOf_serialized {nu : Nuraft} {es : List LogEntry} (hcount : es.length < 2 ^ 31)
    (hlen : ∀ e ∈ es, (nu.entrySerialize e).length < 2 ^ 31) :
    ∃ es', PackOf nu (packBytes nu (es.map nu.entrySerialize)) es' ∧ List.Forall₂ LogEntry.Same es es' := by
  have hread : ∀ es : List LogEntry, ∃ es', List.Forall₂ (fun b e => nu.entryDeserialize b = some e)
      (es.map nu.entrySerialize) es' ∧ List.Forall₂ LogEntry.Same es es' := by
    intro es
    induction es with
    | nil => exact ⟨[], .nil, .nil⟩
    | cons e es ih =>
      obtain ⟨es', h1, h2⟩ := ih
      obtain ⟨e', he, hsame⟩ := nu.entry_roundtrip e
      exact ⟨e' :: es', .cons he h1, .cons hsame h2⟩
  obtain ⟨es', h1, h2⟩ := hread es
  refine ⟨es', ⟨_, rfl, by rw [List.length_map]; exact hcount, ?_, h1⟩, h2⟩
  intro b hb
  obtain ⟨e, he, rfl⟩ := List.mem_map.1 hb
  exact hlen e he

/-- `es` put into the map at `i` and after it. -/
def putFrom (logs : ExtTreeMap Nat LogEntry) : Nat → List LogEntry → ExtTreeMap Nat LogEntry
  | _, [] => logs
  | i, e :: es => putFrom (logs.insert (i % 2 ^ 64) e) (i + 1) es

theorem getElem?_putFrom_of_ne {es : List LogEntry} {logs : ExtTreeMap Nat LogEntry} {i k : Nat}
    (h : ∀ j < es.length, k ≠ (i + j) % 2 ^ 64) : (putFrom logs i es)[k]? = logs[k]? := by
  induction es generalizing logs i with
  | nil => rfl
  | cons e es ih =>
    have hrest : ∀ j < es.length, k ≠ (i + 1 + j) % 2 ^ 64 := by
      intro j hj
      rw [Nat.add_assoc, Nat.add_comm 1 j]
      exact h (j + 1) (Nat.succ_lt_succ hj)
    have hfirst : k ≠ i % 2 ^ 64 := h 0 (Nat.succ_pos _)
    rw [putFrom, ih hrest, OrderedMap.getElem?_insert, if_neg hfirst]

/-- Fewer than 2^64 entries do not overwrite one another. -/
theorem getElem?_putFrom_wrap {es : List LogEntry} {logs : ExtTreeMap Nat LogEntry} {i j : Nat}
    (hlen : es.length ≤ 2 ^ 64) (hj : j < es.length) : (putFrom logs i es)[(i + j) % 2 ^ 64]? = es[j]? := by
  induction es generalizing logs i j with
  | nil => simp at hj
  | cons e es ih =>
    rw [List.length_cons] at hlen hj
    rw [putFrom]
    cases j with
    | zero =>
      have hne : ∀ j < es.length, (i + 0) % 2 ^ 64 ≠ (i + 1 + j) % 2 ^ 64 := by
        intro j hj
        omega
      rw [getElem?_putFrom_of_ne hne, OrderedMap.getElem?_insert, if_pos (by rw [Nat.add_zero]), List.getElem?_cons_zero]
    | succ j =>
      rw [← Nat.add_assoc, Nat.add_right_comm, ih (by omega) (by omega), List.getElem?_cons_succ]

theorem getElem?_putFrom {es : List LogEntry} {logs : ExtTreeMap Nat LogEntry} {i : Nat}
    (h : i + es.length ≤ 2 ^ 64) (k : Nat) :
    (putFrom logs i es)[k]? = if i ≤ k ∧ k < i + es.length then es[k - i]? else logs[k]? := by
  by_cases hk : i ≤ k ∧ k < i + es.length
  · have hwrap : (putFrom logs i es)[(i + (k - i)) % 2 ^ 64]? = es[k - i]? :=
      getElem?_putFrom_wrap (by omega) (by omega)
    have hidx : (i + (k - i)) % 2 ^ 64 = k := by omega
    rw [hidx] at hwrap
    rw [hwrap, if_pos hk]
  · rw [if_neg hk]
    refine getElem?_putFrom_of_ne ?_
    intro j hj
    omega

theorem applyLoop_ok {nu : Nuraft} {bufs : List Bytes} {es : List LogEntry} {buf tl : Bytes} {index ii : Nat}
    {r : Reader} {st : LogStore} (hbufs : List.Forall₂ (fun b e => nu.entryDeserialize b = some e) bufs es)
    (hlen : ∀ b ∈ bufs, b.length < 2 ^ 31) (h : r.At buf (bufBytes nu bufs ++ tl)) :
    applyLoop nu index bufs.length ii r st = (.ok (), { st with logs := putFrom st.logs (index + ii) es }) := by
  induction hbufs generalizing r ii st with
  | nil => rfl
  | @cons b e bufs es hb _ ih =>
    rw [bufBytes_cons, List.append_assoc, List.append_assoc] at h
    obtain ⟨r1, h1, a1⟩ := readEntry_at h (hlen b List.mem_cons_self) hb
    rw [List.length_cons, applyLoop]
    simp only [h1]
    rw [ih (fun b' hb' => hlen b' (List.mem_cons_of_mem _ hb')) a1]
    rfl

/-- A well-formed pack is applied as a whole. -/
theorem applyPack_ok {nu : Nuraft} {st : LogStore} {index : Nat} {p : Bytes} {es : List LogEntry}
    (hp : PackOf nu p es) :
    st.applyPack nu index p = (.ok (), resetStart { st with logs := putFrom st.logs index es }) := by
  obtain ⟨bufs, rfl, hcount, hlen, hbufs⟩ := hp
  obtain ⟨hneg, hnat⟩ := int32_ofNat hcount
  have h0 : Reader.At ⟨packBytes nu bufs, 0⟩ (packBytes nu bufs)
      (nu.order.enc (Int32.ofNat bufs.length).toUInt32 ++ (bufBytes nu bufs ++ [])) :=
    at_start (by simp [packBytes])
  obtain ⟨r, hr, ha⟩ := nu.getInt_at h0
  unfold applyPack
  simp only [hr, if_neg hneg, hnat]
  rw [applyLoop_ok hbufs hlen ha, Nat.add_zero]

end LogStore

end ReplicatedSplinter
