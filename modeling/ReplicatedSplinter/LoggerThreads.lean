import ReplicatedSplinter.Logger
import Mathlib.Logic.Relation
import Mathlib.Data.List.Nodup
/-!
# Many threads at the logger's ring

`put` claims an element by moving the cursor, waits until nobody works on it, may flush the ring, and
then tries to write: `CLEAN` to `WRITING`, copy, `DIRTY`. A flush takes the elements that are `DIRTY` to
`FLUSHING`, writes them out, and leaves them `CLEAN`. Both steps into an element are a compare-and-swap on
its status; whoever loses it goes on without (`write` returns -1 and `put` does not look).

| here | there |
| --- | --- |
| `Slot`            | `LogElem` (`logger.h:283-304`) with its buffer; `owner` is the call whose message is in it |
| `PutPc`, `Step.claim` | `put` (`logger.cpp:1020-1037`), the cursor loop's successful round |
| `Step.seize`, `emit`, `release` | `LogElem::flush` (`:706-715`) by the thread that holds `flushingLogs`, byte by byte |
| `Step.startWrite`, `copy`, `finish`, `drop` | `LogElem::write` (`:694-704`), byte by byte |

The waiting between `claim` and `write` (`available`, `needToFlush`) only reads the status, without any
ordering (`MOR` is relaxed), so here a call may go on at any time. Which elements a flush visits and in which
order is left open as well. Moving on to the next file happens between two messages, under the same lock;
`file` is what all files hold together.
-/

namespace ReplicatedSplinter
open ByteCodec

/-! ## The system -/

/-- Where a call of `put` stands. -/
inductive PutPc
  | begun
  | claimed (i : Nat)
  | writing (i k : Nat)
  | returned (ok : Bool)
deriving DecidableEq

structure PutCall where
  msg : Bytes
  pc : PutPc

/-- The bytes that `write` copies. -/
def PutCall.text (c : PutCall) : Bytes := c.msg.take msgSize

structure Slot where
  len : Nat
  ctx : Nat → UInt8
  status : LogElemStatus
  owner : Nat

/-- The threads at a ring: `flusher` is the element that the holder of `flushingLogs` is at, and how far. -/
structure Threads where
  slots : Nat → Slot
  cursor : Nat
  calls : List PutCall
  flusher : Option (Option (Nat × Nat))
  file : Bytes
  flushed : List Nat

namespace Threads

def start : Threads := ⟨fun _ => ⟨0, fun _ => 0, .CLEAN, 0⟩, 0, [], none, [], []⟩

def setSlot (s : Threads) (i : Nat) (x : Slot) : Threads := { s with slots := Function.update s.slots i x }

def setPc (s : Threads) (t : Nat) (c : PutCall) (pc : PutPc) : Threads :=
  { s with calls := s.calls.set t { c with pc := pc } }

/-- One step of some thread, with `n` elements in the ring. -/
inductive Step (n : Nat) : Threads → Threads → Prop
  | begin (s : Threads) (msg : Bytes) : Step n s { s with calls := s.calls ++ [⟨msg, .begun⟩] }
  | claim (s : Threads) (t : Nat) (c : PutCall) : s.calls[t]? = some c → c.pc = .begun →
      Step n s { s.setPc t c (.claimed s.cursor) with cursor := (s.cursor + 1) % n }
  | startWrite (s : Threads) (t : Nat) (c : PutCall) (i : Nat) : s.calls[t]? = some c → c.pc = .claimed i →
      (s.slots i).status = .CLEAN →
      Step n s ((s.setPc t c (.writing i 0)).setSlot i
        { s.slots i with status := .WRITING, len := c.text.length })
  | copy (s : Threads) (t : Nat) (c : PutCall) (i k : Nat) (b : UInt8) : s.calls[t]? = some c → c.pc = .writing i k →
      c.text[k]? = some b →
      Step n s ((s.setPc t c (.writing i (k + 1))).setSlot i
        { s.slots i with ctx := Function.update (s.slots i).ctx k b })
  | finish (s : Threads) (t : Nat) (c : PutCall) (i k : Nat) : s.calls[t]? = some c → c.pc = .writing i k →
      k = (s.slots i).len →
      Step n s ((s.setPc t c (.returned true)).setSlot i { s.slots i with status := .DIRTY, owner := t })
  | drop (s : Threads) (t : Nat) (c : PutCall) (i : Nat) : s.calls[t]? = some c → c.pc = .claimed i →
      (s.slots i).status ≠ .CLEAN → Step n s (s.setPc t c (.returned false))
  | lock (s : Threads) : s.flusher = none → Step n s { s with flusher := some none }
  | seize (s : Threads) (i : Nat) : s.flusher = some none → (s.slots i).status = .DIRTY →
      Step n s { s.setSlot i { s.slots i with status := .FLUSHING } with flusher := some (some (i, 0)) }
  | emit (s : Threads) (i j : Nat) : s.flusher = some (some (i, j)) → j < (s.slots i).len →
      Step n s { s with flusher := some (some (i, j + 1)), file := s.file ++ [(s.slots i).ctx j] }
  | release (s : Threads) (i j : Nat) : s.flusher = some (some (i, j)) → j = (s.slots i).len →
      Step n s { s.setSlot i { s.slots i with status := .CLEAN } with
        flusher := some none, flushed := s.flushed ++ [(s.slots i).owner] }
  | unlock (s : Threads) : s.flusher = some none → Step n s { s with flusher := none }

def Reachable (n : Nat) (s : Threads) : Prop := Relation.ReflTransGen (Step n) start s

/-! ## Who owns an element -/

/-- The message of call `t`, as far as it goes into an element. -/
def text (s : Threads) (t : Nat) : Bytes := (s.calls[t]?.map PutCall.text).getD []

def pc? (s : Threads) (t : Nat) : Option PutPc := s.calls[t]?.map PutCall.pc

/-- The call's message was taken: `write` returned 0. -/
def Accepted (s : Threads) (t : Nat) : Prop := s.pc? t = some (.returned true)

/-- The first `k` bytes of an element are those of call `t`'s message. -/
def Copied (s : Threads) (i t k : Nat) : Prop := ∀ j, j < k → (s.text t)[j]? = some ((s.slots i).ctx j)

/-- The message of call `t` waits in element `i`, whole. -/
structure Waits (s : Threads) (i t : Nat) : Prop where
  status : (s.slots i).status = .DIRTY ∨ (s.slots i).status = .FLUSHING
  owner : (s.slots i).owner = t
  accepted : s.Accepted t
  len : (s.slots i).len = (s.text t).length
  copied : s.Copied i t (s.slots i).len

/-- What the flush in progress has put out of its element. -/
def part (s : Threads) : Bytes := match s.flusher with
  | some (some (i, j)) => (s.text (s.slots i).owner).take j
  | _ => []

theorem part_of_idle {s : Threads} (h : ∀ x, s.flusher ≠ some (some x)) : s.part = [] := by
  unfold part
  split
  · rename_i i j hfl
    exact absurd hfl (h (i, j))
  · rfl

theorem part_at {s : Threads} {i j : Nat} (h : s.flusher = some (some (i, j))) :
    s.part = (s.text (s.slots i).owner).take j := by
  rw [part, h]

structure Inv (s : Threads) : Prop where
  writer : ∀ t i k, s.pc? t = some (.writing i k) →
    (s.slots i).status = .WRITING ∧ (s.slots i).len = (s.text t).length ∧ s.Copied i t k
  alone : ∀ t t' i k k', s.pc? t = some (.writing i k) → s.pc? t' = some (.writing i k') → t = t'
  written : ∀ i, (s.slots i).status = .WRITING → ∃ t k, s.pc? t = some (.writing i k)
  full : ∀ i, (s.slots i).status = .DIRTY ∨ (s.slots i).status = .FLUSHING →
    s.Waits i (s.slots i).owner ∧ (s.slots i).owner ∉ s.flushed
  once : ∀ i i' t, s.Waits i t → s.Waits i' t → i = i'
  flushing : ∀ i, (s.slots i).status = .FLUSHING ↔ ∃ j, s.flusher = some (some (i, j))
  file_eq : s.file = (s.flushed.map s.text).flatten ++ s.part
  flushed_accepted : ∀ t ∈ s.flushed, s.Accepted t
  flushed_nodup : s.flushed.Nodup
  located : ∀ t, s.Accepted t → t ∈ s.flushed ∨ ∃ i, s.Waits i t

/-! ## What a step leaves alone -/

section Frame
variable {n : Nat} {s s' : Threads} {i t : Nat} {c : PutCall}

theorem text_of_call (hc : s.calls[t]? = some c) : s.text t = c.text := by simp [text, hc]

theorem pc_of_call (hc : s.calls[t]? = some c) : s.pc? t = some c.pc := by simp [pc?, hc]

theorem text_set (hc : s.calls[t]? = some c) (pc : PutPc) (u : Nat) :
    ((s.calls.set t { c with pc := pc })[u]?.map PutCall.text).getD [] = s.text u := by
  have hlt := (List.getElem?_eq_some_iff.1 hc).1
  by_cases hu : u = t
  · subst hu
    rw [List.getElem?_set_self hlt, text_of_call hc]
    rfl
  · simp [text, List.getElem?_set_ne (Ne.symm hu)]

theorem pc_set (hc : s.calls[t]? = some c) (pc : PutPc) (u : Nat) :
    (s.calls.set t { c with pc := pc })[u]?.map PutCall.pc = if u = t then some pc else s.pc? u := by
  have hlt := (List.getElem?_eq_some_iff.1 hc).1
  by_cases hu : u = t
  · subst hu
    simp [hlt]
  · simp [pc?, hu, List.getElem?_set_ne (Ne.symm hu)]

/-- At most element `i` and the place of call `t` have changed, and nothing has been flushed. -/
structure Frame (s s' : Threads) (i t : Nat) : Prop where
  slots : ∀ j, j ≠ i → s'.slots j = s.slots j
  pc : ∀ u, u ≠ t → s'.pc? u = s.pc? u
  text : ∀ u, s'.text u = s.text u
  flushed : s'.flushed = s.flushed

theorem frame_set (hc : s.calls[t]? = some c) (pc : PutPc) (x : Slot) :
    Frame s ((s.setPc t c pc).setSlot i x) i t where
  slots := fun _ hj => Function.update_of_ne hj _ _
  pc := fun u hu => (pc_set hc pc u).trans (if_neg hu)
  text := fun u => text_set hc pc u
  flushed := rfl

theorem Frame.accepted (h : Frame s s' i t) {u : Nat} (hu : u ≠ t) : s'.Accepted u ↔ s.Accepted u := by
  rw [Accepted, Accepted, h.pc u hu]

theorem Frame.copied (h : Frame s s' i t) {j u k : Nat} (hj : j ≠ i) : s'.Copied j u k ↔ s.Copied j u k := by
  simp only [Copied, h.text, h.slots j hj]

theorem Frame.waits (h : Frame s s' i t) {j u : Nat} (hj : j ≠ i) (hu : u ≠ t) : s'.Waits j u ↔ s.Waits j u := by
  constructor
  · rintro ⟨h1, h2, h3, h4, h5⟩
    rw [h.slots j hj] at h1 h2 h4 h5
    exact ⟨h1, h2, (h.accepted hu).1 h3, by rw [h4, h.text], (h.copied hj).1 h5⟩
  · rintro ⟨h1, h2, h3, h4, h5⟩
    rw [← h.slots j hj] at h1 h2 h4 h5
    exact ⟨h1, h2, (h.accepted hu).2 h3, by rw [h4, h.text], (h.copied hj).2 h5⟩

theorem Frame.texts (h : Frame s s' i t) : s'.flushed.map s'.text = s.flushed.map s.text := by
  rw [h.flushed]
  exact List.map_congr_left fun u _ => h.text u

/-- A flush in progress is somewhere else. -/
theorem Frame.part_eq (h : Frame s s' i t) (hfl : s'.flusher = s.flusher)
    (hne : ∀ j, s.flusher ≠ some (some (i, j))) : s'.part = s.part := by
  unfold part
  rw [hfl]
  split
  · rename_i i' j hfl'
    have hi : i' ≠ i := fun heq => hne j (heq ▸ hfl')
    rw [h.text, h.slots i' hi]
  · rfl

end Frame

section Inv
variable {n : Nat} {s s' : Threads} {i t : Nat} {c : PutCall}

theorem Inv.flusher_ne (h : Inv s) (hi : (s.slots i).status ≠ .FLUSHING) (j : Nat) :
    s.flusher ≠ some (some (i, j)) := fun hfl => hi ((h.flushing i).2 ⟨j, hfl⟩)

/-- A step of a call that has not returned, at an element that holds no message before and is being written
after it: `startWrite` and `copy`. -/
theorem Inv.write_step (h : Inv s) (hF : Frame s s' i t) {k : Nat}
    (hbefore : (s.slots i).status = .CLEAN ∨ (s.slots i).status = .WRITING)
    (hafter : (s'.slots i).status = .WRITING) (hnot : ¬ s.Accepted t)
    (hwriters : ∀ u k, s.pc? u = some (.writing i k) → u = t)
    (hmine : ∀ i' k, s.pc? t = some (.writing i' k) → i' = i)
    (hpc : s'.pc? t = some (.writing i k)) (hlen : (s'.slots i).len = (s'.text t).length) (hcopied : s'.Copied i t k)
    (hfl : s'.flusher = s.flusher) (hfile : s'.file = s.file) : Inv s' := by
  have hacc : ∀ u, s'.Accepted u ↔ s.Accepted u := by
    intro u
    by_cases hu : u = t
    · subst hu
      refine ⟨fun ha => ?_, fun ha => absurd ha hnot⟩
      rw [Accepted, hpc] at ha
      cases ha
    · exact hF.accepted hu
  have hocc : ¬ ((s.slots i).status = .DIRTY ∨ (s.slots i).status = .FLUSHING) := by
    rcases hbefore with hb | hb <;> simp [hb]
  have hocc' : ¬ ((s'.slots i).status = .DIRTY ∨ (s'.slots i).status = .FLUSHING) := by simp [hafter]
  have hwaits : ∀ j u, s'.Waits j u ↔ s.Waits j u := by
    intro j u
    by_cases hj : j = i
    · subst hj
      exact ⟨fun hw => absurd hw.status hocc', fun hw => absurd hw.status hocc⟩
    · by_cases hu : u = t
      · subst hu
        exact ⟨fun hw => absurd ((hacc u).1 hw.accepted) hnot, fun hw => absurd hw.accepted hnot⟩
      · exact hF.waits hj hu
  have hother : ∀ u i' k', u ≠ t → s'.pc? u = some (.writing i' k') → s.pc? u = some (.writing i' k') ∧ i' ≠ i := by
    intro u i' k' hu hw
    rw [hF.pc u hu] at hw
    exact ⟨hw, fun heq => hu (hwriters u k' (heq ▸ hw))⟩
  refine ⟨?_, ?_, ?_, ?_, ?_, ?_, ?_, ?_, ?_, ?_⟩
  · intro u i' k' hw
    by_cases hu : u = t
    · subst hu
      rw [hpc] at hw
      cases hw
      exact ⟨hafter, hlen, hcopied⟩
    · obtain ⟨hw', hi'⟩ := hother u i' k' hu hw
      obtain ⟨h1, h2, h3⟩ := h.writer u i' k' hw'
      rw [hF.slots i' hi', hF.text, hF.copied hi']
      exact ⟨h1, h2, h3⟩
  · intro u u' i' k₁ k₂ hw hw'
    by_cases hu : u = t
    · by_cases hu' : u' = t
      · rw [hu, hu']
      · rw [hu, hpc] at hw
        cases hw
        exact absurd rfl (hother u' i k₂ hu' hw').2
    · by_cases hu' : u' = t
      · rw [hu', hpc] at hw'
        cases hw'
        exact absurd rfl (hother u i k₁ hu hw).2
      · exact h.alone u u' i' k₁ k₂ (hother u i' k₁ hu hw).1 (hother u' i' k₂ hu' hw').1
  · intro j hj
    by_cases hji : j = i
    · exact ⟨t, k, hji ▸ hpc⟩
    · rw [hF.slots j hji] at hj
      obtain ⟨u, k', hw⟩ := h.written j hj
      have hu : u ≠ t := fun heq => hji (hmine j k' (heq ▸ hw))
      exact ⟨u, k', (hF.pc u hu).trans hw⟩
  · intro j hj
    have hji : j ≠ i := fun heq => hocc' (heq ▸ hj)
    rw [hF.slots j hji] at hj ⊢
    rw [hwaits, hF.flushed]
    exact h.full j hj
  · intro j j' u hw hw'
    exact h.once j j' u ((hwaits j u).1 hw) ((hwaits j' u).1 hw')
  · intro j
    rw [hfl]
    by_cases hji : j = i
    · subst hji
      constructor
      · intro hs
        rw [hafter] at hs
        cases hs
      · rintro ⟨k', hk'⟩
        exact absurd hk' (h.flusher_ne (fun heq => hocc (.inr heq)) k')
    · rw [hF.slots j hji]
      exact h.flushing j
  · rw [hfile, hF.texts, hF.part_eq hfl (h.flusher_ne fun heq => hocc (.inr heq))]
    exact h.file_eq
  · intro u hu
    rw [hF.flushed] at hu
    exact (hacc u).2 (h.flushed_accepted u hu)
  · rw [hF.flushed]
    exact h.flushed_nodup
  · intro u hu
    rw [hF.flushed]
    rcases h.located u ((hacc u).1 hu) with hin | ⟨j, hj⟩
    · exact .inl hin
    · exact .inr ⟨j, (hwaits j u).2 hj⟩

/-- The copy is complete: the element holds the message, and the call has returned. -/
theorem Inv.finish_step (h : Inv s) (hF : Frame s s' i t) {k : Nat} (hpc : s.pc? t = some (.writing i k))
    (hk : k = (s.slots i).len) (hpc' : s'.pc? t = some (.returned true))
    (hslot : s'.slots i = { s.slots i with status := .DIRTY, owner := t }) (hfl : s'.flusher = s.flusher)
    (hfile : s'.file = s.file) : Inv s' := by
  obtain ⟨hstat, hlen, hcop⟩ := h.writer t i k hpc
  have hnot : ¬ s.Accepted t := by
    intro ha
    rw [Accepted, hpc] at ha
    cases ha
  have hocc : ¬ ((s.slots i).status = .DIRTY ∨ (s.slots i).status = .FLUSHING) := by simp [hstat]
  have hmine : s'.Waits i t := by
    refine ⟨.inl (by rw [hslot]), by rw [hslot], hpc', by rw [hslot, hF.text]; exact hlen, ?_⟩
    intro j hj
    rw [hslot] at hj ⊢
    rw [hF.text]
    exact hcop j (hk ▸ hj)
  have hmine_only : ∀ j, s'.Waits j t → j = i := by
    intro j hw
    by_contra hji
    have hst := hw.status
    rw [hF.slots j hji] at hst
    have hown := hw.owner
    rw [hF.slots j hji] at hown
    exact hnot (hown ▸ (h.full j hst).1.accepted)
  have hwaits : ∀ j u, u ≠ t → (s'.Waits j u ↔ s.Waits j u) := by
    intro j u hu
    by_cases hji : j = i
    · subst hji
      refine ⟨fun hw => absurd ?_ hu, fun hw => absurd hw.status hocc⟩
      rw [← hw.owner, hslot]
    · exact hF.waits hji hu
  have hother : ∀ u i' k', s'.pc? u = some (.writing i' k') →
      u ≠ t ∧ s.pc? u = some (.writing i' k') ∧ i' ≠ i := by
    intro u i' k' hw
    have hu : u ≠ t := by
      rintro rfl
      rw [hpc'] at hw
      cases hw
    rw [hF.pc u hu] at hw
    exact ⟨hu, hw, fun heq => hu (h.alone u t i k' k (heq ▸ hw) hpc)⟩
  refine ⟨?_, ?_, ?_, ?_, ?_, ?_, ?_, ?_, ?_, ?_⟩
  · intro u i' k' hw
    obtain ⟨_, hw', hi'⟩ := hother u i' k' hw
    obtain ⟨h1, h2, h3⟩ := h.writer u i' k' hw'
    rw [hF.slots i' hi', hF.text, hF.copied hi']
    exact ⟨h1, h2, h3⟩
  · intro u u' i' k₁ k₂ hw hw'
    exact h.alone u u' i' k₁ k₂ (hother u i' k₁ hw).2.1 (hother u' i' k₂ hw').2.1
  · intro j hj
    have hji : j ≠ i := by
      rintro rfl
      rw [hslot] at hj
      cases hj
    rw [hF.slots j hji] at hj
    obtain ⟨u, k', hw⟩ := h.written j hj
    have hu : u ≠ t := by
      rintro rfl
      rw [hpc] at hw
      cases hw
      exact hji rfl
    exact ⟨u, k', (hF.pc u hu).trans hw⟩
  · intro j hj
    rw [hF.flushed]
    by_cases hji : j = i
    · subst hji
      have hown : (s'.slots j).owner = t := hmine.owner
      rw [hown]
      exact ⟨hmine, fun hin => hnot (h.flushed_accepted t hin)⟩
    · rw [hF.slots j hji] at hj ⊢
      obtain ⟨hw, hnf⟩ := h.full j hj
      have hu : (s.slots j).owner ≠ t := fun heq => hnot (heq ▸ hw.accepted)
      exact ⟨(hwaits j _ hu).2 hw, hnf⟩
  · intro j j' u hw hw'
    by_cases hu : u = t
    · subst hu
      rw [hmine_only j hw, hmine_only j' hw']
    · exact h.once j j' u ((hwaits j u hu).1 hw) ((hwaits j' u hu).1 hw')
  · intro j
    rw [hfl]
    by_cases hji : j = i
    · subst hji
      constructor
      · intro hs
        rw [hslot] at hs
        cases hs
      · rintro ⟨k', hk'⟩
        exact absurd hk' (h.flusher_ne (fun heq => hocc (.inr heq)) k')
    · rw [hF.slots j hji]
      exact h.flushing j
  · rw [hfile, hF.texts, hF.part_eq hfl (h.flusher_ne fun heq => hocc (.inr heq))]
    exact h.file_eq
  · intro u hu
    rw [hF.flushed] at hu
    have hacc := h.flushed_accepted u hu
    exact (hF.accepted fun heq => hnot (heq ▸ hacc)).2 hacc
  · rw [hF.flushed]
    exact h.flushed_nodup
  · intro u hu
    rw [hF.flushed]
    by_cases hut : u = t
    · exact .inr ⟨i, hut ▸ hmine⟩
    · rcases h.located u ((hF.accepted hut).1 hu) with hin | ⟨j, hj⟩
      · exact .inl hin
      · exact .inr ⟨j, (hwaits j u hut).2 hj⟩

/-- A step after which the same calls are writing, and the same messages are taken, waiting and flushed. What is said
of the flush in progress is left to show. -/
theorem Inv.calm_step (h : Inv s)
    (hmsg : ∀ i, (s'.slots i).len = (s.slots i).len ∧ (s'.slots i).ctx = (s.slots i).ctx ∧
      (s'.slots i).owner = (s.slots i).owner)
    (hwriting : ∀ i, (s'.slots i).status = .WRITING ↔ (s.slots i).status = .WRITING)
    (hfull : ∀ i, (s'.slots i).status = .DIRTY ∨ (s'.slots i).status = .FLUSHING ↔
      (s.slots i).status = .DIRTY ∨ (s.slots i).status = .FLUSHING)
    (hwr : ∀ u i k, s'.pc? u = some (.writing i k) ↔ s.pc? u = some (.writing i k))
    (hacc : ∀ u, s'.Accepted u ↔ s.Accepted u) (htext : ∀ u, s.pc? u ≠ none → s'.text u = s.text u)
    (hflushed : s'.flushed = s.flushed)
    (hflushing : ∀ i, (s'.slots i).status = .FLUSHING ↔ ∃ j, s'.flusher = some (some (i, j)))
    (hfile : s'.file = (s.flushed.map s.text).flatten ++ s'.part) : Inv s' := by
  have hacc_text : ∀ u, s.Accepted u → s'.text u = s.text u :=
    fun u hu => htext u (by rw [hu]; exact Option.some_ne_none _)
  have hwaits : ∀ j u, s'.Waits j u ↔ s.Waits j u := by
    intro j u
    obtain ⟨hlen, hctx, hown⟩ := hmsg j
    constructor
    · rintro ⟨h1, h2, h3, h4, h5⟩
      have ht := hacc_text u ((hacc u).1 h3)
      simp only [Copied, ht, hlen, hctx, hown] at h2 h4 h5
      exact ⟨(hfull j).1 h1, h2, (hacc u).1 h3, h4, h5⟩
    · rintro ⟨h1, h2, h3, h4, h5⟩
      have ht := hacc_text u h3
      refine ⟨(hfull j).2 h1, hown.trans h2, (hacc u).2 h3, by rw [hlen, ht, h4], fun k hk => ?_⟩
      rw [hlen] at hk
      rw [ht, hctx]
      exact h5 k hk
  refine ⟨?_, ?_, ?_, ?_, ?_, hflushing, ?_, ?_, ?_, ?_⟩
  · intro u i k hw
    have hw' := (hwr u i k).1 hw
    have ht := htext u (by rw [hw']; exact Option.some_ne_none _)
    obtain ⟨hlen, hctx, -⟩ := hmsg i
    simp only [Copied, ht, hwriting, hlen, hctx]
    exact h.writer u i k hw'
  · intro u u' i k k' hw hw'
    exact h.alone u u' i k k' ((hwr u i k).1 hw) ((hwr u' i k').1 hw')
  · intro j hj
    obtain ⟨u, k, hw⟩ := h.written j ((hwriting j).1 hj)
    exact ⟨u, k, (hwr u j k).2 hw⟩
  · intro j hj
    rw [hwaits, hflushed, (hmsg j).2.2]
    exact h.full j ((hfull j).1 hj)
  · intro j j' u hw hw'
    exact h.once j j' u ((hwaits j u).1 hw) ((hwaits j' u).1 hw')
  · rw [hflushed, List.map_congr_left fun u hu => hacc_text u (h.flushed_accepted u hu)]
    exact hfile
  · intro u hu
    rw [hflushed] at hu
    exact (hacc u).2 (h.flushed_accepted u hu)
  · rw [hflushed]
    exact h.flushed_nodup
  · intro u hu
    rw [hflushed]
    rcases h.located u ((hacc u).1 hu) with hin | ⟨j, hj⟩
    · exact .inl hin
    · exact .inr ⟨j, (hwaits j u).2 hj⟩

/-- A step that touches neither elements nor files, nor any call that is writing or has returned. -/
theorem Inv.quiet_step (h : Inv s) (hslots : s'.slots = s.slots) (hfile : s'.file = s.file)
    (hflushed : s'.flushed = s.flushed) (hat : ∀ x, s'.flusher = some (some x) ↔ s.flusher = some (some x))
    (hwr : ∀ u i k, s'.pc? u = some (.writing i k) ↔ s.pc? u = some (.writing i k))
    (hacc : ∀ u, s'.Accepted u ↔ s.Accepted u) (htext : ∀ u, s.pc? u ≠ none → s'.text u = s.text u) : Inv s' := by
  have hpart : s'.part = s.part := by
    by_cases hbusy : ∃ x, s.flusher = some (some x)
    · obtain ⟨⟨i, j⟩, hfl⟩ := hbusy
      have hw := (h.full i (.inr ((h.flushing i).2 ⟨j, hfl⟩))).1
      rw [part_at hfl, part_at ((hat (i, j)).2 hfl), hslots, htext _ (by rw [hw.accepted]; exact Option.some_ne_none _)]
    · rw [part_of_idle fun x hx => hbusy ⟨x, hx⟩, part_of_idle fun x hx => hbusy ⟨x, (hat x).1 hx⟩]
  refine h.calm_step (fun i => by simp [hslots]) (fun i => by rw [hslots]) (fun i => by rw [hslots]) hwr hacc htext
    hflushed (fun i => ?_) ?_
  · rw [hslots, h.flushing i]
    exact exists_congr fun k => (hat (i, k)).symm
  · rw [hfile, hpart]
    exact h.file_eq

/-! ## The flushing thread -/

theorem Inv.seize_step (h : Inv s) (hfl : s.flusher = some none) (hi : (s.slots i).status = .DIRTY) :
    Inv { s.setSlot i { s.slots i with status := .FLUSHING } with flusher := some (some (i, 0)) } := by
  have hidle : ∀ x, s.flusher ≠ some (some x) := fun x hx => by rw [hfl] at hx; cases hx
  refine h.calm_step (fun j => ?_) (fun j => ?_) (fun j => ?_) (fun _ _ _ => Iff.rfl) (fun _ => Iff.rfl) (fun _ _ => rfl)
    rfl (fun j => ?_) ?_
  · by_cases hj : j = i <;> simp [setSlot, hj]
  · by_cases hj : j = i <;> simp [setSlot, hj, hi]
  · by_cases hj : j = i <;> simp [setSlot, hj, hi]
  · by_cases hj : j = i
    · subst hj
      simp [setSlot]
    · have hnone : ¬ ∃ k, s.flusher = some (some (j, k)) := fun ⟨k, hk⟩ => hidle _ hk
      have hnot : (s.slots j).status ≠ .FLUSHING := mt (h.flushing j).1 hnone
      simp [setSlot, hj, hnot, Ne.symm hj]
  · have hold := h.file_eq
    rw [part_of_idle hidle] at hold
    exact hold

theorem Inv.emit_step (h : Inv s) {j : Nat} (hfl : s.flusher = some (some (i, j))) (hj : j < (s.slots i).len) :
    Inv { s with flusher := some (some (i, j + 1)), file := s.file ++ [(s.slots i).ctx j] } := by
  refine h.calm_step (fun _ => ⟨rfl, rfl, rfl⟩) (fun _ => Iff.rfl) (fun _ => Iff.rfl) (fun _ _ _ => Iff.rfl)
    (fun _ => Iff.rfl) (fun _ _ => rfl) rfl (fun i' => ?_) ?_
  · have hold := h.flushing i'
    rw [hfl] at hold
    simp only [Option.some.injEq, Prod.mk.injEq, exists_and_left, exists_eq', and_true] at hold ⊢
    exact hold
  · -- the byte put out is the next one of the message
    have hw := (h.full i (.inr ((h.flushing i).2 ⟨j, hfl⟩))).1
    have hbyte := hw.copied j hj
    have hold := h.file_eq
    rw [part_at hfl] at hold
    have hnew : part { s with flusher := some (some (i, j + 1)), file := s.file ++ [(s.slots i).ctx j] } =
        (s.text (s.slots i).owner).take (j + 1) := rfl
    rw [hnew, List.take_add_one, hbyte, ← List.append_assoc]
    exact congrArg (· ++ [(s.slots i).ctx j]) hold

theorem Inv.release_step (h : Inv s) {j : Nat} (hfl : s.flusher = some (some (i, j))) (hj : j = (s.slots i).len) :
    Inv { s.setSlot i { s.slots i with status := .CLEAN } with
      flusher := some none, flushed := s.flushed ++ [(s.slots i).owner] } := by
  generalize hs' : ({ s.setSlot i { s.slots i with status := .CLEAN } with
      flusher := some none, flushed := s.flushed ++ [(s.slots i).owner] } : Threads) = s'
  have hflush := (h.flushing i).2 ⟨j, hfl⟩
  obtain ⟨hw, hnew⟩ := h.full i (.inr hflush)
  have hslot : (s'.slots i).status = .CLEAN := by rw [← hs']; simp [setSlot]
  have hslots : ∀ i', i' ≠ i → s'.slots i' = s.slots i' := fun i' hi' => by
    rw [← hs']
    exact Function.update_of_ne hi' _ _
  have hpc : ∀ u, s'.pc? u = s.pc? u := fun u => by rw [← hs']; rfl
  have htext : ∀ u, s'.text u = s.text u := fun u => by rw [← hs']; rfl
  have hacc : ∀ u, s'.Accepted u ↔ s.Accepted u := fun u => by rw [Accepted, Accepted, hpc]
  have hflushed : s'.flushed = s.flushed ++ [(s.slots i).owner] := by rw [← hs']
  have hwaits : ∀ i' u, s'.Waits i' u ↔ i' ≠ i ∧ s.Waits i' u := by
    intro i' u
    by_cases hi' : i' = i
    · subst hi'
      refine ⟨fun hw' => ?_, fun hw' => absurd rfl hw'.1⟩
      simpa [hslot] using hw'.status
    · constructor
      · rintro ⟨h1, h2, h3, h4, h5⟩
        simp only [Copied, htext, hslots i' hi'] at h1 h2 h4 h5
        exact ⟨hi', h1, h2, (hacc u).1 h3, h4, h5⟩
      · rintro ⟨_, h1, h2, h3, h4, h5⟩
        refine ⟨by rwa [hslots i' hi'], by rwa [hslots i' hi'], (hacc u).2 h3, ?_, ?_⟩
        · rw [hslots i' hi', htext, h4]
        · simp only [Copied, htext, hslots i' hi']
          exact h5
  refine ⟨?_, ?_, ?_, ?_, ?_, ?_, ?_, ?_, ?_, ?_⟩
  · intro u i' k hwr
    rw [hpc] at hwr
    obtain ⟨h1, h2, h3⟩ := h.writer u i' k hwr
    have hi' : i' ≠ i := by
      rintro rfl
      rw [hflush] at h1
      cases h1
    simp only [Copied, htext, hslots i' hi']
    exact ⟨h1, h2, h3⟩
  · intro u u' i' k k' hwr hwr'
    rw [hpc] at hwr hwr'
    exact h.alone u u' i' k k' hwr hwr'
  · intro i' hi'
    have hne : i' ≠ i := by
      rintro rfl
      rw [hslot] at hi'
      cases hi'
    rw [hslots i' hne] at hi'
    obtain ⟨u, k, hwr⟩ := h.written i' hi'
    exact ⟨u, k, (hpc u).trans hwr⟩
  · intro i' hi'
    have hne : i' ≠ i := by
      rintro rfl
      simp [hslot] at hi'
    rw [hslots i' hne] at hi' ⊢
    obtain ⟨hw', hnew'⟩ := h.full i' hi'
    refine ⟨(hwaits i' _).2 ⟨hne, hw'⟩, ?_⟩
    rw [hflushed, List.mem_append, List.mem_singleton]
    rintro (hin | heq)
    · exact hnew' hin
    · exact hne (h.once i' i _ hw' (heq ▸ hw))
  · intro i₁ i₂ u h1 h2
    exact h.once i₁ i₂ u ((hwaits i₁ u).1 h1).2 ((hwaits i₂ u).1 h2).2
  · intro i'
    have hidle : s'.flusher = some none := by rw [← hs']
    rw [hidle]
    constructor
    · intro hi'
      have hne : i' ≠ i := by
        rintro rfl
        rw [hslot] at hi'
        cases hi'
      rw [hslots i' hne] at hi'
      obtain ⟨k, hk⟩ := (h.flushing i').1 hi'
      rw [hfl] at hk
      cases hk
      exact absurd rfl hne
    · rintro ⟨k, hk⟩
      cases hk
  · have hold := h.file_eq
    rw [part_at hfl, hj, hw.len, List.take_length] at hold
    have hpart : s'.part = [] := by rw [← hs']; rfl
    have hfile : s'.file = s.file := by rw [← hs']; rfl
    have htexts : s'.text = s.text := funext htext
    rw [hfile, hold, hpart, hflushed, htexts]
    simp
  · intro u hu
    rw [hflushed, List.mem_append, List.mem_singleton] at hu
    rw [hacc]
    rcases hu with hin | rfl
    · exact h.flushed_accepted u hin
    · exact hw.accepted
  · rw [hflushed]
    exact List.nodup_append.2 ⟨h.flushed_nodup, List.nodup_singleton _, fun a ha b hb heq =>
      hnew (by rw [List.mem_singleton] at hb; rwa [heq, hb] at ha)⟩
  · intro u hu
    rw [hflushed, List.mem_append, List.mem_singleton]
    rcases h.located u ((hacc u).1 hu) with hin | ⟨i', hi'⟩
    · exact .inl (.inl hin)
    · by_cases hne : i' = i
      · exact .inl (.inr (by rw [← hne]; exact hi'.owner.symm))
      · exact .inr ⟨i', (hwaits i' u).2 ⟨hne, hi'⟩⟩

/-! ## Whole runs -/

theorem inv_start : Inv start where
  writer := fun t i k h => by simp [pc?, start] at h
  alone := fun t t' i k k' h => by simp [pc?, start] at h
  written := fun i h => by simp [start] at h
  full := fun i h => by simp [start] at h
  once := fun i i' t h => by simpa [start] using h.status
  flushing := fun i => by simp [start]
  file_eq := rfl
  flushed_accepted := fun t h => by simp [start] at h
  flushed_nodup := List.nodup_nil
  located := fun t h => by simp [Accepted, pc?, start] at h

/-- A call moves on without writing, and has not been accepted before or after. -/
theorem Inv.move_step (h : Inv s) (hc : s.calls[t]? = some c) {pc : PutPc} {m : Nat}
    (hwr : ∀ i k, c.pc ≠ .writing i k) (hwr' : ∀ i k, pc ≠ .writing i k) (hnot : c.pc ≠ .returned true)
    (hnot' : pc ≠ .returned true) : Inv { s.setPc t c pc with cursor := m } := by
  have hpc : ∀ u, ({ s.setPc t c pc with cursor := m } : Threads).pc? u = if u = t then some pc else s.pc? u :=
    pc_set hc pc
  have hmine := pc_of_call hc
  refine h.quiet_step rfl rfl rfl (fun _ => Iff.rfl) (fun u i k => ?_) (fun u => ?_) fun u _ => text_set hc pc u
  · rw [hpc]
    split
    · next hu => simp [hu, hmine, hwr i k, hwr' i k]
    · exact Iff.rfl
  · rw [Accepted, Accepted, hpc]
    split
    · next hu => simp [hu, hmine, hnot, hnot']
    · exact Iff.rfl

theorem Inv.begin_step (h : Inv s) (msg : Bytes) : Inv { s with calls := s.calls ++ [⟨msg, .begun⟩] } := by
  have hpc : ∀ u p, p ≠ .begun →
      (pc? { s with calls := s.calls ++ [⟨msg, .begun⟩] } u = some p ↔ s.pc? u = some p) := by
    intro u p hp
    rcases Nat.lt_trichotomy u s.calls.length with hu | hu | hu
    · simp [pc?, List.getElem?_append_left hu]
    · subst hu
      simp [pc?, Ne.symm hp]
    · have hout : (s.calls ++ [⟨msg, .begun⟩])[u]? = none := List.getElem?_eq_none (by rw [List.length_append]; exact hu)
      simp [pc?, hout, Nat.le_of_lt hu]
  refine h.quiet_step rfl rfl rfl (fun _ => Iff.rfl) (fun u i k => hpc u _ (by simp)) (fun u => hpc u _ (by simp)) ?_
  intro u hu
  have hlt : u < s.calls.length := by
    by_contra hge
    exact hu (by simp [pc?, Nat.not_lt.1 hge])
  simp [text, List.getElem?_append_left hlt]

theorem inv_step (h : Inv s) (hstep : Step n s s') : Inv s' := by
  cases hstep with
  | begin msg => exact h.begin_step msg
  | claim t c hc hpc => exact h.move_step hc (by simp [hpc]) (by simp) (by simp [hpc]) (by simp)
  | startWrite t c i hc hpc hclean =>
    have hmine := pc_of_call hc
    rw [hpc] at hmine
    have hfree : ∀ u k, s.pc? u = some (.writing i k) → u = t := by
      intro u k hw
      have hst := (h.writer u i k hw).1
      rw [hclean] at hst
      cases hst
    refine h.write_step (frame_set hc _ _) (.inl hclean) (by simp [setSlot]) (by simp [Accepted, hmine]) hfree
      (by simp [hmine]) ((pc_set hc _ t).trans (if_pos rfl)) ?_ (fun _ hj => absurd hj (Nat.not_lt_zero _)) rfl rfl
    rw [(frame_set hc _ _).text, text_of_call hc]
    simp [setSlot]
  | copy t c i k b hc hpc hb =>
    have hmine := pc_of_call hc
    rw [hpc] at hmine
    obtain ⟨hst, hlen, hcop⟩ := h.writer t i k hmine
    have hF := frame_set (s := s) (i := i) hc (.writing i (k + 1))
      { s.slots i with ctx := Function.update (s.slots i).ctx k b }
    refine h.write_step hF (.inr hst) (by simpa [setSlot] using hst) (by simp [Accepted, hmine])
      (fun u k' hw => h.alone u t i k' k hw hmine) (by simp [hmine]) ((pc_set hc _ t).trans (if_pos rfl)) ?_ ?_ rfl rfl
    · rw [hF.text, ← hlen]
      simp [setSlot]
    · intro j hj
      rw [hF.text]
      by_cases hjk : j = k
      · subst hjk
        rw [text_of_call hc, hb]
        simp [setSlot]
      · rw [hcop j (by omega)]
        simp [setSlot, hjk]
  | finish t c i k hc hpc hk =>
    have hmine := pc_of_call hc
    rw [hpc] at hmine
    exact h.finish_step (frame_set hc _ _) hmine hk ((pc_set hc _ t).trans (if_pos rfl)) (by simp [setSlot]) rfl rfl
  | drop t c i hc hpc _ => exact h.move_step hc (by simp [hpc]) (by simp) (by simp [hpc]) (by simp)
  | lock hfl =>
    exact h.quiet_step rfl rfl rfl (fun x => by simp [hfl]) (fun _ _ _ => Iff.rfl) (fun _ => Iff.rfl) fun _ _ => rfl
  | seize i hfl hi => exact h.seize_step hfl hi
  | emit i j hfl hj => exact h.emit_step hfl hj
  | release i j hfl hj => exact h.release_step hfl hj
  | unlock hfl =>
    exact h.quiet_step rfl rfl rfl (fun x => by simp [hfl]) (fun _ _ _ => Iff.rfl) (fun _ => Iff.rfl) fun _ _ => rfl

theorem reachable_inv (h : Reachable n s) : Inv s := by
  induction h with
  | refl => exact inv_start
  | tail _ hstep ih => exact inv_step ih hstep

/-- Every element that a call or a flush works on is one of the ring's. -/
structure InRing (n : Nat) (s : Threads) : Prop where
  cursor : s.cursor < n
  at_work : ∀ t i, s.pc? t = some (.claimed i) ∨ (∃ k, s.pc? t = some (.writing i k)) → i < n
  used : ∀ i, (s.slots i).status ≠ .CLEAN → i < n

theorem InRing.moved (h : InRing n s) (hc : s.calls[t]? = some c) {pc : PutPc} {m : Nat} (hm : m < n)
    (hpc : ∀ i, pc = .claimed i ∨ (∃ k, pc = .writing i k) → i < n) : InRing n { s.setPc t c pc with cursor := m } := by
  refine ⟨hm, fun u i hu => ?_, h.used⟩
  have heq : ({ s.setPc t c pc with cursor := m } : Threads).pc? u = if u = t then some pc else s.pc? u := pc_set hc pc u
  rw [heq] at hu
  split at hu
  · simp only [Option.some.injEq] at hu
    exact hpc i hu
  · exact h.at_work u i hu

theorem InRing.slot (h : InRing n s) (hi : i < n) (x : Slot) : InRing n (s.setSlot i x) := by
  refine ⟨h.cursor, h.at_work, fun j hj => ?_⟩
  by_cases hji : j = i
  · exact hji ▸ hi
  · refine h.used j ?_
    have heq : (s.setSlot i x).slots j = s.slots j := Function.update_of_ne hji _ _
    rwa [heq] at hj

theorem inRing_step (h : InRing n s) (hstep : Step n s s') : InRing n s' := by
  have hn : 0 < n := Nat.zero_lt_of_lt h.cursor
  cases hstep with
  | begin msg =>
    refine ⟨h.cursor, fun u i hu => ?_, h.used⟩
    rcases Nat.lt_trichotomy u s.calls.length with hlt | heq | hgt
    · refine h.at_work u i ?_
      simpa [pc?, List.getElem?_append_left hlt] using hu
    · subst heq
      simp [pc?] at hu
    · have hout : (s.calls ++ [⟨msg, .begun⟩])[u]? = none := List.getElem?_eq_none (by rw [List.length_append]; exact hgt)
      simp [pc?, hout] at hu
  | claim t c hc hpc =>
    refine h.moved hc (Nat.mod_lt _ hn) fun i hi => ?_
    simp only [PutPc.claimed.injEq, reduceCtorEq, exists_false, or_false] at hi
    exact hi ▸ h.cursor
  | startWrite t c i hc hpc _ =>
    have hi : i < n := h.at_work t i (.inl (by rw [pc_of_call hc, hpc]))
    refine InRing.slot (h.moved hc h.cursor fun i' hi' => ?_) hi _
    simp only [reduceCtorEq, PutPc.writing.injEq, exists_and_left, exists_eq', and_true, false_or] at hi'
    exact hi' ▸ hi
  | copy t c i k b hc hpc _ =>
    have hi : i < n := h.at_work t i (.inr ⟨k, by rw [pc_of_call hc, hpc]⟩)
    refine InRing.slot (h.moved hc h.cursor fun i' hi' => ?_) hi _
    simp only [reduceCtorEq, PutPc.writing.injEq, exists_and_left, exists_eq', and_true, false_or] at hi'
    exact hi' ▸ hi
  | finish t c i k hc hpc _ =>
    have hi : i < n := h.at_work t i (.inr ⟨k, by rw [pc_of_call hc, hpc]⟩)
    exact InRing.slot (h.moved hc h.cursor (by simp)) hi _
  | drop t c i hc hpc _ => exact h.moved hc h.cursor (by simp)
  | lock _ => exact ⟨h.cursor, h.at_work, h.used⟩
  | seize i _ hi =>
    have hslot := h.slot (h.used i (by simp [hi])) { s.slots i with status := .FLUSHING }
    exact ⟨hslot.cursor, hslot.at_work, hslot.used⟩
  | emit i j _ _ => exact ⟨h.cursor, h.at_work, h.used⟩
  | release i j _ _ =>
    refine ⟨h.cursor, h.at_work, fun i' hi' => ?_⟩
    by_cases hne : i' = i
    · subst hne
      simp [setSlot] at hi'
    · refine h.used i' ?_
      simpa [setSlot, hne] using hi'
  | unlock _ => exact ⟨h.cursor, h.at_work, h.used⟩

theorem reachable_inRing (hn : 0 < n) (h : Reachable n s) : InRing n s := by
  induction h with
  | refl => exact ⟨hn, fun t i h => by simp [pc?, start] at h, fun i h => by simp [start] at h⟩
  | tail _ hstep ih => exact inRing_step ih hstep

end Inv

/-- However the threads interleave: the files hold messages that `write` took, each once and in one piece, and
possibly the beginning of one more; every message taken is there or waits, whole, in exactly one element of the
ring; and a call that finds its element taken finds another call's message there. -/
theorem logger_threads_safe {n : Nat} {s : Threads} (hn : 0 < n) (h : Reachable n s) :
    (∃ (order : List Nat) (part : Bytes), order.Nodup ∧ (∀ t ∈ order, s.Accepted t) ∧
      s.file = (order.map s.text).flatten ++ part ∧
      (part = [] ∨ ∃ i t, s.Waits i t ∧ t ∉ order ∧ part <+: s.text t) ∧
      ∀ t, s.Accepted t → t ∉ order → ∃ i, i < n ∧ s.Waits i t ∧ ∀ i', s.Waits i' t → i' = i) ∧
    (∀ t i, s.pc? t = some (.claimed i) → i < n ∧ ((s.slots i).status ≠ .CLEAN →
      ∃ u, u ≠ t ∧ (s.Waits i u ∨ ∃ k, s.pc? u = some (.writing i k)))) := by
  have hinv := reachable_inv h
  have hring := reachable_inRing hn h
  refine ⟨⟨s.flushed, s.part, hinv.flushed_nodup, hinv.flushed_accepted, hinv.file_eq, ?_, ?_⟩, ?_⟩
  · by_cases hbusy : ∃ x, s.flusher = some (some x)
    · obtain ⟨⟨i, j⟩, hfl⟩ := hbusy
      obtain ⟨hw, hnew⟩ := hinv.full i (.inr ((hinv.flushing i).2 ⟨j, hfl⟩))
      exact .inr ⟨i, (s.slots i).owner, hw, hnew, by rw [part_at hfl]; exact List.take_prefix _ _⟩
    · exact .inl (part_of_idle fun x hx => hbusy ⟨x, hx⟩)
  · intro t ht hnew
    obtain ⟨i, hi⟩ := (hinv.located t ht).resolve_left hnew
    have hused : (s.slots i).status ≠ .CLEAN := by
      rcases hi.status with hst | hst <;> simp [hst]
    exact ⟨i, hring.used i hused, hi, fun i' hi' => hinv.once i' i t hi' hi⟩
  · intro t i hpc
    refine ⟨hring.at_work t i (.inl hpc), fun hst => ?_⟩
    have hmine : ∀ u p, s.pc? u = some p → p ≠ .claimed i → u ≠ t := by
      rintro u p hu hp rfl
      rw [hpc, Option.some.injEq] at hu
      exact hp hu.symm
    cases hcase : (s.slots i).status with
    | CLEAN => exact absurd hcase hst
    | WRITING =>
      obtain ⟨u, k, hu⟩ := hinv.written i hcase
      exact ⟨u, hmine u _ hu (by simp), .inr ⟨k, hu⟩⟩
    | DIRTY =>
      have hw := (hinv.full i (.inl hcase)).1
      exact ⟨_, hmine _ _ hw.accepted (by simp), .inl hw⟩
    | FLUSHING =>
      have hw := (hinv.full i (.inr hcase)).1
      exact ⟨_, hmine _ _ hw.accepted (by simp), .inl hw⟩

/-- Two calls at a ring of one element: both find it `CLEAN` and nothing to wait for; the second comes too late. -/
theorem logger_threads_safe_race : ∃ s, Reachable 1 s ∧ s.file = [97] ∧ s.pc? 1 = some (.returned false) ∧
    ∃ (order : List Nat) (part : Bytes), order.Nodup ∧ (∀ t ∈ order, s.Accepted t) ∧
      s.file = (order.map s.text).flatten ++ part ∧
      (part = [] ∨ ∃ i t, s.Waits i t ∧ t ∉ order ∧ part <+: s.text t) ∧
      ∀ t, s.Accepted t → t ∉ order → ∃ i, i < 1 ∧ s.Waits i t ∧ ∀ i', s.Waits i' t → i' = i := by
  have h : Reachable 1 start := .refl
  have h := h.tail (.begin _ [97])
  have h := h.tail (.begin _ [98])
  have h := h.tail (.claim _ 0 ⟨[97], .begun⟩ rfl rfl)
  have h := h.tail (.claim _ 1 ⟨[98], .begun⟩ rfl rfl)
  have h := h.tail (.startWrite _ 0 ⟨[97], .claimed 0⟩ 0 rfl rfl rfl)
  have h := h.tail (.copy _ 0 ⟨[97], .writing 0 0⟩ 0 0 97 rfl rfl rfl)
  have h := h.tail (.finish _ 0 ⟨[97], .writing 0 1⟩ 0 1 rfl rfl rfl)
  have h := h.tail (.drop _ 1 ⟨[98], .claimed 0⟩ 0 rfl rfl (by decide))
  have h := h.tail (.lock _ rfl)
  have h := h.tail (.seize _ 0 rfl rfl)
  have h := h.tail (.emit _ 0 0 rfl (by decide))
  exact ⟨_, h, rfl, rfl, (logger_threads_safe (by decide) h).1⟩

end Threads
end ReplicatedSplinter
