import ReplicatedSplinter.Lib.Ring
import ReplicatedSplinter.Nuraft
import Mathlib.Algebra.BigOperators.Group.List.Basic
import Mathlib.Algebra.Ring.Nat
/-!
# `SimpleLogger`: formatting, the ring of pending messages, and the files

A message is formatted into a buffer of `MSG_SIZE` bytes, put into the next element of a ring, and
written to the file when the ring comes around, or when someone flushes. A file that has grown past the
limit is left for the next one.

| here | there |
| --- | --- |
| `MsgBuf.snprintf`    | the macro `_snprintf` (`logger.cpp:945-953`), its `avail_len` and `cur_len` |
| `formatMsg`          | the three pieces of a message (`:985-1018`): time, thread and level; the text; the place |
| `LogElem.write` / `flush` | `:694-715`; `put` ignores the result of `write` (`:1037`) |
| `exceeds`            | the test of `:1164`, with its cast of the limit to `int64_t` |
| `SimpleLogger.flush` | `:1148-1182`, and `flushAll` (`:1184-1187`) |
| `SimpleLogger.put`   | `:955-1037`, by a thread that nobody gets in the way of |
| `SimpleLogger.setLogLevel` | `:926-931` |

`fs` keeps what was written write by write, so a file is the list of its messages. The display on the
console is left out, the file stream is taken to be in order, and the file of the next number to be new.
`LoggerThreads.lean` has several threads at the ring.
-/

namespace ReplicatedSplinter
open ByteCodec

def msgSize : Nat := 4096

/-! ## Formatting -/

/-- The message buffer: its first `cur_len` bytes, and `avail_len`. -/
structure MsgBuf where
  text : Bytes
  availLen : Nat

def MsgBuf.empty : MsgBuf := ⟨[], msgSize⟩

/-- `avail_len` of the next call; it is the size that `snprintf` is given. -/
def MsgBuf.nextAvail (b : MsgBuf) : Nat := if b.text.length < b.availLen then b.availLen - b.text.length else 0

/-- One more piece. `snprintf` keeps room for a terminating NUL and counts it when it had to cut. -/
def MsgBuf.snprintf (b : MsgBuf) (piece : Bytes) : MsgBuf :=
  ⟨b.text ++ if piece.length < b.nextAvail then piece else (piece.take (b.nextAvail - 1) ++ [0]).take b.nextAvail,
    b.nextAvail⟩

def formatMsg (header body place : Bytes) : Bytes :=
  (((MsgBuf.empty.snprintf header).snprintf body).snprintf place).text

namespace MsgBuf

/-- What a piece adds: all of it, or as much as `snprintf` was given room for. -/
theorem length_snprintf (b : MsgBuf) (piece : Bytes) :
    (b.snprintf piece).text.length = b.text.length + min piece.length b.nextAvail := by
  unfold snprintf
  split
  · simp only [List.length_append]
    omega
  · simp only [List.length_append, List.length_take, List.length_singleton]
    omega

theorem text_snprintf {b : MsgBuf} {piece : Bytes} (h : piece.length < b.nextAvail) :
    (b.snprintf piece).text = b.text ++ piece := by
  rw [snprintf, if_pos h]

/-- A piece that does not fit into room there is leaves a NUL behind. -/
theorem zero_mem_snprintf {b : MsgBuf} {piece : Bytes} (hcut : b.nextAvail ≤ piece.length) (hroom : 0 < b.nextAvail) :
    0 ∈ (b.snprintf piece).text := by
  have hlen : (piece.take (b.nextAvail - 1) ++ [0]).length ≤ b.nextAvail := by
    simp only [List.length_append, List.length_take, List.length_singleton]
    omega
  simp [snprintf, Nat.not_lt.2 hcut, List.take_of_length_le hlen]

/-- `snprintf` is never given room beyond the buffer. -/
theorem room_le (pieces : List Bytes) :
    (pieces.foldl snprintf empty).text.length + (pieces.foldl snprintf empty).nextAvail ≤ msgSize := by
  have key : ∀ (pieces : List Bytes) (b : MsgBuf), b.text.length ≤ msgSize → b.availLen ≤ msgSize →
      (pieces.foldl snprintf b).text.length + (pieces.foldl snprintf b).nextAvail ≤ msgSize := by
    intro pieces
    induction pieces with
    | nil =>
      intro b htext havail
      rw [List.foldl_nil, nextAvail]
      split <;> omega
    | cons piece pieces ih =>
      intro b htext havail
      have hnext : b.text.length + b.nextAvail ≤ msgSize := by
        rw [nextAvail]
        split <;> omega
      refine ih _ ?_ (show b.nextAvail ≤ msgSize by omega)
      rw [length_snprintf]
      omega
  exact key pieces empty (Nat.zero_le _) (Nat.le_refl _)

end MsgBuf

/-- **When a message is complete.** No piece is ever written past the buffer; and since `avail_len` has
`cur_len` taken from it again at every piece, the header counts twice: a message without NULs is kept
whole exactly when twice its header, its text and its place are shorter than the buffer. -/
theorem format_complete_iff (header body place : Bytes) (hnul : 0 ∉ header ++ body ++ place) (hne : place ≠ []) :
    (∀ pieces : List Bytes, (pieces.foldl MsgBuf.snprintf .empty).text.length +
      (pieces.foldl MsgBuf.snprintf .empty).nextAvail ≤ msgSize) ∧
    (formatMsg header body place = header ++ body ++ place ↔
      2 * header.length + body.length + place.length < msgSize) := by
  refine ⟨MsgBuf.room_le, ?_⟩
  have h1 := MsgBuf.length_snprintf .empty header
  have h2 := MsgBuf.length_snprintf (MsgBuf.empty.snprintf header) body
  have h3 := MsgBuf.length_snprintf ((MsgBuf.empty.snprintf header).snprintf body) place
  have a1 : MsgBuf.empty.nextAvail = msgSize := rfl
  have a2 : (MsgBuf.empty.snprintf header).nextAvail =
      if (MsgBuf.empty.snprintf header).text.length < msgSize then
        msgSize - (MsgBuf.empty.snprintf header).text.length else 0 := rfl
  have a3 : ((MsgBuf.empty.snprintf header).snprintf body).nextAvail =
      if ((MsgBuf.empty.snprintf header).snprintf body).text.length < (MsgBuf.empty.snprintf header).nextAvail then
        (MsgBuf.empty.snprintf header).nextAvail - ((MsgBuf.empty.snprintf header).snprintf body).text.length
      else 0 := rfl
  have hzero : (MsgBuf.empty).text.length = 0 := rfl
  have hplace : 0 < place.length := List.length_pos_of_ne_nil hne
  constructor
  · intro heq
    have hlen : (((MsgBuf.empty.snprintf header).snprintf body).snprintf place).text.length =
        header.length + body.length + place.length := by
      have hl := congrArg List.length heq
      simpa [formatMsg, Nat.add_assoc] using hl
    have hlast : place.length < ((MsgBuf.empty.snprintf header).snprintf body).nextAvail := by
      by_contra hcut
      refine hnul ?_
      rw [← heq]
      exact MsgBuf.zero_mem_snprintf (Nat.not_lt.1 hcut) (by omega)
    split at a3 <;> split at a2 <;> omega
  · intro hfit
    have f1 : header.length < MsgBuf.empty.nextAvail := by omega
    have f2 : body.length < (MsgBuf.empty.snprintf header).nextAvail := by
      rw [a2, if_pos (by omega)]
      omega
    have f3 : place.length < ((MsgBuf.empty.snprintf header).snprintf body).nextAvail := by
      rw [if_pos (by omega)] at a2
      rw [a3, if_pos (by omega)]
      omega
    rw [formatMsg, MsgBuf.text_snprintf f3, MsgBuf.text_snprintf f2, MsgBuf.text_snprintf f1]
    rfl

/-- A short message is kept whole. -/
theorem format_complete_iff_short : formatMsg [91, 93, 32] [104, 105] [10] = [91, 93, 32, 104, 105, 10] :=
  (format_complete_iff [91, 93, 32] [104, 105] [10] (by decide) (by decide)).2.2 (by decide)

/-! ## The ring -/

inductive LogElemStatus
  | CLEAN
  | WRITING
  | DIRTY
  | FLUSHING
deriving DecidableEq, Repr

/-- `ctx` is the first `len` bytes of the element's buffer. -/
structure LogElem where
  ctx : Bytes
  status : LogElemStatus
deriving DecidableEq, Repr

namespace LogElem

def new : LogElem := ⟨[], .CLEAN⟩

def needToFlush (e : LogElem) : Bool := e.status == .DIRTY

def available (e : LogElem) : Bool := e.status == .CLEAN || e.status == .DIRTY

def write (e : LogElem) (msg : Bytes) : LogElem :=
  if e.status = .CLEAN then ⟨msg.take msgSize, .DIRTY⟩ else e

def flush (e : LogElem) (ofs : List Bytes) : LogElem × List Bytes :=
  if e.status = .DIRTY then ({ e with status := .CLEAN }, ofs ++ [e.ctx]) else (e, ofs)

/-- The message that waits in the element. -/
def pending (e : LogElem) : Option Bytes := if e.status = .DIRTY then some e.ctx else none

end LogElem

/-! ## The logger -/

/-- A file the logger has left: its number, its size when it was opened, and what was written since. -/
structure LogFile where
  revnum : Nat
  sizeBefore : Nat
  written : List Bytes

structure SimpleLogger where
  curLogLevel : Int
  maxLogFileSize : UInt64
  cursor : Nat
  logs : List LogElem
  curRevnum : Nat
  sizeBefore : Nat
  fs : List Bytes
  closed : List LogFile

namespace SimpleLogger

def bytesOf (ws : List Bytes) : Nat := (ws.map List.length).sum

def new (maxLogElems : Nat) (maxLogFileSize : UInt64) (revnum sizeBefore : Nat) : SimpleLogger :=
  ⟨4, maxLogFileSize, 0, List.replicate maxLogElems .new, revnum, sizeBefore, [], []⟩

/-- A file opened for appending is at its end at once. -/
def tellp (l : SimpleLogger) : Nat := l.sizeBefore + bytesOf l.fs

/-- 0 is no limit, and one from 2^63 on is negative. -/
def exceeds (limit : UInt64) (pos : Nat) : Bool := limit ≠ 0 && limit.toInt64.toInt < pos

/-- One of the two loops of `flush`. -/
def flushElems : List LogElem → List Bytes → List LogElem × List Bytes
  | [], ofs => ([], ofs)
  | e :: es, ofs =>
    let (e, ofs) := e.flush ofs
    let (es, ofs) := flushElems es ofs
    (e :: es, ofs)

def rotate (l : SimpleLogger) : SimpleLogger :=
  { l with
    curRevnum := l.curRevnum + 1
    closed := l.closed ++ [⟨l.curRevnum, l.sizeBefore, l.fs⟩]
    sizeBefore := 0
    fs := [] }

def flush (l : SimpleLogger) (startPos : Nat) : SimpleLogger :=
  let (hi, fs) := flushElems (l.logs.drop startPos) l.fs
  let (lo, fs) := flushElems (l.logs.take startPos) fs
  let l := { l with logs := lo ++ hi, fs := fs }
  if exceeds l.maxLogFileSize l.tellp then l.rotate else l

def flushAll (l : SimpleLogger) : SimpleLogger := l.flush l.cursor

def setLogLevel (l : SimpleLogger) (level : Int) : SimpleLogger :=
  if 6 < level then l else { l with curLogLevel := level }

/-- `none` where the process may die: there are names for the levels from 0 to 6, and the cursor is taken modulo the
number of elements. An element that is being written or flushed is waited for, which an undisturbed thread never has
to. -/
def put (l : SimpleLogger) (level : Int) (msg : Bytes) : Option SimpleLogger :=
  if l.curLogLevel < level then some l
  else if level < 0 ∨ 6 < level then none
  else if l.logs.length = 0 then none
  else match l.logs[l.cursor]? with
    | none => none
    | some ll =>
      let cursorExp := l.cursor
      let l := { l with cursor := (cursorExp + 1) % l.logs.length }
      if !ll.available then none
      else
        let l := if ll.needToFlush then l.flush cursorExp else l
        some { l with logs := l.logs.modify cursorExp (·.write msg) }

/-! ## What `flush` and `put` do -/

/-- Everything written so far, file after file. -/
def written (l : SimpleLogger) : List Bytes := l.closed.flatMap LogFile.written ++ l.fs

/-- What waits in the ring, the oldest first. -/
def waiting (l : SimpleLogger) : List Bytes := Ring.held LogElem.pending l.cursor l.logs

def clean (e : LogElem) : LogElem := if e.status = .DIRTY then { e with status := .CLEAN } else e

theorem flushElems_eq (es : List LogElem) (ofs : List Bytes) :
    flushElems es ofs = (es.map clean, ofs ++ es.filterMap LogElem.pending) := by
  induction es generalizing ofs with
  | nil => simp [flushElems]
  | cons e es ih =>
    by_cases hd : e.status = .DIRTY
    · simp [flushElems, LogElem.flush, ih, clean, LogElem.pending, hd]
    · simp [flushElems, LogElem.flush, ih, clean, LogElem.pending, hd]

/-- The element's next state is free of messages. -/
theorem pending_clean (e : LogElem) : (clean e).pending = none := by
  unfold clean LogElem.pending
  by_cases hd : e.status = .DIRTY
  · simp [hd]
  · simp [hd]

/-- The state between the two halves of `flush`: the ring has been emptied into the file. -/
theorem flush_eq (l : SimpleLogger) (c : Nat) :
    ∃ m : SimpleLogger, m = { l with logs := l.logs.map clean, fs := l.fs ++ Ring.held LogElem.pending c l.logs } ∧
      l.flush c = if exceeds m.maxLogFileSize m.tellp then m.rotate else m := by
  refine ⟨_, rfl, ?_⟩
  have hlogs : (l.logs.take c).map clean ++ (l.logs.drop c).map clean = l.logs.map clean := by
    rw [← List.map_append, List.take_append_drop]
  simp only [flush, flushElems_eq, List.append_assoc, ← List.filterMap_append, hlogs]
  rfl

/-- `flush` neither reads nor moves the cursor. -/
theorem flush_cursor (l : SimpleLogger) (c k : Nat) :
    ({ l with cursor := c } : SimpleLogger).flush k = { l.flush k with cursor := c } := by
  obtain ⟨m, hm, h1⟩ := flush_eq { l with cursor := c } k
  obtain ⟨m', hm', h2⟩ := flush_eq l k
  have hlimit : m.maxLogFileSize = m'.maxLogFileSize := by rw [hm, hm']
  have hpos : m.tellp = m'.tellp := by rw [hm, hm']; rfl
  rw [h1, h2, hlimit, hpos]
  split
  · rw [hm, hm']; rfl
  · rw [hm, hm']

theorem toInt_toInt64 (limit : UInt64) :
    limit.toInt64.toInt = if limit.toNat < 2 ^ 63 then (limit.toNat : Int) else limit.toNat - 2 ^ 64 := by
  have hlt := limit.toNat_lt
  have hbmod : limit.toInt64.toInt = (limit.toNat : Int).bmod (2 ^ 64) := BitVec.toInt_eq_toNat_bmod _
  rw [hbmod, Int.bmod]
  split <;> split <;> omega

theorem exceeds_iff {limit : UInt64} (h : limit.toNat < 2 ^ 63) (pos : Nat) :
    exceeds limit pos = true ↔ limit ≠ 0 ∧ limit.toNat < pos := by
  rw [exceeds, toInt_toInt64, if_pos h]
  simp

theorem exceeds_of_le {limit : UInt64} (h : 2 ^ 63 ≤ limit.toNat) (pos : Nat) : exceeds limit pos = true := by
  have hlt := limit.toNat_lt
  have hne : limit ≠ 0 := by
    rintro rfl
    exact absurd h (by decide)
  rw [exceeds, toInt_toInt64, if_neg (by omega)]
  simp only [hne, ne_eq, not_false_eq_true, decide_true, Bool.true_and, decide_eq_true_eq]
  omega

/-- What a thread can rely on: an element to write to, a level that has a name, and the files in order. -/
structure Inv (n r₀ : Nat) (limit : UInt64) (l : SimpleLogger) : Prop where
  size : l.logs.length = n
  cursor_lt : l.cursor < n
  available : ∀ e ∈ l.logs, e.available = true
  level_le : l.curLogLevel ≤ 6
  limit_eq : l.maxLogFileSize = limit
  revnums : l.closed.map LogFile.revnum = List.range' r₀ l.closed.length
  cur : l.curRevnum = r₀ + l.closed.length
  full : ∀ f ∈ l.closed, exceeds limit (f.sizeBefore + bytesOf f.written) = true

theorem available_clean {e : LogElem} (h : e.available = true) : (clean e).status = .CLEAN := by
  unfold clean
  by_cases hd : e.status = .DIRTY
  · simp [hd]
  · simp only [LogElem.available, Bool.or_eq_true, beq_iff_eq] at h
    simp only [if_neg hd]
    exact h.resolve_right hd

structure Flushed (l l' : SimpleLogger) (c : Nat) : Prop where
  logs : l'.logs = l.logs.map clean
  written : l'.written = l.written ++ Ring.held LogElem.pending c l.logs
  cursor : l'.cursor = l.cursor
  level : l'.curLogLevel = l.curLogLevel
  limit : l'.maxLogFileSize = l.maxLogFileSize

theorem flushed_flush (l : SimpleLogger) (c : Nat) : Flushed l (l.flush c) c := by
  obtain ⟨m, rfl, hflush⟩ := flush_eq l c
  rw [hflush]
  split
  · refine ⟨rfl, ?_, rfl, rfl, rfl⟩
    simp [SimpleLogger.written, rotate]
  · refine ⟨rfl, ?_, rfl, rfl, rfl⟩
    simp [SimpleLogger.written]

theorem Inv.flush {n r₀ : Nat} {limit : UInt64} {l : SimpleLogger} (h : Inv n r₀ limit l) (c : Nat) :
    Inv n r₀ limit (l.flush c) := by
  have hf := flushed_flush l c
  have hfiles : (l.flush c).closed.map LogFile.revnum = List.range' r₀ (l.flush c).closed.length ∧
      (l.flush c).curRevnum = r₀ + (l.flush c).closed.length ∧
      ∀ f ∈ (l.flush c).closed, exceeds limit (f.sizeBefore + bytesOf f.written) = true := by
    obtain ⟨m, hm, hflush⟩ := flush_eq l c
    have hclosed : m.closed = l.closed := by rw [hm]
    have hlimit : m.maxLogFileSize = limit := by rw [hm]; exact h.limit_eq
    have hcur : m.curRevnum = r₀ + m.closed.length := by rw [hm]; exact h.cur
    rw [hflush]
    split
    · rename_i hbig
      refine ⟨?_, ?_, fun f hf => ?_⟩
      · simp [rotate, hclosed, h.revnums, List.range'_concat, hcur]
      · simp [rotate, hcur]
        omega
      · simp only [rotate, List.mem_append, List.mem_singleton, hclosed] at hf
        rcases hf with hf | rfl
        · exact h.full f hf
        · rwa [hlimit] at hbig
    · rw [hclosed] at hcur ⊢
      exact ⟨h.revnums, hcur, h.full⟩
  refine ⟨?_, ?_, ?_, ?_, ?_, hfiles.1, hfiles.2.1, hfiles.2.2⟩
  · rw [hf.logs, List.length_map, h.size]
  · rw [hf.cursor]
    exact h.cursor_lt
  · intro e he
    rw [hf.logs, List.mem_map] at he
    obtain ⟨e', he', rfl⟩ := he
    simp [LogElem.available, available_clean (h.available e' he')]
  · rw [hf.level]
    exact h.level_le
  · rw [hf.limit]
    exact h.limit_eq

/-- With a limit that is negative to the code, every flush leaves the file. -/
theorem Inv.rotate_flush {n r₀ : Nat} {limit : UInt64} {l : SimpleLogger} (h : Inv n r₀ limit l) (c : Nat)
    (hge : 2 ^ 63 ≤ limit.toNat) : (l.flush c).closed.length = l.closed.length + 1 := by
  obtain ⟨m, hm, hflush⟩ := flush_eq l c
  have hlimit : m.maxLogFileSize = limit := by rw [hm]; exact h.limit_eq
  have hclosed : m.closed = l.closed := by rw [hm]
  rw [hflush, hlimit, if_pos (exceeds_of_le hge _)]
  simp [rotate, hclosed]

/-- The file that a flush leaves open is not over the limit. -/
theorem Inv.tellp_flush {n r₀ : Nat} {limit : UInt64} {l : SimpleLogger} (h : Inv n r₀ limit l) (c : Nat)
    (hne : limit ≠ 0) (hlt : limit.toNat < 2 ^ 63) : (l.flush c).tellp ≤ limit.toNat := by
  obtain ⟨m, hm, hflush⟩ := flush_eq l c
  have hlimit : m.maxLogFileSize = limit := by rw [hm]; exact h.limit_eq
  rw [hflush]
  split
  · exact Nat.zero_le _
  · rename_i hsmall
    rw [hlimit, exceeds_iff hlt] at hsmall
    exact Nat.le_of_not_lt fun hbig => hsmall ⟨hne, hbig⟩

/-- After a flush nothing waits. -/
theorem held_clean (c : Nat) (es : List LogElem) : Ring.held LogElem.pending c (es.map clean) = [] := by
  simp only [Ring.held, Ring.fromCursor, List.filterMap_eq_nil_iff, List.mem_append]
  intro e he
  have hmem : e ∈ es.map clean := by
    rcases he with he | he
    · exact List.mem_of_mem_drop he
    · exact List.mem_of_mem_take he
  obtain ⟨e', _, rfl⟩ := List.mem_map.1 hmem
  exact pending_clean e'

theorem waiting_flushAll (l : SimpleLogger) : l.flushAll.waiting = [] := by
  have hf := flushed_flush l l.cursor
  rw [waiting, flushAll, hf.logs]
  exact held_clean _ _

/-- A message goes into the element at the cursor, which is free by then, and waits last. -/
theorem write_at_cursor {n r₀ : Nat} {limit : UInt64} {l : SimpleLogger} (h : Inv n r₀ limit l) {e : LogElem}
    (he : l.logs[l.cursor]? = some e) (hclean : e.status = .CLEAN) (msg : Bytes) :
    ∃ l', l' = { l with cursor := (l.cursor + 1) % n, logs := l.logs.modify l.cursor (·.write msg) } ∧
      Inv n r₀ limit l' ∧ l'.written = l.written ∧ l'.waiting = l.waiting ++ [msg.take msgSize] := by
  have hn := h.cursor_lt
  have hset : l.logs.modify l.cursor (·.write msg) = l.logs.set l.cursor ⟨msg.take msgSize, .DIRTY⟩ := by
    rw [List.modify_eq_set_getElem?, he]
    simp [LogElem.write, hclean]
  refine ⟨_, rfl, ?_, rfl, ?_⟩
  · refine ⟨by simp [h.size], Nat.mod_lt _ (by omega), fun x hx => ?_, h.level_le, h.limit_eq, h.revnums, h.cur, h.full⟩
    rw [hset] at hx
    rcases List.mem_or_eq_of_mem_set hx with hx | rfl
    · exact h.available x hx
    · rfl
  · rw [waiting, hset, ← h.size]
    exact Ring.held_write he (by simp [LogElem.pending, hclean]) (by simp [LogElem.pending])

/-- **One `put`**: it returns, and its message, if its level is logged, is the last of all. -/
theorem Inv.put {n r₀ : Nat} {limit : UInt64} {l : SimpleLogger} (h : Inv n r₀ limit l) {level : Int}
    (hpos : 0 ≤ level) (msg : Bytes) :
    ∃ l', l.put level msg = some l' ∧ Inv n r₀ limit l' ∧ l'.curLogLevel = l.curLogLevel ∧
      l'.written ++ l'.waiting =
        l.written ++ l.waiting ++ (if l.curLogLevel < level then [] else [msg.take msgSize]) := by
  by_cases hlevel : l.curLogLevel < level
  · exact ⟨l, by simp [SimpleLogger.put, hlevel], h, rfl, by simp [hlevel]⟩
  have hn := h.cursor_lt
  have hnamed : ¬ (level < 0 ∨ 6 < level) := by
    have hle := h.level_le
    omega
  have hlt : l.cursor < l.logs.length := by rw [h.size]; exact hn
  obtain ⟨e, he⟩ : ∃ e, l.logs[l.cursor]? = some e := ⟨_, List.getElem?_eq_getElem hlt⟩
  have havail := h.available e (List.mem_of_getElem? he)
  by_cases hdirty : e.status = .DIRTY
  · -- the ring has come around: everything in it goes to the file first
    have hf := flushed_flush l l.cursor
    have hm := h.flush l.cursor
    have hem : (l.flush l.cursor).logs[(l.flush l.cursor).cursor]? = some (clean e) := by
      rw [hf.logs, hf.cursor, List.getElem?_map, he]
      rfl
    obtain ⟨l', hl', hinv, hw, hq⟩ := write_at_cursor hm hem (available_clean havail) msg
    refine ⟨l', ?_, hinv, by rw [hl', ← hf.level], ?_⟩
    · have hsize : l.logs.length = n := h.size
      simp only [SimpleLogger.put, if_neg hlevel, if_neg hnamed, hsize, he, havail, LogElem.needToFlush, hdirty,
        flush_cursor]
      rw [if_neg (by omega), hl', hf.cursor]
      rfl
    · rw [hw, hq, hf.written, if_neg hlevel, waiting, hf.logs, held_clean]
      simp [waiting]
  · have hclean : e.status = .CLEAN := by
      have hc := available_clean havail
      rwa [clean, if_neg hdirty] at hc
    obtain ⟨l', hl', hinv, hw, hq⟩ := write_at_cursor h he hclean msg
    refine ⟨l', ?_, hinv, by rw [hl'], ?_⟩
    · have hsize : l.logs.length = n := h.size
      simp only [SimpleLogger.put, if_neg hlevel, if_neg hnamed, hsize, he, havail, LogElem.needToFlush, hclean]
      rw [if_neg (by omega), hl']
      rfl
    · rw [hw, hq, if_neg hlevel, List.append_assoc]

end SimpleLogger

/-! ## Whole runs -/

inductive LoggerOp
  | put (level : Int) (msg : Bytes)
  | flushAll
  | setLogLevel (level : Int)

namespace LoggerOp

def run (l : SimpleLogger) : LoggerOp → Option SimpleLogger
  | .put level msg => l.put level msg
  | .flushAll => some l.flushAll
  | .setLogLevel level => some (l.setLogLevel level)

/-- The messages whose level is logged at their time, cut to the size of an element. -/
def accepted : Int → List LoggerOp → List Bytes
  | _, [] => []
  | cur, .put level msg :: ops => (if cur < level then [] else [msg.take msgSize]) ++ accepted cur ops
  | cur, .flushAll :: ops => accepted cur ops
  | cur, .setLogLevel level :: ops => accepted (if 6 < level then cur else level) ops

end LoggerOp

namespace SimpleLogger

theorem inv_new {n : Nat} (hn : 0 < n) (limit : UInt64) (r₀ size : Nat) : Inv n r₀ limit (new n limit r₀ size) where
  size := by simp [new]
  cursor_lt := hn
  available := fun e he => by rw [List.eq_of_mem_replicate he]; rfl
  level_le := show (4 : Int) ≤ 6 by decide
  limit_eq := rfl
  revnums := rfl
  cur := rfl
  full := fun f hf => by simp [new] at hf

theorem Inv.setLogLevel {n r₀ : Nat} {limit : UInt64} {l : SimpleLogger} (h : Inv n r₀ limit l) (level : Int) :
    Inv n r₀ limit (l.setLogLevel level) := by
  unfold SimpleLogger.setLogLevel
  split
  · exact h
  · rename_i hle
    exact ⟨h.size, h.cursor_lt, h.available, Int.not_lt.1 hle, h.limit_eq, h.revnums, h.cur, h.full⟩

theorem Inv.runAll {n r₀ : Nat} {limit : UInt64} {l : SimpleLogger} (h : Inv n r₀ limit l) (ops : List LoggerOp)
    (hops : ∀ level msg, .put level msg ∈ ops → 0 ≤ level) :
    ∃ l', ops.foldlM LoggerOp.run l = some l' ∧ Inv n r₀ limit l' ∧
      l'.written ++ l'.waiting = l.written ++ l.waiting ++ LoggerOp.accepted l.curLogLevel ops := by
  induction ops generalizing l with
  | nil => exact ⟨l, rfl, h, by simp [LoggerOp.accepted]⟩
  | cons op ops ih =>
    have hrest : ∀ level msg, .put level msg ∈ ops → 0 ≤ level :=
      fun level msg hmem => hops level msg (List.mem_cons_of_mem _ hmem)
    cases op with
    | put level msg =>
      obtain ⟨l₁, hput, hinv, hlv, hall⟩ := h.put (hops level msg List.mem_cons_self) msg
      obtain ⟨l₂, hrun, hinv₂, hall₂⟩ := ih hinv hrest
      refine ⟨l₂, by simp [LoggerOp.run, hput, hrun], hinv₂, ?_⟩
      rw [hall₂, hall, hlv, LoggerOp.accepted]
      simp
    | flushAll =>
      have hf := flushed_flush l l.cursor
      obtain ⟨l₂, hrun, hinv₂, hall₂⟩ := ih (h.flush l.cursor) hrest
      refine ⟨l₂, by simpa [LoggerOp.run, SimpleLogger.flushAll] using hrun, hinv₂, ?_⟩
      have hwait := waiting_flushAll l
      rw [SimpleLogger.flushAll] at hwait
      rw [hall₂, hwait, hf.written, hf.level, LoggerOp.accepted, List.append_nil]
      rfl
    | setLogLevel level =>
      have hset : l.setLogLevel level = { l with curLogLevel := if 6 < level then l.curLogLevel else level } := by
        unfold SimpleLogger.setLogLevel
        split <;> rfl
      obtain ⟨l₂, hrun, hinv₂, hall₂⟩ := ih (h.setLogLevel level) hrest
      refine ⟨l₂, by simpa [LoggerOp.run] using hrun, hinv₂, ?_⟩
      rw [hall₂, hset]
      rfl

/-- **Nothing is lost, nothing overtakes.** Used by one thread at a time and at levels that are not negative, a logger
with at least one element returns from every call, and what is in its files, followed by what waits in the ring, is
what was put at a logged level, each message whole, in the order of the calls; a flush leaves nothing waiting. Files
are numbered without a gap. With a limit below 2^63 a file was left because it had outgrown it, and `flushAll` leaves
none open that has; a greater limit is negative to the code, and `flushAll` goes on with a new file every time. -/
theorem logger_lossless (n : Nat) (hn : 0 < n) (limit : UInt64) (r₀ size : Nat) (ops : List LoggerOp)
    (hops : ∀ level msg, .put level msg ∈ ops → 0 ≤ level) :
    ∃ l, ops.foldlM LoggerOp.run (new n limit r₀ size) = some l ∧
      l.written ++ l.waiting = LoggerOp.accepted 4 ops ∧
      l.flushAll.written = LoggerOp.accepted 4 ops ∧
      l.closed.map LogFile.revnum = List.range' r₀ l.closed.length ∧ l.curRevnum = r₀ + l.closed.length ∧
      (limit.toNat < 2 ^ 63 → (∀ f ∈ l.closed, limit ≠ 0 ∧ limit.toNat < f.sizeBefore + bytesOf f.written) ∧
        (limit ≠ 0 → l.flushAll.tellp ≤ limit.toNat)) ∧
      (2 ^ 63 ≤ limit.toNat → l.flushAll.closed.length = l.closed.length + 1) := by
  obtain ⟨l, hrun, hinv, hall⟩ := (inv_new hn limit r₀ size).runAll ops hops
  have hnew : (new n limit r₀ size).written ++ (new n limit r₀ size).waiting = [] := by
    have hnone : Ring.held LogElem.pending 0 (List.replicate n LogElem.new) = [] := by
      simp only [Ring.held, Ring.fromCursor, List.drop_zero, List.take_zero, List.append_nil, List.filterMap_eq_nil_iff]
      intro e he
      rw [List.eq_of_mem_replicate he]
      rfl
    simpa [written, waiting, new] using hnone
  rw [hnew, List.nil_append] at hall
  have hflush : l.flushAll.written = l.written ++ l.waiting := (flushed_flush l l.cursor).written
  refine ⟨l, hrun, hall, hflush.trans hall, hinv.revnums, hinv.cur, fun hlt => ⟨fun f hf => ?_, fun hne => ?_⟩,
    hinv.rotate_flush l.cursor⟩
  · exact (exceeds_iff hlt _).1 (hinv.full f hf)
  · exact hinv.tellp_flush l.cursor hne hlt

/-- Two elements, a limit of two bytes and a file of three: the first flush leaves it, with nothing to write. Then
three messages, the second below the level; the fourth call finds the ring full and moves the first to the file. -/
theorem logger_lossless_demo :
    let ops : List LoggerOp := [.flushAll, .put 4 [1, 2, 3], .put 5 [9], .put 0 [4], .put 4 [5]]
    ∃ l, ops.foldlM LoggerOp.run (new 2 2 7 3) = some l ∧ l.closed.length = 2 ∧ l.curRevnum = 9 ∧
      l.written ++ l.waiting = [[1, 2, 3], [4], [5]] := by
  intro ops
  have hops : ∀ level msg, .put level msg ∈ ops → 0 ≤ level := by
    intro level msg hmem
    simp only [ops, List.mem_cons, List.not_mem_nil, or_false, reduceCtorEq, false_or, LoggerOp.put.injEq] at hmem
    omega
  obtain ⟨l, hrun, hall, _, _, hcur, _⟩ := logger_lossless 2 (by decide) 2 7 3 ops hops
  have hclosed : (ops.foldlM LoggerOp.run (new 2 2 7 3)).map (fun l => l.closed.length) = some 2 := by decide
  rw [hrun, Option.map_some, Option.some.injEq] at hclosed
  exact ⟨l, hrun, hclosed, by omega, hall⟩

end SimpleLogger

end ReplicatedSplinter
