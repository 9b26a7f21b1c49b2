import ReplicatedSplinter.Endpoints
import Mathlib.Logic.Relation
import Mathlib.Data.Nat.Basic
import Mathlib.Logic.Function.Basic
import Mathlib.Tactic.IntervalCases
import Mathlib.Tactic.FinCases
/-!
# The logger's files: numbering, compression, removal, and starting again

When a file has outgrown the limit the logger goes on in the next one, and a thread compresses the old one
and removes those that are too old. A new logger finds its place by the names in the directory.

| here | there |
| --- | --- |
| `logFileName`, `fileName` | `getLogFilePath` (`logger.cpp:877-882`) without the directory, and with ".tar.gz" (`:1126`, `:1136`) |
| `splitLastDot`, `atoi`    | `rfind(".")` with the two `substr`, and `std::atoi` |
| `findMinMaxRevNumInternal`, `findMinMaxRevNum` | `:850-875`, and the loop over the directory (`:792-848`) |
| `LogDir`                  | the files there are, `minRevnum`, `curRevnum`, and the jobs of `compressWorker` (`:450-480`) |
| `write`, `rotate`         | what `flush` adds to the open file, and its end (`:1165-1178`) |
| `take`                    | one round of `compressWorker` |
| `packing`, `packed`, `unlink`, `purge`, `finish` | `doCompression` (`:1122-1146`), one command after the other, `tar` in two |
| `restart`                 | the process is gone, and a new `SimpleLogger` is built and started (`:719-731`, `:884-889`) |

A restart may come at any time, also when `tar` has written a part of its file. The directory may list the files
in any order, and others with them, as long as their names do not contain the logger's: those it takes for its own.
The commands are taken to do what they are asked to (`execCmd` does not look).
-/

namespace ReplicatedSplinter
open ByteCodec

/-! ## Names -/

def logFileName (base : Bytes) (fileNum : Nat) : Bytes :=
  if fileNum ≠ 0 then base ++ [46] ++ toDecimal fileNum else base

/-- ".tar.gz" -/
def dotTarGz : Bytes := [46, 116, 97, 114, 46, 103, 122]

def fileName (base : Bytes) (fileNum : Nat) (tar : Bool) : Bytes :=
  logFileName base fileNum ++ if tar then dotTarGz else []

/-- What stands before and after the last dot. -/
def splitLastDot (s : Bytes) : Option (Bytes × Bytes) :=
  if 46 ∈ s then some (((s.reverse.dropWhile (· != 46)).drop 1).reverse, (s.reverse.takeWhile (· != 46)).reverse)
  else none

/-- As `stoi` reads it, with 0 for no number; out of the range of an `int` it is undefined. -/
def atoi (s : Bytes) : Option Int := match stoi s with
  | .ok v => some v
  | .error (.invalidArgument _) => some 0
  | .error _ => none

structure RevNums where
  initialized : Bool
  min : Nat
  max : Nat
deriving DecidableEq, Repr

/-- The last lines of `findMinMaxRevNumInternal`. -/
def RevNums.see (r : RevNums) (revnum : Nat) (compFile : Bool) : RevNums :=
  ⟨true, Nat.min (if r.initialized then r.min else revnum) revnum,
    Nat.max r.max (if compFile then (revnum + 1) % 2 ^ 64 else revnum)⟩

/-- A `size_t` from an `int`. -/
def sizeOfInt (v : Int) : Nat := (v % 2 ^ 64).toNat

/-- `none` when `atoi` is undefined. -/
def findMinMaxRevNumInternal (r : RevNums) (fName : Bytes) : Option RevNums :=
  match splitLastDot fName with
  | none => some r
  | some (_, ext) =>
    if ext = [103, 122] ∧ 7 < fName.length then
      match splitLastDot (fName.take (fName.length - 7)) with
      | none => some r
      | some (_, ext) => (atoi ext).map fun v => r.see (sizeOfInt v) true
    else (atoi ext).map fun v => r.see (sizeOfInt v) false

def findMinMaxRevNum (base : Bytes) (dir : List Bytes) : Option (Nat × Nat) :=
  (dir.foldlM (fun r f => if base <:+: f then findMinMaxRevNumInternal r f else some r) ⟨false, 0, 0⟩).map
    fun r => (r.min, r.max)

/-- The name ends in an extension that `atoi` reads as 0 (no number) and that is not "gz", as "srv-1.log" does. A name
without one is read otherwise: of "raft" the file number 0 is not seen, and "raft.2" is taken for number 2. -/
def PlainExtension (base : Bytes) : Prop :=
  ∃ stem ext, base = stem ++ 46 :: ext ∧ 46 ∉ ext ∧ ext ≠ [103, 122] ∧ atoi ext = some 0

theorem splitLastDot_append (stem : Bytes) {ext : Bytes} (h : 46 ∉ ext) :
    splitLastDot (stem ++ 46 :: ext) = some (stem, ext) := by
  have hne : ∀ b ∈ ext.reverse, (b != 46) = true := by
    intro b hb
    simp only [bne_iff_ne]
    rintro rfl
    exact h (List.mem_reverse.1 hb)
  have hrev : (stem ++ 46 :: ext).reverse = ext.reverse ++ 46 :: stem.reverse := by simp
  rw [splitLastDot, if_pos (by simp), hrev, List.takeWhile_append_of_pos hne, List.dropWhile_append_of_pos hne]
  simp

theorem dot_not_mem_toDecimal (n : Nat) : 46 ∉ toDecimal n := fun h =>
  absurd (isDigit_of_mem_toDecimal h) (by decide)

theorem atoi_toDecimal {n : Nat} (h : n ≤ 2147483647) : atoi (toDecimal n) = some (n : Int) := by
  rw [atoi, stoi_toDecimal h]

theorem sizeOfInt_natCast {n : Nat} (h : n ≤ 2147483647) : sizeOfInt (n : Int) = n := by
  unfold sizeOfInt
  omega

theorem toDecimal_ne_gz (n : Nat) : toDecimal n ≠ [103, 122] := fun h => by
  have := isDigit_of_mem_toDecimal (n := n) (b := 103) (by simp [h])
  exact absurd this (by decide)

/-- The last part of a log file's name is its number; the file without a number is number 0. -/
theorem splitLastDot_logFileName {base : Bytes} (hbase : PlainExtension base) {n : Nat} (hn : n ≤ 2147483647) :
    ∃ stem ext, splitLastDot (logFileName base n) = some (stem, ext) ∧ ext ≠ [103, 122] ∧
      atoi ext = some (n : Int) := by
  unfold logFileName
  by_cases h0 : n = 0
  · obtain ⟨stem, ext, rfl, hdot, hgz, hzero⟩ := hbase
    rw [if_neg (by simpa using h0), splitLastDot_append stem hdot, h0]
    exact ⟨stem, ext, rfl, hgz, hzero⟩
  · rw [if_pos h0, List.append_assoc]
    exact ⟨base, toDecimal n, splitLastDot_append base (dot_not_mem_toDecimal n), toDecimal_ne_gz n, atoi_toDecimal hn⟩

/-- A file of the logger is seen as what it is. -/
theorem findMinMaxRevNumInternal_own {base : Bytes} (hbase : PlainExtension base) {n : Nat} (hn : n ≤ 2147483647)
    (tar : Bool) (r : RevNums) : findMinMaxRevNumInternal r (fileName base n tar) = some (r.see n tar) := by
  obtain ⟨stem, ext, hsplit, hgz, hnum⟩ := splitLastDot_logFileName hbase hn
  have hsee : ∀ c, (atoi ext).map (fun v => r.see (sizeOfInt v) c) = some (r.see n c) := by
    intro c
    rw [hnum, Option.map_some, sizeOfInt_natCast hn]
  cases tar with
  | false =>
    have hname : fileName base n false = logFileName base n := by simp [fileName]
    rw [hname, findMinMaxRevNumInternal, hsplit]
    simp only
    rw [if_neg fun h => hgz h.1, hsee]
  | true =>
    have hpos : 0 < (logFileName base n).length := by
      refine List.length_pos_iff.2 fun hnil => ?_
      rw [hnil] at hsplit
      cases hsplit
    have hname : fileName base n true = (logFileName base n ++ [46, 116, 97, 114]) ++ 46 :: [103, 122] := by
      simp [fileName, dotTarGz]
    have hlen : (fileName base n true).length = (logFileName base n).length + 7 := by
      simp [fileName, dotTarGz]
    have htake : (fileName base n true).take ((fileName base n true).length - 7) = logFileName base n := by
      rw [hlen, Nat.add_sub_cancel, fileName]
      simp
    have hlast : splitLastDot (fileName base n true) = some (logFileName base n ++ [46, 116, 97, 114], [103, 122]) := by
      rw [hname]
      exact splitLastDot_append _ (by decide)
    rw [findMinMaxRevNumInternal, hlast]
    simp only
    rw [if_pos ⟨trivial, by omega⟩, htake, hsplit]
    simp only
    rw [hsee]

section See
variable {r : RevNums} {lo cur : Nat}

/-- What has been seen so far lies between the two numbers. -/
structure RevNums.Within (lo cur : Nat) (r : RevNums) : Prop where
  min : r.initialized = true → lo ≤ r.min
  max : r.max ≤ cur

/-- The file was among those seen. -/
structure RevNums.Saw (n : Nat) (tar : Bool) (r : RevNums) : Prop where
  initialized : r.initialized = true
  min : r.min ≤ n
  max : tar = false → n ≤ r.max

theorem RevNums.Within.see (h : r.Within lo cur) {n : Nat} {tar : Bool} (hlo : lo ≤ n)
    (hcur : if tar then n < cur else n ≤ cur) : (r.see n tar).Within lo cur := by
  refine ⟨fun _ => ?_, ?_⟩
  · have hmin := h.min
    simp only [RevNums.see]
    split <;> simp_all
  · have hmax := h.max
    simp only [RevNums.see]
    refine Nat.max_le.2 ⟨hmax, ?_⟩
    cases tar
    · simpa using hcur
    · simp only [if_true] at hcur ⊢
      exact Nat.le_trans (Nat.mod_le _ _) hcur

theorem RevNums.saw_see (r : RevNums) (n : Nat) (tar : Bool) : (r.see n tar).Saw n tar where
  initialized := rfl
  min := Nat.min_le_right _ _
  max h := by
    subst h
    exact Nat.le_max_right _ _

theorem RevNums.Saw.see {n : Nat} {tar : Bool} (h : r.Saw n tar) (m : Nat) (t : Bool) : (r.see m t).Saw n tar where
  initialized := rfl
  min := by
    simp only [RevNums.see, h.initialized, if_true]
    exact Nat.le_trans (Nat.min_le_left _ _) h.min
  max ht := Nat.le_trans (h.max ht) (Nat.le_max_left _ _)

end See

theorem base_infix_fileName (base : Bytes) (n : Nat) (tar : Bool) : base <:+: fileName base n tar := by
  unfold fileName logFileName
  split
  · exact ⟨[], [46] ++ toDecimal n ++ (if tar then dotTarGz else []), by simp⟩
  · exact ⟨[], if tar then dotTarGz else [], by simp⟩

/-! ## The directory -/

/-- Where the thread stands in `doCompression`. -/
inductive Phase
  | pack
  | packing
  | unlink
  | purge
deriving DecidableEq, Repr

/-- `written` is all that was ever written to a file, and every job up to `finished` has run to its end. -/
structure LogDir where
  plain : Nat → Option Bytes
  tar : Nat → Option Bytes
  minRevnum : Nat
  curRevnum : Nat
  jobs : List Nat
  job : Option (Nat × Phase)
  written : Nat → Bytes
  finished : Nat

namespace LogDir

def file (s : LogDir) (n : Nat) (tar : Bool) : Option Bytes := if tar then s.tar n else s.plain n

/-- What can be read of a file. -/
def contents (s : LogDir) (n : Nat) : Bytes := match s.plain n with
  | some c => c
  | none => (s.tar n).getD []

/-- An empty directory in which a logger has been started. -/
def new : LogDir := ⟨Function.update (fun _ => none) 0 (some []), fun _ => none, 0, 0, [], none, fun _ => [], 0⟩

def write (s : LogDir) (msg : Bytes) : LogDir :=
  { s with plain := Function.update s.plain s.curRevnum (some ((s.plain s.curRevnum).getD [] ++ msg)),
           written := Function.update s.written s.curRevnum (s.written s.curRevnum ++ msg) }

/-- `fs.open` for appending. -/
def openFile (s : LogDir) (n : Nat) : LogDir :=
  { s with plain := Function.update s.plain n (some ((s.plain n).getD [])) }

def rotate (s : LogDir) : LogDir :=
  { s.openFile (s.curRevnum + 1) with curRevnum := s.curRevnum + 1, jobs := s.jobs ++ [s.curRevnum] }

def take (s : LogDir) (n : Nat) (jobs : List Nat) : LogDir := { s with jobs := jobs, job := some (n, .pack) }

/-- `tar` has made the file, and something of it. -/
def packing (s : LogDir) (n : Nat) (part : Bytes) : LogDir :=
  { s with tar := Function.update s.tar n (some part), job := some (n, .packing) }

def packed (s : LogDir) (n : Nat) : LogDir :=
  { s with tar := Function.update s.tar n (s.plain n), job := some (n, .unlink) }

def unlink (s : LogDir) (n : Nat) : LogDir :=
  { s with plain := Function.update s.plain n none, job := some (n, .purge) }

/-- The condition of the loop, and of the `if` around it. -/
def Purges (s : LogDir) (maxLogFiles n : Nat) : Prop :=
  maxLogFiles ≠ 0 ∧ maxLogFiles ≤ n ∧ s.minRevnum ≤ n - maxLogFiles
deriving Decidable

def purge (s : LogDir) : LogDir :=
  { s with plain := Function.update s.plain s.minRevnum none, tar := Function.update s.tar s.minRevnum none,
           minRevnum := s.minRevnum + 1 }

def finish (s : LogDir) (n : Nat) : LogDir := { s with job := none, finished := n + 1 }

/-- The constructor, with what it finds, and `start`. -/
def restart (s : LogDir) (found : Nat × Nat) : LogDir :=
  { s.openFile found.2 with minRevnum := found.1, curRevnum := found.2, jobs := [], job := none }

/-- What `readdir` may give. -/
structure Lists (base : Bytes) (s : LogDir) (dir : List Bytes) : Prop where
  own : ∀ f ∈ dir, base <:+: f → ∃ n tar, f = fileName base n tar ∧ s.file n tar ≠ none
  all : ∀ n tar, s.file n tar ≠ none → fileName base n tar ∈ dir

/-- Beyond the range of an `int` the constructor's `atoi` is undefined, so there is no step for it. -/
inductive Step (base : Bytes) (maxLogFiles : Nat) : LogDir → LogDir → Prop
  | write (s msg) : Step base maxLogFiles s (s.write msg)
  | rotate (s) : Step base maxLogFiles s s.rotate
  | take {s n jobs} (hjob : s.job = none) (hjobs : s.jobs = n :: jobs) : Step base maxLogFiles s (s.take n jobs)
  | packing {s n} (part) (hjob : s.job = some (n, .pack)) : Step base maxLogFiles s (s.packing n part)
  | packed {s n} (hjob : s.job = some (n, .packing)) : Step base maxLogFiles s (s.packed n)
  | unlink {s n} (hjob : s.job = some (n, .unlink)) : Step base maxLogFiles s (s.unlink n)
  | purge {s n} (hjob : s.job = some (n, .purge)) (h : s.Purges maxLogFiles n) : Step base maxLogFiles s s.purge
  | finish {s n} (hjob : s.job = some (n, .purge)) (h : ¬ s.Purges maxLogFiles n) :
      Step base maxLogFiles s (s.finish n)
  | restart {s} (dir found) (hint : s.curRevnum ≤ 2147483647) (hdir : Lists base s dir)
      (hfound : findMinMaxRevNum base dir = some found) : Step base maxLogFiles s (s.restart found)

def Reachable (base : Bytes) (maxLogFiles : Nat) : LogDir → Prop :=
  Relation.ReflTransGen (Step base maxLogFiles) new

/-! ## What is kept -/

/-- The thread's job is older than those that wait; until `rm` the plain file is there, and after `tar` both are. -/
structure JobInv (s : LogDir) (n : Nat) (ph : Phase) : Prop where
  le : s.minRevnum ≤ n
  lt : n < s.curRevnum
  first : ∀ m ∈ s.jobs, n < m
  plain : ph ≠ .purge → s.plain n ≠ none
  tar : ph = .unlink → s.tar n = some (s.written n)

structure Inv (maxLogFiles : Nat) (s : LogDir) : Prop where
  present : ∀ n, s.plain n ≠ none ∨ s.tar n ≠ none ↔ s.minRevnum ≤ n ∧ n ≤ s.curRevnum
  whole : ∀ n, s.minRevnum ≤ n → s.contents n = s.written n
  plain_cur : s.plain s.curRevnum ≠ none
  tar_cur : s.tar s.curRevnum = none
  jobs_lt : s.jobs.Pairwise (· < ·)
  jobs_range : ∀ n ∈ s.jobs, s.minRevnum ≤ n ∧ n < s.curRevnum ∧ s.plain n ≠ none
  job : ∀ n ph, s.job = some (n, ph) → JobInv s n ph
  newest : s.minRevnum = 0 ∨ maxLogFiles ≠ 0 ∧ s.minRevnum + maxLogFiles ≤ s.curRevnum
  oldest : maxLogFiles ≠ 0 → s.finished ≤ s.minRevnum + maxLogFiles

section Steps
variable {base : Bytes} {maxLogFiles : Nat} {s : LogDir}

theorem contents_congr {s' : LogDir} {n : Nat} (hplain : s'.plain n = s.plain n) (htar : s'.tar n = s.tar n) :
    s'.contents n = s.contents n := by
  rw [contents, contents, hplain, htar]

theorem inv_new : Inv maxLogFiles new where
  present n := by
    by_cases hn : n = 0 <;> simp [new, hn]
  whole n _ := by
    by_cases hn : n = 0 <;> simp [contents, new, hn]
  plain_cur := by simp [new]
  tar_cur := rfl
  jobs_lt := List.Pairwise.nil
  jobs_range _ h := nomatch h
  job _ _ h := nomatch h
  newest := .inl rfl
  oldest _ := Nat.zero_le _

theorem Inv.write (h : Inv maxLogFiles s) (msg : Bytes) : Inv maxLogFiles (s.write msg) := by
  obtain ⟨c, hc⟩ := Option.ne_none_iff_exists'.1 h.plain_cur
  have hmin := ((h.present s.curRevnum).1 (.inl h.plain_cur)).1
  have hplain : ∀ n, (s.write msg).plain n ≠ none ↔ s.plain n ≠ none := by
    intro n
    by_cases hn : n = s.curRevnum <;> simp [LogDir.write, hn, hc]
  refine ⟨fun n => ?_, fun n hn => ?_, ?_, h.tar_cur, h.jobs_lt, fun n hn => ?_, fun n ph hjob => ?_, h.newest, h.oldest⟩
  · rw [hplain]
    exact h.present n
  · have hwhole := h.whole n hn
    by_cases hcur : n = s.curRevnum
    · subst hcur
      simp only [contents, hc] at hwhole
      simp [contents, LogDir.write, hc, hwhole]
    · have hsame : (s.write msg).contents n = s.contents n := contents_congr (Function.update_of_ne hcur _ _) rfl
      rw [hsame, hwhole]
      exact (Function.update_of_ne hcur _ _).symm
  · exact (hplain _).2 h.plain_cur
  · obtain ⟨hle, hlt, hp⟩ := h.jobs_range n hn
    exact ⟨hle, hlt, (hplain n).2 hp⟩
  · have hj := h.job n ph hjob
    refine ⟨hj.le, hj.lt, hj.first, fun hph => (hplain n).2 (hj.plain hph), fun hph => ?_⟩
    rw [show (s.write msg).tar = s.tar from rfl, hj.tar hph]
    simp [LogDir.write, Function.update_of_ne (Nat.ne_of_lt hj.lt)]

/-- No file is beyond the open one, and that one is not packed. -/
theorem Inv.range_of_file (h : Inv maxLogFiles s) {n : Nat} {tar : Bool} (hfile : s.file n tar ≠ none) :
    s.minRevnum ≤ n ∧ if tar then n < s.curRevnum else n ≤ s.curRevnum := by
  cases tar with
  | false => exact (h.present n).1 (.inl hfile)
  | true =>
    obtain ⟨hlo, hle⟩ := (h.present n).1 (.inr hfile)
    refine ⟨hlo, Nat.lt_of_le_of_ne hle ?_⟩
    rintro rfl
    exact hfile h.tar_cur

/-- Nothing stands yet under the next number. -/
theorem Inv.next_free (h : Inv maxLogFiles s) : s.plain (s.curRevnum + 1) = none ∧ s.tar (s.curRevnum + 1) = none := by
  have hnot := mt (h.present (s.curRevnum + 1)).1 (by omega)
  simpa using hnot

theorem Inv.rotate (h : Inv maxLogFiles s) : Inv maxLogFiles s.rotate := by
  obtain ⟨hfree, hfreeTar⟩ := h.next_free
  have hmin := ((h.present s.curRevnum).1 (.inl h.plain_cur)).1
  have hold : ∀ n, n ≠ s.curRevnum + 1 → s.rotate.plain n = s.plain n := fun n hn => Function.update_of_ne hn _ _
  have hnew : s.rotate.plain (s.curRevnum + 1) = some [] := by
    simp [LogDir.rotate, openFile, hfree]
  refine ⟨fun n => ?_, fun n hn => ?_, ?_, hfreeTar, ?_, fun n hn => ?_, fun n ph hjob => ?_, ?_, h.oldest⟩
  · show _ ∨ s.tar n ≠ none ↔ s.minRevnum ≤ n ∧ n ≤ s.curRevnum + 1
    by_cases hn : n = s.curRevnum + 1
    · subst hn
      simp only [hnew, ne_eq, reduceCtorEq, not_false_eq_true, true_or, true_iff]
      omega
    · rw [hold n hn, h.present n]
      omega
  · have hwhole := h.whole n hn
    show s.rotate.contents n = s.written n
    by_cases hcur : n = s.curRevnum + 1
    · subst hcur
      simp only [contents, hfree, hfreeTar, Option.getD_none] at hwhole
      simpa only [contents, hnew] using hwhole
    · rw [contents_congr (hold n hcur) rfl]
      exact hwhole
  · show s.rotate.plain (s.curRevnum + 1) ≠ none
    simp [hnew]
  · show (s.jobs ++ [s.curRevnum]).Pairwise _
    refine List.pairwise_append.2 ⟨h.jobs_lt, List.pairwise_singleton _ _, fun n hn m hm => ?_⟩
    rw [List.mem_singleton.1 hm]
    exact (h.jobs_range n hn).2.1
  · show s.minRevnum ≤ n ∧ n < s.curRevnum + 1 ∧ s.rotate.plain n ≠ none
    rcases List.mem_append.1 hn with hn | hn
    · obtain ⟨hle, hlt, hp⟩ := h.jobs_range n hn
      exact ⟨hle, by omega, by rwa [hold n (by omega)]⟩
    · rw [List.mem_singleton.1 hn]
      exact ⟨hmin, by omega, by rw [hold _ (by omega)]; exact h.plain_cur⟩
  · have hj := h.job n ph hjob
    have hlt := hj.lt
    refine ⟨hj.le, Nat.lt_succ_of_lt hlt, fun m hm => ?_, fun hph => ?_, hj.tar⟩
    · rcases List.mem_append.1 hm with hm | hm
      · exact hj.first m hm
      · rw [List.mem_singleton.1 hm]
        exact hlt
    · rw [hold n (by omega)]
      exact hj.plain hph
  · show _ ∨ _ ∧ s.minRevnum + maxLogFiles ≤ s.curRevnum + 1
    rcases h.newest with h0 | ⟨hM, hle⟩
    · exact .inl h0
    · exact .inr ⟨hM, by omega⟩

theorem Inv.take (h : Inv maxLogFiles s) {n : Nat} {jobs : List Nat} (hjobs : s.jobs = n :: jobs) :
    Inv maxLogFiles (s.take n jobs) := by
  have hlt := h.jobs_lt
  have hrange := h.jobs_range
  rw [hjobs] at hlt hrange
  obtain ⟨hle, hcur, hp⟩ := hrange n List.mem_cons_self
  refine ⟨h.present, h.whole, h.plain_cur, h.tar_cur, hlt.of_cons, fun m hm => hrange m (List.mem_cons_of_mem _ hm),
    fun m ph hjob => ?_, h.newest, h.oldest⟩
  cases hjob
  exact ⟨hle, hcur, fun m hm => List.rel_of_pairwise_cons hlt hm, fun _ => hp, fun hph => nomatch hph⟩

/-- `tar` makes a file that is there anyway, beside the plain one. -/
theorem Inv.setTar (h : Inv maxLogFiles s) {n : Nat} {ph ph' : Phase} (hjob : s.job = some (n, ph)) (hph : ph ≠ .purge)
    (c : Bytes) (hc : ph' = .unlink → c = s.written n) :
    Inv maxLogFiles { s with tar := Function.update s.tar n (some c), job := some (n, ph') } := by
  have hj := h.job n ph hjob
  obtain ⟨p, hp⟩ := Option.ne_none_iff_exists'.1 (hj.plain hph)
  refine ⟨fun m => ?_, fun m hm => ?_, h.plain_cur, ?_, h.jobs_lt, h.jobs_range, fun m ph₂ hjob₂ => ?_, h.newest, h.oldest⟩
  · by_cases hm : m = n
    · subst hm
      have := (h.present m).1 (.inl (hj.plain hph))
      simpa [hp] using this
    · simpa only [Function.update_of_ne hm] using h.present m
  · have hwhole := h.whole m hm
    by_cases hmn : m = n
    · subst hmn
      simpa only [contents, hp] using hwhole
    · simpa only [contents, Function.update_of_ne hmn] using hwhole
  · show Function.update s.tar n (some c) s.curRevnum = none
    rw [Function.update_of_ne (Nat.ne_of_gt hj.lt)]
    exact h.tar_cur
  · cases hjob₂
    refine ⟨hj.le, hj.lt, hj.first, fun _ => hj.plain hph, fun hu => ?_⟩
    simp [hc hu]

theorem Inv.packing (h : Inv maxLogFiles s) {n : Nat} (part : Bytes) (hjob : s.job = some (n, .pack)) :
    Inv maxLogFiles (s.packing n part) :=
  h.setTar hjob (by decide) part fun hph => nomatch hph

theorem Inv.packed (h : Inv maxLogFiles s) {n : Nat} (hjob : s.job = some (n, .packing)) :
    Inv maxLogFiles (s.packed n) := by
  have hj := h.job n _ hjob
  obtain ⟨p, hp⟩ := Option.ne_none_iff_exists'.1 (hj.plain (by decide))
  have hwhole := h.whole n hj.le
  simp only [contents, hp] at hwhole
  unfold LogDir.packed
  rw [hp]
  exact h.setTar hjob (by decide) p fun _ => hwhole

theorem Inv.unlink (h : Inv maxLogFiles s) {n : Nat} (hjob : s.job = some (n, .unlink)) :
    Inv maxLogFiles (s.unlink n) := by
  have hj := h.job n _ hjob
  have htar := hj.tar rfl
  have hother : ∀ m, m ≠ n → (s.unlink n).plain m = s.plain m := fun m hm => Function.update_of_ne hm _ _
  have hgone : (s.unlink n).plain n = none := Function.update_self _ _ _
  refine ⟨fun m => ?_, fun m hm => ?_, ?_, h.tar_cur, h.jobs_lt, fun m hm => ?_, fun m ph hjob₂ => ?_, h.newest, h.oldest⟩
  · show _ ∨ s.tar m ≠ none ↔ s.minRevnum ≤ m ∧ m ≤ s.curRevnum
    by_cases hm : m = n
    · subst hm
      have := (h.present m).1 (.inl (hj.plain (by decide)))
      simpa [htar] using this
    · rw [hother m hm]
      exact h.present m
  · show (s.unlink n).contents m = s.written m
    by_cases hmn : m = n
    · subst hmn
      simp only [contents, hgone]
      rw [show (s.unlink m).tar m = s.tar m from rfl, htar, Option.getD_some]
    · rw [contents_congr (hother m hmn) rfl]
      exact h.whole m hm
  · show (s.unlink n).plain s.curRevnum ≠ none
    rw [hother _ (Nat.ne_of_gt hj.lt)]
    exact h.plain_cur
  · obtain ⟨hle, hlt, hp⟩ := h.jobs_range m hm
    exact ⟨hle, hlt, by rwa [hother m (Nat.ne_of_gt (hj.first m hm))]⟩
  · cases hjob₂
    exact ⟨hj.le, hj.lt, hj.first, fun hph => absurd rfl hph, fun hph => nomatch hph⟩

/-- Only files before those that jobs are about are removed. -/
theorem Inv.purge (h : Inv maxLogFiles s) {n : Nat} (hjob : s.job = some (n, .purge)) (hp : s.Purges maxLogFiles n) :
    Inv maxLogFiles s.purge := by
  have hj := h.job n _ hjob
  obtain ⟨hM, hMn, hmin⟩ := hp
  have hlt := hj.lt
  have hplain : ∀ m, m ≠ s.minRevnum → s.purge.plain m = s.plain m := fun m hm => Function.update_of_ne hm _ _
  have htar : ∀ m, m ≠ s.minRevnum → s.purge.tar m = s.tar m := fun m hm => Function.update_of_ne hm _ _
  refine ⟨fun m => ?_, fun m hm => ?_, ?_, ?_, h.jobs_lt, fun m hm => ?_, fun m ph hjob₂ => ?_, .inr ⟨hM, ?_⟩, fun _ => ?_⟩
  · show _ ↔ s.minRevnum + 1 ≤ m ∧ m ≤ s.curRevnum
    by_cases hm : m = s.minRevnum
    · simp [LogDir.purge, hm]
    · rw [hplain m hm, htar m hm, h.present m]
      omega
  · have hm : s.minRevnum + 1 ≤ m := hm
    show s.purge.contents m = s.written m
    rw [contents_congr (hplain m (by omega)) (htar m (by omega))]
    exact h.whole m (by omega)
  · show s.purge.plain s.curRevnum ≠ none
    rw [hplain _ (by omega)]
    exact h.plain_cur
  · show s.purge.tar s.curRevnum = none
    rw [htar _ (by omega)]
    exact h.tar_cur
  · obtain ⟨hle, hcur, hpm⟩ := h.jobs_range m hm
    have hfirst := hj.first m hm
    exact ⟨show s.minRevnum + 1 ≤ m by omega, hcur, by rwa [hplain m (by omega)]⟩
  · have hjob₂ : s.job = some (m, ph) := hjob₂
    rw [hjob] at hjob₂
    cases hjob₂
    exact ⟨show s.minRevnum + 1 ≤ n by omega, hlt, hj.first, fun hph => absurd rfl hph, fun hph => nomatch hph⟩
  · show s.minRevnum + 1 + maxLogFiles ≤ s.curRevnum
    omega
  · have := h.oldest hM
    show s.finished ≤ s.minRevnum + 1 + maxLogFiles
    omega

theorem Inv.finish (h : Inv maxLogFiles s) {n : Nat} (hp : ¬ s.Purges maxLogFiles n) : Inv maxLogFiles (s.finish n) := by
  refine ⟨h.present, h.whole, h.plain_cur, h.tar_cur, h.jobs_lt, h.jobs_range, fun m ph hjob => ?_, h.newest, fun hM => ?_⟩
  · cases hjob
  · show n + 1 ≤ s.minRevnum + maxLogFiles
    unfold Purges at hp
    omega

/-- The loop over the directory stays within the files there are, and sees each one that is listed. -/
theorem foldlM_listed (hbase : PlainExtension base) (hint : s.curRevnum ≤ 2147483647) (h : Inv maxLogFiles s)
    {dir : List Bytes} (hown : ∀ f ∈ dir, base <:+: f → ∃ n tar, f = fileName base n tar ∧ s.file n tar ≠ none)
    {r : RevNums} (hr : r.Within s.minRevnum s.curRevnum) :
    ∃ r', dir.foldlM (fun r f => if base <:+: f then findMinMaxRevNumInternal r f else some r) r = some r' ∧
      r'.Within s.minRevnum s.curRevnum ∧ (∀ n tar, r.Saw n tar → r'.Saw n tar) ∧
      ∀ n tar, n ≤ 2147483647 → fileName base n tar ∈ dir → r'.Saw n tar := by
  induction dir generalizing r with
  | nil => exact ⟨r, rfl, hr, fun _ _ h => h, fun _ _ _ hf => nomatch hf⟩
  | cons f dir ih =>
    have hrest := fun f' hf' => hown f' (List.mem_cons_of_mem _ hf')
    rw [List.foldlM_cons]
    by_cases hf : base <:+: f
    · obtain ⟨m, t, rfl, hfile⟩ := hown f List.mem_cons_self hf
      obtain ⟨hlo, hcur⟩ := h.range_of_file hfile
      have hm : m ≤ 2147483647 := by
        cases t <;> simp at hcur <;> omega
      obtain ⟨r', hfold, hin, hkeep, hsaw⟩ := ih hrest (hr.see hlo hcur)
      refine ⟨r', ?_, hin, fun n tar hn => hkeep n tar (hn.see m t), fun n tar hn hmem => ?_⟩
      · rw [if_pos hf, findMinMaxRevNumInternal_own hbase hm]
        exact hfold
      · rcases List.mem_cons.1 hmem with heq | hmem
        · -- two names of one file are seen alike
          have hsame := findMinMaxRevNumInternal_own hbase hn tar r
          rw [heq, findMinMaxRevNumInternal_own hbase hm] at hsame
          refine hkeep n tar ?_
          rw [Option.some.inj hsame]
          exact r.saw_see n tar
        · exact hsaw n tar hn hmem
    · obtain ⟨r', hfold, hin, hkeep, hsaw⟩ := ih hrest hr
      refine ⟨r', ?_, hin, hkeep, fun n tar hn hmem => ?_⟩
      · rw [if_neg hf]
        exact hfold
      · rcases List.mem_cons.1 hmem with heq | hmem
        · exact absurd (heq ▸ base_infix_fileName base n tar) hf
        · exact hsaw n tar hn hmem

/-- A new logger finds the numbers of the old one. -/
theorem Inv.finds (hbase : PlainExtension base) (hint : s.curRevnum ≤ 2147483647) (h : Inv maxLogFiles s)
    {dir : List Bytes} (hdir : Lists base s dir) :
    findMinMaxRevNum base dir = some (s.minRevnum, s.curRevnum) := by
  obtain ⟨r, hfold, hin, -, hsaw⟩ := foldlM_listed hbase hint h hdir.own (r := ⟨false, 0, 0⟩)
    ⟨fun h => absurd h (by decide), Nat.zero_le _⟩
  have hmin := ((h.present s.curRevnum).1 (.inl h.plain_cur)).1
  have hcur : r.Saw s.curRevnum false := hsaw _ _ hint (hdir.all _ false h.plain_cur)
  have hlo : ∃ tar, r.Saw s.minRevnum tar := by
    rcases (h.present s.minRevnum).2 ⟨Nat.le_refl _, hmin⟩ with hp | hp
    · exact ⟨false, hsaw _ _ (by omega) (hdir.all _ false hp)⟩
    · exact ⟨true, hsaw _ _ (by omega) (hdir.all _ true hp)⟩
  obtain ⟨tar, hlo⟩ := hlo
  rw [findMinMaxRevNum, hfold, Option.map_some, Nat.le_antisymm hlo.min (hin.min hlo.initialized),
    Nat.le_antisymm hin.max (hcur.max rfl)]

/-- After a restart everything is as before, but for the jobs. -/
theorem Inv.restart (h : Inv maxLogFiles s) : Inv maxLogFiles (s.restart (s.minRevnum, s.curRevnum)) := by
  obtain ⟨c, hc⟩ := Option.ne_none_iff_exists'.1 h.plain_cur
  have hopen : s.openFile s.curRevnum = s := by
    rw [openFile, hc, Option.getD_some, ← hc, Function.update_eq_self]
  unfold LogDir.restart
  simp only [hopen]
  refine ⟨h.present, h.whole, h.plain_cur, h.tar_cur, List.Pairwise.nil, fun n hn => ?_, fun n ph hjob => ?_, h.newest,
    h.oldest⟩
  · cases hn
  · cases hjob

theorem inv_step (hbase : PlainExtension base) {s' : LogDir} (h : Inv maxLogFiles s)
    (hstep : Step base maxLogFiles s s') : Inv maxLogFiles s' := by
  cases hstep with
  | write msg => exact h.write msg
  | rotate => exact h.rotate
  | take hjob hjobs => exact h.take hjobs
  | packing part hjob => exact h.packing part hjob
  | packed hjob => exact h.packed hjob
  | unlink hjob => exact h.unlink hjob
  | purge hjob hp => exact h.purge hjob hp
  | finish hjob hp => exact h.finish hp
  | restart dir found hint hdir hfound =>
    rw [h.finds hbase hint hdir] at hfound
    cases hfound
    exact h.restart

theorem reachable_inv (hbase : PlainExtension base) (h : Reachable base maxLogFiles s) : Inv maxLogFiles s := by
  induction h with
  | refl => exact inv_new
  | tail _ hstep ih => exact inv_step hbase ih hstep

end Steps

/-- **The logger's files**, for a name with an extension that is no number. However writing, moving on to the next file,
compressing and restarting interleave: the files are those from `minRevnum` to `curRevnum`, each holds all that was
written to it, and the one written to is never a packed one; where no other file's name contains the logger's, a new
logger goes on where the old one was. A file is removed only when `maxLogFiles` newer ones are closed, and when the
job of a file is done, it is one of the last `maxLogFiles` up to there. -/
theorem log_files_kept {base : Bytes} (hbase : PlainExtension base) {maxLogFiles : Nat} {s : LogDir}
    (h : Reachable base maxLogFiles s) :
    (∀ n, s.plain n ≠ none ∨ s.tar n ≠ none ↔ s.minRevnum ≤ n ∧ n ≤ s.curRevnum) ∧
      (∀ n, s.minRevnum ≤ n → s.contents n = s.written n) ∧
      s.tar s.curRevnum = none ∧
      (s.curRevnum ≤ 2147483647 → ∀ dir, Lists base s dir →
        findMinMaxRevNum base dir = some (s.minRevnum, s.curRevnum)) ∧
      (∀ n, n < s.minRevnum → maxLogFiles ≠ 0 ∧ n + maxLogFiles < s.curRevnum) ∧
      (maxLogFiles ≠ 0 → ∀ n, n + maxLogFiles < s.finished → n < s.minRevnum) := by
  have hinv := reachable_inv hbase h
  refine ⟨hinv.present, hinv.whole, hinv.tar_cur, fun hint dir hdir => hinv.finds hbase hint hdir, fun n hn => ?_,
    fun hM n hn => ?_⟩
  · rcases hinv.newest with h0 | ⟨hM, hle⟩
    · omega
    · exact ⟨hM, by omega⟩
  · have := hinv.oldest hM
    omega

/-- "a.log" with one closed file kept: the second job removes what the first has packed. -/
theorem log_files_kept_demo :
    ∃ s, Reachable [97, 46, 108, 111, 103] 1 s ∧ s.contents 1 = [2] ∧ s.contents 0 = [] ∧
      findMinMaxRevNum [97, 46, 108, 111, 103]
        [[97, 46, 108, 111, 103, 46, 50], [120], [97, 46, 108, 111, 103, 46, 49, 46, 116, 97, 114, 46, 103, 122]] =
          some (1, 2) := by
  have hbase : PlainExtension [97, 46, 108, 111, 103] :=
    ⟨[97], [108, 111, 103], by decide, by decide, by decide, by decide⟩
  have h₁ : Reachable [97, 46, 108, 111, 103] 1 ((new.write [1]).rotate.write [2]).rotate :=
    .tail (.tail (.tail (.tail .refl (.write _ _)) (.rotate _)) (.write _ _)) (.rotate _)
  have h₂ := (((((h₁.tail (.take (n := 0) rfl rfl)).tail (.packing [] rfl)).tail (.packed rfl)).tail (.unlink rfl)).tail
    (.finish rfl (by decide)))
  have h₃ := ((((h₂.tail (.take (n := 1) rfl rfl)).tail (.packing [7] rfl)).tail (.packed rfl)).tail (.unlink rfl)).tail
    (.purge rfl (by decide))
  obtain ⟨hpresent, hwhole, -, hfind, -, -⟩ := log_files_kept hbase h₃
  refine ⟨_, h₃, hwhole 1 (Nat.le_refl 1), rfl, hfind (by decide) _ ⟨?_, ?_⟩⟩
  · intro f hf hinfix
    fin_cases hf
    · exact ⟨2, false, by decide, by decide⟩
    · exact absurd hinfix (by decide)
    · exact ⟨1, true, by decide, by decide⟩
  · intro n tar hfile
    have hn : 1 ≤ n ∧ n ≤ 2 := (hpresent n).1 (by cases tar <;> [exact .inl hfile; exact .inr hfile])
    obtain ⟨h1, h2⟩ := hn
    interval_cases n <;> cases tar
    · exact absurd hfile (by decide)
    · decide
    · decide
    · exact absurd hfile (by decide)

end LogDir

end ReplicatedSplinter
