import ReplicatedSplinter.RetryOutcome
import Mathlib.Algebra.Order.BigOperators.Group.List
import Mathlib.Algebra.Order.Group.Nat
import Mathlib.Data.List.TakeWhile
/-!
# The command line client

`spl_client` reads lines, cuts them into words and turns them into calls of the client.

| here | there |
| --- | --- |
| `getline`            | `std::cin.getline(cmd.data(), 1000)` (`spl_client.cpp:166`); `none` when it sets the failbit |
| `tokenize`           | `tokenize` (`:42-51`), on the text before the first NUL |
| `Command`, `command` | the `if` chain of `handle_command` (`:53-121`): which call of the client a line stands for |
| `handleCommand`      | `handle_command` and `handle_mutation_result` (`:28-40`), with the client afterwards |
| `getAllServers`, `triggerCaches` | `client.cpp:201-214`, `:98-118` |
| `interactive`        | the loop of `main` (`:160-178`) with its return code |
| `splClientMain`      | `main` once it has its client (`:151-178`); `e` is the `-e` flag, of which `c_str` shows the text before a NUL |

What is printed is left out. `tokens[0]` of a line without words is undefined (`:171`). `runLines` says what a
session is for, line by line; `session_runs_lines` is that the loop does it.
-/

namespace ReplicatedSplinter
open ByteCodec Std

namespace Cli

/-! ## Lines and words -/

/-- The rest of the input, and what has been stored in the buffer. The delimiter is looked for before the room
in the buffer is, and an end of the input fails only when nothing has been read. -/
def getlineFrom (room : Nat) : Bytes → Bytes → Option (Bytes × Bytes)
  | [], stored => if stored = [] then none else some (stored, [])
  | b :: rest, stored =>
    if b = 10 then some (stored, rest)
    else if stored.length < room then getlineFrom room rest (stored ++ [b])
    else none

/-- A buffer of 1000 bytes, one of them for the NUL. -/
def getline (input : Bytes) : Option (Bytes × Bytes) := getlineFrom 999 input []

/-- `begin != str`. -/
def emitToken (cur : Bytes) : List Bytes := if cur = [] then [] else [cur]

/-- The rest of the string, and what stands between `begin` and `str`. -/
def tokenizeFrom (delim : UInt8) : Bytes → Bytes → List Bytes
  | [], cur => emitToken cur
  | b :: rest, cur =>
    if b = 0 then emitToken cur
    else if b = delim then emitToken cur ++ tokenizeFrom delim rest []
    else tokenizeFrom delim rest (cur ++ [b])

def tokenize (str : Bytes) : List Bytes := tokenizeFrom 32 str []

/-! ## Commands -/

inductive Command
  | mutate (m : Mutation)
  | get (key : Bytes)
  | ls
  | dumpcache (directory : Bytes)
  | clearcache
  | help
  | unrecognized
deriving DecidableEq, Repr

/-- `std::tolower` in the C locale. -/
def toLower (b : UInt8) : UInt8 := if 65 ≤ b ∧ b ≤ 90 then b + 32 else b

-- "put", "update", "delete", "get", "ls", "dumpcache", "clearcache", "help" and "exit"
def putWord : Bytes := [112, 117, 116]
def updateWord : Bytes := [117, 112, 100, 97, 116, 101]
def deleteWord : Bytes := [100, 101, 108, 101, 116, 101]
def getWord : Bytes := [103, 101, 116]
def lsWord : Bytes := [108, 115]
def dumpcacheWord : Bytes := [100, 117, 109, 112, 99, 97, 99, 104, 101]
def clearcacheWord : Bytes := [99, 108, 101, 97, 114, 99, 97, 99, 104, 101]
def helpWord : Bytes := [104, 101, 108, 112]
def exitWord : Bytes := [101, 120, 105, 116]

/-- `none` for no tokens, where `handle_command` returns false. Arguments beyond the last one used are ignored. -/
def command : List Bytes → Option Command
  | [] => none
  | t :: args =>
    let cmd := t.map toLower
    some <|
      if cmd = putWord ∧ 2 ≤ args.length then .mutate (.put (args.getD 0 []) (args.getD 1 []))
      else if cmd = updateWord ∧ 2 ≤ args.length then .mutate (.update (args.getD 0 []) (args.getD 1 []))
      else if cmd = deleteWord ∧ 1 ≤ args.length then .mutate (.del (args.getD 0 []))
      else if cmd = getWord ∧ 1 ≤ args.length then .get (args.getD 0 [])
      else if cmd = lsWord then .ls
      else if cmd = dumpcacheWord ∧ 1 ≤ args.length then .dumpcache (args.getD 0 [])
      else if cmd = clearcacheWord then .clearcache
      else if cmd = helpWord then .help
      else .unrecognized

/-- The servers during one command. -/
structure CommandEnv where
  call : CallEnv
  draw : Draw
  read : Int32 → Bytes → Except Exn RpcReadResult
  allServers : Int32 → Except Exn (List RpcServerInfo)
  leader : Int32 → Nat → Except Exn Int32
  dumpcache : Int32 → Bytes → Except Exn Bool
  clearcache : Int32 → Except Exn Bool

/-- The first server that answers; an exception is caught and the next one asked. -/
def getAllServers (ask : Int32 → Except Exn (List RpcServerInfo)) : List Int32 → Except Exn (List RpcServerInfo)
  | [] => .error (.runtimeError "failed to connect to any server")
  | srv :: rest => match ask srv with
    | .ok srvs => .ok srvs
    | .error _ => getAllServers ask rest

/-- One RPC to each server; an answer of false is only warned about. -/
def triggerCaches (call : Int32 → Except Exn Bool) (srvs : List Int32) : Except Exn Unit :=
  srvs.forM fun srv => do
    let _ ← call srv
    return ()

/-- What `handle_command` returns or throws, and the client afterwards. -/
def runCommand (nu : Nuraft) (env : CommandEnv) (c : Client) : Command → Except Exn Bool × Client
  | .mutate m =>
    let run := c.mutate nu m env.call
    (match run.outcome with
      | .error e => .error e
      | .ok (some res) => .ok res.isSuccess
      | .ok none => .error (.undefinedBehaviour "result without a value"), run.client)
  | .get key =>
    let run := c.get key none env.draw env.read
    (match run.outcome with
      | .error e => .error e
      | .ok res => if res.rc = 0 then
          (if res.value_ = none then .error (.undefinedBehaviour "null value") else .ok true)
        else .ok false, run.client)
  | .ls => (do
      let _ ← getAllServers env.allServers c.clients.keys
      let _ ← (c.getLeaderId env.leader).1
      return true, c)
  | .dumpcache directory => (do
      triggerCaches (fun srv => env.dumpcache srv directory) c.clients.keys
      return true, c)
  | .clearcache => (do
      triggerCaches env.clearcache c.clients.keys
      return true, c)
  | .help => (.ok true, c)
  | .unrecognized => (.ok false, c)

def handleCommand (nu : Nuraft) (env : CommandEnv) (c : Client) (tokens : List Bytes) : Except Exn Bool × Client :=
  match command tokens with
  | none => (.ok false, c)
  | some cmd => runCommand nu env c cmd

theorem getlineFrom_length {room : Nat} {input stored line rest : Bytes}
    (h : getlineFrom room input stored = some (line, rest)) : rest.length < input.length ∨ (input = [] ∧ stored ≠ []) := by
  induction input generalizing stored with
  | nil =>
    rw [getlineFrom] at h
    split at h
    · cases h
    · exact .inr ⟨rfl, ‹_›⟩
  | cons b rest' ih =>
    left
    rw [getlineFrom] at h
    split at h
    · cases h
      simp
    · split at h
      · rcases ih h with hlt | ⟨rfl, -⟩
        · simp only [List.length_cons]
          omega
        · rw [getlineFrom] at h
          simp only [List.append_eq_nil_iff, List.cons_ne_nil, and_false, if_false, Option.some.injEq,
            Prod.mk.injEq] at h
          simp [← h.2]
      · cases h

theorem length_getline {input line rest : Bytes} (h : getline input = some (line, rest)) : rest.length < input.length :=
  (getlineFrom_length h).resolve_right fun hnil => hnil.2 rfl

/-- The loop; `env i` is the servers during the `i`-th command. -/
def interactive (nu : Nuraft) (env : Nat → CommandEnv) (input : Bytes) (i : Nat) (c : Client) (retcode : Nat) :
    Except Exn Nat × Client :=
  match _h : getline input with
  | none => (.ok retcode, c)
  | some (line, rest) =>
    let tokens := tokenize line
    match tokens.head? with
    | none => (.error (.undefinedBehaviour "tokens[0] of an empty vector"), c)
    | some t =>
      if t = exitWord then (.ok retcode, c)
      else match handleCommand nu (env i) c tokens with
        | (.error e, c) => (.error e, c)
        | (.ok ok, c) => interactive nu env rest (i + 1) c (if ok then 0 else 1)
termination_by input.length
decreasing_by exact length_getline _h

def splClientMain (nu : Nuraft) (env : Nat → CommandEnv) (e input : Bytes) (c : Client) : Except Exn Nat × Client :=
  if e ≠ [] then
    match handleCommand nu (env 0) c (tokenize e) with
    | (.error x, c) => (.error x, c)
    | (.ok ok, c) => (.ok (if ok then 0 else 1), c)
  else interactive nu env input 0 c 0

/-! ## What a session is -/

/-- The pieces of the input between newlines; nothing after the last newline is no line. -/
def lines (input : Bytes) : List Bytes :=
  if (input.splitOn 10).getLast? = some [] then (input.splitOn 10).dropLast else input.splitOn 10

/-- The pieces of a line between blanks that are not empty. -/
def words (line : Bytes) : List Bytes := ((line.takeWhile (· != 0)).splitOn 32).filter (· != [])

/-- The lines up to the first that is too long or says "exit". -/
def sessionLines (input : Bytes) : List Bytes :=
  (lines input).takeWhile fun line => decide (line.length ≤ 999) && (words line).head? != some exitWord

/-- One command after the other; the code is that of the last one. -/
def runLines (nu : Nuraft) (env : Nat → CommandEnv) : List Bytes → Nat → Client → Nat → Except Exn Nat × Client
  | [], _, c, retcode => (.ok retcode, c)
  | line :: rest, i, c, _ => match command (words line) with
    | none => (.error (.undefinedBehaviour "tokens[0] of an empty vector"), c)
    | some cmd => match runCommand nu (env i) c cmd with
      | (.error e, c) => (.error e, c)
      | (.ok ok, c) => runLines nu env rest (i + 1) c (if ok then 0 else 1)

theorem tokenizeFrom_eq (s cur : Bytes) :
    tokenizeFrom 32 s cur = (((s.takeWhile (· != 0)).splitOn 32).modifyHead (cur ++ ·)).filter (· != []) := by
  have hemit : ∀ cur, emitToken cur = [cur].filter (· != []) := by
    intro cur
    cases cur <;> rfl
  induction s generalizing cur with
  | nil => simp [tokenizeFrom, hemit]
  | cons b rest ih =>
    by_cases h0 : b = 0
    · subst h0
      simp [tokenizeFrom, hemit]
    · have htake : (b :: rest).takeWhile (· != 0) = b :: rest.takeWhile (· != 0) := by simp [h0]
      rw [htake, List.splitOn_cons_eq_if_modifyHead, tokenizeFrom, if_neg h0]
      by_cases h32 : b = 32
      · subst h32
        have hnone : (List.splitOn 32 (rest.takeWhile (· != 0))).modifyHead ([] ++ ·) =
            List.splitOn 32 (rest.takeWhile (· != 0)) := by
          cases List.splitOn 32 (rest.takeWhile (· != 0)) <;> rfl
        rw [if_pos rfl, ih, hnone, hemit]
        by_cases hcur : cur = [] <;> simp [hcur]
      · have happ : ∀ l : List Bytes, (l.modifyHead (List.cons b)).modifyHead (cur ++ ·) =
            l.modifyHead ((cur ++ [b]) ++ ·) := by
          intro l
          cases l <;> simp
        rw [if_neg h32, ih, if_neg (by simpa using h32), happ]

/-- The loop over the characters finds the words. -/
theorem tokenize_eq (s : Bytes) : tokenize s = words s := by
  rw [tokenize, tokenizeFrom_eq, words]
  cases (s.takeWhile (· != 0)).splitOn 32 <;> rfl

/-- A line that a newline ends. -/
theorem getlineFrom_line {room : Nat} {line : Bytes} (hline : 10 ∉ line) (rest : Bytes) {stored : Bytes}
    (hroom : stored.length ≤ room) :
    getlineFrom room (line ++ 10 :: rest) stored =
      if stored.length + line.length ≤ room then some (stored ++ line, rest) else none := by
  induction line generalizing stored with
  | nil => simp [getlineFrom, hroom]
  | cons b line ih =>
    simp only [List.mem_cons, not_or] at hline
    rw [List.cons_append, getlineFrom, if_neg (Ne.symm hline.1), List.length_cons]
    by_cases hlt : stored.length < room
    · rw [if_pos hlt, ih hline.2 (by simp; omega)]
      simp only [List.length_append, List.length_singleton, List.append_assoc, List.singleton_append]
      rw [show stored.length + 1 + line.length = stored.length + (line.length + 1) by omega]
    · rw [if_neg hlt, if_neg (by omega)]

/-- What is left of the input after the last newline. -/
theorem getlineFrom_last {room : Nat} {line : Bytes} (hline : 10 ∉ line) {stored : Bytes} (hroom : stored.length ≤ room) :
    getlineFrom room line stored = if stored ++ line = [] then none
      else if stored.length + line.length ≤ room then some (stored ++ line, []) else none := by
  induction line generalizing stored with
  | nil => simp [getlineFrom, hroom]
  | cons b line ih =>
    simp only [List.mem_cons, not_or] at hline
    rw [getlineFrom, if_neg (Ne.symm hline.1), List.length_cons]
    by_cases hlt : stored.length < room
    · rw [if_pos hlt, ih hline.2 (by simp; omega)]
      simp only [List.length_append, List.length_singleton, List.append_assoc, List.singleton_append]
      rw [show stored.length + 1 + line.length = stored.length + (line.length + 1) by omega]
    · rw [if_neg hlt, if_neg (by simp), if_neg (by omega)]

theorem lines_cons {line : Bytes} (hline : 10 ∉ line) (rest : Bytes) : lines (line ++ 10 :: rest) = line :: lines rest := by
  have hsplit : (line ++ 10 :: rest).splitOn 10 = line :: rest.splitOn 10 :=
    List.splitOn_append_cons_self_of_not_mem hline rest
  have hne := List.splitOn_ne_nil 10 rest
  rw [lines, hsplit, List.getLast?_cons_of_ne_nil hne, List.dropLast_cons_of_ne_nil hne, lines]
  split <;> rfl

theorem lines_last {line : Bytes} (hline : 10 ∉ line) : lines line = if line = [] then [] else [line] := by
  rw [lines, List.splitOn_eq_singleton hline]
  by_cases hnil : line = [] <;> simp [hnil]

/-- The input is a last line, or starts with one that a newline ends. -/
theorem getline_cases (input : Bytes) :
    (lines input = [] ∧ getline input = none) ∨
    ∃ line rest, lines input = line :: lines rest ∧ rest.length < input.length ∧
      getline input = if line.length ≤ 999 then some (line, rest) else none := by
  by_cases h10 : 10 ∈ input
  · obtain ⟨line, rest, rfl, hline⟩ := List.eq_append_cons_of_mem h10
    refine .inr ⟨line, rest, lines_cons hline rest, by simp; omega, ?_⟩
    rw [getline, getlineFrom_line hline rest (Nat.zero_le _)]
    simp
  · rw [lines_last h10, getline, getlineFrom_last h10 (Nat.zero_le _)]
    by_cases hnil : input = []
    · simp [hnil]
    · refine .inr ⟨input, [], ?_, List.length_pos_iff.2 hnil, by simp [hnil]⟩
      simp [hnil, lines]

theorem command_eq_none {tokens : List Bytes} : command tokens = none ↔ tokens = [] := by
  cases tokens <;> simp [command]

/-- **A session is its lines.** Whatever is typed: the loop runs the command of each line in turn, up to the first
line that is longer than the buffer or says "exit"; a line without a word before that is undefined behaviour. -/
theorem session_runs_lines (nu : Nuraft) (env : Nat → CommandEnv) (input : Bytes) (i : Nat) (c : Client) (retcode : Nat) :
    interactive nu env input i c retcode = runLines nu env (sessionLines input) i c retcode := by
  induction hn : input.length using Nat.strongRecOn generalizing input i c retcode with
  | _ n ih =>
    rcases getline_cases input with ⟨hlines, hget⟩ | ⟨line, rest, hlines, hlt, hget⟩
    · have hs : sessionLines input = [] := by simp [sessionLines, hlines]
      rw [interactive.eq_def, hs, runLines]
      split
      · rfl
      · next h => rw [hget] at h; cases h
    · have hs : sessionLines input =
          if line.length ≤ 999 ∧ (words line).head? ≠ some exitWord then line :: sessionLines rest else [] := by
        simp only [sessionLines, hlines, List.takeWhile_cons, Bool.and_eq_true, decide_eq_true_eq, bne_iff_ne]
      by_cases hlen : line.length ≤ 999
      · rw [if_pos hlen] at hget
        rw [interactive.eq_def]
        split
        · next h => rw [hget] at h; cases h
        · next line' rest' h =>
          rw [hget] at h
          cases h
          simp only [tokenize_eq]
          rw [hs]
          cases hw : words line with
          | nil => simp [runLines, hlen, hw, command]
          | cons t args =>
            by_cases hexit : t = exitWord
            · simp [hexit, runLines]
            · have hgo : line.length ≤ 999 ∧ (t :: args).head? ≠ some exitWord := ⟨hlen, by simpa using hexit⟩
              rw [if_pos hgo, runLines, hw]
              simp only [List.head?_cons, if_neg hexit, handleCommand]
              cases hc : command (t :: args) with
              | none => cases command_eq_none.1 hc
              | some cmd =>
                simp only
                obtain ⟨r, c'⟩ := runCommand nu (env i) c cmd
                cases r with
                | error e => rfl
                | ok ok => exact ih rest.length (hn ▸ hlt) rest (i + 1) c' _ rfl
      · rw [if_neg hlen] at hget
        rw [hs, if_neg fun h => hlen h.1, interactive.eq_def, runLines]
        split
        · rfl
        · next h => rw [hget] at h; cases h

/-! ## What can be typed -/

/-- The words of a mutation's command. -/
def spelled : Mutation → List Bytes
  | .put key value => [putWord, key, value]
  | .update key value => [updateWord, key, value]
  | .del key => [deleteWord, key]

/-- Something that can be one of the words of a text. -/
def IsToken (w : Bytes) : Prop := w ≠ [] ∧ 0 ∉ w ∧ 32 ∉ w

/-- Something that can be one of the words of a line. -/
def IsWord (w : Bytes) : Prop := IsToken w ∧ 10 ∉ w

instance (w : Bytes) : Decidable (IsToken w) := inferInstanceAs (Decidable (_ ∧ _))

instance (w : Bytes) : Decidable (IsWord w) := inferInstanceAs (Decidable (_ ∧ _))

theorem length_intercalate (x : UInt8) (ws : List Bytes) :
    ([x].intercalate ws).length = (ws.map List.length).sum + (ws.length - 1) := by
  induction ws with
  | nil => rfl
  | cons w ws ih =>
    cases ws with
    | nil => simp
    | cons v ws =>
      rw [List.intercalate_cons_cons, List.length_append, List.length_append, ih]
      simp only [List.map_cons, List.sum_cons, List.length_cons, List.length_nil]
      omega

/-- A piece of a split list has no separator, and nothing that the list has not. -/
theorem of_mem_splitOn {x : UInt8} {s w : Bytes} (h : w ∈ s.splitOn x) : x ∉ w ∧ ∀ b ∈ w, b ∈ s := by
  induction s generalizing w with
  | nil =>
    rw [List.splitOn_nil, List.mem_singleton] at h
    simp [h]
  | cons b s ih =>
    rw [List.splitOn_cons_eq_if_modifyHead] at h
    have hin : w ∈ s.splitOn x → x ∉ w ∧ ∀ b' ∈ w, b' ∈ b :: s := fun hw =>
      ⟨(ih hw).1, fun b' hb' => List.mem_cons_of_mem _ ((ih hw).2 b' hb')⟩
    split at h
    · rcases List.mem_cons.1 h with rfl | h
      · simp
      · exact hin h
    · next hb =>
      cases hs : s.splitOn x with
      | nil => exact absurd hs (List.splitOn_ne_nil x s)
      | cons v vs =>
        rw [hs, List.modifyHead_cons] at h
        rcases List.mem_cons.1 h with rfl | h
        · obtain ⟨hnot, hall⟩ := ih (w := v) (by simp [hs])
          refine ⟨?_, fun b' hb' => ?_⟩
          · rw [List.mem_cons, not_or]
            exact ⟨fun heq => hb (by simp [heq]), hnot⟩
          · rcases List.mem_cons.1 hb' with rfl | hb'
            · exact List.mem_cons_self
            · exact List.mem_cons_of_mem _ (hall b' hb')
        · exact hin (by simp [hs, h])

theorem isToken_of_mem_words {text w : Bytes} (hw : w ∈ words text) : IsToken w ∧ ∀ b ∈ w, b ∈ text := by
  obtain ⟨hmem, hne⟩ := List.mem_filter.1 hw
  obtain ⟨hblank, hfrom⟩ := of_mem_splitOn hmem
  refine ⟨⟨by simpa using hne, fun h0 => ?_, hblank⟩, fun b hb => (List.takeWhile_sublist _).subset (hfrom b hb)⟩
  simpa using List.all_eq_true.1 List.all_takeWhile 0 (hfrom 0 h0)

/-- The words of a text and the blanks between them are together not longer than it. -/
theorem length_intercalate_words (text : Bytes) : ([32].intercalate (words text)).length ≤ text.length := by
  have hsub : (words text).Sublist ((text.takeWhile (· != 0)).splitOn 32) := List.filter_sublist
  have hwhole : ([32].intercalate ((text.takeWhile (· != 0)).splitOn 32)).length = (text.takeWhile (· != 0)).length :=
    congrArg List.length (List.intercalate_splitOn (32 : UInt8))
  have hle := (List.takeWhile_sublist (l := text) (· != 0)).length_le
  have hsum := (hsub.map List.length).sum_le_sum fun _ _ => Nat.zero_le _
  have hlen := hsub.length_le
  rw [length_intercalate] at hwhole ⊢
  omega

theorem not_mem_intercalate {x : UInt8} (hx : x ≠ 32) {ws : List Bytes} (hws : ∀ w ∈ ws, x ∉ w) :
    x ∉ [32].intercalate ws := by
  induction ws with
  | nil => simp
  | cons w ws ih =>
    cases ws with
    | nil => simpa using hws w List.mem_cons_self
    | cons v ws =>
      rw [List.intercalate_cons_cons, List.mem_append, List.mem_append, List.mem_singleton]
      rintro ((hmem | heq) | hmem)
      · exact hws w List.mem_cons_self hmem
      · exact hx heq
      · exact ih (fun u hu => hws u (List.mem_cons_of_mem _ hu)) hmem

/-- Words with one blank between them are found again. -/
theorem words_intercalate {ws : List Bytes} (hne : ws ≠ []) (hws : ∀ w ∈ ws, IsToken w) :
    words ([32].intercalate ws) = ws := by
  have hsplit := List.splitOn_intercalate (32 : UInt8) (fun w hw => (hws w hw).2.2) hne
  have hzero : ([32].intercalate ws).takeWhile (· != 0) = [32].intercalate ws := by
    have h0 := not_mem_intercalate (x := 0) (by decide) fun w hw => (hws w hw).2.1
    refine List.takeWhile_eq_self_iff.2 fun b hb => ?_
    simpa using fun heq : b = 0 => h0 (heq ▸ hb)
  rw [words, hzero, hsplit, List.filter_eq_self]
  intro w hw
  simpa using (hws w hw).1

theorem not_mem_of_mem_lines {input line : Bytes} (h : line ∈ lines input) : 10 ∉ line := by
  unfold lines at h
  split at h
  · exact (of_mem_splitOn (List.dropLast_sublist _ |>.subset h)).1
  · exact (of_mem_splitOn h).1

theorem lower_length {t w : Bytes} (h : t.map toLower = w) : t.length = w.length := by
  rw [← h, List.length_map]

/-- The words a mutation's command is made of stand at the beginning of the line's, the first in some case. -/
theorem command_mutate {tokens : List Bytes} {m : Mutation} (h : command tokens = some (.mutate m)) :
    ∃ t w args more, tokens = t :: (args ++ more) ∧ spelled m = w :: args ∧ t.length = w.length := by
  cases tokens with
  | nil => cases h
  | cons t rest =>
    simp only [command, Option.some.injEq] at h
    split at h
    · next hput =>
      cases h
      obtain ⟨a, b, more, rfl⟩ : ∃ a b more, rest = a :: b :: more := by
        match rest, hput.2 with
        | a :: b :: more, _ => exact ⟨a, b, more, rfl⟩
      exact ⟨t, putWord, [a, b], more, rfl, rfl, lower_length hput.1⟩
    · split at h
      · next hupd =>
        cases h
        obtain ⟨a, b, more, rfl⟩ : ∃ a b more, rest = a :: b :: more := by
          match rest, hupd.2 with
          | a :: b :: more, _ => exact ⟨a, b, more, rfl⟩
        exact ⟨t, updateWord, [a, b], more, rfl, rfl, lower_length hupd.1⟩
      · split at h
        · next hdel =>
          cases h
          obtain ⟨a, more, rfl⟩ : ∃ a more, rest = a :: more := by
            match rest, hdel.2 with
            | a :: more, _ => exact ⟨a, more, rfl⟩
          exact ⟨t, deleteWord, [a], more, rfl, rfl, lower_length hdel.1⟩
        · repeat' split at h
          all_goals cases h

theorem command_spelled (m : Mutation) : command (spelled m) = some (.mutate m) := by
  cases m <;> rfl

/-- With the `-e` flag `main` runs that one command and reads no input; the code says whether it succeeded. -/
theorem splClientMain_flag (nu : Nuraft) (env : Nat → CommandEnv) {e : Bytes} (he : e ≠ []) {cmd : Command}
    (hcmd : command (tokenize e) = some cmd) (input : Bytes) (c : Client) :
    splClientMain nu env e input c =
      ((runCommand nu (env 0) c cmd).1.map fun ok => if ok then 0 else 1, (runCommand nu (env 0) c cmd).2) := by
  have hrun : handleCommand nu (env 0) c (tokenize e) = runCommand nu (env 0) c cmd := by rw [handleCommand, hcmd]
  rw [splClientMain, if_pos he, hrun]
  obtain ⟨r, c'⟩ := runCommand nu (env 0) c cmd
  cases r with
  | error x => rfl
  | ok ok => rfl

/-- A mutation's command begins with a word of its own, so its arguments decide whether all are words. -/
theorem forall_spelled {p : Bytes → Prop} (hput : p putWord) (hupdate : p updateWord) (hdelete : p deleteWord)
    (m : Mutation) : (∀ w ∈ spelled m, p w) ↔ ∀ w ∈ (spelled m).tail, p w := by
  cases m <;> simp [spelled, hput, hupdate, hdelete]

/-- **What can be sent from the command line.** Some interactive session sends a mutation exactly when its key and
value are words of a line (not empty, no blank, newline or NUL) and the command, spelled with single blanks, fits
into the buffer. The `-e` flag goes through no buffer and may hold newlines: its one command is any mutation whose
key and value are not empty and have no blank and no NUL. -/
theorem cli_sends_iff (m : Mutation) :
    ((∃ input line, line ∈ sessionLines input ∧ command (words line) = some (.mutate m)) ↔
      (∀ w ∈ (spelled m).tail, IsWord w) ∧ ([32].intercalate (spelled m)).length ≤ 999) ∧
    ((∃ e, e ≠ [] ∧ command (tokenize e) = some (.mutate m)) ↔ ∀ w ∈ (spelled m).tail, IsToken w) := by
  have hne : spelled m ≠ [] := by cases m <;> simp [spelled]
  have hnil (hwords : words ([32].intercalate (spelled m)) = spelled m) : [32].intercalate (spelled m) ≠ [] := by
    intro h
    rw [h] at hwords
    exact hne (by rw [← hwords]; rfl)
  refine ⟨⟨?_, ?_⟩, ?_, ?_⟩
  · rintro ⟨input, line, hline, hcmd⟩
    have hin := (List.takeWhile_sublist _).subset hline
    have hlen : line.length ≤ 999 := by
      have h := List.all_eq_true.1 List.all_takeWhile line hline
      simp only [Bool.and_eq_true, decide_eq_true_eq] at h
      exact h.1
    have htotal := length_intercalate_words line
    obtain ⟨t, w, args, more, htokens, hspelled, htw⟩ := command_mutate hcmd
    rw [htokens] at htotal
    rw [hspelled]
    refine ⟨fun v hv => ?_, ?_⟩
    · rw [List.tail_cons] at hv
      obtain ⟨htoken, hfrom⟩ := isToken_of_mem_words (show v ∈ words line by simp [htokens, hv])
      exact ⟨htoken, fun h10 => not_mem_of_mem_lines hin (hfrom 10 h10)⟩
    · rw [length_intercalate] at htotal ⊢
      simp only [List.map_cons, List.map_append, List.sum_cons, List.sum_append, List.length_cons,
        List.length_append] at htotal ⊢
      omega
  · rintro ⟨hargs, hlen⟩
    have hall := (forall_spelled (p := IsWord) (by decide) (by decide) (by decide) m).2 hargs
    have hwords := words_intercalate hne fun w hw => (hall w hw).1
    have hnewline := not_mem_intercalate (x := 10) (by decide) fun w hw => (hall w hw).2
    refine ⟨[32].intercalate (spelled m), [32].intercalate (spelled m), ?_, by rw [hwords, command_spelled]⟩
    have hexit : (spelled m).head? ≠ some exitWord := by cases m <;> simp [spelled] <;> decide
    rw [sessionLines, lines_last hnewline, if_neg (hnil hwords)]
    simp [hlen, hwords, hexit]
  · rintro ⟨e, _, hcmd⟩ v hv
    rw [tokenize_eq] at hcmd
    obtain ⟨t, w, args, more, htokens, hspelled, _⟩ := command_mutate hcmd
    rw [hspelled, List.tail_cons] at hv
    exact (isToken_of_mem_words (show v ∈ words e by simp [htokens, hv])).1
  · intro hargs
    have hwords := words_intercalate hne ((forall_spelled (p := IsToken) (by decide) (by decide) (by decide) m).2 hargs)
    exact ⟨[32].intercalate (spelled m), hnil hwords, by rw [tokenize_eq, hwords, command_spelled]⟩

end Cli

end ReplicatedSplinter
