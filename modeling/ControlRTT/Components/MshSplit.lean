import ControlRTT.Lib.CString

/-! # The arguments of a shell command

`msh_split` of `components/finsh/msh.c` puts a terminator behind each argument of a command line, in
the line itself. It is modelled with `ptr` as the position in the line; what is behind the line's
terminator cannot be touched. The arguments are the first of those that the line has by a reading
of it from left to right (`mshSplit_splits`). -/
namespace ControlRTT.Components.MshSplit
open Lib

def blank (c : UInt8) : Bool := c = 0x20 ∨ c = 0x09

def quote : UInt8 := 0x22

def backslash : UInt8 := 0x5C

/-- Blanks are overwritten. -/
def stripBlanks (length : Nat) (cmd : List UInt8) (position : Nat) :
    Option (List UInt8 × Nat) := do
  let c ← cmd[position]?
  if blank c ∧ position < length then stripBlanks length (cmd.set position 0) (position + 1)
  else pure (cmd, position)
termination_by length - position

/-- The loop over a string, up to its closing quote. -/
def skipString (length : Nat) (cmd : List UInt8) (position : Nat) : Option Nat := do
  let c ← cmd[position]?
  if c ≠ quote ∧ position < length then
    if c = backslash then
      let d ← cmd[position + 1]?
      if d = quote then skipString length cmd (position + 2)
      else skipString length cmd (position + 1)
    else skipString length cmd (position + 1)
  else pure position
termination_by length - position

def skipWord (length : Nat) (cmd : List UInt8) (position : Nat) : Option Nat := do
  let c ← cmd[position]?
  if blank c = false ∧ position < length then skipWord length cmd (position + 1)
  else pure position
termination_by length - position

/-- `argc` is the length of `argv`, which has positions in the line. -/
structure Split where
  cmd : List UInt8
  position : Nat
  argv : List Nat
  deriving DecidableEq, Repr

/-- The loop of `msh_split`, `none` if it touches a byte behind the terminator or the fuel is used
up. -/
def splitLoop (argMax length : Nat) : Nat → Split → Option Split
  | 0, _ => none
  | fuel + 1, s =>
    if s.position < length then do
      let (cmd, position) ← stripBlanks length s.cmd s.position
      if argMax ≤ s.argv.length ∨ length ≤ position then pure ⟨cmd, position, s.argv⟩
      else
        let c ← cmd[position]?
        if c = quote then
          let stop ← skipString length cmd (position + 1)
          let argv := s.argv ++ [position + 1]
          if length ≤ stop then pure ⟨cmd, stop, argv⟩
          else splitLoop argMax length fuel ⟨cmd.set stop 0, stop + 1, argv⟩
        else
          let stop ← skipWord length cmd position
          let argv := s.argv ++ [position]
          if length ≤ stop then pure ⟨cmd, stop, argv⟩
          else splitLoop argMax length fuel ⟨cmd, stop, argv⟩
    else pure s

/-- `msh_split`, with `argMax` as `FINSH_ARG_MAX`. -/
def mshSplit (argMax fuel : Nat) (cmd : List UInt8) (length : Nat) : Option Split :=
  splitLoop argMax length fuel ⟨cmd, 0, []⟩

/-! ## What the arguments are -/

/-- What is quoted, and what is behind the closing quote if there is one. A quote right behind a
backslash does not close. -/
def splitQuoted (escaped : Bool) : List UInt8 → List UInt8 × Option (List UInt8)
  | [] => ([], none)
  | c :: rest =>
    if c = quote ∧ escaped = false then ([], some rest)
    else (c :: (splitQuoted (c = backslash) rest).1, (splitQuoted (c = backslash) rest).2)

theorem splitQuoted_some {escaped : Bool} {line body after : List UInt8}
    (h : splitQuoted escaped line = (body, some after)) : line = body ++ quote :: after := by
  induction line generalizing escaped body with
  | nil => cases h
  | cons c rest ih =>
    unfold splitQuoted at h
    split at h
    · rename_i hquote
      cases h
      rw [hquote.1, List.nil_append]
    · obtain ⟨rfl, hafter⟩ := Prod.mk.inj h
      rw [List.cons_append, ← ih (Prod.ext rfl hafter)]

theorem splitQuoted_none {escaped : Bool} {line body : List UInt8}
    (h : splitQuoted escaped line = (body, none)) : line = body := by
  induction line generalizing escaped body with
  | nil => exact (congrArg Prod.fst h)
  | cons c rest ih =>
    unfold splitQuoted at h
    split at h
    · cases h
    · obtain ⟨rfl, hafter⟩ := Prod.mk.inj h
      exact congrArg (c :: ·) (ih (Prod.ext rfl hafter))

/-- Blanks separate the arguments, and one that begins with a quote is what is quoted. -/
def arguments : List UInt8 → List (List UInt8)
  | [] => []
  | c :: rest =>
    if blank c then arguments rest
    else if c = quote then
      match _h : splitQuoted false rest with
      | (body, none) => [body]
      | (body, some after) => body :: arguments after
    else (c :: rest.takeWhile (!blank ·)) :: arguments (rest.dropWhile (!blank ·))
termination_by line => line.length
decreasing_by
  · exact Nat.lt_succ_self _
  · rw [splitQuoted_some _h]
    simp only [List.length_append, List.length_cons]
    omega
  · exact Nat.lt_succ_of_le (List.dropWhile_sublist _).length_le

/-- The text of an argument. -/
def argText (cmd : List UInt8) (arg : Nat) : List UInt8 := CString.text 0 (cmd.drop arg)

/-- The line is split as it should be: no more than `argMax` arguments, each with a terminator
behind it. -/
structure Splits (argMax : Nat) (line : List UInt8) (s : Split) : Prop where
  size : s.cmd.length = line.length + 1
  room : s.argv.length ≤ argMax
  terminated : ∀ arg ∈ s.argv, 0 ∈ s.cmd.drop arg
  args : s.argv.map (argText s.cmd) = (arguments line).take argMax

section
variable {cmd cmd' rest : List UInt8} {length p q : Nat} {argv : List Nat}
  {args : List (List UInt8)}

/-! ## The inner loops -/

theorem getElem?_of_drop {c : UInt8} {tail : List UInt8} (h : cmd.drop p = c :: tail) :
    cmd[p]? = some c := by
  rw [← Nat.add_zero p, ← List.getElem?_drop, h]
  rfl

theorem drop_succ_of_drop {c : UInt8} {tail : List UInt8} (h : cmd.drop p = c :: tail) :
    cmd.drop (p + 1) = tail := by
  rw [← List.drop_drop, h]
  rfl

/-- A position before the terminator is inside the line. -/
theorem lt_of_drop {c : UInt8} (hsize : cmd.length = length + 1)
    (h : cmd.drop p = c :: rest ++ [0]) : p < length := by
  have hlen := congrArg List.length h
  simp only [List.length_drop, List.length_append, List.length_cons, List.length_nil] at hlen
  omega

theorem blank_zero : blank 0 = false := by decide

theorem stripBlanks_eq (hsize : cmd.length = length + 1) (h : cmd.drop p = rest ++ [0]) :
    ∃ cmd' q, stripBlanks length cmd p = some (cmd', q) ∧ cmd'.length = length + 1 ∧
      cmd'.drop q = rest.dropWhile blank ++ [0] ∧ cmd'.take p = cmd.take p ∧
      q = p + (rest.takeWhile blank).length ∧ (p < q → cmd'[p]? = some 0) := by
  induction rest generalizing cmd p with
  | nil =>
    refine ⟨cmd, p, ?_, hsize, h, rfl, rfl, fun hlt => absurd hlt (Nat.lt_irrefl p)⟩
    rw [stripBlanks, getElem?_of_drop h]
    simp [blank_zero]
  | cons c rest ih =>
    have hlt := lt_of_drop hsize h
    have hget := getElem?_of_drop h
    by_cases hc : blank c = true
    · have hset : (cmd.set p 0).drop (p + 1) = rest ++ [0] := by
        rw [List.drop_set_of_lt (Nat.lt_succ_self p)]
        exact drop_succ_of_drop h
      obtain ⟨cmd', q, hstrip, hsize', hdrop, htake, hq, -⟩ :=
        ih (by rw [List.length_set, hsize]) hset
      refine ⟨cmd', q, ?_, hsize', ?_, ?_, ?_, fun _ => ?_⟩
      · rw [stripBlanks, hget]
        simpa [hc, hlt] using hstrip
      · rw [hdrop, List.dropWhile_cons_of_pos hc]
      · have htake' := congrArg (List.take p) htake
        rwa [List.take_take, List.take_take, Nat.min_eq_left (Nat.le_succ p),
          List.take_set_of_le (Nat.le_refl p)] at htake'
      · rw [hq, List.takeWhile_cons_of_pos hc, List.length_cons]
        omega
      · have hat := congrArg (fun l => l[p]?) htake
        simpa [List.getElem?_take, show p < cmd.length by omega] using hat
    · refine ⟨cmd, p, ?_, hsize, ?_, rfl, ?_, fun hlt => absurd hlt (Nat.lt_irrefl p)⟩
      · rw [stripBlanks, hget]
        simp [hc]
      · rw [h, List.dropWhile_cons_of_neg hc]
      · rw [List.takeWhile_cons_of_neg hc]
        rfl

theorem skipWord_eq (hsize : cmd.length = length + 1) (h : cmd.drop p = rest ++ [0]) :
    skipWord length cmd p = some (p + (rest.takeWhile (!blank ·)).length) := by
  induction rest generalizing p with
  | nil =>
    have hlast : ¬ p < length := by
      have hlen := congrArg List.length h
      simp only [List.length_drop, List.nil_append, List.length_cons, List.length_nil] at hlen
      omega
    rw [skipWord, getElem?_of_drop h]
    simp [hlast]
  | cons c rest ih =>
    have hlt := lt_of_drop hsize h
    rw [skipWord, getElem?_of_drop h]
    by_cases hc : blank c = true
    · simp [hc]
    · have hnext := ih (drop_succ_of_drop h)
      simp only [Bool.not_eq_true] at hc
      simp only [Option.bind_eq_bind, Option.bind_some, hc, hlt, and_self, if_true, hnext]
      simp [hc]
      omega

theorem splitQuoted_cons {c : UInt8} {escaped : Bool} (h : c ≠ quote ∨ escaped = true) :
    (splitQuoted escaped (c :: rest)).1 = c :: (splitQuoted (c = backslash) rest).1 := by
  rw [splitQuoted, if_neg]
  rintro ⟨hquote, hescaped⟩
  rcases h with hne | htrue
  · exact hne hquote
  · rw [hescaped] at htrue
    cases htrue

/-- The loop comes to a byte behind a backslash only if that is no quote. -/
theorem skipString_eq {escaped : Bool} (hsize : cmd.length = length + 1)
    (hescaped : escaped = true → rest.head? ≠ some quote) (h : cmd.drop p = rest ++ [0]) :
    skipString length cmd p = some (p + (splitQuoted escaped rest).1.length) := by
  induction hn : rest.length using Nat.strong_induction_on generalizing rest p escaped with
  | _ n ih =>
    subst hn
    cases rest with
    | nil =>
      have hlast : ¬ p < length := by
        have hlen := congrArg List.length h
        simp only [List.length_drop, List.nil_append, List.length_cons, List.length_nil] at hlen
        omega
      rw [skipString, getElem?_of_drop h]
      simp [hlast, splitQuoted]
    | cons c rest =>
      have hlt := lt_of_drop hsize h
      have hnext := drop_succ_of_drop h
      rw [skipString, getElem?_of_drop h, Option.bind_eq_bind, Option.bind_some]
      by_cases hquote : c = quote
      · have hfalse : escaped = false := by
          cases escaped with
          | false => rfl
          | true => exact absurd (congrArg some hquote) (hescaped rfl)
        rw [if_neg fun hc => hc.1 hquote, splitQuoted, if_pos ⟨hquote, hfalse⟩]
        rfl
      rw [if_pos ⟨hquote, hlt⟩, splitQuoted_cons (.inl hquote), List.length_cons]
      by_cases hback : c = backslash
      · rw [if_pos hback, decide_eq_true hback]
        by_cases hhead : rest.head? = some quote
        · obtain ⟨after, rfl⟩ := List.head?_eq_some_iff.mp hhead
          have hafter : skipString length cmd (p + 2) =
              some (p + 2 + (splitQuoted false after).1.length) :=
            ih after.length (Nat.lt_succ_of_lt (Nat.lt_succ_self _)) (fun hc => by cases hc)
              (drop_succ_of_drop hnext) rfl
          have hopen : decide (quote = backslash) = false := by decide
          rw [getElem?_of_drop hnext, Option.bind_some, if_pos rfl, hafter,
            splitQuoted_cons (.inr rfl), List.length_cons, hopen]
          congr 1
          omega
        · obtain ⟨d, tail, hd, hne⟩ : ∃ d tail, rest ++ [0] = d :: tail ∧ d ≠ quote := by
            cases rest with
            | nil => exact ⟨0, [], rfl, by decide⟩
            | cons d rest => exact ⟨d, rest ++ [0], rfl, fun hc => hhead (congrArg some hc)⟩
          have hafter : skipString length cmd (p + 1) =
              some (p + 1 + (splitQuoted true rest).1.length) :=
            ih rest.length (Nat.lt_succ_self _) (fun _ => hhead) hnext rfl
          rw [getElem?_of_drop (hnext.trans hd), Option.bind_some, if_neg hne, hafter]
          congr 1
          omega
      · have hafter : skipString length cmd (p + 1) =
            some (p + 1 + (splitQuoted false rest).1.length) :=
          ih rest.length (Nat.lt_succ_self _) (fun hc => by cases hc) hnext rfl
        rw [if_neg hback, decide_eq_false hback, hafter]
        congr 1
        omega

/-! ## The arguments -/

theorem arguments_nil : arguments [] = [] := by
  rw [arguments]

theorem arguments_dropWhile (line : List UInt8) :
    arguments (line.dropWhile blank) = arguments line := by
  induction line with
  | nil => rw [List.dropWhile_nil]
  | cons c rest ih =>
    by_cases hc : blank c = true
    · rw [List.dropWhile_cons_of_pos hc, ih, arguments, if_pos hc]
    · rw [List.dropWhile_cons_of_neg hc]

theorem arguments_unterminated {line : List UInt8}
    (h : splitQuoted false rest = (line, none)) : arguments (quote :: rest) = [line] := by
  rw [arguments, if_neg (by decide), if_pos rfl]
  split
  · rename_i body heq
    rw [h] at heq
    cases heq
    rfl
  · rename_i body after heq
    rw [h] at heq
    cases heq

theorem arguments_quoted {line after : List UInt8}
    (h : splitQuoted false rest = (line, some after)) :
    arguments (quote :: rest) = line :: arguments after := by
  rw [arguments, if_neg (by decide), if_pos rfl]
  split
  · rename_i body heq
    rw [h] at heq
    cases heq
  · rename_i body after' heq
    rw [h] at heq
    cases heq
    rfl

theorem arguments_word {c : UInt8} (hc : blank c = false) (hquote : c ≠ quote) :
    arguments (c :: rest) = (c :: rest).takeWhile (!blank ·) ::
      arguments ((c :: rest).dropWhile (!blank ·)) := by
  rw [arguments, if_neg (by simp [hc]), if_neg hquote, List.takeWhile_cons_of_pos (by simp [hc]),
    List.dropWhile_cons_of_pos (by simp [hc])]

/-- An argument with a terminator behind it. -/
theorem argText_of_drop {body tail : List UInt8} (h : cmd.drop p = body ++ 0 :: tail)
    (hbody : 0 ∉ body) : argText cmd p = body := by
  rw [argText, h, CString.text_append_nul hbody]

/-- The texts of the arguments do not depend on what is from the position on. -/
def Settled (cmd : List UInt8) (position : Nat) (argv : List Nat) (args : List (List UInt8)) :
    Prop :=
  ∀ cmd', cmd'.take position = cmd.take position → argv.map (argText cmd') = args

/-- They do not once there is a terminator at the position. -/
def Pending (cmd : List UInt8) (position : Nat) (argv : List Nat) (args : List (List UInt8)) :
    Prop :=
  ∀ cmd', cmd'.take position = cmd.take position → cmd'[position]? = some 0 →
    argv.map (argText cmd') = args

theorem Settled.of_le (h : Settled cmd p argv args) (hle : p ≤ q)
    (htake : cmd'.take p = cmd.take p) : Settled cmd' q argv args := by
  intro cmd'' heq
  have hshort := congrArg (List.take p) heq
  rw [List.take_take, List.take_take, Nat.min_eq_left hle] at hshort
  exact h cmd'' (hshort.trans htake)

theorem Pending.settled (h : Pending cmd p argv args) (hlt : p < q)
    (htake : cmd'.take p = cmd.take p) (hzero : cmd'[p]? = some 0) :
    Settled cmd' q argv args := by
  intro cmd'' heq
  have hshort := congrArg (List.take p) heq
  rw [List.take_take, List.take_take, Nat.min_eq_left (Nat.le_of_lt hlt)] at hshort
  have hat := congrArg (fun l => l[p]?) heq
  simp only [List.getElem?_take, if_pos hlt] at hat
  exact h cmd'' (hshort.trans htake) (hat.trans hzero)

theorem Settled.pending (h : Settled cmd p argv args) : Pending cmd p argv args :=
  fun cmd' htake _ => h cmd' htake

/-- Behind what is settled there is one more argument, up to a position `q`. -/
theorem Settled.append {body tail : List UInt8} (h : Settled cmd p argv args) {arg : Nat}
    (hle : p ≤ arg) (hdrop : cmd.drop arg = body ++ tail) (hbody : 0 ∉ body)
    (hq : q = arg + body.length) : Pending cmd q (argv ++ [arg]) (args ++ [body]) := by
  intro cmd' htake hzero
  have hbody' : (cmd'.drop arg).take body.length = body := by
    have hsame := congrArg (List.drop arg) htake
    rw [List.drop_take, List.drop_take, hq, Nat.add_sub_cancel_left, hdrop,
      List.take_left] at hsame
    exact hsame
  obtain ⟨hlt, hget⟩ := List.getElem?_eq_some_iff.mp hzero
  have hdrop' : cmd'.drop arg = body ++ 0 :: cmd'.drop (q + 1) := by
    rw [← List.take_append_drop body.length (cmd'.drop arg), hbody', List.drop_drop, ← hq,
      List.drop_eq_getElem_cons hlt, hget]
  have hold : argv.map (argText cmd') = args := h.of_le (Nat.le_refl p) rfl cmd' (by
    have hshort := congrArg (List.take p) htake
    rwa [List.take_take, List.take_take, Nat.min_eq_left (by omega)] at hshort)
  rw [List.map_append, hold, List.map_singleton, argText_of_drop hdrop' hbody]

/-! ## The loop -/

/-- What is behind the position is still to be read. -/
structure Ahead (argMax length : Nat) (s : Split) (rest : List UInt8) : Prop where
  size : s.cmd.length = length + 1
  ahead : s.cmd.drop s.position = rest ++ [0]
  noNul : 0 ∉ rest
  room : s.argv.length ≤ argMax
  inside : ∀ arg ∈ s.argv, arg ≤ length

theorem Ahead.position {argMax : Nat} {s : Split} (h : Ahead argMax length s rest) :
    s.position + rest.length = length := by
  have hlen := congrArg List.length h.ahead
  have hsize := h.size
  simp only [List.length_drop, List.length_append, List.length_cons, List.length_nil] at hlen
  omega

theorem Ahead.last {argMax : Nat} {s : Split} (h : Ahead argMax length s rest) :
    s.cmd[length]? = some 0 := by
  rw [← h.position, ← List.getElem?_drop, h.ahead]
  exact List.getElem?_concat_length

/-- The loop has ended with these arguments. -/
structure Ends (argMax length : Nat) (s : Split) (args : List (List UInt8)) : Prop where
  size : s.cmd.length = length + 1
  last : s.cmd[length]? = some 0
  room : s.argv.length ≤ argMax
  inside : ∀ arg ∈ s.argv, arg ≤ length
  args : s.argv.map (argText s.cmd) = args.take argMax

theorem Ahead.ends {argMax : Nat} {s : Split} (h : Ahead argMax length s rest)
    (hargs : s.argv.map (argText s.cmd) = args) {more : List (List UInt8)}
    (hmore : more = [] ∨ argMax ≤ s.argv.length) : Ends argMax length s (args ++ more) := by
  refine ⟨h.size, h.last, h.room, h.inside, ?_⟩
  have hlen : args.length = s.argv.length := by rw [← hargs, List.length_map]
  have hroom := h.room
  rcases hmore with rfl | hfull
  · rw [hargs, List.append_nil, List.take_of_length_le (by omega)]
  · rw [hargs, List.take_append_of_le_length (by omega), List.take_of_length_le (by omega)]

/-- One more argument, that goes on up to the terminator of the line. -/
theorem Ahead.ends_append {argMax arg : Nat} {s : Split} (h : Ahead argMax length s rest)
    (hroom : s.argv.length < argMax) (hargs : Settled s.cmd s.position s.argv args)
    (hle : s.position ≤ arg) {body : List UInt8} (hbody : s.cmd.drop arg = body ++ [0])
    (hnoNul : 0 ∉ body) {stop : Nat} :
    Ends argMax length ⟨s.cmd, stop, s.argv ++ [arg]⟩ (args ++ [body]) := by
  have hlen := congrArg List.length hbody
  have hsize := h.size
  have hposition := h.position
  simp only [List.length_drop, List.length_append, List.length_cons, List.length_nil] at hlen
  have hpending := hargs.append hle hbody hnoNul (show length = arg + body.length by omega)
  have hmap := hpending s.cmd rfl h.last
  refine ⟨hsize, h.last, ?_, fun a ha => ?_, ?_⟩
  · rw [List.length_append, List.length_singleton]
    exact hroom
  · rcases List.mem_append.mp ha with ha | ha
    · exact h.inside a ha
    · rw [List.mem_singleton.mp ha]
      omega
  · dsimp only
    have hcount := congrArg List.length hmap
    simp only [List.length_map, List.length_append, List.length_singleton] at hcount
    rw [hmap, List.take_of_length_le (by rw [List.length_append, List.length_singleton]; omega)]

/-- Behind the last argument there may be a blank that is still to be overwritten. -/
def Open (s : Split) (rest : List UInt8) (args : List (List UInt8)) : Prop :=
  Settled s.cmd s.position s.argv args ∨
    (∃ c ∈ rest.head?, blank c = true) ∧ Pending s.cmd s.position s.argv args

/-- When blanks have been stripped, everything read is settled. -/
theorem Ahead.strip {argMax : Nat} {s : Split} (h : Ahead argMax length s rest)
    (hopen : Open s rest args) : ∃ cmd q, stripBlanks length s.cmd s.position = some (cmd, q) ∧
      Ahead argMax length ⟨cmd, q, s.argv⟩ (rest.dropWhile blank) ∧
      Settled cmd q s.argv args := by
  obtain ⟨cmd, q, hstrip, hsize, hdrop, htake, hq, hzero⟩ := stripBlanks_eq h.size h.ahead
  refine ⟨cmd, q, hstrip, ⟨hsize, hdrop, fun hmem => h.noNul ?_, h.room, h.inside⟩, ?_⟩
  · exact (List.dropWhile_sublist _).mem hmem
  · rcases hopen with hsettled | ⟨⟨c, hhead, hblank⟩, hpending⟩
    · exact hsettled.of_le (by omega) htake
    · have hlt : s.position < q := by
        obtain ⟨tail, rfl⟩ := List.head?_eq_some_iff.mp hhead
        rw [hq, List.takeWhile_cons_of_pos hblank, List.length_cons]
        omega
      exact hpending.settled hlt htake (hzero hlt)

/-- The round for a string. -/
theorem Ahead.quoted {argMax fuel : Nat} (h : Ahead argMax length ⟨cmd, q, argv⟩ (quote :: rest))
    (hroom : argv.length < argMax) (hargs : Settled cmd q argv args)
    (hnext : ∀ {s : Split} {args : List (List UInt8)} (after : List UInt8),
      after.length < (quote :: rest).length → Ahead argMax length s after → Open s after args →
        ∃ s', splitLoop argMax length fuel s = some s' ∧
          Ends argMax length s' (args ++ arguments after)) :
    ∃ s', (do
        let stop ← skipString length cmd (q + 1)
        if length ≤ stop then pure ⟨cmd, stop, argv ++ [q + 1]⟩
        else splitLoop argMax length fuel ⟨cmd.set stop 0, stop + 1, argv ++ [q + 1]⟩) = some s' ∧
      Ends argMax length s' (args ++ arguments (quote :: rest)) := by
  have hposition := h.position
  have hnoNul : 0 ∉ rest := fun hmem => h.noNul (List.mem_cons_of_mem _ hmem)
  have hdrop : cmd.drop (q + 1) = rest ++ [0] := drop_succ_of_drop h.ahead
  have hskip : skipString length cmd (q + 1) =
      some (q + 1 + (splitQuoted false rest).1.length) :=
    skipString_eq h.size (fun hc => by cases hc) hdrop
  dsimp only [List.length_cons] at hposition
  rw [hskip]
  simp only [Option.bind_eq_bind, Option.bind_some]
  cases hsplit : splitQuoted false rest with
  | mk body after =>
    cases after with
    | none =>
      obtain rfl := splitQuoted_none hsplit
      refine ⟨_, if_pos (by dsimp only; omega), ?_⟩
      rw [arguments_unterminated hsplit]
      exact h.ends_append hroom hargs (Nat.le_succ q) hdrop hnoNul
    | some after =>
      obtain rfl := splitQuoted_some hsplit
      simp only [List.length_append, List.length_cons] at hposition
      have hbody : cmd.drop (q + 1) = body ++ (quote :: after ++ [0]) := by
        rw [hdrop, List.append_assoc]
      have hstop : cmd.drop (q + 1 + body.length) = quote :: after ++ [0] := by
        rw [← List.drop_drop, hbody, List.drop_left]
      have hlt := lt_of_drop h.size hstop
      have hsize := h.size
      dsimp only at hsize
      have hmore : args ++ body :: arguments after = args ++ [body] ++ arguments after :=
        List.append_cons args body _
      rw [if_neg (by dsimp only; omega), arguments_quoted hsplit, hmore]
      refine hnext after (by simp only [List.length_append, List.length_cons]; omega)
        ⟨?_, ?_, ?_, ?_, fun arg ha => ?_⟩ (.inl ?_)
      · rw [List.length_set, hsize]
      · rw [List.drop_set_of_lt (Nat.lt_succ_self _)]
        exact drop_succ_of_drop hstop
      · exact fun hmem => hnoNul (List.mem_append_right _ (List.mem_cons_of_mem _ hmem))
      · rw [List.length_append, List.length_singleton]
        exact hroom
      · rcases List.mem_append.mp ha with ha | ha
        · exact h.inside arg ha
        · rw [List.mem_singleton.mp ha]
          omega
      · have hpending := hargs.append (Nat.le_succ q) hbody
          (fun hmem => hnoNul (List.mem_append_left _ hmem)) rfl
        refine hpending.settled (Nat.lt_succ_self _) ?_ ?_
        · exact List.take_set_of_le (Nat.le_refl _)
        · exact List.getElem?_set_self (by dsimp only; omega)

/-- The round for a word. -/
theorem Ahead.word {argMax fuel : Nat} {c : UInt8}
    (h : Ahead argMax length ⟨cmd, q, argv⟩ (c :: rest)) (hroom : argv.length < argMax)
    (hargs : Settled cmd q argv args) (hc : blank c = false) (hquote : c ≠ quote)
    (hnext : ∀ {s : Split} {args : List (List UInt8)} (after : List UInt8),
      after.length < (c :: rest).length → Ahead argMax length s after → Open s after args →
        ∃ s', splitLoop argMax length fuel s = some s' ∧
          Ends argMax length s' (args ++ arguments after)) :
    ∃ s', (do
        let stop ← skipWord length cmd q
        if length ≤ stop then pure ⟨cmd, stop, argv ++ [q]⟩
        else splitLoop argMax length fuel ⟨cmd, stop, argv ++ [q]⟩) = some s' ∧
      Ends argMax length s' (args ++ arguments (c :: rest)) := by
  have hposition := h.position
  have hsplit := List.takeWhile_append_dropWhile (p := (!blank ·)) (l := c :: rest)
  have hpos : 0 < ((c :: rest).takeWhile (!blank ·)).length := by
    rw [List.takeWhile_cons_of_pos (by simp [hc])]
    exact Nat.succ_pos _
  rw [skipWord_eq h.size h.ahead, arguments_word hc hquote]
  simp only [Option.bind_eq_bind, Option.bind_some]
  have hahead : cmd.drop q = c :: rest ++ [0] := h.ahead
  have hnoNul := h.noNul
  have hhead := List.head?_dropWhile_not (!blank ·) (c :: rest)
  generalize (c :: rest).takeWhile (!blank ·) = body at *
  generalize (c :: rest).dropWhile (!blank ·) = after at *
  rw [← hsplit] at hahead hposition hnoNul
  dsimp only [List.length_append] at hposition
  cases after with
  | nil =>
    rw [List.append_nil] at hahead hnoNul
    refine ⟨_, if_pos (by simp at hposition ⊢; omega), ?_⟩
    rw [arguments_nil]
    exact h.ends_append hroom hargs (Nat.le_refl q) hahead hnoNul
  | cons d after =>
    have hd : blank d = true := by simpa using hhead
    have hbody : cmd.drop q = body ++ (d :: after ++ [0]) := by
      rw [hahead, List.append_assoc]
    have hstop : cmd.drop (q + body.length) = d :: after ++ [0] := by
      rw [← List.drop_drop, hbody, List.drop_left]
    have hlt := lt_of_drop h.size hstop
    have hmore : args ++ body :: arguments (d :: after) =
        args ++ [body] ++ arguments (d :: after) := List.append_cons args body _
    rw [if_neg (by omega), hmore]
    refine hnext (d :: after) (by rw [← hsplit, List.length_append]; omega)
      ⟨h.size, hstop, ?_, ?_, fun arg ha => ?_⟩ (.inr ⟨⟨d, rfl, hd⟩, ?_⟩)
    · exact fun hmem => hnoNul (List.mem_append_right _ hmem)
    · rw [List.length_append, List.length_singleton]
      exact hroom
    · rcases List.mem_append.mp ha with ha | ha
      · exact h.inside arg ha
      · rw [List.mem_singleton.mp ha]
        omega
    · exact hargs.append (Nat.le_refl q) hbody
        (fun hmem => hnoNul (List.mem_append_left _ hmem)) rfl

theorem splitLoop_ends {argMax fuel : Nat} {s : Split} (hfuel : rest.length < fuel)
    (h : Ahead argMax length s rest) (hopen : Open s rest args) :
    ∃ s', splitLoop argMax length fuel s = some s' ∧
      Ends argMax length s' (args ++ arguments rest) := by
  induction fuel generalizing s rest args with
  | zero => exact absurd hfuel (Nat.not_lt_zero _)
  | succ fuel ih =>
    have hposition := h.position
    unfold splitLoop
    by_cases hlt : s.position < length
    · obtain ⟨cmd, q, hstrip, hahead, hsettled⟩ := h.strip hopen
      have hshort := (List.dropWhile_sublist blank (l := rest)).length_le
      have hq := hahead.position
      rw [if_pos hlt, hstrip, ← arguments_dropWhile]
      simp only [Option.bind_eq_bind, Option.bind_some]
      cases hrest : rest.dropWhile blank with
      | nil =>
        rw [hrest] at hahead hq
        exact ⟨⟨cmd, q, s.argv⟩, if_pos (.inr (Nat.le_of_eq hq.symm)),
          hahead.ends (hsettled cmd rfl) (.inl arguments_nil)⟩
      | cons c tail =>
        rw [hrest] at hahead hq hshort
        dsimp only [List.length_cons] at hq hshort
        have hc : blank c = false := by
          have hnot := List.head?_dropWhile_not blank rest
          rw [hrest] at hnot
          simpa using hnot
        by_cases hfull : argMax ≤ s.argv.length
        · exact ⟨⟨cmd, q, s.argv⟩, if_pos (.inl hfull),
            hahead.ends (hsettled cmd rfl) (.inr hfull)⟩
        have hroom : s.argv.length < argMax := Nat.lt_of_not_le hfull
        rw [if_neg (by omega), getElem?_of_drop hahead.ahead, Option.bind_some]
        have hnoNul : 0 ∉ tail := fun hmem => hahead.noNul (List.mem_cons_of_mem c hmem)
        by_cases hquote : c = quote
        · subst hquote
          rw [if_pos rfl]
          exact hahead.quoted hroom hsettled fun after hlen hahead' hopen' =>
            ih (by rw [List.length_cons] at hlen; omega) hahead' hopen'
        · rw [if_neg hquote]
          exact hahead.word hroom hsettled hc hquote fun after hlen hahead' hopen' =>
            ih (by rw [List.length_cons] at hlen; omega) hahead' hopen'
    · have hnil : rest = [] := List.eq_nil_of_length_eq_zero (by omega)
      subst hnil
      rcases hopen with hsettled | ⟨⟨c, hhead, -⟩, -⟩
      · exact ⟨s, if_neg hlt, h.ends (hsettled s.cmd rfl) (.inl arguments_nil)⟩
      · cases hhead

end

/-- Every command line is split into the arguments that it has, or the first of them. -/
theorem mshSplit_splits (argMax : Nat) {line : List UInt8} (hline : 0 ∉ line) {fuel : Nat}
    (hfuel : line.length < fuel) : ∃ s, mshSplit argMax fuel (line ++ [0]) line.length = some s ∧
      Splits argMax line s := by
  have hahead : Ahead argMax line.length ⟨line ++ [0], 0, []⟩ line :=
    ⟨List.length_append, rfl, hline, Nat.zero_le _, fun arg ha => by cases ha⟩
  have hopen : Open ⟨line ++ [0], 0, []⟩ line [] := .inl fun _ _ => rfl
  obtain ⟨s, hsplit, hends⟩ := splitLoop_ends hfuel hahead hopen
  refine ⟨s, hsplit, hends.size, hends.room, fun arg ha => ?_, hends.args⟩
  have hlast := hends.last
  rw [← Nat.add_sub_of_le (hends.inside arg ha), ← List.getElem?_drop] at hlast
  exact List.mem_of_getElem? hlast

/-- `ls "a b`, with the quote left open. -/
def openLine : List UInt8 := [0x6C, 0x73, 0x20, 0x22, 0x61, 0x20, 0x62]

theorem mshSplit_splits_open : ∃ s, mshSplit 10 8 (openLine ++ [0]) openLine.length = some s ∧
    Splits 10 openLine s :=
  mshSplit_splits 10 (by decide) (by decide)

example : (mshSplit 10 8 (openLine ++ [0]) 7).map (fun s => s.argv.map (argText s.cmd)) =
    some [[0x6C, 0x73], [0x61, 0x20, 0x62]] := by decide +kernel

end ControlRTT.Components.MshSplit
