import ControlRTT.Kernel.PrintNumber
import ControlRTT.Kernel.StringCompare

/-! # rt_vsnprintf (kservice.c)

A turn of the loop reads a piece of the format and prints it. The format and the strings of `%s`
are apart from the buffer, `string` has the string at an address, and `args` has the words of the
`va_list`. An overflow of an `int`, which C leaves undefined, is `none`. -/
namespace ControlRTT.Kernel.Vsnprintf
open Printf StringCompare

def intMin : Int := -0x80000000

def intMax : Int := 0x7fffffff

def isdigit (c : UInt8) : Bool := c - '0'.toUInt8 < 10

/-- What is left to read. -/
structure Input where
  fmt : List UInt8
  args : Nat → BitVec 32

/-- Behind a `va_arg`, which is the word `args 0`. -/
def Input.vaArg (i : Input) : Input := { i with args := fun n => i.args (n + 1) }

/-- A literal byte, or a conversion with its argument. -/
inductive Piece
  | byte (c : UInt8)
  | char (flags : Flags) (fieldWidth : Int) (c : UInt8)
  | string (flags : Flags) (fieldWidth len : Int) (s : List UInt8)
  | number (n : Number)
  | other (c : Option UInt8)

/-! ## Reading -/

/-- `process flags` -/
def readFlags (flags : Flags) : List UInt8 → Flags × List UInt8
  | [] => (flags, [])
  | c :: fmt =>
    if c = '-'.toUInt8 then readFlags { flags with left := true } fmt
    else if c = '+'.toUInt8 then readFlags { flags with plus := true } fmt
    else if c = ' '.toUInt8 then readFlags { flags with space := true } fmt
    else if c = '#'.toUInt8 then readFlags { flags with special := true } fmt
    else if c = '0'.toUInt8 then readFlags { flags with zeropad := true } fmt
    else (flags, c :: fmt)

/-- `skip_atoi`, which adds the byte before it takes away `'0'`. -/
def skipAtoi (i : Int) : List UInt8 → Option (Int × List UInt8)
  | [] => some (i, [])
  | c :: fmt =>
    if isdigit c then
      if i * 10 + c.toNat ≤ intMax then skipAtoi (i * 10 + c.toNat - 0x30) fmt else none
    else some (i, c :: fmt)

/-- `get field width` -/
def readWidth (flags : Flags) (i : Input) : Option (Int × Flags × Input) :=
  if isdigit (deref i.fmt) then
    (skipAtoi 0 i.fmt).map fun r => (r.1, flags, { i with fmt := r.2 })
  else if deref i.fmt = '*'.toUInt8 then
    let fieldWidth := (i.args 0).toInt
    let i := { i with fmt := i.fmt.tail }.vaArg
    if fieldWidth < 0 then
      if fieldWidth = intMin then none else some (-fieldWidth, { flags with left := true }, i)
    else some (fieldWidth, flags, i)
  else some (-1, flags, i)

/-- `get the precision` -/
def readPrecision (i : Input) : Option (Int × Input) :=
  if deref i.fmt = '.'.toUInt8 then
    let fmt := i.fmt.tail
    if isdigit (deref fmt) then (skipAtoi 0 fmt).map fun r => (max r.1 0, { i with fmt := r.2 })
    else if deref fmt = '*'.toUInt8 then
      some (max (i.args 0).toInt 0, { i with fmt := fmt.tail }.vaArg)
    else some (0, { i with fmt })
  else some (-1, i)

/-- `get the conversion qualifier`, where `'l'` makes no difference to a word. -/
def readQualifier (fmt : List UInt8) : Option UInt8 × List UInt8 :=
  if deref fmt = 'h'.toUInt8 ∨ deref fmt = 'l'.toUInt8 then (some (deref fmt), fmt.tail)
  else (none, fmt)

/-- The integer formats: `num` is the word or, behind `'h'`, 16 bits of it. -/
def integer (flags : Flags) (qualifier : Option UInt8) (base : Nat) (fieldWidth precision : Int)
    (word : BitVec 32) : Piece :=
  let num :=
    if qualifier = some 'h'.toUInt8 then
      if flags.sign then (word.setWidth 16).signExtend 32 else (word.setWidth 16).setWidth 32
    else word
  .number { num, base, s := fieldWidth, precision, type := flags }

/-- The case `'s'`. -/
def stringPiece (string : BitVec 32 → CStr) (flags : Flags) (fieldWidth precision : Int)
    (s : BitVec 32) : Piece :=
  let s := if s = 0 then "(NULL)".toList.map Char.toUInt8 else (string s).bytes
  let len := (BitVec.ofNat 32 s.length).toInt
  .string flags fieldWidth (if precision > 0 ∧ len > precision then precision else len) s

/-- The `switch`. -/
def readConversion (string : BitVec 32 → CStr) (flags : Flags) (fieldWidth precision : Int)
    (qualifier : Option UInt8) (i : Input) : Piece × Input :=
  let word := i.args 0
  let integer (flags : Flags) (base : Nat) (i : Input) :=
    (integer flags qualifier base fieldWidth precision word, i.vaArg)
  match i.fmt with
  | [] => (.other none, i)
  | c :: fmt =>
    let i := { i with fmt }
    if c = 'c'.toUInt8 then (.char flags fieldWidth word.toNat.toUInt8, i.vaArg)
    else if c = 's'.toUInt8 then (stringPiece string flags fieldWidth precision word, i.vaArg)
    else if c = 'p'.toUInt8 then
      let s := if fieldWidth = -1 then 8 else fieldWidth
      let type := if fieldWidth = -1 then { flags with zeropad := true } else flags
      (.number { num := word, base := 16, s, precision, type }, i.vaArg)
    else if c = '%'.toUInt8 then (.byte c, i)
    else if c = 'o'.toUInt8 then integer flags 8 i
    else if c = 'X'.toUInt8 then integer { flags with large := true } 16 i
    else if c = 'x'.toUInt8 then integer flags 16 i
    else if c = 'd'.toUInt8 ∨ c = 'i'.toUInt8 then integer { flags with sign := true } 10 i
    else if c = 'u'.toUInt8 then integer flags 10 i
    else (.other (some c), i)

/-- How often what is left of a width is counted down after it is used up: each loop that prints
padding does so once more, and so does a sign that is stored. -/
def countdowns (n : Number) : Nat :=
  (if n.type.left then 1 else if n.type.zeropad then 2 else 3) + n.signBytes.length

/-- What is left of a width does not overflow. -/
def Piece.InRange (special : Bool) : Piece → Prop
  | string flags _ len _ => intMin + (if flags.left then 1 else 2) ≤ len
  | number n => intMin + countdowns n ≤ n.size special
  | _ => True

instance : DecidablePred (Piece.InRange special)
  | .byte _ | .char .. | .other _ => .isTrue trivial
  | .string flags _ len _ =>
    inferInstanceAs (Decidable (intMin + (if flags.left then 1 else 2) ≤ len))
  | .number n => inferInstanceAs (Decidable (intMin + countdowns n ≤ n.size special))

/-- A turn of the loop at `c`. -/
def readPiece (special : Bool) (string : BitVec 32 → CStr) (c : UInt8) (i : Input) :
    Option (Piece × Input) :=
  if c ≠ '%'.toUInt8 then some (.byte c, i)
  else do
    let (flags, fmt) := readFlags {} i.fmt
    let (fieldWidth, flags, i) ← readWidth flags { i with fmt }
    let (precision, i) ← readPrecision i
    let (qualifier, fmt) := readQualifier i.fmt
    let (piece, i) := readConversion string flags fieldWidth precision qualifier { i with fmt }
    if piece.InRange special then some (piece, i) else none

/-! ### A turn goes on in the format -/

section

theorem length_readFlags (flags : Flags) (fmt : List UInt8) :
    (readFlags flags fmt).2.length ≤ fmt.length := by
  fun_induction readFlags flags fmt <;> simp only [List.length_cons, List.length_nil] <;> omega

theorem length_skipAtoi {i : Int} {fmt : List UInt8} {r : Int × List UInt8}
    (h : skipAtoi i fmt = some r) : r.2.length ≤ fmt.length := by
  induction fmt generalizing i with
  | nil =>
    cases h
    exact Nat.le_refl _
  | cons c fmt ih =>
    unfold skipAtoi at h
    split at h
    · split at h
      · exact (ih h).trans (Nat.le_succ _)
      · cases h
    · cases h
      exact Nat.le_refl _

theorem length_readWidth {flags : Flags} {i : Input} {r : Int × Flags × Input}
    (h : readWidth flags i = some r) : r.2.2.fmt.length ≤ i.fmt.length := by
  unfold readWidth at h
  split at h
  · obtain ⟨n, hn, rfl⟩ := Option.map_eq_some_iff.mp h
    exact length_skipAtoi hn
  · have htail : i.fmt.tail.length ≤ i.fmt.length := by simp
    split at h
    · dsimp only at h
      split at h
      · split at h
        · cases h
        · cases h
          exact htail
      · cases h
        exact htail
    · cases h
      exact Nat.le_refl _

theorem length_readPrecision {i : Input} {r : Int × Input} (h : readPrecision i = some r) :
    r.2.fmt.length ≤ i.fmt.length := by
  have htail : i.fmt.tail.length ≤ i.fmt.length := by simp
  unfold readPrecision at h
  split at h
  · dsimp only at h
    split at h
    · obtain ⟨n, hn, rfl⟩ := Option.map_eq_some_iff.mp h
      exact (length_skipAtoi hn).trans htail
    · split at h
      · cases h
        exact (show i.fmt.tail.tail.length ≤ i.fmt.tail.length by simp).trans htail
      · cases h
        exact htail
  · cases h
    exact Nat.le_refl _

theorem length_readQualifier (fmt : List UInt8) : (readQualifier fmt).2.length ≤ fmt.length := by
  unfold readQualifier
  split
  · simp
  · exact Nat.le_refl _

theorem length_readConversion (string : BitVec 32 → CStr) (flags : Flags)
    (fieldWidth precision : Int) (qualifier : Option UInt8) (i : Input) :
    (readConversion string flags fieldWidth precision qualifier i).2.fmt.length ≤
      i.fmt.length := by
  unfold readConversion
  dsimp only
  split
  · exact Nat.le_refl _
  · rename_i c fmt hfmt
    have hle : fmt.length ≤ i.fmt.length := by simp [hfmt]
    repeat' split
    all_goals exact hle

theorem length_readPiece {special : Bool} {string : BitVec 32 → CStr} {c : UInt8} {i : Input}
    {r : Piece × Input} (h : readPiece special string c i = some r) :
    r.2.fmt.length ≤ i.fmt.length := by
  unfold readPiece at h
  split at h
  · cases h
    exact Nat.le_refl _
  · obtain ⟨width, hwidth, h⟩ := Option.bind_eq_some_iff.mp h
    obtain ⟨precision, hprecision, h⟩ := Option.bind_eq_some_iff.mp h
    dsimp only at h
    split at h
    · cases h
      exact (length_readConversion ..).trans ((length_readQualifier _).trans
        ((length_readPrecision hprecision).trans ((length_readWidth hwidth).trans
          (length_readFlags _ _))))
    · cases h

end

/-! ## Printing -/

/-- `while (--field_width > 0) { if (str <= end) *str = ' '; ++ str; }` -/
def padChar (last : BitVec 32) (fieldWidth : Int) (o : Out) : Int × Out :=
  if 0 < fieldWidth - 1 then padChar last (fieldWidth - 1) (o.put last space)
  else (fieldWidth - 1, o)
termination_by fieldWidth.toNat
decreasing_by omega

/-- `while (len < field_width--) { if (str <= end) *str = ' '; ++ str; }` -/
def padString (last : BitVec 32) (len fieldWidth : Int) (o : Out) : Int × Out :=
  if len < fieldWidth then padString last len (fieldWidth - 1) (o.put last space)
  else (fieldWidth - 1, o)
termination_by (fieldWidth - len).toNat
decreasing_by omega

def Piece.put (special : Bool) (last : BitVec 32) (o : Out) : Piece → Out
  | byte c => o.put last c
  | char flags fieldWidth c =>
    let st := if ¬ flags.left then padChar last fieldWidth o else (fieldWidth, o)
    (padChar last st.1 (st.2.put last c)).2
  | string flags fieldWidth len s =>
    let st := if ¬ flags.left then padString last len fieldWidth o else (fieldWidth, o)
    -- `for (i = 0; i < len; ++i)`
    (padString last len st.1 (st.2.puts last (s.take len.toNat))).2
  | number n => printNumber special last o n.num n.base n.s n.precision n.type
  | other c => (o.put last '%'.toUInt8).puts last c.toList

/-- The loop over the format. -/
def format (special : Bool) (string : BitVec 32 → CStr) (last : BitVec 32) (o : Out) :
    Input → Option Out
  | { fmt := [], .. } => some o
  | { fmt := c :: fmt, args } =>
    match _h : readPiece special string c { fmt, args } with
    | none => none
    | some (piece, i) => format special string last (piece.put special last o) i
termination_by i => i.fmt.length
decreasing_by exact Nat.lt_succ_of_le (length_readPiece _h)

/-- `end`, which is made sure to be not below `buf`. -/
def endOf (buf size : BitVec 32) : BitVec 32 :=
  if buf + size - 1 < buf then -1 else buf + size - 1

/-- The stores, and the value that is returned. -/
def rtVsnprintf (special : Bool) (string : BitVec 32 → CStr) (buf size : BitVec 32) (fmt : CStr)
    (args : Nat → BitVec 32) : Option (List (BitVec 32 × UInt8) × BitVec 32) :=
  let last := endOf buf size
  (format special string last { str := buf } { fmt := fmt.bytes, args }).map fun o =>
    (o.stores ++ [(if o.str ≤ last then o.str else last, 0)], o.str - buf)

end ControlRTT.Kernel.Vsnprintf
