import ControlRTT.Lib.CInt

/-! # Tokens of a FinSH line

`components/finsh/finsh_token.c`. The end of the line sets a flag and takes the position back to
the start. A name that the end cuts off clears the flag again, so that the line is read from its
start once more (`Lexer.restarted`); any other token leaves less of the line to read
(`Lexer.reads_tokenRun`). -/
namespace ControlRTT.Components.FinshToken

def finshStringMax : Nat := 128

inductive TokenType where
  | leftParen | rightParen | comma | semicolon
  | mul | add | inc | sub | dec | div | mod | assign
  | and | or | xor | bitwise | shl | shr
  | void | char | short | int | long | unsigned
  | valueChar | valueInt | valueLong | valueString | valueNull
  | identifier | bad | eof
  deriving DecidableEq, Repr

/-- The codes that `finsh_error_set` gets. -/
inductive FinshError where
  | invalidToken | expectType | unknownType | variableExist | expectOperator | memoryFull
  | unknownNode | expectChar | unexpectEnd | unknownToken | unknownSymbol | nullNode
  deriving DecidableEq, Repr

/-- `struct finsh_token`, less the replay flag, which is the parser's. A line is what stands before
its null character. `error` is what the last call of `token_run` has set the error number to, and
`restarted` is no part of the code: `token_get_string` has cleared `eof` where it was set. -/
structure Lexer where
  line : List Char
  eof : Bool := false
  position : Nat := 0
  currentToken : TokenType := .eof
  value : BitVec 32 := 0
  string : List Char := List.replicate finshStringMax '\x00'
  error : Option FinshError := none
  restarted : Bool := false
  deriving DecidableEq, Repr

def isAlpha (ch : Char) : Bool := 97 ≤ (ch.toNat ||| 0x20) && (ch.toNat ||| 0x20) < 123

def isDigit (ch : Char) : Bool := '0' ≤ ch && ch ≤ '9'

def isXdigit (ch : Char) : Bool :=
  isDigit ch || (97 ≤ (ch.toNat ||| 0x20) && (ch.toNat ||| 0x20) < 103)

/-- `(ch - '0') < 8u` -/
def isOctal (ch : Char) : Bool := '0' ≤ ch && ch ≤ '7'

def isSeparator (ch : Char) : Bool :=
  !(('a' ≤ ch && ch ≤ 'z') || ('A' ≤ ch && ch ≤ 'Z') || ('0' ≤ ch && ch ≤ '9') || ch = '_')

def isBlank (ch : Char) : Bool := ch = ' ' || ch = '\t' || ch = '\r'

/-- `finsh_name_table` -/
def finshNameTable : List (String × TokenType) :=
  [("void", .void), ("char", .char), ("short", .short), ("int", .int), ("long", .long),
    ("unsigned", .unsigned), ("NULL", .valueNull), ("null", .valueNull)]

namespace Lexer
variable (self : Lexer)

def setError (e : FinshError) : Lexer := { self with error := some e }

def tokenNextChar : Char × Lexer :=
  if self.eof then ('\x00', self)
  else
    match self.line[self.position]? with
    | none => ('\x00', { self with eof := true, position := 0 })
    | some ch =>
      if ch = '\n' then ('\x00', { self with eof := true, position := 0 })
      else (ch, { self with position := self.position + 1 })

def tokenPrevChar : Lexer :=
  if self.eof then self else { self with position := self.position - 1 }

/-- `while (p(ch)) { *buf++ = ch; ch = token_next_char(self); }`: what has been put into the buffer,
and the character that ends the loop. -/
def scan (p : Char → Bool) : Nat → Char → Lexer → List Char × Char × Lexer
  | 0, ch, self => ([], ch, self)
  | fuel + 1, ch, self =>
    if p ch then
      let (next, self) := self.tokenNextChar
      let (buf, last, self) := scan p fuel next self
      (ch :: buf, last, self)
    else ([], ch, self)

/-- A loop reads no more characters than there are on the line. -/
def scanLine (p : Char → Bool) (ch : Char) : List Char × Char × Lexer :=
  scan p (self.line.length + 2) ch self

/-- `string` with other characters at its beginning. -/
def putString (s : List Char) : Lexer := { self with string := s ++ self.string.drop s.length }

/-- `string` as it is read. -/
def text : List Char := self.string.takeWhile (· ≠ '\x00')

def tokenTrimSpace : Lexer :=
  let (ch, self) := self.tokenNextChar
  (self.scanLine isBlank ch).2.2.tokenPrevChar

/-- Here and below there is no result if a buffer is too short. -/
def tokenGetString : Option Lexer :=
  let (ch, self) := self.tokenNextChar
  if self.eof then some self
  else
    let self := self.putString ['\x00']
    if isDigit ch then some self.tokenPrevChar
    else
      let (name, _, self) := self.scanLine (fun ch => !isSeparator ch) ch
      if name.length < finshStringMax then
        let self := { self with eof := false, restarted := self.restarted || self.eof }
        some (self.tokenPrevChar.putString (name ++ ['\x00']))
      else none

def tokenMatchName (str : List Char) : Option TokenType :=
  (finshNameTable.find? fun entry => entry.1.toList = str).map Prod.snd

/-- The escapes of `token_proc_char` and of `token_proc_escape` that are one character. -/
def charEscapes : List (Char × Char) :=
  [('n', '\n'), ('t', '\t'), ('v', '\x0b'), ('b', '\x08'), ('r', '\r'), ('\\', '\\'), ('\'', '\'')]

def stringEscapes : List (Char × Char) :=
  [('n', '\n'), ('t', '\t'), ('v', '\x0b'), ('b', '\x08'), ('r', '\r'), ('f', '\x0c'),
    ('a', '\x07'), ('"', '"')]

/-- The digits are left in a buffer of four characters, of which the last is the null that
`atoi` is given. -/
def tokenProcChar : Option (Char × Lexer) :=
  let close (ch : Char) (self : Lexer) : Char × Lexer :=
    let (last, self) := self.tokenNextChar
    if last ≠ '\'' then (ch, self.tokenPrevChar.setError .expectChar) else (ch, self)
  let (ch, self) := self.tokenNextChar
  if ch = '\\' then
    let (ch, self) := self.tokenNextChar
    match charEscapes.lookup ch with
    | some ch => some (close ch self)
    | none =>
      let (digits, _, self) := self.scanLine isDigit ch
      if digits.length < 4 then some (close '\x00' self.tokenPrevChar) else none
  else some (close ch self)

/-- The value of a digit of a number, also one that is none. -/
def digitValue (ch : Char) : BitVec 32 :=
  if 'a' ≤ ch ∧ ch ≤ 'f' then BitVec.ofNat 32 (ch.toNat - 'a'.toNat + 10)
  else if 'A' ≤ ch ∧ ch ≤ 'F' then BitVec.ofNat 32 (ch.toNat - 'A'.toNat + 10)
  else BitVec.ofNat 32 ch.toNat - BitVec.ofNat 32 '0'.toNat

/-- `token_spec_number`, of which only the low word is returned. -/
def tokenSpecNumber (string : List Char) (shift : Nat) : BitVec 32 :=
  string.foldl (fun v ch => (v <<< shift) ||| digitValue ch) 0

def tokenProcEscape : Char × Lexer :=
  let (ch, self) := self.tokenNextChar
  let number (digits : List Char) (shift : Nat) : Char :=
    Char.ofNat ((digits.foldl (fun v ch => (v <<< shift) + (digitValue ch).toNat) 0) % 256)
  match stringEscapes.lookup ch with
  | some result => (result, self)
  | none =>
    if ch = 'x' ∨ ch = 'X' then
      let (ch, self) := self.tokenNextChar
      let (digits, _, self) := self.scanLine isXdigit ch
      (number digits 4, self.tokenPrevChar)
    else if isOctal ch then
      let (digits, _, self) := self.scanLine isOctal ch
      (number digits 3, self.tokenPrevChar)
    else ('\x00', self)

/-- `token_proc_string` from a place in the buffer on, up to its end. -/
def procString : Nat → List Char → Lexer → Option Lexer
  | 0, _, _ => none
  | room + 1, str, self =>
    let (ch, self) := self.tokenNextChar
    if self.eof then some ((self.putString str).setError .unexpectEnd)
    else if ch = '\\' then
      let (ch, self) := self.tokenProcEscape
      procString room (str ++ [ch]) self
    else if ch = '"' then some (self.putString (str ++ ['\x00']))
    else procString room (str ++ [ch]) self

def tokenProcString : Option Lexer := procString finshStringMax [] self

def setToken (t : TokenType) : Lexer := { self with currentToken := t }

/-- The end of `token_proc_number`. -/
def numberEnd (value : BitVec 32) (ch : Char) : Lexer :=
  let self := { self with value := value }
  if ch = 'l' ∨ ch = 'L' then self.setToken .valueLong
  else self.tokenPrevChar.setToken .valueInt

/-- The digits behind a `0`, in a buffer of 128 characters. -/
def specNumber (p : Char → Bool) (shift : Nat) (ch : Char) : Option Lexer :=
  let (buf, last, self) := self.scanLine p ch
  if buf.length < 128 then some (self.numberEnd (tokenSpecNumber buf shift) last) else none

def tokenProcNumber : Option Lexer :=
  let (ch, self) := self.tokenNextChar
  if ch = '0' then
    let (ch, self) := self.tokenNextChar
    if ch = 'x' ∨ ch = 'X' then
      let (ch, self) := self.tokenNextChar
      self.specNumber (fun ch => isDigit ch || isAlpha ch) 4 ch
    else if ch = 'b' ∨ ch = 'B' then
      let (ch, self) := self.tokenNextChar
      self.specNumber (fun ch => ch = '0' || ch = '1') 1 ch
    else if isOctal ch then self.specNumber isOctal 3 ch
    else some ({ self.tokenPrevChar with value := 0 }.setToken .valueInt)
  else
    let (digits, last, self) := self.scanLine isDigit ch
    some (self.numberEnd (digits.foldl (fun v ch => v * 10 + digitValue ch) 0) last)

/-- An operator of one character or two. -/
def operator (second : Char) (double single : TokenType) : Lexer :=
  let (ch, self) := self.tokenNextChar
  if ch = second then self.setToken double else self.tokenPrevChar.setToken single

/-- The `switch` of `token_run`. -/
def tokenSwitch : Option Lexer :=
  let (ch, self) := self.tokenNextChar
  match ch with
  | '(' => some (self.setToken .leftParen)
  | ')' => some (self.setToken .rightParen)
  | ',' => some (self.setToken .comma)
  | ';' => some (self.setToken .semicolon)
  | '&' => some (self.setToken .and)
  | '*' => some (self.setToken .mul)
  | '+' => some (self.operator '+' .inc .add)
  | '-' => some (self.operator '-' .dec .sub)
  | '/' => some (self.operator '/' .eof .div)
  | '<' => some (self.operator '<' .shl .bad)
  | '>' => some (self.operator '>' .shr .bad)
  | '|' => some (self.setToken .or)
  | '%' => some (self.setToken .mod)
  | '~' => some (self.setToken .bitwise)
  | '^' => some (self.setToken .xor)
  | '=' => some (self.setToken .assign)
  | '\'' => self.tokenProcChar.map fun (ch, self) =>
      { self with value := BitVec.ofNat 32 ch.toNat }.setToken .valueChar
  | '"' => self.tokenProcString.map (·.setToken .valueString)
  | _ =>
    if isDigit ch then self.tokenPrevChar.tokenProcNumber
    else some ((self.setError .unknownToken).setToken .bad)

def tokenRun : Option Lexer :=
  let self := { self with error := none }
  self.tokenTrimSpace.tokenGetString.bind fun self =>
    if self.eof then some (self.setToken .eof)
    else if self.text ≠ [] then some (self.setToken ((tokenMatchName self.text).getD .identifier))
    else self.tokenSwitch

end Lexer

/-- `finsh_token_init` -/
def finshTokenInit (line : List Char) : Lexer := { line := line }

/-- What the parser sees of a token. -/
structure Token where
  type : TokenType
  value : BitVec 32 := 0
  text : List Char := []
  error : Option FinshError := none
  deriving DecidableEq, Repr

def Lexer.token (self : Lexer) : Token := ⟨self.currentToken, self.value, self.text, self.error⟩

/-- The state after so many calls of `token_run`. -/
def lexerAt (line : List Char) : Nat → Option Lexer
  | 0 => some (finshTokenInit line)
  | n + 1 => (lexerAt line n).bind Lexer.tokenRun

/-- The tokens of a line, from the first one on. -/
def tokenAt (line : List Char) (i : Nat) : Option Token := (lexerAt line (i + 1)).map Lexer.token

/-- The line has started again by then. -/
def restartedAt (line : List Char) (i : Nat) : Bool := (lexerAt line i).any Lexer.restarted

/-! ## Every token takes something off the line -/

namespace Lexer

/-- So many characters have been read at least, or the end has been, or the line is to start
again. -/
structure Reads (k : Nat) (s s' : Lexer) : Prop where
  line : s'.line = s.line
  restarted : s.restarted = true → s'.restarted = true
  position : s'.restarted = true ∨ s'.eof = true ∨
    s'.eof = false ∧ s.position + k ≤ s'.position ∧ s'.position ≤ s.line.length

section
variable {k m : Nat} {s s₁ s₂ : Lexer} {p : Char → Bool}

theorem Reads.refl (h : s.restarted = true ∨ s.position ≤ s.line.length) : Reads 0 s s := by
  refine ⟨rfl, id, h.imp_right fun hle => ?_⟩
  cases heof : s.eof with
  | true => exact .inl rfl
  | false => exact .inr ⟨rfl, Nat.le_refl _, hle⟩

theorem Reads.mono (h : Reads k s s₁) (hle : m ≤ k) : Reads m s s₁ :=
  ⟨h.line, h.restarted, h.position.imp_right fun hp => hp.imp_right fun ⟨heof, hk, hlen⟩ =>
    ⟨heof, by omega, hlen⟩⟩

/-- Only the place counts. -/
theorem Reads.congr (h : Reads k s s₁) (hline : s₂.line = s₁.line) (heof : s₂.eof = s₁.eof)
    (hposition : s₂.position = s₁.position) (hrestarted : s₂.restarted = s₁.restarted) :
    Reads k s s₂ :=
  ⟨hline.trans h.line, fun hr => hrestarted.trans (h.restarted hr), by
    rw [heof, hposition, hrestarted]
    exact h.position⟩

theorem Reads.next (h : Reads k s s₁) : Reads (k + 1) s s₁.tokenNextChar.2 := by
  obtain ⟨hline, hrestarted, hposition⟩ := h
  have hkept : s₁.tokenNextChar.2.line = s₁.line ∧
      s₁.tokenNextChar.2.restarted = s₁.restarted := by
    unfold tokenNextChar
    split
    · exact ⟨rfl, rfl⟩
    · split
      · exact ⟨rfl, rfl⟩
      · split <;> exact ⟨rfl, rfl⟩
  refine ⟨hkept.1.trans hline, fun hr => hkept.2.trans (hrestarted hr), ?_⟩
  rw [hkept.2]
  refine hposition.imp_right fun hp => ?_
  unfold tokenNextChar
  rcases hp with heof | ⟨heof, hk, -⟩
  · rw [if_pos heof]
    exact .inl heof
  · rw [if_neg (by rw [heof]; exact Bool.false_ne_true)]
    split
    · exact .inl rfl
    · rename_i ch hch
      split
      · exact .inl rfl
      · have hlt := (List.getElem?_eq_some_iff.mp hch).1
        rw [hline] at hlt
        exact .inr ⟨heof, by dsimp only; omega, hlt⟩

theorem Reads.prev (h : Reads (k + 1) s s₁) : Reads k s s₁.tokenPrevChar := by
  obtain ⟨hline, hrestarted, hposition⟩ := h
  unfold tokenPrevChar
  cases heof : s₁.eof with
  | true =>
    rw [if_pos rfl]
    exact ⟨hline, hrestarted, .inr (.inl heof)⟩
  | false =>
    rw [if_neg Bool.false_ne_true]
    refine ⟨hline, hrestarted, hposition.imp_right fun hp => .inr ?_⟩
    obtain ⟨-, hk, hlen⟩ := hp.resolve_left (by rw [heof]; exact Bool.false_ne_true)
    dsimp only
    exact ⟨rfl, by omega, by omega⟩

theorem Reads.scan {c : Char} (fuel : Nat) (h : Reads k s s₁) :
    Reads (k + (scan p fuel c s₁).1.length) s (scan p fuel c s₁).2.2 := by
  induction fuel generalizing c s₁ k with
  | zero => exact h
  | succ fuel ih =>
    unfold Lexer.scan
    split
    · refine (ih h.next).mono ?_
      rw [List.length_cons]
      omega
    · exact h

theorem Reads.scanLine {c : Char} (h : Reads k s s₁) :
    Reads (k + (s₁.scanLine p c).1.length) s (s₁.scanLine p c).2.2 := h.scan _

theorem Reads.putString (h : Reads k s s₁) (str : List Char) : Reads k s (s₁.putString str) :=
  h.congr rfl rfl rfl rfl

theorem Reads.setToken (h : Reads k s s₁) (t : TokenType) : Reads k s (s₁.setToken t) :=
  h.congr rfl rfl rfl rfl

theorem Reads.setError (h : Reads k s s₁) (e : FinshError) : Reads k s (s₁.setError e) :=
  h.congr rfl rfl rfl rfl

theorem Reads.trim (h : Reads k s s₁) : Reads k s s₁.tokenTrimSpace :=
  (h.next.scanLine.mono (by omega)).prev

/-- A name has been read, if there is any. -/
theorem Reads.getString (h : Reads 0 s s₁) (hget : s₁.tokenGetString = some s₂) :
    Reads (if s₂.text = [] then 0 else 1) s s₂ := by
  unfold tokenGetString at hget
  dsimp only at hget
  have hnext : Reads 1 s s₁.tokenNextChar.2 := h.next
  generalize s₁.tokenNextChar = r at hget hnext
  split at hget
  · rename_i heof
    obtain rfl := Option.some.inj hget
    exact ⟨hnext.line, hnext.restarted, .inr (.inl heof)⟩
  · split at hget
    · obtain rfl := Option.some.inj hget
      have hempty : ((r.2.putString ['\x00']).tokenPrevChar).text = [] := by
        unfold tokenPrevChar
        split <;> rfl
      rw [if_pos hempty]
      exact (hnext.putString _).prev
    · have hscan := (hnext.putString ['\x00']).scanLine (p := fun ch => !isSeparator ch)
        (c := r.1)
      generalize (r.2.putString ['\x00']).scanLine (fun ch => !isSeparator ch) r.1 = q at hget hscan
      obtain ⟨name, last, s₃⟩ := q
      dsimp only at hget hscan
      obtain ⟨-, hget⟩ := Option.ite_none_right_eq_some.mp hget
      obtain rfl := Option.some.inj hget
      have hclear : Reads (name.length + 1) s
          { s₃ with eof := false, restarted := s₃.restarted || s₃.eof } := by
        refine ⟨hscan.line, fun hr => by rw [hscan.restarted hr]; rfl, ?_⟩
        rcases hscan.position with hr | heof | ⟨heof, hk, hlen⟩
        · exact .inl (by change (s₃.restarted || s₃.eof) = true; rw [hr]; rfl)
        · exact .inl (by change (s₃.restarted || s₃.eof) = true; rw [heof]; exact Bool.or_true _)
        · exact .inr (.inr ⟨rfl, by change _ ≤ s₃.position; omega, hlen⟩)
      refine (hclear.prev.putString _).mono ?_
      cases name with
      | nil =>
        have hempty : (({ s₃ with eof := false, restarted := s₃.restarted || s₃.eof } :
            Lexer).tokenPrevChar.putString ([] ++ ['\x00'])).text = [] := rfl
        rw [if_pos hempty]
        exact Nat.zero_le _
      | cons ch name =>
        rw [List.length_cons]
        split <;> omega

theorem Reads.procChar {ch : Char} (h : Reads 1 s s₁)
    (hproc : s₁.tokenProcChar = some (ch, s₂)) : Reads 1 s s₂ := by
  have hclose : ∀ {s₁ s₂ : Lexer} {ch ch' : Char}, Reads 1 s s₁ →
      (if s₁.tokenNextChar.1 ≠ '\'' then
        (ch, s₁.tokenNextChar.2.tokenPrevChar.setError .expectChar)
      else (ch, s₁.tokenNextChar.2)) = (ch', s₂) → Reads 1 s s₂ := by
    intro s₁ s₂ ch ch' h heq
    split at heq
    · obtain ⟨-, rfl⟩ := Prod.mk.inj heq
      exact h.next.prev.setError _
    · obtain ⟨-, rfl⟩ := Prod.mk.inj heq
      exact h.next.mono (by omega)
  unfold tokenProcChar at hproc
  dsimp only at hproc
  split at hproc
  · split at hproc
    · exact hclose (h.next.next.mono (by omega)) (Option.some.inj hproc)
    · obtain ⟨-, hproc⟩ := Option.ite_none_right_eq_some.mp hproc
      exact hclose ((h.next.next.scanLine.mono (by omega : 2 ≤ _)).prev) (Option.some.inj hproc)
  · exact hclose (h.next.mono (by omega)) (Option.some.inj hproc)

theorem Reads.escape (h : Reads 1 s s₁) : Reads 1 s s₁.tokenProcEscape.2 := by
  unfold tokenProcEscape
  dsimp only
  split
  · exact h.next.mono (by omega)
  · split
    · exact (h.next.next.scanLine.mono (by omega : 2 ≤ _)).prev
    · split
      · exact (h.next.scanLine.mono (by omega : 2 ≤ _)).prev
      · exact h.next.mono (by omega)

theorem Reads.procString {room : Nat} {str : List Char} (h : Reads 1 s s₁)
    (hproc : Lexer.procString room str s₁ = some s₂) : Reads 1 s s₂ := by
  induction room generalizing str s₁ with
  | zero => cases hproc
  | succ room ih =>
    have hnext : Reads 1 s s₁.tokenNextChar.2 := h.next.mono (by omega)
    unfold Lexer.procString at hproc
    dsimp only at hproc
    split at hproc
    · obtain rfl := Option.some.inj hproc
      exact (hnext.putString _).setError _
    · split at hproc
      · exact ih hnext.escape hproc
      · split at hproc
        · obtain rfl := Option.some.inj hproc
          exact hnext.putString _
        · exact ih hnext hproc

theorem Reads.numberEnd {value : BitVec 32} {ch : Char} (h : Reads (k + 1) s s₁) :
    Reads k s (s₁.numberEnd value ch) := by
  unfold Lexer.numberEnd
  dsimp only
  have hvalue : Reads (k + 1) s { s₁ with value := value } := h.congr rfl rfl rfl rfl
  split
  · exact (hvalue.mono (Nat.le_succ k)).setToken _
  · exact hvalue.prev.setToken _

theorem Reads.specNumber {shift : Nat} {ch : Char} (h : Reads 2 s s₁)
    (hspec : s₁.specNumber p shift ch = some s₂) : Reads 1 s s₂ := by
  unfold Lexer.specNumber at hspec
  obtain ⟨-, hspec⟩ := Option.ite_none_right_eq_some.mp hspec
  obtain rfl := Option.some.inj hspec
  exact (h.scanLine.mono (by omega : 2 ≤ _)).numberEnd

/-- The first character of a number is a digit, and is read. -/
theorem Reads.procNumber (h : Reads 0 s s₁) (hdigit : isDigit s₁.tokenNextChar.1 = true)
    (hproc : s₁.tokenProcNumber = some s₂) : Reads 1 s s₂ := by
  have hnext : Reads 1 s s₁.tokenNextChar.2 := h.next
  unfold tokenProcNumber at hproc
  dsimp only at hproc
  generalize s₁.tokenNextChar = r at hproc hnext hdigit
  split at hproc
  · split at hproc
    · exact (hnext.next.next.mono (by omega)).specNumber hproc
    · split at hproc
      · exact (hnext.next.next.mono (by omega)).specNumber hproc
      · split at hproc
        · exact hnext.next.specNumber hproc
        · obtain rfl := Option.some.inj hproc
          exact hnext.next.prev.congr rfl rfl rfl rfl
  · obtain rfl := Option.some.inj hproc
    have hscan := hnext.scanLine (p := isDigit) (c := r.1)
    have hone : 1 ≤ (r.2.scanLine isDigit r.1).1.length := by
      unfold Lexer.scanLine Lexer.scan
      rw [if_pos hdigit]
      exact Nat.succ_pos _
    exact (hscan.mono (by omega : 2 ≤ _)).numberEnd

/-- A character that has been put back is read again. -/
theorem next_prev_next (heof : s.tokenNextChar.2.eof = false) :
    s.tokenNextChar.2.tokenPrevChar.tokenNextChar = s.tokenNextChar := by
  unfold tokenNextChar at heof
  split at heof
  · rename_i hend
    exact absurd (hend.symm.trans heof) (by decide)
  · rename_i hopen
    split at heof
    · cases heof
    · rename_i ch hch
      split at heof
      · cases heof
      · rename_i hline
        have hnext : s.tokenNextChar = (ch, { s with position := s.position + 1 }) := by
          unfold tokenNextChar
          rw [if_neg hopen, hch]
          exact if_neg hline
        have hprev : ({ s with position := s.position + 1 } : Lexer).tokenPrevChar = s := by
          unfold tokenPrevChar
          rw [if_neg hopen]
          rfl
        rw [hnext, hprev, hnext]

/-- No character is read where the line ends. -/
theorem eof_of_char (h : s.tokenNextChar.1 ≠ '\x00') : s.tokenNextChar.2.eof = false := by
  unfold tokenNextChar at h ⊢
  split
  · rename_i heof
    rw [if_pos heof] at h
    exact absurd rfl h
  · rename_i heof
    rw [if_neg heof] at h
    split
    · rename_i hnone
      rw [hnone] at h
      exact absurd rfl h
    · rename_i ch hch
      rw [hch] at h
      dsimp only at h
      split
      · rename_i hline
        rw [if_pos hline] at h
        exact absurd rfl h
      · exact Bool.eq_false_of_not_eq_true heof

theorem Reads.operator {second : Char} {double single : TokenType} (h : Reads 1 s s₁) :
    Reads 1 s (s₁.operator second double single) := by
  unfold Lexer.operator
  dsimp only
  split
  · exact (h.next.mono (by omega)).setToken _
  · exact h.next.prev.setToken _

theorem Reads.tokenSwitch (h : Reads 0 s s₁) (hrun : s₁.tokenSwitch = some s₂) : Reads 1 s s₂ := by
  have hnext : Reads 1 s s₁.tokenNextChar.2 := h.next
  unfold Lexer.tokenSwitch at hrun
  dsimp only at hrun
  split at hrun
  case h_17 =>
    obtain ⟨⟨ch, s₃⟩, hproc, rfl⟩ := Option.map_eq_some_iff.mp hrun
    exact (hnext.procChar hproc).congr rfl rfl rfl rfl
  case h_18 =>
    obtain ⟨s₃, hproc, rfl⟩ := Option.map_eq_some_iff.mp hrun
    exact (hnext.procString hproc).setToken _
  case h_19 =>
    split at hrun
    · rename_i hdigit
      have hne : s₁.tokenNextChar.1 ≠ '\x00' := by
        intro hnull
        rw [hnull] at hdigit
        exact absurd hdigit (by decide)
      have hagain := next_prev_next (eof_of_char hne)
      exact hnext.prev.procNumber (by rw [hagain]; exact hdigit) hrun
    · obtain rfl := Option.some.inj hrun
      exact (hnext.setError _).setToken _
  all_goals
    obtain rfl := Option.some.inj hrun
    first | exact hnext.setToken _ | exact hnext.operator

/-- The spec of `token_run`, where the end has not been read. -/
theorem reads_tokenRun (h : s.restarted = true ∨ s.position ≤ s.line.length)
    (hrun : s.tokenRun = some s₂) :
    Reads 1 s s₂ := by
  have hstart : Reads 0 s { s with error := none } := (Reads.refl h).congr rfl rfl rfl rfl
  obtain ⟨s₁, hget, hrun⟩ := Option.bind_eq_some_iff.mp hrun
  have hname := hstart.trim.getString hget
  split at hrun
  · rename_i heof
    obtain rfl := Option.some.inj hrun
    exact ⟨hname.line, hname.restarted, .inr (.inl heof)⟩
  · split at hrun
    · rename_i htext
      obtain rfl := Option.some.inj hrun
      rw [if_neg htext] at hname
      exact hname.setToken _
    · exact (hname.mono (Nat.zero_le _)).tokenSwitch hrun

/-- Behind the end there are no more tokens. -/
theorem tokenRun_eof (h : s.eof = true) :
    s.tokenRun = some ({ s with error := none }.setToken .eof) := by
  have hnext : ({ s with error := none } : Lexer).tokenNextChar =
      ('\x00', { s with error := none }) := if_pos h
  have htrim : ({ s with error := none } : Lexer).tokenTrimSpace = { s with error := none } := by
    unfold tokenTrimSpace
    rw [hnext]
    dsimp only
    unfold Lexer.scanLine Lexer.scan
    rw [if_neg (by decide)]
    exact if_pos h
  have hget :
      ({ s with error := none } : Lexer).tokenGetString = some { s with error := none } := by
    unfold tokenGetString
    rw [hnext]
    exact if_pos h
  unfold Lexer.tokenRun
  dsimp only
  rw [htrim, hget]
  exact if_pos h

end

end Lexer

/-- Every token has taken a character off a line that has not started again and has not ended. -/
theorem position_lexerAt {line : List Char} {i : Nat} {s : Lexer} (h : lexerAt line i = some s)
    (hr : s.restarted = false) (heof : s.eof = false) :
    i ≤ s.position ∧ s.position ≤ line.length ∧ s.line = line := by
  induction i generalizing s with
  | zero =>
    obtain rfl := Option.some.inj h
    exact ⟨Nat.zero_le _, Nat.zero_le _, rfl⟩
  | succ i ih =>
    obtain ⟨s₀, hs₀, hrun⟩ := Option.bind_eq_some_iff.mp h
    have hr₀ : s₀.restarted = false := by
      by_contra hset
      have hset := Bool.eq_true_of_not_eq_false hset
      have hr' := (Lexer.reads_tokenRun (.inl hset) hrun).restarted hset
      exact absurd (hr'.symm.trans hr) (by decide)
    have heof₀ : s₀.eof = false := by
      by_contra hset
      have hset := Bool.eq_true_of_not_eq_false hset
      rw [Lexer.tokenRun_eof hset] at hrun
      obtain rfl := Option.some.inj hrun
      exact absurd (hset.symm.trans heof) (by decide)
    obtain ⟨hpos, hlen, hline⟩ := ih hs₀ hr₀ heof₀
    have hreads := Lexer.reads_tokenRun (.inr (hline ▸ hlen)) hrun
    rcases hreads.position with hset | hset | ⟨-, hlt, hle⟩
    · exact absurd (hset.symm.trans hr) (by decide)
    · exact absurd (hset.symm.trans heof) (by decide)
    · rw [hline] at hle
      exact ⟨by omega, hle, hreads.line.trans hline⟩

/-- So a line ends, unless it starts again. -/
theorem tokenAt_eof {line : List Char} {i : Nat} {t : Token} (h : tokenAt line i = some t)
    (hr : restartedAt line i = false) (hi : line.length < i) : t.type = .eof := by
  obtain ⟨s, hs, rfl⟩ := Option.map_eq_some_iff.mp h
  obtain ⟨s₀, hs₀, hrun⟩ := Option.bind_eq_some_iff.mp hs
  unfold restartedAt at hr
  rw [hs₀] at hr
  cases heof : s₀.eof with
  | true =>
    rw [Lexer.tokenRun_eof heof] at hrun
    obtain rfl := Option.some.inj hrun
    rfl
  | false =>
    have := position_lexerAt hs₀ hr heof
    omega

/-- A line that has started again stays so, as long as its tokens can be read. -/
theorem restartedAt_succ {line : List Char} {i : Nat} {t : Token} (h : tokenAt line i = some t)
    (hr : restartedAt line i = true) : restartedAt line (i + 1) = true := by
  obtain ⟨s, hs, -⟩ := Option.map_eq_some_iff.mp h
  obtain ⟨s₀, hs₀, hrun⟩ := Option.bind_eq_some_iff.mp hs
  unfold restartedAt at hr ⊢
  rw [hs₀] at hr
  rw [hs]
  exact (Lexer.reads_tokenRun (.inl hr) hrun).restarted hr

example : ((List.range 8).map fun i => (tokenAt "a = 0x1F<<b++;".toList i).map Token.type) =
    [some .identifier, some .assign, some .valueInt, some .shl, some .identifier, some .inc,
      some .semicolon, some .eof] := by decide +kernel

example : ((List.range 4).map fun i => (tokenAt "1 ab".toList i).map Token.type) =
    [some .valueInt, some .identifier, some .valueInt, some .identifier] := by decide +kernel

end ControlRTT.Components.FinshToken
