import BranchBound.Json.Basic

/-! # Tokens of a JSON text

A JSON text is a sequence of tokens with white space between them. This module takes a text apart
into tokens and writes tokens out.

* **`tokens cs`** — the tokens of a text, if it is made of tokens.
* **`scanToken c rest`** — the token that starts with `c`, and what is left of the text after it.
* **`Token.characters`** — the text of a token.

Every scanner answers the rest of the text after what it took; that this rest is no longer than what
the scanner was given (`scanToken_length`) makes the whole scan end. -/

namespace BranchBound.Json

/-- A token. -/
inductive Token
  /-- Opens an object. -/
  | openObject
  /-- Closes an object. -/
  | closeObject
  /-- Opens an array. -/
  | openArray
  /-- Closes an array. -/
  | closeArray
  /-- Stands between a name and its value. -/
  | colon
  /-- Stands between values. -/
  | comma
  /-- The empty value. -/
  | null
  /-- A truth value. -/
  | bool (value : Bool)
  /-- A number. -/
  | number (value : Numeral)
  /-- A string. -/
  | text (value : Option String)
  deriving DecidableEq, Repr, Inhabited

/-- Whether a character may stand between tokens. -/
def isSpace (c : Char) : Bool := c = ' ' || c = '\n' || c = '\t' || c = '\r'

/-! ## Numbers -/

/-- The digits at the front of a text and the rest of it. -/
def takeDigits (cs : List Char) : List Char × List Char :=
  (cs.takeWhile Char.isDigit, cs.dropWhile Char.isDigit)

/-- The digits at the front of a text, of which there must be one at least. -/
def takeSomeDigits (cs : List Char) : Option (List Char × List Char) :=
  match takeDigits cs with
  | ([], _) => none
  | (digits, rest) => some (digits, rest)

/-- The whole part of a number: a zero stands alone. -/
def takeWhole : List Char → Option (List Char × List Char)
  | '0' :: rest => some (['0'], rest)
  | cs => takeSomeDigits cs

/-- The digits after the point of a number, if there is a point. -/
def takePlaces : List Char → Option (List Char × List Char)
  | '.' :: rest => takeSomeDigits rest
  | cs => some ([], cs)

/-- A whole number with or without a sign. -/
def takeSigned : List Char → Option (Int × List Char)
  | '-' :: rest => (takeSomeDigits rest).map fun (digits, rest) => (-natOfDigits digits, rest)
  | '+' :: rest => (takeSomeDigits rest).map fun (digits, rest) => (natOfDigits digits, rest)
  | cs => (takeSomeDigits cs).map fun (digits, rest) => (natOfDigits digits, rest)

/-- The power of ten of a number, if there is one: a letter and a whole number. -/
def takeShift : List Char → Option (Option Int × List Char)
  | 'e' :: rest | 'E' :: rest => (takeSigned rest).map fun (shift, rest) => (some shift, rest)
  | cs => some (none, cs)

/-- A number without its sign. -/
def scanUnsigned (negative : Bool) (cs : List Char) : Option (Token × List Char) := do
  let (whole, cs) ← takeWhole cs
  let (places, cs) ← takePlaces cs
  let (shift, cs) ← takeShift cs
  return (.number ⟨negative, whole, places, shift⟩, cs)

/-! ## Strings -/

/-- The value of a hexadecimal digit. -/
def hexDigit? (c : Char) : Option Nat :=
  if '0' ≤ c ∧ c ≤ '9' then some (c.toNat - '0'.toNat)
  else if 'a' ≤ c ∧ c ≤ 'f' then some (c.toNat - 'a'.toNat + 10)
  else if 'A' ≤ c ∧ c ≤ 'F' then some (c.toNat - 'A'.toNat + 10)
  else none

/-- The character that a single letter after a backslash stands for. -/
def shortEscape? : Char → Option Char
  | '"' => some '"'
  | '\\' => some '\\'
  | '/' => some '/'
  | 'b' => some '\x08'
  | 'f' => some '\x0c'
  | 'n' => some '\n'
  | 'r' => some '\r'
  | 't' => some '\t'
  | _ => none

/-- Where the scan of a string stands. -/
inductive TextMode
  /-- Between characters. -/
  | plain
  /-- After a backslash. -/
  | escape
  /-- Within the four digits of an escape: the digits still to come and the value so far. -/
  | unicode (left value : Nat)
  deriving DecidableEq, Repr

/-- What the scan of a string has found. -/
structure TextScan where
  /-- The characters so far, the last one first. -/
  found : List Char := []
  /-- A first half of a surrogate pair that waits for its second half. -/
  pending : Option Nat := none
  /-- Whether some surrogate was left without its partner. -/
  broken : Bool := false
  /-- Where the scan stands. -/
  mode : TextMode := .plain
  deriving Repr

namespace TextScan

/-- A pending half of a surrogate pair will have no partner. -/
def settle (s : TextScan) : TextScan :=
  if s.pending.isSome then { s with pending := none, broken := true } else s

/-- Takes in a character. -/
def push (s : TextScan) (c : Char) : TextScan :=
  let s := s.settle
  { s with found := c :: s.found, mode := .plain }

/-- Takes in a 16-bit unit: a character, or half of a surrogate pair. -/
def pushUnit (s : TextScan) (unit : Nat) : TextScan :=
  if 0xd800 ≤ unit ∧ unit < 0xdc00 then { s.settle with pending := some unit, mode := .plain }
  else if 0xdc00 ≤ unit ∧ unit < 0xe000 then
    match s.pending with
    | some first =>
        let c := Char.ofNat (0x10000 + (first - 0xd800) * 0x400 + (unit - 0xdc00))
        { s with found := c :: s.found, pending := none, mode := .plain }
    | none => { s with broken := true, mode := .plain }
  else s.push (Char.ofNat unit)

/-- Takes in a character of the text; `none` if it cannot stand there. A quote that ends the string
is not taken in here. -/
def step (s : TextScan) (c : Char) : Option TextScan :=
  match s.mode with
  | .plain =>
      if c = '\\' then some { s with mode := .escape }
      else if c.toNat < 0x20 then none
      else some (s.push c)
  | .escape =>
      if c = 'u' then some { s with mode := .unicode 4 0 }
      else (shortEscape? c).map s.push
  | .unicode left value =>
      (hexDigit? c).map fun digit =>
        let value := value * 16 + digit
        if left ≤ 1 then s.pushUnit value else { s with mode := .unicode (left - 1) value }

/-- The string that was found. -/
def value (s : TextScan) : Option String :=
  if s.settle.broken then none else some (String.ofList s.found.reverse)

end TextScan

/-- Scans a string whose opening quote has been taken. -/
def scanText : TextScan → List Char → Option (Token × List Char)
  | _, [] => none
  | s, c :: rest =>
      if s.mode = .plain ∧ c = '"' then some (.text s.value, rest)
      else
        match s.step c with
        | some s => scanText s rest
        | none => none

/-! ## Tokens -/

/-- Takes the rest of a word whose first letter has been taken. -/
def scanWord (letters : List Char) (token : Token) (cs : List Char) :
    Option (Token × List Char) :=
  if letters.isPrefixOf cs then some (token, cs.drop letters.length) else none

/-- Scans the token that starts with a character. -/
def scanToken (c : Char) (rest : List Char) : Option (Token × List Char) :=
  match c with
  | '\x7b' => some (.openObject, rest)
  | '\x7d' => some (.closeObject, rest)
  | '[' => some (.openArray, rest)
  | ']' => some (.closeArray, rest)
  | ':' => some (.colon, rest)
  | ',' => some (.comma, rest)
  | '"' => scanText {} rest
  | 'n' => scanWord ['u', 'l', 'l'] .null rest
  | 't' => scanWord ['r', 'u', 'e'] (.bool true) rest
  | 'f' => scanWord ['a', 'l', 's', 'e'] (.bool false) rest
  | '-' => scanUnsigned true rest
  | c => if c.isDigit then scanUnsigned false (c :: rest) else none

/-! ## Scanners take from the front -/

/-- Digits that are taken shorten the text. -/
theorem takeSomeDigits_length {cs digits rest : List Char}
    (h : takeSomeDigits cs = some (digits, rest)) : rest.length < cs.length := by
  have hsum := congrArg List.length (List.takeWhile_append_dropWhile (p := Char.isDigit) (l := cs))
  unfold takeSomeDigits at h
  split at h
  · cases h
  · next taken left hne htake =>
    cases h
    simp only [takeDigits, Prod.mk.injEq] at htake
    rw [htake.1, htake.2, List.length_append] at hsum
    have := List.length_pos_iff.2 hne
    omega

/-- A whole part that is taken shortens the text. -/
theorem takeWhole_length {cs whole rest : List Char} (h : takeWhole cs = some (whole, rest)) :
    rest.length < cs.length := by
  unfold takeWhole at h
  split at h
  · cases h; simp
  · exact takeSomeDigits_length h

/-- Digits after a point, if there is one, are taken from the front of the text. -/
theorem takePlaces_length {cs places rest : List Char} (h : takePlaces cs = some (places, rest)) :
    rest.length ≤ cs.length := by
  unfold takePlaces at h
  split at h
  · have := takeSomeDigits_length h
    simp only [List.length_cons]
    omega
  · cases h; exact Nat.le_refl _

/-- A signed whole number is taken from the front of the text. -/
theorem takeSigned_length {cs rest : List Char} {shift : Int}
    (h : takeSigned cs = some (shift, rest)) : rest.length ≤ cs.length := by
  unfold takeSigned at h
  split at h <;>
    (obtain ⟨⟨digits, rest'⟩, hd, heq⟩ := Option.map_eq_some_iff.1 h
     have := takeSomeDigits_length hd
     cases heq
     simp only [List.length_cons] at *
     omega)

/-- A power of ten, if there is one, is taken from the front of the text. -/
theorem takeShift_length {cs rest : List Char} {shift : Option Int}
    (h : takeShift cs = some (shift, rest)) : rest.length ≤ cs.length := by
  unfold takeShift at h
  split at h
  · obtain ⟨⟨signed, rest'⟩, hs, heq⟩ := Option.map_eq_some_iff.1 h
    have := takeSigned_length hs
    cases heq
    simp only [List.length_cons]
    omega
  · obtain ⟨⟨signed, rest'⟩, hs, heq⟩ := Option.map_eq_some_iff.1 h
    have := takeSigned_length hs
    cases heq
    simp only [List.length_cons]
    omega
  · cases h; exact Nat.le_refl _

/-- A number that is taken shortens the text. -/
theorem scanUnsigned_length {negative : Bool} {cs rest : List Char} {t : Token}
    (h : scanUnsigned negative cs = some (t, rest)) : rest.length < cs.length := by
  simp only [scanUnsigned, Option.bind_eq_bind, Option.bind_eq_some_iff] at h
  obtain ⟨⟨whole, cs₁⟩, h₁, ⟨places, cs₂⟩, h₂, ⟨shift, cs₃⟩, h₃, heq⟩ := h
  have := takeWhole_length h₁
  have := takePlaces_length h₂
  have := takeShift_length h₃
  cases heq
  dsimp only at *
  omega

/-- A string is taken from the front of the text. -/
theorem scanText_length {s : TextScan} {cs rest : List Char} {t : Token}
    (h : scanText s cs = some (t, rest)) : rest.length ≤ cs.length := by
  induction cs generalizing s with
  | nil => simp [scanText] at h
  | cons c cs ih =>
      simp only [scanText] at h
      split at h
      · cases h; simp
      · split at h
        · have := ih h
          simp only [List.length_cons]
          omega
        · cases h

/-- A word is taken from the front of the text. -/
theorem scanWord_length {letters cs rest : List Char} {token t : Token}
    (h : scanWord letters token cs = some (t, rest)) : rest.length ≤ cs.length := by
  unfold scanWord at h
  split at h
  · cases h; simp
  · cases h

/-- What is left after a token is no longer than what followed its first character. -/
theorem scanToken_length {c : Char} {cs rest : List Char} {t : Token}
    (h : scanToken c cs = some (t, rest)) : rest.length ≤ cs.length := by
  unfold scanToken at h
  split at h
  iterate 6 (cases h; exact Nat.le_refl _)
  · exact scanText_length h
  iterate 3 exact scanWord_length h
  · exact Nat.le_of_lt (scanUnsigned_length h)
  · split at h
    · have := scanUnsigned_length h
      simp only [List.length_cons] at this
      omega
    · cases h

/-! ## The whole text -/

/-- The tokens of a text; `none` if the text has others. -/
def tokens : List Char → Option (List Token)
  | [] => some []
  | c :: rest =>
      if isSpace c then tokens rest
      else
        match _h : scanToken c rest with
        | some (token, rest) => (tokens rest).map (token :: ·)
        | none => none
termination_by cs => cs.length
decreasing_by
  · simp
  · have := scanToken_length ‹_›
    simp only [List.length_cons]
    omega

/-! ## Writing -/

/-- The hexadecimal digit of a value below sixteen. -/
def hexDigit (n : Nat) : Char := (Nat.toDigits 16 n).headD '0'

/-- A character within a string: quotes, backslashes and control characters are escaped. -/
def escape (c : Char) : List Char :=
  match c with
  | '"' => ['\\', '"']
  | '\\' => ['\\', '\\']
  | '\x08' => ['\\', 'b']
  | '\x0c' => ['\\', 'f']
  | '\n' => ['\\', 'n']
  | '\r' => ['\\', 'r']
  | '\t' => ['\\', 't']
  | c =>
      if c.toNat < 0x20 then
        ['\\', 'u', '0', '0', hexDigit (c.toNat / 16), hexDigit (c.toNat % 16)]
      else [c]

/-- The characters of a token. A string without value is written as the empty one. -/
def Token.characters : Token → List Char
  | openObject => ['\x7b']
  | closeObject => ['\x7d']
  | openArray => ['[']
  | closeArray => [']']
  | colon => [':']
  | comma => [',']
  | null => ['n', 'u', 'l', 'l']
  | bool true => ['t', 'r', 'u', 'e']
  | bool false => ['f', 'a', 'l', 's', 'e']
  | number n => n.characters
  | text value => '"' :: ((value.getD "").toList.flatMap escape ++ ['"'])

end BranchBound.Json
