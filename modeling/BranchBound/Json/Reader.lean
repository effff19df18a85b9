import BranchBound.Json.Token

/-! # Reading JSON texts

A text is read token by token. The reader keeps the arrays and objects that are still open, the
innermost in front, and knows which tokens may come next; it recurses on the tokens and not on the
nesting, so that a deeply nested text is read like any other.

* **`Reader.step r token`** — the reader after a token, if the token may come next.
* **`Json.parse? text`** — the value that a text denotes, if it denotes one. -/

namespace BranchBound.Json

/-- An array or object that is still open, its entries with the last one first. -/
inductive Frame
  /-- An array with the items so far. -/
  | array (items : List Json)
  /-- An object with the members so far and the name of the member that is being read. -/
  | object (members : List (Option String × Json)) (name : Option String)
  deriving Repr

/-- What may come next. -/
inductive Expectation
  /-- A value. -/
  | value
  /-- A value, or the end of the array. -/
  | firstItem
  /-- A name, or the end of the object. -/
  | firstName
  /-- A name. -/
  | name
  /-- The colon after a name. -/
  | colon
  /-- A comma, or the end of the innermost array or object. -/
  | next
  /-- Nothing: the text holds this value. -/
  | done (value : Json)
  deriving Repr

/-- The state of a reader. -/
structure Reader where
  /-- The arrays and objects that are open, the innermost in front. -/
  frames : List Frame
  /-- What may come next. -/
  expects : Expectation
  deriving Repr

namespace Reader

/-- A reader at the start of a text. -/
def start : Reader := ⟨[], .value⟩

/-- Puts a complete value where it belongs. -/
def place (frames : List Frame) (value : Json) : Reader :=
  match frames with
  | [] => ⟨[], .done value⟩
  | .array items :: rest => ⟨.array (value :: items) :: rest, .next⟩
  | .object members name :: rest => ⟨.object ((name, value) :: members) none :: rest, .next⟩

/-- Closes the innermost array. -/
def closeArray (r : Reader) : Option Reader :=
  match r.frames with
  | .array items :: rest => some (place rest (.array items.reverse))
  | _ => none

/-- Closes the innermost object. -/
def closeObject (r : Reader) : Option Reader :=
  match r.frames with
  | .object members _ :: rest => some (place rest (.object members.reverse))
  | _ => none

/-- Reads the first token of a value. -/
def readValue (r : Reader) : Token → Option Reader
  | .openObject => some ⟨.object [] none :: r.frames, .firstName⟩
  | .openArray => some ⟨.array [] :: r.frames, .firstItem⟩
  | .null => some (place r.frames .null)
  | .bool value => some (place r.frames (.bool value))
  | .number value => some (place r.frames (.number value))
  | .text value => some (place r.frames (.text value))
  | .closeObject | .closeArray | .colon | .comma => none

/-- Reads the name of a member. -/
def readName (r : Reader) : Token → Option Reader
  | .text name =>
      match r.frames with
      | .object members _ :: rest => some ⟨.object members name :: rest, .colon⟩
      | _ => none
  | _ => none

/-- Goes on after a comma. -/
def readComma (r : Reader) : Option Reader :=
  match r.frames with
  | .array _ :: _ => some { r with expects := .value }
  | .object .. :: _ => some { r with expects := .name }
  | [] => none

/-- Reads a token; `none` if it cannot come next. -/
def step (r : Reader) (token : Token) : Option Reader :=
  match r.expects, token with
  | .value, token => r.readValue token
  | .firstItem, .closeArray => r.closeArray
  | .firstItem, token => r.readValue token
  | .firstName, .closeObject => r.closeObject
  | .firstName, token | .name, token => r.readName token
  | .colon, .colon => some { r with expects := .value }
  | .next, .comma => r.readComma
  | .next, .closeArray => r.closeArray
  | .next, .closeObject => r.closeObject
  | _, _ => none

/-- The value read, if the text is complete. -/
def result? (r : Reader) : Option Json :=
  match r.expects with
  | .done value => some value
  | _ => none

end Reader

/-- The value that tokens denote. -/
def ofTokens? (tokens : List Token) : Option Json :=
  tokens.foldlM Reader.step Reader.start >>= Reader.result?

/-- The value that a text denotes. -/
def parse? (text : String) : Option Json := tokens text.toList >>= ofTokens?

end BranchBound.Json
