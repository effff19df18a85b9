import BranchBound.Json.Basic

/-! # Types with a JSON form

A `JsonForm` says how the values of a type are read from JSON and written to it. The forms here are
those of simple values, of lists and of values that may be absent; `record?` and `variant?` take
apart the forms of structures and of alternatives. -/

namespace BranchBound

/-- How a type is read from JSON and written to it. -/
structure JsonForm (β : Type) where
  /-- The value that a JSON value stands for. -/
  read : Json → Option β
  /-- The JSON value of a value. -/
  write : β → Json

namespace JsonForm

variable {α : Type} [Scalar α]

/-- Natural numbers below a limit. -/
def word (limit : Nat) : JsonForm Nat where
  read
    | .number n => n.toWord? limit
    | _ => none
  write := Json.ofNat

/-- Scalars; a value that is not finite is written as the empty value, which is not read back. -/
def scalar : JsonForm α where
  read
    | .number n => Scalar.ofNumeral? n
    | _ => none
  write := Json.ofScalar

/-- Truth values. -/
def bool : JsonForm Bool where
  read
    | .bool b => some b
    | _ => none
  write := .bool

/-- Strings. -/
def string : JsonForm String where
  read
    | .text s => s
    | _ => none
  write := Json.ofString

/-- Values that may be absent: the empty value stands for absence. -/
def optional {β : Type} (form : JsonForm β) : JsonForm (Option β) where
  read
    | .null => some none
    | j => (form.read j).map some
  write := Json.ofOption form.write

/-- Lists. -/
def list {β : Type} (form : JsonForm β) : JsonForm (List β) where
  read
    | .array items => items.mapM form.read
    | _ => none
  write items := .array (items.map form.write)

/-- Values that have names. -/
def named {β : Type} (ofName? : String → Option β) (name : β → String) : JsonForm β where
  read j := string.read j >>= ofName?
  write x := Json.ofString (name x)

end JsonForm

namespace Json

/-- The parts of a structure, in the order of their names. A structure is an object, whose members
have distinct names and may come in any order with others between them, or an array of all its
parts. A part that an object does not have is `none`. -/
def record? (names : List String) : Json → Option (List (Option Json))
  | .object members =>
      let values := names.map fun name => (members.filter (·.1 = some name)).map (·.2)
      if members.all (·.1.isSome) && values.all (·.length ≤ 1) then some (values.map (·.head?))
      else none
  | .array items => if items.length = names.length then some (items.map some) else none
  | _ => none

/-- The names of an object that are not among the given ones do not exist; arrays have no names. -/
def hasOnly (names : List String) : Json → Bool
  | .object members => members.all fun (name, _) => name.any names.contains
  | _ => true

/-- The name of an alternative and what comes with it: an object with one member. -/
def variant? : Json → Option (String × Json)
  | .object [(some name, value)] => some (name, value)
  | _ => none

/-- The name of an alternative that nothing comes with: a string, or an object with one empty
member. -/
def unitVariant? : Json → Option String
  | .text (some name) => some name
  | .object [(some name, .null)] => some name
  | _ => none

/-- An alternative with what comes with it. -/
def ofVariant (name : String) (value : Json) : Json := .ofMembers [(name, value)]

end Json

end BranchBound
