import BranchBound.Scalar.Scaling

/-! # JSON values

The values a JSON text can hold. Whatever a reader may want to refuse stays visible: the members of
an object are kept in order, with all repetitions; a number keeps the form it was written in; and a
string whose escapes leave a surrogate without its partner has no value. -/

namespace BranchBound

/-- A JSON value. -/
inductive Json
  /-- The empty value. -/
  | null
  /-- A truth value. -/
  | bool (value : Bool)
  /-- A number. -/
  | number (value : Numeral)
  /-- A string; `none` if its escapes leave a surrogate without its partner. -/
  | text (value : Option String)
  /-- A list of values. -/
  | array (items : List Json)
  /-- A list of names with values. -/
  | object (members : List (Option String × Json))
  deriving Repr, Inhabited

namespace Json

/-- A string. -/
def ofString (s : String) : Json := .text (some s)

/-- A natural number. -/
def ofNat (n : Nat) : Json := .number (.ofNat n)

/-- A number; values that are not finite have no numeral and become empty. -/
def ofScalar {α : Type} [Scalar α] (x : α) : Json :=
  if Scalar.isFinite x then .number (Layout.wire.numeral (Scalar.toDecimal Layout.wire.tie x))
  else .null

/-- A value that may be absent. -/
def ofOption {β : Type} (encode : β → Json) : Option β → Json
  | some x => encode x
  | none => .null

/-- An object with the given members. -/
def ofMembers (members : List (String × Json)) : Json :=
  .object (members.map fun (name, value) => (some name, value))

/-- The number of arrays and objects around the innermost value. -/
def depth : Json → Nat
  | null | bool _ | number _ | text _ => 0
  | array items => depthOfItems items + 1
  | object members => depthOfMembers members + 1
where
  /-- The greatest depth of the items of an array. -/
  depthOfItems : List Json → Nat
    | [] => 0
    | item :: rest => max item.depth (depthOfItems rest)
  /-- The greatest depth of the members of an object. -/
  depthOfMembers : List (Option String × Json) → Nat
    | [] => 0
    | (_, value) :: rest => max value.depth (depthOfMembers rest)

/-- Whether every number fits the type `α` and every string has a value. -/
def isStorable (α : Type) [Scalar α] : Json → Bool
  | null | bool _ => true
  | number n => (Scalar.ofNumeral? n : Option α).isSome
  | text value => value.isSome
  | array items => itemsStorable items
  | object members => membersStorable members
where
  /-- Whether all items of an array are storable. -/
  itemsStorable : List Json → Bool
    | [] => true
    | item :: rest => item.isStorable α && itemsStorable rest
  /-- Whether all names and values of an object are storable. -/
  membersStorable : List (Option String × Json) → Bool
    | [] => true
    | (name, value) :: rest => name.isSome && value.isStorable α && membersStorable rest

end Json

end BranchBound
