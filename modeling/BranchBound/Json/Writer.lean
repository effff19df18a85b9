import BranchBound.Json.Token

/-! # Writing JSON texts

A value is written without white space, the members of an object in their order. -/

namespace BranchBound.Json

/-- Sequences of tokens with commas between them. -/
def joinTokens : List (List Token) → List Token
  | [] => []
  | [ts] => ts
  | ts :: rest => ts ++ .comma :: joinTokens rest

/-- The tokens of a value. -/
def toTokens : Json → List Token
  | null => [.null]
  | bool value => [.bool value]
  | number value => [.number value]
  | text value => [.text value]
  | array items => .openArray :: (joinTokens (itemTokens items) ++ [.closeArray])
  | object members => .openObject :: (joinTokens (memberTokens members) ++ [.closeObject])
where
  /-- The tokens of each item of an array. -/
  itemTokens : List Json → List (List Token)
    | [] => []
    | item :: rest => item.toTokens :: itemTokens rest
  /-- The tokens of each member of an object. -/
  memberTokens : List (Option String × Json) → List (List Token)
    | [] => []
    | (name, value) :: rest => (.text name :: .colon :: value.toTokens) :: memberTokens rest

/-- The text of a value. -/
def render (j : Json) : String := String.ofList (j.toTokens.flatMap Token.characters)

end BranchBound.Json
