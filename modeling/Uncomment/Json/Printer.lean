import Uncomment.Json.Basic

/-! # Printing JSON

A value is printed on one line without blanks, or over several lines with each level indented by two
blanks. An empty array or object has nothing between its brackets either way. -/

namespace Uncomment

namespace Json

/-! ## Strings -/

/-- How a character is written inside quotes: the quote, the backslash and the control characters
are escaped, five of the latter with a letter, and all others stand for themselves. -/
def escape (character : Char) : List Char :=
  if character = '"' then ['\\', '"']
  else if character = '\\' then ['\\', '\\']
  else if character = '\n' then ['\\', 'n']
  else if character = '\r' then ['\\', 'r']
  else if character = '\t' then ['\\', 't']
  else if character.toNat = 8 then ['\\', 'b']
  else if character.toNat = 12 then ['\\', 'f']
  else if character.toNat < 32 then
    let number := character.toNat
    ['\\', 'u', '0', '0', Nat.digitChar (number / 16), Nat.digitChar (number % 16)]
  else [character]

def quote (value : String) : String :=
  "\"" ++ String.ofList (value.toList.flatMap escape) ++ "\""

example : quote "a\"\x1f" = "\"a\\\"\\u001f\"" := by decide +kernel

/-! ## One line -/

mutual

def compact : Json → String
  | .null => "null"
  | .boolean value => toString value
  | .number value => toString value
  | .string value => quote value
  | .array items => "[" ++ ",".intercalate (compactItems items) ++ "]"
  | .object members => "\x7b" ++ ",".intercalate (compactMembers members) ++ "\x7d"

def compactItems : List Json → List String
  | [] => []
  | item :: rest => item.compact :: compactItems rest

def compactMembers : List (String × Json) → List String
  | [] => []
  | (name, value) :: rest => (quote name ++ ":" ++ value.compact) :: compactMembers rest

end

/-! ## Several lines -/

def block (level : Nat) (opening closing : String) : List String → String
  | [] => opening ++ closing
  | lines =>
      opening ++ "\n" ++
        ",\n".intercalate (lines.map fun line => "".pushn ' ' (2 * (level + 1)) ++ line) ++
        "\n" ++ "".pushn ' ' (2 * level) ++ closing

mutual

def prettyAt (level : Nat) : Json → String
  | .null => "null"
  | .boolean value => toString value
  | .number value => toString value
  | .string value => quote value
  | .array items => block level "[" "]" (prettyItems (level + 1) items)
  | .object members => block level "\x7b" "\x7d" (prettyMembers (level + 1) members)

def prettyItems (level : Nat) : List Json → List String
  | [] => []
  | item :: rest => item.prettyAt level :: prettyItems level rest

def prettyMembers (level : Nat) : List (String × Json) → List String
  | [] => []
  | (name, value) :: rest =>
      (quote name ++ ": " ++ value.prettyAt level) :: prettyMembers level rest

end

def pretty (value : Json) : String :=
  value.prettyAt 0

end Json

end Uncomment
