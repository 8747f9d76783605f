/-! # JSON values -/

namespace Uncomment

inductive Json where
  | null
  | boolean (value : Bool)
  | number (value : Nat)
  | string (value : String)
  | array (items : List Json)
  | object (members : List (String × Json))
  deriving Inhabited, Repr

namespace Json

def member? (value : Json) (name : String) : Option Json :=
  match value with
  | .object members =>
      match members.lookup name with
      | some .null => none
      | other => other
  | _ => none

def string? : Json → Option String
  | .string value => some value
  | _ => none

def boolean? : Json → Option Bool
  | .boolean value => some value
  | _ => none

def array? : Json → Option (List Json)
  | .array items => some items
  | _ => none

end Json

end Uncomment
