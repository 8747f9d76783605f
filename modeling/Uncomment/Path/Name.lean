import Uncomment.Text.Basic

/-! # File names

The name of an entry in a directory. -/

namespace Uncomment

/-- A text that can name an entry: not empty, without a slash, and neither of the two names that
every directory has. -/
structure Name where
  text : Text
  isName : text ≠ [] ∧ '/' ∉ text ∧ text ≠ ['.'] ∧ text ≠ ['.', '.']
  deriving DecidableEq

namespace Name

instance : Repr Name where
  reprPrec name _ := repr (String.ofList name.text)

def ofText? (text : Text) : Option Name :=
  if isName : text ≠ [] ∧ '/' ∉ text ∧ text ≠ ['.'] ∧ text ≠ ['.', '.'] then
    some ⟨text, isName⟩
  else
    none

def Before (first second : Name) : Prop :=
  first.text < second.text

instance (first second : Name) : Decidable (first.Before second) :=
  inferInstanceAs (Decidable (first.text < second.text))

theorem before_trans {first second third : Name} (left : first.Before second)
    (right : second.Before third) : first.Before third :=
  List.lt_trans left right

theorem before_of_not_before {first second : Name} (different : first ≠ second)
    (notBefore : ¬first.Before second) : second.Before first := by
  by_cases before : second.Before first
  · exact before
  · have equal := List.le_antisymm before notBefore
    cases first
    cases second
    simp_all

def isHidden (name : Name) : Bool :=
  ['.'].isPrefixOf name.text

def maxBytes : Nat := 255

def isTooLong (name : Name) : Bool :=
  maxBytes < name.text.byteLength

/-! ## Extensions -/

def splitAtLastDot? : Text → Option (Text × Text)
  | [] => none
  | character :: rest =>
      match splitAtLastDot? rest with
      | some (stem, extension) => some (character :: stem, extension)
      | none => if character = '.' then some ([], rest) else none

/-- What follows the last dot of a name. A name whose only dot comes first has no extension. -/
def extension? (name : Name) : Option Text :=
  match splitAtLastDot? name.text with
  | some (_ :: _, extension) => some extension
  | _ => none

def supportedExtensions : List String :=
  ["js", "cjs", "mjs", "jsx", "ts", "tsx", "cts", "mts"]

def isSupported (name : Name) : Bool :=
  name.extension?.any fun extension => supportedExtensions.contains (String.ofList extension)

def contains (part : Text) : Text → Bool
  | [] => part.isEmpty
  | character :: rest => part.isPrefixOf (character :: rest) || contains part rest

end Name

end Uncomment
