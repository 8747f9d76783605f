import Uncomment.Resolution.Search
import Uncomment.Span.Erasure
import Uncomment.Text.Utf8

/-! # Stripping comments

Every comment of a source's tree is erased and every other byte is kept. White space around a
comment stays, so a line that holds only a comment becomes an empty one. -/

namespace Uncomment

structure StripOptions where
  /-- The name of the source in messages and source maps. -/
  filename : Option String := none
  /-- The only dialect to try, in place of the default search. -/
  dialect : Option Dialect := none
  parse : ParseOptions := {}
  failureChoice : FailureChoice := .last
  deriving DecidableEq

namespace StripOptions

def defaultFilename : String := "input"

def sourceName (options : StripOptions) : String :=
  options.filename.getD defaultFilename

end StripOptions

structure Stripped where
  code : Text
  /-- The number of comments found, those that could not be cut included. -/
  commentCount : Nat
  removedBytes : Nat
  /-- The bytes of the source that were cut, in ascending order. -/
  removed : List Span
  deriving DecidableEq, Repr

inductive StripFailure
  | notText (cause : Utf8Error)
  | unresolved (filename : String) (choice : FailureChoice) (cause : SearchFailure)
  deriving DecidableEq

namespace StripFailure

def message : StripFailure → String
  | .notText cause => "input is not text: " ++ cause.message
  | .unresolved filename choice cause =>
      "Failed to parse " ++ filename ++ ": " ++ cause.message choice

def attempts : StripFailure → List Attempt
  | .notText _ => []
  | .unresolved _ _ cause => cause.attempts

end StripFailure

def Stripped.ofComments (source : Text) (comments : List Comment) : Stripped :=
  if comments.isEmpty then
    { code := source, commentCount := 0, removedBytes := 0, removed := [] }
  else
    let erasure := source.erase (Span.sort (comments.map (·.span)))
    { code := erasure.remainder
      commentCount := comments.length
      removedBytes := erasure.removedBytes
      removed := erasure.removed }

def strip (parse : Parser) (source : Text) (options : StripOptions) :
    Except StripFailure Stripped :=
  match Resolution.find parse source options.dialect options.parse with
  | .ok resolution => .ok (.ofComments source resolution.comments)
  | .error cause => .error (.unresolved options.sourceName options.failureChoice cause)

def stripBytes (parse : Parser) (bytes : Bytes) (options : StripOptions) :
    Except StripFailure Stripped :=
  match Text.decode bytes with
  | .ok source => strip parse source options
  | .error cause => .error (.notText cause)

/-- The results of stripping a source and then each result again, at most `rounds` times in all. The
last one found no comment, or failed, or came in the last round. -/
def stripRepeatedly (parse : Parser) (options : StripOptions) :
    (rounds : Nat) → Text → List (Except StripFailure Stripped)
  | 0, _ => []
  | rounds + 1, source =>
      match strip parse source options with
      | .error error => [.error error]
      | .ok stripped =>
          .ok stripped ::
            if stripped.commentCount = 0 then []
            else stripRepeatedly parse options rounds stripped.code

end Uncomment
