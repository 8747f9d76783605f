import Uncomment.Resolution.Fit
import Uncomment.Resolution.Comment
import Uncomment.Resolution.ParseMemo

/-! # Finding the dialect of a source

The source is parsed under each candidate dialect in order, and the first one that its tree fits
wins. Every grammar parses the source at most once. -/

namespace Uncomment

/-! ## Failed searches -/

structure Attempt where
  dialect : Dialect
  diagnostic : Diagnostic
  deriving DecidableEq

structure SearchFailure where
  attempts : List Attempt
  deriving DecidableEq

namespace SearchFailure

/-- The attempt that failed furthest into the source, of several the last. -/
def furthest? (attempts : List Attempt) : Option Attempt :=
  attempts.foldl
    (fun best attempt =>
      match best with
      | none => some attempt
      | some other =>
          if other.diagnostic.offset ≤ attempt.diagnostic.offset then some attempt
          else some other)
    none

def chosen? (failure : SearchFailure) : FailureChoice → Option Attempt
  | .last => failure.attempts.getLast?
  | .furthest => furthest? failure.attempts

def message (failure : SearchFailure) (choice : FailureChoice) : String :=
  match failure.chosen? choice with
  | some attempt => attempt.diagnostic.display
  | none => "no dialect was attempted"

end SearchFailure

/-! ## Resolutions -/

structure Resolution where
  dialect : Dialect
  tree : Tree
  sourceKind : SourceKind
  comments : List Comment
  deriving DecidableEq

namespace Resolution

def attempt (source : Text) (options : ParseOptions) (dialect : Dialect) (answer : Option Tree) :
    Except Attempt Resolution :=
  match answer with
  | none => .error ⟨dialect, .ofWhole (.noTree dialect.grammar)⟩
  | some tree =>
      match tree.fit source dialect options with
      | .ok sourceKind => .ok ⟨dialect, tree, sourceKind, tree.comments source⟩
      | .error diagnostic => .error ⟨dialect, diagnostic⟩

def search (parse : Parser) (source : Text) (options : ParseOptions) (memo : ParseMemo)
    (failed : List Attempt) : List Dialect → Except SearchFailure Resolution
  | [] => .error ⟨failed⟩
  | dialect :: rest =>
      let (answer, memo) := memo.ask parse source dialect.grammar
      match attempt source options dialect answer with
      | .ok resolved => .ok resolved
      | .error failure => search parse source options memo (failed ++ [failure]) rest

/-- Find the dialect of a source: the given one, or else the first of the default dialects that it
fits. -/
def find (parse : Parser) (source : Text) (dialect : Option Dialect) (options : ParseOptions) :
    Except SearchFailure Resolution :=
  match dialect with
  | some dialect => search parse source options .empty [] [dialect]
  | none => search parse source options .empty [] Dialect.defaults

end Resolution

end Uncomment
