import Uncomment.Grammar
import Uncomment.Text.Basic
import Uncomment.Tree.Basic

/-! # Parsers and their remembered answers

A parser is a function from a source and a grammar to a tree. A memo keeps the answer to the first
question about each grammar and gives it again for every later one, whatever the source. -/

namespace Uncomment

/-- The tree of a source under a grammar, or nothing where the parser gives up. -/
abbrev Parser := Text → Grammar → Option Tree

structure ParseMemo where
  answers : List (Grammar × Option Tree)
  deriving DecidableEq, Repr

namespace ParseMemo

def empty : ParseMemo := ⟨[]⟩

def answer? (memo : ParseMemo) (grammar : Grammar) : Option (Option Tree) :=
  memo.answers.lookup grammar

/-- The answer for a grammar and the memo afterwards. The parser is asked only the first time. -/
def ask (parse : Parser) (source : Text) (grammar : Grammar) (memo : ParseMemo) :
    Option Tree × ParseMemo :=
  match memo.answer? grammar with
  | some answer => (answer, memo)
  | none =>
      let answer := parse source grammar
      (answer, ⟨memo.answers ++ [(grammar, answer)]⟩)

def askAll (parse : Parser) : ParseMemo → List (Text × Grammar) → List (Option Tree)
  | _, [] => []
  | memo, (source, grammar) :: rest =>
      let (answer, memo) := memo.ask parse source grammar
      answer :: askAll parse memo rest

end ParseMemo

end Uncomment
