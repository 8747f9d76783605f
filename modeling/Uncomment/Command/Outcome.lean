import Uncomment.CommandLine.Basic
import Uncomment.FileTree.Basic

/-! # Outcomes

What is left when a program has ended. -/

namespace Uncomment

structure Finished where
  exitCode : Nat
  output : String
  errors : String
  files : FileTree

inductive Outcome
  | finished (result : Finished)
  /-- The command line was refused, and nothing was done. -/
  | misused (reason : Interruption)

def unlines (lines : List String) : String :=
  String.join (lines.map (· ++ "\n"))

end Uncomment
