import Uncomment.Command.Strip
import Uncomment.Workspace.Listing

/-! # The strip command as a program

Reads a workspace listing from standard input, strips the sources that the arguments name, and
writes the files that changed. -/

namespace Uncomment

/-- The lines of standard input that belong to a listing. -/
partial def readListing (input : IO.FS.Stream) (listing : Listing) : IO Listing := do
  let line ← input.getLine
  if line.isEmpty then
    return listing.reverse
  match ListingLine.ofText? (line.toList.filter (· ≠ '\n')) with
  | some item => readListing input (item :: listing)
  | none => readListing input listing

end Uncomment

open Uncomment in
def main (arguments : List String) : IO UInt32 := do
  let listing ← readListing (← IO.getStdin) []
  let contents ← listing.files.mapM fun path => do
    return (path, (← IO.FS.readBinFile path.display).toList)
  let before := listing.fileTree contents
  match StripCommand.execute (listing.parser contents) arguments before with
  | .misused _ =>
      IO.eprintln "error: the arguments are not understood, try '--help'"
      return 2
  | .finished result =>
      IO.print result.output
      IO.eprint result.errors
      for (location, content) in before.changes result.files do
        IO.FS.writeBinFile location.path.display (ByteArray.mk content.toArray)
      return UInt32.ofNat result.exitCode
