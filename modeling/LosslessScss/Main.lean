import LosslessScss.CommandLine

/-!
# The executable

Reads the files that a call names, or the standard input, writes the output of the call and
ends with its exit code.
-/

open LosslessScss

/-- The text of a file, if it can be read. -/
def readText? (path : String) : IO (Option String) := do
  try
    return some (← IO.FS.readFile path)
  catch _ =>
    return none

/-- The bytes of a stream up to its end, after those already read. -/
partial def readBytes (stream : IO.FS.Stream) (before : ByteArray) : IO ByteArray := do
  let bytes ← stream.read 65536
  if bytes.isEmpty then return before else readBytes stream (before ++ bytes)

/-- Runs the tool with the given arguments. -/
def main (arguments : List String) : IO UInt32 := do
  let (names, readsInput) :=
    match Arguments.ofList arguments with
    | .ok a => (a.config.toList ++ a.files, a.files.isEmpty)
    | .error _ => ([], false)
  let texts ← names.mapM fun name => return (name, ← readText? name)
  let input ← if readsInput then readBytes (← IO.getStdin) .empty else pure .empty
  let files name := (texts.lookup name).join
  let verdict := CommandLine.run files (String.fromUTF8? input) arguments
  IO.print verdict.output
  return verdict.code.toUInt32
