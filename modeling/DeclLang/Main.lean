import DeclLang.CommandLine

/-!
# The program

Usage: the name of a file. Its declarations are read and its types checked.
-/

open DeclLang.CommandLine

/-- The bytes of a file. -/
def readBytes (filename : String) : IO (Except ReadError ByteArray) := do
  try
    return .ok (← IO.FS.readBinFile filename)
  catch
    | .noFileOrDirectory .. => return .error .notFound
    | e => return .error (.other (toString e))

/-- Prints the report on the call and ends with its exit code. -/
def main (args : List String) : IO UInt32 := do
  let report ← respond readBytes args
  IO.print report.text
  return report.exitCode.toUInt32
