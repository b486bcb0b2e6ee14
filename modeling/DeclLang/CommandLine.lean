import DeclLang.Check

/-!
# The command line

The program checks the file that its first argument names and reports on it. `CommandLine.respond`
says what it prints and whether it succeeds; how a file is read is a parameter.

A file is reported on in full: the diagnostics of a module come before the verdict on its types.
-/

namespace DeclLang.CommandLine

open Typing

/-- Why a file cannot be read. -/
inductive ReadError
  /-- There is none of that name. -/
  | notFound
  /-- Its bytes are no UTF-8. -/
  | notText
  /-- Another reason. -/
  | other (reason : String)
deriving DecidableEq, Repr

/-- The wording of the reason. -/
def ReadError.message : ReadError → String
  | notFound => "No such file or directory (os error 2)"
  | notText => "stream did not contain valid UTF-8"
  | other reason => reason

/-- What the program prints, and how it ends. -/
structure Report where
  /-- The lines. -/
  lines : List String
  /-- The program succeeds. -/
  success : Bool
deriving DecidableEq, Repr

/-- The printed text. -/
def Report.text (r : Report) : String := String.join (r.lines.map (· ++ "\n"))

/-- The exit code. -/
def Report.exitCode (r : Report) : Nat := if r.success then 0 else 1

/-- The report on a call without arguments. -/
def usage : Report := ⟨["You must supply a filename to execute."], false⟩

/-- The report on a file that cannot be read. -/
def unreadable (filename : String) (e : ReadError) : Report :=
  ⟨[s!"Unable to read '{filename}': {e.message}"], false⟩

/-- The report on a text. -/
def verdict (filename text : String) : Report :=
  match Module.parse text filename with
  | .error d => ⟨[d.message, s!"Unable to parse '{filename}'"], false⟩
  | .ok m =>
    let shown := m.diagnostics.map Diagnostic.message
    match (Scope.builtin.checkModule m).1 with
    | .ok () => ⟨shown ++ ["Program type checks."], true⟩
    | .error e => ⟨shown ++ [e.message, "Program failed type checking."], false⟩

/-- The report on the bytes of a file. -/
def judge (filename : String) (content : Except ReadError ByteArray) : Report :=
  match content with
  | .error e => unreadable filename e
  | .ok bytes =>
    match String.fromUTF8? bytes with
    | none => unreadable filename .notText
    | some text => verdict filename text

/-- The report on a call. Arguments after the first have no effect. -/
def respond {m : Type → Type} [Monad m] (read : String → m (Except ReadError ByteArray)) :
    List String → m Report
  | [] => return usage
  | filename :: _ => return judge filename (← read filename)

end DeclLang.CommandLine
