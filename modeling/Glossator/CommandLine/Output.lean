import Glossator.CommandLine.Invocation
import Glossator.Report.Json
import Glossator.Session

/-!
# Output

What a command writes. A run writes piece by piece and may end with the messages of an error, from
what was attempted down to the cause; what was written until then stays written.
-/

set_option autoImplicit false

namespace Glossator.CommandLine

/-- A text filled up with blanks on the right. -/
def padRight (width : Nat) (t : Text) : Text := t ++ List.replicate (width - t.length) ' '

/-- A text filled up with blanks on the left. -/
def padLeft (width : Nat) (t : Text) : Text := List.replicate (width - t.length) ' ' ++ t

/-- The line of a function: its lines and its name. -/
def functionLine (f : FunctionRecord) : Text :=
  [' ', ' '] ++ padLeft 4 (Digits.decimalInt f.startLine) ++
    '-' :: (padRight 4 (Digits.decimalInt f.endLine) ++ ' ' :: (f.displayName.toList ++ ['\n']))

/-- The first line of an extraction. -/
def headline (e : Extraction) : Text :=
  e.file.toList ++ [' ', '('] ++ e.language.name.toList ++ [',', ' '] ++ Digits.decimal e.count ++
    " functions)\n".toList

/-- The line of a failure. -/
def failureLine (file error : String) : Text :=
  file.toList ++ ": error: ".toList ++ error.toList ++ ['\n']

/-- The lines of a report. -/
def reportLines : Report → Text
  | .extracted e => headline e ++ e.functions.flatMap functionLine
  | .failed file error => failureLine file error

/-- Reports in a format. -/
def showReports : Format → List Report → Text
  | .json, reports => (Json.array (reports.map Report.toJson)).indented 0 ++ ['\n']
  | .text, reports => reports.flatMap reportLines

/-- The line of a language. -/
def languageLine : Language × Bool → Text
  | (language, isParseable) =>
    padRight 12 language.name.toList ++
      (if isParseable then "parser available" else "detection only").toList ++ ['\n']

/-- The messages of an error, its cause last. -/
def causes : Error → List String
  | .io e => [(Error.io e).message, e.message]
  | e => [e.message]

/-- The reports of paths in a row; the first path that cannot be scanned ends them. -/
def scan (e : Engine) (here : Location) : List Text → Except (List String) (List Report)
  | [] => .ok []
  | path :: paths =>
    match e.extractAny here path with
    | .error error => .error (("Failed to scan " ++ String.ofList path) :: causes error)
    | .ok found => (scan e here paths).map fun reports => found ++ reports

/-- A run: it ends well or with the messages of an error, and adds to what was written. -/
abbrev Run := ExceptT (List String) (StateM String)

namespace Run

variable {α : Type}

/-- How a run ends and what it has written by then. -/
def outcome (run : Run α) : Except (List String) α × Text :=
  let (result, written) := StateT.run (ExceptT.run run) ""
  (result, written.toList)

/-- Writes a text. -/
def write (t : Text) : Run Unit := modify fun written => written ++ String.ofList t

/-- Goes on with a result that is there, or ends with the messages of its error. -/
def orEnd {ε : Type} (messages : ε → List String) : Except ε α → Run α
  | .ok a => pure a
  | .error error => throw (messages error)

/-- Writes the lines of a report one after the other. -/
def writeReport : Report → Run Unit
  | .extracted e => do
    write (headline e)
    e.functions.forM fun f => write (functionLine f)
  | .failed file error => write (failureLine file error)

/-- Writes reports in a format. -/
def writeReports : Format → List Report → Run Unit
  | .json, reports => do
    write ((Json.array (reports.map Report.toJson)).indented 0)
    write ['\n']
  | .text, reports => reports.forM writeReport

end Run

open Run (write orEnd writeReports)

/-- Carries out a command. -/
def run (e : Engine) (here : Location) : Command → Run Unit
  | .extract paths format => do
    let reports ← orEnd id (scan e here paths)
    writeReports format reports
  | .comment file isDryRun => do
    let unread (error : IoError) := ["Failed to read " ++ String.ofList file, error.message]
    let content ← orEnd unread (here.read file)
    let request ← orEnd causes (e.prepare (String.ofList file) content)
    if isDryRun then
      write (request.payload.indented 0)
      write ['\n']
    else
      let comment ← orEnd causes (e.comment request)
      write (comment.comment.toList ++ ['\n'])
  | .languages => Engine.languages.forM fun l => write (languageLine l)

/-- What a command writes that ends well. -/
def output (e : Engine) (here : Location) (command : Command) : Except (List String) Text :=
  match (run e here command).outcome with
  | (.ok (), written) => .ok written
  | (.error causes, _) => .error causes

end Glossator.CommandLine
