import Glossator.CommandLine.Output
import Glossator.Comment.Wire
import Glossator.Config.Discovery
import Std.Internal.UV.DNS
import Std.Internal.UV.TCP

/-!
# The program

Reads the arguments, takes a snapshot of the files that the command is about, and writes what the
command gives. All that is decided here is where bytes come from and go to.
-/

set_option autoImplicit false

namespace Glossator.Main

open CommandLine (Invocation Command Refusal)

/-- What is shown when the arguments are not carried out. -/
def usage : String :=
  "Extract functions from source files and write comments for them\n\n" ++
  "Usage: glossator [OPTIONS] <COMMAND>\n\n" ++
  "Commands:\n" ++
  "  extract    Extract every function from files or directories\n" ++
  "  comment    Generate a comment for the single function in a prompt file\n" ++
  "  languages  List known languages and whether they can be parsed\n" ++
  "  help       Print this message\n\n" ++
  "Options:\n" ++
  "  -c, --config <CONFIG>  Path to configuration file\n" ++
  "  -v, --verbose          Enable verbose logging\n" ++
  "  -h, --help             Print help\n" ++
  "  -V, --version          Print version\n"

/-- What is wrong with the arguments. -/
def complaint : Refusal → String
  | .missingCommand => "a command is required"
  | .unknownCommand => "unrecognized command"
  | .missingArgument => "a required argument is missing"
  | .unknownArgument => "unexpected argument found"
  | .invalidValue => "a value is missing or invalid"
  | .repeatedArgument => "an argument is used more than once"
  | .needlessValue => "unexpected value for an argument"
  | .help | .version | .nothingGiven => ""

/-- Shows why the arguments are not carried out; gives the exit code. -/
def refuse (r : Refusal) : IO UInt32 := do
  match r with
  | .help => IO.print usage
  | .version => IO.println "glossator 0.1.0"
  | .nothingGiven => IO.eprint usage
  | r => IO.eprint ("error: " ++ complaint r ++ "\n\n" ++ usage)
  return r.exitCode.toUInt32

/-- The file is read during a scan: it is recognised, or it holds ignore rules. -/
def isOfInterest (name : String) : Bool :=
  (Detection.byFileName? name.toList).isSome || [".ignore", ".gitignore", "exclude"].contains name

/-- A path without links and detours, if it leads anywhere. -/
def real? (path : String) : IO (Option String) := do
  try return some (← IO.FS.realPath path).toString
  catch _ => return none

/-- The path leads to a directory. -/
def isDirectory (path : String) : IO Bool := do
  try (← IO.FS.realPath path).isDir
  catch _ => return false

/-- The tree at a path. Files that no scan looks into are left empty, and so is what cannot be read;
links to directories are left out. -/
partial def snapshot (path : String) : IO FileTree := do
  let real ← IO.FS.realPath path
  if ← real.isDir then
    let entries ← real.readDir
    return .directory (← entries.toList.filterMapM fun entry => do
      let name := entry.fileName.toList
      let inner := real.toString ++ "/" ++ entry.fileName
      let isLink := (← real? inner) != some inner
      if ← isDirectory inner then
        if isLink then return none else return some (name, ← snapshot inner)
      else if isOfInterest entry.fileName then
        try return some (name, ← snapshot inner)
        catch _ => return some (name, .file [])
      else return some (name, .file []))
  else return .file (← IO.FS.readBinFile real).toList

/-- The names that lead from the outermost directory to a path. -/
def namesOf (path : String) : List Text := (Path.components path.toList).filter (! ·.isEmpty)

/-- A tree with the rules of a directory added to it. -/
def withRules (tree : FileTree) (dir : String) : IO FileTree :=
  [".ignore", ".gitignore", ".git/info/exclude"].foldlM (fun tree name => do
    let path := dir ++ "/" ++ name
    if (← real? path).isSome then
      return FileTree.insert (← snapshot path) (namesOf path) tree
    else return tree) tree

/-- A tree with what a path leads to, the directories on the way, and the rules around it. -/
def withPath (tree : FileTree) (cwd path : String) : IO FileTree := do
  let full := if path.startsWith "/" then path else cwd ++ "/" ++ path
  let mut tree := tree
  let mut way := ""
  for name in namesOf full do
    way := way ++ "/" ++ String.ofList name
    if let some real ← real? way then
      if ← isDirectory real then tree ← withRules (tree.makeDirectory (namesOf real)) real
  if let some real ← real? full then
    tree := FileTree.insert (← snapshot full) (namesOf real) tree
  return tree

/-- The working directory with what some paths lead to. -/
def workplace (paths : List String) : IO Location := do
  let cwd := (← IO.FS.realPath ".").toString
  let start := (FileTree.directory []).makeDirectory (namesOf cwd)
  let tree ← paths.foldlM (fun tree path => withPath tree cwd path) start
  match (Location.mk tree []).find cwd.toList with
  | .ok here => return here
  | .error _ => return ⟨tree, []⟩

/-- The paths that a command is about. -/
def pathsOf : Command → List String
  | .extract paths _ => paths.map String.ofList
  | .comment file _ => [String.ofList file]
  | .languages => []

/-- Waits for what an operation of the network gives. -/
def await {α : Type} (operation : IO (IO.Promise (Except IO.Error α))) : IO α := do
  match ← IO.wait (← operation).result? with
  | some (.ok a) => return a
  | some (.error e) => throw e
  | none => throw (IO.userError "connection closed")

/-- All bytes that a connection still gives. -/
partial def receive (socket : Std.Internal.UV.TCP.Socket) (sofar : ByteArray) : IO ByteArray := do
  match ← await (socket.recv? 65536) with
  | some bytes => receive socket (sofar ++ bytes)
  | none => return sofar

/-- Exchanges a request for a reply over a connection of its own. -/
def send (address : Http.Address) (body : String) : IO Http.Reply := do
  let host := String.ofList address.host
  let found ← await (Std.Internal.UV.DNS.getAddrInfo host "" 0)
  let some ip := found[0]? | throw (IO.userError "no address found")
  let number := address.socket.toUInt16
  let socket ← Std.Internal.UV.TCP.Socket.new
  await (socket.connect (match ip with
    | .v4 addr => .v4 ⟨addr, number⟩
    | .v6 addr => .v6 ⟨addr, number⟩))
  await (socket.send #[⟨(address.request body).toArray⟩])
  let some reply := Http.Reply.ofBytes? (← receive socket ByteArray.empty).toList
    | throw (IO.userError "incomplete reply")
  return reply

/-- Exchanges a request for a reply; a failure is given as its reason. -/
def exchange (endpoint body : String) : IO (Except String Http.Reply) := do
  match Http.Address.ofText? endpoint.toList with
  | none => return .error "builder error"
  | some address =>
    try return .ok (← send address body)
    catch _ => return .error ("error sending request for url (" ++ endpoint ++ ")")

/-- The reply that a command needs, obtained beforehand; without one, none is ever asked for. -/
def replyFor (c : Config) (here : Location) (command : Command) : IO Http.Exchange := do
  let offline : Http.Exchange := fun _ _ => .error "no connection"
  match command with
  | .comment file false =>
    let e := Engine.ofConfig offline c
    match here.read file, e.service, Http.endpoint c.service with
    | .ok content, some _, .ok endpoint =>
      match e.prepare (String.ofList file) content with
      | .ok request =>
        let reply ← exchange endpoint request.payload.toCompact
        return fun _ _ => reply
      | .error _ => return offline
    | _, _, _ => return offline
  | _ => return offline

/-- Writes the messages of an error, its causes below it. -/
def complain : List String → IO UInt32
  | [] => return 1
  | message :: causes => do
    IO.eprintln ("Error: " ++ message)
    unless causes.isEmpty do
      IO.eprintln "\nCaused by:"
      for cause in causes do IO.eprintln ("    " ++ cause)
    return 1

/-- Carries out an invocation; gives the exit code. -/
def carryOut (invocation : Invocation) : IO UInt32 := do
  let settings := match invocation.config with
    | some path => [String.ofList path]
    | none => Config.fileNames
  let here ← workplace (settings ++ pathsOf invocation.command)
  match Config.find here invocation.config with
  | .error e => complain [e.message]
  | .ok c =>
    let e := Engine.ofConfig (← replyFor c here invocation.command) c
    let (result, written) := (CommandLine.run e here invocation.command).outcome
    IO.print (String.ofList written)
    match result with
    | .ok () => return 0
    | .error causes => complain causes

end Glossator.Main

/-- Runs the program on its arguments. -/
def main (args : List String) : IO UInt32 :=
  match Glossator.CommandLine.Invocation.read (args.map String.toList) with
  | .ok invocation => Glossator.Main.carryOut invocation
  | .error r => Glossator.Main.refuse r
