import Kconfig.Tool.Describe
import Kconfig.Tool.Serve
import Kconfig.Tool.Write
/-!
The program: `write`, `menu` or `describe`, followed by the arguments of that command.

The environment and the files below the working directory are read first, and what a command
changed is written afterwards. Requests are answered as they come in.
-/
namespace Kconfig.Program

/-- The store with the entries of a directory and all that is below them; links are left out. -/
partial def addEntries (store : Files.Store) (path : List String)
    (entries : Array IO.FS.DirEntry) : IO Files.Store :=
  entries.foldlM (fun store entry => do
    let path := path ++ [entry.fileName]
    match (← entry.path.symlinkMetadata).type with
    | .dir => addEntries (store.addDirectory path) path (← entry.path.readDir)
    | .file => return store.addFile path (.ofBytes (← IO.FS.readBinFile entry.path).toList)
    | _ => return store) store

/-- The environment variables of the process. -/
def readEnvironment : IO (List (String × String)) := do
  let bytes := (← IO.FS.readBinFile "/proc/self/environ").toList
  let settings := (String.fromUTF8? ⟨bytes.toArray⟩).getD ""
  return (settings.splitOn "\x00").filterMap Tool.setting?

def readHost : IO Host := do
  let dir ← IO.currentDir
  let path := Files.absoluteNames [] dir.toString
  let files ← addEntries { workDir := path } path (← dir.readDir)
  let release := (← IO.FS.readFile "/proc/sys/kernel/osrelease").trimAsciiEnd.toString
  return { env := ← readEnvironment, files, release }

/-- The bytes of a file. -/
def bytesOf : Files.Content → ByteArray
  | .text s => s.toUTF8
  | .raw bytes => ⟨bytes.toArray⟩

/-- Writes the files that changed, and removes those that are gone. -/
def writeChanges (before after : Files.Store) : IO Unit := do
  for (path, _) in before.entries do
    if (after.at? path).isNone then IO.FS.removeFile (Files.ofNames path)
  for (path, entry) in after.entries do
    match entry with
    | .file content =>
      if before.at? path ≠ some entry then
        IO.FS.writeBinFile (Files.ofNames path) (bytesOf content)
    | .directory => pure ()

/-- Shows what a run printed, and writes what it changed. -/
def publish (before after : Files.Store) (output errors : String) : IO Unit := do
  IO.eprint errors
  IO.print output
  (← IO.getStdout).flush
  writeChanges before after

/-- The status of a run, after its last words. -/
def conclude (before : Files.Store) (outcome : Tool.Outcome) : IO UInt32 := do
  publish before outcome.files outcome.output outcome.errors
  match outcome.ending with
  | .exit status => return status.toUInt32
  | .complaint message =>
    IO.eprintln message
    return 1
  | .failed failure =>
    IO.eprintln (failure.message?.getD "the command cannot go on")
    return 1

/-- Performs an action of a session and publishes what it did. -/
def perform (action : Session.Act Unit) (s : Session) : IO (Session × Option Failure) := do
  let (s', failure) := match action.run s with
    | .ok _ s' => (s', none)
    | .error failure s' => (s', some failure)
  publish s.host.files s'.host.files s'.journal.output s'.journal.errors
  return ({ s' with journal := { s'.journal with output := "", errors := "" } }, failure)

/-- Answers requests until the input ends or one of them fails. -/
partial def answerAll (version : Int) (s : Session) (failure : Option Failure) : IO UInt32 := do
  match failure with
  | some failure =>
    conclude s.host.files ⟨.failed failure, s.host.files, "", ""⟩
  | none =>
    let line ← (← IO.getStdin).getLine
    if line.isEmpty then return 0
    let (s, failure) ← perform (Session.answer version line) s
    answerAll version s failure

def serve (host : Host) (args : List String) : IO UInt32 := do
  match Tool.openSession host args with
  | .error outcome => conclude host.files outcome
  | .ok (s, options) =>
    let (s, failure) ← perform (Session.greet options.version) s
    answerAll options.version s failure

/-- Runs the command that the first argument names. -/
def run : List String → IO UInt32
  | "write" :: args => do
    let host ← readHost
    conclude host.files (Tool.runWrite host args)
  | "menu" :: args => do serve (← readHost) args
  | "describe" :: args => do
    let host ← readHost
    conclude host.files (Tool.runDescribe "kconfig" host args)
  | _ => do
    IO.eprintln "usage: kconfig (write | menu | describe) ARGUMENT..."
    return 2

end Kconfig.Program

def main (args : List String) : IO UInt32 := Kconfig.Program.run args
