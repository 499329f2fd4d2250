/-
# Lisplet.Main -- the program

The outer layer: arguments, standard streams and the real file system.  Evaluation sees files through a
snapshot of those read so far.  A run that asked for a file outside the snapshot is carried out again,
from the same session, with that file added, so every run that counts has seen all the files it asked
for.
-/

import Lisplet.Program

namespace Lisplet.Main

/-- The files read so far. -/
abbrev Snapshot := FiniteMap String (Except FileFault String)

/-- A host with the files of the snapshot. -/
def Snapshot.host (known : Snapshot) : Host :=
  .ofFiles fun path => (known.find? path).getD (.error .notFound)

/-- The first path that a run asked for and that the snapshot does not have. -/
def Snapshot.missing? (known : Snapshot) (entries : List LogEntry) : Option String :=
  entries.findSome? fun
    | .loading path => if (known.find? path).isNone then some path else none
    | _ => none

/-- The bound on the depth of evaluation. -/
def depth : Nat := 1000000

/-- Why the operating system could not read a file. -/
def faultOf : IO.Error → FileFault
  | .noFileOrDirectory .. => .notFound
  | .inappropriateType _ 21 _ => .isDirectory
  | .inappropriateType .. => .notDirectory
  | e => .other (toString e)

/-- Read a file as text. -/
def readFile (path : String) : IO (Except FileFault String) := do
  if path.toList.contains '\x00' then return .error .nulInPath
  try
    let bytes ← IO.FS.readBinFile path
    match String.fromUTF8? bytes with
    | some text => return .ok text
    | none => return .error .invalidEncoding
  catch e => return .error (faultOf e)

/-- Carry out a run, reading the files it asks for. -/
partial def settle {α : Type} (known : Snapshot) (before : Nat) (run : Host → α × Session) :
    IO (α × Session × Snapshot) := do
  let (result, session) := run known.host
  match known.missing? (session.state.log.toList.drop before) with
  | none => return (result, session, known)
  | some path => settle (known.insert path (← readFile path)) before run

/-- Write the answer to a line or a file. -/
def write (reply : Reply) : IO Unit :=
  match reply with
  | .output text => IO.println text
  | .failure text => IO.eprintln text
  | .breakdown => IO.eprintln Reply.breakdownText
  | .silence | .farewell => pure ()

/-- Answer the lines of the standard input.  The loop comes with its exit code. -/
partial def answerLines (stdin : IO.FS.Stream) (known : Snapshot) (loop : Loop) :
    IO (Loop × UInt32) := do
  let line ← stdin.getLine
  if line.isEmpty then return (loop, 0)
  let (answer, session, known) ← settle known loop.session.state.log.size fun host =>
    let (reply, next) := loop.answer host depth line
    ((reply, next.entered), next.session)
  let loop : Loop := ⟨session, answer.2⟩
  write answer.1
  if answer.1.isLast then return (loop, answer.1.exit)
  else answerLines stdin known loop

/-- Save the lines entered, if there were any; a failure is passed over. -/
def saveHistory (path : Option String) (entered : List String) : IO Unit := do
  match path with
  | none => pure ()
  | some path =>
    if entered.isEmpty then pure ()
    else
      let earlier := (← readFile path).toOption.getD ""
      try IO.FS.writeFile path (Program.historyText earlier entered) catch _ => pure ()

/-- Run with options that have been understood. -/
def runOptions (o : Options) : IO UInt32 := do
  let session := Session.new (Program.policyOf o)
  match o.file with
  | some path =>
    let known : Snapshot := FiniteMap.empty.insert path (← readFile path)
    let (outcome, session, _) ← settle known 0 fun host => session.runFile host depth path
    let reply := Loop.replyTo outcome session
    write reply
    return (Program.fileReport reply).exit
  | none =>
    IO.print Loop.banner
    let (loop, exit) ← answerLines (← IO.getStdin) .empty ⟨session, []⟩
    let home := (← IO.getEnv "HOME").map (· ++ "/" ++ Program.historyFile)
    if exit = 0 then saveHistory (Program.historyOf o home) loop.entered
    return exit

end Lisplet.Main

/-- The program. -/
def main (args : List String) : IO UInt32 :=
  match Lisplet.Command.parse args with
  | .ok (.run o) => Lisplet.Main.runOptions o
  | .ok .help => do
    IO.print Lisplet.Program.helpText
    return 0
  | .ok .version => do
    IO.print Lisplet.Program.versionText
    return 0
  | .error e => do
    IO.eprintln ("error: " ++ e.message)
    return 2
