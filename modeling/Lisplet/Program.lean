/-
# Lisplet.Program -- a whole run of the program

What a run of the program writes and leaves behind, as a function of its arguments, its standard input
and the files it finds.  A file is run and the value of its last form is written; without a file the
lines of the standard input are answered one by one.  On leaving, the loop saves the lines that were
entered, if there were any; that it cannot is passed over.  A loop that is broken off saves nothing.
Together with `Lisplet.Console` this is the outer layer, around sessions.
-/

import Lisplet.Console.CommandLine
import Lisplet.Console.Loop

namespace Lisplet

/-- What a run of the program gives. -/
structure Report where
  exit : UInt32 := 0
  stdout : String := ""
  stderr : String := ""
deriving DecidableEq, Inhabited, Repr

/-- Add an answer to a report. -/
def Report.add (r : Report) : Reply → Report
  | .output text => { r with stdout := r.stdout ++ text ++ "\n" }
  | .failure text => { r with stderr := r.stderr ++ text ++ "\n" }
  | .breakdown =>
    { r with exit := Reply.exit .breakdown, stderr := r.stderr ++ Reply.breakdownText ++ "\n" }
  | .silence | .farewell => r

namespace Program

/-- The name of the history file in the home directory. -/
def historyFile : String := ".cons_history"

/-- The text for `--version`. -/
def versionText : String := "cons 0.1.0\n"

/-- The text for `--help`. -/
def helpText : String :=
  String.join [
    "cons runs paren programs, or starts an interactive session when no file is given\n\n",
    "Usage: cons [OPTIONS] [FILE]\n\n",
    "Arguments:\n",
    "  [FILE]  Program to run. The result of its last form is printed\n\n",
    "Options:\n",
    "      --keep-going-on-warn  Log `warn` errors and continue with the next top-level form\n",
    "      --no-history          Do not read or write REPL history\n",
    "      --history <PATH>      REPL history file (defaults to ~/.cons_history)\n",
    "  -h, --help                Print help\n",
    "  -V, --version             Print version\n"]

/-- The warn policy that the options choose. -/
def policyOf (o : Options) : WarnPolicy := if o.keepGoing then .keepGoing else .abort

/-- The history file that the options choose; `standard` is the one used without an option. -/
def historyOf (o : Options) (standard : Option String) : Option String :=
  if o.noHistory then none else o.history.or standard

/-- What is saved of the lines entered, newest first, behind what the file held. -/
def historyText (earlier : String) (entered : List String) : String :=
  entered.reverse.foldl (fun text line => text ++ line ++ "\n") earlier

/-- The report on a file that was run. -/
def fileReport (reply : Reply) : Report :=
  match reply with
  | .output text => { stdout := text ++ "\n" }
  | .failure text => { exit := 1, stderr := text ++ "\n" }
  | .silence | .farewell | .breakdown => {}

/-- Answer lines until they end or one of the answers is the last. -/
def answerAll (host : Host) (depth : Nat) : Loop → Report → List String → Loop × Report
  | loop, report, [] => (loop, report)
  | loop, report, line :: rest =>
    let (reply, loop) := loop.answer host depth line
    let report := report.add reply
    if reply.isLast then (loop, report) else answerAll host depth loop report rest

/-- Save the lines entered, if there were any. -/
def saveHistory (disk : Disk) (path : Option String) (entered : List String) : Disk :=
  match path with
  | none => disk
  | some path =>
    if entered.isEmpty then disk
    else
      let earlier := (disk.read path).toOption.getD ""
      match disk.write path (historyText earlier entered).toUTF8 with
      | .ok disk => disk
      | .error _ => disk

/-- Run with options that have been understood. -/
def runOptions (o : Options) (disk : Disk) (stdin : String) (depth : Nat) : Report × Disk :=
  let session := Session.new (policyOf o)
  match o.file with
  | some path =>
    let (outcome, session) := session.runFile (.ofFiles disk.read) depth path
    (fileReport (Loop.replyTo outcome session), disk)
  | none =>
    let (loop, report) :=
      answerAll (.ofFiles disk.read) depth ⟨session, []⟩ { stdout := Loop.banner } (stdin.splitOn "\n")
    if report.exit = 0 then
      (report, saveHistory disk (historyOf o (some historyFile)) loop.entered)
    else (report, disk)

/-- A run of the program in the home directory. -/
def run (args : List String) (disk : Disk) (stdin : String) (depth : Nat) : Report × Disk :=
  match Command.parse args with
  | .ok (.run o) => runOptions o disk stdin depth
  | .ok .help => ({ stdout := helpText }, disk)
  | .ok .version => ({ stdout := versionText }, disk)
  | .error e => ({ exit := 2, stderr := "error: " ++ e.message ++ "\n" }, disk)

end Program

end Lisplet
