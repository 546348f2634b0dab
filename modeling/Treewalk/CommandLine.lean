import Treewalk.Session

/-!
# The command line

With one argument the program runs that file; without any it runs what is piped to it as one
nameless text. Reports go to the error output, and the exit status says what kind they are of.
-/

namespace Treewalk

namespace CommandLine

/-- What the program is started with. -/
structure Start where
  args : List String
  /-- What is piped to it. -/
  input : ByteArray
  disk : Disk
  /-- The directory it is started in. -/
  directory : String
  /-- What its clock shows. -/
  time : Float

/-- What the program leaves. -/
structure Outcome where
  output : ByteArray := .empty
  errors : String := ""
  exit : Nat

/-- The exit status of a wrong command line. -/
def exitUsage : Nat := 64

/-- The exit status of a file that cannot be read. -/
def exitNoInput : Nat := 66

/-- What a session leaves. -/
def outcome (s : Session) : Outcome :=
  { output := s.world.sink.bytes
    errors := s.diagnostics.reported.foldl (fun text d => text ++ d.text ++ "\n") ""
    exit := s.diagnostics.exitCode }

/-- The session that the program starts. -/
def session (start : Start) : Session :=
  { Session.new {} start.disk start.directory with world := { time := start.time } }

/-- Runs the program for at most `n` nested steps; nothing if they are used up. -/
def run (n : Nat) (start : Start) : Option Outcome :=
  match start.args with
  | [] =>
    match String.fromUTF8? start.input with
    | none =>
      some { errors := "error: " ++ DiskError.notText.message ++ "\n", exit := 1 }
    | some text =>
      let (i, s) := (session start).newInterpreter
      match Load.runSource n none text i s with
      | .ok _ s => some (outcome s)
      | .error _ _ => none
  | [path] =>
    match Load.runFile n path (session start) with
    | .ok (.error e) _ =>
      some
        { errors := "error: can't read '" ++ path ++ "': " ++ e.message ++ "\n"
          exit := exitNoInput }
    | .ok (.ok _) s => some (outcome s)
    | .error _ _ => none
  | _ => some { errors := "usage: vuel [file]\n", exit := exitUsage }

end CommandLine

end Treewalk
