import Treewalk.Fault
import Treewalk.Token.Basic

/-!
# Diagnostics

A diagnostic says which stage found something wrong, where, and what. `Diagnostics` collects those
of a session in the order in which they are found. What is wrong with a text is attributed to the
file the collector is set to; what goes wrong in a run is attributed to the file of the code that
failed.
-/

namespace Treewalk

/-- The stage that found something wrong. -/
inductive Stage where
  /-- Reading a text into a tree. -/
  | reading
  /-- Fixing what its names mean. -/
  | binding
  /-- Running it. -/
  | running
deriving DecidableEq, Repr

/-- What a diagnostic about a text points at. -/
inductive Location where
  /-- Characters that are no token. -/
  | nowhere
  | lexeme (text : String)
  | atEnd
deriving DecidableEq, Repr

/-- Where a reader of tokens stands: at a token, or at the end of the text. -/
inductive Site where
  | token (t : Token)
  | stop (p : Pos)
deriving DecidableEq, Repr

namespace Site

/-- The place of a site. -/
def pos : Site → Pos
  | .token t => t.pos
  | .stop p => p

/-- What a report at a site points at. -/
def location : Site → Location
  | .token t => .lexeme t.lexeme
  | .stop _ => .atEnd

end Site

/-- One report. -/
structure Diagnostic where
  stage : Stage
  file : Option String
  pos : Pos
  location : Location
  message : String
deriving DecidableEq, Repr

namespace Diagnostic

/-- How the message is introduced. A failed run speaks for itself. -/
def lead (d : Diagnostic) : String :=
  match d.stage, d.location with
  | .running, _ => ""
  | _, .nowhere => "Error: "
  | _, .lexeme text => "Error at '" ++ text ++ "': "
  | _, .atEnd => "Error at end: "

/-- A report as one line of text. -/
def text (d : Diagnostic) : String :=
  let file := match d.file with
    | some f => f ++ ":"
    | none => ""
  file ++ d.pos.text ++ " - " ++ d.lead ++ d.message

end Diagnostic

/-- All that was reported and not yet forgotten, and the file that later reports about a text go
to. -/
structure Diagnostics where
  file : Option String := none
  reported : Array Diagnostic := #[]
deriving DecidableEq, Repr

namespace Diagnostics

instance : Inhabited Diagnostics := ⟨{}⟩

/-- The number of reports. -/
def size (ds : Diagnostics) : Nat := ds.reported.size

/-- Whether nothing is reported. -/
def isEmpty (ds : Diagnostics) : Bool := ds.reported.isEmpty

/-- The collector set to `file`. -/
def inFile (ds : Diagnostics) (file : Option String) : Diagnostics := { ds with file }

/-- Adds a report. -/
def push (ds : Diagnostics) (d : Diagnostic) : Diagnostics :=
  { ds with reported := ds.reported.push d }

/-- Reports characters that are no token. -/
def reportLexical (ds : Diagnostics) (p : Pos) (message : String) : Diagnostics :=
  ds.push ⟨.reading, ds.file, p, .nowhere, message⟩

/-- Reports a stage's finding at a token or at the end of the text. -/
def reportAt (ds : Diagnostics) (stage : Stage) (s : Site) (message : String) : Diagnostics :=
  ds.push ⟨stage, ds.file, s.pos, s.location, message⟩

/-- Reports a failed run. -/
def reportFault (ds : Diagnostics) (f : Fault) : Diagnostics :=
  ds.push ⟨.running, f.file, f.pos, .nowhere, f.message⟩

/-- Whether something was wrong with a text. -/
def hadError (ds : Diagnostics) : Bool := ds.reported.any (·.stage != .running)

/-- Whether a run failed. -/
def hadFault (ds : Diagnostics) : Bool := ds.reported.any (·.stage == .running)

/-- Forgets the reports and keeps the file. -/
def clear (ds : Diagnostics) : Diagnostics := { ds with reported := #[] }

/-- The exit status that the reports call for. -/
def exitCode (ds : Diagnostics) : Nat :=
  if ds.hadError then 65 else if ds.hadFault then 70 else 0

end Diagnostics

end Treewalk
