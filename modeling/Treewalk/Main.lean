import Std.Time.DateTime.Timestamp
import Treewalk.CommandLine

/-!
# The program

Collects what a run can ask for, the files that its imports lead to included, runs it, and writes
what it leaves.
-/

namespace Treewalk

namespace CommandLine

/-- More nested steps than any run takes. -/
def unbounded : Nat := Nat.pow 2 62

/-- Everything that is piped in, after `acc`. -/
partial def readAll (input : IO.FS.Stream) (acc : ByteArray) : IO ByteArray := do
  let chunk ← input.read 65536
  if chunk.isEmpty then return acc else readAll input (acc ++ chunk)

/-- Copies what the names lead to, from `at_` on, onto a disk. -/
def copyWalk : List String → Path → Disk → IO Disk
  | [], _, disk => return disk
  | name :: names, at_, disk => do
    if name == "" || name == "." then copyWalk names at_ disk
    else if name == ".." then copyWalk names at_.dropLast disk
    else
      let next := at_ ++ [name]
      let file := (← IO.currentDir) / next.text
      if ← file.isDir then copyWalk names next (disk.addDir next.text)
      else
        match ← (IO.FS.readBinFile file).toBaseIO with
        | .ok content => copyWalk names next (disk.addFile next.text content)
        | .error _ => return disk

mutual

/-- Copies a file onto a disk, and the files that its imports lead to. -/
partial def copyFile (path : String) (disk : Disk) : IO Disk := do
  let disk ← copyWalk (Path.names path) [] disk
  match disk.locate path with
  | .error _ => return disk
  | .ok found =>
    match disk.read found with
    | .error _ => return disk
    | .ok text => copyImports (Path.text found.dropLast) text disk

/-- Copies the files that the imports of a text in the directory `dir` lead to. -/
partial def copyImports (dir text : String) (disk : Disk) : IO Disk := do
  let mut disk := disk
  for stmt in (Source.read none text 0 {}).1.body do
    if let .require decl := stmt then
      let target := Path.join dir (Load.fileName {} decl.module)
      if (disk.locate target).toOption.isNone then disk ← copyFile target disk
  return disk

end

end CommandLine

end Treewalk

open Treewalk Treewalk.CommandLine

/-- Runs the program on the files and the input of the host. -/
def main (args : List String) : IO UInt32 := do
  let directory := (← IO.currentDir).toString
  let now ← Std.Time.Timestamp.now
  let input ← if args.isEmpty then readAll (← IO.getStdin) .empty else pure .empty
  let mut disk ← copyWalk (Path.names directory) [] {}
  if args.isEmpty then
    disk ← copyImports directory ((String.fromUTF8? input).getD "") disk
  for path in args do
    disk ← copyFile (Path.join directory path) disk
  let time := Float.ofInt now.toNanosecondsSinceUnixEpoch.val / 1000000000
  match run unbounded { args, input, disk, directory, time } with
  | none => return 1
  | some result =>
    let stdout ← IO.getStdout
    stdout.write result.output
    stdout.flush
    (← IO.getStderr).putStr result.errors
    return UInt32.ofNat result.exit
