/-
  FolioGrid.Main
  ────────────────────────────────
  **THE PROGRAM.**

  Reads the input, converts it and writes the output.  All that is decided is
  decided in `FolioGrid.CommandLine`.
-/
import FolioGrid.CommandLine.Run

namespace FolioGrid.CommandLine

open FolioGrid.Text

/-- Print bytes. -/
def emit (stream : IO.FS.Stream) (t : Text) : IO Unit := stream.write ⟨t.toArray⟩

/-- The path that a text names, if it is well formed. -/
def path? (t : Text) : Option String := String.fromUTF8? ⟨t.toArray⟩

/-- What the file at a path holds, if it can be read. -/
def readText (t : Text) : IO (Option Text) := do
  match path? t with
  | none => pure none
  | some path =>
    try
      let bytes ← IO.FS.readBinFile path
      pure (some bytes.toList)
    catch _ => pure none

/-- Write a file, and tell whether it could be written. -/
def writeText (t content : Text) : IO Bool := do
  match path? t with
  | none => pure false
  | some path =>
    try
      IO.FS.writeBinFile path ⟨content.toArray⟩
      pure true
    catch _ => pure false

/-- Do a request among the files of the machine, and give the exit status. -/
def perform (r : Request) (errors : IO.FS.Stream) : IO UInt32 := do
  let result := r.convert (← readText r.input)
  emit errors (printNotices result.notices)
  match result.value with
  | .error failure =>
    emit errors (printNotices [.failed failure])
    pure 1
  | .ok c =>
    if ← writeText r.output c.output then
      emit errors (printNotices [r.written c])
      pure 0
    else
      emit errors (printNotices [.failed (.unwritable r.output)])
      pure 1

/-- Run the program on the machine, and give the exit status. -/
def runProgram (arguments : List String) : IO UInt32 := do
  let errors ← IO.getStderr
  match request (arguments.map utf8) with
  | .error stop =>
    emit (← IO.getStdout) stop.answer
    emit errors stop.complaint
    pure stop.status.toUInt32
  | .ok r => perform r errors

end FolioGrid.CommandLine

/-- The program. -/
def main (arguments : List String) : IO UInt32 := FolioGrid.CommandLine.runProgram arguments
