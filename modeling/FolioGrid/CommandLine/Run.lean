/-
  FolioGrid.CommandLine.Run
  ────────────────────────────────
  **RUNS OF THE PROGRAM.**

  A run is given its arguments and a directory of files.  It prints, it exits
  with a status, and it leaves a directory behind, in which at most the output
  file is another.  To which file a path leads is the affair of a `Volume`;
  `run` takes paths in a directory by themselves.
-/
import FolioGrid.CommandLine.Request

namespace FolioGrid.CommandLine

open FolioGrid.Text

/-! ## §1. What is printed. -/

/-- The program's name. -/
def programName : Text := utf8 "guji-digitize"

/-- A printed line. -/
def printedLine (t : Text) : Text := t ++ [lineFeed]

/-- How the program is used. -/
def usage : Text :=
  printedLine <|
    utf8 "usage: " ++ programName
      ++ utf8 " --input IN.tex --output OUT.tex [--plugin NAME] [--chars-per-column N]"

/-- What the flags are for. -/
def helpText : Text :=
  [ utf8 "  -i, --input FILE            guji.cls source document"
  , utf8 "  -o, --output FILE           guji-digital document to write"
  , utf8 "  -p, --plugin NAME           template plugin (none, siku-mulu)"
  , utf8 "  -n, --chars-per-column N    grid width in characters (default 21)"
  , utf8 "  -h, --help                  show this help" ].flatMap printedLine

/-- Notices as they are printed. -/
def printNotices (notices : List Notice) : Text := notices.flatMap fun n => printedLine n.line

/-- What a stop prints as its answer. -/
def Stop.answer : Stop → Text
  | .help => usage ++ helpText
  | _ => []

/-- What a stop prints as a complaint. -/
def Stop.complaint : Stop → Text
  | .help => []
  | .misuse m => printedLine (programName ++ utf8 ": " ++ m.message) ++ usage
  | .incomplete => usage
  | .refused failure => printNotices [.failed failure]

/-- The exit status of a stop: only a request for help has been met. -/
def Stop.status : Stop → UInt8
  | .help => 0
  | _ => 1

/-! ## §2. Directories. -/

/-- The files of a directory, by name. -/
abbrev Directory := Table

/-- The file of the directory that a path names; none if the path leads
elsewhere. -/
def fileName? (path : Text) : Option Text :=
  let name := skipHere path
  if name = [] ∨ name = utf8 "." ∨ name = utf8 ".." ∨ ascii '/' ∈ name then none else some name
where
  /-- A path without the steps to the directory itself in front. -/
  skipHere (path : Text) : Text :=
    match _h : after? (utf8 "./") path with
    | some rest => skipHere (rest.dropWhile (· = ascii '/'))
    | none => path
  termination_by path.length
  decreasing_by
    have h1 := length_of_after? _h
    have h2 := (List.dropWhile_sublist (· = ascii '/') (l := rest)).length_le
    have h3 : 0 < (utf8 "./").length := by decide
    omega

/-- To which file a path leads; none if it cannot be opened. -/
structure Volume where
  /-- The file that is opened to be read. -/
  source? : Directory → Text → Option Text
  /-- The file that is opened to be written. -/
  target? : Directory → Text → Option Text

/-- The volume of one directory, all of whose files can be read and written. -/
def Volume.plain : Volume where
  source? _ := fileName?
  target? _ := fileName?

/-- What the file at a path holds. -/
def Volume.contentAt? (v : Volume) (directory : Directory) (path : Text) : Option Text :=
  (v.source? directory path).bind directory.get?

/-! ## §3. Runs. -/

/-- What a run leaves behind. -/
structure Outcome where
  /-- The exit status. -/
  status : UInt8
  /-- What was printed as an answer. -/
  answer : Text
  /-- What was printed as reports and complaints. -/
  reports : Text
  /-- The files. -/
  directory : Directory
  deriving DecidableEq, Repr

/-- The outcome of a run that failed. -/
def Outcome.failed (directory : Directory) (notices : List Notice) (failure : Failure) : Outcome :=
  ⟨1, [], printNotices (notices ++ [.failed failure]), directory⟩

/-- Do a request among the files of a directory. -/
def Request.runOn (v : Volume) (r : Request) (directory : Directory) : Outcome :=
  let result := r.convert (v.contentAt? directory r.input)
  match result.value with
  | .error failure => .failed directory result.notices failure
  | .ok c =>
    match v.target? directory r.output with
    | none => .failed directory result.notices (.unwritable r.output)
    | some name =>
      ⟨0, [], printNotices (result.notices ++ [r.written c]), directory.insert name c.output⟩

/-- Run the program with some arguments among the files of a directory on a volume. -/
def runOn (v : Volume) (arguments : List Text) (directory : Directory) : Outcome :=
  match request arguments with
  | .error stop => ⟨stop.status, stop.answer, stop.complaint, directory⟩
  | .ok r => r.runOn v directory

/-- Run the program with some arguments among the files of a directory. -/
def run (arguments : List Text) (directory : Directory) : Outcome :=
  runOn .plain arguments directory

end FolioGrid.CommandLine
