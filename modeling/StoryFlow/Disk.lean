import StoryFlow.Output
import StoryFlow.Text.Blank

/-! # Files and folders

A disk holds folders and the texts of files, each at a place: the steps that lead to it from the
working folder. Paths are followed step by step, and what cannot be done has a cause.
-/

namespace StoryFlow

/-! ## Places -/

/-- The steps that lead somewhere from the working folder, with the last step first. The root is a
step of its own, and so is each folder above the working folder. -/
abbrev Place := List String

namespace Place

/-- Where a step leads. Nothing stands above the root. -/
def after (p : Place) (step : String) : Place :=
  if step = "" ∨ step = "." then p
  else if step = ".." then
    match p with
    | [] => [".."]
    | last :: before => if last = "/" then p else if last = ".." then ".." :: p else before
  else step :: p

/-- The place of what holds a place, what holds that, and so on. -/
def above : Place → List Place
  | [] => []
  | _ :: p => p :: above p

/-- Does a place stand below the working folder? -/
def isInside (p : Place) : Bool :=
  !p.any fun step => step == "/" || step == ".."

/-- The path without detours. -/
def path (p : Place) : String :=
  match p.reverse with
  | [] => ""
  | first :: steps =>
    if first = "/" then "/" ++ "/".intercalate steps else "/".intercalate (first :: steps)

end Place

namespace Path

def steps (path : String) : List String :=
  (Text.pieces '/' path.toList).map String.ofList

/-- Where a path begins. -/
def start (path : String) : Place :=
  if path.startsWith "/" then ["/"] else []

/-- Where a path leads if all its steps can be made. -/
def place (path : String) : Place :=
  (steps path).foldl Place.after (start path)

/-- The path of a file in a folder, without detours. -/
def join (folder name : String) : String :=
  (place (if folder = "" then name else folder ++ "/" ++ name)).path

end Path

/-! ## What cannot be done -/

/-- Why a path cannot be used. -/
inductive FileCause where
  | missing
  | notFolder
  | isFolder
  | taken
  | longName
deriving DecidableEq

def FileCause.text : FileCause → String
  | missing => "ENOENT: no such file or directory"
  | notFolder => "ENOTDIR: not a directory"
  | isFolder => "EISDIR: illegal operation on a directory"
  | taken => "EEXIST: file already exists"
  | longName => "ENAMETOOLONG: name too long"

/-- What was to be done. -/
inductive FileAction where
  | read
  | openFile (path : String)
  | makeFolder (path : String)
deriving DecidableEq

def FileAction.text : FileAction → String
  | read => "read"
  | openFile path => "open '" ++ path ++ "'"
  | makeFolder path => "mkdir '" ++ path ++ "'"

structure FileError where
  cause : FileCause
  action : FileAction
deriving DecidableEq

def FileError.message (e : FileError) : String :=
  e.cause.text ++ ", " ++ e.action.text

/-! ## Disks -/

/-- The working folder, the root and the folders above the working folder are always there. -/
structure Disk where
  folders : List Place
  files : List (Place × String)
deriving DecidableEq

namespace Disk

/-- A disk with files, and with the folders that hold them. -/
def ofFiles (files : List OutputFile) : Disk :=
  let files := files.map fun f => (Path.place f.filename, f.content)
  ⟨files.flatMap fun f => f.1.above, files⟩

def isFolder (d : Disk) (p : Place) : Bool :=
  p.all (fun step => step == "/" || step == "..") || d.folders.contains p

def file? (d : Disk) (p : Place) : Option String :=
  d.files.lookup p

/-- A step holds at most 255 bytes, and a path fewer than 4096. -/
def isLong (step : String) : Bool :=
  255 < step.utf8ByteSize

/-- Makes steps from a place. Each of them starts in a folder. -/
def walk (d : Disk) (p : Place) : List String → Except FileCause Place
  | [] => .ok p
  | step :: steps =>
    if !d.isFolder p then .error (if (d.file? p).isSome then .notFolder else .missing)
    else if isLong step then .error .longName
    else d.walk (p.after step) steps

/-- The place that a path leads to. Nothing needs to stand there, but its folder does. -/
def locate (d : Disk) (path : String) : Except FileCause Place :=
  if path = "" then .error .missing
  else if 4096 ≤ path.utf8ByteSize then .error .longName
  else d.walk (Path.start path) (Path.steps path)

def read (d : Disk) (path : String) : Except FileError String :=
  match d.locate path with
  | .error cause => .error ⟨cause, .openFile path⟩
  | .ok p =>
    if d.isFolder p then .error ⟨.isFolder, .read⟩
    else
      match d.file? p with
      | none => .error ⟨.missing, .openFile path⟩
      | some text => .ok text

/-- Writes a file into a folder that is there, in the place of an older one. -/
def write (d : Disk) (f : OutputFile) : Except FileError Disk :=
  match d.locate f.filename with
  | .error cause => .error ⟨cause, .openFile f.filename⟩
  | .ok p =>
    if d.isFolder p then .error ⟨.isFolder, .openFile f.filename⟩
    else .ok { d with files := d.files.filter (·.1 ≠ p) ++ [(p, f.content)] }

/-- Makes steps from a folder, and makes the folders that are missing on the way. -/
def makeSteps (d : Disk) (p : Place) : List String → Except FileCause Disk
  | [] => .ok d
  | step :: steps =>
    if isLong step then .error .longName
    else
      let next := p.after step
      if d.isFolder next then d.makeSteps next steps
      else if (d.file? next).isSome then .error (if steps.isEmpty then .taken else .notFolder)
      else makeSteps { d with folders := next :: d.folders } next steps

/-- Makes a folder that is not there yet, and those that are to hold it. -/
def makeFolder (d : Disk) (path : String) : Except FileError Disk :=
  let made :=
    if path = "" then .error .missing
    else if 4096 ≤ path.utf8ByteSize then .error .longName
    else d.makeSteps (Path.start path) (Path.steps path)
  made.mapError fun cause => ⟨cause, .makeFolder path⟩

/-- The files below the working folder that another disk lacks, with their paths. -/
def filesBeyond (d before : Disk) : List OutputFile :=
  (d.files.filter fun f => f.1.isInside && (before.file? f.1).isNone).map fun f =>
    ⟨f.1.path, f.2⟩

end Disk

end StoryFlow
