import Oxen.Model.WorkingTree

/-! Forking a repository: its directory is counted and copied, and a file in the copy tells how far
that has come. -/

namespace Oxen

namespace Fork

/-! ## The status -/

/-- Progress in percent counts in a type of the file format's numbers. -/
inductive ForkStatus (Progress : Type) where
  | started
  | counting (count : ℕ)
  | inProgress (progress : Progress)
  | complete
  | failed (error : String)
deriving DecidableEq

variable {Progress : Type}

namespace ForkStatus

def isComplete : ForkStatus Progress → Bool
  | complete => true
  | _ => false

def text : ForkStatus Progress → String
  | started => "started"
  | counting _ => "counting"
  | inProgress _ => "in_progress"
  | complete => "complete"
  | failed _ => "failed"

end ForkStatus

structure ForkStatusFile (Progress : Type) where
  status : ForkStatus Progress
  progress : Option Progress := none
  error : Option String := none

/-- The numbers that a status is shown with, and the text of a status file. -/
structure Format (Progress : Type) where
  ofCount : ℕ → Progress
  toCount : Progress → ℕ
  /-- The part of the items that is copied; all of it if there are none. -/
  percent : (copiedItems totalItems : ℕ) → Progress
  zero : Progress
  encode : ForkStatusFile Progress → Content
  decode : Content → Option (ForkStatusFile Progress)

variable (format : Format Progress)

def toFile : ForkStatus Progress → ForkStatusFile Progress
  | .counting count => { status := .counting count, progress := some (format.ofCount count) }
  | .inProgress progress => { status := .inProgress progress, progress := some progress }
  | .failed error => { status := .failed error, error := some error }
  | status => { status }

/-! ## The new repository -/

inductive Entry where
  | file (content : Content)
  | dir
deriving DecidableEq

abbrev Disk := PathBuf → Option Entry

def forkStatusPath : PathBuf := [".oxen", "fork_status.toml"]

def workspacesPath : PathBuf := [".oxen", "workspaces"]

inductive Op where
  | createDirAll (path : PathBuf)
  | write (path : PathBuf) (content : Content)
deriving DecidableEq

namespace Op

/-- What is written when the operation is cut off. -/
def cut (length : ℕ) : Op → Op
  | createDirAll path => createDirAll path
  | write path content => write path (content.take length)

/-- Something is made only in a directory that is there. -/
def InDir (disk : Disk) (path : PathBuf) : Prop :=
  path = [] ∨ disk path.dropLast = some .dir

instance (disk : Disk) (path : PathBuf) : Decidable (InDir disk path) :=
  inferInstanceAs (Decidable (_ ∨ _))

/-- No directory is made where something is, be it a file, and that is no failure. A file replaces
no directory. -/
def apply (disk : Disk) : Op → Option Disk
  | createDirAll path =>
      if (disk path).isSome then some disk
      else if InDir disk path then some (Function.update disk path (some .dir))
      else none
  | write path content =>
      if disk path ≠ some .dir ∧ InDir disk path then
        some (Function.update disk path (some (.file content)))
      else none

end Op

def run (disk : Disk) (ops : List Op) : Option Disk :=
  ops.foldlM Op.apply disk

/-- The directory of the status is there from the start. -/
def writeStatus (status : ForkStatus Progress) : List Op :=
  [.createDirAll [".oxen"], .write forkStatusPath (format.encode (toFile format status))]

def readStatus (disk : Disk) : Except OxenError (Option (ForkStatus Progress)) :=
  match disk forkStatusPath with
  | none => .ok none
  | some .dir => .error (.fileError forkStatusPath)
  | some (.file content) =>
      match format.decode content with
      | none => .error (.basicStr "Failed to parse fork status on file")
      | some statusFile =>
          .ok (some (match statusFile.status with
            | .inProgress _ => .inProgress (statusFile.progress.getD format.zero)
            | .counting _ =>
                .counting (format.toCount (statusFile.progress.getD format.zero))
            | .failed _ => .failed (statusFile.error.getD "Unknown error")
            | status => status))

structure ForkStatusResponse (Progress : Type) where
  status : String
  progress : Option Progress
  error : Option String

inductive StatusError where
  | forkStatusNotFound
  | oxen (error : OxenError)

def getForkStatus (disk : Disk) : Except StatusError (ForkStatusResponse Progress) :=
  match readStatus format disk with
  | .error e => .error (.oxen e)
  | .ok none => .error .forkStatusNotFound
  | .ok (some status) =>
      .ok
        { status := status.text
          progress :=
            match status with
            | .inProgress progress => some progress
            | .counting count => some (format.ofCount count)
            | _ => none
          error :=
            match status with
            | .failed error => some error
            | _ => none }

/-! ## Counting and copying -/

/-- What a directory holds, in the order it is listed. -/
inductive Listing where
  | nil
  | file (name : String) (content : Content) (rest : Listing)
  | dir (name : String) (entries rest : Listing)

section

variable (originalPath : PathBuf)

/-- The path in the original repository ends like that of its workspaces. -/
def isWorkspaces (path : PathBuf) : Bool :=
  workspacesPath.isSuffixOf (originalPath ++ path)

/-- The items in what is left of a directory, from those counted before. -/
def countEntries (path : PathBuf) : Listing → ℕ → List Op × ℕ
  | .nil, count => ([], count)
  | .file name _ rest, count =>
      if isWorkspaces originalPath (path ++ [name]) then countEntries path rest count
      else countEntries path rest (count + 1)
  | .dir name entries rest, count =>
      if isWorkspaces originalPath (path ++ [name]) then countEntries path rest count
      else
        let below := countEntries (path ++ [name]) entries count
        let after := countEntries path rest below.2
        (below.1 ++ writeStatus format (.counting below.2) ++ after.1, after.2)

def countItems (listing : Listing) : List Op × ℕ :=
  let counted := countEntries format originalPath [] listing 0
  (counted.1 ++ writeStatus format (.counting counted.2), counted.2)

/-- Copies what is left of a directory. -/
def copyEntries (totalItems : ℕ) (path : PathBuf) : Listing → ℕ → List Op × ℕ
  | .nil, copiedItems => ([], copiedItems)
  | .file name content rest, copiedItems =>
      if isWorkspaces originalPath (path ++ [name]) then copyEntries totalItems path rest copiedItems
      else
        let after := copyEntries totalItems path rest (copiedItems + 1)
        (.write (path ++ [name]) content :: after.1, after.2)
  | .dir name entries rest, copiedItems =>
      if isWorkspaces originalPath (path ++ [name]) then copyEntries totalItems path rest copiedItems
      else
        let below := copyEntries totalItems (path ++ [name]) entries copiedItems
        let after := copyEntries totalItems path rest below.2
        (.createDirAll (path ++ [name]) :: (below.1 ++
          writeStatus format (.inProgress (format.percent below.2 totalItems)) ++ after.1), after.2)

def copyDirRecursive (totalItems : ℕ) (listing : Listing) : List Op :=
  let copied := copyEntries format originalPath totalItems [] listing 0
  copied.1 ++ writeStatus format (.inProgress (format.percent copied.2 totalItems))

/-- Before the copy is left to a thread. -/
def startFork : List Op :=
  .createDirAll [] :: writeStatus format (.counting 0)

/-- What the thread does until everything is copied. -/
def copyThread (counted original : Listing) : List Op :=
  let count := countItems format originalPath counted
  count.1 ++ copyDirRecursive format originalPath count.2 original

end

end Fork

end Oxen
