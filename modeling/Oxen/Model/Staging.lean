import Oxen.Lib.KeyScan
import Oxen.Model.CommitWriter

/-! Staged paths: files staged with their directories, and entries restored or removed below
paths. The staged database is ordered by the texts of the paths. All paths are relative to the
repository already. -/

namespace Oxen

namespace RestoreStaged

/-- The characters of a key, in the order of its bytes. -/
def keyText (path : PathBuf) : List Char :=
  path.display.toList

def startsWith (key path : PathBuf) : Bool :=
  (keyText path).isPrefixOf (keyText key)

/-- The entries found by a scan from the path on that stops at the first other key. -/
def entriesFrom (db : StagedDb) (path : PathBuf) : List PathBuf :=
  (KeyScan.scanFrom keyText db.keys (keyText path)).takeWhile fun key => startsWith key path

def hasChildren (db : StagedDb) (parent : PathBuf) : Bool :=
  (KeyScan.scanFrom keyText db.keys (keyText parent)).any fun key =>
    startsWith key parent && key.display != parent.display

/-- Goes up from the path as long as no children are found. The deletions are
only written at the end. -/
def emptyParents (db : StagedDb) : ℕ → PathBuf → List PathBuf
  | 0, _ => []
  | height + 1, path =>
      let parent := path.dropLast
      if hasChildren db parent then []
      else parent :: emptyParents db height parent

def writeBatch (db : StagedDb) (deleted : List PathBuf) : StagedDb :=
  deleted.foldl (fun db key => db.erase key) db

def restorePath (db : StagedDb) (path : PathBuf) : StagedDb :=
  let db := writeBatch db (entriesFrom db path)
  writeBatch db (emptyParents db path.length path)

def restoreStaged (db : StagedDb) (paths : List PathBuf) : StagedDb :=
  paths.foldl restorePath db

end RestoreStaged

namespace Unstage

open RestoreStaged (keyText)

/-! ## Staging -/

/-- The staged database, and the directories that were put into it before. -/
abbrev Adding := StagedDb × List PathBuf

def defaultDirFromPath (path : PathBuf) : EMerkleTreeNode :=
  .directory { name := path, hash := 0 }

def addDirToStagedDb (t : Adding) (path : PathBuf) : Adding :=
  if path ∈ t.2 then t
  else (t.1.insert path { status := .added, node := defaultDirFromPath path }, path :: t.2)

/-- Goes up from a path to the root. -/
def addParents : ℕ → PathBuf → Adding → Adding
  | 0, _, t => t
  | height + 1, path, t => addParents height path.dropLast (addDirToStagedDb t path.dropLast)

/-- A file to stage, at its path. -/
structure AddedFile where
  path : PathBuf
  status : StagedEntryStatus
  node : FileNode

def pAddFileNodeToStagedDb (t : Adding) (file : AddedFile) : Adding :=
  addParents file.path.length file.path
    (t.1.insert file.path { status := file.status, node := .file file.node }, t.2)

/-- One call that adds files. -/
def addFiles (db : StagedDb) (files : List AddedFile) : StagedDb :=
  (files.foldl pAddFileNodeToStagedDb (db, [])).1

/-! ## Removing -/

/-- Removes a directory under which nothing is staged. -/
def cleanupEmptyDirs (db : StagedDb) (path : PathBuf) : StagedDb :=
  if db.keys.all fun key => ¬ (path <+: key ∧ path ≠ key) then db.erase path else db

/-- Goes up from a parent; the root is cleaned up when the step before leads to it. -/
def cleanupParents : ℕ → PathBuf → StagedDb → StagedDb
  | 0, _, db => db
  | height + 1, parent, db =>
      if parent = [] then db
      else
        let db := cleanupEmptyDirs db parent
        let parent := parent.dropLast
        cleanupParents height parent (if parent = [] then cleanupEmptyDirs db parent else db)

def removeBelow (key : PathBuf) (db : StagedDb) (path : PathBuf) : StagedDb :=
  if path <+: key ∧ path ≠ [] then cleanupParents key.length key.dropLast (db.erase key) else db

/-- Takes the keys as they were at the start, in their order. -/
def removeStagedRecursivelyInner (db : StagedDb) (paths : List PathBuf) : StagedDb :=
  (KeyScan.scanFrom keyText db.keys []).foldl (fun db key => paths.foldl (removeBelow key) db) db

end Unstage

end Oxen
