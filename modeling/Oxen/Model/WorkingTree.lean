import Mathlib.Data.List.Induction
import Oxen.Model.NodeDb

/-! The working directory of a repository and the host it runs on. -/

namespace Oxen

/-- How an operation fails. A panic ends the process, which nothing here recovers from. -/
inductive OxenError where
  | basicStr (message : String)
  | cannotOverwriteFiles (paths : List PathBuf)
  | fileError (path : PathBuf)
  | panicked
deriving DecidableEq, Repr

/-- The text shown for an error whose text does not come from the host. -/
def OxenError.message : OxenError → String
  | .basicStr message => message
  | .cannotOverwriteFiles paths =>
      "\nError: your local changes to the following files would be overwritten. Please commit the following changes before continuing:\n\n  "
        ++ "\n  ".intercalate (paths.map PathBuf.display) ++ "\n"
  | .fileError path => path.display
  | .panicked => "overflow when adding duration to instant"

/-- The time of a file node, unless computing it panics. -/
def FileNode.computeTime (f : FileNode) : Except OxenError FileTime :=
  match lastModifiedTime f.lastModifiedSeconds f.lastModifiedNanoseconds with
  | some time => .ok time
  | none => .error .panicked

@[simp] theorem FileNode.computeTime_eq (f : FileNode) :
    f.computeTime = if f.hasTime then .ok f.lastModified else .error .panicked := by
  rw [FileNode.computeTime, f.lastModifiedTime_eq]
  cases f.hasTime <;> rfl

inductive FsEntry where
  | file (content : Content) (mtime : FileTime)
  | dir
deriving DecidableEq

/-- Files and directories below the repository root. An entry exists only in a
directory that exists. -/
structure WorkingTree where
  entries : AList fun _ : PathBuf => FsEntry
  parent_isDir : ∀ path name, path ++ [name] ∈ entries →
    path = [] ∨ entries.lookup path = some .dir

namespace WorkingTree

/-- What the path names. The root is always a directory. -/
def lookup (disk : WorkingTree) (path : PathBuf) : Option FsEntry :=
  if path = [] then some .dir else disk.entries.lookup path

def pathExists (disk : WorkingTree) (path : PathBuf) : Bool :=
  (disk.lookup path).isSome

def isDir (disk : WorkingTree) (path : PathBuf) : Bool :=
  disk.lookup path = some .dir

/-- The content of a regular file. -/
def content (disk : WorkingTree) (path : PathBuf) : Option Content :=
  match disk.lookup path with
  | some (.file content _) => some content
  | _ => none

/-- No entry lies directly in the directory. -/
def isEmptyDir (disk : WorkingTree) (path : PathBuf) : Bool :=
  disk.entries.keys.all fun key => key = [] ∨ key.dropLast ≠ path

@[simp] theorem lookup_nil (disk : WorkingTree) : disk.lookup [] = some .dir := by
  simp [lookup]

theorem lookup_of_ne_nil (disk : WorkingTree) {path : PathBuf} (h : path ≠ []) :
    disk.lookup path = disk.entries.lookup path := by
  simp [lookup, h]

theorem isDir_parent (disk : WorkingTree) {path : PathBuf} {name : String}
    (h : disk.lookup (path ++ [name]) ≠ none) : disk.lookup path = some .dir := by
  rw [lookup_of_ne_nil _ (by simp), ne_eq, AList.lookup_eq_none, not_not] at h
  rcases disk.parent_isDir path name h with rfl | hdir
  · exact disk.lookup_nil
  · by_cases hp : path = []
    · simp [hp]
    · rwa [lookup_of_ne_nil _ hp]

/-- Every ancestor of an existing path is a directory. -/
theorem isDir_of_isPrefix (disk : WorkingTree) {path rest : PathBuf} (hr : rest ≠ [])
    (h : disk.lookup (path ++ rest) ≠ none) : disk.lookup path = some .dir := by
  induction rest using List.reverseRecOn with
  | nil => exact absurd rfl hr
  | append_singleton rest name ih =>
      rw [← List.append_assoc] at h
      have hdir := disk.isDir_parent h
      by_cases hrest : rest = []
      · simpa [hrest] using hdir
      · exact ih hrest (by simp [hdir])

/-- Replaces or creates one entry. The parent has to be a directory and an
existing directory keeps its kind. -/
def put (disk : WorkingTree) (path : PathBuf) (entry : FsEntry)
    (h : disk.lookup path.dropLast = some .dir ∧ disk.lookup path ≠ some .dir) : WorkingTree where
  entries := disk.entries.insert path entry
  parent_isDir := by
    intro parent name hmem
    by_cases hroot : parent = []
    · exact .inl hroot
    right
    have hpath : path ≠ [] := by
      rintro rfl
      exact h.2 disk.lookup_nil
    have hdir : disk.lookup parent = some .dir := by
      by_cases he : path = parent ++ [name]
      · simpa [he] using h.1
      · rw [AList.mem_insert] at hmem
        suffices disk.lookup (parent ++ [name]) ≠ none from disk.isDir_parent this
        rw [lookup_of_ne_nil _ (by simp), ne_eq, AList.lookup_eq_none, not_not]
        exact hmem.resolve_left (Ne.symm he)
    have hne : parent ≠ path := by
      rintro rfl
      exact h.2 hdir
    rwa [AList.lookup_insert_ne hne, ← lookup_of_ne_nil _ hroot]

/-- Drops one entry that no other entry lies below. -/
def erase (disk : WorkingTree) (path : PathBuf)
    (h : disk.lookup path ≠ some .dir ∨ disk.isEmptyDir path) : WorkingTree where
  entries := disk.entries.erase path
  parent_isDir := by
    intro parent name hmem
    by_cases hroot : parent = []
    · exact .inl hroot
    right
    rw [AList.mem_erase] at hmem
    have hdir : disk.lookup parent = some .dir := by
      suffices disk.lookup (parent ++ [name]) ≠ none from disk.isDir_parent this
      rw [lookup_of_ne_nil _ (by simp), ne_eq, AList.lookup_eq_none, not_not]
      exact hmem.2
    have hne : parent ≠ path := by
      rintro rfl
      rcases h with h | h
      · exact h hdir
      · have := List.all_eq_true.mp h _ (AList.mem_keys.mp hmem.2)
        simp at this
    rwa [AList.lookup_erase_ne hne, ← lookup_of_ne_nil _ hroot]

/-- Writes a regular file, as a copy onto the path does. -/
def writeFile (disk : WorkingTree) (path : PathBuf) (content : Content) (mtime : FileTime) :
    Except OxenError WorkingTree :=
  if h : disk.lookup path.dropLast = some .dir ∧ disk.lookup path ≠ some .dir then
    .ok (disk.put path (.file content mtime) h)
  else .error (.fileError path)

/-- Creates the directory and all its ancestors. -/
def createDirAll (disk : WorkingTree) (done : PathBuf) :
    List String → Except OxenError WorkingTree
  | [] => .ok disk
  | name :: rest =>
      match hl : disk.lookup (done ++ [name]) with
      | some .dir => createDirAll disk (done ++ [name]) rest
      | some (.file _ _) => .error (.fileError (done ++ [name]))
      | none =>
          if h : disk.lookup done = some .dir then
            createDirAll (disk.put (done ++ [name]) .dir (by simp [h, hl])) (done ++ [name]) rest
          else .error (.fileError (done ++ [name]))

def removeFile (disk : WorkingTree) (path : PathBuf) : Except OxenError WorkingTree :=
  match hl : disk.lookup path with
  | some (.file _ _) => .ok (disk.erase path (.inl (by simp [hl])))
  | _ => .error (.fileError path)

theorem lookup_put (disk : WorkingTree) {path : PathBuf} {entry : FsEntry}
    (h : disk.lookup path.dropLast = some .dir ∧ disk.lookup path ≠ some .dir) (other : PathBuf) :
    (disk.put path entry h).lookup other =
      if other = path then some entry else disk.lookup other := by
  have hpath : path ≠ [] := by
    rintro rfl
    exact h.2 disk.lookup_nil
  by_cases ho : other = path
  · subst ho
    simp [lookup, hpath, put]
  · simp [lookup, put, ho, AList.lookup_insert_ne ho]

theorem lookup_erase (disk : WorkingTree) {path : PathBuf}
    (h : disk.lookup path ≠ some .dir ∨ disk.isEmptyDir path) (other : PathBuf) :
    (disk.erase path h).lookup other =
      if other = [] then some .dir else if other = path then none else disk.lookup other := by
  by_cases hr : other = []
  · simp [hr]
  · by_cases ho : other = path
    · subst ho
      simp [lookup, hr, erase, AList.lookup_erase]
    · simp [lookup, hr, erase, ho, AList.lookup_erase_ne ho]

theorem removeFile_of_file {disk : WorkingTree} {path : PathBuf} {content : Content}
    {mtime : FileTime} (h : disk.lookup path = some (.file content mtime)) :
    ∃ disk', disk.removeFile path = .ok disk' ∧
      ∀ other, disk'.lookup other = if other = path then none else disk.lookup other := by
  have hne : path ≠ [] := by
    rintro rfl
    simp at h
  refine ⟨disk.erase path (.inl (by simp [h])), ?_, fun other => ?_⟩
  · unfold removeFile
    split
    · rfl
    · rename_i hn
      exact absurd h (hn content mtime)
  · rw [lookup_erase]
    by_cases ho : other = []
    · simp [ho, Ne.symm hne]
    · simp [ho]

end WorkingTree

/-- What a stat call reports. -/
structure Metadata where
  len : Nat
  mtime : FileTime
deriving DecidableEq, Repr

/-- The machine: its hash function, what a stat call reports for a directory,
and the hash of the type-specific metadata extracted from an entry. -/
structure Host where
  xxh3 : List UInt8 → MerkleHash
  dirMetadata : PathBuf → Metadata
  fileMetadataHash : PathBuf → FsEntry → Option MerkleHash

structure LocalRepository extends Host where
  mtimeTolerance : Nat := 0
  isRemoteMode : Bool := false
  vnodeSize : Nat := 10000

namespace LocalRepository

def metadata (repo : LocalRepository) (disk : WorkingTree) (path : PathBuf) : Option Metadata :=
  match disk.lookup path with
  | none => none
  | some (.file content mtime) => some { len := content.length, mtime }
  | some .dir => some (repo.dirMetadata path)

/-- The times differ by no more than what the file system rounds. -/
def withinTolerance (repo : LocalRepository) (disk node : FileTime) : Bool :=
  max disk node - min disk node ≤ repo.mtimeTolerance

/-- Compares the times, exactly or with the tolerance. With the tolerance a disk time
before the epoch overflows, as in `lastModifiedTime`; a node's time is none. -/
def mtimeMatches (repo : LocalRepository) (disk node : FileTime) : Except OxenError Bool :=
  if disk = node then .ok true
  else if repo.mtimeTolerance = 0 then .ok false
  else if disk < 0 then .error .panicked
  else .ok (repo.withinTolerance disk node)

/-- Compares modification time and size, in this order. -/
def statMatches (repo : LocalRepository) (metadata : Metadata) (mtime : FileTime) (len : Nat) :
    Except OxenError Bool :=
  (repo.mtimeMatches metadata.mtime mtime).map fun matched => matched && metadata.len = len

/-- Hashing a directory fails because its bytes cannot be read. -/
def getHashGivenMetadata (repo : LocalRepository) (disk : WorkingTree) (path : PathBuf) :
    Except OxenError MerkleHash :=
  match disk.content path with
  | some content => .ok (repo.xxh3 content)
  | none => .error (.basicStr "Could not read file for hashing")

/-- The checks that follow the comparison of the times. -/
def classifyModifiedFromNode (repo : LocalRepository) (disk : WorkingTree) (path : PathBuf)
    (node : FileNode) (entry : FsEntry) (metadata : Metadata) (mtimeMatched : Bool) :
    Except OxenError Bool :=
  if metadata.len ≠ node.numBytes then .ok true
  else if mtimeMatched then .ok false
  else
    match node.metadataHash, repo.fileMetadataHash path entry with
    | some nodeHash, some fileHash =>
        if nodeHash ≠ fileHash then .ok true
        else (repo.getHashGivenMetadata disk path).map (node.hash ≠ ·)
    | _, _ => (repo.getHashGivenMetadata disk path).map (node.hash ≠ ·)

def isModifiedFromNode (repo : LocalRepository) (disk : WorkingTree) (path : PathBuf)
    (node : FileNode) : Except OxenError Bool :=
  match disk.lookup path, repo.metadata disk path with
  | some entry, some metadata => do
      let nodeTime ← node.computeTime
      let mtimeMatched ← repo.mtimeMatches metadata.mtime nodeTime
      repo.classifyModifiedFromNode disk path node entry metadata mtimeMatched
  | _, _ => .ok false

end LocalRepository

end Oxen
