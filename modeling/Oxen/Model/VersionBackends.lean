import Mathlib.Data.List.Lex
import Mathlib.Data.Char
import Oxen.Lib.Batches
import Oxen.Lib.Listing
import Oxen.Model.VersionStore

/-! The two stores of version files, in a local directory and in an S3 bucket. -/

namespace Oxen

def hexDigits : List Char := "0123456789abcdef".toList

/-- The text of a version's hash: two digits that name a directory, and a rest. -/
structure HashText where
  digits : List Char
  long : 3 ≤ digits.length
  hex : ∀ c ∈ digits, c ∈ hexDigits
deriving DecidableEq

/-- Data in memory, which are never longer than `isize::MAX`. -/
structure Bytes where
  data : Content
  length_lt : data.length < 2 ^ 63
deriving DecidableEq

/-! ## The local directory -/

/-- The directories of the versions, by the two parts of their hashes. -/
abbrev VersionDirs := KeyedMap.Map HashText VersionDir

inductive LocalError where
  | notFound
  | beyondEndOfFile
deriving DecidableEq, Repr

namespace VersionDirs

open LocalVersionStore (writeNew combine)

def versionDir (s : VersionDirs) (hash : HashText) : VersionDir :=
  (s.lookup hash).getD {}

def storeVersion (s : VersionDirs) (hash : HashText) (data : Content) : VersionDirs :=
  let dir := s.versionDir hash
  s.insert hash { dir with data := (writeNew dir.data data none).2 }

def getVersion (s : VersionDirs) (hash : HashText) : Except LocalError Content :=
  match (s.versionDir hash).data with
  | none => .error .notFound
  | some data => .ok data

def getVersionSize (s : VersionDirs) (hash : HashText) : Except LocalError ℕ := do
  let data ← s.getVersion hash
  .ok data.length

def versionExists (s : VersionDirs) (hash : HashText) : Bool :=
  (s.versionDir hash).data.isSome

def deleteVersion (s : VersionDirs) (hash : HashText) : VersionDirs :=
  s.erase hash

/-- The names of all version directories, whatever they hold. -/
def listVersions (s : VersionDirs) : List (List Char) :=
  (s.keys.map HashText.digits).insertionSort (· ≤ ·)

def chunkFiles (s : VersionDirs) (hash : HashText) : KeyedMap.Map ℕ (Option Content) :=
  (s.versionDir hash).chunks.getD ∅

def storeVersionChunk (s : VersionDirs) (hash : HashText) (offset : UInt64) (data : Content) :
    VersionDirs :=
  let chunks := s.chunkFiles hash
  let written := writeNew (chunks.lookup offset.toNat).join data none
  s.insert hash
    { s.versionDir hash with chunks := some (chunks.insert offset.toNat written.2) }

/-- `offset + size` wraps around, as in a release build. -/
def getVersionChunk (s : VersionDirs) (hash : HashText) (offset size : UInt64) :
    Except LocalError Content := do
  let data ← s.getVersion hash
  if data.length ≤ offset.toNat ∨ data.length < (offset + size).toNat then
    .error .beyondEndOfFile
  else
    .ok ((data.drop offset.toNat).take (min size.toNat (data.length - offset.toNat)))

def listVersionChunks (s : VersionDirs) (hash : HashText) : Except LocalError (List ℕ) :=
  match (s.versionDir hash).chunks with
  | none => .error .notFound
  | some chunks => .ok (chunks.keys.insertionSort (· ≤ ·))

/-- The version's file is created before the chunks are listed. -/
def combineVersionChunks (s : VersionDirs) (hash : HashText) :
    Except StoreError Unit × VersionDirs :=
  match s.lookup hash with
  | none => (.error .notFound, s)
  | some dir => ((combine dir none).1, s.insert hash (combine dir none).2)

end VersionDirs

/-! ## The bucket -/

namespace S3

abbrev Key := List Char

abbrev Bucket := KeyedMap.Map Key Content

inductive Error where
  | noSuchKey
  | invalidRange
  | invalidPartNumber
  | malformedUpload
  | entityTooSmall
  | basic (message : String)
deriving DecidableEq, Repr

/-- How many entries a listing returns at a time. -/
def maxKeys : ℕ := 1000

def maxParts : ℕ := 10000

/-- All parts but the last must have this size. -/
def minPartSize : ℕ := 5 * 1024 * 1024

def getObject (bucket : Bucket) (key : Key) : Except Error Content :=
  match bucket.lookup key with
  | none => .error .noSuchKey
  | some data => .ok data

/-- The bytes from the first to the last, or to the end of the object. -/
def getObjectRange (bucket : Bucket) (key : Key) (first last : ℕ) : Except Error Content := do
  let data ← getObject bucket key
  if data.length ≤ first then .error .invalidRange
  else .ok ((data.drop first).take (last + 1 - first))

/-- The keys under a common start, in key order. -/
def objectEntries (bucket : Bucket) (start : Key) : List Key :=
  (bucket.keys.filter start.isPrefixOf).insertionSort (· ≤ ·)

/-- With `/` as the delimiter, a key that goes on after one is replaced by its part before. -/
def rollUp (start key : Key) : Key :=
  let rest := key.drop start.length
  if '/' ∈ rest then start ++ rest.takeWhile (· ≠ '/') ++ ['/'] else key

def delimitedEntries (bucket : Bucket) (start : Key) : List Key :=
  ((bucket.keys.filter start.isPrefixOf).map (rollUp start)).dedup.insertionSort (· ≤ ·)

def isCommonPrefix (start entry : Key) : Bool :=
  '/' ∈ entry.drop start.length

def uploadPart (parts : List Content) (part : Content) : Except Error (List Content) :=
  if maxParts ≤ parts.length then .error .invalidPartNumber else .ok (parts ++ [part])

def completeMultipartUpload (bucket : Bucket) (key : Key) (parts : List Content) :
    Except Error Bucket :=
  if parts = [] then .error .malformedUpload
  else if parts.dropLast.any (·.length < minPartSize) then .error .entityTooSmall
  else .ok (bucket.insert key parts.flatten)

end S3

open S3 (Bucket Key)

/-- Where in the bucket a repository keeps its versions. -/
structure S3VersionStore where
  keyPrefix : Key

namespace S3VersionStore

variable (store : S3VersionStore)

def versionsPrefix : Key := store.keyPrefix ++ ['/']

def versionDir (hash : HashText) : Key := store.versionsPrefix ++ hash.digits

def generateKey (hash : HashText) : Key := store.versionDir hash ++ "/data".toList

def chunksPrefix (hash : HashText) : Key := store.versionDir hash ++ "/chunks/".toList

def chunkKey (hash : HashText) (offset : ℕ) : Key :=
  store.chunksPrefix hash ++ Nat.toDigits 10 offset

def stripPrefix (start key : List Char) : Option (List Char) :=
  if start.isPrefixOf key then some (key.drop start.length) else none

def stripSlash (key : List Char) : Option (List Char) :=
  if key.getLast? = some '/' then some key.dropLast else none

/-- Decimal digits, with an optional plus sign. -/
def parseU64 (text : List Char) : Option ℕ :=
  let digits := if text.head? = some '+' then text.tail else text
  if digits ≠ [] ∧ digits.all Char.isDigit then
    let n := Nat.ofDigitChars 10 digits 0
    if n < UInt64.size then some n else none
  else none

/-- All pages of a listing. -/
def listObjectsWithPrefix (bucket : Bucket) (start : Key) : List Key :=
  Listing.collect S3.maxKeys (S3.objectEntries bucket start) none

def deleteObjects (bucket : Bucket) (keys : List Key) : Bucket :=
  (Batches.split 1000 keys).foldl
    (fun bucket batch => batch.foldl (fun bucket key => bucket.erase key) bucket) bucket

def storeVersion (bucket : Bucket) (hash : HashText) (data : Content) : Bucket :=
  bucket.insert (store.generateKey hash) data

def getVersion (bucket : Bucket) (hash : HashText) : Except S3.Error Content :=
  S3.getObject bucket (store.generateKey hash)

def getVersionSize (bucket : Bucket) (hash : HashText) : Except S3.Error ℕ := do
  let data ← S3.getObject bucket (store.generateKey hash)
  .ok data.length

def versionExists (bucket : Bucket) (hash : HashText) : Bool :=
  (bucket.lookup (store.generateKey hash)).isSome

def deleteVersion (bucket : Bucket) (hash : HashText) : Bucket :=
  deleteObjects bucket (listObjectsWithPrefix bucket (store.versionDir hash ++ ['/']))

/-- The common prefixes of the listing, without what comes before and after the hash. -/
def listVersions (bucket : Bucket) : List (List Char) :=
  let base := store.versionsPrefix
  let entries := Listing.collect S3.maxKeys (S3.delimitedEntries bucket base) none
  (entries.filter (S3.isCommonPrefix base)).filterMap fun entry =>
    (stripPrefix base entry).bind stripSlash

def storeVersionChunk (bucket : Bucket) (hash : HashText) (offset : UInt64) (data : Content) :
    Bucket :=
  bucket.insert (store.chunkKey hash offset.toNat) data

/-- The range is inclusive at both ends. -/
def getVersionChunk (bucket : Bucket) (hash : HashText) (offset size : UInt64) :
    Except S3.Error Content :=
  if size = 0 then .ok []
  else if UInt64.size ≤ offset.toNat + (size.toNat - 1) then
    .error (.basic "get_version_chunk: offset + size overflows u64")
  else
    S3.getObjectRange bucket (store.generateKey hash) offset.toNat
      (offset.toNat + (size.toNat - 1))

def listVersionChunks (bucket : Bucket) (hash : HashText) : List ℕ :=
  let start := store.chunksPrefix hash
  let keys := listObjectsWithPrefix bucket start
  (keys.filterMap fun key => (stripPrefix start key).bind parseU64).insertionSort (· ≤ ·)

def MIN_PART_SIZE : ℕ := 5 * 1024 * 1024

def drainLen (isLastChunk : Bool) (partBuf : Content) : ℕ :=
  if MIN_PART_SIZE ≤ partBuf.length ∧ ¬ isLastChunk then MIN_PART_SIZE
  else if isLastChunk ∧ partBuf.length ≤ MIN_PART_SIZE then partBuf.length
  else MIN_PART_SIZE

/-- Uploads parts while the buffer is large enough, or, at the last chunk, until it is empty. -/
def flush (isLastChunk : Bool) (partBuf : Content) (parts : List Content) :
    Except S3.Error (Content × List Content) :=
  if _h : MIN_PART_SIZE ≤ partBuf.length ∨ (isLastChunk ∧ partBuf ≠ []) then do
    let parts ← S3.uploadPart parts (partBuf.take (drainLen isLastChunk partBuf))
    flush isLastChunk (partBuf.drop (drainLen isLastChunk partBuf)) parts
  else .ok (partBuf, parts)
termination_by partBuf.length
decreasing_by
  have hpos : 0 < partBuf.length := by
    rcases _h with h | ⟨-, h⟩
    · exact lt_of_lt_of_le (by decide) h
    · exact List.length_pos_of_ne_nil h
  have hdrain : 0 < drainLen isLastChunk partBuf := by
    unfold drainLen
    split_ifs <;> first | exact hpos | decide
  rw [List.length_drop]
  omega

def uploadChunks (bucket : Bucket) (hash : HashText) :
    List ℕ → Content → List Content → Except S3.Error (List Content)
  | [], _, parts => .ok parts
  | offset :: offsets, partBuf, parts => do
      let chunk ← S3.getObject bucket (store.chunkKey hash offset)
      let flushed ← flush offsets.isEmpty (partBuf ++ chunk) parts
      uploadChunks bucket hash offsets flushed.1 flushed.2

def combineVersionChunks (bucket : Bucket) (hash : HashText) : Except S3.Error Bucket :=
  match store.listVersionChunks bucket hash with
  | [] => .ok bucket
  | offsets => do
      let parts ← store.uploadChunks bucket hash offsets [] []
      let bucket ← S3.completeMultipartUpload bucket (store.generateKey hash) parts
      .ok (deleteObjects bucket (listObjectsWithPrefix bucket (store.chunksPrefix hash)))

end S3VersionStore

/-! ## Calls -/

inductive VersionCall where
  | storeVersion (hash : HashText) (data : Bytes)
  | storeVersionChunk (hash : HashText) (offset : UInt64) (data : Bytes)
  | listVersionChunks (hash : HashText)
  | combineVersionChunks (hash : HashText)
  | getVersion (hash : HashText)
  | getVersionSize (hash : HashText)
  | getVersionChunk (hash : HashText) (offset size : UInt64)
  | versionExists (hash : HashText)
  | listVersions
  | deleteVersion (hash : HashText)
deriving DecidableEq

/-- What a call that succeeds returns. -/
inductive Answer where
  | done
  | bytes (data : Content)
  | size (length : ℕ)
  | isPresent (found : Bool)
  | offsets (chunks : List ℕ)
  | hashes (versions : List (List Char))
deriving DecidableEq

namespace VersionCall

/-- The answer, if the call does not fail, and the directories it leaves. -/
def runLocal (s : VersionDirs) : VersionCall → Option Answer × VersionDirs
  | storeVersion hash data => (some .done, s.storeVersion hash data.data)
  | storeVersionChunk hash offset data => (some .done, s.storeVersionChunk hash offset data.data)
  | listVersionChunks hash => ((s.listVersionChunks hash).toOption.map .offsets, s)
  | combineVersionChunks hash =>
      ((s.combineVersionChunks hash).1.toOption.map fun _ => .done,
        (s.combineVersionChunks hash).2)
  | getVersion hash => ((s.getVersion hash).toOption.map .bytes, s)
  | getVersionSize hash => ((s.getVersionSize hash).toOption.map .size, s)
  | getVersionChunk hash offset size =>
      ((s.getVersionChunk hash offset size).toOption.map .bytes, s)
  | versionExists hash => (some (.isPresent (s.versionExists hash)), s)
  | listVersions => (some (.hashes s.listVersions), s)
  | deleteVersion hash => (some .done, s.deleteVersion hash)

/-- The same in the bucket. -/
def runS3 (store : S3VersionStore) (bucket : Bucket) : VersionCall → Option Answer × Bucket
  | storeVersion hash data => (some .done, store.storeVersion bucket hash data.data)
  | storeVersionChunk hash offset data =>
      (some .done, store.storeVersionChunk bucket hash offset data.data)
  | listVersionChunks hash => (some (.offsets (store.listVersionChunks bucket hash)), bucket)
  | combineVersionChunks hash =>
      match store.combineVersionChunks bucket hash with
      | .ok bucket' => (some .done, bucket')
      | .error _ => (none, bucket)
  | getVersion hash => ((store.getVersion bucket hash).toOption.map .bytes, bucket)
  | getVersionSize hash => ((store.getVersionSize bucket hash).toOption.map .size, bucket)
  | getVersionChunk hash offset size =>
      ((store.getVersionChunk bucket hash offset size).toOption.map .bytes, bucket)
  | versionExists hash => (some (.isPresent (store.versionExists bucket hash)), bucket)
  | listVersions => (some (.hashes (store.listVersions bucket)), bucket)
  | deleteVersion hash => (some .done, store.deleteVersion bucket hash)

end VersionCall

end Oxen
