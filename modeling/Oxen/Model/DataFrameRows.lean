import Oxen.Lib.KeyedMap
import Oxen.Model.DataFrameColumns

/-! Row edits of an indexed data frame whose columns stay as they are, and whether its file is
staged. The statements do what they say, and the log of row changes is left out. -/

namespace Oxen

namespace Rows

/-- The committed file that was indexed. -/
structure CommittedFile (Value : Type) where
  columns : List String
  columns_nodup : columns.Nodup
  columns_disjoint : ∀ name ∈ columns, name ∉ oxenCols
  rows : List (Fin columns.length → Value)

inductive StagedRowStatus where
  | added | modified | removed | unchanged
deriving DecidableEq, Repr

/-- The database as far as the rows rely on it. -/
structure Env (Value Hash : Type) where
  file : CommittedFile Value
  /-- The hash of a row on the columns of the file. -/
  hashRow : (Fin file.columns.length → Value) → Hash
  /-- The id of a row with a number of the sequence. -/
  uuid : ℕ → String
  null : Value

variable {Value Hash : Type}

abbrev Values (env : Env Value Hash) := Fin env.file.columns.length → Value

structure Row (env : Env Value Hash) where
  oxenId : String
  /-- The number from the sequence, in the order of the file and from 1. -/
  rowId : ℕ
  values : Values env
  status : StagedRowStatus
  hash : Option Hash

structure State (env : Env Value Hash) where
  rows : List (Row env)
  /-- The next number of the sequence. -/
  counter : ℕ
  /-- The file's path is in the staged database. -/
  staged : Bool

inductive RowError where
  | basic (message : String)
  | incompatibleSchemas
  | resourceNotFound (resource : String)
  | duckDb
deriving DecidableEq, Repr

/-- A JSON object. -/
abbrev Data (Value : Type) := KeyedMap.Map String Value

variable [DecidableEq Value] [DecidableEq Hash] {env : Env Value Hash}

/-- The rows of the parsed object: `{}` has none. -/
def parseJsonToDf (data : Data Value) : List (Data Value) :=
  if data = ∅ then [] else [data]

def replaceColumns (df : Data Value) (values : Values env) : Values env :=
  fun i => (df.lookup (env.file.columns.get i)).getD (values i)

def hasFieldNames (env : Env Value Hash) (names : List String) : Bool :=
  names.all fun name => name ∈ env.file.columns

def findRow (rows : List (Row env)) (oxenId : String) : Option (Row env) :=
  rows.find? fun row => row.oxenId = oxenId

/-! ## The statements -/

def appendRow (s : State env) (df : List (Data Value)) : Except RowError (State env) :=
  if hasFieldNames env (df.flatMap AList.keys) then
    let data := df.headD ∅
    .ok { s with
      rows := s.rows ++ [
        { oxenId := env.uuid s.counter
          rowId := s.counter
          values := fun i => (data.lookup (env.file.columns.get i)).getD env.null
          status := .added
          hash := none }]
      counter := s.counter + 1 }
  else .error .incompatibleSchemas

def getHashAndStatusForModification (oldRow : Row env) (newValues : Values env) :
    Hash × StagedRowStatus :=
  let newHash := env.hashRow newValues
  let insertHash := oldRow.hash.getD (env.hashRow oldRow.values)
  let newStatus :=
    if oldRow.status = .added then .added
    else if oldRow.status = .removed then
      if insertHash = newHash then .unchanged else .modified
    else if oldRow.hash = none then .modified
    else if newHash = insertHash then .unchanged
    else .modified
  (insertHash, newStatus)

def modifiedRow (oldRow : Row env) (df : Data Value) : Row env :=
  let newValues := replaceColumns df oldRow.values
  let (insertHash, updatedStatus) := getHashAndStatusForModification oldRow newValues
  { oldRow with values := newValues, status := updatedStatus, hash := some insertHash }

/-- The checks of one row before it is modified, and the message when there is not one. -/
def checkModification (notOneRow : String) (rows : List (Row env)) (oxenId : String)
    (df : List (Data Value)) : Except RowError (Data Value) :=
  match df with
  | [data] =>
      if hasFieldNames env (data.keys.filter fun name => name ∉ oxenCols) then
        match findRow rows oxenId with
        | some _ => .ok data
        | none => .error (.basic "out of bounds")
      else .error .incompatibleSchemas
  | _ => .error (.basic notOneRow)

def modifyRow (rows : List (Row env)) (df : List (Data Value)) (oxenId : String) :
    Except RowError (List (Row env)) := do
  let data ← checkModification "Modify row requires exactly one row" rows oxenId df
  return rows.map fun row => if row.oxenId = oxenId then modifiedRow row data else row

def modifyRows (rows : List (Row env)) (rowMap : KeyedMap.Map String (Data Value)) :
    Except RowError (List (Row env)) := do
  (KeyedMap.toList rowMap).forM fun (rowId, data) => do
    let _ ← checkModification "df must have exactly one row to be used for modification" rows
      rowId (parseJsonToDf data)
  if rowMap = ∅ then throw .duckDb
  return rows.map fun row =>
    match rowMap.lookup row.oxenId with
    | some data => modifiedRow row data
    | none => row

def deleteRow (rows : List (Row env)) (oxenId : String) : Except RowError (List (Row env)) :=
  match findRow rows oxenId with
  | none => .error (.resourceNotFound oxenId)
  | some row =>
      if row.status = .added then .ok (rows.filter fun row => row.oxenId ≠ oxenId)
      else
        .ok (rows.map fun row =>
          if row.oxenId = oxenId then { row with status := .removed } else row)

/-- Of the full diff, whether a row is not unchanged. -/
def hasChanges (rows : List (Row env)) : Bool :=
  rows.any fun row => row.status ≠ .unchanged

/-! ## The calls -/

def add (s : State env) (data : Data Value) : Except RowError (State env) := do
  let appended ← appendRow s (parseJsonToDf data)
  return { appended with staged := true }

def update (s : State env) (rowId : String) (data : Data Value) :
    Except RowError (State env) :=
  match findRow s.rows rowId with
  | none => .error (.resourceNotFound "row not found")
  | some _ => do
      let rows ← modifyRow s.rows (parseJsonToDf data) rowId
      return { s with rows := rows, staged := hasChanges rows }

/-- Later items for one row replace earlier ones. -/
def batchUpdate (s : State env) (items : List (String × Data Value)) :
    Except RowError (State env) := do
  let rows ← modifyRows s.rows (KeyedMap.insertAll ∅ items)
  return { s with rows := rows }

def delete (s : State env) (rowId : String) : Except RowError (State env) := do
  let rows ← deleteRow s.rows rowId
  return { s with rows := rows, staged := hasChanges rows }

/-- The row of the committed file that a row was indexed from. -/
def committedAt (env : Env Value Hash) (rowId : ℕ) : Option (Values env) :=
  env.file.rows[rowId - 1]?

/-- A row of the file with its values by column. -/
def rowData (values : Values env) : Data Value :=
  KeyedMap.insertAll ∅ (List.ofFn fun i => (env.file.columns.get i, values i))

def prepareModifiedOrRemovedRow (row : Row env) : List (Data Value) :=
  ((committedAt env row.rowId).map rowData).toList

def restoreRowInDb (rows : List (Row env)) (rowId : String) :
    Except RowError (List (Row env)) :=
  match findRow rows rowId with
  | none => .error (.resourceNotFound rowId)
  | some row =>
      match row.status with
      | .added => deleteRow rows rowId
      | .modified => modifyRow rows (prepareModifiedOrRemovedRow row) rowId
      | .removed => modifyRow rows (prepareModifiedOrRemovedRow row) rowId
      | .unchanged => .ok rows

def restore (s : State env) (rowId : String) : Except RowError (State env) := do
  let rows ← restoreRowInDb s.rows rowId
  return { s with rows := rows, staged := hasChanges rows && s.staged }

/-- The data frame after indexing the committed file, which is not staged. -/
def index (env : Env Value Hash) : State env where
  rows := env.file.rows.mapIdx fun i values =>
    { oxenId := env.uuid (i + 1)
      rowId := i + 1
      values := values
      status := .unchanged
      hash := none }
  counter := env.file.rows.length + 1
  staged := false

inductive Call (Value : Type) where
  | add (data : Data Value)
  | update (rowId : String) (data : Data Value)
  | batchUpdate (items : List (String × Data Value))
  | delete (rowId : String)
  | restore (rowId : String)

def Call.run (s : State env) : Call Value → Except RowError (State env)
  | .add data => Rows.add s data
  | .update rowId data => Rows.update s rowId data
  | .batchUpdate items => Rows.batchUpdate s items
  | .delete rowId => Rows.delete s rowId
  | .restore rowId => Rows.restore s rowId

end Rows

end Oxen
