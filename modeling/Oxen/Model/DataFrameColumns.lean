import Mathlib.Algebra.GroupWithZero.Nat
import Oxen.Lib.KeyedMap

/-! Column edits of an indexed data frame: the `ALTER TABLE` statements on its table and the
log of column changes. Staging the edited file is left out: it touches neither. -/

namespace Oxen

inductive DataType where
  | boolean | uint8 | uint16 | uint32 | uint64 | int8 | int16 | int32 | int64
  | float32 | float64 | string | binary | date | time | datetime
  | embedding (size : ℕ)
  | list (inner : DataType)
  | struct
  | duration | null | unknown
deriving DecidableEq, Repr

namespace DataType

/-- The size in a text such as `embedding[3]`, for the text before the bracket. Its digits are
those of ASCII. -/
def bracketed (before s : String) : Option ℕ :=
  let start := before.toList ++ ['[']
  if start.isPrefixOf s.toList ∧ s.toList.getLast? = some ']' then
    let digits := (s.toList.drop start.length).dropLast
    if digits ≠ [] ∧ digits.all Char.isDigit then
      some (digits.foldl (fun n c => 10 * n + (c.toNat - '0'.toNat)) 0)
    else none
  else none

/-- A size out of the range of a `usize` is a panic. -/
def fromString (s : String) : Option DataType :=
  match s with
  | "bool" => some boolean
  | "uint8" => some uint8
  | "u16" => some uint16
  | "u32" => some uint32
  | "u64" => some uint64
  | "i8" => some int8
  | "i16" => some int16
  | "int" => some int32
  | "i32" => some int32
  | "i64" => some int64
  | "float" => some float32
  | "f32" => some float32
  | "double" => some float64
  | "f64" => some float64
  | "str" => some string
  | "binary" => some binary
  | "date" => some date
  | "datetime" => some datetime
  | "time" => some time
  | "duration" => some duration
  | "struct" => some struct
  | "null" => some null
  | "list[bool]" => some (list boolean)
  | "list[uint8]" => some (list uint8)
  | "list[u16]" => some (list uint16)
  | "list[u32]" => some (list uint32)
  | "list[u64]" => some (list uint64)
  | "list[i8]" => some (list int8)
  | "list[i16]" => some (list int16)
  | "list[i32]" => some (list int32)
  | "list[i64]" => some (list int64)
  | "list[f32]" => some (list float32)
  | "list[f64]" => some (list float64)
  | "list[str]" => some (list string)
  | "list[binary]" => some (list binary)
  | "list[date]" => some (list date)
  | "list[time]" => some (list time)
  | "list[?]" => some (list unknown)
  | typeName =>
      match bracketed "embedding" typeName with
      | some size => if size < 2 ^ 64 then some (embedding size) else none
      | none => some unknown

def asStr : DataType → String
  | boolean => "bool"
  | uint8 => "uint8"
  | uint16 => "u16"
  | uint32 => "u32"
  | uint64 => "u64"
  | int8 => "i8"
  | int16 => "i16"
  | int32 => "i32"
  | int64 => "i64"
  | float32 => "f32"
  | float64 => "f64"
  | string => "str"
  | binary => "binary"
  | date => "date"
  | datetime => "datetime"
  | time => "time"
  | duration => "duration"
  | struct => "struct"
  | list boolean => "list[bool]"
  | list uint8 => "list[uint8]"
  | list uint16 => "list[u16]"
  | list uint32 => "list[u32]"
  | list uint64 => "list[u64]"
  | list int8 => "list[i8]"
  | list int16 => "list[i16]"
  | list int32 => "list[i32]"
  | list int64 => "list[i64]"
  | list float32 => "list[f32]"
  | list float64 => "list[f64]"
  | list string => "list[str]"
  | list date => "list[date]"
  | list time => "list[time]"
  | list binary => "list[binary]"
  | list _ => "list[?]"
  | embedding size => "embedding[" ++ toString size ++ "]"
  | null => "null"
  | unknown => "?"

def toSql : DataType → String
  | boolean => "BOOL"
  | uint8 => "UTINYINT"
  | uint16 => "USMALLINT"
  | uint32 => "UINTEGER"
  | uint64 => "UBIGINT"
  | int8 => "TINYINT"
  | int16 => "SMALLINT"
  | int32 => "INTEGER"
  | int64 => "BIGINT"
  | float32 => "FLOAT"
  | float64 => "DOUBLE"
  | string => "VARCHAR"
  | binary => "BINARY"
  | date => "DATE"
  | time => "TIME"
  | datetime => "DATETIME"
  | duration => "INTERVAL"
  | struct => "JSON"
  | embedding size => "FLOAT[" ++ toString size ++ "]"
  | list boolean => "BOOL[]"
  | list uint8 => "UTINYINT[]"
  | list uint16 => "USMALLINT[]"
  | list uint32 => "UINTEGER[]"
  | list uint64 => "UBIGINT[]"
  | list int8 => "TINYINT[]"
  | list int16 => "SMALLINT[]"
  | list int32 => "INTEGER[]"
  | list int64 => "BIGINT[]"
  | list float32 => "FLOAT[]"
  | list float64 => "DOUBLE[]"
  | list string => "VARCHAR[]"
  | list binary => "BINARY[]"
  | list date => "DATE[]"
  | list time => "TIME[]"
  | list datetime => "DATETIME[]"
  | list _ => "UNKNOWN[]"
  | null => "NULL"
  | unknown => "UNKNOWN"

/-- The sizes that the catalogue shows are in range. -/
def fromSql (s : String) : DataType :=
  match s with
  | "BOOL" => boolean
  | "UTINYINT" => uint8
  | "USMALLINT" => uint16
  | "UINTEGER" => uint32
  | "UBIGINT" => uint64
  | "TINYINT" => int8
  | "SMALLINT" => int16
  | "INTEGER" => int32
  | "BIGINT" => int64
  | "FLOAT" => float32
  | "DOUBLE" => float64
  | "VARCHAR" => string
  | "BLOB" => binary
  | "DATE" => date
  | "TIME" => time
  | "TIMESTAMP" => datetime
  | "DATETIME" => datetime
  | "TIMESTAMP WITH TIME ZONE" => datetime
  | "TIMESTAMPTZ" => datetime
  | "NULL" => null
  | "UUID" => string
  | "BOOLEAN" => boolean
  | "INTERVAL" => duration
  | "JSON" => struct
  | "BOOL[]" => list boolean
  | "UTINYINT[]" => list uint8
  | "USMALLINT[]" => list uint16
  | "UINTEGER[]" => list uint32
  | "UBIGINT[]" => list uint64
  | "TINYINT[]" => list int8
  | "SMALLINT[]" => list int16
  | "INTEGER[]" => list int32
  | "BIGINT[]" => list int64
  | "FLOAT[]" => list float32
  | "DOUBLE[]" => list float64
  | "VARCHAR[]" => list string
  | "BLOB[]" => list binary
  | "DATE[]" => list date
  | "TIME[]" => list time
  | typeName =>
      match bracketed "FLOAT" typeName with
      | some size => embedding size
      | none => unknown

end DataType

/-- A column as the database's catalogue shows it. -/
structure Column where
  name : String
  dataType : String
deriving DecidableEq, Repr

/-- The columns of a table in order; no two names fold to one identifier. -/
structure Table (fold : String → String) where
  columns : List Column
  distinct : (columns.map fun c => fold c.name).Nodup

/-- A statement on the table, with the texts that are interpolated into it. -/
inductive AlterTable where
  /-- `ALTER TABLE df ADD COLUMN name dataType` -/
  | addColumn (name dataType : String)
  /-- `ALTER TABLE df DROP COLUMN name` -/
  | dropColumn (name : String)
  /-- `ALTER TABLE df ALTER COLUMN name TYPE dataType` -/
  | alterColumnType (name dataType : String)
  /-- `ALTER TABLE df RENAME COLUMN name TO newName` -/
  | renameColumn (name newName : String)
deriving DecidableEq, Repr

/-- DuckDB, as far as the column edits rely on it. What a statement does is known where its
names are identifiers: other texts, with quotes or a second statement, can do anything. -/
structure DuckDb where
  /-- Two names with one folding are the same identifier. -/
  fold : String → String
  /-- The identifier that a text in a statement is read as. -/
  identifier : String → Option String
  /-- The type that the catalogue shows for a column declared with a text. -/
  catalogueType : String → Option String
  /-- `none` where the statement fails. -/
  execute : AlterTable → Table fold → Option (Table fold)
  execute_addColumn : ∀ {name id dataType t t'}, identifier name = some id →
    execute (.addColumn name dataType) t = some t' →
    ∃ shown, catalogueType dataType = some shown ∧ t'.columns = t.columns ++ [⟨id, shown⟩]
  execute_dropColumn : ∀ {name id t t'}, identifier name = some id →
    execute (.dropColumn name) t = some t' →
    ∃ before c after, t.columns = before ++ c :: after ∧ fold c.name = fold id ∧
      t'.columns = before ++ after
  execute_alterColumnType : ∀ {name id dataType t t'}, identifier name = some id →
    execute (.alterColumnType name dataType) t = some t' →
    ∃ before c after shown, t.columns = before ++ c :: after ∧ fold c.name = fold id ∧
      catalogueType dataType = some shown ∧ t'.columns = before ++ ⟨c.name, shown⟩ :: after
  execute_renameColumn : ∀ {name id newName newId t t'}, identifier name = some id →
    identifier newName = some newId → execute (.renameColumn name newName) t = some t' →
    ∃ before c after, t.columns = before ++ c :: after ∧ fold c.name = fold id ∧
      t'.columns = before ++ ⟨newId, c.dataType⟩ :: after

/-- A field of the schema, with the name of its type. -/
structure Field where
  name : String
  dtype : String
deriving DecidableEq, Repr

namespace Schema

def hasColumn (toLowercase : String → String) (fields : List Field) (name : String) : Bool :=
  fields.any fun f => toLowercase f.name = toLowercase name

def getField (fields : List Field) (name : String) : Option Field :=
  fields.find? fun f => f.name = name

end Schema

structure NewColumn where
  name : String
  dataType : String
deriving DecidableEq, Repr

structure ColumnToUpdate where
  name : String
  newName : Option String
  newDataType : Option String
deriving DecidableEq, Repr

structure ColumnChange where
  columnName : String
  columnDataType : Option String
deriving DecidableEq, Repr

inductive ColumnOperation where
  | added | deleted | modified
deriving DecidableEq, Repr

structure DataFrameColumnChange where
  operation : ColumnOperation
  columnBefore : Option ColumnChange
  columnAfter : Option ColumnChange
deriving DecidableEq, Repr

inductive ColumnError where
  | columnNameAlreadyExists (name : String)
  | columnNameNotFound (name : String)
  | basic (message : String)
  | duckDb
  | panic
deriving DecidableEq, Repr

abbrev ColumnChanges := KeyedMap.Map String DataFrameColumnChange

structure DataFrameDb (duck : DuckDb) where
  table : Table duck.fold
  columnChanges : ColumnChanges

def oxenCols : List String :=
  ["_oxen_id", "_oxen_diff_status", "_oxen_row_id", "_oxen_diff_hash"]

section Columns

variable {duck : DuckDb} (toLowercase : String → String)

def Column.field (c : Column) : Field where
  name := c.name
  dtype := (DataType.fromSql c.dataType).asStr

def schemaWithoutOxenCols (table : Table duck.fold) : List Field :=
  (table.columns.filter fun c => c.name ∉ oxenCols).map Column.field

namespace DfColumns

def execute (statement : AlterTable) (table : Table duck.fold) :
    Except ColumnError (Table duck.fold) :=
  match duck.execute statement table with
  | some table' => .ok table'
  | none => .error .duckDb

/-- The type of a column as it stands in a statement. -/
def sqlType (dataType : String) : Except ColumnError String :=
  match DataType.fromString dataType with
  | some dataType => .ok dataType.toSql
  | none => .error .panic

def addColumn (newColumn : NewColumn) (table : Table duck.fold) :
    Except ColumnError (Table duck.fold) :=
  if Schema.hasColumn toLowercase (schemaWithoutOxenCols table) newColumn.name then
    .error (.columnNameAlreadyExists newColumn.name)
  else do
    let dataType ← sqlType newColumn.dataType
    execute (.addColumn newColumn.name dataType) table

def deleteColumn (name : String) (table : Table duck.fold) :
    Except ColumnError (Table duck.fold) :=
  if Schema.hasColumn toLowercase (schemaWithoutOxenCols table) name then
    execute (.dropColumn name) table
  else .error (.columnNameNotFound name)

def sqlCommands (column : ColumnToUpdate) : Except ColumnError (List AlterTable) := do
  let dataTypes ← column.newDataType.toList.mapM sqlType
  return dataTypes.map (.alterColumnType column.name) ++
    column.newName.toList.map (.renameColumn column.name)

def polarUpdateColumn (column : ColumnToUpdate) (table : Table duck.fold) :
    Except ColumnError (Table duck.fold) := do
  let commands ← sqlCommands column
  commands.foldlM (fun table sql => execute sql table) table

def updateColumn (column : ColumnToUpdate) (fields : List Field) (table : Table duck.fold) :
    Except ColumnError (Table duck.fold) :=
  if Schema.hasColumn toLowercase fields column.name then polarUpdateColumn column table
  else .error (.columnNameNotFound column.name)

/-- The key of a record: the new name or, without one, the old one. -/
def saveDataFrameColumnChanges (db : ColumnChanges) (change : DataFrameColumnChange) :
    Except ColumnError ColumnChanges :=
  match change.columnAfter, change.columnBefore with
  | some after, _ => .ok (db.insert after.columnName change)
  | none, some before => .ok (db.insert before.columnName change)
  | none, none => .error .panic

def maybeRevertColumnChanges (db : ColumnChanges) : Option ColumnChange → ColumnChanges
  | some column =>
      match db.lookup column.columnName with
      | some _ => db.erase column.columnName
      | none => db
  | none => db

def recordColumnChange (db : ColumnChanges) (operation : ColumnOperation)
    (columnBefore columnAfter : Option ColumnChange) : Except ColumnError ColumnChanges :=
  let record := saveDataFrameColumnChanges
    (maybeRevertColumnChanges (maybeRevertColumnChanges db columnBefore) columnAfter)
    ⟨operation, columnBefore, columnAfter⟩
  match operation, columnBefore with
  | .deleted, some column =>
      match db.lookup column.columnName with
      | some previousChange =>
          -- Deleting a previously added column just removes the change.
          if previousChange.operation = .added then .ok (db.erase column.columnName) else record
      | none => record
  | _, _ => record

end DfColumns

namespace Columns

open DfColumns

def add (newColumn : NewColumn) (df : DataFrameDb duck) :
    Except ColumnError (DataFrameDb duck) := do
  let table ← addColumn toLowercase newColumn df.table
  let columnChanges ← recordColumnChange df.columnChanges .added none
    (some ⟨newColumn.name, some newColumn.dataType⟩)
  return ⟨table, columnChanges⟩

def delete (name : String) (df : DataFrameDb duck) : Except ColumnError (DataFrameDb duck) :=
  match Schema.getField (schemaWithoutOxenCols df.table) name with
  | none => .error (.basic "A column with the given name does not exist")
  | some field => do
      let table ← deleteColumn toLowercase name df.table
      let columnChanges ← recordColumnChange df.columnChanges .deleted
        (some ⟨name, some field.dtype⟩) none
      return ⟨table, columnChanges⟩

def update (column : ColumnToUpdate) (df : DataFrameDb duck) :
    Except ColumnError (DataFrameDb duck) := do
  let tableSchema := schemaWithoutOxenCols df.table
  let table ← updateColumn toLowercase column tableSchema df.table
  match Schema.getField tableSchema column.name with
  | none => .error .panic
  | some field =>
      let columnBefore := ⟨column.name, some field.dtype⟩
      let columnAfter :=
        ⟨column.newName.getD column.name, some (column.newDataType.getD field.dtype)⟩
      let columnChanges ← recordColumnChange df.columnChanges .modified
        (some columnBefore) (some columnAfter)
      return ⟨table, columnChanges⟩

def restore (name : String) (df : DataFrameDb duck) : Except ColumnError (DataFrameDb duck) :=
  match df.columnChanges.lookup name with
  | none => .error (.columnNameNotFound ("Column to restore not found: " ++ name))
  | some ⟨.added, _, none⟩ =>
      .error (.basic "To restore an add, the column after object has to be defined")
  | some ⟨.added, _, some after⟩ => do
      let table ← deleteColumn toLowercase after.columnName df.table
      return ⟨table, df.columnChanges.erase after.columnName⟩
  | some ⟨.deleted, none, _⟩ =>
      .error (.basic "To restore a delete, the column before object has to be defined")
  | some ⟨.deleted, some ⟨_, none⟩, _⟩ =>
      .error (.basic "Column data type is required but was None")
  | some ⟨.deleted, some ⟨columnName, some dataType⟩, _⟩ => do
      let table ← addColumn toLowercase ⟨columnName, dataType⟩ df.table
      return ⟨table, df.columnChanges.erase columnName⟩
  | some ⟨.modified, none, _⟩ =>
      .error (.basic "To restore a modify, the column before object has to be defined")
  | some ⟨.modified, some ⟨_, none⟩, _⟩ =>
      .error (.basic "column_data_type is None, cannot unwrap")
  | some ⟨.modified, some ⟨_, some _⟩, none⟩ =>
      .error (.basic "To restore a modify, the column after object has to be defined")
  | some ⟨.modified, some ⟨columnName, some dataType⟩, some after⟩ => do
      let table ← updateColumn toLowercase ⟨after.columnName, some columnName, some dataType⟩
        (schemaWithoutOxenCols df.table) df.table
      return ⟨table, df.columnChanges.erase after.columnName⟩

inductive Call where
  | add (newColumn : NewColumn)
  | update (column : ColumnToUpdate)
  | delete (name : String)
  | restore (name : String)
deriving DecidableEq, Repr

def Call.run : Call → DataFrameDb duck → Except ColumnError (DataFrameDb duck)
  | .add newColumn => Columns.add toLowercase newColumn
  | .update column => Columns.update toLowercase column
  | .delete name => Columns.delete toLowercase name
  | .restore name => Columns.restore toLowercase name

def runAll (calls : List Call) (df : DataFrameDb duck) : Except ColumnError (DataFrameDb duck) :=
  calls.foldlM (fun df call => call.run toLowercase df) df

end Columns

/-- The records in some order: the database yields them by key. -/
def getColumnDiff (df : DataFrameDb duck) : List DataFrameColumnChange :=
  (KeyedMap.toList df.columnChanges).map Prod.snd

end Columns

end Oxen
