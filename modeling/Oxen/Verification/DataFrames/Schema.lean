import Oxen.Lib.Runs
import Oxen.Model.DataFrameColumns

/-! What the statements do to the schema, which leaves out the columns of its own. -/

namespace Oxen

variable {duck : DuckDb} {toLowercase : String → String}

namespace DuckDb

/-- A statement that has this text for a column means the column of exactly that name. -/
def Plain (duck : DuckDb) (name : String) : Prop :=
  duck.identifier name = some name

/-- A column declared with this type is shown with this type. -/
def ReadsBack (duck : DuckDb) (dtype : String) : Prop :=
  ∀ sql shown, DfColumns.sqlType dtype = .ok sql → duck.catalogueType sql = some shown →
    (DataType.fromSql shown).asStr = dtype

end DuckDb

/-- The table has the columns that indexing adds. -/
def Indexed (table : Table duck.fold) : Prop :=
  ∀ name ∈ oxenCols, ∃ c ∈ table.columns, c.name = name

private def fieldsOf (columns : List Column) : List Field :=
  (columns.filter fun c => c.name ∉ oxenCols).map Column.field

private theorem fieldsOf_append (xs ys : List Column) :
    fieldsOf (xs ++ ys) = fieldsOf xs ++ fieldsOf ys := by
  simp [fieldsOf]

private theorem fieldsOf_cons {c : Column} (hc : c.name ∉ oxenCols) (cs : List Column) :
    fieldsOf (c :: cs) = c.field :: fieldsOf cs := by
  simp [fieldsOf, hc]

private theorem mem_fieldsOf {columns : List Column} {f : Field} :
    f ∈ fieldsOf columns ↔ ∃ c ∈ columns, c.name ∉ oxenCols ∧ c.field = f := by
  simp [fieldsOf, and_assoc]

namespace Table

theorem eq_of_fold_eq {table : Table duck.fold} {c c' : Column} (hc : c ∈ table.columns)
    (hc' : c' ∈ table.columns) (h : duck.fold c.name = duck.fold c'.name) : c = c' :=
  List.inj_on_of_nodup_map table.distinct hc hc' h

/-- The column that a statement touches is the one of the field with the same name. -/
private theorem field_of_fold_eq {table : Table duck.fold} {before after : List Column}
    {c : Column} {f : Field} (hsplit : table.columns = before ++ c :: after)
    (hfold : duck.fold c.name = duck.fold f.name) (hf : f ∈ schemaWithoutOxenCols table) :
    c.field = f ∧ c.name ∉ oxenCols := by
  obtain ⟨c', hc', hoxen, hfield⟩ := mem_fieldsOf.mp hf
  have hname : c'.name = f.name := by rw [← hfield]; rfl
  have heq : c = c' := by
    apply eq_of_fold_eq (by simp [hsplit]) hc'
    rw [hfold, hname]
  subst heq
  exact ⟨hfield, hoxen⟩

/-- A name has one field. -/
theorem field_eq_of_name_eq {table : Table duck.fold} {f f' : Field}
    (hf : f ∈ schemaWithoutOxenCols table) (hf' : f' ∈ schemaWithoutOxenCols table)
    (h : f.name = f'.name) : f = f' := by
  obtain ⟨c, hc, -, rfl⟩ := mem_fieldsOf.mp hf
  obtain ⟨c', hc', -, rfl⟩ := mem_fieldsOf.mp hf'
  have hname : c.name = c'.name := h
  rw [eq_of_fold_eq hc hc' (by rw [hname])]

/-- A column under a new name is not one of those that indexing adds. -/
private theorem notMem_oxenCols {table : Table duck.fold} {before after : List Column}
    {c : Column} (hindexed : ∀ name ∈ oxenCols, ∃ c' ∈ before ++ after, c'.name = name)
    (hsplit : table.columns = before ++ c :: after) : c.name ∉ oxenCols := by
  intro hoxen
  obtain ⟨c', hc', hname⟩ := hindexed c.name hoxen
  have hdistinct := table.distinct
  rw [hsplit] at hdistinct
  have hperm : ((before ++ c :: after).map fun c => duck.fold c.name).Perm
      (duck.fold c.name :: (before ++ after).map fun c => duck.fold c.name) :=
    List.perm_middle.map _
  have hnodup := hperm.nodup_iff.mp hdistinct
  apply (List.nodup_cons.mp hnodup).1
  rw [← hname]
  exact List.mem_map_of_mem hc'

private theorem indexed_rest {table : Table duck.fold} {before after : List Column} {c : Column}
    (hindexed : Indexed table) (hsplit : table.columns = before ++ c :: after)
    (hc : c.name ∉ oxenCols) :
    ∀ name ∈ oxenCols, ∃ c' ∈ before ++ after, c'.name = name := by
  intro name hname
  obtain ⟨c', hc', rfl⟩ := hindexed name hname
  refine ⟨c', ?_, rfl⟩
  rw [hsplit] at hc'
  have hne : c' ≠ c := by
    rintro rfl
    exact hc hname
  simpa [hne] using hc'

end Table

open DfColumns

theorem execute_eq_ok {statement : AlterTable} {table table' : Table duck.fold}
    (h : DfColumns.execute statement table = .ok table') :
    duck.execute statement table = some table' := by
  unfold DfColumns.execute at h
  split at h
  · next heq => rw [heq, Except.ok.inj h]
  · cases h

theorem addColumn_ok {name dataType : String} {table table' : Table duck.fold}
    (hindexed : Indexed table) (hname : duck.Plain name) (htype : duck.ReadsBack dataType)
    (h : addColumn toLowercase ⟨name, dataType⟩ table = .ok table') :
    Indexed table' ∧
      (schemaWithoutOxenCols table').Perm (⟨name, dataType⟩ :: schemaWithoutOxenCols table) := by
  unfold addColumn at h
  split at h
  · cases h
  · obtain ⟨sql, hsql, hexecute⟩ := Runs.bind_eq_ok.mp h
    obtain ⟨shown, hshown, hcolumns⟩ := duck.execute_addColumn hname (execute_eq_ok hexecute)
    have hsplit : table'.columns = table.columns ++ ⟨name, shown⟩ :: [] := hcolumns
    have hrest : ∀ n ∈ oxenCols, ∃ c ∈ table.columns ++ [], c.name = n := by
      simpa [Indexed] using hindexed
    have hoxen := Table.notMem_oxenCols hrest hsplit
    refine ⟨fun n hn => ?_, ?_⟩
    · obtain ⟨c, hc, hcn⟩ := hindexed n hn
      exact ⟨c, by simp [hcolumns, hc], hcn⟩
    · have hfield : Column.field ⟨name, shown⟩ = ⟨name, dataType⟩ := by
        rw [Column.field, htype sql shown hsql hshown]
      change (fieldsOf table'.columns).Perm (_ :: fieldsOf table.columns)
      rw [hsplit, fieldsOf_append, fieldsOf_cons hoxen, hfield]
      exact List.perm_append_singleton _ _

theorem deleteColumn_ok {f : Field} {table table' : Table duck.fold} (hindexed : Indexed table)
    (hname : duck.Plain f.name) (hf : f ∈ schemaWithoutOxenCols table)
    (h : deleteColumn toLowercase f.name table = .ok table') :
    Indexed table' ∧
      (schemaWithoutOxenCols table).Perm (f :: schemaWithoutOxenCols table') := by
  unfold deleteColumn at h
  split at h
  · obtain ⟨before, c, after, hsplit, hfold, hcolumns⟩ :=
      duck.execute_dropColumn hname (execute_eq_ok h)
    obtain ⟨hfield, hoxen⟩ := Table.field_of_fold_eq hsplit hfold hf
    refine ⟨?_, ?_⟩
    · rw [Indexed, hcolumns]
      exact Table.indexed_rest hindexed hsplit hoxen
    · change (fieldsOf table.columns).Perm (_ :: fieldsOf table'.columns)
      rw [hsplit, hcolumns, fieldsOf_append, fieldsOf_append, fieldsOf_cons hoxen, hfield]
      exact List.perm_middle
  · cases h

private theorem retyped_ok {f : Field} {dataType sql : String} {table table' : Table duck.fold}
    (hindexed : Indexed table) (hname : duck.Plain f.name) (htype : duck.ReadsBack dataType)
    (hsql : sqlType dataType = .ok sql) (hf : f ∈ schemaWithoutOxenCols table)
    (h : DfColumns.execute (.alterColumnType f.name sql) table = .ok table') :
    Indexed table' ∧ ∃ rest, (schemaWithoutOxenCols table).Perm (f :: rest) ∧
      (schemaWithoutOxenCols table').Perm (⟨f.name, dataType⟩ :: rest) := by
  obtain ⟨before, c, after, shown, hsplit, hfold, hshown, hcolumns⟩ :=
    duck.execute_alterColumnType hname (execute_eq_ok h)
  obtain ⟨hfield, hoxen⟩ := Table.field_of_fold_eq hsplit hfold hf
  have hrest := Table.indexed_rest hindexed hsplit hoxen
  have hcname : c.name = f.name := by rw [← hfield]; rfl
  refine ⟨fun n hn => ?_, fieldsOf before ++ fieldsOf after, ?_, ?_⟩
  · obtain ⟨c', hc', hcn⟩ := hrest n hn
    exact ⟨c', by rw [hcolumns]; simp at hc' ⊢; tauto, hcn⟩
  · change (fieldsOf table.columns).Perm _
    rw [hsplit, fieldsOf_append, fieldsOf_cons hoxen, hfield]
    exact List.perm_middle
  · have hretyped : Column.field ⟨c.name, shown⟩ = ⟨f.name, dataType⟩ := by
      rw [Column.field, htype sql shown hsql hshown, hcname]
    change (fieldsOf table'.columns).Perm _
    rw [hcolumns, fieldsOf_append, fieldsOf_cons (c := ⟨c.name, shown⟩) hoxen, hretyped]
    exact List.perm_middle

private theorem renamed_ok {f : Field} {newName : String} {table table' : Table duck.fold}
    (hindexed : Indexed table) (hname : duck.Plain f.name) (hnew : duck.Plain newName)
    (hf : f ∈ schemaWithoutOxenCols table)
    (h : DfColumns.execute (.renameColumn f.name newName) table = .ok table') :
    Indexed table' ∧ ∃ rest, (schemaWithoutOxenCols table).Perm (f :: rest) ∧
      (schemaWithoutOxenCols table').Perm (⟨newName, f.dtype⟩ :: rest) := by
  obtain ⟨before, c, after, hsplit, hfold, hcolumns⟩ :=
    duck.execute_renameColumn hname hnew (execute_eq_ok h)
  obtain ⟨hfield, hoxen⟩ := Table.field_of_fold_eq hsplit hfold hf
  have hrest := Table.indexed_rest hindexed hsplit hoxen
  have hoxen' := Table.notMem_oxenCols hrest hcolumns
  refine ⟨fun n hn => ?_, fieldsOf before ++ fieldsOf after, ?_, ?_⟩
  · obtain ⟨c', hc', hcn⟩ := hrest n hn
    exact ⟨c', by rw [hcolumns]; simp at hc' ⊢; tauto, hcn⟩
  · change (fieldsOf table.columns).Perm _
    rw [hsplit, fieldsOf_append, fieldsOf_cons hoxen, hfield]
    exact List.perm_middle
  · have hrenamed : Column.field ⟨newName, c.dataType⟩ = ⟨newName, f.dtype⟩ := by
      rw [← hfield]; rfl
    change (fieldsOf table'.columns).Perm _
    rw [hcolumns, fieldsOf_append, fieldsOf_cons hoxen', hrenamed]
    exact List.perm_middle

theorem polarUpdateColumn_ok {f : Field} {column : ColumnToUpdate} {table table' : Table duck.fold}
    (hindexed : Indexed table) (hcolumn : column.name = f.name) (hname : duck.Plain f.name)
    (hnew : ∀ newName ∈ column.newName, duck.Plain newName)
    (htype : ∀ dataType ∈ column.newDataType, duck.ReadsBack dataType)
    (hf : f ∈ schemaWithoutOxenCols table) (h : polarUpdateColumn column table = .ok table') :
    Indexed table' ∧ ∃ rest, (schemaWithoutOxenCols table).Perm (f :: rest) ∧
      (schemaWithoutOxenCols table').Perm
        (⟨column.newName.getD f.name, column.newDataType.getD f.dtype⟩ :: rest) := by
  obtain ⟨name, newName, newDataType⟩ := column
  subst hcolumn
  obtain ⟨commands, hcommands, h⟩ := Runs.bind_eq_ok.mp h
  obtain ⟨dataTypes, hdataTypes, hcommands⟩ := Runs.bind_eq_ok.mp hcommands
  cases hcommands
  rw [List.foldlM_append, Runs.bind_eq_ok] at h
  obtain ⟨middle, hretype, hrename⟩ := h
  have hmiddle : Indexed middle ∧ ∃ rest, (schemaWithoutOxenCols table).Perm (f :: rest) ∧
      (schemaWithoutOxenCols middle).Perm (⟨f.name, newDataType.getD f.dtype⟩ :: rest) := by
    cases newDataType with
    | none =>
        cases hdataTypes
        cases hretype
        exact ⟨hindexed, _, List.perm_cons_erase hf, List.perm_cons_erase hf⟩
    | some dataType =>
        have hone : [dataType].mapM sqlType = .ok dataTypes := hdataTypes
        rw [List.mapM_cons, Runs.bind_eq_ok] at hone
        obtain ⟨sql, hsql, hone⟩ := hone
        cases hone
        apply retyped_ok hindexed hname (htype dataType rfl) hsql hf
        simpa using hretype
  obtain ⟨hindexed', rest, hold, hmid⟩ := hmiddle
  cases newName with
  | none =>
      cases hrename
      exact ⟨hindexed', rest, hold, hmid⟩
  | some newName =>
      have hf' : (⟨f.name, newDataType.getD f.dtype⟩ : Field) ∈ schemaWithoutOxenCols middle :=
        hmid.mem_iff.mpr (by simp)
      obtain ⟨hindexed'', rest', hmid', hnew'⟩ :=
        renamed_ok (f := ⟨f.name, newDataType.getD f.dtype⟩) hindexed' hname (hnew newName rfl)
          hf' (by simpa using hrename)
      have hrest : rest'.Perm rest := (hmid'.symm.trans hmid).cons_inv
      exact ⟨hindexed'', rest, hold, hnew'.trans (hrest.cons _)⟩

theorem updateColumn_ok {f : Field} {column : ColumnToUpdate} {table table' : Table duck.fold}
    (hindexed : Indexed table) (hcolumn : column.name = f.name) (hname : duck.Plain f.name)
    (hnew : ∀ newName ∈ column.newName, duck.Plain newName)
    (htype : ∀ dataType ∈ column.newDataType, duck.ReadsBack dataType)
    (hf : f ∈ schemaWithoutOxenCols table)
    (h : updateColumn toLowercase column (schemaWithoutOxenCols table) table = .ok table') :
    Indexed table' ∧ ∃ rest, (schemaWithoutOxenCols table).Perm (f :: rest) ∧
      (schemaWithoutOxenCols table').Perm
        (⟨column.newName.getD f.name, column.newDataType.getD f.dtype⟩ :: rest) := by
  unfold updateColumn at h
  split at h
  · exact polarUpdateColumn_ok hindexed hcolumn hname hnew htype hf h
  · cases h

end Oxen
