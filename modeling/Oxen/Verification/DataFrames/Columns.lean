import Mathlib.Data.List.Perm.Basic
import Mathlib.Data.List.Count
import Oxen.Verification.DataFrames.Schema

/-! The log of column changes, read as edits of the committed schema. -/

namespace Oxen

def Field.change (f : Field) : ColumnChange where
  columnName := f.name
  columnDataType := some f.dtype

namespace DataFrameColumnChange

/-- An added column is new, a deleted one is gone, a modified one has become another. -/
def WellFormed (change : DataFrameColumnChange) : Prop :=
  match change.operation with
  | .added => change.columnBefore = none ∧ change.columnAfter.isSome
  | .deleted => change.columnBefore.isSome ∧ change.columnAfter = none
  | .modified => change.columnBefore.isSome ∧ change.columnAfter.isSome

end DataFrameColumnChange

namespace Columns

open DfColumns Runs

def befores (changes : List DataFrameColumnChange) : List ColumnChange :=
  changes.filterMap DataFrameColumnChange.columnBefore

def afters (changes : List DataFrameColumnChange) : List ColumnChange :=
  changes.filterMap DataFrameColumnChange.columnAfter

variable {duck : DuckDb} {toLowercase : String → String} {committed : List Field}
  {df df' : DataFrameDb duck} {name : String}

/-- The records are edits of the committed columns, none of them edited twice, and their
outcome is the schema; all of them restored, in whatever order that succeeds, give the
committed columns and an empty log. -/
structure LogExplains (toLowercase : String → String) (committed : List Field)
    (df : DataFrameDb duck) : Prop where
  wellFormed : ∀ change ∈ getColumnDiff df, change.WellFormed
  befores_subperm : (befores (getColumnDiff df)).Subperm (committed.map Field.change)
  schema_perm : ((schemaWithoutOxenCols df.table).map Field.change).Perm
    ((committed.map Field.change).diff (befores (getColumnDiff df)) ++ afters (getColumnDiff df))
  restored : ∀ names : List String, names.Perm df.columnChanges.keys → ∀ df' : DataFrameDb duck,
    runAll toLowercase (names.map .restore) df = .ok df' →
      (schemaWithoutOxenCols df'.table).Perm committed ∧ getColumnDiff df' = []

/-- When a call does not disturb the log: its names and types read as they are written, and
what it edits has no record that the new one would have to continue. -/
def Call.Meets (df : DataFrameDb duck) : Call → Prop
  | .add newColumn => duck.Plain newColumn.name ∧ duck.ReadsBack newColumn.dataType ∧
      df.columnChanges.lookup newColumn.name = none
  | .update column => duck.Plain column.name ∧
      (∀ newName ∈ column.newName, duck.Plain newName) ∧
      (∀ newDataType ∈ column.newDataType, duck.ReadsBack newDataType) ∧
      (∀ f ∈ Schema.getField (schemaWithoutOxenCols df.table) column.name,
        duck.ReadsBack f.dtype) ∧
      (∀ change ∈ df.columnChanges.lookup column.name,
        change.columnBefore = change.columnAfter) ∧
      ∀ newName ∈ column.newName, newName ≠ column.name →
        df.columnChanges.lookup newName = none
  | .delete name => duck.Plain name ∧
      (∀ f ∈ Schema.getField (schemaWithoutOxenCols df.table) name, duck.ReadsBack f.dtype) ∧
      ∀ change ∈ df.columnChanges.lookup name,
        change.operation = .added ∨ change.columnBefore = change.columnAfter
  | .restore _ => True

/-- A successful call that does not disturb the log. -/
def Step (toLowercase : String → String) (call : Call) (df df' : DataFrameDb duck) : Prop :=
  call.Meets df ∧ call.run toLowercase df = .ok df'

/-! ## The records -/

/-- A record as the calls write it under a name, with what its restore needs to know. -/
inductive Recorded (duck : DuckDb) (name : String) : DataFrameColumnChange → Prop
  | added {dtype} (hname : duck.Plain name) :
      Recorded duck name ⟨.added, none, some ⟨name, some dtype⟩⟩
  | deleted {dtype} (hname : duck.Plain name) (htype : duck.ReadsBack dtype) :
      Recorded duck name ⟨.deleted, some ⟨name, some dtype⟩, none⟩
  | modified {old oldType dtype} (hold : duck.Plain old) (hname : duck.Plain name)
      (htype : duck.ReadsBack oldType) :
      Recorded duck name ⟨.modified, some ⟨old, some oldType⟩, some ⟨name, some dtype⟩⟩

namespace Recorded

variable {change : DataFrameColumnChange}

theorem wellFormed (h : Recorded duck name change) : change.WellFormed := by
  cases h <;> simp [DataFrameColumnChange.WellFormed]

theorem name_of_after {after : ColumnChange} (h : Recorded duck name change)
    (hafter : change.columnAfter = some after) : after.columnName = name := by
  cases h with
  | added => cases hafter; rfl
  | deleted => cases hafter
  | modified => cases hafter; rfl

end Recorded

/-! ## What a call keeps -/

/-- The log accounts for every column: what is there and what was replaced is what was
committed and what replaced it. -/
structure Tracked (committed : List Field) (df : DataFrameDb duck) : Prop where
  indexed : Indexed df.table
  recorded : ∀ name change, df.columnChanges.lookup name = some change →
    Recorded duck name change
  befores_le : ∀ x, (befores (getColumnDiff df)).count x ≤ (committed.map Field.change).count x
  balance : ∀ x, ((schemaWithoutOxenCols df.table).map Field.change).count x +
      (befores (getColumnDiff df)).count x =
    (committed.map Field.change).count x + (afters (getColumnDiff df)).count x

theorem getColumnDiff_erase {change : DataFrameColumnChange}
    (h : df.columnChanges.lookup name = some change) (table : Table duck.fold) :
    (getColumnDiff df).Perm (change :: getColumnDiff ⟨table, df.columnChanges.erase name⟩) :=
  (KeyedMap.perm_toList_erase h).map Prod.snd

theorem getColumnDiff_insert {changes : ColumnChanges} (change : DataFrameColumnChange)
    (h : changes.lookup name = none) (table table' : Table duck.fold) :
    getColumnDiff (⟨table, changes.insert name change⟩ : DataFrameDb duck) =
      change :: getColumnDiff (⟨table', changes⟩ : DataFrameDb duck) := by
  unfold getColumnDiff
  rw [KeyedMap.toList_insert_of_notMem (AList.lookup_eq_none.mp h)]
  rfl

theorem count_befores_cons (change : DataFrameColumnChange)
    (changes : List DataFrameColumnChange) (x : ColumnChange) :
    (befores (change :: changes)).count x =
      change.columnBefore.toList.count x + (befores changes).count x := by
  cases h : change.columnBefore <;> simp [befores, h, List.count_cons, Nat.add_comm]

theorem count_afters_cons (change : DataFrameColumnChange)
    (changes : List DataFrameColumnChange) (x : ColumnChange) :
    (afters (change :: changes)).count x =
      change.columnAfter.toList.count x + (afters changes).count x := by
  cases h : change.columnAfter <;> simp [afters, h, List.count_cons, Nat.add_comm]

theorem count_befores_perm {changes changes' : List DataFrameColumnChange}
    (h : changes.Perm changes') (x : ColumnChange) :
    (befores changes).count x = (befores changes').count x :=
  (h.filterMap _).count_eq x

theorem count_afters_perm {changes changes' : List DataFrameColumnChange}
    (h : changes.Perm changes') (x : ColumnChange) :
    (afters changes).count x = (afters changes').count x :=
  (h.filterMap _).count_eq x

theorem count_schema {fields fields' : List Field} {f : Field} (h : fields.Perm (f :: fields'))
    (x : ColumnChange) : (fields.map Field.change).count x =
      [f.change].count x + (fields'.map Field.change).count x := by
  rw [(h.map Field.change).count_eq, List.map_cons, List.count_cons, List.count_singleton,
    Nat.add_comm]

namespace Tracked

variable {change : DataFrameColumnChange}

/-- Erasing a record together with its edit. -/
theorem erase (h : Tracked committed df) (hlookup : df.columnChanges.lookup name = some change)
    {table : Table duck.fold} (hindexed : Indexed table)
    (hschema : ∀ x, ((schemaWithoutOxenCols table).map Field.change).count x +
        change.columnAfter.toList.count x =
      ((schemaWithoutOxenCols df.table).map Field.change).count x +
        change.columnBefore.toList.count x) :
    Tracked committed ⟨table, df.columnChanges.erase name⟩ := by
  have hperm := getColumnDiff_erase hlookup table
  refine ⟨hindexed, ?_, ?_, ?_⟩
  · intro name' change' hlookup'
    by_cases hne : name' = name
    · subst hne
      simp at hlookup'
    · exact h.recorded _ _ (by rwa [AList.lookup_erase_ne hne] at hlookup')
  · intro x
    have hle := h.befores_le x
    rw [count_befores_perm hperm, count_befores_cons] at hle
    omega
  · intro x
    have hbalance := h.balance x
    rw [count_befores_perm hperm, count_befores_cons, count_afters_perm hperm,
      count_afters_cons] at hbalance
    have hx := hschema x
    simp only at hx hbalance ⊢
    omega

/-- A record of nothing can go. -/
theorem erase_of_eq (h : Tracked committed df)
    (hlookup : df.columnChanges.lookup name = some change)
    (heq : change.columnBefore = change.columnAfter) :
    Tracked committed ⟨df.table, df.columnChanges.erase name⟩ :=
  h.erase hlookup h.indexed fun x => by rw [heq]

theorem maybeRevert (h : Tracked committed df) {columnDataType : Option String}
    (heq : ∀ change ∈ df.columnChanges.lookup name, change.columnBefore = change.columnAfter) :
    Tracked committed ⟨df.table,
      maybeRevertColumnChanges df.columnChanges (some ⟨name, columnDataType⟩)⟩ := by
  unfold maybeRevertColumnChanges
  cases hlookup : df.columnChanges.lookup name with
  | none => simpa [hlookup] using h
  | some change =>
      simp only [hlookup]
      exact h.erase_of_eq hlookup (heq change hlookup)

/-- A new record together with its edit. -/
theorem insert (h : Tracked committed df) (hlookup : df.columnChanges.lookup name = none)
    (hrecorded : Recorded duck name change) {table : Table duck.fold} (hindexed : Indexed table)
    (hbefore : ∀ x, change.columnBefore.toList.count x + (befores (getColumnDiff df)).count x ≤
      (committed.map Field.change).count x)
    (hschema : ∀ x, ((schemaWithoutOxenCols table).map Field.change).count x +
        change.columnBefore.toList.count x =
      ((schemaWithoutOxenCols df.table).map Field.change).count x +
        change.columnAfter.toList.count x) :
    Tracked committed ⟨table, df.columnChanges.insert name change⟩ := by
  have hinsert : getColumnDiff ⟨table, df.columnChanges.insert name change⟩ =
      change :: getColumnDiff df := getColumnDiff_insert change hlookup table df.table
  refine ⟨hindexed, ?_, ?_, ?_⟩
  · intro name' change' hlookup'
    by_cases hne : name' = name
    · subst hne
      rw [AList.lookup_insert] at hlookup'
      cases hlookup'
      exact hrecorded
    · exact h.recorded _ _ (by rwa [AList.lookup_insert_ne hne] at hlookup')
  · intro x
    rw [hinsert, count_befores_cons]
    exact hbefore x
  · intro x
    have hbalance := h.balance x
    have hx := hschema x
    rw [hinsert, count_befores_cons, count_afters_cons]
    simp only at hx hbalance ⊢
    omega

theorem count_befores_lt (h : Tracked committed df)
    (hlookup : df.columnChanges.lookup name = none) {f : Field} (hname : f.name = name)
    (hf : f ∈ schemaWithoutOxenCols df.table) (x : ColumnChange) :
    [f.change].count x + (befores (getColumnDiff df)).count x ≤
      (committed.map Field.change).count x := by
  by_cases hx : x = f.change
  · subst hx
    -- A column that replaced another has a record under its name.
    have hafters : (afters (getColumnDiff df)).count f.change = 0 := by
      rw [List.count_eq_zero]
      intro hmem
      obtain ⟨change, hchange, hafter⟩ := List.mem_filterMap.mp hmem
      obtain ⟨⟨key, change'⟩, hkey, rfl⟩ := List.mem_map.mp hchange
      have hrecord := KeyedMap.mem_toList.mp hkey
      have hkeyname := (h.recorded _ _ hrecord).name_of_after hafter
      rw [← hkeyname, Field.change, hname, hlookup] at hrecord
      cases hrecord
    have hcount : 0 < ((schemaWithoutOxenCols df.table).map Field.change).count f.change :=
      List.count_pos_iff.mpr (List.mem_map_of_mem hf)
    have hbalance := h.balance f.change
    simp only [List.count_singleton_self]
    omega
  · have hle := h.befores_le x
    simpa [List.count_singleton, Ne.symm hx] using hle

theorem mem_schema (h : Tracked committed df) {after : ColumnChange}
    (hlookup : df.columnChanges.lookup name = some change)
    (hafter : change.columnAfter = some after) :
    ∃ f ∈ schemaWithoutOxenCols df.table, f.change = after := by
  have hmem : after ∈ afters (getColumnDiff df) :=
    List.mem_filterMap.mpr ⟨change, List.mem_map_of_mem (KeyedMap.mem_toList.mpr hlookup), hafter⟩
  have hpos := List.count_pos_iff.mpr hmem
  have hbalance := h.balance after
  have hle := h.befores_le after
  have hcount : 0 < ((schemaWithoutOxenCols df.table).map Field.change).count after := by omega
  obtain ⟨f, hf, hchange⟩ := List.mem_map.mp (List.count_pos_iff.mp hcount)
  exact ⟨f, hf, hchange⟩

end Tracked

/-! ## Steps -/

theorem getField_some {fields : List Field} {f : Field}
    (h : Schema.getField fields name = some f) : f ∈ fields ∧ f.name = name := by
  refine ⟨List.mem_of_find?_eq_some h, ?_⟩
  simpa using List.find?_some h

theorem recordColumnChange_of_ne_deleted {changes : ColumnChanges} {operation : ColumnOperation}
    (hop : operation ≠ .deleted) (before : Option ColumnChange) (after : ColumnChange) :
    recordColumnChange changes operation before (some after) =
      .ok ((maybeRevertColumnChanges (maybeRevertColumnChanges changes before)
        (some after)).insert after.columnName ⟨operation, before, some after⟩) := by
  cases operation with
  | deleted => exact absurd rfl hop
  | added => rfl
  | modified => rfl

theorem lookup_maybeRevert (changes : ColumnChanges) (column : ColumnChange) :
    (maybeRevertColumnChanges changes (some column)).lookup column.columnName = none := by
  unfold maybeRevertColumnChanges
  cases h : changes.lookup column.columnName <;> simp [h]

theorem lookup_maybeRevert_ne (changes : ColumnChanges) {column : ColumnChange}
    (hne : name ≠ column.columnName) :
    (maybeRevertColumnChanges changes (some column)).lookup name = changes.lookup name := by
  unfold maybeRevertColumnChanges
  cases h : changes.lookup column.columnName <;> simp [h, AList.lookup_erase_ne hne]

theorem maybeRevert_of_lookup_none {changes : ColumnChanges} {column : ColumnChange}
    (h : changes.lookup column.columnName = none) :
    maybeRevertColumnChanges changes (some column) = changes := by
  simp [maybeRevertColumnChanges, h]

theorem tracked_add (h : Tracked committed df) {newColumn : NewColumn}
    (hmeets : Call.Meets df (.add newColumn)) (hrun : add toLowercase newColumn df = .ok df') :
    Tracked committed df' := by
  obtain ⟨hname, htype, hlookup⟩ := hmeets
  obtain ⟨table, htable, hrun⟩ := bind_eq_ok.mp hrun
  obtain ⟨changes, hchanges, hrun⟩ := bind_eq_ok.mp hrun
  cases hrun
  rw [recordColumnChange_of_ne_deleted (by decide)] at hchanges
  cases hchanges
  obtain ⟨hindexed, hperm⟩ := addColumn_ok h.indexed hname htype htable
  have hcount := count_schema hperm
  rw [show maybeRevertColumnChanges df.columnChanges none = df.columnChanges from rfl,
    maybeRevert_of_lookup_none hlookup]
  apply h.insert hlookup (.added hname) hindexed
  · intro x
    simpa using h.befores_le x
  · intro x
    rw [hcount x]
    simp [Field.change, Nat.add_comm]

theorem tracked_delete (h : Tracked committed df) (hmeets : Call.Meets df (.delete name))
    (hrun : delete toLowercase name df = .ok df') : Tracked committed df' := by
  obtain ⟨hname, htype, hrecord⟩ := hmeets
  unfold delete at hrun
  cases hfield : Schema.getField (schemaWithoutOxenCols df.table) name with
  | none => simp [hfield] at hrun
  | some f =>
      simp only [hfield] at hrun
      obtain ⟨table, htable, hrun⟩ := bind_eq_ok.mp hrun
      obtain ⟨changes, hchanges, hrun⟩ := bind_eq_ok.mp hrun
      cases hrun
      obtain ⟨hf, rfl⟩ := getField_some hfield
      obtain ⟨hindexed, hperm⟩ := deleteColumn_ok h.indexed hname hf htable
      have hcount := count_schema hperm
      have hbefore : (⟨f.name, some f.dtype⟩ : ColumnChange) = f.change := rfl
      have hnew : (∀ change ∈ df.columnChanges.lookup f.name,
          change.columnBefore = change.columnAfter) →
          saveDataFrameColumnChanges (maybeRevertColumnChanges (maybeRevertColumnChanges
            df.columnChanges (some f.change)) none) ⟨.deleted, some f.change, none⟩ = .ok changes →
          Tracked committed ⟨table, changes⟩ := by
        intro heq hsave
        cases hsave
        have hreverted := @Tracked.maybeRevert _ _ _ _ h (some f.dtype) heq
        have hnone := lookup_maybeRevert df.columnChanges f.change
        apply hreverted.insert hnone (.deleted hname (htype f hfield)) hindexed
        · exact hreverted.count_befores_lt hnone rfl hf
        · intro x
          rw [hcount x]
          simp [Field.change, Nat.add_comm]
      rw [hbefore] at hchanges
      unfold recordColumnChange at hchanges
      cases hlookup : df.columnChanges.lookup f.name with
      | none =>
          have hlookup' : df.columnChanges.lookup f.change.columnName = none := hlookup
          simp only [hlookup'] at hchanges
          exact hnew (by simp [hlookup]) hchanges
      | some change =>
          have hlookup' : df.columnChanges.lookup f.change.columnName = some change := hlookup
          simp only [hlookup'] at hchanges
          by_cases hadded : change.operation = .added
          · rw [if_pos hadded] at hchanges
            cases hchanges
            have hrecorded := h.recorded _ _ hlookup
            cases hrecorded with
            | deleted => cases hadded
            | modified => cases hadded
            | added =>
                obtain ⟨f', hf', hchange⟩ := h.mem_schema hlookup rfl
                obtain rfl : f' = f :=
                  Table.field_eq_of_name_eq hf' hf (congrArg ColumnChange.columnName hchange)
                apply h.erase hlookup hindexed
                intro x
                rw [hcount x, hchange]
                simp [Nat.add_comm]
          · rw [if_neg hadded] at hchanges
            apply hnew _ hchanges
            intro change' hchange'
            rw [hlookup] at hchange'
            cases hchange'
            exact (hrecord change hlookup).resolve_left hadded

theorem tracked_update (h : Tracked committed df) {column : ColumnToUpdate}
    (hmeets : Call.Meets df (.update column)) (hrun : update toLowercase column df = .ok df') :
    Tracked committed df' := by
  obtain ⟨hname, hnewName, hnewType, htype, hrecord, hfree⟩ := hmeets
  obtain ⟨table, htable, hrun⟩ := bind_eq_ok.mp hrun
  cases hfield : Schema.getField (schemaWithoutOxenCols df.table) column.name with
  | none => simp [hfield] at hrun
  | some f =>
      simp only [hfield] at hrun
      obtain ⟨changes, hchanges, hrun⟩ := bind_eq_ok.mp hrun
      cases hrun
      obtain ⟨hf, hfname⟩ := getField_some hfield
      rw [recordColumnChange_of_ne_deleted (by decide)] at hchanges
      cases hchanges
      rw [← hfname] at hname hrecord hfree ⊢
      obtain ⟨hindexed, rest, hold, hnew⟩ :=
        updateColumn_ok h.indexed hfname.symm hname hnewName hnewType hf htable
      have hreverted := @Tracked.maybeRevert _ _ _ _ h (some f.dtype) hrecord
      have hnone := lookup_maybeRevert df.columnChanges ⟨f.name, some f.dtype⟩
      -- Where the column takes a new name, no record is under it.
      have hnone' : (maybeRevertColumnChanges df.columnChanges
          (some ⟨f.name, some f.dtype⟩)).lookup (column.newName.getD f.name) = none := by
        by_cases heq : column.newName.getD f.name = f.name
        · rw [heq]
          exact hnone
        · obtain ⟨newName, hsome⟩ : ∃ newName, column.newName = some newName := by
            cases hn : column.newName with
            | none => simp [hn] at heq
            | some newName => exact ⟨newName, rfl⟩
          have hne : newName ≠ f.name := by simpa [hsome] using heq
          rw [hsome, Option.getD_some, lookup_maybeRevert_ne _ hne]
          exact hfree newName hsome hne
      rw [maybeRevert_of_lookup_none hnone']
      have hplain : duck.Plain (column.newName.getD f.name) := by
        cases hn : column.newName with
        | none => exact hname
        | some newName => exact hnewName newName hn
      apply hreverted.insert hnone' (.modified hname hplain (htype f (hfname ▸ hfield))) hindexed
      · exact hreverted.count_befores_lt hnone rfl hf
      · intro x
        rw [count_schema hold, count_schema hnew]
        simp [Field.change]
        omega

theorem tracked_restore (h : Tracked committed df)
    (hrun : restore toLowercase name df = .ok df') :
    Tracked committed df' ∧ df'.columnChanges = df.columnChanges.erase name := by
  unfold restore at hrun
  cases hlookup : df.columnChanges.lookup name with
  | none => simp [hlookup] at hrun
  | some change =>
      rw [hlookup] at hrun
      have hrecorded := h.recorded _ _ hlookup
      cases hrecorded with
      | added hname =>
          obtain ⟨table, htable, hrun⟩ := bind_eq_ok.mp hrun
          cases hrun
          obtain ⟨f, hf, hchange⟩ := h.mem_schema hlookup rfl
          obtain rfl : f.name = name := congrArg ColumnChange.columnName hchange
          obtain ⟨hindexed, hperm⟩ := deleteColumn_ok h.indexed hname hf htable
          refine ⟨h.erase hlookup hindexed fun x => ?_, rfl⟩
          rw [count_schema hperm, hchange]
          simp [Nat.add_comm]
      | deleted hname htype =>
          obtain ⟨table, htable, hrun⟩ := bind_eq_ok.mp hrun
          cases hrun
          obtain ⟨hindexed, hperm⟩ := addColumn_ok h.indexed hname htype htable
          refine ⟨h.erase hlookup hindexed fun x => ?_, rfl⟩
          rw [count_schema hperm]
          simp [Field.change, Nat.add_comm]
      | modified hold hname htype =>
          obtain ⟨table, htable, hrun⟩ := bind_eq_ok.mp hrun
          cases hrun
          obtain ⟨f, hf, hchange⟩ := h.mem_schema hlookup rfl
          obtain rfl : f.name = name := congrArg ColumnChange.columnName hchange
          obtain ⟨hindexed, rest, hbefore, hafter⟩ := updateColumn_ok h.indexed rfl hname
            (by simpa using hold) (by simpa using htype) hf htable
          refine ⟨h.erase hlookup hindexed fun x => ?_, rfl⟩
          rw [count_schema hbefore, count_schema hafter, ← hchange]
          simp [Field.change]
          omega

theorem tracked_step (call : Call) (df df' : DataFrameDb duck)
    (hstep : Step toLowercase call df df') (h : Tracked committed df) : Tracked committed df' := by
  obtain ⟨hmeets, hrun⟩ := hstep
  cases call with
  | add newColumn => exact tracked_add h hmeets hrun
  | update column => exact tracked_update h hmeets hrun
  | delete name => exact tracked_delete h hmeets hrun
  | restore name => exact (tracked_restore h hrun).1

/-! ## Runs -/

theorem Tracked.start {df₀ : DataFrameDb duck} (hindexed : Indexed df₀.table)
    (hempty : df₀.columnChanges = ∅) : Tracked (schemaWithoutOxenCols df₀.table) df₀ := by
  have hdiff : getColumnDiff df₀ = [] := by
    rw [getColumnDiff, hempty]
    rfl
  refine ⟨hindexed, ?_, ?_, ?_⟩
  · intro name change hlookup
    simp [hempty] at hlookup
  · simp [hdiff, befores]
  · simp [hdiff, befores, afters]

theorem tracked_restores {names : List String}
    (hrun : Run (fun name df df' => restore toLowercase name df = .ok df') names df df')
    (h : Tracked committed df) :
    Tracked committed df' ∧
      ∀ name, df'.columnChanges.lookup name =
        if name ∈ names then none else df.columnChanges.lookup name := by
  induction hrun with
  | nil df => simp [h]
  | @cons restored names df middle df' hstep _ ih =>
      obtain ⟨hmiddle, herase⟩ := tracked_restore h hstep
      obtain ⟨hdf', hlookup⟩ := ih hmiddle
      refine ⟨hdf', fun name => ?_⟩
      rw [hlookup, herase]
      by_cases hname : name = restored
      · subst hname
        simp
      · simp [hname, AList.lookup_erase_ne hname]

theorem Tracked.restored (h : Tracked committed df) {names : List String}
    (hnames : names.Perm df.columnChanges.keys)
    (hrun : runAll toLowercase (names.map .restore) df = .ok df') :
    (schemaWithoutOxenCols df'.table).Perm committed ∧ getColumnDiff df' = [] := by
  have hrestores : Run (fun name df df' => restore toLowercase name df = .ok df') names df df' := by
    rw [runAll, List.foldlM_map] at hrun
    exact foldlM_eq_ok.mp hrun
  obtain ⟨hdf', hlookup⟩ := tracked_restores hrestores h
  have hdiff : getColumnDiff df' = [] := by
    rw [List.eq_nil_iff_forall_not_mem]
    intro change hchange
    obtain ⟨⟨name, change'⟩, hmem, -⟩ := List.mem_map.mp hchange
    have hsome := KeyedMap.mem_toList.mp hmem
    rw [hlookup] at hsome
    split at hsome
    · cases hsome
    · next hnot =>
        apply hnot
        rw [hnames.mem_iff]
        exact AList.mem_keys.mp (AList.lookup_isSome.mp (by simp [hsome]))
  refine ⟨?_, hdiff⟩
  have hinjective : Function.Injective Field.change := by
    intro f f' heq
    cases f
    cases f'
    simpa [Field.change] using heq
  rw [← List.map_perm_map_iff hinjective, List.perm_iff_count]
  intro x
  simpa [hdiff, befores, afters] using hdf'.balance x

theorem Tracked.logExplains (h : Tracked committed df) :
    LogExplains toLowercase committed df := by
  refine ⟨?_, ?_, ?_, ?_⟩
  · intro change hchange
    obtain ⟨⟨name, change'⟩, hmem, rfl⟩ := List.mem_map.mp hchange
    exact (h.recorded _ _ (KeyedMap.mem_toList.mp hmem)).wellFormed
  · rw [List.subperm_ext_iff]
    exact fun x _ => h.befores_le x
  · rw [List.perm_iff_count]
    intro x
    have hle := h.befores_le x
    have hbalance := h.balance x
    rw [List.count_append, List.count_diff]
    omega
  · exact fun names hnames df' hrun => h.restored hnames hrun

theorem logExplains_of_run {df₀ : DataFrameDb duck} {calls : List Call}
    (hindexed : Indexed df₀.table) (hempty : df₀.columnChanges = ∅)
    (hrun : Run (Step toLowercase) calls df₀ df) :
    LogExplains toLowercase (schemaWithoutOxenCols df₀.table) df :=
  (hrun.keeps tracked_step (Tracked.start hindexed hempty)).logExplains

/-! ## Adding a deleted column again -/

namespace Example

/-- Replaces the first element with a property. -/
def splice {α : Type} (p : α → Bool) (f : α → List α) : List α → Option (List α)
  | [] => none
  | x :: xs => if p x then some (f x ++ xs) else (splice p f xs).map (x :: ·)

theorem splice_some {α : Type} {p : α → Bool} {f : α → List α} {xs ys : List α}
    (h : splice p f xs = some ys) :
    ∃ before x after, xs = before ++ x :: after ∧ p x ∧ ys = before ++ f x ++ after := by
  induction xs generalizing ys with
  | nil => cases h
  | cons x xs ih =>
      unfold splice at h
      split at h
      · next hp =>
          cases h
          exact ⟨[], x, xs, rfl, hp, rfl⟩
      · obtain ⟨zs, hzs, rfl⟩ := Option.map_eq_some_iff.mp h
        obtain ⟨before, y, after, rfl, hp, rfl⟩ := ih hzs
        exact ⟨x :: before, y, after, rfl, hp, rfl⟩

def ofColumns (fold : String → String) (columns : List Column) : Option (Table fold) :=
  if h : (columns.map fun c => fold c.name).Nodup then some ⟨columns, h⟩ else none

theorem ofColumns_some {fold : String → String} {columns : List Column} {table : Table fold}
    (h : ofColumns fold columns = some table) : table.columns = columns := by
  unfold ofColumns at h
  split at h
  · cases h; rfl
  · cases h

def catalogueType : String → Option String
  | "BOOL" => some "BOOLEAN"
  | "BINARY" => some "BLOB"
  | "DATETIME" => some "TIMESTAMP"
  | "UNKNOWN" => none
  | dataType => some dataType

def identifier (name : String) : Option String :=
  if name ≠ "" ∧ name.toList.all (fun c => c.isAlphanum || c = '_') then some name else none

def execute : AlterTable → Table String.toLower → Option (Table String.toLower)
  | .addColumn name dataType, table => do
      let id ← identifier name
      let shown ← catalogueType dataType
      ofColumns _ (table.columns ++ [⟨id, shown⟩])
  | .dropColumn name, table => do
      let id ← identifier name
      let columns ← splice (fun c => c.name.toLower = id.toLower) (fun _ => []) table.columns
      ofColumns _ columns
  | .alterColumnType name dataType, table => do
      let id ← identifier name
      let shown ← catalogueType dataType
      let columns ← splice (fun c => c.name.toLower = id.toLower) (fun c => [⟨c.name, shown⟩])
        table.columns
      ofColumns _ columns
  | .renameColumn name newName, table => do
      let id ← identifier name
      let newId ← identifier newName
      let columns ← splice (fun c => c.name.toLower = id.toLower) (fun c => [⟨newId, c.dataType⟩])
        table.columns
      ofColumns _ columns

/-- A database with letters, digits and underscores in its identifiers. -/
def duckDb : DuckDb where
  fold := String.toLower
  identifier := identifier
  catalogueType := catalogueType
  execute := execute
  execute_addColumn := by
    intro name id dataType t t' hid h
    simp only [execute, hid, Option.bind_eq_bind, Option.bind_some, Option.bind_eq_some_iff] at h
    obtain ⟨shown, hshown, h⟩ := h
    exact ⟨shown, hshown, ofColumns_some h⟩
  execute_dropColumn := by
    intro name id t t' hid h
    simp only [execute, hid, Option.bind_eq_bind, Option.bind_some, Option.bind_eq_some_iff] at h
    obtain ⟨columns, hcolumns, h⟩ := h
    obtain ⟨before, c, after, hsplit, hc, rfl⟩ := splice_some hcolumns
    exact ⟨before, c, after, hsplit, by simpa using hc, by simpa using ofColumns_some h⟩
  execute_alterColumnType := by
    intro name id dataType t t' hid h
    simp only [execute, hid, Option.bind_eq_bind, Option.bind_some, Option.bind_eq_some_iff] at h
    obtain ⟨shown, hshown, columns, hcolumns, h⟩ := h
    obtain ⟨before, c, after, hsplit, hc, rfl⟩ := splice_some hcolumns
    exact ⟨before, c, after, shown, hsplit, by simpa using hc, hshown,
      by simpa using ofColumns_some h⟩
  execute_renameColumn := by
    intro name id newName newId t t' hid hnew h
    simp only [execute, hid, hnew, Option.bind_eq_bind, Option.bind_some,
      Option.bind_eq_some_iff] at h
    obtain ⟨columns, hcolumns, h⟩ := h
    obtain ⟨before, c, after, hsplit, hc, rfl⟩ := splice_some hcolumns
    exact ⟨before, c, after, hsplit, by simpa using hc, by simpa using ofColumns_some h⟩

/-- A table with two columns besides those that indexing adds. -/
def dataFrame : DataFrameDb duckDb where
  table :=
    { columns := [⟨"file", "VARCHAR"⟩, ⟨"label", "VARCHAR"⟩, ⟨"_oxen_id", "VARCHAR"⟩,
        ⟨"_oxen_diff_status", "VARCHAR"⟩, ⟨"_oxen_row_id", "INTEGER"⟩,
        ⟨"_oxen_diff_hash", "VARCHAR"⟩]
      distinct := by decide +kernel }
  columnChanges := ∅

def deleteThenAdd : List Call := [.delete "label", .add ⟨"label", "str"⟩]

theorem indexed_dataFrame : Indexed dataFrame.table := by
  unfold Indexed
  decide

theorem readsBack_str : duckDb.ReadsBack "str" := by
  intro sql shown hsql hshown
  have hvarchar : DfColumns.sqlType "str" = .ok "VARCHAR" := rfl
  rw [hvarchar] at hsql
  cases hsql
  have htype : duckDb.catalogueType "VARCHAR" = some "VARCHAR" := by decide
  rw [htype] at hshown
  cases hshown
  decide

def rename : ColumnToUpdate where
  name := "label"
  newName := some "kind"
  newDataType := some "str"

theorem meets_rename : Call.Meets dataFrame (.update rename) := by
  have hlabel : duckDb.Plain "label" := by unfold DuckDb.Plain; decide
  have hkind : duckDb.Plain "kind" := by unfold DuckDb.Plain; decide
  have hfield : Schema.getField (schemaWithoutOxenCols dataFrame.table) "label" =
      some ⟨"label", "str"⟩ := by decide
  refine ⟨hlabel, by simpa [rename] using hkind, by simpa [rename] using readsBack_str, ?_,
    by simp [dataFrame], by simp [dataFrame]⟩
  intro f hf
  rw [rename, hfield] at hf
  cases hf
  exact readsBack_str

end Example

theorem not_logExplains : ¬ ∀ (duck : DuckDb) (toLowercase : String → String)
    (df₀ df : DataFrameDb duck) (calls : List Call), Indexed df₀.table →
    df₀.columnChanges = ∅ → runAll toLowercase calls df₀ = .ok df →
    LogExplains toLowercase (schemaWithoutOxenCols df₀.table) df := by
  intro h
  have hcount : (runAll String.toLower Example.deleteThenAdd Example.dataFrame).toOption.map
      (fun df => decide (((schemaWithoutOxenCols df.table).map Field.change).length =
        (((schemaWithoutOxenCols Example.dataFrame.table).map Field.change).diff
          (befores (getColumnDiff df)) ++ afters (getColumnDiff df)).length)) = some false := by
    decide +kernel
  cases hrun : runAll String.toLower Example.deleteThenAdd Example.dataFrame with
  | error e =>
      rw [hrun] at hcount
      cases hcount
  | ok df =>
      have hexplains := h _ _ _ df _ Example.indexed_dataFrame rfl hrun
      have hlength := hexplains.schema_perm.length_eq
      simp only [hrun, Except.toOption, Option.map_some, Option.some.injEq,
        decide_eq_false_iff_not] at hcount
      exact hcount hlength

theorem logExplains_of_run_rename :
    ∃ df, update String.toLower Example.rename Example.dataFrame = .ok df ∧
      LogExplains String.toLower (schemaWithoutOxenCols Example.dataFrame.table) df := by
  cases hrun : update String.toLower Example.rename Example.dataFrame with
  | error e =>
      have hok : (update String.toLower Example.rename Example.dataFrame).toOption.isSome := by
        decide +kernel
      simp [hrun, Except.toOption] at hok
  | ok df =>
      have hsteps : Run (Step String.toLower) [.update Example.rename] Example.dataFrame df :=
        .cons ⟨Example.meets_rename, hrun⟩ (.nil df)
      exact ⟨df, rfl, logExplains_of_run Example.indexed_dataFrame rfl hsteps⟩

end Columns

end Oxen
