import Mathlib.Data.Fintype.Defs
import Mathlib.Data.Fintype.Basic
import Mathlib.Data.List.OfFn
import Oxen.Lib.Runs
import Oxen.Model.DataFrameRows

/-! The status of rows and the staging of their file, over runs of row edits. -/

set_option linter.unusedSectionVars false

namespace Oxen

namespace Rows

open Runs

variable {Value Hash : Type} [DecidableEq Value] [DecidableEq Hash] {env : Env Value Hash}

/-! ## What a run should give -/

/-- A state with the rows that were deleted and not edited since. -/
structure Tracked (env : Env Value Hash) where
  state : State env
  deleted : List String

/-- The ids that are deleted after a successful call. -/
def Call.deletedAfter (deleted : List String) : Call Value → List String
  | .add _ => deleted
  | .update rowId _ => deleted.filter (· ≠ rowId)
  | .batchUpdate items => deleted.filter (· ∉ items.map Prod.fst)
  | .delete rowId => rowId :: deleted
  | .restore rowId => deleted.filter (· ≠ rowId)

/-- A call that fails has no effect. -/
def Call.next (t : Tracked env) (call : Call Value) : Tracked env :=
  match call.run t.state with
  | .ok state => ⟨state, call.deletedAfter t.deleted⟩
  | .error _ => t

def committedStatus (deleted : List String) (row : Row env) (committed : Values env) :
    StagedRowStatus :=
  if row.oxenId ∈ deleted then .removed
  else if row.values = committed then .unchanged
  else .modified

/-- Statuses say how the rows differ from the committed ones, and the file is staged exactly
when a row does. -/
structure Agrees (t : Tracked env) : Prop where
  added : ∀ row ∈ t.state.rows, committedAt env row.rowId = none → row.status = .added
  committed : ∀ row ∈ t.state.rows, ∀ committed, committedAt env row.rowId = some committed →
    row.status = committedStatus t.deleted row committed
  restored : ∀ row ∈ t.state.rows, ∀ committed, committedAt env row.rowId = some committed →
    ∃ state, restore t.state row.oxenId = .ok state ∧ ∃ row' ∈ state.rows,
      row'.oxenId = row.oxenId ∧ row'.values = committed ∧ row'.status = .unchanged
  staged : t.state.staged = true ↔ ∃ row ∈ t.state.rows, row.status ≠ .unchanged

/-- In every state on the way. -/
def Throughout (P : Tracked env → Prop) : Tracked env → List (Call Value) → Prop
  | t, [] => P t
  | t, call :: calls => P t ∧ Throughout P (call.next t) calls

/-- An edit of an unchanged row that was never modified changes its values. -/
def ChangesFresh (row : Row env) (data : Data Value) : Prop :=
  row.status = .unchanged → row.hash = none → replaceColumns data row.values ≠ row.values

/-- After a batch some row differs from its committed values. -/
def DiffersAfter (rows : List (Row env)) (rowMap : KeyedMap.Map String (Data Value)) : Prop :=
  ∃ row ∈ rows, match rowMap.lookup row.oxenId with
    | none => row.status ≠ .unchanged
    | some data => committedAt env row.rowId ≠ some (replaceColumns data row.values)

/-- When a successful call keeps statuses and staging right. -/
def Call.Meets (s : State env) : Call Value → Prop
  | .add _ => True
  | .update rowId data => ∀ row ∈ s.rows, row.oxenId = rowId → ChangesFresh row data
  | .batchUpdate items =>
      (∀ row ∈ s.rows, ∀ data, (KeyedMap.insertAll ∅ items).lookup row.oxenId = some data →
        ChangesFresh row data) ∧
      (DiffersAfter s.rows (KeyedMap.insertAll ∅ items) ↔
        ∃ row ∈ s.rows, row.status ≠ .unchanged)
  | .delete _ => True
  | .restore _ => True

/-- All calls of a run that succeed meet the condition, each in the state it finds. -/
def AllMeet : Tracked env → List (Call Value) → Prop
  | _, [] => True
  | t, call :: calls =>
      ((∃ state, call.run t.state = .ok state) → call.Meets t.state) ∧
        AllMeet (call.next t) calls

/-! ## What every call keeps -/

/-- What the remembered hash of an indexed row says. -/
structure Remembers (row : Row env) (committed : Values env) : Prop where
  not_added : row.status ≠ .added
  hash_none : row.hash = none → row.values = committed ∧ row.status ≠ .modified
  hash_some : ∀ hash, row.hash = some hash → hash = env.hashRow committed
  unchanged : row.status = .unchanged → row.values = committed

structure Inv (t : Tracked env) : Prop where
  oxenId : ∀ row ∈ t.state.rows, row.oxenId = env.uuid row.rowId
  nodup : (t.state.rows.map Row.rowId).Nodup
  lt_counter : ∀ row ∈ t.state.rows, row.rowId < t.state.counter
  counter : env.file.rows.length < t.state.counter
  added : ∀ row ∈ t.state.rows, committedAt env row.rowId = none → row.status = .added
  remembers : ∀ row ∈ t.state.rows, ∀ committed, committedAt env row.rowId = some committed →
    Remembers row committed
  deleted : ∀ row ∈ t.state.rows, ∀ committed, committedAt env row.rowId = some committed →
    (row.status = .removed ↔ row.oxenId ∈ t.deleted)

theorem hasChanges_iff {rows : List (Row env)} :
    hasChanges rows = true ↔ ∃ row ∈ rows, row.status ≠ .unchanged := by
  simp [hasChanges]

section Modified

variable {row : Row env} {committed : Values env} {data : Data Value}

@[simp] theorem modifiedRow_oxenId : (modifiedRow row data).oxenId = row.oxenId := rfl
@[simp] theorem modifiedRow_rowId : (modifiedRow row data).rowId = row.rowId := rfl
@[simp] theorem modifiedRow_values :
    (modifiedRow row data).values = replaceColumns data row.values := rfl

/-- The hash of the committed values is known whether it is remembered or not. -/
theorem insertHash_eq (h : Remembers row committed) :
    row.hash.getD (env.hashRow row.values) = env.hashRow committed := by
  cases hhash : row.hash with
  | none => rw [Option.getD_none, (h.hash_none hhash).1]
  | some hash => rw [Option.getD_some, h.hash_some hash hhash]

theorem modifiedRow_hash (h : Remembers row committed) :
    (modifiedRow row data).hash = some (env.hashRow committed) := by
  rw [← insertHash_eq h]
  rfl

theorem modifiedRow_status (h : Remembers row committed)
    (hinjective : Function.Injective env.hashRow) :
    (modifiedRow row data).status =
      if row.status ≠ .removed ∧ row.hash = none then .modified
      else if replaceColumns data row.values = committed then .unchanged
      else .modified := by
  have hstatus : (modifiedRow row data).status =
      (getHashAndStatusForModification row (replaceColumns data row.values)).2 := rfl
  rw [hstatus, getHashAndStatusForModification]
  simp only [insertHash_eq h, hinjective.eq_iff, if_neg h.not_added]
  by_cases hremoved : row.status = .removed
  · simp [hremoved, eq_comm]
  · simp [hremoved]

theorem modifiedRow_remembers (h : Remembers row committed)
    (hinjective : Function.Injective env.hashRow) :
    Remembers (modifiedRow row data) committed := by
  have hstatus := @modifiedRow_status _ _ _ _ env row committed data h hinjective
  refine ⟨?_, ?_, ?_, ?_⟩
  · rw [hstatus]
    split_ifs <;> simp
  · intro hnone
    simp [modifiedRow_hash h] at hnone
  · intro hash hsome
    rw [modifiedRow_hash h] at hsome
    exact (Option.some.inj hsome).symm
  · rw [hstatus, modifiedRow_values]
    split_ifs <;> simp_all

theorem modifiedRow_not_removed (h : Remembers row committed)
    (hinjective : Function.Injective env.hashRow) :
    (modifiedRow row data).status ≠ .removed := by
  rw [modifiedRow_status h hinjective]
  split_ifs <;> simp

/-- The status is wrong exactly where a row that was never modified gets its own values. -/
theorem modifiedRow_status_iff (h : Remembers row committed)
    (hinjective : Function.Injective env.hashRow) :
    ((modifiedRow row data).status = .modified →
      replaceColumns data row.values ≠ committed) ↔ ChangesFresh row data := by
  rw [modifiedRow_status h hinjective]
  unfold ChangesFresh
  by_cases hnone : row.hash = none
  · obtain ⟨hvalues, hmodified⟩ := h.hash_none hnone
    rw [hvalues]
    have hadded := h.not_added
    cases hstatus : row.status with
    | added => exact absurd hstatus hadded
    | modified => exact absurd hstatus hmodified
    | removed => by_cases heq : replaceColumns data committed = committed <;> simp [heq]
    | unchanged => simp [hnone]
  · by_cases heq : replaceColumns data row.values = committed <;> simp [hnone, heq]

end Modified

/-! ## Rows by id -/

theorem mem_of_findRow {rows : List (Row env)} {id : String} {row : Row env}
    (h : findRow rows id = some row) : row ∈ rows ∧ row.oxenId = id := by
  refine ⟨List.mem_of_find?_eq_some h, ?_⟩
  simpa using List.find?_some h

theorem Inv.eq_of_oxenId {t : Tracked env} (h : Inv t) (huuid : Function.Injective env.uuid)
    {row row' : Row env} (hrow : row ∈ t.state.rows) (hrow' : row' ∈ t.state.rows)
    (heq : row.oxenId = row'.oxenId) : row = row' := by
  apply List.inj_on_of_nodup_map h.nodup hrow hrow'
  apply huuid
  rw [← h.oxenId row hrow, ← h.oxenId row' hrow', heq]

theorem Inv.findRow_eq {t : Tracked env} (h : Inv t) (huuid : Function.Injective env.uuid)
    {row : Row env} (hrow : row ∈ t.state.rows) : findRow t.state.rows row.oxenId = some row := by
  cases hfind : findRow t.state.rows row.oxenId with
  | none =>
      have hnone := List.find?_eq_none.mp hfind row hrow
      simp at hnone
  | some row' =>
      obtain ⟨hrow', hid⟩ := mem_of_findRow hfind
      rw [h.eq_of_oxenId huuid hrow' hrow hid]

/-! ## The committed row -/

theorem lookup_rowData (values : Values env) (i : Fin env.file.columns.length) :
    (rowData values).lookup (env.file.columns.get i) = some (values i) := by
  apply KeyedMap.lookup_insertAll_of_mem
  · rw [List.map_ofFn]
    have hcolumns : List.ofFn (Prod.fst ∘ fun i => (env.file.columns.get i, values i)) =
        env.file.columns := List.ofFn_get env.file.columns
    rw [hcolumns]
    exact env.file.columns_nodup
  · rw [List.mem_ofFn]
    exact ⟨i, rfl⟩

theorem replaceColumns_rowData (values old : Values env) :
    replaceColumns (rowData values) old = values := by
  funext i
  rw [replaceColumns, lookup_rowData, Option.getD_some]

theorem hasFieldNames_rowData (values : Values env) :
    hasFieldNames env ((rowData values).keys.filter fun name => name ∉ oxenCols) = true := by
  rw [hasFieldNames, List.all_eq_true]
  intro name hname
  have hmem : name ∈ rowData values := AList.mem_keys.mpr (List.mem_filter.mp hname).1
  rw [rowData, KeyedMap.mem_insertAll] at hmem
  rcases hmem with hmem | hmem
  · simp at hmem
  · obtain ⟨pair, hpair, rfl⟩ := List.mem_map.mp hmem
    obtain ⟨i, rfl⟩ := List.mem_ofFn.mp hpair
    simp

/-! ## The calls that edit rows in place -/

/-- An edit of some rows that keeps their ids. -/
theorem Inv.map {t : Tracked env} (h : Inv t) {f : Row env → Row env} {deleted : List String}
    {staged : Bool} (hrowId : ∀ row, (f row).rowId = row.rowId)
    (hoxenId : ∀ row, (f row).oxenId = row.oxenId)
    (hadded : ∀ row ∈ t.state.rows, committedAt env row.rowId = none → (f row).status = .added)
    (hremembers : ∀ row ∈ t.state.rows, ∀ committed,
      committedAt env row.rowId = some committed → Remembers row committed →
        Remembers (f row) committed)
    (hdeleted : ∀ row ∈ t.state.rows, ∀ committed, committedAt env row.rowId = some committed →
      Remembers row committed → (row.status = .removed ↔ row.oxenId ∈ t.deleted) →
        ((f row).status = .removed ↔ row.oxenId ∈ deleted)) :
    Inv ⟨⟨t.state.rows.map f, t.state.counter, staged⟩, deleted⟩ := by
  refine ⟨?_, ?_, ?_, h.counter, ?_, ?_, ?_⟩
  · intro row hrow
    obtain ⟨old, hold, rfl⟩ := List.mem_map.mp hrow
    rw [hrowId, hoxenId, h.oxenId old hold]
  · have hids : (t.state.rows.map f).map Row.rowId = t.state.rows.map Row.rowId := by
      rw [List.map_map]
      exact List.map_congr_left fun row _ => hrowId row
    rw [hids]
    exact h.nodup
  · intro row hrow
    obtain ⟨old, hold, rfl⟩ := List.mem_map.mp hrow
    rw [hrowId]
    exact h.lt_counter old hold
  · intro row hrow hnone
    obtain ⟨old, hold, rfl⟩ := List.mem_map.mp hrow
    rw [hrowId] at hnone
    exact hadded old hold hnone
  · intro row hrow committed hcommitted
    obtain ⟨old, hold, rfl⟩ := List.mem_map.mp hrow
    rw [hrowId] at hcommitted
    exact hremembers old hold committed hcommitted (h.remembers old hold committed hcommitted)
  · intro row hrow committed hcommitted
    obtain ⟨old, hold, rfl⟩ := List.mem_map.mp hrow
    rw [hrowId] at hcommitted
    rw [hoxenId]
    exact hdeleted old hold committed hcommitted (h.remembers old hold committed hcommitted)
      (h.deleted old hold committed hcommitted)

theorem modifiedRow_added {row : Row env} {data : Data Value} (h : row.status = .added) :
    (modifiedRow row data).status = .added := by
  simp [modifiedRow, getHashAndStatusForModification, h]

/-- The rows that a batch edits, each with its data. -/
def editRows (rowMap : KeyedMap.Map String (Data Value)) (row : Row env) : Row env :=
  match rowMap.lookup row.oxenId with
  | some data => modifiedRow row data
  | none => row

theorem inv_editRows {t : Tracked env} (h : Inv t) (hhash : Function.Injective env.hashRow)
    (rowMap : KeyedMap.Map String (Data Value)) (deleted : List String) (staged : Bool)
    (hdeleted : ∀ id, id ∈ deleted ↔ id ∈ t.deleted ∧ id ∉ rowMap) :
    Inv ⟨⟨t.state.rows.map (editRows rowMap), t.state.counter, staged⟩, deleted⟩ := by
  apply h.map
  · intro row
    unfold editRows
    split <;> rfl
  · intro row
    unfold editRows
    split <;> rfl
  · intro row hrow hnone
    unfold editRows
    split
    · exact modifiedRow_added (h.added row hrow hnone)
    · exact h.added row hrow hnone
  · intro row _ committed _ hremembers
    unfold editRows
    split
    · exact modifiedRow_remembers hremembers hhash
    · exact hremembers
  · intro row _ committed _ hremembers hold
    rw [hdeleted]
    unfold editRows
    cases hlookup : rowMap.lookup row.oxenId with
    | some data =>
        have hmem : row.oxenId ∈ rowMap := AList.lookup_isSome.mp (by simp [hlookup])
        simp [modifiedRow_not_removed hremembers hhash, hmem]
    | none =>
        have hmem : row.oxenId ∉ rowMap := AList.lookup_eq_none.mp hlookup
        simp [hold, hmem]

/-! ## What successful calls do -/

theorem checkModification_eq_ok {notOneRow : String} {rows : List (Row env)} {id : String}
    {df : List (Data Value)} {data : Data Value}
    (h : checkModification notOneRow rows id df = .ok data) :
    df = [data] ∧ ∃ row ∈ rows, row.oxenId = id := by
  unfold checkModification at h
  split at h
  · split at h
    · split at h
      · next row hfind =>
          cases h
          exact ⟨rfl, row, mem_of_findRow hfind⟩
      · cases h
    · cases h
  · cases h

theorem lookup_single (id id' : String) (data : Data Value) :
    (KeyedMap.insertAll ∅ [(id, data)] : KeyedMap.Map String (Data Value)).lookup id' =
      if id' = id then some data else none := by
  rw [KeyedMap.insertAll, KeyedMap.insertAll]
  split_ifs with heq
  · rw [heq, AList.lookup_insert]
  · rw [AList.lookup_insert_ne heq, AList.lookup_empty]

theorem modifyRow_eq_ok {rows rows' : List (Row env)} {id : String} {df : List (Data Value)}
    (h : modifyRow rows df id = .ok rows') :
    ∃ data, df = [data] ∧ rows' = rows.map (editRows (KeyedMap.insertAll ∅ [(id, data)])) := by
  obtain ⟨data, hcheck, h⟩ := bind_eq_ok.mp h
  cases h
  refine ⟨data, (checkModification_eq_ok hcheck).1, ?_⟩
  apply List.map_congr_left
  intro row _
  rw [editRows, lookup_single]
  split_ifs <;> rfl

theorem parseJsonToDf_eq {data data' : Data Value} (h : parseJsonToDf data = [data']) :
    data' = data := by
  unfold parseJsonToDf at h
  split_ifs at h
  cases h
  rfl

theorem update_eq_ok {s s' : State env} {id : String} {data : Data Value}
    (h : update s id data = .ok s') :
    s' = ⟨s.rows.map (editRows (KeyedMap.insertAll ∅ [(id, data)])), s.counter,
      hasChanges (s.rows.map (editRows (KeyedMap.insertAll ∅ [(id, data)])))⟩ := by
  unfold update at h
  split at h
  · cases h
  · obtain ⟨rows, hrows, h⟩ := bind_eq_ok.mp h
    cases h
    obtain ⟨data', hdf, rfl⟩ := modifyRow_eq_ok hrows
    rw [parseJsonToDf_eq hdf]

theorem batchUpdate_eq_ok {s s' : State env} {items : List (String × Data Value)}
    (h : batchUpdate s items = .ok s') :
    s' = ⟨s.rows.map (editRows (KeyedMap.insertAll ∅ items)), s.counter, s.staged⟩ := by
  obtain ⟨rows, hrows, h⟩ := bind_eq_ok.mp h
  cases h
  obtain ⟨_, -, hrows⟩ := bind_eq_ok.mp hrows
  split at hrows
  · cases hrows
  · cases hrows
    rfl

/-- A row marked as removed. -/
def removeRow (id : String) (row : Row env) : Row env :=
  if row.oxenId = id then { row with status := .removed } else row

theorem deleteRow_eq_ok {rows rows' : List (Row env)} {id : String}
    (h : deleteRow rows id = .ok rows') :
    ∃ row ∈ rows, row.oxenId = id ∧
      (row.status = .added ∧ rows' = rows.filter (·.oxenId ≠ id) ∨
        row.status ≠ .added ∧ rows' = rows.map (removeRow id)) := by
  unfold deleteRow at h
  split at h
  · cases h
  · next row hfind =>
      obtain ⟨hrow, hid⟩ := mem_of_findRow hfind
      refine ⟨row, hrow, hid, ?_⟩
      split at h
      · next hadded =>
          cases h
          exact .inl ⟨hadded, rfl⟩
      · next hadded =>
          cases h
          exact .inr ⟨hadded, rfl⟩

theorem delete_eq_ok {s s' : State env} {id : String} (h : delete s id = .ok s') :
    ∃ rows, deleteRow s.rows id = .ok rows ∧ s' = ⟨rows, s.counter, hasChanges rows⟩ := by
  obtain ⟨rows, hrows, h⟩ := bind_eq_ok.mp h
  cases h
  exact ⟨rows, hrows, rfl⟩

/-- The row that an added object becomes. -/
def addedRow (s : State env) (data : Data Value) : Row env where
  oxenId := env.uuid s.counter
  rowId := s.counter
  values := fun i => (data.lookup (env.file.columns.get i)).getD env.null
  status := .added
  hash := none

theorem add_eq_ok {s s' : State env} {data : Data Value} (h : add s data = .ok s') :
    s' = ⟨s.rows ++ [addedRow s data], s.counter + 1, true⟩ := by
  obtain ⟨appended, happended, h⟩ := bind_eq_ok.mp h
  cases h
  unfold appendRow at happended
  split at happended
  · cases happended
    unfold parseJsonToDf
    split_ifs with hempty
    · rw [hempty]
      rfl
    · rfl
  · cases happended

theorem restore_eq_ok {s s' : State env} {id : String} (h : restore s id = .ok s') :
    ∃ rows, restoreRowInDb s.rows id = .ok rows ∧
      s' = ⟨rows, s.counter, hasChanges rows && s.staged⟩ := by
  obtain ⟨rows, hrows, h⟩ := bind_eq_ok.mp h
  cases h
  exact ⟨rows, hrows, rfl⟩

theorem restoreRowInDb_eq_ok {rows rows' : List (Row env)} {id : String}
    (h : restoreRowInDb rows id = .ok rows') :
    ∃ row ∈ rows, row.oxenId = id ∧
      (row.status = .added ∧ deleteRow rows id = .ok rows' ∨
        (∃ committed, (row.status = .modified ∨ row.status = .removed) ∧
          committedAt env row.rowId = some committed ∧
          rows' = rows.map (editRows (KeyedMap.insertAll ∅ [(id, rowData committed)]))) ∨
        row.status = .unchanged ∧ rows' = rows) := by
  unfold restoreRowInDb at h
  split at h
  · cases h
  · next row hfind =>
      obtain ⟨hrow, hid⟩ := mem_of_findRow hfind
      refine ⟨row, hrow, hid, ?_⟩
      have hedit : modifyRow rows (prepareModifiedOrRemovedRow row) id = .ok rows' →
          ∃ committed, committedAt env row.rowId = some committed ∧
            rows' = rows.map (editRows (KeyedMap.insertAll ∅ [(id, rowData committed)])) := by
        intro hmodify
        obtain ⟨data, hdf, rfl⟩ := modifyRow_eq_ok hmodify
        unfold prepareModifiedOrRemovedRow at hdf
        cases hcommitted : committedAt env row.rowId with
        | none => simp [hcommitted] at hdf
        | some committed =>
            rw [hcommitted] at hdf
            cases hdf
            exact ⟨committed, rfl, rfl⟩
      cases hstatus : row.status with
      | added =>
          rw [hstatus] at h
          exact .inl ⟨rfl, h⟩
      | modified =>
          rw [hstatus] at h
          obtain ⟨committed, hcommitted, hrows⟩ := hedit h
          exact .inr (.inl ⟨committed, .inl rfl, hcommitted, hrows⟩)
      | removed =>
          rw [hstatus] at h
          obtain ⟨committed, hcommitted, hrows⟩ := hedit h
          exact .inr (.inl ⟨committed, .inr rfl, hcommitted, hrows⟩)
      | unchanged =>
          rw [hstatus] at h
          cases h
          exact .inr (.inr ⟨rfl, rfl⟩)

/-! ## Agreement under the invariant -/

/-- No row has its committed values and the status modified. -/
def NoFalseModified (rows : List (Row env)) : Prop :=
  ∀ row ∈ rows, ∀ committed, committedAt env row.rowId = some committed →
    row.status = .modified → row.values ≠ committed

theorem Inv.restored {t : Tracked env} (h : Inv t) (huuid : Function.Injective env.uuid)
    (hhash : Function.Injective env.hashRow) {row : Row env} (hrow : row ∈ t.state.rows)
    {committed : Values env} (hcommitted : committedAt env row.rowId = some committed) :
    ∃ state, restore t.state row.oxenId = .ok state ∧ ∃ row' ∈ state.rows,
      row'.oxenId = row.oxenId ∧ row'.values = committed ∧ row'.status = .unchanged := by
  have hremembers := h.remembers row hrow committed hcommitted
  have hfind := h.findRow_eq huuid hrow
  have hmodify : modifyRow t.state.rows (prepareModifiedOrRemovedRow row) row.oxenId =
      .ok (t.state.rows.map fun row' =>
        if row'.oxenId = row.oxenId then modifiedRow row' (rowData committed) else row') := by
    rw [prepareModifiedOrRemovedRow, hcommitted]
    simp only [Option.map_some, Option.toList_some, modifyRow, checkModification,
      hasFieldNames_rowData, if_true, hfind]
    rfl
  have hrestored : (row.status = .modified ∨ row.status = .removed) →
      modifiedRow row (rowData committed) ∈ (t.state.rows.map fun row' =>
        if row'.oxenId = row.oxenId then modifiedRow row' (rowData committed) else row') ∧
      (modifiedRow row (rowData committed)).status = .unchanged := by
    intro hstatus
    refine ⟨List.mem_map.mpr ⟨row, hrow, if_pos rfl⟩, ?_⟩
    rw [modifiedRow_status hremembers hhash, if_neg, if_pos (replaceColumns_rowData _ _)]
    rintro ⟨hnot, hnone⟩
    exact hstatus.elim (hremembers.hash_none hnone).2 hnot
  unfold restore restoreRowInDb
  rw [hfind]
  dsimp only
  cases hstatus : row.status with
  | added => exact absurd hstatus hremembers.not_added
  | modified =>
      obtain ⟨hmem, hunchanged⟩ := hrestored (.inl hstatus)
      rw [hmodify]
      exact ⟨_, rfl, _, hmem, rfl, replaceColumns_rowData _ _, hunchanged⟩
  | removed =>
      obtain ⟨hmem, hunchanged⟩ := hrestored (.inr hstatus)
      rw [hmodify]
      exact ⟨_, rfl, _, hmem, rfl, replaceColumns_rowData _ _, hunchanged⟩
  | unchanged => exact ⟨_, rfl, row, hrow, rfl, hremembers.unchanged hstatus, hstatus⟩

theorem Inv.agrees_iff {t : Tracked env} (h : Inv t) (huuid : Function.Injective env.uuid)
    (hhash : Function.Injective env.hashRow) :
    Agrees t ↔ NoFalseModified t.state.rows ∧
      (t.state.staged = true ↔ hasChanges t.state.rows = true) := by
  rw [hasChanges_iff]
  constructor
  · intro hagrees
    refine ⟨?_, hagrees.staged⟩
    intro row hrow committed hcommitted hmodified hvalues
    have hstatus := hagrees.committed row hrow committed hcommitted
    rw [hmodified, committedStatus] at hstatus
    split_ifs at hstatus
  · rintro ⟨hmodified, hstaged⟩
    refine ⟨h.added, ?_, fun row hrow committed hcommitted =>
      h.restored huuid hhash hrow hcommitted, hstaged⟩
    intro row hrow committed hcommitted
    have hremembers := h.remembers row hrow committed hcommitted
    have hdeleted := h.deleted row hrow committed hcommitted
    rw [committedStatus]
    cases hstatus : row.status with
    | added => exact absurd hstatus hremembers.not_added
    | removed => rw [if_pos (hdeleted.mp hstatus)]
    | modified =>
        rw [if_neg (fun hmem => by simp [hstatus] at hdeleted; exact hdeleted hmem),
          if_neg (hmodified row hrow committed hcommitted hstatus)]
    | unchanged =>
        rw [if_neg (fun hmem => by simp [hstatus] at hdeleted; exact hdeleted hmem),
          if_pos (hremembers.unchanged hstatus)]

/-! ## Steps -/

theorem noFalseModified_editRows {t : Tracked env} (h : Inv t)
    (hhash : Function.Injective env.hashRow) (hbefore : NoFalseModified t.state.rows)
    (rowMap : KeyedMap.Map String (Data Value)) :
    NoFalseModified (t.state.rows.map (editRows rowMap)) ↔
      ∀ row ∈ t.state.rows, ∀ data, rowMap.lookup row.oxenId = some data →
        ChangesFresh row data := by
  constructor
  · intro hafter row hrow data hlookup
    have hedit : editRows rowMap row = modifiedRow row data := by rw [editRows, hlookup]
    cases hcommitted : committedAt env row.rowId with
    | none =>
        intro hunchanged
        simp [h.added row hrow hcommitted] at hunchanged
    | some committed =>
        rw [← modifiedRow_status_iff (h.remembers row hrow committed hcommitted) hhash]
        have hrow' := hafter _ (List.mem_map_of_mem hrow) committed
        rw [hedit] at hrow'
        exact hrow' hcommitted
  · intro hfresh row' hrow' committed hcommitted
    obtain ⟨row, hrow, rfl⟩ := List.mem_map.mp hrow'
    unfold editRows at hcommitted ⊢
    cases hlookup : rowMap.lookup row.oxenId with
    | none =>
        rw [hlookup] at hcommitted
        exact hbefore row hrow committed hcommitted
    | some data =>
        rw [hlookup] at hcommitted
        exact (modifiedRow_status_iff (h.remembers row hrow committed hcommitted) hhash).mpr
          (hfresh row hrow data hlookup)

theorem hasChanges_editRows {t : Tracked env} (h : Inv t) (hhash : Function.Injective env.hashRow)
    {rowMap : KeyedMap.Map String (Data Value)}
    (hafter : NoFalseModified (t.state.rows.map (editRows rowMap))) :
    hasChanges (t.state.rows.map (editRows rowMap)) = true ↔ DiffersAfter t.state.rows rowMap := by
  rw [hasChanges_iff, DiffersAfter]
  simp only [List.mem_map, exists_exists_and_eq_and]
  apply exists_congr
  intro row
  apply and_congr_right
  intro hrow
  have hrow' := hafter _ (List.mem_map_of_mem hrow)
  unfold editRows at hrow' ⊢
  cases hlookup : rowMap.lookup row.oxenId with
  | none => rfl
  | some data =>
      rw [hlookup] at hrow'
      dsimp only at hrow' ⊢
      cases hcommitted : committedAt env row.rowId with
      | none => simp [modifiedRow_added (h.added row hrow hcommitted)]
      | some committed =>
          have hremembers := @modifiedRow_remembers _ _ _ _ env row committed data
            (h.remembers row hrow committed hcommitted) hhash
          have hremoved := @modifiedRow_not_removed _ _ _ _ env row committed data
            (h.remembers row hrow committed hcommitted) hhash
          have hfalse := hrow' committed hcommitted
          rw [ne_eq, ne_eq, not_iff_not, Option.some.injEq]
          constructor
          · intro hunchanged
            exact (hremembers.unchanged hunchanged).symm
          · intro hvalues
            cases hstatus : (modifiedRow row data).status with
            | added => exact absurd hstatus hremembers.not_added
            | removed => exact absurd hstatus hremoved
            | modified => exact absurd hvalues.symm (hfalse hstatus)
            | unchanged => rfl

theorem committedAt_eq_none {n : ℕ} (hn : env.file.rows.length < n) :
    committedAt env n = none := by
  rw [committedAt, List.getElem?_eq_none_iff]
  omega

/-- Dropping the row with an id. -/
theorem Inv.dropRow {t : Tracked env} (h : Inv t) (id : String) (staged : Bool)
    (deleted : List String) (hdeleted : ∀ id' ≠ id, id' ∈ deleted ↔ id' ∈ t.deleted) :
    @Inv Value Hash env ⟨⟨t.state.rows.filter (·.oxenId ≠ id), t.state.counter, staged⟩,
      deleted⟩ := by
  have hmem : ∀ row ∈ t.state.rows.filter (·.oxenId ≠ id),
      row ∈ t.state.rows ∧ row.oxenId ≠ id := by
    intro row hrow
    simpa using List.mem_filter.mp hrow
  refine ⟨fun row hrow => h.oxenId row (hmem row hrow).1,
    h.nodup.sublist (List.filter_sublist.map _),
    fun row hrow => h.lt_counter row (hmem row hrow).1, h.counter,
    fun row hrow => h.added row (hmem row hrow).1,
    fun row hrow => h.remembers row (hmem row hrow).1, ?_⟩
  intro row hrow committed hcommitted
  rw [hdeleted _ (hmem row hrow).2]
  exact h.deleted row (hmem row hrow).1 committed hcommitted

theorem Inv.removeRow {t : Tracked env} (h : Inv t) (huuid : Function.Injective env.uuid)
    {row : Row env} (hrow : row ∈ t.state.rows) (hadded : row.status ≠ .added) (staged : Bool) :
    @Inv Value Hash env ⟨⟨t.state.rows.map (removeRow row.oxenId), t.state.counter, staged⟩,
      row.oxenId :: t.deleted⟩ := by
  apply h.map
  · intro row'
    unfold Rows.removeRow
    split <;> rfl
  · intro row'
    unfold Rows.removeRow
    split <;> rfl
  · intro row' hrow' hnone
    unfold Rows.removeRow
    split
    · next heq =>
        rw [h.eq_of_oxenId huuid hrow' hrow heq] at hnone
        exact absurd (h.added row hrow hnone) hadded
    · exact h.added row' hrow' hnone
  · intro row' hrow' committed hcommitted hremembers
    unfold Rows.removeRow
    split
    · refine ⟨by simp, ?_, hremembers.hash_some, by simp⟩
      intro hnone
      exact ⟨(hremembers.hash_none hnone).1, by simp⟩
    · exact hremembers
  · intro row' _ committed _ _ hold
    unfold Rows.removeRow
    split
    · next heq => simp [heq]
    · next hne => simp [hold, hne]

/-- An undisturbed state in which a row that is not removed counts as not deleted. -/
theorem Inv.keep {t : Tracked env} (h : Inv t) (huuid : Function.Injective env.uuid)
    {row : Row env} (hrow : row ∈ t.state.rows) (hremoved : row.status ≠ .removed)
    (staged : Bool) :
    @Inv Value Hash env ⟨⟨t.state.rows, t.state.counter, staged⟩,
      t.deleted.filter (· ≠ row.oxenId)⟩ := by
  refine ⟨h.oxenId, h.nodup, h.lt_counter, h.counter, h.added, h.remembers, ?_⟩
  intro row' hrow' committed hcommitted
  by_cases heq : row'.oxenId = row.oxenId
  · rw [h.eq_of_oxenId huuid hrow' hrow heq]
    simp [hremoved]
  · simpa [heq] using h.deleted row' hrow' committed hcommitted

/-- What a step has to show. -/
structure StepSpec (t t' : Tracked env) (meets : Prop) : Prop where
  inv : Inv t'
  agrees_iff : Agrees t' ↔ meets

section Steps

variable {t : Tracked env} {s' : State env} (h : Inv t) (huuid : Function.Injective env.uuid)
  (hhash : Function.Injective env.hashRow) (hagrees : Agrees t)
include h huuid hhash hagrees

theorem step_update {id : String} {data : Data Value} (hrun : update t.state id data = .ok s') :
    StepSpec t ⟨s', (Call.update id data).deletedAfter t.deleted⟩
      ((Call.update id data).Meets t.state) := by
  obtain ⟨hmodified, -⟩ := (h.agrees_iff huuid hhash).mp hagrees
  rw [update_eq_ok hrun]
  have hinv := inv_editRows h hhash (KeyedMap.insertAll ∅ [(id, data)])
    ((Call.update id data).deletedAfter t.deleted)
    (hasChanges (t.state.rows.map (editRows (KeyedMap.insertAll ∅ [(id, data)]))))
    (fun id' => by simp [Call.deletedAfter, KeyedMap.mem_insertAll])
  refine ⟨hinv, ?_⟩
  rw [hinv.agrees_iff huuid hhash, noFalseModified_editRows h hhash hmodified]
  simp only [iff_self, and_true, Call.Meets, lookup_single]
  constructor
  · intro hfresh row hrow hid
    exact hfresh row hrow data (by rw [if_pos hid])
  · intro hfresh row hrow data' hlookup
    split_ifs at hlookup with hid
    cases hlookup
    exact hfresh row hrow hid

theorem step_batchUpdate {items : List (String × Data Value)}
    (hrun : batchUpdate t.state items = .ok s') :
    StepSpec t ⟨s', (Call.batchUpdate items).deletedAfter t.deleted⟩
      ((Call.batchUpdate items).Meets t.state) := by
  obtain ⟨hmodified, hstaged⟩ := (h.agrees_iff huuid hhash).mp hagrees
  rw [batchUpdate_eq_ok hrun]
  have hinv := inv_editRows h hhash (KeyedMap.insertAll ∅ items)
    ((Call.batchUpdate items).deletedAfter t.deleted) t.state.staged
    (fun id' => by simp [Call.deletedAfter, KeyedMap.mem_insertAll])
  refine ⟨hinv, ?_⟩
  rw [hinv.agrees_iff huuid hhash, Call.Meets, ← noFalseModified_editRows h hhash hmodified]
  apply and_congr_right
  intro hafter
  dsimp only
  rw [hstaged, hasChanges_editRows h hhash hafter, hasChanges_iff]
  exact iff_comm

theorem step_add {data : Data Value} (hrun : add t.state data = .ok s') :
    StepSpec t ⟨s', (Call.add data).deletedAfter t.deleted⟩ True := by
  obtain ⟨hmodified, -⟩ := (h.agrees_iff huuid hhash).mp hagrees
  rw [add_eq_ok hrun]
  have hnew : committedAt env (addedRow t.state data).rowId = none :=
    committedAt_eq_none h.counter
  have hinv : @Inv Value Hash env ⟨⟨t.state.rows ++ [addedRow t.state data], t.state.counter + 1,
      true⟩, (Call.add data).deletedAfter t.deleted⟩ := by
    refine ⟨?_, ?_, ?_, ?_, ?_, ?_, ?_⟩
    · intro row hrow
      rcases List.mem_append.mp hrow with hrow | hrow
      · exact h.oxenId row hrow
      · rw [List.mem_singleton.mp hrow]
        rfl
    · rw [List.map_append, List.map_singleton, List.nodup_append]
      refine ⟨h.nodup, List.nodup_singleton _, ?_⟩
      intro n hn m hm
      obtain ⟨row, hrow, rfl⟩ := List.mem_map.mp hn
      rw [List.mem_singleton.mp hm]
      exact (h.lt_counter row hrow).ne
    · intro row hrow
      rcases List.mem_append.mp hrow with hrow | hrow
      · exact Nat.lt_succ_of_lt (h.lt_counter row hrow)
      · rw [List.mem_singleton.mp hrow]
        exact Nat.lt_succ_self _
    · exact Nat.lt_succ_of_lt h.counter
    · intro row hrow hnone
      rcases List.mem_append.mp hrow with hrow | hrow
      · exact h.added row hrow hnone
      · rw [List.mem_singleton.mp hrow]
        rfl
    · intro row hrow committed hcommitted
      rcases List.mem_append.mp hrow with hrow | hrow
      · exact h.remembers row hrow committed hcommitted
      · rw [List.mem_singleton.mp hrow, hnew] at hcommitted
        cases hcommitted
    · intro row hrow committed hcommitted
      rcases List.mem_append.mp hrow with hrow | hrow
      · exact h.deleted row hrow committed hcommitted
      · rw [List.mem_singleton.mp hrow, hnew] at hcommitted
        cases hcommitted
  refine ⟨hinv, iff_of_true ((hinv.agrees_iff huuid hhash).mpr ⟨?_, ?_⟩) trivial⟩
  · intro row hrow committed hcommitted
    rcases List.mem_append.mp hrow with hrow | hrow
    · exact hmodified row hrow committed hcommitted
    · rw [List.mem_singleton.mp hrow, hnew] at hcommitted
      cases hcommitted
  · have hchanged : hasChanges (t.state.rows ++ [addedRow t.state data]) = true := by
      rw [hasChanges_iff]
      exact ⟨_, List.mem_append_right _ List.mem_cons_self, by simp [addedRow]⟩
    simp [hchanged]

/-- A deletion, with the rows that are left or marked. -/
theorem deleted_rows {rows : List (Row env)} {id : String}
    (hrows : deleteRow t.state.rows id = .ok rows) (staged : Bool) :
    @Inv Value Hash env ⟨⟨rows, t.state.counter, staged⟩, id :: t.deleted⟩ ∧
      NoFalseModified rows := by
  obtain ⟨hmodified, -⟩ := (h.agrees_iff huuid hhash).mp hagrees
  obtain ⟨row, hrow, rfl, ⟨hadded, rfl⟩ | ⟨hadded, rfl⟩⟩ := deleteRow_eq_ok hrows
  · refine ⟨h.dropRow row.oxenId staged _ ?_, ?_⟩
    · intro id hne
      simp [hne]
    · intro row' hrow'
      exact hmodified row' (List.mem_filter.mp hrow').1
  · refine ⟨h.removeRow huuid hrow hadded staged, ?_⟩
    intro row' hrow' committed hcommitted
    obtain ⟨old, hold, rfl⟩ := List.mem_map.mp hrow'
    unfold removeRow at hcommitted ⊢
    split
    · intro hmod
      cases hmod
    · next hne =>
        rw [if_neg hne] at hcommitted
        exact hmodified old hold committed hcommitted

theorem step_delete {id : String} (hrun : delete t.state id = .ok s') :
    StepSpec t ⟨s', (Call.delete id : Call Value).deletedAfter t.deleted⟩ True := by
  obtain ⟨rows, hrows, rfl⟩ := delete_eq_ok hrun
  obtain ⟨hinv, hmodified⟩ := deleted_rows h huuid hhash hagrees hrows (hasChanges rows)
  exact ⟨hinv, iff_of_true ((hinv.agrees_iff huuid hhash).mpr ⟨hmodified, Iff.rfl⟩) trivial⟩

theorem step_restore {id : String} (hrun : restore t.state id = .ok s') :
    StepSpec t ⟨s', (Call.restore id : Call Value).deletedAfter t.deleted⟩ True := by
  obtain ⟨hmodified, hstaged⟩ := (h.agrees_iff huuid hhash).mp hagrees
  obtain ⟨rows, hrows, rfl⟩ := restore_eq_ok hrun
  obtain ⟨row, hrow, rfl, hcases⟩ := restoreRowInDb_eq_ok hrows
  -- A row that is restored was staged, unless it is unchanged.
  have hwas : row.status ≠ .unchanged → t.state.staged = true := fun hne =>
    hstaged.mpr (hasChanges_iff.mpr ⟨row, hrow, hne⟩)
  rcases hcases with ⟨hadded, hdelete⟩ | ⟨committed, hstatus, hcommitted, rfl⟩ | ⟨hstatus, rfl⟩
  · obtain ⟨-, hkept⟩ := deleted_rows h huuid hhash hagrees hdelete t.state.staged
    obtain ⟨row', hrow', hid, ⟨-, rfl⟩ | ⟨hnot, -⟩⟩ := deleteRow_eq_ok hdelete
    · have hinv := h.dropRow row.oxenId
        (hasChanges (t.state.rows.filter (·.oxenId ≠ row.oxenId)) && t.state.staged)
        ((Call.restore row.oxenId : Call Value).deletedAfter t.deleted)
        (fun id hne => by simp [Call.deletedAfter, hne])
      refine ⟨hinv, iff_of_true ((hinv.agrees_iff huuid hhash).mpr ⟨hkept, ?_⟩) trivial⟩
      simp [hwas (by simp [hadded])]
    · rw [h.eq_of_oxenId huuid hrow' hrow hid] at hnot
      exact absurd hadded hnot
  · have hne : row.status ≠ .unchanged := by
      rcases hstatus with hstatus | hstatus <;> simp [hstatus]
    have hinv := inv_editRows h hhash (KeyedMap.insertAll ∅ [(row.oxenId, rowData committed)])
      ((Call.restore row.oxenId : Call Value).deletedAfter t.deleted)
      (hasChanges (t.state.rows.map
        (editRows (KeyedMap.insertAll ∅ [(row.oxenId, rowData committed)]))) && t.state.staged)
      (fun id => by simp [Call.deletedAfter, KeyedMap.mem_insertAll])
    refine ⟨hinv, iff_of_true ((hinv.agrees_iff huuid hhash).mpr ⟨?_, ?_⟩) trivial⟩
    · rw [noFalseModified_editRows h hhash hmodified]
      intro row' hrow' data hlookup hunchanged
      rw [lookup_single] at hlookup
      split_ifs at hlookup with hid
      rw [h.eq_of_oxenId huuid hrow' hrow hid] at hunchanged
      exact absurd hunchanged hne
    · simp [hwas hne]
  · have hinv := h.keep huuid hrow (by simp [hstatus])
      (hasChanges t.state.rows && t.state.staged)
    refine ⟨hinv, iff_of_true ((hinv.agrees_iff huuid hhash).mpr ⟨hmodified, ?_⟩) trivial⟩
    dsimp only
    rw [Bool.and_eq_true, hstaged, and_self_iff]

theorem step_spec (call : Call Value) (hrun : call.run t.state = .ok s') :
    StepSpec t ⟨s', call.deletedAfter t.deleted⟩ (call.Meets t.state) := by
  cases call with
  | add data => exact step_add h huuid hhash hagrees hrun
  | update id data => exact step_update h huuid hhash hagrees hrun
  | batchUpdate items => exact step_batchUpdate h huuid hhash hagrees hrun
  | delete id => exact step_delete h huuid hhash hagrees hrun
  | restore id => exact step_restore h huuid hhash hagrees hrun

end Steps

/-! ## Runs -/

theorem throughout_iff_of_agrees (huuid : Function.Injective env.uuid)
    (hhash : Function.Injective env.hashRow) {t : Tracked env} (h : Inv t) (hagrees : Agrees t)
    (calls : List (Call Value)) : Throughout Agrees t calls ↔ AllMeet t calls := by
  induction calls generalizing t with
  | nil => exact iff_of_true hagrees trivial
  | cons call calls ih =>
      rw [Throughout, AllMeet]
      have hhead : Throughout Agrees (call.next t) calls → Agrees (call.next t) := by
        intro hrest
        cases calls with
        | nil => exact hrest
        | cons _ _ => exact hrest.1
      cases hrun : call.run t.state with
      | error e =>
          have hnext : call.next t = t := by rw [Call.next, hrun]
          rw [hnext, ih h hagrees]
          simp [hagrees]
      | ok state =>
          have hnext : call.next t = ⟨state, call.deletedAfter t.deleted⟩ := by
            rw [Call.next, hrun]
          obtain ⟨hinv, hiff⟩ := step_spec h huuid hhash hagrees call hrun
          rw [← hnext] at hinv hiff
          constructor
          · rintro ⟨-, hrest⟩
            exact ⟨fun _ => hiff.mp (hhead hrest), (ih hinv (hhead hrest)).mp hrest⟩
          · rintro ⟨hmeets, hrest⟩
            have hagrees' := hiff.mpr (hmeets ⟨state, rfl⟩)
            exact ⟨hagrees, (ih hinv hagrees').mpr hrest⟩

theorem mem_index {row : Row env} (hrow : row ∈ (index env).rows) :
    ∃ i, ∃ hi : i < env.file.rows.length,
      row = ⟨env.uuid (i + 1), i + 1, env.file.rows[i], .unchanged, none⟩ := by
  obtain ⟨i, hi, rfl⟩ := List.mem_mapIdx.mp hrow
  exact ⟨i, hi, rfl⟩

theorem inv_index : @Inv Value Hash env ⟨index env, []⟩ := by
  have hcommitted : ∀ row ∈ (index env).rows, committedAt env row.rowId = some row.values := by
    intro row hrow
    obtain ⟨i, hi, rfl⟩ := mem_index hrow
    simp [committedAt, hi]
  have hunchanged : ∀ row ∈ (index env).rows, row.status = .unchanged ∧ row.hash = none := by
    intro row hrow
    obtain ⟨i, hi, rfl⟩ := mem_index hrow
    exact ⟨rfl, rfl⟩
  refine ⟨?_, ?_, ?_, Nat.lt_succ_self _, ?_, ?_, ?_⟩
  · intro row hrow
    obtain ⟨i, hi, rfl⟩ := mem_index hrow
    rfl
  · have hids : (index env).rows.map Row.rowId = List.range' 1 env.file.rows.length := by
      apply List.ext_getElem
      · simp [index]
      · intro i _ _
        simp [index, Nat.add_comm]
    rw [hids]
    exact List.nodup_range'
  · intro row hrow
    obtain ⟨i, hi, rfl⟩ := mem_index hrow
    exact Nat.succ_lt_succ hi
  · intro row hrow hnone
    simp [hcommitted row hrow] at hnone
  · intro row hrow committed hsome
    obtain rfl : row.values = committed := by simpa [hcommitted row hrow] using hsome
    obtain ⟨hstatus, hhash⟩ := hunchanged row hrow
    exact ⟨by simp [hstatus], fun _ => ⟨rfl, by simp [hstatus]⟩, by simp [hhash], fun _ => rfl⟩
  · intro row hrow committed _
    simp [(hunchanged row hrow).1]

theorem throughout_agrees_iff (env : Env Value Hash) (huuid : Function.Injective env.uuid)
    (hhash : Function.Injective env.hashRow) (calls : List (Call Value)) :
    Throughout Agrees (Tracked.mk (index env) []) calls ↔
      AllMeet (Tracked.mk (index env) []) calls := by
  apply throughout_iff_of_agrees huuid hhash inv_index
  have hunchanged : ∀ row ∈ (index env).rows, row.status = .unchanged := by
    intro row hrow
    obtain ⟨i, hi, rfl⟩ := mem_index hrow
    rfl
  rw [inv_index.agrees_iff huuid hhash, hasChanges_iff]
  refine ⟨?_, ?_⟩
  · intro row hrow _ _ hmodified
    simp [hunchanged row hrow] at hmodified
  · simp only [index, Bool.false_eq_true, false_iff]
    rintro ⟨row, hrow, hne⟩
    exact hne (hunchanged row hrow)

namespace Example

/-- One row with one column. -/
def file : CommittedFile String where
  columns := ["label"]
  columns_nodup := by decide
  columns_disjoint := by decide
  rows := [fun _ => "dog"]

def oneRow : Env String (Fin file.columns.length → String) where
  file := file
  hashRow values := values
  uuid n := String.ofList (List.replicate n '-')
  null := ""

theorem uuid_injective : Function.Injective oneRow.uuid := by
  intro n m h
  have hlist := congrArg (fun s => s.toList.length) h
  simpa [oneRow] using hlist

/-- The first update of the row writes the values it has. -/
def sameValues : List (Call String) := [.update "-" (AList.singleton "label" "dog")]

def updated : Tracked oneRow :=
  Call.next (Tracked.mk (index oneRow) []) (.update "-" (AList.singleton "label" "dog"))

end Example

theorem not_throughout_agrees : ¬ ∀ (Value Hash : Type) (_ : DecidableEq Value)
    (_ : DecidableEq Hash) (env : Env Value Hash) (calls : List (Call Value)),
    Function.Injective env.uuid → Function.Injective env.hashRow →
      Throughout Agrees (Tracked.mk (index env) []) calls := by
  intro h
  obtain ⟨-, hlast⟩ := h _ _ _ _ Example.oneRow Example.sameValues Example.uuid_injective
    (fun _ _ heq => heq)
  have hall : (Example.updated.state.rows.all fun row =>
      (committedAt Example.oneRow row.rowId).all fun committed =>
        row.status = committedStatus Example.updated.deleted row committed) = true := by
    rw [List.all_eq_true]
    intro row hrow
    cases hcommitted : committedAt Example.oneRow row.rowId with
    | none => rfl
    | some committed =>
      have hstatus : row.status = committedStatus Example.updated.deleted row committed :=
        hlast.committed row hrow committed hcommitted
      exact decide_eq_true hstatus
  revert hall
  decide

theorem throughout_agrees_iff_sameValues :
    Throughout Agrees (Tracked.mk (index Example.oneRow) []) Example.sameValues ↔
      AllMeet (Tracked.mk (index Example.oneRow) []) Example.sameValues :=
  throughout_agrees_iff Example.oneRow Example.uuid_injective (fun _ _ h => h) Example.sameValues

end Rows

end Oxen
