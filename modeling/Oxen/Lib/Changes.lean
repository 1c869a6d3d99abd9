import Oxen.Lib.KeyedMap

/-! The changes of single keys that lead from one map to another. -/

namespace Changes

inductive Change (β : Type*) where
  | added (value : β)
  | removed
  | modified (value : β)
deriving DecidableEq

namespace Change

variable {β : Type*}

def isAdded : Change β → Bool
  | .added _ => true
  | _ => false

def isRemoved : Change β → Bool
  | .removed => true
  | _ => false

def isModified : Change β → Bool
  | .modified _ => true
  | _ => false

end Change

variable {α β : Type*} [DecidableEq α] [DecidableEq β]

/-- What has happened to a key, if anything. -/
def change : Option β → Option β → Option (Change β)
  | none, none => none
  | none, some new => some (.added new)
  | some _, none => some .removed
  | some old, some new => if old = new then none else some (.modified new)

/-- What a key holds after a change, if the change fits what it held before. -/
def Change.apply : Change β → Option β → Option (Option β)
  | .added new, none => some (some new)
  | .removed, some _ => some none
  | .modified new, some old => if old = new then none else some (some new)
  | _, _ => none

theorem change_eq_none_iff {old new : Option β} : change old new = none ↔ old = new := by
  cases old with
  | none => cases new <;> simp [change]
  | some old => cases new <;> simp [change]

theorem Change.apply_eq_some_iff {c : Change β} {old new : Option β} :
    c.apply old = some new ↔ change old new = some c := by
  cases c with
  | added value => cases old <;> cases new <;> simp [Change.apply, change, eq_comm]
  | removed => cases old <;> cases new <;> simp [Change.apply, change]
  | modified value =>
      cases old with
      | none => cases new <;> simp [Change.apply, change]
      | some old =>
          cases new with
          | none => simp [Change.apply, change]
          | some new =>
              simp only [Change.apply, change]
              constructor
              · intro h
                split at h
                · cases h
                · next hne =>
                    obtain rfl := Option.some.inj (Option.some.inj h)
                    rw [if_neg hne]
              · intro h
                split at h
                · cases h
                · next hne =>
                    obtain rfl := Change.modified.inj (Option.some.inj h)
                    rw [if_neg hne]

def applyAll : List (α × Change β) → (α → Option β) → Option (α → Option β)
  | [], m => some m
  | (k, c) :: rest, m =>
      match c.apply (m k) with
      | none => none
      | some v => applyAll rest (Function.update m k v)

theorem applyAll_cons_eq_some_iff {k : α} {c : Change β} {rest : List (α × Change β)}
    {m m' : α → Option β} : applyAll ((k, c) :: rest) m = some m' ↔
      ∃ v, change (m k) v = some c ∧ applyAll rest (Function.update m k v) = some m' := by
  simp only [← Change.apply_eq_some_iff]
  rw [applyAll]
  cases c.apply (m k) <;> simp

/-- Changes of distinct keys lead from one map to another exactly when they are what has
happened to the keys. -/
theorem applyAll_eq_some_iff {changes : List (α × Change β)}
    (hn : (changes.map Prod.fst).Nodup) {m m' : α → Option β} :
    applyAll changes m = some m' ↔ ∀ k c, (k, c) ∈ changes ↔ change (m k) (m' k) = some c := by
  induction changes generalizing m with
  | nil =>
      have hsame : applyAll [] m = some m' ↔ ∀ k, change (m k) (m' k) = none := by
        simp only [applyAll, Option.some.injEq, change_eq_none_iff, funext_iff]
      rw [hsame]
      refine forall_congr' fun k => ?_
      simp [Option.eq_none_iff_forall_ne_some]
  | cons first rest ih =>
      obtain ⟨k₀, c₀⟩ := first
      obtain ⟨hnotin, hrest⟩ := List.nodup_cons.mp hn
      have hfresh : ∀ c, (k₀, c) ∉ rest := fun c hc =>
        hnotin (List.mem_map.mpr ⟨_, hc, rfl⟩)
      rw [applyAll_cons_eq_some_iff]
      simp only [ih hrest]
      constructor
      · rintro ⟨v, hv, hall⟩ k c
        have hlast : v = m' k₀ := by
          rw [← change_eq_none_iff, Option.eq_none_iff_forall_ne_some]
          intro c hc
          refine hfresh c ((hall k₀ c).mpr ?_)
          rwa [Function.update_self]
        by_cases hk : k = k₀
        · subst hk
          rw [← hlast, hv, List.mem_cons, or_iff_left (hfresh c), Option.some.injEq, Prod.mk.injEq,
            eq_comm (a := c₀)]
          exact and_iff_right rfl
        · rw [List.mem_cons, or_iff_right (fun h => hk (Prod.mk.inj h).1), hall,
            Function.update_of_ne hk]
      · intro hall
        refine ⟨m' k₀, (hall k₀ c₀).mp List.mem_cons_self, fun k c => ?_⟩
        by_cases hk : k = k₀
        · subst hk
          rw [Function.update_self, change_eq_none_iff.mpr rfl]
          simp [hfresh c]
        · rw [Function.update_of_ne hk, ← hall, List.mem_cons,
            or_iff_right (fun h => hk (Prod.mk.inj h).1)]

/-! ## The changes between two maps -/

open KeyedMap

def changesBetween (m m' : Map α β) : List (α × Change β) :=
  ((toList m').filterMap fun pair =>
      (change (m.lookup pair.1) (some pair.2)).map fun c => (pair.1, c)) ++
    ((toList m).filter fun pair => pair.1 ∉ m').map fun pair => (pair.1, .removed)

theorem mem_changesBetween {m m' : Map α β} {k : α} {c : Change β} :
    (k, c) ∈ changesBetween m m' ↔ change (m.lookup k) (m'.lookup k) = some c := by
  have hnew : (k, c) ∈ ((toList m').filterMap fun pair =>
      (change (m.lookup pair.1) (some pair.2)).map fun c => (pair.1, c)) ↔
        ∃ v, m'.lookup k = some v ∧ change (m.lookup k) (some v) = some c := by
    simp only [List.mem_filterMap, Option.map_eq_some_iff, Prod.mk.injEq, Prod.exists, mem_toList]
    constructor
    · rintro ⟨k, v, hv, c, hc, rfl, rfl⟩
      exact ⟨v, hv, hc⟩
    · rintro ⟨v, hv, hc⟩
      exact ⟨k, v, hv, c, hc, rfl, rfl⟩
  have hold : (k, c) ∈ (((toList m).filter fun pair => pair.1 ∉ m').map fun pair =>
      (pair.1, (.removed : Change β))) ↔
        (∃ v, m.lookup k = some v) ∧ m'.lookup k = none ∧ .removed = c := by
    simp only [List.mem_map, List.mem_filter, decide_eq_true_eq, Prod.mk.injEq, Prod.exists,
      mem_toList, ← AList.lookup_eq_none]
    constructor
    · rintro ⟨k, v, ⟨hv, hk⟩, rfl, hc⟩
      exact ⟨⟨v, hv⟩, hk, hc⟩
    · rintro ⟨⟨v, hv⟩, hk, hc⟩
      exact ⟨k, v, ⟨hv, hk⟩, rfl, hc⟩
  rw [changesBetween, List.mem_append, hnew, hold]
  cases m'.lookup k with
  | none => cases m.lookup k <;> simp [change]
  | some v => simp

theorem nodup_changesBetween (m m' : Map α β) :
    ((changesBetween m m').map Prod.fst).Nodup := by
  have hnew : (((toList m').filterMap fun pair =>
      (change (m.lookup pair.1) (some pair.2)).map fun c => (pair.1, c)).map Prod.fst).Sublist
        ((toList m').map Prod.fst) := by
    induction toList m' with
    | nil => exact .slnil
    | cons pair rest ih =>
        rw [List.filterMap_cons, List.map_cons]
        cases change (m.lookup pair.1) (some pair.2) with
        | none => exact ih.cons _
        | some c => exact ih.cons_cons _
  have hold : (((toList m).filter fun pair => pair.1 ∉ m').map fun pair =>
      (pair.1, (.removed : Change β))).map Prod.fst =
        ((toList m).filter fun pair => pair.1 ∉ m').map Prod.fst := by
    rw [List.map_map]
    rfl
  rw [changesBetween, List.map_append, hold, List.nodup_append]
  refine ⟨(nodup_map_fst_toList m').sublist hnew,
    (nodup_map_fst_toList m).sublist (List.filter_sublist.map _), ?_⟩
  intro k hk k' hk'
  rcases List.mem_map.mp (hnew.subset hk) with ⟨⟨k, v⟩, hv, rfl⟩
  rcases List.mem_map.mp hk' with ⟨⟨k', w⟩, hw, rfl⟩
  have hnot := of_decide_eq_true (List.mem_filter.mp hw).2
  rintro rfl
  refine hnot (AList.lookup_isSome.mp ?_)
  rw [mem_toList.mp hv]
  rfl

end Changes
