import Mathlib.Data.List.AList

/-! Maps filled by a sequence of insertions, a later one replacing an earlier one. -/

namespace KeyedMap

variable {α β : Type*} [DecidableEq α]

abbrev Map (α β : Type*) := AList fun _ : α => β

instance [DecidableEq β] : DecidableEq (Map α β) := fun xs ys =>
  decidable_of_iff (xs.entries = ys.entries) AList.ext_iff.symm

def insertAll (m : Map α β) : List (α × β) → Map α β
  | [] => m
  | (k, v) :: rest => insertAll (m.insert k v) rest

/-- Keeps the value that a key already has. -/
def insertNew (m : Map α β) (k : α) (v : β) : Map α β :=
  if k ∈ m then m else m.insert k v

theorem lookup_insertNew (m : Map α β) (k : α) (v : β) (k' : α) :
    (insertNew m k v).lookup k' = if k' = k then some ((m.lookup k).getD v) else m.lookup k' := by
  unfold insertNew
  by_cases hk : k' = k
  · subst hk
    rw [if_pos rfl]
    split
    · rename_i hmem
      rcases Option.isSome_iff_exists.mp (AList.lookup_isSome.mpr hmem) with ⟨old, hold⟩
      rw [hold, Option.getD_some]
    · rename_i hnot
      rw [AList.lookup_insert, AList.lookup_eq_none.mpr hnot, Option.getD_none]
  · rw [if_neg hk]
    split
    · rfl
    · exact AList.lookup_insert_ne hk

theorem insertAll_append (m : Map α β) (xs ys : List (α × β)) :
    insertAll m (xs ++ ys) = insertAll (insertAll m xs) ys := by
  induction xs generalizing m with
  | nil => rfl
  | cons x xs ih => exact ih _

theorem lookup_insertAll_of_notMem {m : Map α β} {pairs : List (α × β)} {k : α}
    (hk : k ∉ pairs.map Prod.fst) : (insertAll m pairs).lookup k = m.lookup k := by
  induction pairs generalizing m with
  | nil => rfl
  | cons pair pairs ih =>
      obtain ⟨hne, hk⟩ : k ≠ pair.1 ∧ k ∉ pairs.map Prod.fst := by simpa using hk
      rw [insertAll, ih hk, AList.lookup_insert_ne hne]

theorem mem_of_lookup_insertAll {m : Map α β} {pairs : List (α × β)} {k : α} {v : β}
    (h : (insertAll m pairs).lookup k = some v) : m.lookup k = some v ∨ (k, v) ∈ pairs := by
  induction pairs generalizing m with
  | nil => exact .inl h
  | cons pair pairs ih =>
      rcases ih h with hm | hp
      · by_cases hk : k = pair.1
        · subst hk
          rw [AList.lookup_insert] at hm
          exact .inr (by simp [← Option.some.inj hm])
        · exact .inl (by rwa [AList.lookup_insert_ne hk] at hm)
      · exact .inr (List.mem_cons_of_mem _ hp)

theorem mem_insertAll {m : Map α β} {pairs : List (α × β)} {k : α} :
    k ∈ insertAll m pairs ↔ k ∈ m ∨ k ∈ pairs.map Prod.fst := by
  induction pairs generalizing m with
  | nil => simp [insertAll]
  | cons pair pairs ih =>
      rw [insertAll, ih, AList.mem_insert, List.map_cons, List.mem_cons]
      tauto

/-- With distinct keys every inserted pair is found again. -/
theorem lookup_insertAll_of_mem {m : Map α β} {pairs : List (α × β)} {k : α} {v : β}
    (hn : (pairs.map Prod.fst).Nodup) (h : (k, v) ∈ pairs) :
    (insertAll m pairs).lookup k = some v := by
  induction pairs generalizing m with
  | nil => simp at h
  | cons pair pairs ih =>
      rw [List.map_cons, List.nodup_cons] at hn
      rcases List.mem_cons.mp h with rfl | h
      · rw [insertAll, lookup_insertAll_of_notMem hn.1, AList.lookup_insert]
      · exact ih hn.2 h

/-- A map filled from nothing holds exactly the inserted pairs. -/
theorem lookup_insertAll_empty_iff {pairs : List (α × β)} {k : α} {v : β}
    (hn : (pairs.map Prod.fst).Nodup) :
    (insertAll (∅ : Map α β) pairs).lookup k = some v ↔ (k, v) ∈ pairs := by
  refine ⟨fun h => ?_, lookup_insertAll_of_mem hn⟩
  simpa using mem_of_lookup_insertAll h

/-- The same for pairs in which a key may come twice, always with one value. -/
theorem lookup_insertAll_empty_iff_of_functional {pairs : List (α × β)} {k : α} {v : β}
    (hfunctional : ∀ w, (k, v) ∈ pairs → (k, w) ∈ pairs → w = v) :
    (insertAll (∅ : Map α β) pairs).lookup k = some v ↔ (k, v) ∈ pairs := by
  constructor
  · intro h
    simpa using mem_of_lookup_insertAll h
  · intro h
    have hmem : k ∈ insertAll (∅ : Map α β) pairs :=
      mem_insertAll.mpr (.inr (List.mem_map_of_mem h))
    obtain ⟨w, hw⟩ := Option.isSome_iff_exists.mp (AList.lookup_isSome.mpr hmem)
    have hpair : (k, w) ∈ pairs := by simpa using mem_of_lookup_insertAll hw
    rw [hw, hfunctional w h hpair]

theorem lookup_insert_eq_some {m : Map α β} {k k' : α} {v v' : β} :
    (m.insert k v).lookup k' = some v' ↔
      k' = k ∧ v' = v ∨ k' ≠ k ∧ m.lookup k' = some v' := by
  by_cases hk : k' = k
  · subst hk
    simp [AList.lookup_insert, eq_comm]
  · simp [AList.lookup_insert_ne hk, hk]

theorem lookup_erase_eq_some {m : Map α β} {k k' : α} {v' : β} :
    (m.erase k).lookup k' = some v' ↔ k' ≠ k ∧ m.lookup k' = some v' := by
  by_cases hk : k' = k
  · subst hk
    simp
  · simp [AList.lookup_erase_ne hk, hk]

theorem lookup_insertAll_empty_eq_none {pairs : List (α × β)} {k : α} :
    (insertAll (∅ : Map α β) pairs).lookup k = none ↔ k ∉ pairs.map Prod.fst := by
  rw [AList.lookup_eq_none, mem_insertAll]
  simp

/-- Insertions hide what the map held before. -/
theorem lookup_insertAll (m : Map α β) (pairs : List (α × β)) (k : α) :
    (insertAll m pairs).lookup k = ((insertAll ∅ pairs).lookup k).or (m.lookup k) := by
  induction pairs generalizing m with
  | nil => simp [insertAll]
  | cons pair pairs ih =>
      rw [insertAll, insertAll, ih (m.insert pair.1 pair.2), ih ((∅ : Map α β).insert pair.1 pair.2)]
      by_cases hk : k = pair.1
      · subst hk
        rw [AList.lookup_insert, AList.lookup_insert]
        cases (insertAll ∅ pairs).lookup pair.1 <;> rfl
      · rw [AList.lookup_insert_ne hk, AList.lookup_insert_ne hk, AList.lookup_empty, Option.or_none]

theorem lookup_insertAll_map {γ : Type*} (f : β → γ) (pairs : List (α × β)) (k : α) :
    (insertAll ∅ (pairs.map fun pair => (pair.1, f pair.2))).lookup k =
      ((insertAll ∅ pairs).lookup k).map f := by
  induction pairs with
  | nil => simp [insertAll]
  | cons pair pairs ih =>
      rw [List.map_cons, insertAll, insertAll, lookup_insertAll, ih,
        lookup_insertAll ((∅ : Map α β).insert pair.1 pair.2)]
      by_cases hk : k = pair.1
      · subst hk
        rw [AList.lookup_insert, AList.lookup_insert]
        cases (insertAll ∅ pairs).lookup pair.1 <;> rfl
      · rw [AList.lookup_insert_ne hk, AList.lookup_insert_ne hk, AList.lookup_empty,
          AList.lookup_empty, Option.or_none, Option.or_none]

/-- The pairs of a map, each key once. -/
def toList (m : Map α β) : List (α × β) :=
  m.entries.map fun entry => (entry.1, entry.2)

theorem mem_toList {m : Map α β} {k : α} {v : β} : (k, v) ∈ toList m ↔ m.lookup k = some v := by
  rw [← Option.mem_def, AList.mem_lookup_iff, toList, List.mem_map]
  constructor
  · rintro ⟨⟨k', v'⟩, hm, heq⟩
    obtain ⟨rfl, rfl⟩ := Prod.mk.inj heq
    exact hm
  · exact fun h => ⟨⟨k, v⟩, h, rfl⟩

omit [DecidableEq α] in
theorem nodup_map_fst_toList (m : Map α β) : ((toList m).map Prod.fst).Nodup := by
  rw [toList, List.map_map]
  exact m.nodupKeys

theorem toList_insert_of_notMem {m : Map α β} {k : α} {v : β} (hk : k ∉ m) :
    toList (m.insert k v) = (k, v) :: toList m := by
  rw [toList, AList.entries_insert_of_notMem hk]
  rfl

theorem perm_toList_erase {m : Map α β} {k : α} {v : β} (hk : m.lookup k = some v) :
    (toList m).Perm ((k, v) :: toList (m.erase k)) := by
  have hmem : k ∈ m.entries.keys := AList.mem_keys.mp (AList.lookup_isSome.mp (by simp [hk]))
  obtain ⟨v', before, after, -, hentries, herase⟩ := List.exists_of_kerase hmem
  have hv : m.lookup k = some v' := by
    rw [← Option.mem_def, AList.mem_lookup_iff, hentries]
    simp
  obtain rfl : v' = v := by simpa [hv] using hk
  have herase' : (m.erase k).entries = before ++ after := herase
  rw [toList, toList, herase', hentries]
  simp only [List.map_append, List.map_cons]
  exact List.perm_middle

/-- What is left when a pass over some keys erases those that are not kept. -/
theorem lookup_foldl_erase {σ : Type*} {step : Map α β × σ → α → Map α β × σ} (keep : α → Prop)
    [DecidablePred keep] (hstep : ∀ s k, (step s k).1 = if keep k then s.1 else s.1.erase k)
    (keys : List α) (s : Map α β × σ) (k : α) :
    (keys.foldl step s).1.lookup k = if k ∈ keys ∧ ¬ keep k then none else s.1.lookup k := by
  induction keys generalizing s with
  | nil => simp
  | cons key keys ih =>
      rw [List.foldl_cons, ih, hstep]
      by_cases hk : k = key
      · subst hk
        by_cases hkeep : keep k <;> simp [hkeep]
      · by_cases hkeep : keep key
        · simp [hkeep, hk]
        · simp [hkeep, hk, AList.lookup_erase_ne hk]

/-- What is left after some keys are erased. -/
theorem lookup_foldl_erase_keys (keys : List α) (m : Map α β) (k : α) :
    (keys.foldl (fun m key => m.erase key) m).lookup k = if k ∈ keys then none else m.lookup k := by
  induction keys generalizing m with
  | nil => simp
  | cons key keys ih =>
      rw [List.foldl_cons, ih]
      by_cases hk : k = key
      · subst hk
        simp [AList.lookup_erase k m]
      · simp [hk, AList.lookup_erase_ne hk]

def mapValues {γ : Type*} (f : α → β → γ) (m : Map α β) : Map α γ where
  entries := m.entries.map fun entry => ⟨entry.1, f entry.1 entry.2⟩
  nodupKeys := by
    have hkeys : (m.entries.map fun entry => (⟨entry.1, f entry.1 entry.2⟩ : (_ : α) × γ)).keys =
        m.entries.keys := by
      simp [List.keys]
    rw [List.NodupKeys, hkeys]
    exact m.nodupKeys

theorem lookup_mapValues {γ : Type*} (f : α → β → γ) (m : Map α β) (k : α) :
    (mapValues f m).lookup k = (m.lookup k).map (f k) := by
  obtain ⟨entries, hnodup⟩ := m
  change List.dlookup k (entries.map fun entry => (⟨entry.1, f entry.1 entry.2⟩ : (_ : α) × γ)) =
    (List.dlookup k entries).map (f k)
  clear hnodup
  induction entries with
  | nil => rfl
  | cons entry entries ih =>
      obtain ⟨k', v⟩ := entry
      by_cases hk : k = k'
      · subst hk
        rw [List.map_cons, List.dlookup_cons_eq, List.dlookup_cons_eq]
        rfl
      · have hold : List.dlookup k (⟨k', v⟩ :: entries) = List.dlookup k entries :=
          List.dlookup_cons_ne entries (⟨k', v⟩ : (_ : α) × β) hk
        have hnew := List.dlookup_cons_ne (entries.map fun entry =>
          (⟨entry.1, f entry.1 entry.2⟩ : (_ : α) × γ)) (⟨k', f k' v⟩ : (_ : α) × γ) hk
        rw [List.map_cons, hold, ← ih]
        exact hnew

theorem mem_mapValues {γ : Type*} {f : α → β → γ} {m : Map α β} {k : α} :
    k ∈ mapValues f m ↔ k ∈ m := by
  rw [← AList.lookup_isSome, ← AList.lookup_isSome, lookup_mapValues, Option.isSome_map]

/-- Of what is derived from all pairs, the items with one key come from that
key's pair. -/
theorem filter_flatMap_toList {γ : Type*} (key : γ → α) {g : α × β → List γ}
    (hg : ∀ pair, ∀ x ∈ g pair, key x = pair.1) (m : Map α β) (k : α) :
    ((toList m).flatMap g).filter (key · = k) =
      ((m.lookup k).map fun v => g (k, v)).getD [] := by
  have hself : ∀ v, (g (k, v)).filter (key · = k) = g (k, v) := fun v =>
    List.filter_eq_self.mpr fun x hx => decide_eq_true (hg (k, v) x hx)
  have hother : ∀ pair, pair.1 ≠ k → (g pair).filter (key · = k) = [] := fun pair hne =>
    List.filter_eq_nil_iff.mpr fun x hx => by simpa [hg pair x hx] using hne
  obtain ⟨entries, hnodup⟩ := m
  rw [AList.lookup, toList]
  induction entries with
  | nil => rfl
  | cons entry rest ih =>
      obtain ⟨k', v⟩ := entry
      obtain ⟨hk, hrest⟩ := List.nodupKeys_cons.mp hnodup
      rw [List.map_cons, List.flatMap_cons, List.filter_append, ih hrest]
      by_cases hkk : k' = k
      · subst hkk
        have hnone : List.dlookup k' rest = none := List.dlookup_eq_none.mpr hk
        rw [hself, hnone, List.dlookup_cons_eq]
        simp
      · have hcons : List.dlookup k (⟨k', v⟩ :: rest) = List.dlookup k rest :=
          List.dlookup_cons_ne rest (⟨k', v⟩ : (_ : α) × β) (Ne.symm hkk)
        rw [hother _ hkk, hcons]
        rfl

end KeyedMap
