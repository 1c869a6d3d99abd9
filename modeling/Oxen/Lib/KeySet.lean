import Mathlib.Data.List.Nodup

/-! Sets of values that count as equal when their keys are equal. -/

/-- The elements of a set, with distinct keys. -/
structure KeySet {α κ : Type*} (key : α → κ) where
  elems : List α
  nodup_keys : (elems.map key).Nodup

namespace KeySet

variable {α κ : Type*} [DecidableEq κ] {key : α → κ} {s : KeySet key} {a b : α} {k : κ} {l : List α}

def empty : KeySet key := ⟨[], List.nodup_nil⟩

instance : EmptyCollection (KeySet key) := ⟨empty⟩

/-- The element with the key. -/
def get (s : KeySet key) (k : κ) : Option α :=
  s.elems.find? fun a => key a = k

def contains (s : KeySet key) (a : α) : Bool :=
  (s.get (key a)).isSome

/-- An element with the same key stays in its place. -/
def insert (s : KeySet key) (a : α) : KeySet key :=
  if h : key a ∈ s.elems.map key then s
  else ⟨a :: s.elems, List.nodup_cons.mpr ⟨h, s.nodup_keys⟩⟩

def ofList (l : List α) : KeySet key :=
  l.foldl insert ∅

def filter (s : KeySet key) (p : α → Bool) : KeySet key where
  elems := s.elems.filter p
  nodup_keys := s.nodup_keys.sublist (List.filter_sublist.map key)

omit [DecidableEq κ] in
@[simp] theorem elems_filter (s : KeySet key) (p : α → Bool) :
    (s.filter p).elems = s.elems.filter p := rfl

omit [DecidableEq κ] in
theorem eq_of_key_eq (ha : a ∈ s.elems) (hb : b ∈ s.elems) (h : key a = key b) : a = b :=
  List.inj_on_of_nodup_map s.nodup_keys ha hb h

theorem get_eq_some_iff : s.get k = some a ↔ a ∈ s.elems ∧ key a = k := by
  constructor
  · intro h
    have hkey := List.find?_some (p := fun a => key a = k) h
    exact ⟨List.mem_of_find?_eq_some h, of_decide_eq_true hkey⟩
  · rintro ⟨ha, rfl⟩
    cases h : s.get (key a) with
    | none =>
        have hnone := List.find?_eq_none.mp h a ha
        exact absurd (decide_eq_true rfl) hnone
    | some b =>
        have hkey := List.find?_some (p := fun b => key b = key a) h
        rw [eq_of_key_eq (List.mem_of_find?_eq_some h) ha (of_decide_eq_true hkey)]

theorem get_eq_none_iff : s.get k = none ↔ ∀ a ∈ s.elems, key a ≠ k := by
  rw [get, List.find?_eq_none]
  simp

theorem contains_iff : s.contains a = true ↔ ∃ b ∈ s.elems, key b = key a := by
  rw [contains, Option.isSome_iff_exists]
  simp only [get_eq_some_iff]

omit [DecidableEq κ] in
theorem nodup (s : KeySet key) : s.elems.Nodup :=
  s.nodup_keys.of_map key

theorem mem_of_mem_insert (h : b ∈ (s.insert a).elems) : b = a ∨ b ∈ s.elems := by
  unfold insert at h
  split at h
  · exact .inr h
  · exact List.mem_cons.mp h

theorem mem_insert_of_mem (h : b ∈ s.elems) : b ∈ (s.insert a).elems := by
  unfold insert
  split
  · exact h
  · exact List.mem_cons_of_mem a h

theorem exists_mem_insert (s : KeySet key) (a : α) : ∃ b ∈ (s.insert a).elems, key b = key a := by
  unfold insert
  split
  · next h =>
      rcases List.mem_map.mp h with ⟨b, hb, hkey⟩
      exact ⟨b, hb, hkey⟩
  · exact ⟨a, List.mem_cons_self, rfl⟩

theorem length_insert_le (s : KeySet key) (a : α) :
    (s.insert a).elems.length ≤ s.elems.length + 1 := by
  unfold insert
  split
  · exact Nat.le_succ _
  · exact Nat.le_refl _

theorem mem_of_mem_foldl (h : b ∈ (l.foldl insert s).elems) : b ∈ s.elems ∨ b ∈ l := by
  induction l generalizing s with
  | nil => exact .inl h
  | cons a l ih =>
      rcases ih h with hs | hl
      · rcases mem_of_mem_insert hs with rfl | hs
        · exact .inr List.mem_cons_self
        · exact .inl hs
      · exact .inr (List.mem_cons_of_mem a hl)

theorem mem_foldl_of_mem (h : b ∈ s.elems) : b ∈ (l.foldl insert s).elems := by
  induction l generalizing s with
  | nil => exact h
  | cons a l ih => exact ih (mem_insert_of_mem h)

/-- What is in a set that was filled came from the list. -/
theorem mem_of_mem_ofList (h : a ∈ (ofList l : KeySet key).elems) : a ∈ l := by
  rcases mem_of_mem_foldl h with h | h
  · cases h
  · exact h

/-- Every element of the list is in the set, or one with its key. -/
theorem exists_mem_ofList (h : a ∈ l) : ∃ b ∈ (ofList l : KeySet key).elems, key b = key a := by
  rcases List.append_of_mem h with ⟨before, after, rfl⟩
  rw [ofList, List.foldl_append, List.foldl_cons]
  rcases exists_mem_insert (before.foldl insert (∅ : KeySet key)) a with ⟨b, hb, hkey⟩
  exact ⟨b, mem_foldl_of_mem hb, hkey⟩

/-- A list with distinct keys is the set. -/
theorem mem_ofList_iff (hnodup : (l.map key).Nodup) :
    a ∈ (ofList l : KeySet key).elems ↔ a ∈ l := by
  refine ⟨mem_of_mem_ofList, fun h => ?_⟩
  rcases @exists_mem_ofList _ _ _ key _ _ h with ⟨b, hb, hkey⟩
  rwa [← List.inj_on_of_nodup_map hnodup (mem_of_mem_ofList hb) h hkey]

theorem length_foldl_le (l : List α) (s : KeySet key) :
    (l.foldl insert s).elems.length ≤ s.elems.length + l.length := by
  induction l generalizing s with
  | nil => exact Nat.le_refl _
  | cons a l ih =>
      apply Nat.le_trans (ih _)
      have hle := length_insert_le s a
      rw [List.length_cons]
      omega

theorem length_ofList_le (l : List α) : (ofList l : KeySet key).elems.length ≤ l.length :=
  Nat.le_trans (length_foldl_le l ∅) (Nat.le_of_eq (Nat.zero_add _))

omit [DecidableEq κ] in
/-- What is collected from the elements has distinct keys when they come from the keys of the
elements. -/
theorem nodup_map_filterMap {β γ : Type*} (s : KeySet key) {g : α → Option β} {q : β → γ} {r : κ → γ}
    (hr : ∀ k k', r k = r k' → k = k') (h : ∀ a b, g a = some b → q b = r (key a)) :
    ((s.elems.filterMap g).map q).Nodup := by
  have hkeys : (s.elems.map fun a => r (key a)).Nodup := by
    have hmap := s.nodup_keys.map hr
    rwa [List.map_map] at hmap
  refine hkeys.sublist ?_
  induction s.elems with
  | nil => exact .slnil
  | cons a l ih =>
      rw [List.filterMap_cons, List.map_cons]
      cases hg : g a with
      | none => exact ih.cons _
      | some b =>
          rw [List.map_cons, h a b hg]
          exact ih.cons_cons _

end KeySet
