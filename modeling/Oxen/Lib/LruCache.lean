import Mathlib.Data.List.Basic

/-! A cache that drops the least recently used entry, in front of a store that readers fill it
from: its reads are those of the store as long as what it holds is what the store answers. -/

/-- The most recently used entry comes first. -/
structure LruCache (κ ν : Type*) where
  capacity : ℕ
  entries : List (κ × ν)

namespace LruCache

variable {κ ν ε : Type*} [DecidableEq κ]

def lookup (c : LruCache κ ν) (k : κ) : Option ν :=
  (c.entries.find? fun entry => entry.1 = k).map Prod.snd

def without (c : LruCache κ ν) (k : κ) : List (κ × ν) :=
  c.entries.filter fun entry => entry.1 ≠ k

def get (c : LruCache κ ν) (k : κ) : Option ν × LruCache κ ν :=
  match c.lookup k with
  | some v => (some v, { c with entries := (k, v) :: c.without k })
  | none => (none, c)

def put (c : LruCache κ ν) (k : κ) (v : ν) : LruCache κ ν :=
  { c with entries := ((k, v) :: c.without k).take c.capacity }

/-- Reads through the cache; a failed read is not kept. -/
def readThrough (read : κ → Except ε ν) (c : LruCache κ ν) (k : κ) :
    Except ε ν × LruCache κ ν :=
  match c.get k with
  | (some v, c') => (.ok v, c')
  | (none, c') =>
      match read k with
      | .ok v => (.ok v, c'.put k v)
      | .error e => (.error e, c')

variable {c : LruCache κ ν} {k k' : κ} {v v' : ν} {read read' : κ → Except ε ν}

theorem find?_without (hne : k' ≠ k) :
    (c.without k).find? (fun entry => entry.1 = k') =
      c.entries.find? (fun entry => entry.1 = k') := by
  unfold without
  induction c.entries with
  | nil => rfl
  | cons entry entries ih =>
      by_cases hk : entry.1 = k
      · simpa [hk, List.find?_cons, Ne.symm hne] using ih
      · by_cases hk' : entry.1 = k'
        · simp [hk', hne]
        · simpa [hk, hk', List.find?_cons] using ih

@[simp] theorem get_fst : (c.get k).1 = c.lookup k := by
  unfold get
  cases c.lookup k <;> rfl

theorem lookup_get : (c.get k).2.lookup k' = c.lookup k' := by
  unfold get
  cases h : c.lookup k with
  | none => rfl
  | some v =>
      by_cases hk : k' = k
      · subst hk
        simp [lookup, ← h]
      · simp [lookup, Ne.symm hk, find?_without hk]

theorem lookup_put (h : (c.put k v).lookup k' = some v') :
    k' = k ∧ v' = v ∨ c.lookup k' = some v' := by
  obtain ⟨entry, hfind, rfl⟩ := Option.map_eq_some_iff.mp h
  have hfind' : ((k, v) :: c.without k).find? (fun entry => entry.1 = k') = some entry :=
    List.IsPrefix.find?_eq_some (List.take_prefix _ _) hfind
  by_cases hk : k' = k
  · subst hk
    simp only [List.find?_cons, decide_true, Option.some.injEq] at hfind'
    exact .inl ⟨rfl, by rw [← hfind']⟩
  · simp only [List.find?_cons, Ne.symm hk, decide_false, find?_without hk] at hfind'
    exact .inr (by rw [lookup, hfind', Option.map_some])

/-- What the cache holds is what a read answers. -/
def Fresh (read : κ → Except ε ν) (c : LruCache κ ν) : Prop :=
  ∀ k v, c.lookup k = some v → read k = .ok v

theorem fresh_of_entries_nil (h : c.entries = []) : Fresh read c := by
  intro k v hlookup
  simp [lookup, h] at hlookup

theorem Fresh.readThrough_fst (h : Fresh read c) (k : κ) : (readThrough read c k).1 = read k := by
  unfold readThrough
  cases hlookup : c.lookup k with
  | some v =>
      rw [show c.get k = (some v, (c.get k).2) from Prod.ext (by simp [hlookup]) rfl, h k v hlookup]
  | none =>
      rw [show c.get k = (none, (c.get k).2) from Prod.ext (by simp [hlookup]) rfl]
      cases read k <;> rfl

theorem Fresh.readThrough (h : Fresh read c) (k : κ) :
    Fresh read (LruCache.readThrough read c k).2 := by
  have hget : Fresh read (c.get k).2 := by
    intro k' v' hlookup
    rw [lookup_get] at hlookup
    exact h k' v' hlookup
  unfold LruCache.readThrough
  rcases hc : c.get k with ⟨found, c'⟩
  rw [hc] at hget
  cases found with
  | some v => exact hget
  | none =>
      cases hread : read k with
      | error e => simpa [hread] using hget
      | ok v =>
          intro k' v' hlookup
          rcases lookup_put hlookup with ⟨rfl, rfl⟩ | hold
          · exact hread
          · exact hget k' v' hold

/-- Reads through the cache are the reads of the store exactly if the cache is fresh. -/
theorem fresh_iff : Fresh read c ↔ ∀ k, (LruCache.readThrough read c k).1 = read k := by
  constructor
  · exact fun h k => h.readThrough_fst k
  · intro h k v hlookup
    rw [← h k, LruCache.readThrough,
      show c.get k = (some v, (c.get k).2) from Prod.ext (by simp [hlookup]) rfl]

/-- Where the store changes its answer for one key, only that entry can go stale. -/
theorem Fresh.change (h : Fresh read c) (hother : ∀ k' ≠ k, read' k' = read k') :
    Fresh read' c ↔ ∀ v, c.lookup k = some v → read' k = .ok v := by
  constructor
  · exact fun h' v hlookup => h' k v hlookup
  · intro hk k' v hlookup
    by_cases heq : k' = k
    · subst heq
      exact hk v hlookup
    · rw [hother k' heq, h k' v hlookup]

end LruCache
