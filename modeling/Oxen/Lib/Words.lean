import Mathlib.Data.List.Basic
import Mathlib.Data.Nat.Find

/-! Words that commute under concatenation are repetitions of one word. -/

namespace Words

variable {α : Type*} {u v w d : List α}

/-- The word a number of times. -/
def power (w : List α) (n : ℕ) : List α :=
  (List.replicate n w).flatten

@[simp] theorem power_zero (w : List α) : power w 0 = [] := rfl

theorem power_succ (w : List α) (n : ℕ) : power w (n + 1) = w ++ power w n := by
  rw [power, power, List.replicate_succ, List.flatten_cons]

@[simp] theorem power_one (w : List α) : power w 1 = w := by
  rw [power_succ, power_zero, List.append_nil]

theorem power_add (w : List α) (m n : ℕ) : power w (m + n) = power w m ++ power w n := by
  rw [power, power, power, ← List.replicate_append_replicate, List.flatten_append]

theorem length_power (w : List α) (n : ℕ) : (power w n).length = n * w.length := by
  induction n with
  | zero => simp
  | succ n ih => rw [power_succ, List.length_append, ih, Nat.succ_mul, Nat.add_comm]

/-- Both orders of two words are the same. -/
def Commutes (u v : List α) : Prop :=
  u ++ v = v ++ u

theorem Commutes.power_right (h : Commutes u d) (n : ℕ) : Commutes u (power d n) := by
  rw [Commutes] at h ⊢
  induction n with
  | zero => rw [power_zero, List.append_nil, List.nil_append]
  | succ n ih => rw [power_succ, ← List.append_assoc, h, List.append_assoc, ih, List.append_assoc]

theorem commutes_power_power (w : List α) (m n : ℕ) : Commutes (power w m) (power w n) := by
  rw [Commutes, ← power_add, ← power_add, Nat.add_comm]

/-- A word that commutes with `d` is in front of every repetition of `d` that is as long. -/
theorem Commutes.isPrefix (h : Commutes u d) {n : ℕ} (hlength : u.length ≤ n * d.length) :
    u <+: power d n := by
  have hfront : power d n <+: u ++ power d n := by
    rw [h.power_right n]
    exact List.prefix_append _ _
  apply List.prefix_of_prefix_length_le (List.prefix_append u _) hfront
  rwa [length_power]

/-- Of two words that commute with `d` the longer one is the shorter one and a rest that also
commutes with it. -/
theorem Commutes.split (hd : d ≠ []) (hu : Commutes u d) (hv : Commutes v d)
    (hlength : u.length ≤ v.length) : ∃ t, v = u ++ t ∧ Commutes t d := by
  have hpos : v.length ≤ v.length * d.length :=
    Nat.le_mul_of_pos_right _ (List.length_pos_iff.mpr hd)
  have hprefix : u <+: v :=
    List.prefix_of_prefix_length_le (hu.isPrefix (Nat.le_trans hlength hpos)) (hv.isPrefix hpos) hlength
  rcases hprefix with ⟨t, rfl⟩
  refine ⟨t, rfl, ?_⟩
  have hud : u ++ d = d ++ u := hu
  have hsplit : u ++ (t ++ d) = u ++ (d ++ t) :=
    calc
      u ++ (t ++ d) = u ++ t ++ d := (List.append_assoc u t d).symm
      _ = d ++ (u ++ t) := hv
      _ = u ++ (d ++ t) := by rw [← List.append_assoc, ← hud, List.append_assoc]
  exact List.append_cancel_left hsplit

/-- All words that commute with `d` are repetitions of the shortest one. -/
theorem exists_power_of_commutes (hd : d ≠ []) :
    ∃ w : List α, ∀ u, Commutes u d → ∃ n, u = power w n := by
  have hexists : ∃ n, ∃ w : List α, w ≠ [] ∧ Commutes w d ∧ w.length = n :=
    ⟨d.length, d, hd, rfl, rfl⟩
  classical
  rcases Nat.find_spec hexists with ⟨w, hw, hwd, hlength⟩
  refine ⟨w, fun u hu => ?_⟩
  -- A shorter word that commutes is empty, a longer one starts with the shortest.
  induction hn : u.length using Nat.strong_induction_on generalizing u with
  | _ n ih =>
      by_cases hshort : u.length < w.length
      · have hnil : u = [] := by
          by_contra hne
          rw [hlength] at hshort
          exact Nat.find_min hexists hshort ⟨u, hne, hu, rfl⟩
        exact ⟨0, hnil⟩
      · rcases hwd.split hd hu (Nat.le_of_not_lt hshort) with ⟨t, rfl, ht⟩
        have hless : t.length < n := by
          have hpos := List.length_pos_iff.mpr hw
          rw [List.length_append] at hn
          omega
        rcases ih t.length hless t ht rfl with ⟨k, rfl⟩
        exact ⟨k + 1, (power_succ w k).symm⟩

/-- Words of a list commute with each other exactly when they are repetitions of one word. -/
theorem commutes_iff_power {words : List (List α)} :
    (∀ u ∈ words, ∀ v ∈ words, Commutes u v) ↔ ∃ w, ∀ u ∈ words, ∃ n, u = power w n := by
  constructor
  · intro h
    by_cases hempty : ∀ u ∈ words, u = []
    · exact ⟨[], fun u hu => ⟨0, hempty u hu⟩⟩
    · rw [not_forall] at hempty
      rcases hempty with ⟨d, hd⟩
      rw [Classical.not_imp] at hd
      rcases exists_power_of_commutes hd.2 with ⟨w, hw⟩
      exact ⟨w, fun u hu => hw u (h u hu d hd.1)⟩
  · rintro ⟨w, hw⟩ u hu v hv
    rcases hw u hu with ⟨m, rfl⟩
    rcases hw v hv with ⟨n, rfl⟩
    exact commutes_power_power w m n

end Words
