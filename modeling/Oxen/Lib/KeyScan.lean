import Mathlib.Data.List.Infix
import Mathlib.Data.List.Lex
import Mathlib.Data.List.Sort

/-! Scans of keys in the order of their texts. The keys whose texts start alike
lie next to each other. -/

namespace KeyScan

variable {κ α : Type*} [LinearOrder α]

theorem le_of_isPrefix {p x : List α} (h : p <+: x) : p ≤ x := by
  rcases h with ⟨rest, rfl⟩
  induction p with
  | nil => exact not_lt.mp (List.not_lt_nil _)
  | cons a p ih =>
      rw [← not_lt] at ih ⊢
      rw [List.cons_append, List.cons_lt_cons_iff]
      rintro (h | h)
      · exact lt_irrefl a h
      · exact ih h.2

/-- What lies between a text and one that starts with it starts with it too. -/
theorem prefix_of_between {p x y : List α} (hpx : p ≤ x) (hxy : x ≤ y) (h : p <+: y) : p <+: x := by
  induction p generalizing x y with
  | nil => exact List.nil_prefix
  | cons a p ih =>
      rcases h with ⟨rest, rfl⟩
      rw [← not_lt] at hpx hxy
      cases x with
      | nil => exact absurd (List.nil_lt_cons a p) hpx
      | cons b x =>
          rw [List.cons_append, List.cons_lt_cons_iff] at hxy
          rw [List.cons_lt_cons_iff] at hpx
          push Not at hpx hxy
          obtain rfl : a = b := le_antisymm hpx.1 hxy.1
          rw [List.prefix_cons_inj]
          exact ih (hpx.2 rfl) (hxy.2 rfl) ⟨rest, rfl⟩

theorem takeWhile_eq_filter {p : κ → Bool} {keys : List κ}
    (h : keys.Pairwise fun x y => p y → p x) : keys.takeWhile p = keys.filter p := by
  induction h with
  | nil => rfl
  | @cons x keys hx _ ih =>
      by_cases hp : p x
      · rw [List.takeWhile_cons_of_pos hp, List.filter_cons_of_pos hp, ih]
      · rw [List.takeWhile_cons_of_neg hp, List.filter_cons_of_neg hp, eq_comm,
          List.filter_eq_nil_iff]
        exact fun y hy hpy => hp (hx y hy hpy)

variable (text : κ → List α)

/-- The keys from a text on, in order. -/
def scanFrom (keys : List κ) (start : List α) : List κ :=
  (keys.filter fun key => start ≤ text key).insertionSort fun a b => text a ≤ text b

variable {text}

theorem mem_scanFrom {keys : List κ} {start : List α} {key : κ} :
    key ∈ scanFrom text keys start ↔ key ∈ keys ∧ start ≤ text key := by
  rw [scanFrom, List.mem_insertionSort, List.mem_filter, decide_eq_true_eq]

theorem pairwise_scanFrom (keys : List κ) (start : List α) :
    (scanFrom text keys start).Pairwise fun a b => text a ≤ text b := by
  have : Std.Total fun a b : κ => text a ≤ text b := ⟨fun a b => le_total (text a) (text b)⟩
  have : IsTrans κ fun a b => text a ≤ text b := ⟨fun a b c => le_trans⟩
  exact List.pairwise_insertionSort _ _

/-- A scan that stops at the first other key finds all keys that start alike. -/
theorem mem_takeWhile_scanFrom {keys : List κ} {start : List α} {key : κ} :
    key ∈ (scanFrom text keys start).takeWhile (fun k => start.isPrefixOf (text k)) ↔
      key ∈ keys ∧ start <+: text key := by
  have hblock : (scanFrom text keys start).Pairwise fun a b =>
      start.isPrefixOf (text b) → start.isPrefixOf (text a) := by
    refine (pairwise_scanFrom keys start).imp_of_mem fun ha _ hab hb => ?_
    rw [List.isPrefixOf_iff_prefix] at hb ⊢
    exact prefix_of_between (mem_scanFrom.mp ha).2 hab hb
  rw [takeWhile_eq_filter hblock, List.mem_filter, mem_scanFrom, List.isPrefixOf_iff_prefix,
    and_assoc]
  refine and_congr_right fun _ => ?_
  exact ⟨And.right, fun h => ⟨le_of_isPrefix h, h⟩⟩

end KeyScan
