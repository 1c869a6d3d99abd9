import Mathlib.Data.List.Sort
import Mathlib.Order.Basic

/-! A sorted listing that is served in pages: each page starts after the last entry of the one
before. -/

namespace Listing

variable {κ : Type*} [LinearOrder κ]

/-- The entries behind the one a page ended with. -/
def after (entries : List κ) : Option κ → List κ
  | none => entries
  | some last => entries.filter (last < ·)

/-- A page, with the entry that the next one starts after unless this one is the last. -/
def page (size : ℕ) (entries : List κ) (last : Option κ) : List κ × Option κ :=
  let rest := after entries last
  (rest.take size, if size < rest.length then (rest.take size).getLast? else none)

theorem after_some_of_mem {entries : List κ} {last : Option κ} {next : κ}
    (hmem : next ∈ after entries last) :
    after entries (some next) = (after entries last).filter (next < ·) := by
  cases last with
  | none => rfl
  | some last =>
      have hlt : last < next := by simpa [after] using (List.mem_filter.mp hmem).2
      simp only [after, List.filter_filter]
      apply List.filter_congr
      intro e _
      by_cases hne : next < e
      · simp [hne, hlt.trans hne]
      · simp [hne]

/-- A page is never empty when another follows, so the rest gets shorter. -/
theorem length_after_lt {size : ℕ} {entries : List κ} {last : Option κ} {next : κ}
    (h : (page size entries last).2 = some next) :
    (after entries (some next)).length < (after entries last).length := by
  have hmem : next ∈ after entries last := by
    simp only [page] at h
    split_ifs at h
    exact List.mem_of_mem_take (List.mem_of_getLast? h)
  rw [after_some_of_mem hmem]
  apply List.length_filter_lt_length_iff_exists.mpr
  exact ⟨next, hmem, by simp⟩

/-- All pages from one on. -/
def collect (size : ℕ) (entries : List κ) (last : Option κ) : List κ :=
  match _h : page size entries last with
  | (found, none) => found
  | (found, some next) => found ++ collect size entries (some next)
termination_by (after entries last).length
decreasing_by exact length_after_lt (by rw [_h])

variable {size : ℕ} {entries : List κ}

/-- What follows the last entry of a page is what the page left. -/
theorem filter_lt_getLast {rest : List κ} {next : κ} (hrest : rest.Pairwise (· < ·))
    (hnext : (rest.take size).getLast? = some next) :
    rest.filter (next < ·) = rest.drop size := by
  obtain ⟨front, hfront⟩ := List.getLast?_eq_some_iff.mp hnext
  have hparts : rest = front ++ next :: rest.drop size := by
    rw [← List.singleton_append, ← List.append_assoc, ← hfront, List.take_append_drop]
  rw [hparts] at hrest
  obtain ⟨-, htail, hcross⟩ := List.pairwise_append.mp hrest
  conv_lhs => rw [hparts]
  rw [List.filter_append, List.filter_eq_nil_iff.mpr, List.nil_append,
    List.filter_cons_of_neg (by simp), List.filter_eq_self.mpr]
  · intro e he
    simpa using List.rel_of_pairwise_cons htail he
  · intro e he
    simpa using (hcross e he next List.mem_cons_self).le

/-- A listing without repetitions is served whole. -/
theorem collect_eq_after (hsize : 0 < size) (hsorted : entries.Pairwise (· < ·))
    (last : Option κ) : collect size entries last = after entries last := by
  induction hn : (after entries last).length using Nat.strong_induction_on generalizing last with
  | _ n ih =>
      have hrest : (after entries last).Pairwise (· < ·) := by
        cases last with
        | none => exact hsorted
        | some last => exact hsorted.filter _
      rw [collect]
      split
      · next found hpage =>
          simp only [page, Prod.mk.injEq] at hpage
          obtain ⟨rfl, hnext⟩ := hpage
          split_ifs at hnext with hlt
          · rw [List.getLast?_eq_none_iff, List.take_eq_nil_iff] at hnext
            rcases hnext with rfl | hnil
            · exact absurd hsize (lt_irrefl 0)
            · rw [hnil, List.take_nil]
          · exact List.take_of_length_le (not_lt.mp hlt)
      · next found next hpage =>
          have hshorter := length_after_lt (congrArg Prod.snd hpage)
          rw [ih _ (hn ▸ hshorter) _ rfl]
          simp only [page, Prod.mk.injEq] at hpage
          obtain ⟨rfl, hnext⟩ := hpage
          split_ifs at hnext
          have hmem := List.mem_of_mem_take (List.mem_of_getLast? hnext)
          rw [after_some_of_mem hmem, filter_lt_getLast hrest hnext, List.take_append_drop]

theorem collect_eq (hsize : 0 < size) (hsorted : entries.Pairwise (· < ·)) :
    collect size entries none = entries :=
  collect_eq_after hsize hsorted none

end Listing
