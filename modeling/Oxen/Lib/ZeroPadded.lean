import Mathlib.Data.Char
import Mathlib.Data.List.Lex
import Mathlib.Data.Nat.Basic
import Mathlib.Order.Defs.LinearOrder
import Mathlib.Tactic.IntervalCases

/-! Decimal numbers padded with zeros to a width. As long as they fit, their texts sort like
the numbers. -/

namespace ZeroPadded

/-- The digits of a number, and zeros in front up to the width. -/
def pad : ℕ → ℕ → List Char
  | 0, n => if n = 0 then [] else Nat.toDigits 10 n
  | width + 1, n => pad width (n / 10) ++ [Nat.digitChar (n % 10)]

variable {width m n : ℕ}

theorem length_pad (h : n < 10 ^ width) : (pad width n).length = width := by
  induction width generalizing n with
  | zero =>
      obtain rfl : n = 0 := by omega
      rfl
  | succ width ih =>
      rw [pad, List.length_append, ih (by rw [pow_succ] at h; omega)]
      rfl

theorem digitChar_lt {m n : ℕ} (hn : n < 10) (h : m < n) : Nat.digitChar m < Nat.digitChar n := by
  interval_cases n <;> interval_cases m <;> decide

/-- Texts of one length are compared at the first place where they differ. -/
theorem append_lt_append {α : Type*} [LinearOrder α] {xs ys : List α}
    (hlength : xs.length = ys.length) (h : xs < ys) (xs' ys' : List α) : xs ++ xs' < ys ++ ys' := by
  induction xs generalizing ys with
  | nil =>
      rw [List.length_nil, eq_comm, List.length_eq_zero_iff] at hlength
      rw [hlength] at h
      exact absurd h (lt_irrefl _)
  | cons x xs ih =>
      cases ys with
      | nil => cases hlength
      | cons y ys =>
          rw [List.cons_append, List.cons_append, List.cons_lt_cons_iff]
          rcases List.cons_lt_cons_iff.mp h with hlt | ⟨heq, hlt⟩
          · exact .inl hlt
          · exact .inr ⟨heq, ih (Nat.succ.inj hlength) hlt⟩

theorem append_lt_append_left {α : Type*} [LinearOrder α] (xs : List α) {ys zs : List α}
    (h : ys < zs) : xs ++ ys < xs ++ zs := by
  induction xs with
  | nil => exact h
  | cons x xs ih => exact List.cons_lt_cons_iff.mpr (.inr ⟨rfl, ih⟩)

theorem pad_lt_pad (hn : n < 10 ^ width) (h : m < n) : pad width m < pad width n := by
  induction width generalizing m n with
  | zero => omega
  | succ width ih =>
      rw [pow_succ] at hn
      have hdiv : m / 10 ≤ n / 10 := Nat.div_le_div_right h.le
      rw [pad, pad]
      rcases hdiv.lt_or_eq with hlt | heq
      · apply append_lt_append _ (ih (by omega) hlt)
        rw [length_pad (by omega), length_pad (by omega)]
      · rw [heq]
        apply append_lt_append_left
        apply List.cons_lt_cons_iff.mpr
        exact .inl (digitChar_lt (by omega) (by omega))

theorem pad_injOn : Set.InjOn (pad width) {n | n < 10 ^ width} := by
  intro m hm n hn heq
  rcases lt_trichotomy m n with hlt | rfl | hlt
  · exact absurd heq (pad_lt_pad hn hlt).ne
  · rfl
  · exact absurd heq (pad_lt_pad hm hlt).ne'

end ZeroPadded
