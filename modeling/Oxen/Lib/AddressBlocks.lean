import Mathlib.Data.Nat.Bitwise
import Mathlib.Tactic.Ring

/-! Blocks of addresses that share their first bits. -/

namespace AddressBlocks

/-- The addresses of `width` bits whose first `len` bits are those of `network`. -/
structure Block (width : ℕ) where
  network : ℕ
  len : ℕ
deriving DecidableEq

variable {width : ℕ}

def Block.Contains (block : Block width) (address : ℕ) : Prop :=
  address / 2 ^ (width - block.len) = block.network / 2 ^ (width - block.len)

instance (block : Block width) : DecidablePred block.Contains :=
  fun address => inferInstanceAs (Decidable (address / _ = _))

/-- An address in a block is in every larger one. -/
theorem Block.Contains.of_le {network len len' address : ℕ}
    (h : Block.Contains (⟨network, len⟩ : Block width) address) (hle : len' ≤ len)
    (hwidth : len ≤ width) : Block.Contains (⟨network, len'⟩ : Block width) address := by
  have hsplit : width - len' = (width - len) + (len - len') := by omega
  rw [Block.Contains, hsplit, pow_add, ← Nat.div_div_eq_div_mul, ← Nat.div_div_eq_div_mul]
  rw [Block.Contains] at h
  rw [h]

def InBlocks (blocks : List (Block width)) (address : ℕ) : Prop :=
  ∃ block ∈ blocks, block.Contains address

instance (blocks : List (Block width)) : DecidablePred (InBlocks blocks) :=
  fun address => inferInstanceAs (Decidable (∃ block ∈ blocks, block.Contains address))

@[simp]
theorem inBlocks_nil (address : ℕ) : ¬ InBlocks ([] : List (Block width)) address := by
  rintro ⟨block, hblock, -⟩
  cases hblock

@[simp]
theorem inBlocks_cons (block : Block width) (blocks : List (Block width)) (address : ℕ) :
    InBlocks (block :: blocks) address ↔ block.Contains address ∨ InBlocks blocks address := by
  simp only [InBlocks, List.mem_cons, exists_eq_or_imp]

theorem inBlocks_append (blocks others : List (Block width)) (address : ℕ) :
    InBlocks (blocks ++ others) address ↔ InBlocks blocks address ∨ InBlocks others address := by
  simp only [InBlocks, List.mem_append, or_and_right, exists_or]

/-- A mask of the first bits keeps these. -/
theorem and_mask {x n k : ℕ} (hx : x < 2 ^ (n + k)) :
    x &&& (2 ^ n - 1) * 2 ^ k = x / 2 ^ k * 2 ^ k := by
  apply Nat.eq_of_testBit_eq
  intro i
  rw [Nat.testBit_and, Nat.testBit_mul_two_pow, Nat.testBit_mul_two_pow,
    Nat.testBit_two_pow_sub_one, Nat.testBit_div_two_pow]
  by_cases hki : k ≤ i
  · rw [Nat.sub_add_cancel hki]
    by_cases hi : i - k < n
    · simp [hki, hi]
    · have hbit : x.testBit i = false :=
        Nat.testBit_lt_two_pow (hx.trans_le (Nat.pow_le_pow_right (by decide) (by omega)))
      simp [hbit]
  · simp [hki]

/-- A masked address has the bits of a network exactly if it lies in its block. -/
theorem and_mask_eq_iff {x n k y : ℕ} (hx : x < 2 ^ (n + k)) :
    x &&& (2 ^ n - 1) * 2 ^ k = y * 2 ^ k ↔ x / 2 ^ k = y := by
  rw [and_mask hx]
  exact Nat.mul_left_inj (Nat.two_pow_pos k).ne'

end AddressBlocks
