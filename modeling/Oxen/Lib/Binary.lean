import Mathlib.Algebra.Order.Ring.Nat
import Mathlib.Data.Nat.ModEq
import Mathlib.Tactic.Ring

/-! Binary formats. Numbers are stored least significant byte first. A reader
takes a value from the front of its input and fails where the input ends too
early. -/

namespace Binary

/-! ## Little-endian numbers -/

def toLe : ℕ → ℕ → List UInt8
  | 0, _ => []
  | width + 1, n => UInt8.ofNat n :: toLe width (n / 256)

def ofLe : List UInt8 → ℕ
  | [] => 0
  | b :: bs => b.toNat + 256 * ofLe bs

@[simp] theorem length_toLe (width n : ℕ) : (toLe width n).length = width := by
  induction width generalizing n with
  | zero => rfl
  | succ width ih => rw [toLe, List.length_cons, ih]

theorem ofLe_toLe (width n : ℕ) : ofLe (toLe width n) = n % 256 ^ width := by
  induction width generalizing n with
  | zero => simp [toLe, ofLe, Nat.mod_one]
  | succ width ih =>
      have hbyte : (UInt8.ofNat n).toNat = n % 256 := UInt8.toNat_ofNat'
      rw [toLe, ofLe, ih, hbyte, pow_succ', Nat.mod_mul]

theorem ofLe_toLe_of_lt {width n : ℕ} (h : n < 256 ^ width) : ofLe (toLe width n) = n := by
  rw [ofLe_toLe, Nat.mod_eq_of_lt h]

theorem toLe_eq_map_range (width n : ℕ) :
    toLe width n = (List.range width).map fun i => UInt8.ofNat (n / 256 ^ i) := by
  induction width generalizing n with
  | zero => rfl
  | succ width ih =>
      rw [toLe, ih, List.range_succ_eq_map, List.map_cons, List.map_map, pow_zero, Nat.div_one]
      congr 1
      apply List.map_congr_left
      intro i _
      rw [Function.comp_apply, Nat.div_div_eq_div_mul, ← pow_succ']

/-! ## Readers -/

abbrev Reader := StateT (List UInt8) Option

variable {α β γ : Type} {bytes bytes' : List UInt8} {x : α} {y : β}

/-- The next bytes of the input. -/
def readExact (n : ℕ) : Reader (List UInt8) := fun input =>
  if n ≤ input.length then some (input.splitAt n) else none

/-- A number of so many bytes. -/
def readLe (width : ℕ) : Reader ℕ :=
  ofLe <$> readExact width

/-- The reader takes the value from these bytes, whatever comes behind them, and
from nothing shorter. -/
structure Reads (read : Reader α) (bytes : List UInt8) (x : α) : Prop where
  all : ∀ rest, read (bytes ++ rest) = some (x, rest)
  short : ∀ cut, cut <+: bytes → cut ≠ bytes → read cut = none

theorem Reads.pure (x : α) : Reads (pure x) [] x where
  all := fun _ => rfl
  short := by
    intro cut hcut hne
    exact absurd (List.prefix_nil.mp hcut) hne

/-- A prefix of two parts ends in the first one or reaches into the second. -/
theorem prefix_append_cases {cut : List UInt8} (h : cut <+: bytes ++ bytes') :
    (cut <+: bytes ∧ cut ≠ bytes) ∨ ∃ behind, behind <+: bytes' ∧ cut = bytes ++ behind := by
  rcases List.prefix_or_prefix_of_prefix h (List.prefix_append bytes bytes') with hcut | hcut
  · by_cases heq : cut = bytes
    · exact .inr ⟨[], List.nil_prefix, by rw [heq, List.append_nil]⟩
    · exact .inl ⟨hcut, heq⟩
  · rcases hcut with ⟨behind, rfl⟩
    exact .inr ⟨behind, (List.prefix_append_right_inj bytes).mp h, rfl⟩

theorem Reads.bind {read : Reader α} {next : α → Reader β} (h : Reads read bytes x)
    (h' : Reads (next x) bytes' y) : Reads (read >>= next) (bytes ++ bytes') y where
  all := by
    intro rest
    change (read (bytes ++ bytes' ++ rest)).bind (fun p => next p.1 p.2) = _
    rw [List.append_assoc, h.all, Option.bind_some, h'.all]
  short := by
    intro cut hcut hne
    change (read cut).bind (fun p => next p.1 p.2) = _
    rcases prefix_append_cases hcut with ⟨hfirst, hfirst_ne⟩ | ⟨behind, hbehind, rfl⟩
    · rw [h.short cut hfirst hfirst_ne, Option.bind_none]
    · rw [h.all, Option.bind_some]
      apply h'.short behind hbehind
      rintro rfl
      exact hne rfl

theorem Reads.map {read : Reader α} (h : Reads read bytes x) (f : α → β) :
    Reads (f <$> read) bytes (f x) where
  all := by
    intro rest
    change (read (bytes ++ rest)).bind (fun p => some (f p.1, p.2)) = _
    rw [h.all, Option.bind_some]
  short := by
    intro cut hcut hne
    change (read cut).bind (fun p => some (f p.1, p.2)) = _
    rw [h.short cut hcut hne, Option.bind_none]

theorem reads_readExact {n : ℕ} (h : bytes.length = n) : Reads (readExact n) bytes bytes where
  all := by
    intro rest
    subst h
    rw [readExact, if_pos (by simp), List.splitAt_eq, List.take_left, List.drop_left]
  short := by
    intro cut hcut hne
    have hlt : cut.length < n :=
      lt_of_le_of_ne (h ▸ hcut.length_le) fun heq => hne (hcut.eq_of_length (heq.trans h.symm))
    rw [readExact, if_neg (by omega)]

theorem reads_readLe {width n : ℕ} (h : n < 256 ^ width) :
    Reads (readLe width) (toLe width n) n := by
  have hread := (reads_readExact (length_toLe width n)).map ofLe
  rwa [ofLe_toLe_of_lt h] at hread

/-! ## Records up to the end of the input -/

/-- Reads records until the first field of a next one cannot be read. The fuel
bounds the number of records. -/
def readWhile (first : Reader α) (record : α → Reader β) : ℕ → List UInt8 → Option (List β)
  | 0, _ => some []
  | fuel + 1, input =>
      match first input with
      | none => some []
      | some (x, rest) => do
          let (y, rest) ← record x rest
          let records ← readWhile first record fuel rest
          return y :: records

section Records

variable {first : Reader α} {record : α → Reader β} {encode : β → List UInt8}

theorem readWhile_step {input : List UInt8} (h : (first input).isSome) (fuel : ℕ) :
    readWhile first record (fuel + 1) input =
      ((first >>= record) input).bind fun p =>
        (readWhile first record fuel p.2).map (p.1 :: ·) := by
  rcases Option.isSome_iff_exists.mp h with ⟨⟨x, rest⟩, hx⟩
  have hbind : (first >>= record) input = record x rest := by
    change (first input).bind (fun p => record p.1 p.2) = _
    rw [hx, Option.bind_some]
  rw [hbind]
  simp only [readWhile, hx]
  cases record x rest with
  | none => rfl
  | some p => exact (Option.map_eq_bind ..).symm

/-- Only the end of the input keeps the first field from being read. -/
structure EndsOnly (first : Reader α) : Prop where
  atEnd : first [] = none
  before : ∀ input, input ≠ [] → (first input).isSome

theorem EndsOnly.ne_nil (he : EndsOnly first) (h : Reads (first >>= record) bytes y) :
    bytes ≠ [] := by
  rintro rfl
  have hall := h.all []
  change (first []).bind (fun p => record p.1 p.2) = _ at hall
  rw [he.atEnd] at hall
  cases hall

theorem EndsOnly.readWhile_nil (he : EndsOnly first) (fuel : ℕ) :
    readWhile first record fuel [] = some [] := by
  cases fuel with
  | zero => rfl
  | succ fuel => rw [readWhile, he.atEnd]

theorem readWhile_all (he : EndsOnly first) {records : List β}
    (hread : ∀ y ∈ records, Reads (first >>= record) (encode y) y) {fuel : ℕ}
    (hfuel : (records.flatMap encode).length ≤ fuel) :
    readWhile first record fuel (records.flatMap encode) = some records := by
  induction records generalizing fuel with
  | nil => exact he.readWhile_nil fuel
  | cons y records ih =>
      have hy := hread y (by simp)
      have hpos := List.length_pos_iff.mpr (he.ne_nil hy)
      rw [List.flatMap_cons, List.length_append] at hfuel
      obtain ⟨fuel, rfl⟩ : ∃ k, fuel = k + 1 := ⟨fuel - 1, by omega⟩
      have hrest := @ih (fun z hz => hread z (List.mem_cons_of_mem y hz)) fuel (by omega)
      have hsome : (first (encode y ++ records.flatMap encode)).isSome :=
        he.before _ (by simp [he.ne_nil hy])
      rw [List.flatMap_cons, readWhile_step hsome, hy.all, Option.bind_some, hrest, Option.map_some]

/-- Input that is cut within a record is an error. A cut between records leaves
the records before it. -/
theorem readWhile_prefix (he : EndsOnly first) {records : List β}
    (hread : ∀ y ∈ records, Reads (first >>= record) (encode y) y) {cut : List UInt8}
    (hcut : cut <+: records.flatMap encode) {fuel : ℕ} (hfuel : cut.length ≤ fuel) :
    readWhile first record fuel cut = none ∨
      ∃ n ≤ records.length, readWhile first record fuel cut = some (records.take n) := by
  induction records generalizing cut fuel with
  | nil =>
      rw [List.prefix_nil.mp hcut]
      exact .inr ⟨0, le_rfl, he.readWhile_nil fuel⟩
  | cons y records ih =>
      have hy := hread y (by simp)
      by_cases hnil : cut = []
      · subst hnil
        exact .inr ⟨0, Nat.zero_le _, he.readWhile_nil fuel⟩
      · have hpos := List.length_pos_iff.mpr hnil
        obtain ⟨fuel, rfl⟩ : ∃ k, fuel = k + 1 := ⟨fuel - 1, by omega⟩
        rw [readWhile_step (he.before cut hnil)]
        rcases prefix_append_cases hcut with ⟨hfirst, hne⟩ | ⟨behind, hbehind, rfl⟩
        · exact .inl (by rw [hy.short cut hfirst hne, Option.bind_none])
        · have hlen := List.length_pos_iff.mpr (he.ne_nil hy)
          rw [List.length_append] at hfuel
          rw [hy.all, Option.bind_some]
          rcases @ih (fun z hz => hread z (List.mem_cons_of_mem y hz)) behind hbehind fuel (by omega)
            with hnone | ⟨n, hn, hsome⟩
          · exact .inl (by rw [hnone, Option.map_none])
          · refine .inr ⟨n + 1, by simpa using hn, ?_⟩
            rw [hsome, Option.map_some, List.take_succ_cons]

end Records

end Binary
