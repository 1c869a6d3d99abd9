import Mathlib.Algebra.GroupWithZero.Nat
import Mathlib.Data.List.DropRight
import Mathlib.Data.List.Infix

/-! Occurrences of patterns in a text, and the parts between them. -/

namespace Oxen

namespace Occurrences

variable {α : Type*} {pat text pre post xs ys : List α} {sep : α}

/-! ## Occurrences -/

section Find

variable [DecidableEq α]

/-- The index of the first occurrence. -/
def find (pat : List α) : List α → Option ℕ
  | [] => if pat = [] then some 0 else none
  | x :: text => if pat <+: x :: text then some 0 else (find pat text).map (· + 1)

/-- The parts between the occurrences, from left to right, of at most so many. -/
def splitAux (pat : List α) : ℕ → List α → List (List α)
  | 0, text => [text]
  | fuel + 1, text =>
      match find pat text with
      | none => [text]
      | some idx => text.take idx :: splitAux pat fuel (text.drop (idx + pat.length))

def split (pat text : List α) : List (List α) :=
  splitAux pat text.length text

end Find

/-- The pattern stands between the two parts and nowhere before. -/
structure First (pat pre post : List α) : Prop where
  earliest : ∀ j < pre.length, ¬ pat <+: (pre ++ pat ++ post).drop j

/-- A pattern without the separator does not occur across it. -/
theorem infix_append_cons_iff (h : sep ∉ pat) (hpat : pat ≠ []) :
    pat <:+: xs ++ sep :: ys ↔ pat <:+: xs ∨ pat <:+: ys := by
  constructor
  · rintro ⟨pre, post, heq⟩
    rw [List.append_assoc, List.append_eq_append_iff] at heq
    rcases heq with ⟨mid, rfl, heq⟩ | ⟨mid, rfl, heq⟩
    · -- The pattern starts before the separator.
      rcases List.append_eq_append_iff.mp heq with ⟨rest, rfl, -⟩ | ⟨rest, rfl, hrest⟩
      · exact .inl ⟨pre, rest, by rw [List.append_assoc]⟩
      · cases rest with
        | nil => exact .inl ⟨pre, [], by simp⟩
        | cons c rest =>
            obtain ⟨rfl, -⟩ := List.cons.inj hrest
            exact absurd (List.mem_append_right _ List.mem_cons_self) h
    · cases mid with
      | nil =>
          cases pat with
          | nil => exact absurd rfl hpat
          | cons c pat =>
              obtain ⟨rfl, -⟩ := List.cons.inj heq
              exact absurd List.mem_cons_self h
      | cons c mid =>
          obtain ⟨rfl, rfl⟩ := List.cons.inj heq
          exact .inr ⟨mid, post, List.append_assoc _ _ _⟩
  · rintro (h | h)
    · exact h.trans (List.prefix_append _ _).isInfix
    · exact h.trans ((List.suffix_cons _ _).trans (List.suffix_append _ _)).isInfix

/-- Before a separator only what occurs there starts. -/
theorem not_prefix_of_separated (h : sep ∉ pat) (hpre : ¬ pat <:+: pre) {j : ℕ}
    (hj : j < (pre ++ [sep]).length) : ¬ pat <+: (pre ++ [sep] ++ post).drop j := by
  rintro ⟨rest, heq⟩
  rw [List.length_append, List.length_singleton, Nat.lt_succ_iff] at hj
  rw [List.append_assoc, List.drop_append_of_le_length hj, List.singleton_append] at heq
  rcases List.append_eq_append_iff.mp heq with ⟨mid, hmid, -⟩ | ⟨mid, hmid, heq⟩
  · have hstart : pat <+: pre.drop j := ⟨mid, hmid.symm⟩
    exact hpre (hstart.isInfix.trans (List.drop_suffix j pre).isInfix)
  · cases mid with
    | nil =>
        rw [List.append_nil] at hmid
        exact hpre (hmid ▸ (List.drop_suffix j pre).isInfix)
    | cons c mid =>
        obtain ⟨rfl, -⟩ := List.cons.inj heq
        exact h (hmid ▸ List.mem_append_right _ List.mem_cons_self)

/-- A separator before the pattern keeps it from starting earlier. -/
theorem First.of_separated (h : sep ∉ pat) (hpre : ¬ pat <:+: pre) :
    First pat (pre ++ [sep]) post where
  earliest j hj := by
    rw [List.append_assoc (pre ++ [sep])]
    exact not_prefix_of_separated h hpre hj

section Find

variable [DecidableEq α] {idx : ℕ}

theorem find_eq_none_iff (hpat : pat ≠ []) : find pat text = none ↔ ¬ pat <:+: text := by
  induction text with
  | nil => simp [find, hpat]
  | cons x text ih =>
      unfold find
      rw [List.infix_cons_iff]
      by_cases hstarts : pat <+: x :: text
      · simp [hstarts]
      · rw [if_neg hstarts, Option.map_eq_none_iff, ih, or_iff_right hstarts]

theorem find_eq_some_iff (hpat : pat ≠ []) :
    find pat text = some idx ↔
      ∃ pre post, text = pre ++ pat ++ post ∧ pre.length = idx ∧ First pat pre post := by
  induction text generalizing idx with
  | nil => simp [find, hpat]
  | cons x text ih =>
      unfold find
      by_cases hstarts : pat <+: x :: text
      · rw [if_pos hstarts]
        constructor
        · intro h
          cases h
          rcases hstarts with ⟨post, hpost⟩
          exact ⟨[], post, hpost.symm, rfl, ⟨fun j hj => absurd hj (Nat.not_lt_zero j)⟩⟩
        · rintro ⟨pre, post, htext, hidx, hfirst⟩
          cases pre with
          | nil => rw [← hidx, List.length_nil]
          | cons y pre =>
              have hnot := hfirst.earliest 0 (Nat.succ_pos _)
              rw [List.drop_zero, ← htext] at hnot
              exact absurd hstarts hnot
      · rw [if_neg hstarts, Option.map_eq_some_iff]
        constructor
        · rintro ⟨i, hi, rfl⟩
          rcases ih.mp hi with ⟨pre, post, rfl, hlength, hfirst⟩
          refine ⟨x :: pre, post, by simp, by rw [List.length_cons, hlength], ⟨fun j hj => ?_⟩⟩
          cases j with
          | zero => simpa using hstarts
          | succ j => exact hfirst.earliest j (Nat.lt_of_succ_lt_succ hj)
        · rintro ⟨pre, post, htext, rfl, hfirst⟩
          cases pre with
          | nil => exact absurd ⟨post, htext.symm⟩ hstarts
          | cons y pre =>
              obtain ⟨rfl, rfl⟩ := List.cons.inj htext
              refine ⟨pre.length, ih.mpr ⟨pre, post, rfl, rfl, ⟨fun j hj => ?_⟩⟩, rfl⟩
              exact hfirst.earliest (j + 1) (Nat.succ_lt_succ hj)

theorem find_of_first (hpat : pat ≠ []) (h : First pat pre post) :
    find pat (pre ++ pat ++ post) = some pre.length :=
  (find_eq_some_iff hpat).mpr ⟨pre, post, rfl, rfl, h⟩

/-- Before the first occurrence there is none. -/
theorem not_prefix_drop (hpat : pat ≠ []) (h : ∀ k, find pat text = some k → idx ≤ k) {j : ℕ}
    (hj : j < idx) : ¬ pat <+: text.drop j := by
  intro hstarts
  cases hfind : find pat text with
  | none =>
      exact (find_eq_none_iff hpat).mp hfind
        (hstarts.isInfix.trans (List.drop_suffix j text).isInfix)
  | some k =>
      rcases (find_eq_some_iff hpat).mp hfind with ⟨pre, post, rfl, rfl, hfirst⟩
      exact hfirst.earliest j (hj.trans_le (h _ hfind)) hstarts

theorem find_lt (hpat : pat ≠ []) (h : find pat text = some idx) : idx < text.length := by
  rcases (find_eq_some_iff hpat).mp h with ⟨pre, post, rfl, rfl, -⟩
  have hpos := List.length_pos_iff.mpr hpat
  simp only [List.length_append]
  omega

theorem exists_first (hpat : pat ≠ []) (h : pat <:+: text) :
    ∃ pre post, text = pre ++ pat ++ post ∧ First pat pre post := by
  cases hfind : find pat text with
  | none => exact absurd h ((find_eq_none_iff hpat).mp hfind)
  | some idx =>
      rcases (find_eq_some_iff hpat).mp hfind with ⟨pre, post, htext, -, hfirst⟩
      exact ⟨pre, post, htext, hfirst⟩

theorem split_of_not_infix (hpat : pat ≠ []) (h : ¬ pat <:+: text) : split pat text = [text] := by
  unfold split
  cases text.length with
  | zero => rfl
  | succ fuel => rw [splitAux, (find_eq_none_iff hpat).mpr h]

theorem splitAux_of_le (hpat : pat ≠ []) (fuel : ℕ) (text : List α) (h : text.length ≤ fuel) :
    splitAux pat fuel text = split pat text := by
  induction fuel using Nat.strong_induction_on generalizing text with
  | _ fuel ih =>
      have hempty : ∀ fuel, splitAux pat fuel [] = [[]] := by
        intro fuel
        cases fuel with
        | zero => rfl
        | succ fuel => simp [splitAux, find, hpat]
      cases text with
      | nil => rw [split, hempty, hempty]
      | cons x text =>
          cases fuel with
          | zero => cases h
          | succ fuel =>
              have hle : text.length ≤ fuel := Nat.le_of_succ_le_succ h
              rw [split, List.length_cons, splitAux, splitAux]
              cases hfind : find pat (x :: text) with
              | none => rfl
              | some idx =>
                  dsimp only
                  have hpos := List.length_pos_iff.mpr hpat
                  have hdrop : ((x :: text).drop (idx + pat.length)).length ≤ text.length := by
                    rw [List.length_drop, List.length_cons]
                    omega
                  rw [ih fuel (Nat.lt_succ_self _) _ (hdrop.trans hle),
                    ih text.length (Nat.lt_succ_of_le hle) _ hdrop]

theorem split_of_first (hpat : pat ≠ []) (h : First pat pre post) :
    split pat (pre ++ pat ++ post) = pre :: split pat post := by
  have hpos := List.length_pos_iff.mpr hpat
  have hfuel : ∃ fuel, (pre ++ pat ++ post).length = fuel + 1 ∧ post.length ≤ fuel := by
    refine ⟨(pre ++ pat ++ post).length - 1, ?_, ?_⟩ <;> simp only [List.length_append] <;> omega
  rcases hfuel with ⟨fuel, hfuel, hle⟩
  have htake : (pre ++ pat ++ post).take pre.length = pre := by
    rw [List.append_assoc, List.take_left]
  have hdrop : (pre ++ pat ++ post).drop (pre.length + pat.length) = post := by
    rw [← List.length_append, List.drop_left]
  rw [split, hfuel, splitAux, find_of_first hpat h]
  dsimp only
  rw [htake, hdrop, splitAux_of_le hpat fuel post hle]

end Find

/-! ## Several separators -/

section Splits

variable {ι : Type*} {sep : ι → List α} {parts : List (List α)} {is : List ι}

/-- The separator stands between the two parts, and none of them before. -/
structure FirstOf (sep : ι → List α) (i : ι) (pre post : List α) : Prop where
  earliest : ∀ k, ∀ j < pre.length, ¬ sep k <+: (pre ++ sep i ++ post).drop j

/-- The text is cut at the separators, from left to right. -/
inductive Splits (sep : ι → List α) : List α → List ι → List (List α) → Prop
  | last (text : List α) (h : ∀ i, ¬ sep i <:+: text) : Splits sep text [] [text]
  | cons (i : ι) (pre post : List α) (is : List ι) (parts : List (List α))
      (h : FirstOf sep i pre post) (rest : Splits sep post is parts) :
      Splits sep (pre ++ sep i ++ post) (i :: is) (pre :: parts)

theorem FirstOf.unique {i k : ι} {pre' post' : List α} (hsep : ∀ i k, sep i <+: sep k → i = k)
    (h : FirstOf sep i pre post) (h' : FirstOf sep k pre' post')
    (heq : pre ++ sep i ++ post = pre' ++ sep k ++ post') :
    pre = pre' ∧ i = k ∧ post = post' := by
  have hat : ∀ {i pre post}, sep i <+: (pre ++ sep i ++ post).drop pre.length := by
    intro i pre post
    rw [List.append_assoc, List.drop_left]
    exact List.prefix_append _ _
  have hlength : pre.length = pre'.length := by
    apply le_antisymm
    · by_contra hlt
      exact h.earliest k pre'.length (not_le.mp hlt) (heq ▸ hat)
    · by_contra hlt
      exact h'.earliest i pre.length (not_le.mp hlt) (heq ▸ hat)
  rw [List.append_assoc, List.append_assoc] at heq
  rcases List.append_inj heq hlength with ⟨rfl, hrest⟩
  have hik : i = k := by
    rcases List.prefix_or_prefix_of_prefix (hrest ▸ List.prefix_append (sep i) post)
      (List.prefix_append (sep k) post') with hle | hle
    · exact hsep i k hle
    · exact (hsep k i hle).symm
  subst hik
  exact ⟨rfl, rfl, List.append_cancel_left hrest⟩

/-- There is one way to cut a text, when no separator starts with another. -/
theorem Splits.unique {is' : List ι} {parts' : List (List α)}
    (hsep : ∀ i k, sep i <+: sep k → i = k) (h : Splits sep text is parts)
    (h' : Splits sep text is' parts') : is = is' ∧ parts = parts' := by
  have hin : ∀ {i pre post}, sep i <:+: pre ++ sep i ++ post := fun {_ pre post} => ⟨pre, post, rfl⟩
  induction h generalizing is' parts' with
  | last text hnone =>
      cases h' with
      | last _ h => exact ⟨rfl, rfl⟩
      | cons i pre post is parts hfirst rest => exact absurd hin (hnone i)
  | cons i pre post is parts hfirst rest ih =>
      generalize htext : pre ++ sep i ++ post = text at h'
      cases h' with
      | last _ hnone => exact absurd (htext ▸ hin) (hnone i)
      | cons k pre' post' is' parts' hfirst' rest' =>
          obtain ⟨rfl, rfl, rfl⟩ := hfirst.unique hsep hfirst' htext
          obtain ⟨rfl, rfl⟩ := ih rest'
          exact ⟨rfl, rfl⟩

/-- The parts with the separators between them. -/
def join (sep : ι → List α) : List (List α) → List ι → List α
  | [], _ => []
  | [part], _ => part
  | part :: parts, [] => part ++ join sep parts []
  | part :: parts, i :: is => part ++ sep i ++ join sep parts is

theorem Splits.length_parts (h : Splits sep text is parts) : parts.length = is.length + 1 := by
  induction h with
  | last text h => rfl
  | cons i pre post is parts h rest ih => rw [List.length_cons, ih, List.length_cons]

theorem join_cons (part : List α) (i : ι) (is : List ι) (hne : parts ≠ []) :
    join sep (part :: parts) (i :: is) = part ++ sep i ++ join sep parts is := by
  cases parts with
  | nil => exact absurd rfl hne
  | cons next parts => rfl

theorem Splits.join_eq (h : Splits sep text is parts) : join sep parts is = text := by
  induction h with
  | last text h => rfl
  | cons i pre post is parts h rest ih =>
      have hne : parts ≠ [] := List.length_pos_iff.mp (by rw [rest.length_parts]; exact Nat.succ_pos _)
      rw [join_cons pre i is hne, ih]

end Splits

/-! ## Single separators -/

section Separated

variable {a : α} {part : List α}

/-- The parts of a text between the places of an element. -/
structure Separated (a : α) (text : List α) (parts : List (List α)) : Prop where
  join_eq : [a].intercalate parts = text
  ne_nil : parts ≠ []
  notMem : ∀ part ∈ parts, a ∉ part

variable [DecidableEq α]

theorem notMem_of_mem_splitOn (h : part ∈ text.splitOn a) : a ∉ part := by
  induction text generalizing part with
  | nil =>
      rw [List.splitOn_nil, List.mem_singleton] at h
      rw [h]
      exact List.not_mem_nil
  | cons x text ih =>
      rw [List.splitOn_cons_eq_if_modifyHead] at h
      rcases hparts : text.splitOn a with _ | ⟨first, parts⟩
      · exact absurd hparts (List.splitOn_ne_nil _ _)
      · rw [hparts] at h ih
        split at h
        · next hx =>
          rcases List.mem_cons.mp h with rfl | h
          · exact List.not_mem_nil
          · exact ih h
        · next hx =>
          rw [List.modifyHead_cons] at h
          rcases List.mem_cons.mp h with rfl | h
          · rw [List.mem_cons, not_or]
            exact ⟨fun heq => hx (by simp [heq]), ih List.mem_cons_self⟩
          · exact ih (List.mem_cons_of_mem _ h)

theorem separated_splitOn (a : α) (text : List α) : Separated a text (text.splitOn a) where
  join_eq := List.intercalate_splitOn a
  ne_nil := List.splitOn_ne_nil a text
  notMem _ := notMem_of_mem_splitOn

end Separated

/-! ## The ends of a text -/

section Trim

variable (space : α → Bool)

/-- Drops what counts as space at both ends. -/
def trim (text : List α) : List α :=
  (text.dropWhile space).rdropWhile space

/-- What does not count as space. -/
def solid (text : List α) : ℕ :=
  text.countP fun c => !space c

variable {space}

theorem solid_append : solid space (xs ++ ys) = solid space xs + solid space ys :=
  List.countP_append

theorem solid_trim : solid space (trim space text) = solid space text := by
  have hdrop : ∀ text, solid space (text.dropWhile space) = solid space text := by
    intro text
    induction text with
    | nil => rfl
    | cons c text ih =>
        by_cases hc : space c = true
        · rw [List.dropWhile_cons_of_pos hc, ih, solid, solid, List.countP_cons_of_neg (by simp [hc])]
        · rw [List.dropWhile_cons_of_neg hc]
  have hreverse : ∀ text, solid space text.reverse = solid space text :=
    fun text => (List.reverse_perm text).countP_eq _
  rw [trim, List.rdropWhile, hreverse, hdrop, hreverse, hdrop]

theorem dropWhile_of_trim (h : trim space text = text) : text.dropWhile space = text := by
  have hstarts := List.rdropWhile_prefix space (text.dropWhile space)
  refine (List.dropWhile_suffix space).eq_of_length_le ?_
  conv_lhs => rw [← h]
  exact hstarts.length_le

theorem rdropWhile_of_trim (h : trim space text = text) : text.rdropWhile space = text := by
  rwa [trim, dropWhile_of_trim h] at h

/-- What starts and ends with trimmed texts is trimmed. -/
theorem trim_of_ends (hxs : trim space xs = xs) (hys : trim space ys = ys) (hnx : xs ≠ [])
    (hny : ys ≠ []) : trim space (xs ++ text ++ ys) = xs ++ text ++ ys := by
  have hfirst : (xs ++ text ++ ys).dropWhile space = xs ++ text ++ ys := by
    rw [List.append_assoc, List.dropWhile_append, dropWhile_of_trim hxs, if_neg (by simpa using hnx)]
  have hlast : ys.reverse.dropWhile space = ys.reverse := by
    have hreverse := congrArg List.reverse (rdropWhile_of_trim hys)
    rwa [List.rdropWhile, List.reverse_reverse] at hreverse
  rw [trim, hfirst, List.rdropWhile, List.reverse_append, List.dropWhile_append, hlast,
    if_neg (by simpa using hny), ← List.reverse_append, List.reverse_reverse]

/-- Space around a text is dropped. -/
theorem trim_append_append (hxs : ∀ c ∈ xs, space c = true) (hys : ∀ c ∈ ys, space c = true) :
    trim space (xs ++ text ++ ys) = trim space text := by
  have hys' : ∀ c ∈ ys.reverse, space c = true := fun c hc => hys c (List.mem_reverse.mp hc)
  rw [trim, List.append_assoc, List.dropWhile_append_of_pos hxs, List.dropWhile_append]
  split
  · next hempty =>
    have hnil : text.dropWhile space = [] := List.isEmpty_iff.mp hempty
    have hall : ys.dropWhile space = [] := List.dropWhile_eq_nil_iff.mpr hys
    rw [trim, hnil, hall]
  · rw [trim, List.rdropWhile, List.reverse_append, List.dropWhile_append_of_pos hys',
      List.rdropWhile]

theorem exists_trim (text : List α) : ∃ xs ys, text = xs ++ trim space text ++ ys ∧
    (∀ c ∈ xs, space c = true) ∧ ∀ c ∈ ys, space c = true := by
  refine ⟨text.takeWhile space, (text.dropWhile space).rtakeWhile space, ?_, ?_, ?_⟩
  · rw [trim, List.append_assoc, List.rdropWhile_append_rtakeWhile,
      List.takeWhile_append_dropWhile]
  · exact fun c hc => List.mem_takeWhile_imp hc
  · exact fun c hc => List.mem_rtakeWhile_imp hc

theorem solid_join {ι : Type*} {sep : ι → List α} {parts : List (List α)} {is : List ι}
    (h : parts.length = is.length + 1) : solid space (join sep parts is) =
      (parts.map (solid space)).sum + (is.map fun i => solid space (sep i)).sum := by
  induction is generalizing parts with
  | nil =>
      rcases List.length_eq_one_iff.mp h with ⟨part, rfl⟩
      simp [join]
  | cons i is ih =>
      cases parts with
      | nil => cases h
      | cons part parts =>
          have hlength := Nat.succ.inj h
          have hne : parts ≠ [] := List.length_pos_iff.mp (by rw [hlength]; exact Nat.succ_pos _)
          rw [join_cons part i is hne, solid_append, solid_append, ih hlength]
          simp only [List.map_cons, List.sum_cons]
          omega

end Trim

end Occurrences

end Oxen
