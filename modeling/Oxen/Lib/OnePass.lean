import Mathlib.Data.List.Infix
import Mathlib.Data.List.Forall2

/-! The search for a run of elements in one pass that never goes back: an element that does
not go on with the run is not looked at again. -/

namespace OnePass

variable {α β : Type*} (r : α → β → Prop) (run : List β)

/-- The run stands somewhere in the text. -/
def Occurs (text : List α) : Prop :=
  ∃ before found after, text = before ++ found ++ after ∧ List.Forall₂ r found run

/-- The text ends with the run. -/
def EndsWith (text : List α) : Prop :=
  ∃ before found, text = before ++ found ∧ List.Forall₂ r found run

/-- What a pass has seen after a text: so many elements of runs that were broken off, and so
many of the run that is going on. -/
inductive Reads : List α → ℕ → ℕ → Prop
  | start : Reads [] 0 0
  | goOn {text : List α} {lost current : ℕ} {x : α} {y : β} (h : Reads text lost current)
      (hy : run[current]? = some y) (hxy : r x y) : Reads (text ++ [x]) lost (current + 1)
  | breakOff {text : List α} {lost current : ℕ} {x : α} {y : β} (h : Reads text lost current)
      (hy : run[current]? = some y) (hxy : ¬ r x y) : Reads (text ++ [x]) (lost + current) 0

variable {r run} {text rest : List α} {lost current lost' current' : ℕ} {x : α}

theorem EndsWith.occurs (h : EndsWith r run text) (rest : List α) :
    Occurs r run (text ++ rest) := by
  rcases h with ⟨before, found, rfl, hfound⟩
  exact ⟨before, found, rest, rfl, hfound⟩

/-- A pass that has read one more element made one of the two steps. -/
theorem Reads.snoc_cases (h : Reads r run (text ++ [x]) lost current) :
    (∃ before y, Reads r run text lost before ∧ run[before]? = some y ∧ r x y ∧
      current = before + 1) ∨
    ∃ lost' before y, Reads r run text lost' before ∧ run[before]? = some y ∧ ¬ r x y ∧
      lost = lost' + before ∧ current = 0 := by
  generalize htext : text ++ [x] = whole at h
  cases h with
  | start => simp at htext
  | goOn h hy hxy =>
      obtain ⟨rfl, hx⟩ := List.append_inj' htext rfl
      cases hx
      exact .inl ⟨_, _, h, hy, hxy, rfl⟩
  | breakOff h hy hxy =>
      obtain ⟨rfl, hx⟩ := List.append_inj' htext rfl
      cases hx
      exact .inr ⟨_, _, _, h, hy, hxy, rfl, rfl⟩

/-- A text is read in one way. -/
theorem Reads.unique (h : Reads r run text lost current) (h' : Reads r run text lost' current') :
    lost = lost' ∧ current = current' := by
  induction h generalizing lost' current' with
  | start =>
      generalize htext : ([] : List α) = whole at h'
      cases h' with
      | start => exact ⟨rfl, rfl⟩
      | goOn => simp at htext
      | breakOff => simp at htext
  | goOn h hy hxy ih =>
      rcases h'.snoc_cases with ⟨k, y, hk, hy', -, rfl⟩ | ⟨m, k, y, hk, hy', hno, -, -⟩
      · obtain ⟨rfl, rfl⟩ := ih hk
        exact ⟨rfl, rfl⟩
      · obtain ⟨rfl, rfl⟩ := ih hk
        rw [hy] at hy'
        cases hy'
        exact absurd hxy hno
  | breakOff h hy hxy ih =>
      rcases h'.snoc_cases with ⟨k, y, hk, hy', hyes, -⟩ | ⟨m, k, y, hk, hy', -, rfl, rfl⟩
      · obtain ⟨rfl, rfl⟩ := ih hk
        rw [hy] at hy'
        cases hy'
        exact absurd hyes hxy
      · obtain ⟨rfl, rfl⟩ := ih hk
        exact ⟨rfl, rfl⟩

/-- The elements that count were read. -/
theorem Reads.le_length (h : Reads r run text lost current) :
    lost + current ≤ text.length := by
  induction h with
  | start => rfl
  | goOn _ _ _ ih => simp only [List.length_append, List.length_singleton]; omega
  | breakOff _ _ _ ih => simp only [List.length_append, List.length_singleton]; omega

/-- The text ends with what is read of the run. -/
theorem Reads.endsWith_take (h : Reads r run text lost current) :
    EndsWith r (run.take current) text := by
  induction h with
  | start => exact ⟨[], [], rfl, by simp⟩
  | @goOn text lost current x y h hy hxy ih =>
      rcases ih with ⟨before, found, rfl, hfound⟩
      refine ⟨before, found ++ [x], by rw [List.append_assoc], ?_⟩
      rw [List.take_add_one, hy]
      exact List.rel_append hfound (.cons hxy .nil)
  | @breakOff text lost current x y h hy hxy ih => exact ⟨text ++ [x], [], by simp, by simp⟩

theorem Reads.endsWith (h : Reads r run text lost run.length) : EndsWith r run text := by
  have := h.endsWith_take
  rwa [List.take_length] at this

/-- A pass came through the beginnings of its text, without a complete run there. -/
theorem Reads.of_append (h : Reads r run (text ++ rest) lost current) :
    ∃ lost' current', Reads r run text lost' current' ∧ lost' + current' ≤ lost + current ∧
      (rest ≠ [] → current' < run.length) := by
  induction rest using List.reverseRecOn generalizing lost current with
  | nil => exact ⟨lost, current, by simpa using h, le_rfl, fun hne => absurd rfl hne⟩
  | append_singleton rest x ih =>
      rw [← List.append_assoc] at h
      have hstep : ∃ m k, Reads r run (text ++ rest) m k ∧ m + k ≤ lost + current ∧
          k < run.length := by
        rcases h.snoc_cases with ⟨k, y, hk, hy, -, rfl⟩ | ⟨m, k, y, hk, hy, -, rfl, rfl⟩
        · exact ⟨_, k, hk, by omega, (List.getElem?_eq_some_iff.mp hy).1⟩
        · exact ⟨m, k, hk, by omega, (List.getElem?_eq_some_iff.mp hy).1⟩
      rcases hstep with ⟨m, k, hk, hle, hlt⟩
      rcases ih hk with ⟨lost', current', hread, hle', hlt'⟩
      refine ⟨lost', current', hread, hle'.trans hle, fun _ => ?_⟩
      by_cases hrest : rest = []
      · subst hrest
        rw [List.append_nil] at hk
        rw [(hread.unique hk).2]
        exact hlt
      · exact hlt' hrest

/-- A run that goes on adds to what was read before. -/
theorem Reads.eq_nil_of_le (h : Reads r run text lost current)
    (h' : Reads r run (text ++ rest) lost' current') (hpos : 0 < current')
    (hle : lost' + current' ≤ lost + current) : rest = [] := by
  rcases List.eq_nil_or_concat rest with hnil | ⟨rest, x, rfl⟩
  · exact hnil
  · rw [List.concat_eq_append, ← List.append_assoc] at h'
    rcases h'.snoc_cases with ⟨k, y, hk, -, -, rfl⟩ | ⟨m, k, y, -, -, -, -, hzero⟩
    · rcases hk.of_append with ⟨m, k', hread, hle', -⟩
      obtain ⟨rfl, rfl⟩ := h.unique hread
      omega
    · omega

/-- Elements that go on with a run are read on top of the ones before. -/
theorem Reads.append_of_forall₂ {found : List α} {ys zs : List β}
    (h : Reads r run text lost current) (hrun : run.drop current = ys ++ zs)
    (hfound : List.Forall₂ r found ys) :
    Reads r run (text ++ found) lost (current + ys.length) := by
  induction hfound generalizing text current with
  | nil => simpa using h
  | @cons x y found ys hxy _ ih =>
      have hy : run[current]? = some y := by
        rw [← List.head?_drop, hrun, List.cons_append, List.head?_cons]
      have hdrop : run.drop (current + 1) = ys ++ zs := by
        rw [← List.drop_drop, hrun]
        rfl
      have hrest := ih (.goOn h hy hxy) hdrop
      rw [List.append_assoc, List.singleton_append] at hrest
      rw [List.length_cons, Nat.add_comm ys.length 1, ← Nat.add_assoc]
      exact hrest

/-- A text that is the run is read without a break. -/
theorem reads_of_forall₂ (h : List.Forall₂ r text run) : Reads r run text 0 run.length := by
  have hread := (@Reads.start α β r run).append_of_forall₂ (List.append_nil run).symm h
  rwa [List.nil_append, Nat.zero_add] at hread

end OnePass
