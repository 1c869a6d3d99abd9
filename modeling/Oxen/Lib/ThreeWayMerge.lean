import Mathlib.Logic.Basic

/-! Three-way merge of one value: the common ancestor `l`, our side `b` and
their side `m`. Absence is a value like any other. -/

namespace ThreeWayMerge

variable {α : Type*} {l b m : α}

/-- Both sides changed the value, and not to the same. -/
def Conflicts (l b m : α) : Prop :=
  m ≠ l ∧ b ≠ l ∧ b ≠ m

instance [DecidableEq α] : Decidable (Conflicts l b m) :=
  inferInstanceAs (Decidable (_ ∧ _))

theorem not_conflicts_agree : ¬ Conflicts l b b :=
  fun h => h.2.2 rfl

variable [DecidableEq α]

/-- The value after the merge. Our side stays where the sides conflict. -/
def merged (l b m : α) : α :=
  if m = l then b else if b = l then m else b

/-- Sides that agree leave nothing to merge. -/
theorem merged_agree (l b : α) : merged l b b = b := by
  simp [merged]

/-! ## Comparing pruned sides

Both sides may hide values they share with each other, and our side also values
it shares with the ancestor. A side can be asked about a value it hides, but the
answer comes from elsewhere and need not be right. -/

inductive Change (α : Type*) where
  | leave
  | put (value : α)
  | delete
  | conflict
deriving DecidableEq

def Change.apply : Change α → Option α → Option α
  | .leave, b => b
  | .put value, _ => some value
  | .delete, _ => none
  | .conflict, b => b

/-- What is compared: the ancestor, the visible values of both sides, and what
each side answers when asked. -/
structure Pruned (α : Type*) where
  ancestor : Option α
  ours : Option α
  theirs : Option α
  askOurs : Option α
  askTheirs : Option α

/-- The change that a comparison of pruned sides asks for. -/
def Pruned.change (v : Pruned α) : Change α :=
  match v.theirs, v.ours, v.ancestor with
  | some m, some b, some l =>
      if b = l ∧ ¬ b = m then .put m
      else if ¬ b = l ∧ ¬ l = m ∧ ¬ b = m then .conflict else .leave
  | some m, some b, none => if b ≠ m then .conflict else .leave
  | some m, none, some l =>
      if v.askOurs.isSome then .put m else if l ≠ m then .conflict else .leave
  | some m, none, none => .put m
  | none, _, some l =>
      if v.askTheirs.isSome then .leave
      else
        match v.askOurs with
        | none => .leave
        | some b => if b = l then .delete else .conflict
  | none, _, none => .leave

/-- The sides hide only what they share. -/
structure Pruned.Of (v : Pruned α) (l b m : Option α) : Prop where
  ancestor : v.ancestor = l
  ours : ∀ a, v.ours = some a → b = some a
  theirs : ∀ a, v.theirs = some a → m = some a
  hidden_theirs : ∀ a, m = some a → v.theirs = none → b = some a
  hidden_ours : ∀ a, b = some a → v.ours = none →
    l = some a ∨ m = some a ∧ v.theirs = none

/-- The comparison finds the conflict, if there is one, and the merged value. -/
def Pruned.Exact (v : Pruned α) (l b m : Option α) : Prop :=
  (v.change = .conflict ↔ Conflicts l b m) ∧ v.change.apply b = merged l b m

/-- The answers are right where the comparison depends on them. -/
structure Pruned.AnswersSuffice (v : Pruned α) (l b m : Option α) : Prop where
  /-- Ours is asked about a value that theirs shows and the ancestor has. -/
  shown : v.theirs ≠ none → v.ours = none → l ≠ none →
    (v.askOurs ≠ none → b ≠ none) ∧ (v.askOurs = none → b ≠ none → m = l)
  /-- Theirs is asked about a value of the ancestor that it does not show. -/
  missing : v.theirs = none → l ≠ none → v.askTheirs ≠ none → m = none → b = none
  /-- Ours is asked when theirs has denied a value of the ancestor. -/
  denied : v.theirs = none → l ≠ none → v.askTheirs = none →
    (m ≠ none → v.askOurs = none) ∧
    (m = none → b = none → v.askOurs = none ∨ v.askOurs = l) ∧
    (m = none → b ≠ none → v.askOurs ≠ none ∧ (v.askOurs = l ↔ b = l))

namespace Pruned

private theorem exact_of_shown (l askOurs askTheirs : Option α) (b m : α) :
    Exact ⟨l, some b, some m, askOurs, askTheirs⟩ l (some b) (some m) := by
  cases l with
  | none =>
      by_cases hbm : b = m <;> simp [Exact, change, Conflicts, merged, Change.apply, hbm]
  | some l =>
      rcases eq_or_ne l m with rfl | hlm
      · by_cases hbl : b = l <;> simp [Exact, change, Conflicts, merged, Change.apply, hbl]
      · by_cases hbl : b = l <;> by_cases hbm : b = m <;>
          simp_all [Exact, change, Conflicts, merged, Change.apply, hlm.symm]

private theorem exact_iff_hidden_ours {l b : Option α} {m : α} (askOurs askTheirs : Option α)
    (h : ∀ a, b = some a → l = some a) :
    Exact ⟨l, none, some m, askOurs, askTheirs⟩ l b (some m) ↔
      (l ≠ none → (askOurs ≠ none → b ≠ none) ∧ (askOurs = none → b ≠ none → some m = l)) := by
  cases b with
  | none =>
      cases l with
      | none => simp [Exact, change, Conflicts, merged, Change.apply]
      | some l =>
          cases askOurs <;> rcases eq_or_ne l m with rfl | hlm <;>
            simp_all [Exact, change, Conflicts, merged, Change.apply, Ne.symm]
  | some b =>
      obtain rfl := h b rfl
      cases askOurs <;> rcases eq_or_ne b m with rfl | hlm <;>
        simp_all [Exact, change, Conflicts, merged, Change.apply, Ne.symm]

private theorem exact_iff_hidden_theirs {l b m : Option α} (ours askOurs askTheirs : Option α)
    (h : ∀ a, m = some a → b = some a) :
    Exact ⟨l, ours, none, askOurs, askTheirs⟩ l b m ↔
      (l ≠ none → (askTheirs ≠ none → m = none → b = none) ∧ (askTheirs = none →
        (m ≠ none → askOurs = none) ∧
        (m = none → b = none → askOurs = none ∨ askOurs = l) ∧
        (m = none → b ≠ none → askOurs ≠ none ∧ (askOurs = l ↔ b = l)))) := by
  cases l with
  | none =>
      cases m with
      | none => simp [Exact, change, Conflicts, merged, Change.apply]
      | some m =>
          obtain rfl := h m rfl
          simp [Exact, change, Conflicts, merged, Change.apply]
  | some l =>
      cases m with
      | some m =>
          obtain rfl := h m rfl
          cases askTheirs <;> cases askOurs with
          | none => simp [Exact, change, merged_agree, not_conflicts_agree, Change.apply]
          | some a =>
              by_cases hal : a = l <;>
                simp [Exact, change, merged_agree, not_conflicts_agree, Change.apply, hal]
      | none =>
          cases b with
          | none =>
              cases askTheirs <;> cases askOurs with
              | none => simp [Exact, change, Conflicts, merged, Change.apply]
              | some a =>
                  by_cases hal : a = l <;>
                    simp [Exact, change, Conflicts, merged, Change.apply, hal]
          | some b =>
              by_cases hbl : b = l <;> cases askTheirs <;> cases askOurs with
              | none => simp [Exact, change, Conflicts, merged, Change.apply, hbl]
              | some a =>
                  by_cases hal : a = l <;>
                    simp [Exact, change, Conflicts, merged, Change.apply, hbl, hal]

/-- Pruning changes nothing exactly when the answers suffice. -/
theorem exact_iff_answersSuffice {v : Pruned α} {l b m : Option α} (h : v.Of l b m) :
    v.Exact l b m ↔ v.AnswersSuffice l b m := by
  obtain ⟨rfl, hours, htheirs, hhm, hhb⟩ := h
  obtain ⟨l, ours, theirs, askOurs, askTheirs⟩ := v
  dsimp only at *
  cases theirs with
  | none =>
      rw [exact_iff_hidden_theirs ours askOurs askTheirs fun a ha => hhm a ha rfl]
      exact ⟨fun h => ⟨by simp, fun _ hl => (h hl).1, fun _ hl => (h hl).2⟩,
        fun h hl => ⟨h.missing rfl hl, h.denied rfl hl⟩⟩
  | some m' =>
      obtain rfl := htheirs m' rfl
      cases ours with
      | some b' =>
          obtain rfl := hours b' rfl
          exact iff_of_true (exact_of_shown l askOurs askTheirs b' m')
            ⟨by simp, by simp, by simp⟩
      | none =>
          rw [exact_iff_hidden_ours askOurs askTheirs fun a ha =>
            (hhb a ha rfl).resolve_right (by simp)]
          exact ⟨fun h => ⟨fun _ _ => h, by simp, by simp⟩, fun h => h.shown (by simp) rfl⟩

omit [DecidableEq α] in
/-- Truthful answers suffice. -/
theorem answersSuffice_of_truthful {v : Pruned α} {l b m : Option α}
    (hours : v.askOurs = b) (htheirs : v.askTheirs = m) : v.AnswersSuffice l b m := by
  subst hours htheirs
  refine ⟨fun _ _ _ => ⟨id, fun hb hnb => absurd hb hnb⟩, fun _ _ hm hn => absurd hn hm,
    fun _ _ hm => ⟨fun hn => absurd hm hn, fun _ hb => .inl hb, fun _ hb => ⟨hb, Iff.rfl⟩⟩⟩

/-- A value that ours lacks comes from theirs. -/
theorem apply_change_of_absent {v : Pruned α} {l m : Option α} (h : v.Of l none m) :
    v.change.apply none ≠ none ↔ m ≠ none ∧ (l = none ∨ v.askOurs ≠ none) := by
  obtain ⟨rfl, hours, htheirs, hhm, -⟩ := h
  obtain ⟨l, ours, theirs, askOurs, askTheirs⟩ := v
  dsimp only at *
  obtain rfl : ours = none := by
    cases ours with
    | none => rfl
    | some b => exact (hours b rfl).symm
  obtain rfl : m = theirs := by
    cases theirs with
    | some a => exact htheirs a rfl
    | none =>
        cases m with
        | none => rfl
        | some a => cases hhm a rfl rfl
  cases m with
  | none =>
      cases l with
      | none => simp [change, Change.apply]
      | some l =>
          cases askTheirs with
          | some a => simp [change, Change.apply]
          | none =>
              cases askOurs with
              | none => simp [change, Change.apply]
              | some a => by_cases hal : a = l <;> simp [change, Change.apply, hal]
  | some m =>
      cases l with
      | none => simp [change, Change.apply]
      | some l =>
          cases askOurs with
          | some a => simp [change, Change.apply]
          | none => by_cases hlm : l = m <;> simp [change, Change.apply, hlm]

/-- A value that theirs lacks stays unless it is found to be deleted there. -/
theorem apply_change_of_missing {v : Pruned α} {l b : Option α} (h : v.Of l b none) (hb : b ≠ none)
    (hno : v.change ≠ .conflict) :
    v.change.apply b ≠ none ↔ l = none ∨ v.askTheirs ≠ none ∨ v.askOurs = none := by
  obtain ⟨rfl, -, htheirs, -, -⟩ := h
  obtain ⟨l, ours, theirs, askOurs, askTheirs⟩ := v
  dsimp only at *
  obtain rfl : theirs = none := by
    cases theirs with
    | none => rfl
    | some a => exact (htheirs a rfl).symm
  cases l with
  | none => simpa [change, Change.apply] using hb
  | some l =>
      cases askTheirs with
      | some a => simpa [change, Change.apply] using hb
      | none =>
          cases askOurs with
          | none => simpa [change, Change.apply] using hb
          | some a =>
              by_cases hal : a = l
              · simp [change, Change.apply, hal]
              · exact absurd (by simp [change, hal]) hno

end Pruned

end ThreeWayMerge
