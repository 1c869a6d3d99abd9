import Mathlib.Data.List.Basic

/-! Runs of a step relation, and what all their steps keep. -/

namespace Runs

universe u

variable {α : Type*} {σ : Type u} {ε : Type*}

/-- The steps of a list, taken in order. -/
inductive Run (Step : α → σ → σ → Prop) : List α → σ → σ → Prop
  | nil (s : σ) : Run Step [] s s
  | cons {a : α} {as : List α} {s middle s' : σ} (hstep : Step a s middle)
      (hrest : Run Step as middle s') : Run Step (a :: as) s s'

variable {Step : α → σ → σ → Prop} {s s' : σ} {as bs : List α}

theorem Run.keeps {Inv : σ → Prop} (hkeep : ∀ a s s', Step a s s' → Inv s → Inv s')
    (h : Run Step as s s') (hs : Inv s) : Inv s' := by
  induction h with
  | nil s => exact hs
  | cons hstep _ ih => exact ih (hkeep _ _ _ hstep hs)

theorem Run.mono {Step' : α → σ → σ → Prop} (hle : ∀ a s s', Step a s s' → Step' a s s')
    (h : Run Step as s s') : Run Step' as s s' := by
  induction h with
  | nil s => exact .nil s
  | cons hstep _ ih => exact .cons (hle _ _ _ hstep) ih

theorem Run.cons_inv {a : α} (h : Run Step (a :: as) s s') :
    ∃ middle, Step a s middle ∧ Run Step as middle s' := by
  cases h with
  | cons hstep hrest => exact ⟨_, hstep, hrest⟩

/-- Every element of the list takes a step somewhere in the run. -/
theorem Run.exists_step (h : Run Step as s s') : ∀ a ∈ as, ∃ before after, Step a before after := by
  induction h with
  | nil s =>
      intro a ha
      cases ha
  | cons hstep _ ih =>
      intro a ha
      rcases List.mem_cons.mp ha with rfl | ha
      · exact ⟨_, _, hstep⟩
      · exact ih a ha

theorem Run.append {middle : σ} (h : Run Step as s middle) (h' : Run Step bs middle s') :
    Run Step (as ++ bs) s s' := by
  induction h with
  | nil s => exact h'
  | cons hstep _ ih => exact .cons hstep (ih h')

/-- Two step relations have the same runs where they have the same steps from the states that a
run reaches. -/
theorem run_iff_of_keeps {Step' : α → σ → σ → Prop} {Inv : σ → Prop}
    (hkeep : ∀ a s s', Step a s s' → Inv s → Inv s')
    (hiff : ∀ a s s', Inv s → (Step a s s' ↔ Step' a s s')) (hs : Inv s) :
    Run Step as s s' ↔ Run Step' as s s' := by
  constructor
  · intro h
    induction h with
    | nil s => exact .nil s
    | cons hstep _ ih =>
        exact .cons ((hiff _ _ _ hs).mp hstep) (ih (hkeep _ _ _ hstep hs))
  · intro h
    induction h with
    | nil s => exact .nil s
    | cons hstep _ ih =>
        have hstep := (hiff _ _ _ hs).mpr hstep
        exact .cons hstep (ih (hkeep _ _ _ hstep hs))

/-- Takes the steps of a list, as long as each of them is possible. -/
def follow (step : α → σ → Option σ) : List α → σ → Option σ
  | [], s => some s
  | a :: as, s => (step a s).bind (follow step as)

theorem run_of_follow {step : α → σ → Option σ} (h : follow step as s = some s') :
    Run (fun a s s' => step a s = some s') as s s' := by
  induction as generalizing s with
  | nil =>
      cases h
      exact .nil _
  | cons a as ih =>
      rcases Option.bind_eq_some_iff.mp h with ⟨middle, hstep, hrest⟩
      exact .cons hstep (ih hrest)

theorem ok_bind {β γ : Type u} (b : β) (f : β → Except ε γ) : (Except.ok b >>= f) = f b := rfl

theorem bind_eq_ok {β γ : Type u} {x : Except ε β} {f : β → Except ε γ} {c : γ} :
    x >>= f = .ok c ↔ ∃ b, x = .ok b ∧ f b = .ok c := by
  cases x with
  | error e =>
      constructor
      · intro h; cases h
      · rintro ⟨b, h, -⟩; cases h
  | ok b =>
      constructor
      · intro h; exact ⟨b, rfl, h⟩
      · rintro ⟨b', h, hf⟩; cases h; exact hf

theorem mapM_ok {β : Type u} {f : α → Except ε β} {g : α → β} (h : ∀ a ∈ as, f a = .ok (g a)) :
    as.mapM f = .ok (as.map g) := by
  induction as with
  | nil => rfl
  | cons a as ih =>
      rw [List.mapM_cons, h a List.mem_cons_self, ok_bind,
        ih fun b hb => h b (List.mem_cons_of_mem a hb)]
      rfl

theorem exists_ok_of_mapM_ok {β : Type u} {f : α → Except ε β} {bs : List β}
    (h : as.mapM f = .ok bs) : ∀ a ∈ as, ∃ b, f a = .ok b := by
  induction as generalizing bs with
  | nil =>
      intro a ha
      cases ha
  | cons a as ih =>
      rw [List.mapM_cons, bind_eq_ok] at h
      rcases h with ⟨b, hb, h⟩
      rcases bind_eq_ok.mp h with ⟨rest, hrest, -⟩
      intro a' ha'
      rcases List.mem_cons.mp ha' with rfl | ha'
      · exact ⟨b, hb⟩
      · exact ih hrest a' ha'

/-- The list of what `P` describes, or a failure when `Q` says so. -/
def ListsOr {β : Type u} (P : β → Prop) (Q : Prop) : Except ε (List β) → Prop
  | .ok found => (∀ b, b ∈ found ↔ P b) ∧ ¬ Q
  | .error _ => Q

theorem ListsOr.congr {β : Type u} {P P' : β → Prop} {Q Q' : Prop} {x : Except ε (List β)}
    (h : ListsOr P Q x) (hP : ∀ b, P b ↔ P' b) (hQ : Q ↔ Q') : ListsOr P' Q' x := by
  cases x with
  | error e => exact hQ.mp h
  | ok found => exact ⟨fun b => (h.1 b).trans (hP b), fun hq => h.2 (hQ.mpr hq)⟩

theorem listsOr_nil {β : Type u} {P : β → Prop} {Q : Prop} (hP : ∀ b, ¬ P b) (hQ : ¬ Q) :
    ListsOr P Q (.ok [] : Except ε (List β)) :=
  ⟨fun b => iff_of_false List.not_mem_nil (hP b), hQ⟩

/-- Lists that are each described by a predicate, one after the other. -/
theorem listsOr_mapM {β : Type u} {f : α → Except ε (List β)} {P : α → β → Prop} {Q : α → Prop}
    (h : ∀ a ∈ as, ListsOr (P a) (Q a) (f a)) :
    ListsOr (fun b => ∃ a ∈ as, P a b) (∃ a ∈ as, Q a) ((as.mapM f).map List.flatten) := by
  induction as with
  | nil => exact listsOr_nil (by simp) (by simp)
  | cons a as ih =>
      have hfirst := h a List.mem_cons_self
      have hrest := ih fun b hb => h b (List.mem_cons_of_mem a hb)
      simp only [List.exists_mem_cons_iff]
      rw [List.mapM_cons]
      rcases hf : f a with e | first
      · rw [hf] at hfirst
        exact .inl hfirst
      · rw [hf] at hfirst
        rcases hrun : as.mapM f with e | lists
        · rw [hrun] at hrest
          exact .inr hrest
        · rw [hrun] at hrest
          refine ⟨fun b => ?_, not_or.mpr ⟨hfirst.2, hrest.2⟩⟩
          rw [List.flatten_cons, List.mem_append, hfirst.1, hrest.1]

theorem foldlM_eq_ok {step : α → σ → Except ε σ} :
    as.foldlM (fun s a => step a s) s = .ok s' ↔
      Run (fun a s s' => step a s = .ok s') as s s' := by
  induction as generalizing s with
  | nil =>
      constructor
      · intro h; cases h; exact .nil _
      · intro h; cases h; rfl
  | cons a as ih =>
      rw [List.foldlM_cons, bind_eq_ok]
      constructor
      · rintro ⟨middle, hstep, hrest⟩
        exact .cons hstep (ih.mp hrest)
      · intro h
        obtain ⟨middle, hstep, hrest⟩ := h.cons_inv
        exact ⟨middle, hstep, ih.mpr hrest⟩

end Runs
