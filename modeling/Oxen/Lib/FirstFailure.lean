import Mathlib.Data.List.Basic

/-! Going through a list step by step until a step fails. -/

namespace FirstFailure

variable {σ α ε : Type}

/-- Takes the steps one after the other and stops at the first that fails. What the failing step
has done stays. -/
def runAll (step : σ → α → σ × Except ε Unit) : σ → List α → σ × Except ε Unit
  | s, [] => (s, .ok ())
  | s, a :: as =>
      match (step s a).2 with
      | .ok () => runAll step (step s a).1 as
      | .error e => ((step s a).1, .error e)

variable {step : σ → α → σ × Except ε Unit} {After : List α → σ → Prop}
  {Fails : List α → α → Prop} {s : σ} {done before before' rest rest' as : List α} {a a' : α}

theorem runAll_cons_of_ok (h : (step s a).2 = .ok ()) :
    runAll step s (a :: as) = runAll step (step s a).1 as := by
  rw [runAll, h]

theorem runAll_cons_of_error {e : ε} (h : (step s a).2 = .error e) :
    runAll step s (a :: as) = ((step s a).1, .error e) := by
  rw [runAll, h]

/-! ## The first failure -/

/-- The item fails, and none of those before it does. -/
def FirstFails (Fails : List α → α → Prop) (before : List α) (a : α) : Prop :=
  Fails before a ∧ ∀ earlier b between, before = earlier ++ b :: between → ¬ Fails earlier b

theorem FirstFails.unique (h : FirstFails Fails before a) (h' : FirstFails Fails before' a')
    (heq : before ++ a :: rest = before' ++ a' :: rest') :
    before = before' ∧ a = a' ∧ rest = rest' := by
  rcases List.append_eq_append_iff.mp heq with ⟨xs, hbefore, hrest⟩ | ⟨xs, hbefore, hrest⟩
  · cases xs with
    | nil =>
        rw [List.append_nil] at hbefore
        obtain ⟨rfl, rfl⟩ := List.cons.inj hrest
        exact ⟨hbefore.symm, rfl, rfl⟩
    | cons x xs =>
        obtain ⟨rfl, -⟩ := List.cons.inj hrest
        exact absurd h.1 (h'.2 before a xs hbefore)
  · cases xs with
    | nil =>
        rw [List.append_nil] at hbefore
        obtain ⟨rfl, rfl⟩ := List.cons.inj hrest
        exact ⟨hbefore, rfl, rfl⟩
    | cons x xs =>
        obtain ⟨rfl, -⟩ := List.cons.inj hrest
        exact absurd h'.1 (h.2 before' a' xs hbefore)

/-- What holds after the steps done so far, and which steps fail then. -/
structure Describes (step : σ → α → σ × Except ε Unit) (After : List α → σ → Prop)
    (Fails : List α → α → Prop) : Prop where
  ok : ∀ {done s a}, After done s → ¬ Fails done a →
    (step s a).2 = .ok () ∧ After (done ++ [a]) (step s a).1
  error : ∀ {done s a}, After done s → Fails done a → ∃ e, (step s a).2 = .error e

variable (h : Describes step After Fails)

include h

/-- Either no item fails, or the run stops at the first that does. -/
theorem Describes.run (hs : After done s) (as : List α) :
    ((runAll step s as).2 = .ok () ∧ After (done ++ as) (runAll step s as).1 ∧
        ∀ before a rest, as = before ++ a :: rest → ¬ Fails (done ++ before) a) ∨
      ∃ before a rest t e, as = before ++ a :: rest ∧
        FirstFails (fun b => Fails (done ++ b)) before a ∧ After (done ++ before) t ∧
          (step t a).2 = .error e ∧ runAll step s as = ((step t a).1, .error e) := by
  induction as generalizing done s with
  | nil =>
      refine .inl ⟨rfl, by rwa [List.append_nil], fun before a rest heq => ?_⟩
      rw [eq_comm, List.append_eq_nil_iff] at heq
      cases heq.2
  | cons x as ih =>
      by_cases hx : Fails done x
      · rcases h.error hs hx with ⟨e, he⟩
        refine .inr ⟨[], x, as, s, e, rfl, ⟨?_, fun earlier b between heq => ?_⟩, ?_, he,
          runAll_cons_of_error he⟩
        · change Fails (done ++ []) x
          rwa [List.append_nil]
        · rw [eq_comm, List.append_eq_nil_iff] at heq
          cases heq.2
        · rwa [List.append_nil]
      · rcases h.ok hs hx with ⟨hok, hafter⟩
        rw [runAll_cons_of_ok hok]
        rcases ih hafter with ⟨hres, hfinal, hnone⟩ | ⟨before, a, rest, t, e, rfl, hfirst, ht, he, hrun⟩
        · refine .inl ⟨hres, by rwa [List.append_cons], fun before a rest heq => ?_⟩
          cases before with
          | nil =>
              obtain ⟨rfl, rfl⟩ := List.cons.inj heq
              rwa [List.append_nil]
          | cons y before =>
              obtain ⟨rfl, rfl⟩ := List.cons.inj heq
              rw [List.append_cons]
              exact hnone before a rest rfl
        · refine .inr ⟨x :: before, a, rest, t, e, rfl, ⟨?_, fun earlier b between heq => ?_⟩, ?_, he,
            hrun⟩
          · change Fails (done ++ x :: before) a
            rw [List.append_cons]
            exact hfirst.1
          · cases earlier with
            | nil =>
                obtain ⟨rfl, rfl⟩ := List.cons.inj heq
                change ¬ Fails (done ++ []) x
                rwa [List.append_nil]
            | cons y earlier =>
                obtain ⟨rfl, rfl⟩ := List.cons.inj heq
                change ¬ Fails (done ++ x :: earlier) b
                rw [List.append_cons]
                exact hfirst.2 earlier b between rfl
          · rwa [List.append_cons]

/-- The run stops where the first item fails. -/
theorem Describes.run_of_firstFails (hs : After [] s) (hfirst : FirstFails Fails before a)
    (rest : List α) :
    ∃ t e, After before t ∧ (step t a).2 = .error e ∧
      runAll step s (before ++ a :: rest) = ((step t a).1, .error e) := by
  rcases h.run hs (before ++ a :: rest) with ⟨-, -, hnone⟩ | ⟨before', a', rest', t, e, heq, hfirst', ht,
    he, hrun⟩
  · exact absurd hfirst.1 (hnone before a rest rfl)
  · obtain ⟨rfl, rfl, rfl⟩ := hfirst.unique hfirst' heq
    exact ⟨t, e, ht, he, hrun⟩

end FirstFailure
