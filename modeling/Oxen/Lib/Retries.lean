import Mathlib.Data.List.Basic

/-! Requests to a server over a connection that may fail before or after the server acts, and
clients that send a request again until it is answered. -/

namespace Retries

variable {σ ε α : Type*}

/-- What becomes of one try. -/
inductive Outcome where
  | success
  /-- Nothing reaches the server. -/
  | failure
  /-- The server acts, and the client does not hear of it. -/
  | answerLost
deriving DecidableEq, Repr

/-- The state of the server after the try, and what the client is told. -/
def send (handle : σ → Except ε α × σ) (lost : ε) (s : σ) : Outcome → Except ε α × σ
  | .success => handle s
  | .failure => (.error lost, s)
  | .answerLost => (.error lost, (handle s).2)

/-- Sends a request until it succeeds, once for each outcome at most. The last error is
returned if none does. -/
def retry (handle : σ → Except ε α × σ) (lost : ε) : ε → List Outcome → σ → Except ε α × σ
  | last, [], s => (.error last, s)
  | _, outcome :: outcomes, s =>
      match send handle lost s outcome with
      | (.ok a, s) => (.ok a, s)
      | (.error e, s) => retry handle lost e outcomes s

/-- Some try reaches the server. -/
def Arrives (outcomes : List Outcome) : Prop :=
  ∃ outcome ∈ outcomes, outcome ≠ .failure

instance (outcomes : List Outcome) : Decidable (Arrives outcomes) :=
  inferInstanceAs (Decidable (∃ _ ∈ _, _))

variable {handle : σ → Except ε α × σ} {lost last : ε} {outcomes : List Outcome} {s : σ}

theorem retry_cons (outcome : Outcome) :
    retry handle lost last (outcome :: outcomes) s =
      match send handle lost s outcome with
      | (.ok a, s) => (.ok a, s)
      | (.error e, s) => retry handle lost e outcomes s := rfl

/-- What a try leaves is what the server leaves, or what was there. -/
theorem send_snd (outcome : Outcome) :
    (send handle lost s outcome).2 = if outcome = .failure then s else (handle s).2 := by
  cases outcome <;> rfl

theorem send_fst_eq_ok {outcome : Outcome} {a : α} :
    (send handle lost s outcome).1 = .ok a ↔ outcome = .success ∧ (handle s).1 = .ok a := by
  cases outcome <;> simp [send]

/-- A request of which no try arrives leaves the server as it is. -/
theorem retry_of_not_arrives (h : ¬ Arrives outcomes) :
    ∃ e, retry handle lost last outcomes s = (.error e, s) := by
  induction outcomes generalizing last with
  | nil => exact ⟨last, rfl⟩
  | cons outcome outcomes ih =>
      have hout : outcome = .failure := by
        by_contra hne
        exact h ⟨outcome, List.mem_cons_self, hne⟩
      have hrest : ¬ Arrives outcomes := by
        rintro ⟨o, ho, hne⟩
        exact h ⟨o, List.mem_cons_of_mem _ ho, hne⟩
      subst hout
      exact ih hrest

/-- What the server's action keeps, any number of tries keep. -/
theorem retry_keeps {P : σ → Prop} (hkeep : ∀ s, P s → P (handle s).2) (hs : P s) :
    P (retry handle lost last outcomes s).2 := by
  induction outcomes generalizing last s with
  | nil => exact hs
  | cons outcome outcomes ih =>
      have hsent : P (send handle lost s outcome).2 := by
        rw [send_snd]
        split
        · exact hs
        · exact hkeep s hs
      rw [retry_cons]
      rcases hsend : send handle lost s outcome with ⟨_ | a, s'⟩
      · rw [hsend] at hsent
        exact ih hsent
      · rw [hsend] at hsent
        exact hsent

/-- What the server's action brings about, and keeps, holds once a try arrives. -/
theorem retry_arrives {P Q : σ → Prop} (hbring : ∀ s, P s → Q (handle s).2)
    (hkeep : ∀ s, Q s → Q (handle s).2) (h : Arrives outcomes) (hs : P s) :
    Q (retry handle lost last outcomes s).2 := by
  induction outcomes generalizing last with
  | nil =>
      rcases h with ⟨o, ho, -⟩
      cases ho
  | cons outcome outcomes ih =>
      by_cases hout : outcome = .failure
      · subst hout
        rcases h with ⟨o, ho, hne⟩
        rcases List.mem_cons.mp ho with rfl | ho
        · exact absurd rfl hne
        · exact ih ⟨o, ho, hne⟩
      · have hsent : Q (send handle lost s outcome).2 := by
          rw [send_snd, if_neg hout]
          exact hbring s hs
        rw [retry_cons]
        rcases hsend : send handle lost s outcome with ⟨_ | a, s'⟩
        · rw [hsend] at hsent
          exact retry_keeps hkeep hsent
        · rw [hsend] at hsent
          exact hsent

/-- A request that is answered was served. -/
theorem retry_ok {P : σ → Prop} {a : α} (hkeep : ∀ s, P s → P (handle s).2) (hs : P s)
    (h : (retry handle lost last outcomes s).1 = .ok a) :
    .success ∈ outcomes ∧ ∃ s', P s' ∧ handle s' = (.ok a, (retry handle lost last outcomes s).2) := by
  induction outcomes generalizing last s with
  | nil => cases h
  | cons outcome outcomes ih =>
      rw [retry_cons] at h ⊢
      rcases hsend : send handle lost s outcome with ⟨e | b, s'⟩
      · rw [hsend] at h
        have hs' : P s' := by
          have hsent := @send_snd _ _ _ handle lost s outcome
          rw [hsend] at hsent
          rw [show s' = _ from hsent]
          split
          · exact hs
          · exact hkeep s hs
        rcases ih hs' h with ⟨hmem, served⟩
        exact ⟨List.mem_cons_of_mem _ hmem, served⟩
      · rw [hsend] at h
        cases h
        have hok := send_fst_eq_ok.mp (by rw [hsend] : (send handle lost s outcome).1 = .ok a)
        rw [hok.1] at hsend ⊢
        exact ⟨List.mem_cons_self, s, hs, hsend⟩

/-- A request that the server always accepts is answered by the first try that succeeds. -/
theorem exists_retry_ok {P : σ → Prop} (hkeep : ∀ s, P s → P (handle s).2) {a : α}
    (haccept : ∀ s, P s → (handle s).1 = .ok a) (hs : P s) (h : .success ∈ outcomes) :
    (retry handle lost last outcomes s).1 = .ok a := by
  induction outcomes generalizing last s with
  | nil => cases h
  | cons outcome outcomes ih =>
      rw [retry_cons]
      rcases hsend : send handle lost s outcome with ⟨e | b, s'⟩
      · have hs' : P s' := by
          have hsent := @send_snd _ _ _ handle lost s outcome
          rw [hsend] at hsent
          rw [show s' = _ from hsent]
          split
          · exact hs
          · exact hkeep s hs
        rcases List.mem_cons.mp h with rfl | hmem
        · have hok := haccept s hs
          rw [send] at hsend
          rw [hsend] at hok
          cases hok
        · exact ih hs' hmem
      · have hok := send_fst_eq_ok.mp (by rw [hsend] : (send handle lost s outcome).1 = .ok b)
        rw [haccept s hs] at hok
        exact hok.2.symm

end Retries
