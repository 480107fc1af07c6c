/-!
# Runs step by step

A machine makes one step: it goes on in another state, or it stops with a result. `runFor` makes
steps up to a bound. Two machines have the same results if the one *simulates* the other: each step
of the first is matched by some number of steps of the second, which may be none only if a rank goes
down.
-/

namespace ByteLift

/-- What one step comes to. -/
inductive Step (σ ρ : Type)
  | on (s : σ)
  | stop (r : ρ)

section

variable {σ ρ : Type} {step : σ → Step σ ρ} {s t u : σ} {r : ρ}

/-- Makes at most `n` steps. -/
def runFor (step : σ → Step σ ρ) : Nat → σ → Option ρ
  | 0, _ => none
  | n + 1, s =>
    match step s with
    | .on t => runFor step n t
    | .stop r => some r

variable {n m : Nat}

theorem runFor_on (h : step s = .on t) : runFor step (n + 1) s = runFor step n t := by
  rw [runFor, h]

theorem runFor_stop (h : step s = .stop r) : runFor step (n + 1) s = some r := by
  rw [runFor, h]

/-- A run that ends does so the same way with more steps. -/
theorem runFor_mono (hnm : n ≤ m) (h : runFor step n s = some r) : runFor step m s = some r := by
  induction n generalizing m s with
  | zero => cases h
  | succ n ih =>
    obtain ⟨m, rfl⟩ : ∃ k, m = k + 1 := ⟨m - 1, by omega⟩
    rw [runFor] at h ⊢
    split at h
    · exact ih (by omega) h
    · exact h

theorem runFor_unique {r' : ρ} (h : runFor step n s = some r) (h' : runFor step m s = some r') :
    r = r' := by
  have hmax := runFor_mono (Nat.le_max_left n m) h
  rw [runFor_mono (Nat.le_max_right n m) h'] at hmax
  exact (Option.some.inj hmax).symm

/-! ## Parts of runs -/

/-- A number of steps leads from one state to another. -/
def Leads (step : σ → Step σ ρ) (k : Nat) (s t : σ) : Prop :=
  ∀ n, runFor step (n + k) s = runFor step n t

theorem Leads.refl (s : σ) : Leads step 0 s s := fun _ => rfl

theorem Leads.one (h : step s = .on t) : Leads step 1 s t := fun _ => runFor_on h

theorem Leads.trans {j k : Nat} (h : Leads step j s t) (h' : Leads step k t u) :
    Leads step (k + j) s u := by
  intro n
  rw [← Nat.add_assoc, h, h']

/-- The states that a run passes. -/
inductive Visits (step : σ → Step σ ρ) : σ → σ → Prop
  | refl (s : σ) : Visits step s s
  | on {s t u : σ} : Visits step s t → step t = .on u → Visits step s u

theorem Visits.exists_leads (h : Visits step s t) : ∃ k, Leads step k s t := by
  induction h with
  | refl => exact ⟨0, .refl _⟩
  | on _ hstep ih =>
    obtain ⟨k, hk⟩ := ih
    exact ⟨1 + k, hk.trans (.one hstep)⟩

end

/-! ## Simulation -/

/-- Each step from a state is matched from all states related to it, and so is each result. -/
structure Simulates {σ τ ρ ρ' : Type} (step : σ → Step σ ρ) (step' : τ → Step τ ρ')
    (rel : σ → τ → Prop) (same : ρ → ρ' → Prop) (rank : σ → Nat) : Prop where
  stop : ∀ s t r, rel s t → step s = .stop r → ∃ n r', runFor step' n t = some r' ∧ same r r'
  on : ∀ s t u, rel s t → step s = .on u →
    ∃ k v, Leads step' k t v ∧ rel u v ∧ (k = 0 → rank u < rank s)

section

variable {σ τ ρ ρ' : Type} {step : σ → Step σ ρ} {step' : τ → Step τ ρ'} {rel : σ → τ → Prop}
  {same : ρ → ρ' → Prop} {rank : σ → Nat} {s : σ} {t : τ} {n : Nat}

theorem Simulates.forward (h : Simulates step step' rel same rank) (hst : rel s t) {r : ρ}
    (hrun : runFor step n s = some r) : ∃ m r', runFor step' m t = some r' ∧ same r r' := by
  induction n generalizing s t with
  | zero => cases hrun
  | succ n ih =>
    cases hstep : step s with
    | stop q =>
      rw [runFor_stop hstep] at hrun
      cases hrun
      exact h.stop s t r hst hstep
    | on u =>
      rw [runFor_on hstep] at hrun
      obtain ⟨k, v, hlead, huv, _⟩ := h.on s t u hst hstep
      obtain ⟨m, r', hm, hr⟩ := ih huv hrun
      exact ⟨m + k, r', by rw [hlead, hm], hr⟩

/-- What the second machine comes to, the first comes to. -/
theorem Simulates.backward (h : Simulates step step' rel same rank) (hst : rel s t) {r' : ρ'}
    (hrun : runFor step' n t = some r') : ∃ m r, runFor step m s = some r ∧ same r r' := by
  -- From the next state fewer steps are left, or as many and the rank is less.
  induction n using Nat.strongRecOn generalizing s t with
  | ind n ihn =>
    induction hrank : rank s using Nat.strongRecOn generalizing s t with
    | ind k ihk =>
      cases hstep : step s with
      | stop r =>
        obtain ⟨m, q, hm, hr⟩ := h.stop s t r hst hstep
        rw [runFor_unique hrun hm]
        exact ⟨1, r, runFor_stop hstep, hr⟩
      | on u =>
        obtain ⟨j, v, hlead, huv, hdown⟩ := h.on s t u hst hstep
        obtain ⟨m, rfl⟩ : ∃ m, n = m + j := by
          rcases Nat.lt_or_ge n (0 + j) with hlt | hge
          · have hnone := runFor_mono (Nat.le_of_lt hlt) hrun
            rw [hlead] at hnone
            cases hnone
          · exact ⟨n - j, by omega⟩
        rw [hlead] at hrun
        obtain ⟨i, r, hi, hr⟩ : ∃ m r, runFor step m u = some r ∧ same r r' := by
          by_cases hzero : j = 0
          · subst hzero
            exact ihk _ (hrank ▸ hdown rfl) huv hrun rfl
          · exact ihn m (by omega) huv hrun
        exact ⟨i + 1, r, by rw [runFor_on hstep, hi], hr⟩

end

end ByteLift
