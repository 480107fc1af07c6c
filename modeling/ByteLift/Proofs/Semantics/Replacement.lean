import ByteLift.Proofs.Semantics.Alike

/-!
# Replacing variables that are read

An expression that writes no variable leaves all variables as they are. So a variable in it can be
replaced by an expression that has the variable's value before the whole is evaluated: it has that
value whenever the evaluation comes to it.
-/

namespace ByteLift

namespace Interpretation

variable {ν η : Type} {α β : Type}

/-- The state that a computation ends in. -/
def endState {σ : Type} : EStateM.Result ν σ α → σ
  | .ok _ s | .error _ s => s

/-- Two computations do the same where variables have the values `ρ`, and leave them so. -/
def SameAt (ρ : Var → ν) (x y : EStateM ν (State ν η) α) : Prop :=
  ∀ s, s.vars = ρ → x s = y s ∧ (endState (y s)).vars = ρ

variable {ρ : Var → ν} {x y : EStateM ν (State ν η) α}

theorem sameAt_iff_alike : SameAt ρ x y ↔ Alike (fun s t => s = t ∧ s.vars = ρ) y x := by
  constructor
  · rintro h s _ ⟨rfl, hs⟩
    obtain ⟨heq, hvars⟩ := h s hs
    rw [heq]
    cases hy : y s with
    | ok a t => exact .ok a ⟨rfl, by rw [← hvars, hy]; rfl⟩
    | error v t => exact .error v ⟨rfl, by rw [← hvars, hy]; rfl⟩
  · intro h s hs
    rcases (h ⟨rfl, hs⟩).ok_or_error with ⟨a, t, _, hy, hx, rfl, ht⟩ | ⟨v, t, _, hy, hx, rfl, ht⟩
    · exact ⟨hx.trans hy.symm, by rw [hy]; exact ht⟩
    · exact ⟨hx.trans hy.symm, by rw [hy]; exact ht⟩

theorem SameAt.map (h : SameAt ρ x y) (f : α → β) : SameAt ρ (f <$> x) (f <$> y) :=
  sameAt_iff_alike.2 ((sameAt_iff_alike.1 h).map f)

variable (I : Interpretation ν η)

theorem SameAt.perform (op : Expr) (vs : List ν) :
    SameAt ρ (I.perform op vs) (I.perform op vs) := by
  intro s hs
  refine ⟨rfl, ?_⟩
  unfold Interpretation.perform
  split <;> exact hs

/-- Expressions that have the values of the variables they are put in place of change nothing. -/
theorem sameAt_replaceAs {f : Var → Option Expr}
    (hf : ∀ v e, f v = some e → SameAt ρ (I.eval e) (I.eval (.var v)))
    (e : Expr) (he : ∀ v, .write v ∉ e.usesAs false) :
    SameAt ρ (I.eval (e.replaceAs f false).val) (I.eval e) := by
  refine sameAt_iff_alike.2
    (alike_eval_replaceReads (Q := fun d => ∀ v, .write v ∉ d.uses)
    (fun _ _ hd hc v hv => ?_) (fun v _ => ?_)
      (fun d hstrict hd vs => ?_) he)
  · exact hd v (Expr.uses_parts_subset hc hv)
  · cases hv : f v with
    | none => exact sameAt_iff_alike.1 fun s hs => ⟨rfl, by simp only [eval]; exact hs⟩
    | some e => exact sameAt_iff_alike.1 (hf v e hv)
  · refine alike_finish (fun op ws => sameAt_iff_alike.1 (.perform I op ws)) fun v hv =>
      absurd ?_ (hd v)
    rw [Expr.uses_eq_parts (Expr.ne_var_of_isStrict hstrict), hv]
    simp

section

variable {I : Interpretation ν η} {f : Var → Option Expr} {s : State ν η} {e : Expr}

section

variable (hf : ∀ v e, f v = some e → SameAt ρ (I.eval e) (I.eval (.var v)))
include hf

theorem sameAt_eval (he : e.isWriteFree = true) :
    SameAt ρ (I.semantics.eval (e.replaceReads f).val) (I.semantics.eval e) :=
  I.sameAt_replaceAs hf e (Expr.isWriteFree_iff.1 he)

theorem sameAt_test {c : Expr} (hc : c.isWriteFree = true) :
    SameAt ρ (I.semantics.test (c.replaceReads f).val) (I.semantics.test c) :=
  (sameAt_eval hf hc).map _

end

/-- Evaluating an expression that writes nothing leaves all variables. -/
theorem vars_of_eval (he : e.isWriteFree = true) {r : EStateM.Result ν (State ν η) ν}
    (h : I.semantics.eval e s = r) : (endState r).vars = s.vars :=
  h ▸ (sameAt_eval (f := fun _ => none) (by simp) he s rfl).2

/-- What an assignment does to variables. -/
theorem eval_set {v : Var} (he : e.isWriteFree = true) :
    (∃ a s', I.eval e s = .ok a s' ∧ s'.vars = s.vars ∧
      I.eval (.assign (.var v) e) s = .ok a (s'.put v a)) ∨
      ∃ a s', I.eval e s = .error a s' ∧ s'.vars = s.vars ∧
      I.eval (.assign (.var v) e) s = .error a s' := by
  rw [eval]
  simp only [bind, EStateM.bind]
  cases heval : I.eval e s with
  | ok a s' => exact .inl ⟨a, s', rfl, vars_of_eval he heval, rfl⟩
  | error a s' => exact .inr ⟨a, s', rfl, vars_of_eval he heval, rfl⟩

end

end Interpretation

end ByteLift
