import ByteLift.Proofs.Semantics.Replacement
import ByteLift.Proofs.Semantics.Unseen

/-!
# Evaluating some of it first

Expressions are to be evaluated one after another. Some of them may be evaluated before the others
and stored in variables, which take their places: the values are the same, and so is what is done
and in which order, as long as either what is stored or what it is moved across is quiet.
-/

namespace ByteLift

open State

theorem ResultAlike.refl {ν σ α : Type} {R : σ → σ → Prop} (hR : ∀ s, R s s)
    (q : EStateM.Result ν σ α) : ResultAlike R q q := by
  cases q with
  | ok a s => exact .ok a (hR s)
  | error v s => exact .error v (hR s)

namespace Interpretation

variable {ν η : Type} {I : Interpretation ν η} {E D : Var → Prop} {e : Expr} {v : Var}
  {ds ds' es es' es'' : List Expr}

theorem vars_of_evalList (hes : ∀ e ∈ es, e.isWriteFree = true) {s : State ν η}
    {r : EStateM.Result ν (State ν η) (List ν)} (h : I.evalList es s = r) :
    (endState r).vars = s.vars := by
  have hsame :
    Alike (fun p q => p = q ∧ p.vars = s.vars) (I.evalList es) (I.evalList (es.map id)) :=
    alike_evalList fun e he => sameAt_iff_alike.1 fun t ht =>
      ⟨rfl, ht ▸ vars_of_eval (I := I) (hes e he) rfl⟩
  rw [List.map_id] at hsame
  rw [← h]
  exact (sameAt_iff_alike.2 hsame s rfl).2

variable (I E) in
/-- Expressions are evaluated in two steps, first `ds` and then `es'` in place of `es`. The values
are the same, and so is all that is done, up to the variables in `E`. -/
def Splits (ds es es' : List Expr) : Prop :=
  ∀ s, ResultAlike (Like E) (I.evalList es s) ((do let _ ← I.evalList ds; I.evalList es') s)

namespace Splits

theorem refl (es : List Expr) : I.Splits E [] es es := fun s => .refl .refl (I.evalList es s)

theorem mono (hE : ∀ v, D v → E v) (h : I.Splits D ds es es') : I.Splits E ds es es' :=
  fun s => (h s).mono fun _ _ h => h.mono hE

theorem trans (h : I.Splits E ds es es') (h' : I.Splits E ds' es' es'') :
    I.Splits E (ds ++ ds') es es'' := by
  intro s
  refine (h s).trans (fun _ _ _ => .trans) ?_
  simp only [evalList_append, bind_assoc, pure_bind]
  cases hds : I.evalList ds s with
  | ok vs t =>
    rw [bind_of_ok hds, bind_of_ok hds]
    exact h' t
  | error x t =>
    simp only [bind, EStateM.bind, hds]
    exact .error x (.refl t)

/-- What is evaluated behind the others stays there, if it reads none of the variables. -/
theorem append (h : I.Splits E ds es es') (fs : List Expr)
    (hfs : ∀ e ∈ fs, ∀ v, .read v ∈ e.uses → ¬ E v) : I.Splits E ds (es ++ fs) (es' ++ fs) := by
  intro s
  rw [evalList_append, evalList_append, ← bind_assoc]
  exact (h s).bind fun _ => (like_evalList hfs).bind fun _ => .pure _

end Splits

theorem evalList_concat (es : List Expr) (e : Expr) : I.evalList (es ++ [e]) = (do
      let vs ← I.evalList es
      let x ← I.eval e
      pure (vs ++ [x])) := by
  simp [evalList_append, evalList]

theorem evalList_vars (vs : List Var) (s : State ν η) :
    I.evalList (vs.map .var) s = .ok (vs.map s.vars) s := by
  induction vs with
  | nil => rfl
  | cons v vs ih => exact evalList_cons (eval_var v s) ih

/-- The last expression may be stored in a variable before the others are evaluated, if it is quiet
or they are. -/
theorem splits_set (hquiet : I.Quiet e ∨ ∀ d ∈ es, I.Quiet d) (he : e.isWriteFree = true)
    (hes : ∀ d ∈ es, d.isWriteFree = true) (hv : ∀ d ∈ es, .read v ∉ d.uses) :
    I.Splits (· = v) [.assign (.var v) e] (es ++ [e]) (es ++ [.var v]) := by
  intro s
  have hreads : ∀ d ∈ es, ∀ u, .read u ∈ d.uses → u ≠ v := by
    rintro d hd u hu rfl
    exact hv d hd hu
  have hput (s : State ν η) (x : ν) : Like (· = v) s (s.put v x) :=
    ((Like.refl s).put_left (E := (· = v)) rfl x).symm
  have hweak {s t : State ν η} (h : Like (fun _ => False) s t) : Like (· = v) s t :=
    h.mono fun _ => False.elim
  simp only [evalList_concat, evalList, eval, bind_assoc, pure_bind]
  rcases hquiet with hquiet | hquiet
  · obtain ⟨x, s', _, hx, _, hs', _⟩ := hquiet s s fun _ _ => rfl
    have hsput := (hweak hs').trans (hput s' x)
    rw [bind_of_ok hx]
    show ResultAlike _ _ ((I.evalList es >>= fun vs => _) (s'.put v x))
    rcases (like_evalList hreads hsput).ok_or_error with
      ⟨vs, t, t', ht, ht', h⟩ | ⟨y, t, t', ht, ht', h⟩
    · -- The others leave the variables alone, so what comes last has the value that was stored.
      obtain ⟨y, _, t'', hy, hty, _, ht''⟩ := hquiet s t fun u _ =>
        (congrFun (vars_of_evalList hes ht) u).symm
      cases hx.symm.trans hy
      rw [bind_of_ok ht, bind_of_ok ht', bind_of_ok hty]
      show ResultAlike _ (.ok (vs ++ [x]) t'') (.ok (vs ++ [t'.vars v]) t')
      rw [show t'.vars = _ from vars_of_evalList hes ht', put_self]
      exact .ok _ ((hweak ht''.symm).trans h)
    · simp only [bind, EStateM.bind, ht, ht']
      exact .error y h
  · obtain ⟨vs, t, _, ht, _, hst, _⟩ :=
      evalList_eq_of_quiet hquiet (s := s) (t := s) fun _ _ _ _ => rfl
    rw [bind_of_ok ht]
    rcases (like_eval (I := I) (e := e) (fun _ _ => id) hst).ok_or_error with
      ⟨x, s', t₁, hx, hx', h⟩ | ⟨x, s', t₁, hx, hx', h⟩
    · obtain ⟨us, _, t', hus, ht', _, hst'⟩ :=
        evalList_eq_of_quiet hquiet (s := s) (t := s'.put v x) fun d hd u hu => by
        rw [put_of_ne x (hreads d hd u hu), show s'.vars = s.vars from vars_of_eval (I := I) he hx]
      cases ht.symm.trans hus
      rw [bind_of_ok hx', bind_of_ok hx]
      show ResultAlike _ (.ok (vs ++ [x]) t₁) ((I.evalList es >>= fun vs => _) (s'.put v x))
      rw [bind_of_ok ht']
      show ResultAlike _ (.ok (vs ++ [x]) t₁) (.ok (vs ++ [t'.vars v]) t')
      rw [← hst'.vars v id, put_self]
      exact .ok _ ((hweak h.symm).trans ((hput s' x).trans (hweak hst')))
    · simp only [bind, EStateM.bind, hx, hx']
      exact .error x (hweak h.symm)

/-- Once all expressions are stored, they have been evaluated, and the variables hold their
values. -/
theorem Splits.stored {temps : List Var} (h : I.Splits E ds es (temps.map .var)) (s : State ν η) :
    (∃ vs t us s', I.evalList es s = .ok vs t ∧ I.evalList ds s = .ok us s' ∧
      temps.map s'.vars = vs ∧ Like E t s') ∨
      ∃ x t s', I.evalList es s = .error x t ∧ I.evalList ds s = .error x s' ∧ Like E t s' := by
  have hresult := h s
  cases hds : I.evalList ds s with
  | ok us s' =>
    rw [bind_of_ok hds, evalList_vars] at hresult
    rcases hresult.ok_or_error with ⟨vs, t, _, hes, heq, hlike⟩ | ⟨_, _, _, _, heq, _⟩
    · cases heq
      exact .inl ⟨_, t, us, s', hes, rfl, rfl, hlike⟩
    · cases heq
  | error x s' =>
    simp only [bind, EStateM.bind, hds] at hresult
    rcases hresult.ok_or_error with ⟨_, _, _, _, heq, _⟩ | ⟨_, t, _, hes, heq, hlike⟩
    · cases heq
    · cases heq
      exact .inr ⟨x, t, s', hes, rfl, hlike⟩

end Interpretation

end ByteLift
