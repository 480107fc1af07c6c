import ByteLift.Proofs.Semantics.Splits

/-!
# Simple expressions, under an interpretation

A literal, a variable and `this` are *simple*. Under an interpretation that fixes what literals and
`this` are, a simple expression has a value at once: it changes nothing but the list of the
operations done.
-/

namespace ByteLift.Interpretation

open State

variable {ν η : Type} (I : Interpretation ν η)

/-- Literals and `this` are what `constant` says, whatever the heap is, and numbers are ordered as
they should. -/
structure Fixes (constant : Expr → ν) : Prop where
  operate : ∀ e h, e.isSimple = true → (∀ v, e ≠ .var v) → I.operate e [] h = .ok (constant e) h
  order : ∀ j k, I.order (constant (.int j)) (constant (.int k)) = some (compare j k)

/-- The value of a simple expression. -/
def valueOf (constant : Expr → ν) (vars : Var → ν) : Expr → ν
  | .var v => vars v
  | .lit (.boolean b) => I.ofBool b
  | e => constant e

variable {I} {constant : Expr → ν}

variable {e : Expr}

theorem Fixes.eval_simple (hI : I.Fixes constant) (he : e.isSimple = true) (s : State ν η) :
    ∃ t, I.eval e s = .ok (I.valueOf constant s.vars e) t ∧ Like (fun _ => False) s t := by
  have hperform (hvar : ∀ v, e ≠ .var v) (hhead : e.head = e) (hpure : e.isPure = true) :
      ∃ t, I.perform e.head [] s = .ok (constant e) t ∧ Like (fun _ => False) s t := by
    refine ⟨{ s with done := s.done ++ [(e, [])] }, ?_, fun _ _ => rfl, rfl, ?_⟩
    · rw [perform, hhead, hI.operate e s.heap he hvar]
    · simp [effects, hpure]
  cases e with
  | lit l =>
    cases l with
    | boolean b =>
      simp only [eval]
      exact ⟨s, rfl, .refl s⟩
    | _ =>
      simp only [eval]
      exact hperform (by simp) rfl rfl
  | var v => exact ⟨s, eval_var v s, .refl s⟩
  | this | super | outerThis =>
    simp only [eval]
    exact hperform (by simp) rfl rfl
  | _ => cases he

/-- A simple expression has the same value where the variable that it is has. -/
theorem valueOf_eq {vars vars' : Var → ν} (h : ∀ v, e = .var v → vars' v = vars v) :
    I.valueOf constant vars' e = I.valueOf constant vars e := by
  unfold valueOf
  split
  · exact h _ rfl
  · rfl
  · rfl

theorem Fixes.quiet (hI : I.Fixes constant) (he : e.isSimple = true) : I.Quiet e := by
  intro s t h
  obtain ⟨s', hs, hs'⟩ := hI.eval_simple he s
  obtain ⟨t', ht, ht'⟩ := hI.eval_simple he t
  have hvalue : I.valueOf constant t.vars e = I.valueOf constant s.vars e := by
    refine valueOf_eq ?_
    rintro v rfl
    exact (h v (by simp [Expr.uses, Expr.usesAs])).symm
  exact ⟨_, s', t', hs, hvalue ▸ ht, hs', ht'⟩

theorem Fixes.evalList_simple (hI : I.Fixes constant) (es : List Expr)
    (hes : ∀ e ∈ es, e.isSimple = true) (s : State ν η) :
    ∃ t, I.evalList es s = .ok (es.map (I.valueOf constant s.vars)) t ∧
    Like (fun _ => False) s t := by
  induction es generalizing s with
  | nil => exact ⟨s, rfl, .refl s⟩
  | cons e es ih =>
    rw [List.forall_mem_cons] at hes
    obtain ⟨t, he, ht⟩ := hI.eval_simple hes.1 s
    obtain ⟨u, hes', hu⟩ := ih hes.2 t
    rw [← funext fun v => ht.vars v id] at hes'
    exact ⟨u, evalList_cons he hes', ht.trans hu⟩

/-- Whether a simple expression with a number as its value is a given number. -/
theorem Fixes.test_eq (hI : I.Fixes constant) {key : Expr} (hkey : key.isSimple = true) {k : Int32}
    (value : Int32) {s : State ν η} (hk : I.valueOf constant s.vars key = constant (.int k)) :
    ∃ t, I.semantics.test (.compare .eq key (.int value)) s = .ok (decide (k = value)) t ∧
      Like (fun _ => False) s t := by
  obtain ⟨t, hv, ht⟩ := hI.eval_simple hkey s
  obtain ⟨u, hw, hu⟩ := hI.eval_simple (e := .int value) rfl t
  refine ⟨u, ?_, ht.trans hu⟩
  rw [Semantics.test_compare]
  show (I.eval key >>= fun v => I.eval (.int value) >>= fun w => _) s = _
  rw [bind_of_ok hv, bind_of_ok hw, hk]
  have hdecides : CompareOp.eq.decides (I.order (constant (.int k)) (constant (.int value))) =
    decide (k = value) := by
    rw [hI.order]
    show (compare k value == .eq) = _
    rw [Bool.eq_iff_iff]
    simp
  rw [← hdecides]
  rfl

end ByteLift.Interpretation
