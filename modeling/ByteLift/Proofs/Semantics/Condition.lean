import ByteLift.Expr.Condition

/-!
# What expressions mean

A *semantics* says what evaluating an expression does: it changes the state and gives a value, or
throws one. Only boolean literals, parentheses, `!`, `&&`, `||` and the comparisons have a fixed
meaning. The main result, `Semantics.test_negate`, is that the negation of a condition evaluates the
same operands with the same effects and comes out the other way, as long as a value that is not a
number only comes from an expression of a floating-point type.
-/

namespace ByteLift

/-! ## Computations -/

section

variable {ε σ α β : Type} {x : EStateM ε σ α} {f : α → EStateM ε σ β} {s s' : σ} {b : β}

/-- A sequence succeeds if both parts do. -/
theorem bind_eq_ok : (x >>= f) s = .ok b s' ↔ ∃ a t, x s = .ok a t ∧ f a t = .ok b s' := by
  show EStateM.bind x f s = _ ↔ _
  unfold EStateM.bind
  cases x s with
  | ok a t => simp [and_assoc]
  | error e t => simp

variable {g : α → β} {a : α} {t : σ}

theorem map_eq_ok : (g <$> x) s = .ok b s' ↔ ∃ a, x s = .ok a s' ∧ g a = b := by
  show EStateM.map g x s = _ ↔ _
  unfold EStateM.map
  cases x s with
  | ok a t => simp [and_assoc, and_comm]
  | error e t => simp

theorem bind_of_ok (h : x s = .ok a t) : (x >>= f) s = f a t := by
  show EStateM.bind x f s = _
  simp only [EStateM.bind, h]

theorem bind_congr_of_ok {g : α → EStateM ε σ β} (h : ∀ a t, x s = .ok a t → f a t = g a t) :
    (x >>= f) s = (x >>= g) s := by
  show EStateM.bind _ _ _ = EStateM.bind _ _ _
  unfold EStateM.bind
  cases hx : x s with
  | ok a t => exact h a t hx
  | error e t => rfl

theorem map_of_ok (h : x s = .ok a t) : (g <$> x) s = .ok (g a) t := by
  show EStateM.map g x s = _
  simp only [EStateM.map, h]

theorem pure_eq_ok {a' : α} : (pure a : EStateM ε σ α) s = .ok a' s' ↔ a = a' ∧ s = s' := by
  show EStateM.Result.ok a s = _ ↔ _
  simp

end

/-! ## Semantics -/

/-- Whether an operator holds of two values, given how they are ordered; `none` stands for two
values of which one is not a number. -/
def CompareOp.decides (op : CompareOp) : Option Ordering → Bool
  | none => op.holdsOnNaN
  | some o => op.holds o

theorem CompareOp.holds_negate (op : CompareOp) (o : Ordering) :
    op.negate.holds o = !op.holds o := by
  cases op <;> cases o <;> rfl

/-- The meaning of expressions over states `σ` and values `ν`. -/
structure Semantics (σ ν : Type) where
  /-- Evaluates an expression; an error is a thrown value. -/
  eval : Expr → EStateM ν σ ν
  /-- Whether a value counts as true where a condition is wanted. -/
  truth : ν → Bool
  ofBool : Bool → ν
  /-- How two values are ordered. -/
  order : ν → ν → Option Ordering
  /-- The values that are not numbers. -/
  isNaN : ν → Bool
  truth_ofBool : ∀ b, truth (ofBool b) = b
  isNaN_of_unordered : ∀ v w, order v w = none → isNaN v = true ∨ isNaN w = true
  eval_boolean : ∀ b, eval (.lit (.boolean b)) = pure (ofBool b)
  eval_paren : ∀ e, eval (.paren e) = eval e
  eval_not : ∀ e t, eval (.unary .not e t) = (fun v => ofBool (!truth v)) <$> eval e
  eval_condAnd : ∀ a b t, eval (.binary .condAnd a b t) = do
    let v ← eval a
    if truth v then (fun w => ofBool (truth w)) <$> eval b else pure (ofBool false)
  eval_condOr : ∀ a b t, eval (.binary .condOr a b t) = do
    let v ← eval a
    if truth v then pure (ofBool true) else (fun w => ofBool (truth w)) <$> eval b
  eval_compare : ∀ op a b, eval (.compare op a b) = do
    let v ← eval a
    let w ← eval b
    pure (ofBool (op.decides (order v w)))

namespace Semantics

variable {σ ν : Type} (S : Semantics σ ν)

/-- Evaluates a condition. -/
def test (c : Expr) : EStateM ν σ Bool := S.truth <$> S.eval c

/-- Values that are not numbers only come from expressions of a floating-point type. -/
def NaNTyped (vars : VarTable) : Prop :=
  ∀ e s v s', S.eval e s = .ok v s' → S.isNaN v = true → (e.ty vars).isFloating = true

theorem test_boolean (b : Bool) : S.test (.lit (.boolean b)) = pure b := by
  simp [test, S.eval_boolean, S.truth_ofBool]

variable (e a b : Expr)

theorem test_paren : S.test (.paren e) = S.test e := by
  rw [test, S.eval_paren, test]

theorem test_not (t : Ty) : S.test (.unary .not e t) = Bool.not <$> S.test e := by
  simp only [test, S.eval_not, ← comp_map]
  congr 1
  funext v
  exact S.truth_ofBool _

theorem test_condAnd (t : Ty) :
    S.test (.binary .condAnd a b t) = S.test a >>= fun p => if p then S.test b else pure false := by
  simp only [test, S.eval_condAnd, map_bind, bind_map_left]
  congr 1
  funext v
  by_cases h : S.truth v <;> simp [h, S.truth_ofBool]

theorem test_condOr (t : Ty) :
    S.test (.binary .condOr a b t) = S.test a >>= fun p => if p then pure true else S.test b := by
  simp only [test, S.eval_condOr, map_bind, bind_map_left]
  congr 1
  funext v
  by_cases h : S.truth v <;> simp [h, S.truth_ofBool]

theorem test_compare (op : CompareOp) (a b : Expr) : S.test (.compare op a b) =
      S.eval a >>= fun v => S.eval b >>= fun w => pure (op.decides (S.order v w)) := by
  simp [test, S.eval_compare, S.truth_ofBool]

variable {S} {vars : VarTable}

/-- Two values of operands that are not of a floating-point type are ordered, so the opposite
operator decides the other way. -/
theorem test_compare_negate (hnan : S.NaNTyped vars) (op : CompareOp) {a b : Expr}
    (ha : (a.ty vars).isFloating = false) (hb : (b.ty vars).isFloating = false) :
    S.test (.compare op.negate a b) = Bool.not <$> S.test (.compare op a b) := by
  simp only [test_compare, map_bind, map_pure]
  funext s
  simp only [bind, EStateM.bind]
  cases hva : S.eval a s with
  | error v s' => rfl
  | ok v s' =>
    cases hwb : S.eval b s' with
    | error w s'' => simp only [hwb]
    | ok w s'' =>
      simp only [hwb]
      cases hord : S.order v w with
      | some o => simp [CompareOp.decides, CompareOp.holds_negate]
      | none =>
        -- One of the two would be no number, which its type rules out.
        rcases S.isNaN_of_unordered v w hord with h | h
        · rw [hnan a s v s' hva h] at ha
          cases ha
        · rw [hnan b s' w s'' hwb h] at hb
          cases hb

/-- The negation of a condition has the effects of the condition and comes out the other way. -/
theorem test_negate (hnan : S.NaNTyped vars) (c : Expr) :
    S.test (c.negate vars) = Bool.not <$> S.test c := by
  fun_induction Expr.negate vars c with
  | case1 op a b h => exact S.test_not _ _
  | case2 op a b h =>
    rw [Bool.not_eq_true, Bool.or_eq_false_iff] at h
    exact test_compare_negate hnan op h.1 h.2
  | case3 e t => simp [test_not]
  | case4 b => simp [Expr.boolean, test_boolean]
  | case5 a b t iha ihb =>
    simp only [test_condOr, test_condAnd, iha, ihb, map_bind, bind_map_left]
    congr 1
    funext p
    cases p <;> simp
  | case6 a b t iha ihb =>
    simp only [test_condOr, test_condAnd, iha, ihb, map_bind, bind_map_left]
    congr 1
    funext p
    cases p <;> simp
  | case7 e ih => rw [ih, test_paren]
  | case8 => exact S.test_not _ _

/-- A condition that is the literal `true` has no effect and holds. -/
theorem test_of_isTrue {c : Expr} (h : c.isTrue = true) : S.test c = pure true := by
  unfold Expr.isTrue at h
  split at h
  · subst h
    exact S.test_boolean true
  · cases h

end Semantics

end ByteLift
