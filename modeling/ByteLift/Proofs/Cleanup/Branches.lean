import ByteLift.Proofs.Cleanup.WellNested

/-!
# What straightened branches mean

Straightening keeps the meaning of every block, one rule at a time. This rests on two things about
the semantics: what counts as pure neither fails nor has an effect, and the negation of a condition
comes out the other way, for which values that are not numbers must be known by their types.
-/

namespace ByteLift

open Stmt Block Meaning

variable {σ ν : Type} {S : Semantics σ ν} {vars : VarTable}

/-! ## Conditions whose value is not needed -/

/-- Expressions that are pure give a value and leave the state as it is. A minus sign counts as
pure, so it only makes another value of that of its operand. -/
structure Semantics.PureTotal (S : Semantics σ ν) : Prop where
  eval_pure : ∀ e : Expr, e.isPure = true → ∀ s, ∃ v, S.eval e s = .ok v s
  eval_neg : ∀ e t, ∃ f : ν → ν, S.eval (.unary .neg e t) = f <$> S.eval e

/-- A condition that is the literal `false` has no effect and does not hold. -/
theorem Semantics.test_of_isFalse {c : Expr} (h : c.isFalse = true) : S.test c = pure false := by
  unfold Expr.isFalse at h
  split at h
  · rename_i b
    cases b with
    | false => exact S.test_boolean false
    | true => cases h
  · cases h

/-- Evaluates an expression and drops its value. -/
def Semantics.effect (S : Semantics σ ν) (e : Expr) : EStateM ν σ Unit := (fun _ => ()) <$> S.eval e

namespace Semantics

theorem effect_of_eval_eq_map {e e' : Expr} {f : ν → ν} (h : S.eval e = f <$> S.eval e') :
    S.effect e = S.effect e' := by
  rw [effect, h, ← comp_map]
  rfl

theorem effect_pure (hS : S.PureTotal) {e : Expr} (he : e.isPure = true) :
    S.effect e = pure () := by
  funext s
  obtain ⟨v, hv⟩ := hS.eval_pure e he s
  simp only [effect, Functor.map, EStateM.map, hv]
  rfl

theorem effect_compare (op : CompareOp) (a b : Expr) :
    S.effect (.compare op a b) = S.effect a >>= fun _ => S.effect b := by
  simp only [effect, S.eval_compare, map_bind, bind_map_left, map_pure]
  congr 1

/-- Only the part of a condition that stays has an effect. -/
theorem effect_effectOf (hS : S.PureTotal) {c e : Expr} (h : Cleanup.effectOf c = some e) :
    S.effect c = S.effect e := by
  fun_induction Cleanup.effectOf c with
  | case1 c ih =>
    rw [← ih h, effect, effect, S.eval_paren]
  | case2 op c t ih =>
    rw [← ih h]
    cases op with
    | neg =>
      obtain ⟨f, hf⟩ := hS.eval_neg c t
      exact effect_of_eval_eq_map hf
    | not => exact effect_of_eval_eq_map (S.eval_not c t)
  | case3 op a b hb ih =>
    rw [effect_compare, effect_pure hS hb, ← ih h]
    exact bind_pure_unit
  | case4 op a b hb ha ih =>
    rw [effect_compare, effect_pure hS ha, ← ih h]
    exact pure_bind _ _
  | case5 => cases h
  | case6 | case7 | case8 | case9 =>
    cases h
    rfl
  | case10 => cases h

end Semantics

/-! ## One branch -/

/-- A branch without statements evaluates its condition. -/
theorem meaning_emptyIte (c : Expr) : (ite c [] []).meaning S = (expr c).meaning S := by
  refine ext fun s x t => ?_
  rw [meaning_ite, meaningList_nil, meaning_of_blocks_eq_nil S rfl]
  simp only [branch, skip, ofFun, act, Semantics.test, Functor.map, EStateM.map]
  cases S.eval c s with
  | error v u => simp [eq_comm]
  | ok v u => cases hp : S.truth v <;> simp [hp, eq_comm]

theorem meaning_expr_of_effect {c e : Expr} (h : S.effect c = S.effect e) :
    (expr c).meaning S = (expr e).meaning S := by
  refine ext fun s x t => ?_
  have hs := congrFun h s
  simp only [Semantics.effect, Functor.map, EStateM.map] at hs
  rw [meaning_of_blocks_eq_nil S rfl, meaning_of_blocks_eq_nil S rfl]
  simp only [ofFun, act]
  cases hc : S.eval c s <;> cases he : S.eval e s <;> simp [hc, he] at hs ⊢ <;> simp [hs]

theorem meaning_expr_pure (hS : S.PureTotal) {c : Expr} (hc : c.isPure = true) :
    (expr c).meaning S = .skip := by
  refine ext fun s x t => ?_
  obtain ⟨v, hv⟩ := hS.eval_pure c hc s
  rw [meaning_of_blocks_eq_nil S rfl]
  simp [ofFun, act, hv, skip, eq_comm]

namespace Cleanup

@[simp] theorem branch_false (m k : Meaning σ ν) : branch (pure false) m k = k := rfl

/-- Testing two conditions one after the other is a branch inside a branch. -/
theorem branch_both (a b : Expr) (m : Meaning σ ν) :
    branch (S.test (both a b)) m .skip = .branch (S.test a) (.branch (S.test b) m .skip) .skip := by
  refine ext fun s x t => ?_
  simp only [both, S.test_condAnd, branch, bind, EStateM.bind]
  cases S.test a s with
  | error v u => rfl
  | ok p u => cases p <;> rfl

theorem straightening_meaningList (hS : S.PureTotal) (hnan : S.NaNTyped vars) :
    Block.Straightening vars fun a b _ => meaningList S b = meaningList S a where
  toTurning := turning_meaningList hnan
  takeElse a b ss hc := by simp [meaningList_append, Semantics.test_of_isFalse hc]
  dropEmpty ss hc := by rw [meaningList_cons, meaning_emptyIte, meaning_expr_pure hS hc, skip_seq]
  effect ss he := by
    rw [meaningList_cons, meaningList_cons, meaning_emptyIte,
      meaning_expr_of_effect (S.effect_effectOf hS he)]
  merge c d a ss := by simp [branch_both]

/-- Straightening the branches of a block changes nothing that it does: from every state it ends in
the same way and in the same state, or runs forever as before. -/
theorem exec_straightenBranches (hS : S.PureTotal) (hnan : S.NaNTyped vars) (b : Block)
    (s : σ) (y : Exit ν) (t : σ) :
    (∃ n, exec S n (straightenBranches vars b).val s = some (y, t)) ↔
      ∃ n, exec S n b s = some (y, t) := by
  have hmeaning : meaning S (straightenBranches vars b).val = meaning S b :=
    (straightening_meaningList hS hnan).straightenBranches b
  rw [exec_iff, exec_iff, hmeaning]

/-- A value that is a number or, if it is `none`, not a number. -/
abbrev Number := Option Int

namespace Number

def truth (v : Number) : Bool := v ≠ some 0

def ofBool (b : Bool) : Number := some (if b then 1 else 0)

def order (v w : Number) : Option Ordering := v.bind fun v => w.map (compare v)

/-- The value of a literal. All literals of type `float` are taken not to be numbers. -/
def ofLiteral : Literal → Number
  | .boolean b => ofBool b
  | .int v => some v.toInt
  | .float _ => none
  | _ => some 0

/-- The negation of a value, which is a number unless it has a floating-point type. -/
def neg (t : Ty) (v : Number) : Number := if t.isFloating then v.map (- ·) else some (-v.getD 0)

end Number

/-- Evaluates conditions over literals. The state counts calls. Expressions of other forms are
zero. -/
def countCalls : Expr → EStateM Number Nat Number
  | .lit l => pure (.ofLiteral l)
  | .paren e => countCalls e
  | .unary .not e _ => (fun v => .ofBool (!v.truth)) <$> countCalls e
  | .unary .neg e t => Number.neg t <$> countCalls e
  | .binary .condAnd a b _ => do
    let v ← countCalls a
    if v.truth then (fun w => .ofBool w.truth) <$> countCalls b else pure (.ofBool false)
  | .binary .condOr a b _ => do
    let v ← countCalls a
    if v.truth then pure (.ofBool true) else (fun w => .ofBool w.truth) <$> countCalls b
  | .compare op a b => do
    let v ← countCalls a
    let w ← countCalls b
    pure (.ofBool (op.decides (v.order w)))
  | .staticCall .. => fun n => .ok (some 0) (n + 1)
  | _ => pure (some 0)

/-- A semantics in which the calls made are all that happens. -/
def callCounter : Semantics Nat Number where
  eval := countCalls
  truth := Number.truth
  ofBool := Number.ofBool
  order := Number.order
  isNaN := Option.isNone
  truth_ofBool b := by cases b <;> rfl
  isNaN_of_unordered v w h := by
    cases v with
    | none => exact .inl rfl
    | some v =>
      cases w with
      | none => exact .inr rfl
      | some w => cases h
  eval_boolean _ := rfl
  eval_paren _ := rfl
  eval_not _ _ := rfl
  eval_condAnd _ _ _ := rfl
  eval_condOr _ _ _ := rfl
  eval_compare _ _ _ := rfl

theorem countCalls_of_isPure : ∀ e : Expr, e.isPure = true → ∀ n, ∃ v, countCalls e n = .ok v n
  | .lit _, _, _ | .var _, _, _ | .this, _, _ | .super, _, _ | .outerThis _, _, _
  | .instanceOf .., _, _ | .cast .., _, _ | .threeWay .., _, _ => ⟨_, rfl⟩
  | .paren e, h, n => countCalls_of_isPure e h n
  | .unary op e t, h, n => by
    obtain ⟨v, hv⟩ := countCalls_of_isPure e h n
    cases op with
    | neg => exact ⟨.neg t v, map_of_ok hv⟩
    | not => exact ⟨.ofBool (!v.truth), map_of_ok hv⟩
  | .compare op a b, h, n => by
    simp only [Expr.isPure, Bool.and_eq_true] at h
    obtain ⟨v, hv⟩ := countCalls_of_isPure a h.1 n
    obtain ⟨w, hw⟩ := countCalls_of_isPure b h.2 n
    exact ⟨.ofBool (op.decides (v.order w)), (bind_of_ok hv).trans (bind_of_ok hw)⟩
  | .binary op a b t, h, n => by
    simp only [Expr.isPure, Bool.and_eq_true] at h
    obtain ⟨v, hv⟩ := countCalls_of_isPure a h.1.2 n
    obtain ⟨w, hw⟩ := countCalls_of_isPure b h.2 n
    cases op with
    | condAnd =>
      cases hp : v.truth with
      | true => exact ⟨.ofBool w.truth, (bind_of_ok hv).trans (by simpa [hp] using map_of_ok hw)⟩
      | false => exact ⟨.ofBool false, (bind_of_ok hv).trans (by simp [hp]; rfl)⟩
    | condOr =>
      cases hp : v.truth with
      | true => exact ⟨.ofBool true, (bind_of_ok hv).trans (by simp [hp]; rfl)⟩
      | false => exact ⟨.ofBool w.truth, (bind_of_ok hv).trans (by simpa [hp] using map_of_ok hw)⟩
    | _ => exact ⟨_, rfl⟩

theorem pureTotal_callCounter : callCounter.PureTotal where
  eval_pure := countCalls_of_isPure
  eval_neg _ t := ⟨.neg t, rfl⟩

theorem isFloating_of_countCalls (vars : VarTable) :
    ∀ (e : Expr) (n n' : Nat), countCalls e n = .ok none n' → (e.ty vars).isFloating = true
  | .lit l, n, n', h => by
    cases l <;> first | rfl | cases h
  | .paren e, n, n', h => isFloating_of_countCalls vars e n n' h
  | .unary .not e t, n, n', h => by
    obtain ⟨v, -, hv⟩ := map_eq_ok.1 h
    cases hv
  | .unary .neg e t, n, n', h => by
    obtain ⟨v, -, hv⟩ := map_eq_ok.1 h
    by_cases ht : t.isFloating = true
    · exact ht
    · simp [Number.neg, ht] at hv
  | .compare op a b, n, n', h => by
    obtain ⟨v, m, -, h⟩ := bind_eq_ok.1 h
    obtain ⟨w, m', -, h⟩ := bind_eq_ok.1 h
    cases h
  | .binary op a b t, n, n', h => by
    cases op with
    | condAnd =>
      obtain ⟨v, m, -, h⟩ := bind_eq_ok.1 h
      split at h
      · obtain ⟨w, -, hw⟩ := map_eq_ok.1 h
        cases hw
      · cases h
    | condOr =>
      obtain ⟨v, m, -, h⟩ := bind_eq_ok.1 h
      split at h
      · cases h
      · obtain ⟨w, -, hw⟩ := map_eq_ok.1 h
        cases hw
    | _ => cases h
  | .var _, _, _, h | .this, _, _, h | .super, _, _, h | .outerThis _, _, _, h
  | .instanceOf .., _, _, h | .cast .., _, _, h | .threeWay .., _, _, h | .field .., _, _, h
  | .staticField _, _, _, h | .arrayElement .., _, _, h | .arrayLength _, _, _, h
  | .call .., _, _, h | .staticCall .., _, _, h | .alloc _, _, _, h | .construct .., _, _, h
  | .new .., _, _, h | .newArray .., _, _, h | .assign .., _, _, h => nomatch h

theorem nanTyped_callCounter (vars : VarTable) : callCounter.NaNTyped vars := by
  intro e n v n' h hv
  cases v with
  | none => exact isFloating_of_countCalls vars e n n' h
  | some v => cases hv

/-- Makes a call unless one value is less than another, neither of which is a number. -/
def callUnlessLess : Block :=
  [.ite (.compare .lt (.lit (.float 0)) (.lit (.float 0))) []
    [.expr (.staticCall .static default [])]]

theorem exec_straightenBranches_callUnlessLess :
    callCounter.PureTotal ∧ callCounter.NaNTyped .empty ∧
    (straightenBranches .empty callUnlessLess).val =
      [.ite (.not (.compare .lt (.lit (.float 0)) (.lit (.float 0))))
        [.expr (.staticCall .static default [])] []] ∧
    ∃ n, exec callCounter n (straightenBranches .empty callUnlessLess).val 0 = some (.normal, 1) :=
  ⟨pureTotal_callCounter, nanTyped_callCounter .empty, by cbv,
    (exec_straightenBranches pureTotal_callCounter (nanTyped_callCounter .empty) callUnlessLess
    0 .normal 1).2
      ⟨3, by rfl⟩⟩

end Cleanup

end ByteLift
