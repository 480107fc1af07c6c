import ByteLift.Proofs.Lift.OfCode

/-!
# Negated conditions

The negation of a condition comes out the other way from every state, and evaluates the same
operands in the same order with the same effects. A three-way comparison folded to a direct one
comes out as the test does, however often it is negated. Both hold where a value that is not a
number only comes from an operand of a floating-point type.
-/

namespace ByteLift

open World hiding null

/-- The operands that the evaluation of a condition can reach, from left to right. -/
def Expr.tested : Expr → List Expr
  | lit (.boolean _) => []
  | paren e | unary .not e _ => e.tested
  | binary .condAnd a b _ | binary .condOr a b _ => a.tested ++ b.tested
  | compare _ a b => [a, b]
  | e => [e]

theorem Expr.tested_negate (vars : VarTable) (c : Expr) : (c.negate vars).tested = c.tested := by
  fun_induction Expr.negate vars c with
  | case1 | case8 => rw [Expr.not, tested]
  | case2 => rw [tested, tested]
  | case3 => rw [tested]
  | case4 => rw [boolean, tested, tested]
  | case5 a b t iha ihb | case6 a b t iha ihb => rw [tested, tested, iha, ihb]
  | case7 e ih => rw [ih, tested]

/-- The number that a comparison gives for two values, given how they are ordered. All longs are. -/
def ThreeWay.number : ThreeWay → Option Ordering → Int32
  | _, some o => orderNumber o
  | fcmpl, none | dcmpl, none => -1
  | fcmpg, none | dcmpg, none => 1
  | lcmp, none => 0

/-- What is done in the state after a test that came out in one way. -/
def whenTested {ε σ α : Type} (b : Bool) (f : σ → List α) : EStateM.Result ε σ Bool → List α
  | .ok p s => if p = b then f s else []
  | .error _ _ => []

section

variable {ε σ α β : Type} {x y : EStateM ε σ α} {s : σ}

theorem bind_congr_at (h : x s = y s) {f : α → EStateM ε σ β} : (x >>= f) s = (y >>= f) s := by
  show EStateM.bind _ _ _ = EStateM.bind _ _ _
  rw [EStateM.bind, EStateM.bind, h]

theorem map_congr_at (h : x s = y s) {f : α → β} : (f <$> x) s = (f <$> y) s := by
  show EStateM.map _ _ _ = EStateM.map _ _ _
  rw [EStateM.map, EStateM.map, h]

end

namespace Semantics

variable {σ ν : Type} (S : Semantics σ ν)

/-- The operands that a condition evaluates from a state, in the order in which it does. -/
def consults : Expr → σ → List Expr
  | .lit (.boolean _), _ => []
  | .paren e, s | .unary .not e _, s => consults e s
  | .binary .condAnd a b _, s => consults a s ++ whenTested true (consults b) (S.test a s)
  | .binary .condOr a b _, s => consults a s ++ whenTested false (consults b) (S.test a s)
  | .compare _ a b, s =>
    match S.eval a s with
    | .ok _ _ => [a, b]
    | .error _ _ => [a]
  | e, _ => [e]

/-- Compares two values in three ways and tests the number against zero. -/
def testThreeWay (kind : ThreeWay) (op : CompareOp) (a b : Expr) : EStateM ν σ Bool := do
  let v ← S.eval a
  let w ← S.eval b
  pure (op.holds (Ord.compare (kind.number (S.order v w)) 0))

/-- In some state of `ok`, an expression has a value that is not a number. -/
def GivesNaN (ok : σ → Prop) (e : Expr) : Prop :=
  ∃ s v s', ok s ∧ S.eval e s = .ok v s' ∧ S.isNaN v = true

/-- Some expressions keep to the states `ok`, and only those of a floating-point type give values
there that are not numbers. -/
structure NaNTypedIn (vars : VarTable) (ok : σ → Prop) (es : List Expr) : Prop where
  keeps : ∀ e ∈ es, ∀ s v s', ok s → S.eval e s = .ok v s' → ok s'
  floating : ∀ e ∈ es, S.GivesNaN ok e → (e.ty vars).isFloating = true

variable {S} {vars : VarTable} {ok : σ → Prop}

section

variable {es es' : List Expr} (h : S.NaNTypedIn vars ok (es ++ es'))
include h

theorem NaNTypedIn.left : S.NaNTypedIn vars ok es :=
  ⟨fun e he => h.keeps e (List.mem_append_left _ he),
    fun e he => h.floating e (List.mem_append_left _ he)⟩

theorem NaNTypedIn.right : S.NaNTypedIn vars ok es' :=
  ⟨fun e he => h.keeps e (List.mem_append_right _ he),
    fun e he => h.floating e (List.mem_append_right _ he)⟩

end

/-! ## The states that a condition meets -/

variable {c : Expr} {s : σ}

/-- A condition keeps to the states that its operands keep to. -/
theorem NaNTypedIn.keeps_test (h : S.NaNTypedIn vars ok c.tested) {s' : σ} {p : Bool} (hs : ok s)
    (hc : S.test c s = .ok p s') : ok s' := by
  fun_induction Expr.tested c generalizing s p s' with
  | case1 b =>
    rw [test_boolean] at hc
    exact (pure_eq_ok.1 hc).2 ▸ hs
  | case2 e ih =>
    rw [test_paren] at hc
    exact ih h hs hc
  | case3 e t ih =>
    rw [test_not] at hc
    obtain ⟨q, hq, _⟩ := map_eq_ok.1 hc
    exact ih h hs hq
  | case4 a b t iha ihb =>
    rw [test_condAnd] at hc
    obtain ⟨q, s₁, ha, hb⟩ := bind_eq_ok.1 hc
    have hs₁ := iha h.left hs ha
    cases q with
    | true => exact ihb h.right hs₁ hb
    | false => exact (pure_eq_ok.1 hb).2 ▸ hs₁
  | case5 a b t iha ihb =>
    rw [test_condOr] at hc
    obtain ⟨q, s₁, ha, hb⟩ := bind_eq_ok.1 hc
    have hs₁ := iha h.left hs ha
    cases q with
    | true => exact (pure_eq_ok.1 hb).2 ▸ hs₁
    | false => exact ihb h.right hs₁ hb
  | case6 op a b =>
    rw [test_compare] at hc
    obtain ⟨v, s₁, ha, hc⟩ := bind_eq_ok.1 hc
    obtain ⟨w, s₂, hb, hc⟩ := bind_eq_ok.1 hc
    have hs₂ := h.keeps b (by simp) s₁ w s₂ (h.keeps a (by simp) s v s₁ hs ha) hb
    exact (pure_eq_ok.1 hc).2 ▸ hs₂
  | case7 e =>
    obtain ⟨v, hv, _⟩ := map_eq_ok.1 hc
    exact h.keeps e (by simp) s v s' hs hv

variable {a b : Expr}

/-- Two comparisons of the same operands agree if they agree on the orders that the operands can
have. -/
theorem NaNTypedIn.bind_operands (h : S.NaNTypedIn vars ok [a, b]) {f g : Option Ordering → Bool}
    (hsome : ∀ o, f (some o) = g (some o))
    (hnone : S.GivesNaN ok a ∨ S.GivesNaN ok b → f none = g none) (hs : ok s) :
    (S.eval a >>= fun v => S.eval b >>= fun w => pure (f (S.order v w)) : EStateM ν σ Bool) s =
      (S.eval a >>= fun v => S.eval b >>= fun w =>
        pure (g (S.order v w)) : EStateM ν σ Bool) s := by
  refine bind_congr_of_ok fun v s₁ ha => bind_congr_of_ok fun w s₂ hb => ?_
  cases hord : S.order v w with
  | some o => rw [hsome]
  | none =>
    have hs₁ := h.keeps a (by simp) s v s₁ hs ha
    rw [hnone ((S.isNaN_of_unordered v w hord).imp (⟨s, v, s₁, hs, ha, ·⟩)
      (⟨s₁, w, s₂, hs₁, hb, ·⟩))]

/-! ## One negation -/

section

variable (h : S.NaNTypedIn vars ok c.tested)
include h

/-- The negation of a condition has the effects of the condition and comes out the other way. -/
theorem NaNTypedIn.test_negate (hs : ok s) :
    S.test (c.negate vars) s = (Bool.not <$> S.test c) s := by
  fun_induction Expr.negate vars c generalizing s with
  | case1 | case8 => rw [Expr.not, test_not]
  | case2 op a b hfloat =>
    rw [Bool.or_eq_true] at hfloat
    rw [Expr.tested] at h
    simp only [test_compare, map_bind, map_pure]
    exact h.bind_operands (f := op.negate.decides) (g := fun o => !op.decides o)
      (fun o => op.holds_negate o)
      (fun hnan => absurd (hnan.imp (h.floating a (by simp)) (h.floating b (by simp))) hfloat) hs
  | case3 e t => simp [test_not]
  | case4 b => simp [Expr.boolean, test_boolean]
  | case5 a b t iha ihb =>
    rw [test_condOr, test_condAnd, bind_congr_at (iha h.left hs), bind_map_left, map_bind]
    refine bind_congr_of_ok fun p s₁ ha => ?_
    cases p with
    | true => exact ihb h.right (h.left.keeps_test hs ha)
    | false => rfl
  | case6 a b t iha ihb =>
    rw [test_condOr, test_condAnd, bind_congr_at (iha h.left hs), bind_map_left, map_bind]
    refine bind_congr_of_ok fun p s₁ ha => ?_
    cases p with
    | true => rfl
    | false => exact ihb h.right (h.left.keeps_test hs ha)
  | case7 e ih =>
    rw [test_paren]
    exact ih h hs

/-- What is done after a test is done after its negation, if it came out the other way. -/
theorem NaNTypedIn.whenTested_negate {α : Type} (b : Bool) {f g : σ → List α}
    (hfg : ∀ s, ok s → f s = g s)
    (hs : ok s) : whenTested (!b) f (S.test (c.negate vars) s) = whenTested b g (S.test c s) := by
  rw [h.test_negate hs]
  show whenTested (!b) f (EStateM.map _ _ _) = _
  unfold EStateM.map
  cases hc : S.test c s with
  | error v s' => rfl
  | ok p s' => cases p <;> cases b <;> simp [whenTested, hfg s' (h.keeps_test hs hc)]

/-- The negation of a condition evaluates the operands of the condition in the same order, and
leaves out the same. -/
theorem NaNTypedIn.consults_negate (hs : ok s) : S.consults (c.negate vars) s = S.consults c s := by
  fun_induction Expr.negate vars c generalizing s with
  | case1 | case8 => rw [Expr.not, consults]
  | case2 => rw [consults, consults]
  | case3 => rw [consults]
  | case4 => rw [Expr.boolean, consults, consults]
  | case5 a b t iha ihb =>
    rw [consults, consults, iha h.left hs]
    exact congrArg _ (h.left.whenTested_negate true (fun s₁ => ihb h.right) hs)
  | case6 a b t iha ihb =>
    rw [consults, consults, iha h.left hs]
    exact congrArg _ (h.left.whenTested_negate false (fun s₁ => ihb h.right) hs)
  | case7 e ih =>
    rw [consults]
    exact ih h hs

/-! ## Many negations -/

theorem NaNTypedIn.negate : S.NaNTypedIn vars ok (c.negate vars).tested := by
  rwa [Expr.tested_negate]

/-- Each further negation turns a condition around once more. -/
theorem NaNTypedIn.test_iterate_negate (n : Nat) (hs : ok s) :
    S.test ((Expr.negate vars)^[n] c) s = (Bool.not^[n] <$> S.test c) s := by
  induction n generalizing c with
  | zero => rw [Function.iterate_zero, Function.iterate_zero, id_map, id_eq]
  | succ n ih =>
    rw [Function.iterate_succ_apply, Function.iterate_succ, ih h.negate, comp_map]
    exact map_congr_at (h.test_negate hs)

end

/-! ## Folded comparisons -/

/-- A folded comparison comes out as the test of the three-way comparison. The instruction that
compares longs takes nothing but numbers. -/
theorem NaNTypedIn.test_foldCompare {kind : ThreeWay} (h : S.NaNTypedIn vars ok [a, b])
    (hlong : kind = .lcmp → ¬S.GivesNaN ok a ∧ ¬S.GivesNaN ok b) (op : CompareOp) (hs : ok s) :
    S.test (.foldCompare kind op a b) s = S.testThreeWay kind op a b s := by
  have hnone (hnan : S.GivesNaN ok a ∨ S.GivesNaN ok b) :
      ∃ o, kind.onNaN = some o ∧ o ≠ .eq ∧ kind.number none = orderNumber o := by
    cases kind with
    | lcmp => exact (hnan.elim (hlong rfl).1 (hlong rfl).2).elim
    | fcmpl | dcmpl => exact ⟨.lt, rfl, by decide, rfl⟩
    | fcmpg | dcmpg => exact ⟨.gt, rfl, by decide, rfl⟩
  obtain ⟨heq, hexact⟩ | ⟨heq, o, ho, hexact⟩ := Expr.foldCompare_cases kind op a b
  · rw [heq, test_compare]
    refine h.bind_operands (f := op.decides)
      (g := fun o => op.holds (compare (kind.number o) 0)) (fun o => ?_)
      (fun hnan => ?_) hs
    · exact congrArg op.holds (compare_orderNumber o).symm
    · obtain ⟨o, ho, _, hnumber⟩ := hnone hnan
      rw [hnumber, compare_orderNumber]
      exact (hexact o ho).symm
  · rw [heq, Expr.not, test_not, test_compare]
    simp only [map_bind, map_pure]
    refine h.bind_operands (f := fun o => !op.negate.decides o)
      (g := fun o => op.holds (compare (kind.number o) 0)) (fun o => ?_) (fun hnan => ?_) hs
    · rw [CompareOp.decides, CompareOp.holds_negate, Bool.not_not]
      exact congrArg op.holds (compare_orderNumber o).symm
    · -- Only `<`, `>=`, `>` and `<=` are left; none of them holds of a value that is not a number.
      obtain ⟨o', ho', hne, hnumber⟩ := hnone hnan
      cases ho.symm.trans ho'
      rw [hnumber, compare_orderNumber]
      cases op <;> cases o <;> first | rfl | exact absurd rfl hexact | exact absurd rfl hne

theorem tested_foldCompare (kind : ThreeWay) (op : CompareOp) (a b : Expr) :
    (Expr.foldCompare kind op a b).tested = [a, b] := by
  obtain ⟨heq, _⟩ | ⟨heq, _⟩ :=
    Expr.foldCompare_cases kind op a b <;> simp [heq, Expr.not, Expr.tested]

/-- Negated conditions decide as they should. The negation of a condition comes out the other way
from every state, with the same effects, by evaluating the same operands in the same order, and two
negations cancel out. A folded comparison that is negated any number of times comes out as the test
against zero does, negated as often. -/
theorem test_negations (S : Semantics σ ν) (vars : VarTable) (ok : σ → Prop) :
    (∀ c, S.NaNTypedIn vars ok c.tested → ∀ s, ok s →
      S.test (c.negate vars) s = (Bool.not <$> S.test c) s ∧
        S.consults (c.negate vars) s = S.consults c s ∧
        S.test ((c.negate vars).negate vars) s = S.test c s ∧
        S.consults ((c.negate vars).negate vars) s = S.consults c s) ∧
      ∀ kind op a b n, S.NaNTypedIn vars ok [a, b] →
        (kind = .lcmp → ¬S.GivesNaN ok a ∧ ¬S.GivesNaN ok b) → ∀ s, ok s →
        S.test ((Expr.negate vars)^[n] (.foldCompare kind op a b)) s =
          (Bool.not^[n] <$> S.testThreeWay kind op a b) s := by
  constructor
  · intro c h s hs
    refine ⟨h.test_negate hs, h.consults_negate hs, ?_, ?_⟩
    · rw [h.negate.test_negate hs, map_congr_at (h.test_negate hs), ← comp_map]
      simp [Function.comp_def]
    · rw [h.negate.consults_negate hs, h.consults_negate hs]
  · intro kind op a b n h hlong s hs
    rw [NaNTypedIn.test_iterate_negate (by rwa [tested_foldCompare]) n hs]
    exact map_congr_at (h.test_foldCompare hlong op hs)

end Semantics

/-! ## The number that the instruction gives -/

section

variable {ρ η : Type} [DecidableEq ρ] {w : World ρ η}

variable {kind : ThreeWay}

/-- A world compares values of the right kind in three ways as the instruction does. -/
theorem World.threeWay_eq_number {u v : Value ρ} (hu : u.kind = kind.kind)
    (hv : v.kind = kind.kind) : w.threeWay kind u v = some (.int (kind.number (w.order u v))) := by
  rw [threeWay, if_pos (by simp [hu, hv])]
  cases hord : w.order u v with
  | some o => rfl
  | none => cases kind <;> rfl

theorem World.testThreeWay_eq_test {a b : Expr} {t : Store ρ η} (op : CompareOp)
    (h : ∀ u t₁ v t', w.eval a t = .ok u t₁ → w.eval b t₁ = .ok v t' → u.kind = kind.kind ∧
      v.kind = kind.kind) :
    w.semantics.testThreeWay kind op a b t =
      w.semantics.test (.compare op (.threeWay kind a b) (.int 0)) t := by
  rw [Semantics.testThreeWay, Semantics.test_compare]
  show _ = (w.eval (.threeWay kind a b) >>= fun u => w.eval (.int 0) >>= fun v => _) t
  rw [World.eval, bind_assoc]
  refine bind_congr_of_ok fun u t₁ ha => ?_
  rw [bind_assoc]
  refine bind_congr_of_ok fun v t' hb => ?_
  obtain ⟨hu, hv⟩ := h u t₁ v t' ha hb
  rw [threeWay_eq_number hu hv, give, pure_bind, bind_of_ok (w.eval_int 0 t')]
  rfl

end

/-- Whole numbers, and floating-point values that are ordered by their bits unless one of them is
not a number. -/
def floatsByBits : World Unit Unit :=
  { wholeNumbers with
    orderFloats := fun a b =>
      if 0x7f800000 < a &&& 0x7fffffff ∨
        0x7f800000 < b &&& 0x7fffffff then none else some (compare a b)
    orderFloats_none := fun a b h => by
      simp only [ite_eq_left_iff, reduceCtorEq, imp_false, Decidable.not_not, or_self] at h ⊢
      exact h }

/-- The variables of a method of a `float` and an `int`. -/
def floatAndInt : VarTable :=
  (VarTable.empty.push
    { ty := .float, name := "x", synthetic := false, parameter := true,
      isFinal := false, slot := some 0 }).push
    { ty := .int, name := "k", synthetic := false, parameter := true,
      isFinal := false, slot := some 1 }

/-- Each of the two variables holds a value of its type. -/
def HoldsFloatAndInt (s : Store Unit Unit) : Prop :=
  ∃ x k, s.vars ⟨0⟩ = .float x ∧ s.vars ⟨1⟩ = .int k

/-- Here `x` is not a number. -/
def noNumberAndThree : Store Unit Unit :=
  ⟨fun v => if v = ⟨0⟩ then .float 0x7fc00000 else .int 3, ⟨(), []⟩⟩

/-- The literal `1.0f`. -/
def oneFloat : Expr := .lit (.float 0x3f800000)

/-- `!(x < 1.0f) || k == 3` -/
def notLessOrThree : Expr :=
  .binary .condOr (.not (.compare .lt (.var ⟨0⟩) oneFloat))
    (.compare .eq (.var ⟨1⟩) (.int 3)) .boolean

theorem nanTypedIn_floatAndInt :
    floatsByBits.semantics.NaNTypedIn floatAndInt HoldsFloatAndInt
      [.var ⟨0⟩, oneFloat, .var ⟨1⟩, .int 3] := by
  refine ⟨fun e he s v s' hs h => ?_, fun e he hnan => ?_⟩
  · simp only [List.mem_cons, List.not_mem_nil, or_false] at he
    rcases he with rfl | rfl | rfl | rfl
    all_goals
      simp only [semantics, oneFloat, Expr.int, World.eval] at h
      cases h
      exact hs
  · simp only [List.mem_cons, List.not_mem_nil, or_false] at he
    obtain ⟨s, v, s', ⟨x, k, _, hk⟩, h, hnan⟩ := hnan
    rcases he with rfl | rfl | rfl | rfl
    · rfl
    · rfl
    · simp only [semantics, World.eval] at h
      cases h
      simp [semantics, isNaN, order, hk] at hnan
    · simp only [semantics, Expr.int, World.eval] at h
      cases h
      simp [semantics, isNaN, order, literal] at hnan

/-- The negation of `!(x < 1.0f) || k == 3` is `x < 1.0f && k != 3`. Where `x` is not a number, both
look at `x < 1.0f` only. The folded test that `x` is not less than `1.0f`, a `!` of a comparison,
comes out rightly after three negations. -/
theorem test_negations_notLessOrThree :
    floatsByBits.semantics.GivesNaN HoldsFloatAndInt (.var ⟨0⟩) ∧
      floatsByBits.semantics.NaNTypedIn floatAndInt HoldsFloatAndInt notLessOrThree.tested ∧
      floatsByBits.semantics.test (notLessOrThree.negate floatAndInt) noNumberAndThree =
        (Bool.not <$> floatsByBits.semantics.test notLessOrThree) noNumberAndThree ∧
      floatsByBits.semantics.consults (notLessOrThree.negate floatAndInt) noNumberAndThree =
        floatsByBits.semantics.consults notLessOrThree noNumberAndThree ∧
      floatsByBits.semantics.test ((Expr.negate floatAndInt)^[3]
        (.foldCompare .fcmpg .ge (.var ⟨0⟩) oneFloat))
          noNumberAndThree =
        (Bool.not^[3] <$> floatsByBits.semantics.test
          (.compare .ge (.threeWay .fcmpg (.var ⟨0⟩) oneFloat) (.int 0))) noNumberAndThree := by
  have hok : HoldsFloatAndInt noNumberAndThree := ⟨_, _, rfl, rfl⟩
  have htested : notLessOrThree.tested = [.var ⟨0⟩, oneFloat, .var ⟨1⟩, .int 3] := by
    simp [notLessOrThree, Expr.not, Expr.tested]
  have htyped := htested ▸ nanTypedIn_floatAndInt
  have hcond := (Semantics.test_negations _ _ _).1 notLessOrThree htyped noNumberAndThree hok
  have hfold := (Semantics.test_negations _ floatAndInt _).2 .fcmpg .ge (.var ⟨0⟩) oneFloat 3
    nanTypedIn_floatAndInt.left (fun h => by cases h) noNumberAndThree hok
  refine ⟨⟨noNumberAndThree, _, _, hok, rfl, by decide⟩, htyped, hcond.1, hcond.2.1,
    hfold.trans (map_congr_at ?_)⟩
  refine World.testThreeWay_eq_test .ge fun u t₁ v t' hu hv => ?_
  simp only [oneFloat, World.eval] at hu hv
  cases hu
  cases hv
  exact ⟨rfl, rfl⟩

end ByteLift
