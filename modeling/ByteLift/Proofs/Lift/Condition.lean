import ByteLift.Proofs.Lift.Operand

/-!
# Conditions of branches

The condition that a branch is lifted to comes out as the test does. A three-way comparison tested
against zero becomes a direct one; where that comes out otherwise on operands that are not numbers,
the opposite one is negated.
-/

namespace ByteLift

open Expr

theorem compare_orderNumber (o : Ordering) : compare (orderNumber o) 0 = o := by
  cases o <;> rfl

/-- The direct comparison is chosen if it comes out rightly for values that are not numbers. -/
theorem Expr.foldCompare_cases (kind : ThreeWay) (op : CompareOp) (a b : Expr) :
    foldCompare kind op a b = .compare op a b ∧
        (∀ o, kind.onNaN = some o → op.holds o = op.holdsOnNaN) ∨
      foldCompare kind op a b = (Expr.compare op.negate a b).not ∧
        ∃ o, kind.onNaN = some o ∧ op.holds o ≠ op.holdsOnNaN := by
  unfold foldCompare
  cases hnan : kind.onNaN with
  | none => exact .inl ⟨rfl, fun _ h => by cases h⟩
  | some o =>
    by_cases hexact : op.holds o = op.holdsOnNaN
    · exact .inl ⟨by simp [hexact], fun _ h => by cases h; exact hexact⟩
    · exact .inr ⟨by simp [hexact], o, rfl, hexact⟩

section

variable {ρ η : Type} [DecidableEq ρ] {w : World ρ η} {a b e : Expr} {op : CompareOp}
  {t t₁ t' : Store ρ η} {u v : Value ρ} {n : Nat}

theorem World.eval_compare (ha : w.eval a t = .ok u t₁) (hb : w.eval b t₁ = .ok v t') :
    w.eval (.compare op a b) t = .ok (.ofBool (op.decides (w.order u v))) t' := by
  rw [World.eval, bind_of_ok ha, bind_of_ok hb]
  rfl

theorem World.eval_not (h : w.eval e t = .ok v t') :
    w.eval e.not t = .ok (.ofBool (!v.truth)) t' := by
  rw [Expr.not, World.eval, map_of_ok h]

theorem World.eval_int (w : World ρ η) (k : Int32) (t : Store ρ η) :
    w.eval (.int k) t = .ok (.int k) t := by
  simp only [Expr.int, World.eval]
  rfl

theorem World.eval_null (w : World ρ η) (t : Store ρ η) : w.eval .null t = .ok (.ref w.null) t := by
  simp only [Expr.null, World.eval]
  rfl

variable {kind : ThreeWay} {k : Int32}

/-- All longs are ordered, and what a comparison of others gives for a value that is not a number
stands for an order other than equality. -/
theorem World.onNaN_of_unordered (hu : u.kind = kind.kind) (hv : v.kind = kind.kind)
    (h : w.order u v = none) : kind.onNaN = some .lt ∨ kind.onNaN = some .gt := by
  cases kind with
  | lcmp =>
    cases u <;> cases hu
    cases v <;> cases hv
    cases h
  | fcmpl | dcmpl => exact .inl rfl
  | fcmpg | dcmpg => exact .inr rfl

/-- The direct comparison comes out as the test of the three-way comparison against zero. -/
theorem World.eval_foldCompare (ha : w.eval a t = .ok u t₁) (hb : w.eval b t₁ = .ok v t')
    (h : w.threeWay kind u v = some (.int k)) :
    ∃ c, w.eval (foldCompare kind op a b) t = .ok c t' ∧ c.truth = op.holds (compare k 0) := by
  rw [threeWay] at h
  split at h
  · rename_i hkinds
    simp only [Bool.and_eq_true, decide_eq_true_eq] at hkinds
    cases h
    rw [compare_orderNumber]
    obtain ⟨heq, hexact⟩ | ⟨heq, o, ho, hexact⟩ := foldCompare_cases kind op a b
    · refine ⟨_, heq ▸ eval_compare ha hb, ?_⟩
      rw [Value.truth_ofBool]
      cases hord : w.order u v with
      | some o => rfl
      | none =>
        obtain hnan | hnan := onNaN_of_unordered hkinds.1 hkinds.2 hord <;>
          · rw [hnan]
            exact (hexact _ hnan).symm
    · refine ⟨_, heq ▸ eval_not (eval_compare ha hb), ?_⟩
      rw [Value.truth_ofBool, Value.truth_ofBool]
      cases hord : w.order u v with
      | some o => simp [CompareOp.decides, CompareOp.holds_negate]
      | none =>
        -- Only `<`, `>=`, `>` and `<=` are left; none of them holds of a value that is not a
        -- number.
        obtain hnan | hnan := onNaN_of_unordered hkinds.1 hkinds.2 hord <;>
          · rw [hnan] at ho
            cases ho
            rw [hnan]
            cases op <;> first | rfl | exact absurd rfl hexact
  · cases h

/-! ## Tests against zero -/

theorem Expr.negate_of_isOperand (vars : VarTable) (he : e.isOperand = true) :
    e.negate vars = e.not := by
  cases e with
  | lit l => cases l <;> first | rfl | cases he
  | unary op _ _ => cases op <;> first | rfl | cases he
  | binary op _ _ _ => cases op <;> first | rfl | cases he
  | compare | paren => cases he
  | _ => rfl

/-- The forms of the condition that an entry is tested by. -/
theorem Lift.zeroCondition_cases (env : Env) (vars : VarTable) (op : CompareOp)
    (he : e.isOperand = true) :
    (∃ kind a b, e = .threeWay kind a b ∧ zeroCondition env vars op e = foldCompare kind op a b) ∨
      zeroCondition env vars op e = .compare op e (.int 0) ∨
      (op = .eq ∧ zeroCondition env vars op e = e.not) ∨
      (op = .ne ∧ zeroCondition env vars op e = e) := by
  unfold zeroCondition
  split
  · exact .inl ⟨_, _, _, rfl, rfl⟩
  · refine .inr ?_
    split
    · cases op with
      | eq => exact .inr (.inl ⟨rfl, negate_of_isOperand vars he⟩)
      | ne => exact .inr (.inr ⟨rfl, rfl⟩)
      | _ => exact .inl rfl
    · exact .inl rfl

/-- The condition comes out as the test does. -/
theorem World.eval_zeroCondition (env : Env) (vars : VarTable) (he : e.isOperand = true)
    (h : w.eval e t = .ok (.int k) t') :
    ∃ c, w.eval (Lift.zeroCondition env vars op e) t = .ok c t' ∧
    c.truth = op.holds (compare k 0) := by
  obtain ⟨kind, a, b, rfl, heq⟩ | heq | ⟨rfl, heq⟩ | ⟨rfl, heq⟩ :=
    Lift.zeroCondition_cases env vars op he
  · rw [World.eval] at h
    obtain ⟨u, t₁, ha, h⟩ := bind_eq_ok.1 h
    obtain ⟨v, t₂, hb, h⟩ := bind_eq_ok.1 h
    cases hthree : w.threeWay kind u v with
    | none =>
      rw [hthree] at h
      cases h
    | some x =>
      rw [hthree] at h
      obtain ⟨rfl, rfl⟩ := pure_eq_ok.1 h
      rw [heq]
      exact eval_foldCompare ha hb hthree
  · exact ⟨_, heq ▸ eval_compare h (w.eval_int 0 _), by rw [Value.truth_ofBool]; rfl⟩
  · refine ⟨_, heq ▸ eval_not h, ?_⟩
    rw [Value.truth_ofBool, Value.truth, CompareOp.holds, Bool.eq_iff_iff]
    simp
  · rw [heq]
    refine ⟨_, h, ?_⟩
    rw [Value.truth, CompareOp.holds, Bool.eq_iff_iff]
    simp

theorem Expr.Known.compare (ha : a.Known n) (hb : b.Known n) : (Expr.compare op a b).Known n := by
  refine ⟨by rw [isPlain, ha.plain, hb.plain]; rfl, fun x hx => ?_⟩
  rw [usesAs, List.mem_append] at hx
  exact hx.elim (ha.vars x) (hb.vars x)

theorem Expr.Known.not (h : e.Known n) : e.not.Known n :=
  ⟨by rw [Expr.not, isPlain, h.plain], fun x hx => h.vars x (by rwa [Expr.not, usesAs] at hx)⟩

theorem Lift.known_zeroCondition (env : Env) (vars : VarTable) (op : CompareOp) (he : e.Entry n) :
    (zeroCondition env vars op e).Known n := by
  have hzero : (Expr.int 0).Known n := ⟨by simp [Expr.int, isPlain], by simp [Expr.int, usesAs]⟩
  obtain ⟨kind, a, b, rfl, heq⟩ | heq | ⟨rfl, heq⟩ | ⟨rfl, heq⟩ :=
    zeroCondition_cases env vars op he.operand
  · have hplain := he.plain
    rw [isPlain, Bool.and_eq_true] at hplain
    have ha : a.Known n :=
      ⟨hplain.1, fun x hx => he.vars x (by rw [usesAs]; exact List.mem_append_left _ hx)⟩
    have hb : b.Known n :=
      ⟨hplain.2, fun x hx => he.vars x (by rw [usesAs]; exact List.mem_append_right _ hx)⟩
    rw [heq]
    obtain ⟨heq, _⟩ | ⟨heq, _⟩ := foldCompare_cases kind op a b
    · exact heq ▸ ha.compare hb
    · exact heq ▸ (ha.compare hb).not
  · exact heq ▸ he.toKnown.compare hzero
  · exact heq ▸ he.toKnown.not
  · rw [heq]
    exact he.toKnown

end

end ByteLift
