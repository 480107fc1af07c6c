import ByteLift.Proofs.Semantics.Interpretation
import ByteLift.Proofs.Variables.Replace

/-!
# Parts of expressions

A variable is read. Of `&&` and `||` the first operand decides about the second. Every other
expression is *strict*: its parts are evaluated from left to right, and what it then does depends on
their values alone. So what holds of expressions can be shown in three cases.
-/

namespace ByteLift

open Expr

variable {e t : Expr}

namespace Expr

/-- What is evaluated before an expression itself is, from left to right. -/
def parts : Expr → List Expr
  | assign (var _) e => [e]
  | assign t e => t.children ++ [e]
  | e => e.children

/-- Expressions that first evaluate all their parts, and then do something. -/
def isStrict : Expr → Bool
  | var _ | binary .condAnd .. | binary .condOr .. => false
  | _ => true

/-- The variable that an expression assigns itself. -/
def assigned? : Expr → Option Var
  | assign (var v) _ => some v
  | _ => none

variable {d : Expr}

theorem ne_var_of_isStrict (he : e.isStrict = true) (v : Var) : e ≠ var v := by
  rintro rfl
  cases he

theorem parts_assign (e : Expr) (ht : ∀ v, t ≠ var v) : (assign t e).parts = t.children ++ [e] := by
  cases t with
  | var v => exact absurd rfl (ht v)
  | _ => rfl

theorem parts_eq_children (he : e.isAssign = false) : e.parts = e.children := by
  cases e with
  | assign => cases he
  | _ => rfl

theorem sizeOf_lt_of_mem_parts (h : d ∈ e.parts) : sizeOf d < sizeOf e := by
  unfold parts at h
  split at h
  · rw [List.mem_singleton.1 h, assign.sizeOf_spec]
    omega
  · rw [assign.sizeOf_spec]
    rcases List.mem_append.1 h with h | h
    · have := sizeOf_lt_of_mem_children h
      omega
    · rw [List.mem_singleton.1 h]
      omega
  · exact sizeOf_lt_of_mem_children h

/-- What holds of variables, of `&&` and `||` if it holds of their operands, and of strict
expressions if it holds of their parts, holds of all expressions. -/
theorem partsInduction {P : Expr → Prop} (var : ∀ v, P (.var v))
    (lazy : ∀ op a b t, (binary op a b t).isStrict = false → P a → P b → P (binary op a b t))
    (strict : ∀ e, e.isStrict = true → (∀ d ∈ e.parts, P d) → P e) (e : Expr) : P e := by
  by_cases he : e.isStrict = true
  · exact strict e he fun d hd =>
      have := sizeOf_lt_of_mem_parts hd
      partsInduction var lazy strict d
  · unfold isStrict at he
    split at he
    · exact var _
    · exact lazy _ _ _ _ rfl (partsInduction var lazy strict _) (partsInduction var lazy strict _)
    · exact lazy _ _ _ _ rfl (partsInduction var lazy strict _) (partsInduction var lazy strict _)
    · exact absurd rfl he
termination_by sizeOf e

/-! ## Uses and replacements -/

/-- What an expression does to variables is what its parts do, and the assignment that it is. -/
theorem uses_eq_parts (he : ∀ v, e ≠ var v) :
    e.uses = (e.assigned?.map Use.write).toList ++ e.parts.flatMap uses := by
  cases e with
  | var v => exact absurd rfl (he v)
  | assign t e =>
    by_cases ht : ∃ v, t = var v
    · obtain ⟨v, rfl⟩ := ht
      simp [uses, usesAs, assigned?, parts]
    · have hnot : ∀ v, t ≠ var v := fun v hv => ht ⟨v, hv⟩
      have hnone : (assign t e).assigned? = none := by
        cases t with
        | var v => exact absurd rfl (hnot v)
        | _ => rfl
      rw [parts_assign e hnot, hnone, List.flatMap_append, ← usesAs_eq_children hnot (.inr rfl)]
      simp [uses, usesAs]
  | _ => simp [uses, usesAs, assigned?, parts, children, usesList_eq_flatMap]

theorem uses_parts_subset (hd : d ∈ e.parts) : d.uses ⊆ e.uses := by
  by_cases he : ∃ v, e = var v
  · obtain ⟨v, rfl⟩ := he
    cases hd
  · rw [uses_eq_parts fun v hv => he ⟨v, hv⟩]
    exact fun u hu => List.mem_append_right _ (List.mem_flatMap.2 ⟨d, hd, hu⟩)

/-- The operation of a pure expression is pure. -/
theorem isPure_head (he : e.isPure = true) : e.head.isPure = true := by
  cases e <;> simp_all [isPure, head]

theorem isPure_of_mem_parts (he : e.isPure = true) (hd : d ∈ e.parts) : d.isPure = true := by
  have hassign : e.isAssign = false := by
    cases e with
    | assign => cases he
    | _ => rfl
  exact isPure_of_mem_children he (parts_eq_children hassign ▸ hd)

variable (f : Var → Option Expr)

/-- The target of an assignment stays the same operation. -/
theorem head_replaceAs (ht : ∀ v, t ≠ var v) :
    (t.replaceAs f true).val.head = t.head ∧ ∀ v, (t.replaceAs f true).val ≠ var v := by
  cases t with
  | var v => exact absurd rfl (ht v)
  | _ => simp [replaceAs, head]

theorem isStrict_replaceReads (he : e.isStrict = true) :
    (e.replaceReads f).val.isStrict = true := by
  cases e with
  | var v => cases he
  | binary op a b t =>
    cases op with
    | condAnd | condOr => cases he
    | _ => rfl
  | _ => rfl

/-- Replacing variables in a strict expression replaces them in its parts. -/
theorem parts_replaceReads (he : e.isStrict = true) :
    (e.replaceReads f).val.parts = e.parts.map fun d => (d.replaceReads f).val := by
  cases e with
  | var v => cases he
  | assign t e =>
    by_cases ht : ∃ v, t = var v
    · obtain ⟨v, rfl⟩ := ht
      simp [replaceReads, replaceAs, parts]
    · have hnot : ∀ v, t ≠ var v := fun v hv => ht ⟨v, hv⟩
      simp only [replaceReads, replaceAs, Tracked.val_bind, Tracked.val_pure, Bool.not_false]
      rw [parts_assign _ (head_replaceAs f hnot).2, parts_assign e hnot,
        children_replaceAs f hnot (.inr rfl)]
      simp [replaceReads]
  | _ => simp [replaceReads, replaceAs, parts, children, val_replaceList_eq_map]

end Expr

/-! ## Evaluation -/

/-- `&&` and `||` evaluate the second operand only if it decides. -/
theorem Semantics.eval_lazy {σ ν : Type} (S : Semantics σ ν) {op : BinOp}
    {a b c d : Expr} {t u : Ty}
    (h : (binary op c d u).isStrict = false) : S.eval (.binary op a b t) = (do
      let v ← S.eval a
      if S.truth v = (op == .condAnd) then (fun w => S.ofBool (S.truth w)) <$> S.eval b
      else pure (S.ofBool (S.truth v))) := by
  cases op <;> cases h <;> simp only [S.eval_condAnd, S.eval_condOr] <;> congr 1 <;> funext v <;>
    cases S.truth v <;> simp

namespace Interpretation

variable {ν η : Type} (I : Interpretation ν η)

theorem eval_lazy {op : BinOp} {a b c d : Expr} {t u : Ty}
    (h : (binary op c d u).isStrict = false) : I.eval (.binary op a b t) = (do
      let v ← I.eval a
      if I.truth v = (op == .condAnd) then (fun w => I.ofBool (I.truth w)) <$> I.eval b
      else pure (I.ofBool (I.truth v))) := I.semantics.eval_lazy h

/-- What a strict expression does with the values of its parts. -/
def finish (e : Expr) (vs : List ν) : EStateM ν (State ν η) ν :=
  match e, vs with
  | .lit (.boolean b), _ => pure (I.ofBool b)
  | .paren _, [v] => pure v
  | .unary .not _ _, [v] => pure (I.ofBool (!I.truth v))
  | .compare op _ _, [v, w] => pure (I.ofBool (op.decides (I.order v w)))
  | .assign (.var u) _, [x] => do
    modify (·.put u x)
    return x
  | .assign t _, vs => I.perform (.assign t.head .this) vs
  | e, vs => I.perform e.head vs

theorem operands_eq_evalList (t : Expr) : I.operands t = I.evalList t.children := by
  cases t <;> simp [operands, evalList, children]

theorem evalList_append (ds es : List Expr) : I.evalList (ds ++ es) = (do
      let vs ← I.evalList ds
      let ws ← I.evalList es
      pure (vs ++ ws)) := by
  induction ds with
  | nil => simp [evalList]
  | cons d ds ih => simp [evalList, ih]

theorem eval_assign (e : Expr) (ht : ∀ v, t ≠ .var v) : I.eval (.assign t e) = (do
      let vs ← I.operands t
      let x ← I.eval e
      I.perform (.assign t.head .this) (vs ++ [x])) := by
  rw [eval]
  exact ht

theorem finish_assign (e : Expr) (ht : ∀ v, t ≠ .var v) (vs : List ν) :
    I.finish (.assign t e) vs = I.perform (.assign t.head .this) vs := by
  cases t with
  | var v => exact absurd rfl (ht v)
  | _ => rfl

/-- A strict expression evaluates its parts and then does something with their values. -/
theorem eval_eq_finish (he : e.isStrict = true) : I.eval e = I.evalList e.parts >>= I.finish e := by
  cases e with
  | var v => cases he
  | assign t e =>
    by_cases ht : ∃ v, t = .var v
    · obtain ⟨v, rfl⟩ := ht
      simp [eval, parts, evalList, finish]
    · have hnot : ∀ v, t ≠ .var v := fun v hv => ht ⟨v, hv⟩
      rw [I.eval_assign e hnot, parts_assign e hnot, evalList_append, operands_eq_evalList]
      simp [evalList, I.finish_assign e hnot]
  | lit l => cases l <;> simp [eval, parts, children, evalList, finish]
  | unary op e t => cases op <;> simp [eval, parts, children, evalList, finish]
  | binary op a b t =>
    cases op with
    | condAnd | condOr => cases he
    | _ => simp [eval, parts, children, evalList, finish]
  | staticCall | new | newArray =>
    simp only [eval, parts, children]
    rfl
  | _ => simp [eval, parts, children, evalList, finish]

/-- Replacing variables does not change what an expression does with the values of its parts. -/
theorem finish_replaceReads (f : Var → Option Expr) (he : e.isStrict = true) :
    I.finish (e.replaceReads f).val = I.finish e := by
  funext vs
  cases e with
  | var v => cases he
  | assign t e =>
    by_cases ht : ∃ v, t = .var v
    · obtain ⟨v, rfl⟩ := ht
      rcases vs with _ | ⟨x, _ | _⟩ <;> rfl
    · have hnot : ∀ v, t ≠ .var v := fun v hv => ht ⟨v, hv⟩
      obtain ⟨hhead, hnot'⟩ := head_replaceAs f hnot
      simp only [replaceReads, replaceAs, Tracked.val_bind, Tracked.val_pure, Bool.not_false]
      rw [I.finish_assign _ hnot', I.finish_assign e hnot, hhead]
  | paren => rcases vs with _ | ⟨v, _ | _⟩ <;> rfl
  | unary op => cases op <;> rcases vs with _ | ⟨v, _ | _⟩ <;> rfl
  | compare => rcases vs with _ | ⟨v, _ | ⟨w, _ | _⟩⟩ <;> rfl
  | _ => rfl

end Interpretation

end ByteLift
