import ByteLift.Cleanup.Inline
import ByteLift.Proofs.Variables.Uses

/-!
# Replacing reads of variables

Replacing reads by expressions replaces each read in the list of uses by the uses of its expression,
and leaves the writes as they are.
-/

namespace ByteLift

open Stmt Expr

/-- What is done to variables in place of one use, if reads are replaced by expressions. -/
def Use.replaced (f : Var → Option Expr) : Use → List Use
  | read v => match f v with
    | some e => e.uses
    | none => [.read v]
  | write v => [.write v]

/-- Reads are replaced by what writes no variable, so the same variables are written. -/
theorem Use.write_mem_replaced {f : Var → Option Expr}
    (hf : ∀ v e, f v = some e → e.isWriteFree = true) {u : Var}
    {us : List Use} : .write u ∈ us.flatMap (Use.replaced f) ↔ .write u ∈ us := by
  rw [List.mem_flatMap]
  constructor
  · rintro ⟨x, hx, hu⟩
    cases x with
    | write w =>
      obtain rfl : u = w := by simpa [replaced] using hu
      exact hx
    | read w =>
      cases hw : f w with
      | none => simp [replaced, hw] at hu
      | some e =>
        simp only [replaced, hw] at hu
        exact absurd hu (isWriteFree_iff.1 (hf w e hw) u)
  · exact fun hu => ⟨_, hu, by simp [replaced]⟩

namespace Expr

mutual

/-- Each read is replaced by the uses of its expression. If there is nothing to replace, that is
reported, and the expression is the same. -/
theorem replaceAs_spec (f : Var → Option Expr) : ∀ (target : Bool) (e : Expr),
    (e.replaceAs f target).val.usesAs target = (e.usesAs target).flatMap (Use.replaced f) ∧
      ((e.replaceAs f target).changed = false ↔ ∀ v, .read v ∈ e.usesAs target → f v = none) ∧
      ((∀ v, .read v ∈ e.usesAs target → f v = none) → (e.replaceAs f target).val = e)
  | target, var v => by
    cases target with
    | true => simp [replaceAs, usesAs, Use.replaced]
    | false => cases h : f v <;> simp [replaceAs, usesAs, Use.replaced, h, uses]
  | target, assign a b => by
    have ha := replaceAs_spec f (!target) a
    have hb := replaceAs_spec f false b
    simp_all [replaceAs, usesAs, or_imp, forall_and]
  | _, field e _ | _, arrayLength e | _, unary _ e _ | _, cast _ e | _, instanceOf e _
  | _, paren e => by
    have he := replaceAs_spec f false e
    simp_all [replaceAs, usesAs]
  | _, arrayElement a b _ | _, binary _ a b _ | _, compare _ a b | _, threeWay _ a b => by
    have ha := replaceAs_spec f false a
    have hb := replaceAs_spec f false b
    simp_all [replaceAs, usesAs, or_imp, forall_and]
  | _, call _ r _ args | _, construct r _ args => by
    have hr := replaceAs_spec f false r
    have hargs := replaceList_spec f args
    simp_all [replaceAs, usesAs, or_imp, forall_and]
  | _, staticCall _ _ args | _, new _ args | _, newArray _ args => by
    have hargs := replaceList_spec f args
    simp_all [replaceAs, usesAs]
  | _, lit _ | _, this | _, super | _, outerThis _ | _, staticField _ | _, alloc _ => by
    simp [replaceAs, usesAs]

theorem replaceList_spec (f : Var → Option Expr) : ∀ es : List Expr,
    usesList (replaceList f es).val = (usesList es).flatMap (Use.replaced f) ∧
      ((replaceList f es).changed = false ↔ ∀ v, .read v ∈ usesList es → f v = none) ∧
      ((∀ v, .read v ∈ usesList es → f v = none) → (replaceList f es).val = es)
  | [] => by simp [replaceList, usesList]
  | e :: es => by
    have he := replaceAs_spec f false e
    have hes := replaceList_spec f es
    simp_all [replaceList, usesList, or_imp, forall_and]

end

theorem uses_replaceReads (f : Var → Option Expr) (e : Expr) :
    (e.replaceReads f).val.uses = e.uses.flatMap (Use.replaced f) := (replaceAs_spec f false e).1

variable {f : Var → Option Expr} {e : Expr}

theorem write_mem_replaceReads (hf : ∀ v e, f v = some e → e.isWriteFree = true) {u : Var} :
    .write u ∈ (e.replaceReads f).val.uses ↔ .write u ∈ e.uses := by
  rw [uses_replaceReads, Use.write_mem_replaced hf]

theorem isWriteFree_replaceReads (hf : ∀ v e, f v = some e → e.isWriteFree = true)
    (he : e.isWriteFree = true) : (e.replaceReads f).val.isWriteFree = true :=
  isWriteFree_iff.2 fun v hv => isWriteFree_iff.1 he v ((write_mem_replaceReads hf).1 hv)

theorem changed_replaceReads :
    (e.replaceReads f).changed = false ↔ ∀ v, .read v ∈ e.uses → f v = none :=
  (replaceAs_spec f false e).2.1

theorem val_replaceList_eq_map (f : Var → Option Expr) (es : List Expr) :
    (replaceList f es).val = es.map fun e => (e.replaceReads f).val := by
  induction es with
  | nil => rfl
  | cons e es ih => simp [replaceList, replaceReads, ih]

theorem children_replaceAs (f : Var → Option Expr) {target : Bool} (hvar : ∀ v, e ≠ var v)
    (h : e.isAssign = false ∨ target = true) :
    (e.replaceAs f target).val.children = e.children.map fun e => (e.replaceReads f).val := by
  cases e with
  | var v => exact absurd rfl (hvar v)
  | _ => simp_all [replaceAs, children, isAssign, replaceReads, val_replaceList_eq_map]

theorem isAssign_replaceAs (f : Var → Option Expr) (target : Bool) (hvar : ∀ v, e ≠ var v) :
    (e.replaceAs f target).val.isAssign = e.isAssign := by
  cases e with
  | var v => exact absurd rfl (hvar v)
  | _ => rfl

/-- Replacing variables that an expression does not read changes nothing. -/
theorem replaceReads_eq_pure (h : ∀ v, .read v ∈ e.uses → f v = none) : e.replaceReads f = pure e :=
  Tracked.ext ((replaceAs_spec f false e).2.2 h) (changed_replaceReads.2 h)

end Expr

namespace Cleanup

variable (f : Var → Option Expr) (s : Stmt)

theorem ownUses_replaceStmtReads :
    (replaceStmtReads f s).val.ownUses = s.ownUses.flatMap (Use.replaced f) := by
  cases s with
  | declare _ init | ret init | goto _ init =>
    cases init <;> simp [replaceStmtReads, ownUses, exprs, uses_replaceReads, Use.replaced]
  | _ => simp [replaceStmtReads, ownUses, exprs, uses_replaceReads]

theorem blocks_replaceStmtReads : (replaceStmtReads f s).val.blocks = s.blocks := by
  unfold replaceStmtReads
  split <;> rfl

theorem declared?_replaceStmtReads : (replaceStmtReads f s).val.declared? = s.declared? := by
  unfold replaceStmtReads
  split <;> rfl

theorem exprs_replaceStmtReads :
    (replaceStmtReads f s).val.exprs = s.exprs.map fun e => (e.replaceReads f).val := by
  cases s with
  | declare _ init | ret init | goto _ init => cases init <;> rfl
  | _ => rfl

theorem replaceStmtReads_set (v : Var) (e : Expr) :
    (replaceStmtReads f (.set v e)).val = .set v (e.replaceReads f).val := by
  simp [replaceStmtReads, Stmt.set, replaceReads, replaceAs]

variable {f s}

theorem changed_replaceStmtReads :
    (replaceStmtReads f s).changed = false ↔ ∀ v, .read v ∈ s.ownUses → f v = none := by
  cases s with
  | declare _ init | ret init | goto _ init =>
    cases init <;> simp [replaceStmtReads, ownUses, exprs, changed_replaceReads]
  | _ => simp [replaceStmtReads, ownUses, exprs, changed_replaceReads]

theorem replaceStmtReads_eq_pure (h : ∀ v, .read v ∈ s.ownUses → f v = none) :
    replaceStmtReads f s = pure s := by
  cases s with
  | expr e | throw e | ite e | loop _ e =>
    have he : e.replaceReads f = pure e := replaceReads_eq_pure fun v hv =>
      h v (mem_ownUses_of_exprs List.mem_cons_self hv)
    simp [replaceStmtReads, he]
  | declare v init | ret init | goto l init =>
    cases init with
    | none => rfl
    | some e =>
      have he : e.replaceReads f = pure e := replaceReads_eq_pure fun v hv =>
        h v (mem_ownUses_of_exprs List.mem_cons_self hv)
      simp [replaceStmtReads, he]
  | _ => rfl

theorem write_mem_replaceStmtReads (hf : ∀ v e, f v = some e → e.isWriteFree = true) {u : Var} :
    .write u ∈ (replaceStmtReads f s).val.ownUses ↔ .write u ∈ s.ownUses := by
  rw [ownUses_replaceStmtReads, Use.write_mem_replaced hf]

theorem writesWhole_replaceStmtReads (hf : ∀ v e, f v = some e → e.isWriteFree = true)
    (h : s.writesWhole = true) : (replaceStmtReads f s).val.writesWhole = true := by
  rcases writesWhole_cases h with ⟨v, e, rfl, he⟩ | hexprs
  · rw [replaceStmtReads_set]
    exact isWriteFree_replaceReads hf he
  · refine writesWhole_of_exprs fun e he => ?_
    rw [exprs_replaceStmtReads] at he
    obtain ⟨x, hx, rfl⟩ := List.mem_map.1 he
    exact isWriteFree_replaceReads hf (hexprs x hx)

end Cleanup

end ByteLift
