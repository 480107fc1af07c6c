import ByteLift.Proofs.Cleanup.Branches
import ByteLift.Proofs.Variables.Replace

/-!
# Assignments as whole statements

Writes of variables, and assignments of any kind, are kept out of the middle of expressions. Either
is a *discipline*: it says which expressions may stand anywhere, and which assignments may be
statements. One that puts up with the few things that rewriting does to expressions is kept by all
of it.
-/

namespace ByteLift

open Block Cleanup List

variable {c e : Expr}

namespace Expr

/-! ## Conditions -/

/-- The negation of a condition does the same to variables. -/
@[simp] theorem uses_negate (vars : VarTable) (c : Expr) : (c.negate vars).uses = c.uses := by
  fun_induction negate vars c with
  | case5 a b t iha ihb => exact (congrArg (· ++ _) iha).trans (congrArg (a.uses ++ ·) ihb)
  | case6 a b t iha ihb => exact (congrArg (· ++ _) iha).trans (congrArg (a.uses ++ ·) ihb)
  | case7 e ih => exact ih
  | _ => rfl

@[simp] theorem uses_both (c d : Expr) : (both c d).uses = c.uses ++ d.uses := rfl

/-- The part of a condition that stays when its value is not needed does nothing else to
variables. -/
theorem uses_effectOf (h : effectOf c = some e) : e.uses ⊆ c.uses := by
  fun_induction effectOf c with
  | case1 c ih => exact ih h
  | case2 op c t ih => exact ih h
  | case3 op a b _ ih => exact fun u hu => mem_append_left _ (ih h hu)
  | case4 op a b _ _ ih => exact fun u hu => mem_append_right _ (ih h hu)
  | case5 => cases h
  | case6 | case7 | case8 | case9 =>
    cases h
    exact List.Subset.refl _
  | case10 => cases h

/-! ## Expressions without assignments -/

/-- Whether no part of an expression is an assignment. -/
def isAssignFree (e : Expr) : Bool := e.subexprs.all (!·.isAssign)

/-- An expression has no assignment in it if it is none and its parts have none. -/
theorem isAssignFree_eq (e : Expr) :
    e.isAssignFree = (!e.isAssign && e.children.all isAssignFree) := by
  rw [isAssignFree, subexprs_eq, all_cons, all_flatMap]
  rfl

@[simp] theorem isAssignFree_negate (vars : VarTable) (c : Expr) :
    (c.negate vars).isAssignFree = c.isAssignFree := by
  fun_induction negate vars c with
  | case1 op a b _ => simp [not, isAssignFree_eq, children, isAssign]
  | case5 a b t iha ihb => simp [isAssignFree_eq (binary ..), children, isAssign, iha, ihb]
  | case6 a b t iha ihb => simp [isAssignFree_eq (binary ..), children, isAssign, iha, ihb]
  | case7 e ih => simp [ih, isAssignFree_eq (paren e), children, isAssign]
  | _ => simp [not, boolean, isAssignFree_eq, children, isAssign]

theorem isAssignFree_effectOf (h : effectOf c = some e) (hc : c.isAssignFree = true) :
    e.isAssignFree = true := by
  fun_induction effectOf c with
  | case1 c ih => exact ih h (by simpa [isAssignFree_eq (paren c), children, isAssign] using hc)
  | case2 op c t ih =>
    exact ih h (by simpa [isAssignFree_eq (unary ..), children, isAssign] using hc)
  | case3 op a b _ ih =>
    simp only [isAssignFree_eq (compare ..), children, isAssign, all_cons,
      Bool.and_eq_true] at hc
    exact ih h hc.2.1
  | case4 op a b _ _ ih =>
    simp only [isAssignFree_eq (compare ..), children, isAssign, all_cons,
      Bool.and_eq_true] at hc
    exact ih h hc.2.2.1
  | case5 => cases h
  | case6 | case7 | case8 | case9 =>
    cases h
    exact hc
  | case10 => cases h

theorem isAssignFree_replaceAs {f : Var → Option Expr}
    (hf : ∀ v e, f v = some e → e.isAssignFree = true) (target : Bool) (e : Expr) :
    e.isAssignFree = true → (e.replaceAs f target).val.isAssignFree = true := by
  induction e using childrenInduction generalizing target with
  | step e ih =>
  intro he
  by_cases hvar : ∃ v, e = var v
  · obtain ⟨v, rfl⟩ := hvar
    cases target with
    | true => exact he
    | false =>
      cases hw : f v with
      | none => simpa [replaceAs, hw] using he
      | some e => simpa [replaceAs, hw] using hf v e hw
  · have hne : ∀ v, e ≠ var v := fun v hv => hvar ⟨v, hv⟩
    rw [isAssignFree_eq, Bool.and_eq_true, all_eq_true] at he ⊢
    rw [isAssign_replaceAs f target hne, children_replaceAs f hne (.inl (by simpa using he.1))]
    exact ⟨he.1, forall_mem_map.2 fun d hd => ih d hd false (he.2 d hd)⟩

/-- Only assignments write variables. -/
theorem write_notMem_usesAs (v : Var) (e : Expr) :
    e.isAssignFree = true → .write v ∉ e.usesAs false := by
  induction e using childrenInduction with
  | step e ih =>
  intro he hmem
  by_cases hvar : ∃ v, e = var v
  · obtain ⟨w, rfl⟩ := hvar
    simp [usesAs] at hmem
  · rw [isAssignFree_eq, Bool.and_eq_true, all_eq_true] at he
    rw [usesAs_eq_children (fun v hv => hvar ⟨v, hv⟩) (.inl (by simpa using he.1)),
      mem_flatMap] at hmem
    obtain ⟨d, hd, hmem⟩ := hmem
    exact ih d hd (he.2 d hd) hmem

theorem isWriteFree_of_isAssignFree (h : e.isAssignFree = true) : e.isWriteFree = true :=
  isWriteFree_iff.2 fun v => write_notMem_usesAs v e h

end Expr

/-! ## Disciplines -/

/-- What may stand where: the expressions that may stand anywhere, and the assignments that may be
statements. -/
structure Discipline where
  free : Expr → Bool
  stands : Expr → Expr → Bool
  free_lit : ∀ l, free (.lit l) = true
  free_var : ∀ v, free (.var v) = true
  free_negate : ∀ vars c, free (c.negate vars) = free c
  free_both : ∀ c d, free (both c d) = (free c && free d)
  free_effectOf : ∀ {c e}, effectOf c = some e → free c = true → free e = true
  free_new : ∀ {r m args}, free (.construct r m args) = true → free (.new m args) = true
  free_replaceReads : ∀ {f e}, (∀ v x, f v = some x → free x = true) → free e = true →
    free (e.replaceReads f).val = true
  stands_var : ∀ v e, stands (.var v) e = free e
  stands_of_free : ∀ {a b}, free (.assign a b) = true → stands a b = true
  stands_replaceReads : ∀ {f a b}, (∀ v x, f v = some x → free x = true) → stands a b = true →
    stands (a.replaceAs f true).val (b.replaceReads f).val = true

/-- Whether a statement is made of expressions that may stand anywhere, or is an assignment that may
be a statement. -/
def Stmt.follows (D : Discipline) : Stmt → Bool
  | expr (.assign a b) => D.stands a b
  | x => x.exprs.all D.free

/-- Whether all statements of a block, at any depth, follow a discipline. -/
def Block.follows (D : Discipline) (b : Block) : Bool := b.stmts.all (Stmt.follows D)

/-- Whether a statement holds assignments only as a whole: it is one, or a declaration with a
value. -/
def Stmt.assignsWhole : Stmt → Bool
  | expr (.assign target value) => target.isAssignFree && value.isAssignFree
  | x => x.exprs.all Expr.isAssignFree

/-- Whether assignments are only whole statements of a block, at any depth. -/
def Block.assignsWhole (b : Block) : Bool := b.stmts.all Stmt.assignsWhole

namespace Discipline

/-- No variable is written in the middle of an expression. -/
def writes : Discipline where
  free := Expr.isWriteFree
  stands a b := (Stmt.expr (.assign a b)).writesWhole
  free_lit _ := rfl
  free_var _ := rfl
  free_negate vars c := by rw [Expr.isWriteFree, Expr.uses_negate, Expr.isWriteFree]
  free_both c d := by
    rw [Expr.isWriteFree, Expr.uses_both, all_append, Expr.isWriteFree, Expr.isWriteFree]
  free_effectOf h := Expr.isWriteFree_of_subset (Expr.uses_effectOf h)
  free_new h := Expr.isWriteFree_of_subset (fun _ hu => mem_append_right _ hu) h
  free_replaceReads hf h := Expr.isWriteFree_replaceReads hf h
  stands_var _ _ := rfl
  stands_of_free h := Stmt.writesWhole_expr h
  stands_replaceReads hf h := writesWhole_replaceStmtReads hf h

/-- No assignment stands in the middle of an expression. -/
def assigns : Discipline where
  free := Expr.isAssignFree
  stands a b := a.isAssignFree && b.isAssignFree
  free_lit _ := rfl
  free_var _ := rfl
  free_negate := Expr.isAssignFree_negate
  free_both c d := by simp [both, Expr.isAssignFree_eq (.binary ..), Expr.children, Expr.isAssign]
  free_effectOf := Expr.isAssignFree_effectOf
  free_new {r m args} h := by
    simp only [Expr.isAssignFree_eq (.construct ..), Expr.children, all_cons,
      Bool.and_eq_true] at h
    rw [Expr.isAssignFree_eq]
    exact h.2.2
  free_replaceReads hf := Expr.isAssignFree_replaceAs hf false _
  stands_var _ _ := rfl
  stands_of_free h := by simp [Expr.isAssignFree_eq (.assign ..), Expr.isAssign] at h
  stands_replaceReads hf h := by
    simp only [Bool.and_eq_true] at h ⊢
    exact ⟨Expr.isAssignFree_replaceAs hf true _ h.1, Expr.isAssignFree_replaceAs hf false _ h.2⟩

end Discipline

theorem Stmt.follows_writes (s : Stmt) : s.follows .writes = s.writesWhole := by
  unfold follows
  split
  · rfl
  · rename_i hs
    unfold writesWhole
    split
    · exact absurd rfl (hs _ _)
    · rfl

theorem Block.follows_writes (b : Block) : b.follows .writes = b.writesWhole := by
  rw [follows, writesWhole, funext Stmt.follows_writes]

/-- An assignment without assignments in it writes no variable but the one that it is for. -/
theorem Expr.isWriteFree_assign {a b : Expr} (hvar : ∀ v, a ≠ var v) (ha : a.isAssignFree = true)
    (hb : b.isAssignFree = true) : (assign a b).isWriteFree = true := by
  have htarget : a.usesAs true = a.usesAs false := by
    cases a with
    | var v => exact absurd rfl (hvar v)
    | assign => simp [isAssignFree_eq (assign ..), isAssign] at ha
    | _ => rfl
  refine isWriteFree_iff.2 fun v hv => ?_
  rcases mem_append.1 hv with hv | hv
  · exact write_notMem_usesAs v a ha (htarget ▸ hv)
  · exact write_notMem_usesAs v b hb hv

variable {s : Stmt}

theorem Stmt.writesWhole_of_assignsWhole (h : s.assignsWhole = true) : s.writesWhole = true := by
  unfold assignsWhole at h
  split at h
  · rename_i a b
    rw [Bool.and_eq_true] at h
    by_cases hvar : ∃ v, a = .var v
    · obtain ⟨v, rfl⟩ := hvar
      exact Expr.isWriteFree_of_isAssignFree h.2
    · exact writesWhole_expr (Expr.isWriteFree_assign (fun v hv => hvar ⟨v, hv⟩) h.1 h.2)
  · exact writesWhole_of_exprs fun e he =>
      Expr.isWriteFree_of_isAssignFree (all_eq_true.1 h e he)

/-- Where assignments are whole statements, so are writes of variables. -/
theorem Block.writesWhole_of_assignsWhole {b : Block} (h : b.assignsWhole = true) :
    b.writesWhole = true :=
  all_eq_true.2 fun s hs => Stmt.writesWhole_of_assignsWhole (all_eq_true.1 h s hs)

variable {D : Discipline}

/-- Expressions that may stand anywhere may stand in any statement. -/
theorem Stmt.follows_of_exprs (h : ∀ e ∈ s.exprs, D.free e = true) : s.follows D = true := by
  unfold follows
  split
  · exact D.stands_of_free (h _ mem_cons_self)
  · exact all_eq_true.2 h

theorem Stmt.follows_expr (h : D.free e = true) : (Stmt.expr e).follows D = true :=
  follows_of_exprs (by simpa [exprs] using h)

@[simp] theorem Stmt.follows_set {v : Var} : (Stmt.set v e).follows D = D.free e := D.stands_var v e

namespace Block

variable {ss a b : Block}

@[simp] theorem follows_nil : follows D [] = true := rfl

theorem follows_cons : follows D (s :: ss) = true ↔
    s.follows D = true ∧ (∀ a ∈ s.blocks, follows D a = true) ∧ ss.follows D = true := by
  simp [follows, stmts_cons, all_flatMap]

@[simp] theorem follows_append :
    follows D (a ++ b) = true ↔ a.follows D = true ∧ b.follows D = true := by
  simp [follows]

@[simp] theorem follows_ite : follows D (.ite c a b :: ss) = true ↔
    D.free c = true ∧ a.follows D = true ∧ b.follows D = true ∧ ss.follows D = true := by
  simp [follows_cons, Stmt.follows, Stmt.exprs, and_assoc]

variable {l : Option Label} {K : Block → Block} {v : Var}

@[simp] theorem follows_loop : follows D (.loop l c a :: ss) = true ↔
    D.free c = true ∧ a.follows D = true ∧ ss.follows D = true := by
  simp [follows_cons, Stmt.follows, Stmt.exprs]

@[simp] theorem follows_block :
    follows D (.block a :: ss) = true ↔ a.follows D = true ∧ ss.follows D = true := by
  simp [follows_cons, Stmt.follows, Stmt.exprs]

theorem Hole.follows (hK : Hole K) :
    ∃ p : Prop, ∀ b, follows D (K b) = true ↔ p ∧ b.follows D = true := by
  cases hK with
  | tail s => exact ⟨_, fun b => follows_cons.trans and_assoc.symm⟩
  | thenArm c b ss =>
    exact ⟨D.free c = true ∧ b.follows D = true ∧ ss.follows D = true,
      fun a => by rw [follows_ite]; grind⟩
  | elseArm c a ss =>
    exact ⟨D.free c = true ∧ a.follows D = true ∧ ss.follows D = true,
      fun b => by rw [follows_ite]; grind⟩
  | body l c ss =>
    exact ⟨D.free c = true ∧ ss.follows D = true, fun a => by rw [follows_loop]; grind⟩
  | inner ss => exact ⟨ss.follows D = true, fun a => by rw [follows_block, and_comm]⟩

theorem Hole.writesWhole (hK : Hole K) :
    ∃ p : Prop, ∀ b, writesWhole (K b) = true ↔ p ∧ b.writesWhole = true := by
  simpa only [follows_writes] using hK.follows (D := .writes)

@[simp] theorem follows_set :
    follows D (.set v e :: ss) = true ↔ D.free e = true ∧ ss.follows D = true := by
  rw [follows_cons, Stmt.follows_set]
  simp [Stmt.set]

@[simp] theorem follows_declare {init : Option Expr} : follows D (.declare v init :: ss) = true ↔
    (∀ e ∈ init, D.free e = true) ∧ ss.follows D = true := by
  cases init <;> simp [follows_cons, Stmt.follows, Stmt.exprs]

@[simp] theorem follows_breakLoop : follows D (.breakLoop l :: ss) = ss.follows D := rfl

@[simp] theorem follows_continueLoop : follows D (.continueLoop l :: ss) = ss.follows D := rfl

end Block

namespace Cleanup

/-- Statements in which variables are replaced by expressions that may stand anywhere. -/
theorem follows_replaceStmtReads {f : Var → Option Expr}
    (hf : ∀ v e, f v = some e → D.free e = true)
    (h : s.follows D = true) : (replaceStmtReads f s).val.follows D = true := by
  unfold Stmt.follows at h
  split at h
  · exact D.stands_replaceReads hf h
  · refine Stmt.follows_of_exprs fun e he => ?_
    rw [exprs_replaceStmtReads] at he
    obtain ⟨x, hx, rfl⟩ := mem_map.1 he
    exact D.free_replaceReads hf (all_eq_true.1 h x hx)

end Cleanup

end ByteLift
