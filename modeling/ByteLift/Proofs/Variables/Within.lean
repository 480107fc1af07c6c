import ByteLift.Proofs.Variables.Whole

/-!
# Code that uses the variables of a table

Lifted code, before anything in it is declared: an assignment is always a whole statement, and all
variables are among the first ones of the method's table.
-/

namespace ByteLift

/-- An expression that assigns nothing and reads only the first `n` variables. -/
def Expr.ReadsBelow (n : Nat) (e : Expr) : Prop :=
  e.isAssignFree = true ∧ ∀ u ∈ e.uses, u.var.index < n

namespace Expr

variable {n : Nat} {a b e : Expr} {t : Ty}

theorem ReadsBelow.mono {n' : Nat} (h : e.ReadsBelow n) (hn : n ≤ n') : e.ReadsBelow n' :=
  ⟨h.1, fun u hu => Nat.lt_of_lt_of_le (h.2 u hu) hn⟩

theorem ReadsBelow.isWriteFree (h : e.ReadsBelow n) : e.isWriteFree = true :=
  isWriteFree_of_isAssignFree h.1

/-- An expression that is made of others reads what they do. -/
theorem readsBelow_iff_children (hvar : ∀ v, e ≠ var v) (hassign : e.isAssign = false) :
    e.ReadsBelow n ↔ ∀ x ∈ e.children, x.ReadsBelow n := by
  rw [ReadsBelow, isAssignFree_eq, uses, usesAs_eq_children hvar (.inl hassign), hassign]
  simp only [Bool.not_false, Bool.true_and, List.all_eq_true, List.mem_flatMap, ReadsBelow]
  constructor
  · exact fun h x hx => ⟨h.1 x hx, fun u hu => h.2 u ⟨x, hx, hu⟩⟩
  · exact fun h => ⟨fun x hx => (h x hx).1, fun u ⟨x, hx, hu⟩ => (h x hx).2 u hu⟩

@[simp] theorem readsBelow_var {v : Var} : (var v).ReadsBelow n ↔ v.index < n := by
  simp [ReadsBelow, isAssignFree_eq (var v), isAssign, children, uses, usesAs, Use.var]

/-- The same by forms, as a simplifier sees them. -/
theorem readsBelow_node (hvar : ∀ v, e ≠ var v) (hassign : ∀ x y, e ≠ assign x y) :
    e.ReadsBelow n ↔ ∀ x ∈ e.children, x.ReadsBelow n := by
  refine readsBelow_iff_children hvar ?_
  cases e <;> first | rfl | exact absurd rfl (hassign _ _)

attribute [local simp] readsBelow_node children

theorem readsBelow_lit (l : Literal) : (lit l).ReadsBelow n := by simp

theorem readsBelow_binary {op : BinOp} :
    (binary op a b t).ReadsBelow n ↔ a.ReadsBelow n ∧ b.ReadsBelow n := by simp

@[simp] theorem readsBelow_foldCompare {k : ThreeWay} {op : CompareOp} :
    (foldCompare k op a b).ReadsBelow n ↔ a.ReadsBelow n ∧ b.ReadsBelow n := by
  have heither (exact : Bool) :
    (if exact then compare op a b else not (compare op.negate a b)).ReadsBelow n ↔
      a.ReadsBelow n ∧ b.ReadsBelow n := by
    cases exact <;> simp [not]
  exact heither _

@[simp] theorem readsBelow_coerce : (e.coerce t).ReadsBelow n ↔ e.ReadsBelow n := by
  unfold coerce
  split
  · split
    · simp [boolean]
    · split <;> simp [boolean]
  · exact Iff.rfl

@[simp] theorem readsBelow_negate (vars : VarTable) :
    (e.negate vars).ReadsBelow n ↔ e.ReadsBelow n := by
  rw [ReadsBelow, uses_negate, isAssignFree_negate, ReadsBelow]

end Expr

/-- A block that declares nothing, holds assignments only as a whole and uses only the first `n`
variables. -/
structure Block.Within (n : Nat) (b : Block) : Prop where
  declared : b.declared = []
  whole : b.follows .assigns = true
  known : ∀ u ∈ b.uses, u.var.index < n

namespace Block.Within

variable {n : Nat} {a b ss : Block} {s : Stmt}

theorem nil : Block.Within n [] := ⟨rfl, rfl, by simp⟩

theorem append_iff : Block.Within n (a ++ b) ↔ a.Within n ∧ b.Within n := by
  constructor
  · rintro ⟨hdeclared, hwhole, hknown⟩
    simp only [declared_append, List.append_eq_nil_iff, follows_append, uses_append,
      List.mem_append] at *
    exact ⟨⟨hdeclared.1, hwhole.1, fun u hu => hknown u (.inl hu)⟩,
      ⟨hdeclared.2, hwhole.2, fun u hu => hknown u (.inr hu)⟩⟩
  · rintro ⟨ha, hb⟩
    exact ⟨by simp [ha.declared, hb.declared], by simp [ha.whole, hb.whole], fun u hu =>
      (List.mem_append.1 (by simpa using hu)).elim (ha.known u) (hb.known u)⟩

theorem cons_iff : Block.Within n (s :: ss) ↔ Block.Within n [s] ∧ ss.Within n :=
  append_iff (a := [s])

theorem iff_forall : b.Within n ↔ ∀ s ∈ b, Block.Within n [s] := by
  induction b with
  | nil => simp [nil]
  | cons s ss ih => rw [cons_iff, ih, List.forall_mem_cons]

variable {e c : Expr}

theorem set {v : Var} (hv : v.index < n) (he : e.ReadsBelow n) : Block.Within n [.set v e] := by
  refine ⟨rfl, follows_set.2 ⟨he.1, rfl⟩, ?_⟩
  simpa [Stmt.set, Expr.uses, Expr.usesAs, Use.var] using ⟨hv, he.2⟩

/-- An assignment to something in which variables are read. -/
theorem assign {t : Expr} (htarget : t.usesAs true = t.usesAs false) (ht : t.ReadsBelow n)
    (he : e.ReadsBelow n) : Block.Within n [.expr (.assign t e)] := by
  refine ⟨rfl, follows_cons.2 ⟨Bool.and_eq_true_iff.2 ⟨ht.1, he.1⟩, by simp, rfl⟩, ?_⟩
  simp only [uses_expr, uses_nil, List.append_nil, Expr.uses, Expr.usesAs, Bool.not_false, htarget,
    List.mem_append]
  exact fun u hu => hu.elim (ht.2 u) (he.2 u)

/-- A statement that declares nothing and consists of expressions. -/
theorem of_exprs (hdeclared : s.declared? = none) (hblocks : s.blocks = [])
    (h : ∀ e ∈ s.exprs, e.ReadsBelow n) : Block.Within n [s] := by
  refine ⟨by simp [declared_cons, hdeclared, hblocks], ?_, ?_⟩
  · exact follows_cons.2 ⟨Stmt.follows_of_exprs fun e he => (h e he).1, by simp [hblocks], rfl⟩
  · simp only [uses_cons, hblocks, List.flatMap_nil, uses_nil, List.append_nil]
    intro u hu
    rcases Stmt.mem_ownUses hu with ⟨v, hv, _⟩ | ⟨e, he, hu⟩
    · rw [hdeclared] at hv
      cases hv
    · exact (h e he).2 u hu

theorem readsBelow_of_goto {l : Label} (h : Block.Within n [.goto l (some c)]) : c.ReadsBelow n :=
  ⟨List.all_eq_true.1 (follows_cons.1 h.whole).1 c List.mem_cons_self,
    by simpa [uses_cons, Stmt.ownUses, Stmt.exprs, Stmt.blocks] using h.known⟩

theorem ite (hc : c.ReadsBelow n) (ha : a.Within n) (hb : b.Within n) :
    Block.Within n [.ite c a b] := by
  refine ⟨by simp [ha.declared, hb.declared], follows_ite.2 ⟨hc.1, ha.whole, hb.whole, rfl⟩,
    fun u hu => ?_⟩
  simp only [uses_ite, uses_nil, List.append_nil, List.mem_append] at hu
  exact hu.elim (hc.2 u) fun hu => hu.elim (ha.known u) (hb.known u)

theorem loop {l : Option Label} (hc : c.ReadsBelow n) (ha : a.Within n) :
    Block.Within n [.loop l c a] := by
  refine ⟨by simp [ha.declared], follows_loop.2 ⟨hc.1, ha.whole, rfl⟩, fun u hu => ?_⟩
  simp only [uses_loop, uses_nil, List.append_nil, List.mem_append] at hu
  exact hu.elim (hc.2 u) (ha.known u)

theorem breakLoop (l : Option Label) : Block.Within n [.breakLoop l] :=
  of_exprs rfl rfl (by simp [Stmt.exprs])

theorem continueLoop (l : Option Label) : Block.Within n [.continueLoop l] :=
  of_exprs rfl rfl (by simp [Stmt.exprs])

end Block.Within

end ByteLift
