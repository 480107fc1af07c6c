import ByteLift.Proofs.Cleanup.Weight

/-!
# Branches that are turned round

If straightening branches does not make a body lighter, all it does is to turn branches round. Two
blocks are *turned* into one another if they differ in that only. A branch that has been turned has
its arms in the right order, so the number of branches that are still to be turned goes down with
every change.
-/

namespace ByteLift

open Block Cleanup

variable {vars : VarTable} {a b : Block}

/-- Two blocks that differ only in branches turned round: the condition is negated and the arms are
exchanged. -/
inductive Turned (vars : VarTable) : Block → Block → Prop
  | refl (b : Block) : Turned vars b b
  | trans {a b c : Block} (hab : Turned vars a b) (hbc : Turned vars b c) : Turned vars a c
  | tail (s : Stmt) {ss ss' : Block} (h : Turned vars ss ss') : Turned vars (s :: ss) (s :: ss')
  | arms (c : Expr) (ss : Block) {a a' b b' : Block} (ha : Turned vars a a')
    (hb : Turned vars b b') : Turned vars (.ite c a b :: ss) (.ite c a' b' :: ss)
  | body (l : Option Label) (c : Expr) (ss : Block) {a a' : Block} (h : Turned vars a a') :
    Turned vars (.loop l c a :: ss) (.loop l c a' :: ss)
  | inner (ss : Block) {a a' : Block} (h : Turned vars a a') :
    Turned vars (.block a :: ss) (.block a' :: ss)
  | turn (c : Expr) (a b ss : Block) :
    Turned vars (.ite c a b :: ss) (.ite (c.negate vars) b a :: ss)

namespace Turned

/-- What turning a single branch round does, turning any number of them does. -/
theorem of_congruent {R : Block → Block → Prop} (hR : Congruent R)
    (hturn : ∀ c a b ss, R (.ite c a b :: ss) (.ite (c.negate vars) b a :: ss))
    (h : Turned vars a b) : R a b := by
  induction h with
  | refl b => exact hR.refl b
  | trans _ _ ihab ihbc => exact hR.trans ihab ihbc
  | tail s _ ih => exact hR.tail s ih
  | arms c ss _ _ iha ihb => exact hR.arms c ss iha ihb
  | body l c ss _ ih => exact hR.body l c ss ih
  | inner ss _ ih => exact hR.inner ss ih
  | turn c a b ss => exact hturn c a b ss

end Turned

/-! ## What is kept -/

/-- Two blocks that use the same variables in the same way and declare the same variables. -/
structure SameVars (a b : Block) : Prop where
  mem_uses : ∀ u, u ∈ b.uses ↔ u ∈ a.uses
  mem_declared : ∀ v, v ∈ b.declared ↔ v ∈ a.declared

theorem congruent_sameVars : Congruent SameVars := by
  refine .of_hole (fun _ => ⟨fun _ => .rfl, fun _ => .rfl⟩)
    (fun hab hbc => ⟨fun u => (hbc.mem_uses u).trans
    (hab.mem_uses u), fun v => (hbc.mem_declared v).trans (hab.mem_declared v)⟩) fun hK h => ?_
  obtain ⟨_, _, huses⟩ := hK.uses
  obtain ⟨_, _, hdeclared⟩ := hK.declared
  exact ⟨by simp [huses, h.mem_uses], by simp [hdeclared, h.mem_declared]⟩

theorem SameVars.mentions (h : SameVars a b) (v : Var) : b.mentions v = a.mentions v := by
  rw [Bool.eq_iff_iff, mentions_iff, mentions_iff]
  simp only [h.mem_uses, h.mem_declared]

theorem Cleanup.isSingleBranch_cons (s : Stmt) (ss : Block) :
    isSingleBranch (s :: ss) = (s.isBranch && ss.isEmpty) := by
  cases s <;> cases ss <;> rfl

/-- Two blocks that look the same to the rule for turning branches round. -/
structure SameOutline (a b : Block) : Prop where
  isEmpty : b.isEmpty = a.isEmpty
  isSingleBranch : isSingleBranch b = isSingleBranch a

theorem congruent_sameOutline : Congruent SameOutline where
  refl _ := ⟨rfl, rfl⟩
  trans hab hbc := ⟨hbc.isEmpty.trans hab.isEmpty, hbc.isSingleBranch.trans hab.isSingleBranch⟩
  tail s _ _ h := ⟨rfl, by simp [isSingleBranch_cons, h.isEmpty]⟩
  arms c ss _ _ _ _ _ _ := ⟨rfl, by simp [isSingleBranch_cons, Stmt.isBranch]⟩
  body l c ss _ _ _ := ⟨rfl, by simp [isSingleBranch_cons, Stmt.isBranch]⟩
  inner ss _ _ _ := ⟨rfl, by simp [isSingleBranch_cons, Stmt.isBranch]⟩

namespace Turned

theorem sameVars (h : Turned vars a b) : SameVars a b := by
  refine of_congruent congruent_sameVars (fun c a b ss => ⟨fun u => ?_, fun v => ?_⟩) h
  · simp only [uses_ite, Expr.uses_negate, List.mem_append]
    grind
  · simp only [declared_ite, List.mem_append]
    grind

theorem sameOutline (h : Turned vars a b) : SameOutline a b := by
  refine of_congruent congruent_sameOutline (fun c a b ss => ⟨rfl, ?_⟩) h
  simp [isSingleBranch_cons, Stmt.isBranch]

end Turned

/-! ## Branches that are still to be turned -/

namespace Cleanup

/-- One for a branch that is to be turned round, nothing for other statements. -/
def turnableStmt : Stmt → Nat
  | .ite _ a b => (isTurnable a b).toNat
  | _ => 0

/-- The number of branches of a block that are to be turned round. -/
def turnable (b : Block) : Nat := b.total turnableStmt

@[simp] theorem turnable_cons (s : Stmt) (ss : Block) :
    turnable (s :: ss) = turnableStmt s + ((s.blocks.map turnable).sum + turnable ss) :=
  total_cons _ s ss

@[simp] theorem turnable_ite (c : Expr) (a b ss : Block) : turnable (.ite c a b :: ss) =
    (isTurnable a b).toNat + (turnable a + (turnable b + turnable ss)) := total_ite _ c a b ss

/-- Branches were turned round, and fewer are to be turned than before. -/
def TurnsDown (vars : VarTable) (a b : Block) : Prop := Turned vars a b ∧ turnable b < turnable a

variable {a' b' : Block}

theorem isTurnable_congr (ha : SameOutline a a') (hb : SameOutline b b') :
    isTurnable a' b' = isTurnable a b := by
  simp [isTurnable, ha.isEmpty, hb.isEmpty, ha.isSingleBranch, hb.isSingleBranch]

theorem partwise_turnsDown (vars : VarTable) : Partwise (TurnsDown vars) where
  trans := fun ⟨hab, hlt⟩ ⟨hbc, hlt'⟩ => ⟨.trans hab hbc, Nat.lt_trans hlt' hlt⟩
  tail := by
    rintro s ss ss' ⟨h, hlt⟩
    exact ⟨.tail s h, by simp only [turnable_cons]; omega⟩
  thenArm := by
    rintro c b ss a a' ⟨h, hlt⟩
    refine ⟨.arms c ss h (.refl b), ?_⟩
    simp only [turnable_ite, isTurnable_congr h.sameOutline (congruent_sameOutline.refl b)]
    omega
  elseArm := by
    rintro c a ss b b' ⟨h, hlt⟩
    refine ⟨.arms c ss (.refl a) h, ?_⟩
    simp only [turnable_ite, isTurnable_congr (congruent_sameOutline.refl a) h.sameOutline]
    omega
  body := by
    rintro l c ss a a' ⟨h, hlt⟩
    refine ⟨.body l c ss h, ?_⟩
    simpa [turnableStmt] using hlt
  inner := by
    rintro ss a a' ⟨h, hlt⟩
    refine ⟨.inner ss h, ?_⟩
    simpa [turnableStmt] using hlt

/-- Once it has been turned round, a branch stays as it is. -/
theorem isTurnable_swap (h : isTurnable a b = true) : isTurnable b a = false := by
  simp only [isTurnable, Bool.and_eq_true, Bool.or_eq_true, Bool.not_eq_true'] at h
  obtain ⟨hb, h⟩ := h
  rcases h with ha | ⟨-, hsingle⟩
  · simp [isTurnable, ha]
  · simp [isTurnable, hb, hsingle]

/-- The branch is turned round. -/
theorem lowers_turn (c : Expr) (h : isTurnable a b = true) (ss : Block) :
    Lowers (TurnsDown vars) (.ite c a b :: ss) (.ite (c.negate vars) b a :: ss) true := by
  have hturned : Turned vars (.ite c a b :: ss) (.ite (c.negate vars) b a :: ss) := .turn c a b ss
  refine .of_rel (Reshapes.turn c a b ss).follows ?_ ⟨hturned, ?_⟩
  · simp only [weight_ite]
    omega
  · simp only [turnable_ite, h, isTurnable_swap h, Bool.toNat_true, Bool.toNat_false]
    omega

/-! ## Straight branches -/

theorem lowers_unwrap {E : Block → Block → Prop} {s : Stmt} {body : Block} (ss : Block)
    (h : singlePass? s = some body) : Lowers E (s :: ss) (body ++ ss) true := by
  have hreshapes : Reshapes .empty (s :: ss) (body ++ ss) := .of_singlePass? h ss
  refine .of_lt hreshapes.follows fun _ => ?_
  unfold singlePass? at h
  split at h
  · split at h
    · -- Taking out the breaks adds nothing, and the loop itself goes.
      have hlift : Reshapes .empty _ body := .of_liftBreaks h
      have := hlift.weight_le
      simp only [weight_append, weight_loop]
      omega
    · cases h
  · cases h

/-- Turning a branch round is all that keeps the weight. -/
theorem straightening_lowers (vars : VarTable) : Straightening vars (Lowers (TurnsDown vars)) where
  toTracking := Lowers.tracking (partwise_turnsDown vars)
  unwrap := lowers_unwrap
  takeThen {c} a b ss _ := by
    have hreshapes : Reshapes vars (.ite c a b :: ss) (a ++ ss) := .takeThen c a b ss
    exact .of_lt hreshapes.follows fun _ => by simp only [weight_ite, weight_append]; omega
  turn c a b ss h := lowers_turn c h ss
  takeElse {c} a b ss _ := by
    have hreshapes : Reshapes vars (.ite c a b :: ss) (b ++ ss) := .takeElse c a b ss
    exact .of_lt hreshapes.follows fun _ => by simp only [weight_ite, weight_append]; omega
  dropEmpty {c} ss _ := by
    have hreshapes : Reshapes vars (.ite c [] [] :: ss) ss := .drop ss rfl
    exact .of_lt hreshapes.follows fun _ => by simp
  effect {c e} ss he := by
    have hreshapes : Reshapes vars (.ite c [] [] :: ss) (.expr e :: ss) := .effect ss he
    refine .of_lt hreshapes.follows fun h => ?_
    have hfree := Expr.isWriteFree_of_subset (Expr.uses_effectOf he) (writesWhole_ite.1 h).1
    rw [weight_of_blocks_eq_nil rfl, Stmt.weight_expr hfree, weight_ite]
    simp
  merge c d a ss := by
    have hreshapes : Reshapes vars (.ite c [.ite d a []] [] :: ss) (.ite (both c d) a [] :: ss) :=
      .merge c d a ss
    exact .of_lt hreshapes.follows fun _ => by simp only [weight_ite, weight_nil]; omega

theorem lowers_straightenBranches (vars : VarTable) (b : Block) :
    Lowers (TurnsDown vars) b (straightenBranches vars b).val (straightenBranches vars b).changed :=
  (straightening_lowers vars).straightenBranches b

end Cleanup

end ByteLift
