import ByteLift.Proofs.Variables.Scoped
import ByteLift.Proofs.Variables.Whole

/-!
# Blocks in another shape

Tidying and straightening are made of the same few moves: arms and bodies are taken out of their
statements, code behind a branch moves into an arm, conditions are negated or joined, and what is
never reached is dropped. None adds a variable, and a declaration moves with everything behind it.
-/

namespace ByteLift

open Block Stmt

/-- The moves that give a block another shape. -/
inductive Reshapes (vars : VarTable) : Block → Block → Prop
  | refl (b : Block) : Reshapes vars b b
  | trans {a b c : Block} (hab : Reshapes vars a b) (hbc : Reshapes vars b c) : Reshapes vars a c
  | tail (s : Stmt) {ss ss' : Block} (h : Reshapes vars ss ss') : Reshapes vars (s :: ss) (s :: ss')
  | arms (c : Expr) (ss : Block) {a a' b b' : Block} (ha : Reshapes vars a a')
    (hb : Reshapes vars b b') : Reshapes vars (.ite c a b :: ss) (.ite c a' b' :: ss)
  | body (l l' : Option Label) (c : Expr) (ss : Block) {a a' : Block} (h : Reshapes vars a a') :
    Reshapes vars (.loop l c a :: ss) (.loop l' c a' :: ss)
  | inner (ss : Block) {a a' : Block} (h : Reshapes vars a a') :
    Reshapes vars (.block a :: ss) (.block a' :: ss)
  /-- Nothing is left. -/
  | cut (b : Block) : Reshapes vars b []
  | drop {s : Stmt} (ss : Block) (h : s.declared? = none) : Reshapes vars (s :: ss) ss
  | breakTo (l l' : Option Label) (ss : Block) :
    Reshapes vars (.breakLoop l :: ss) (.breakLoop l' :: ss)
  | continueTo (l l' : Option Label) (ss : Block) :
    Reshapes vars (.continueLoop l :: ss) (.continueLoop l' :: ss)
  | takeThen (c : Expr) (a b ss : Block) : Reshapes vars (.ite c a b :: ss) (a ++ ss)
  | takeElse (c : Expr) (a b ss : Block) : Reshapes vars (.ite c a b :: ss) (b ++ ss)
  | takeBody (l : Option Label) (c : Expr) (a ss : Block) :
    Reshapes vars (.loop l c a :: ss) (a ++ ss)
  | turn (c : Expr) (a b ss : Block) :
    Reshapes vars (.ite c a b :: ss) (.ite (c.negate vars) b a :: ss)
  /-- What follows a branch moves into an arm. -/
  | intoThen (c : Expr) (a b ss : Block) : Reshapes vars (.ite c a b :: ss) [.ite c (a ++ ss) b]
  | intoElse (c : Expr) (a b ss : Block) : Reshapes vars (.ite c a b :: ss) [.ite c a (b ++ ss)]
  | outOfElse (c : Expr) (a b ss : Block) :
    Reshapes vars (.ite c a b :: ss) (.ite c a [] :: (b ++ ss))
  | merge (c d : Expr) (a ss : Block) :
    Reshapes vars (.ite c [.ite d a []] [] :: ss) (.ite (Cleanup.both c d) a [] :: ss)
  | effect {c e : Expr} (ss : Block) (h : Cleanup.effectOf c = some e) :
    Reshapes vars (.ite c [] [] :: ss) (.expr e :: ss)
  /-- A branch at the start of a loop becomes its condition. -/
  | condition (l : Option Label) (c d : Expr) (a b body ss : Block) :
    Reshapes vars (.loop l c (.ite d a b :: body) :: ss) (.loop l (d.negate vars) body :: ss)

namespace Reshapes

variable {vars : VarTable} {a b : Block} {v : Var}

/-! ## What is kept -/

section

variable (h : Reshapes vars a b)
include h

/-- No variable is used that was not used before. -/
theorem uses_subset : b.uses ⊆ a.uses := by
  intro u
  induction h with
  | refl => exact id
  | trans _ _ ihab ihbc => exact fun hu => ihab (ihbc hu)
  | tail s _ ih =>
    simp only [uses_cons, List.mem_append]
    exact Or.imp_right (Or.imp_right ih)
  | drop ss _ =>
    simp only [uses_cons, List.mem_append]
    exact fun hu => .inr (.inr hu)
  | effect ss h =>
    simp only [uses_expr, uses_ite, List.mem_append]
    exact Or.imp (fun hu => Expr.uses_effectOf h hu) fun hu => .inr (.inr hu)
  | cut => simp
  | _ =>
    -- The other steps put the parts of a branch or a loop together in another way.
    simp <;> grind

/-- No declaration is repeated. -/
theorem count_declared_le (v : Var) : b.declared.count v ≤ a.declared.count v := by
  induction h with
  | refl => exact Nat.le_refl _
  | trans _ _ ihab ihbc => exact Nat.le_trans ihbc ihab
  | tail s _ ih =>
    simp only [declared_cons, List.count_append]
    omega
  | drop ss _ =>
    simp only [declared_cons, List.count_append]
    omega
  | _ =>
    simp <;> omega

theorem follows {D : Discipline} : a.follows D = true → b.follows D = true := by
  induction h with
  | refl => exact id
  | trans _ _ ihab ihbc => exact fun ha => ihbc (ihab ha)
  | tail s _ ih =>
    simp only [follows_cons]
    exact fun h => ⟨h.1, h.2.1, ih h.2.2⟩
  | drop ss _ =>
    simp only [follows_cons]
    exact fun h => h.2.2
  | effect ss h =>
    intro hc
    rw [follows_ite] at hc
    exact follows_cons.2 ⟨follows_expr (D.free_effectOf h hc.1), by simp, hc.2.2.2⟩
  | _ =>
    simp [D.free_negate, D.free_both] <;> grind

/-- What stood in the scope of a declaration still does. -/
theorem scoped_of_scoped : a.Scoped v → b.Scoped v := by
  induction h with
  | refl => exact id
  | trans _ _ ihab ihbc => exact fun ha => ihbc (ihab ha)
  | tail s _ ih => exact fun h => h.tail ih
  | drop ss h => exact fun hs => hs.of_cons (by simp [h])
  | effect ss h =>
    simp only [Block.Scoped.ite_iff, Block.Scoped.expr_iff, Expr.mentions_eq_false_iff]
    exact fun hc => ⟨fun u hu => hc.1 u (Expr.uses_effectOf h hu), hc.2.2.2⟩
  | cut => exact fun _ => .nil
  | _ =>
    simp [Expr.mentions_eq_false_iff] <;> grind [Block.Scoped.append, Block.Scoped.nil]

end

/-! ## Loops that run once -/

theorem congruent (vars : VarTable) : Block.Congruent (Reshapes vars) where
  refl := refl
  trans := trans
  tail := tail
  arms := arms
  body l c ss _ _ := body l l c ss
  inner := inner

theorem dropLast (b : Block) : Reshapes vars b b.dropLast := by
  induction b with
  | nil => exact .refl []
  | cons s ss ih =>
    cases ss with
    | nil => exact .cut [s]
    | cons t ss => exact .tail s ih

/-- What follows a branch that breaks moves into one of its arms, or nowhere. -/
theorem of_liftBreaks {label : Option Label} (h : liftBreaks label a = some b) :
    Reshapes vars a b := by
  refine liftBreaks_induction h (.refl []) (fun _ => .cut _)
    (fun {c x y rest _ _} _ _ _ _ hrest hx hy => ?_)
    fun _ => .tail _
  rcases hrest with ⟨rfl, rfl⟩ | ⟨rfl, rfl⟩ | ⟨rfl, rfl⟩ <;> rw [List.append_nil] at *
  · exact .trans (.intoThen c x y _) (.arms c [] hx hy)
  · exact .trans (.intoElse c x y _) (.arms c [] hx hy)
  · exact .trans (.tail _ (.cut rest)) (.arms c [] hx hy)

theorem of_singlePass? {s : Stmt} (h : singlePass? s = some b) (ss : Block) :
    Reshapes vars (s :: ss) (b ++ ss) := by
  unfold singlePass? at h
  split at h
  · rename_i l c a
    split at h
    · exact .trans (.body l l c ss (of_liftBreaks h)) (.takeBody l c b ss)
    · cases h
  · cases h

theorem turning (vars : VarTable) : Block.Turning vars fun a b _ => Reshapes vars a b where
  toTracking := (congruent vars).tracking
  unwrap ss h := of_singlePass? h ss
  takeThen a b ss _ := .takeThen _ a b ss
  turn c a b ss _ := .turn c a b ss

/-! ## Freshly nested code -/

theorem stripTail (l : Label) (b : Block) : Reshapes vars b (stripTail l b).val :=
  stripTail_induction (R := fun a b _ => Reshapes vars a b) .refl (fun s _ _ _ => .tail s)
    (fun c _ _ _ _ _ _ => .arms c []) (.cut _) b

theorem turnTail (l : Label) (b : Block) : Reshapes vars b (turnTail vars l b).val := by
  rcases turnTail_cases vars l b with hval | ⟨before, c, a, rfl, hval⟩
  · rw [hval]
    exact .refl b
  · rw [hval]
    refine (congruent vars).tracking.append_left before (x := false) ?_
    have hlast : Reshapes vars (a ++ [.continueLoop (some l)]) (a ++ []) :=
      (congruent vars).tracking.append_left a (x := false) (.cut _)
    rw [List.append_nil] at hlast
    refine .trans (.arms c _ hlast (.refl []))
      (.trans (.intoElse c a [] _) (.trans (.turn c a _ []) ?_))
    simpa [ifThen] using outOfElse (c.negate vars) [.breakLoop (some l)] a []

theorem tidyLoop (l : Label) (c : Expr) (a ss : Block) :
    Reshapes vars (.loop (some l) c a :: ss) ((tidyLoop vars l c a).val :: ss) := by
  simp only [ByteLift.tidyLoop, Tracked.val_bind, Tracked.val_pure]
  generalize hb : (ByteLift.turnTail vars l (ByteLift.stripTail l a).val).val = b
  have hbody : Reshapes vars a b := hb ▸ .trans (stripTail l a) (turnTail l _)
  refine .trans (.body (some l) (some l) c ss hbody) ?_
  rcases pullCondition_cases vars l c b with hval | ⟨d, rest, rfl, _, hval⟩
  · rw [hval]
    exact .refl _
  · rw [hval]
    exact .condition (some l) c d _ _ rest ss

theorem dropLastIf (s : Stmt) (b : Block) : Reshapes vars b (dropLastIf s b).val := by
  unfold ByteLift.dropLastIf
  split
  · exact dropLast b
  · exact .refl b

theorem tidying (vars : VarTable) : Block.Tidying vars fun a b _ => Reshapes vars a b where
  toTurning := turning vars
  cut ss _ := .tail _ (.cut ss)
  dropLast c a b jump _ _ := .arms c _ (dropLastIf jump a) (dropLastIf jump b)
  loop := tidyLoop

theorem tidy (b : Block) : Reshapes vars b (tidy vars b) := (tidying vars).tidy b

theorem stripLabels (innermost : Option Label) (b : Block) :
    Reshapes vars b (stripLabels innermost b) := by
  induction b using Block.nestedInduction generalizing innermost with
  | nil => exact .refl []
  | cons s ss ihblocks ihss =>
    refine .trans (.tail s (ihss innermost)) ?_
    cases s with
    | breakLoop l => exact .breakTo l _ _
    | continueLoop l => exact .continueTo l _ _
    | loop l c a => exact .body l l c _ (ihblocks a (by simp) l)
    | ite c a b =>
      exact .arms c _ (ihblocks a (by simp) innermost) (ihblocks b (by simp) innermost)
    | block a => exact .inner _ (ihblocks a (by simp) innermost)
    | _ => exact .refl _

theorem dropLabels (used : Label → Bool) (b : Block) : Reshapes vars b (dropLabels used b) := by
  induction b using Block.nestedInduction with
  | nil => exact .refl []
  | cons s ss ihblocks ihss =>
    refine .trans (.tail s ihss) ?_
    cases s with
    | loop l c a => exact .body l _ c _ (ihblocks a (by simp))
    | ite c a b => exact .arms c _ (ihblocks a (by simp)) (ihblocks b (by simp))
    | block a => exact .inner _ (ihblocks a (by simp))
    | _ => exact .refl _

/-! ## Straight branches -/

theorem straightening (vars : VarTable) :
    Block.Straightening vars fun a b _ => Reshapes vars a b where
  toTurning := turning vars
  takeElse a b ss _ := .takeElse _ a b ss
  dropEmpty ss _ := .drop ss rfl
  effect := effect
  merge := merge

theorem straightenBranches (b : Block) : Reshapes vars b (Cleanup.straightenBranches vars b).val :=
  (straightening vars).straightenBranches b

end Reshapes

end ByteLift
