import Mathlib.Algebra.GroupWithZero.Nat
import ByteLift.Proofs.Cleanup.Unread
import ByteLift.Proofs.Variables.Placement

/-!
# What a body weighs

A branch and an assignment weigh two, a bare declaration nothing and every other statement one. No
pass makes a body heavier, and a pass that reports a change makes it lighter, unless all it does is
to read copies in place of one another, to move declarations and to exchange the arms of branches.
-/

namespace ByteLift

/-- The sum of a measure over the statements of a block, at any depth. -/
def Block.total (f : Stmt → Nat) (b : Block) : Nat := (b.stmts.map f).sum

/-- What a statement weighs itself, without its blocks. -/
def Stmt.weight : Stmt → Nat
  | ite .. => 2
  | declare _ none => 0
  | s => if s.assignment?.isSome then 2 else 1

/-- What the statements of a block weigh. -/
def Block.weight (b : Block) : Nat := b.total Stmt.weight

/-! ## Statements and blocks -/

theorem Stmt.weight_of_assignment? {s : Stmt} {p : Var × Expr} (h : s.assignment? = some p) :
    s.weight = 2 := by
  unfold assignment? at h
  split at h
  · rfl
  · rfl
  · cases h

theorem Stmt.weight_expr_bounds (e : Expr) :
    1 ≤ (Stmt.expr e).weight ∧ (Stmt.expr e).weight ≤ 2 := by
  simp only [weight]
  split <;> omega

/-- An expression that writes no variable is no assignment of one. -/
theorem Stmt.weight_expr {e : Expr} (he : e.isWriteFree = true) : (Stmt.expr e).weight = 1 := by
  have hassign : (Stmt.expr e).assignment? = none := by
    unfold assignment?
    split
    · rename_i v value heq
      cases heq
      exact absurd List.mem_cons_self (Expr.isWriteFree_iff.1 he v)
    · rename_i heq
      cases heq
    · rfl
  simp [weight, hassign]

namespace Block

section

variable (f : Stmt → Nat)

@[simp] theorem total_nil : total f [] = 0 := rfl

theorem total_cons (s : Stmt) (ss : Block) :
    total f (s :: ss) = f s + ((s.blocks.map (total f)).sum + ss.total f) := by
  cases s <;> simp [total, stmts_cons, Stmt.blocks, Nat.add_assoc]

@[simp] theorem total_append (a b : Block) : total f (a ++ b) = a.total f + b.total f := by
  simp [total]

@[simp] theorem total_ite (c : Expr) (a b ss : Block) :
    total f (.ite c a b :: ss) = f (.ite c a b) + (a.total f + (b.total f + ss.total f)) := by
  simp [total_cons, Stmt.blocks, Nat.add_assoc]

@[simp] theorem total_loop (l : Option Label) (c : Expr) (a ss : Block) :
    total f (.loop l c a :: ss) = f (.loop l c a) + (a.total f + ss.total f) := by
  simp [total_cons, Stmt.blocks]

@[simp] theorem total_block (a ss : Block) :
    total f (.block a :: ss) = f (.block a) + (a.total f + ss.total f) := by
  simp [total_cons]

end

@[simp] theorem weight_nil : weight [] = 0 := rfl

theorem weight_cons (s : Stmt) (ss : Block) :
    weight (s :: ss) = s.weight + ((s.blocks.map weight).sum + ss.weight) := total_cons _ s ss

@[simp] theorem weight_append (a b : Block) : weight (a ++ b) = a.weight + b.weight :=
  total_append _ a b

@[simp] theorem weight_ite (c : Expr) (a b ss : Block) :
    weight (.ite c a b :: ss) = 2 + (a.weight + (b.weight + ss.weight)) := total_ite _ c a b ss

@[simp] theorem weight_loop (l : Option Label) (c : Expr) (a ss : Block) :
    weight (.loop l c a :: ss) = 1 + (a.weight + ss.weight) := total_loop _ l c a ss

@[simp] theorem weight_block (a ss : Block) :
    weight (.block a :: ss) = 1 + (a.weight + ss.weight) :=
  total_block _ a ss

variable {s : Stmt}

theorem weight_of_blocks_eq_nil (h : s.blocks = []) (ss : Block) :
    weight (s :: ss) = s.weight + ss.weight := by
  simp [weight_cons, h]

@[simp] theorem weight_declare_none (v : Var) (ss : Block) :
    weight (.declare v none :: ss) = ss.weight := by
  simp [weight_cons, Stmt.weight]

theorem weight_of_assignment? {p : Var × Expr} (h : s.assignment? = some p) (ss : Block) :
    weight (s :: ss) = 2 + ss.weight := by
  have hblocks : s.blocks = [] := by
    unfold Stmt.assignment? at h
    split at h
    · rfl
    · rfl
    · cases h
  rw [weight_of_blocks_eq_nil hblocks, Stmt.weight_of_assignment? h]

theorem Hole.weight {K : Block → Block} (hK : Hole K) : ∃ k, ∀ b, weight (K b) = k + b.weight := by
  cases hK with
  | tail s => exact ⟨_, fun b => by rw [weight_cons, ← Nat.add_assoc]⟩
  | thenArm c b ss => exact ⟨2 + b.weight + ss.weight, fun a => by rw [weight_ite]; omega⟩
  | elseArm c a ss => exact ⟨2 + a.weight + ss.weight, fun b => by rw [weight_ite]; omega⟩
  | body l c ss => exact ⟨1 + ss.weight, fun a => by rw [weight_loop]; omega⟩
  | inner ss => exact ⟨1 + ss.weight, fun a => by rw [weight_block]; omega⟩

end Block

open Block

variable {a b : Block} {E : Block → Block → Prop}

/-- Another shape is never heavier. -/
theorem Reshapes.weight_le {vars : VarTable} (h : Reshapes vars a b) : b.weight ≤ a.weight := by
  induction h with
  | refl => exact Nat.le_refl _
  | trans _ _ ihab ihbc => exact Nat.le_trans ihbc ihab
  | tail s _ ih =>
    simp only [weight_cons]
    omega
  | drop ss _ =>
    simp only [weight_cons]
    omega
  | @effect c e ss _ =>
    have he := Stmt.weight_expr_bounds e
    rw [weight_of_blocks_eq_nil rfl, weight_ite]
    omega
  | breakTo | continueTo => exact Nat.le_refl _
  | _ =>
    simp <;> omega

/-! ## Passes that make a body lighter -/

/-- Relations between blocks that carry over from a part of a block to the whole, one part at a
time. -/
structure Block.Partwise (E : Block → Block → Prop) : Prop where
  trans : ∀ {a b c}, E a b → E b c → E a c
  tail : ∀ s {ss ss'}, E ss ss' → E (s :: ss) (s :: ss')
  thenArm : ∀ c b ss {a a'}, E a a' → E (.ite c a b :: ss) (.ite c a' b :: ss)
  elseArm : ∀ c a ss {b b'}, E b b' → E (.ite c a b :: ss) (.ite c a b' :: ss)
  body : ∀ l c ss {a a'}, E a a' → E (.loop l c a :: ss) (.loop l c a' :: ss)
  inner : ∀ ss {a a'}, E a a' → E (.block a :: ss) (.block a' :: ss)

theorem Block.Partwise.of_hole (trans : ∀ {a b c}, E a b → E b c → E a c)
    (hole : ∀ {K a b}, Hole K → E a b → E (K a) (K b)) : Partwise E where
  trans := trans
  tail s _ _ h := (hole (Hole.tail s) h :)
  thenArm c b ss _ _ h := (hole (Hole.thenArm c b ss) h :)
  elseArm c a ss _ _ h := (hole (Hole.elseArm c a ss) h :)
  body l c ss _ _ h := (hole (Hole.body l c ss) h :)
  inner ss _ _ h := (hole (Hole.inner ss) h :)

theorem Block.Partwise.hole (hE : Partwise E) {K : Block → Block} (hK : Hole K) (h : E a b) :
    E (K a) (K b) := by
  cases hK with
  | tail s => exact hE.tail s h
  | thenArm c b ss => exact hE.thenArm c b ss h
  | elseArm c a ss => exact hE.elseArm c a ss h
  | body l c ss => exact hE.body l c ss h
  | inner ss => exact hE.inner ss h

/-- The relation that holds of no two blocks. -/
theorem Block.partwise_false : Partwise fun _ _ => False := .of_hole (fun h _ => h) fun _ => id

/-- What a pass may make of a block in which variables are assigned as a whole. Without a reported
change the block is the same; with one it is lighter, or as heavy and `E` says what has changed. -/
def Lowers (E : Block → Block → Prop) (a b : Block) (changed : Bool) : Prop :=
  a.writesWhole = true → b.writesWhole = true ∧
    if changed then b.weight < a.weight ∨ b.weight = a.weight ∧ E a b else b = a

namespace Lowers

variable {a' c ss : Block} {x y : Bool}

theorem refl (E : Block → Block → Prop) (a : Block) : Lowers E a a false := fun h => ⟨h, by simp⟩

theorem of_lt (hwhole : KeepsWhole .writes a b) (h : a.writesWhole = true → b.weight < a.weight) :
    Lowers E a b true :=
  fun ha => ⟨hwhole.writesWhole ha, by simp [h ha]⟩

theorem of_rel (hwhole : KeepsWhole .writes a b) (hweight : b.weight = a.weight) (h : E a b) :
    Lowers E a b true :=
  fun ha => ⟨hwhole.writesWhole ha, by simp [hweight, h]⟩

theorem mono {F : Block → Block → Prop} (h : Lowers E a b x) (hEF : ∀ {a b}, E a b → F a b) :
    Lowers F a b x := by
  intro ha
  obtain ⟨hb, h⟩ := h ha
  refine ⟨hb, ?_⟩
  cases x with
  | false => exact h
  | true =>
    rw [if_pos rfl] at h ⊢
    exact h.imp_right fun ⟨hweight, hrel⟩ => ⟨hweight, hEF hrel⟩

theorem trans (hE : Partwise E) (hab : Lowers E a b x) (hbc : Lowers E b c y) :
    Lowers E a c (x || y) := by
  intro ha
  obtain ⟨hb, hab⟩ := hab ha
  obtain ⟨hc, hbc⟩ := hbc hb
  refine ⟨hc, ?_⟩
  cases x with
  | false =>
    obtain rfl : b = a := by simpa using hab
    exact hbc
  | true =>
    cases y with
    | false =>
      obtain rfl : c = b := by simpa using hbc
      exact hab
    | true =>
      simp only [if_true, Bool.or_self] at hab hbc ⊢
      rcases hab with hab | ⟨hab, hE₁⟩
      · exact .inl (by omega)
      · rcases hbc with hbc | ⟨hbc, hE₂⟩
        · exact .inl (by omega)
        · exact .inr ⟨by omega, hE.trans hE₁ hE₂⟩

/-- What is made of a part of a block is made of the block. -/
theorem hole (hE : Partwise E) {K : Block → Block} (hK : Hole K) (h : Lowers E a b x) :
    Lowers E (K a) (K b) x := by
  obtain ⟨p, hp⟩ := hK.writesWhole
  obtain ⟨k, hk⟩ := hK.weight
  intro ha
  obtain ⟨hrest, ha⟩ := (hp a).1 ha
  obtain ⟨hb, h⟩ := h ha
  refine ⟨(hp b).2 ⟨hrest, hb⟩, ?_⟩
  cases x with
  | false =>
    obtain rfl : b = a := by simpa using h
    simp
  | true =>
    simp only [if_true, hk] at h ⊢
    exact h.imp (by omega) fun ⟨heq, hab⟩ => ⟨by omega, hE.hole hK hab⟩

theorem tracking (hE : Partwise E) : Tracking (Lowers E) where
  refl := refl E
  trans := trans hE
  tail s _ _ _ h := (hole hE (Hole.tail s) h :)
  arms c ss _ a' b _ _ _ ha hb :=
    trans hE (hole hE (Hole.thenArm c b ss) ha :) (hole hE (Hole.elseArm c a' ss) hb :)
  body l c ss _ _ _ h := (hole hE (Hole.body l c ss) h :)
  inner ss _ _ _ h := (hole hE (Hole.inner ss) h :)

section

variable {t : Tracked Block}

/-- A pass that never changes the weight. -/
theorem of_weight (hwhole : KeepsWhole .writes a b)
    (hweight : a.writesWhole = true → b.weight = a.weight)
    (hval : x = false → b = a) : Lowers (fun _ _ => True) a b x := by
  intro ha
  refine ⟨hwhole.writesWhole ha, ?_⟩
  split
  · exact .inr ⟨hweight ha, trivial⟩
  · exact hval (Bool.eq_false_iff.2 ‹_›)

theorem weight_le (h : Lowers E a b x) (ha : a.writesWhole = true) : b.weight ≤ a.weight := by
  obtain ⟨-, h⟩ := h ha
  split at h
  · rcases h with h | ⟨h, -⟩ <;> omega
  · exact Nat.le_of_eq (congrArg weight h)

section

variable (h : Lowers E b t.val t.changed) (hb : b.writesWhole = true)
include h hb

/-- A pass that reports no change makes none. -/
theorem eq_pure (hchanged : t.changed = false) : t = pure b := by
  obtain ⟨-, h⟩ := h hb
  rw [hchanged] at h
  exact Tracked.ext h hchanged

/-- If a body is as heavy as before, it is the same or all that has changed is what the relation
says. -/
theorem cases_of_weight (hweight : t.val.weight = b.weight) : t = pure b ∨ E b t.val := by
  cases hchanged : t.changed with
  | false => exact .inl (h.eq_pure hb hchanged)
  | true =>
    obtain ⟨-, h⟩ := h hb
    rw [if_pos hchanged] at h
    exact .inr (h.resolve_left (by omega)).2

end

end

end Lowers

namespace Cleanup

/-! ## Statements that are dropped or put together -/

variable {s : Stmt} {v : Var}

theorem one_le_weight_of_isNoOp (h : isNoOp s = true) : 1 ≤ s.weight := by
  unfold isNoOp at h
  split at h
  · simp [Stmt.weight, Stmt.assignment?]
  · exact (Stmt.weight_expr_bounds _).1
  · cases h

theorem lowers_dropNoOpsHere (hE : Partwise E) : Obeys (Lowers E) dropNoOpsHere := by
  refine (Lowers.tracking hE).dropNoOpsHere fun ss hs =>
    .of_lt (fun h => (follows_cons.1 h).2.2) fun _ => ?_
  have := one_le_weight_of_isNoOp hs
  rw [weight_cons]
  omega

theorem weight_withValue (s : Stmt) (value : Expr) : (s.withValue value).weight = s.weight := by
  unfold Stmt.withValue
  split <;> rfl

theorem weight_cons_withValue (s : Stmt) (value : Expr) (ss : Block) :
    weight (s.withValue value :: ss) = weight (s :: ss) := by
  rw [weight_cons, weight_cons, weight_withValue, Stmt.blocks_withValue]

theorem weight_constructorCall? {p : MethodRef × List Expr} (h : constructorCall? v s = some p) :
    s.weight = 1 := by
  unfold constructorCall? at h
  split at h
  · rfl
  · cases h

/-- The assignment stays, and the call of the constructor goes. -/
theorem lowers_fuseHere (hE : Partwise E) : Obeys (Lowers E) fuseHere := by
  refine (Lowers.tracking hE).fuseHere fun _ hsite => .of_lt (keepsWhole_fused hsite _) fun _ => ?_
  obtain ⟨call, rfl, hcall⟩ := constructorSite?_eq hsite
  have := weight_constructorCall? hcall
  simp only [weight_append, weight_cons_withValue]
  simp only [weight_cons, weight_append]
  omega

theorem lowers_forwardHere (hE : Partwise E) (uses : List Use) :
    Obeys (Lowers E) (forwardHere uses) := by
  refine (Lowers.tracking hE).forwardHere fun {s t} ss hforward =>
    .of_lt (keepsWhole_forwarded s t ss) fun _ => ?_
  have hs : s.weight = 2 := by
    unfold forwardable at hforward
    split at hforward
    · rename_i hassign _
      exact Stmt.weight_of_assignment? hassign
    · cases hforward
  rw [weight_cons_withValue, weight_cons s]
  omega

theorem weight_replaceStmtReads {f : Var → Option Expr}
    (hf : ∀ v e, f v = some e → e.isWriteFree = true)
    (hs : s.writesWhole = true) : (replaceStmtReads f s).val.weight = s.weight := by
  rcases Stmt.writesWhole_cases hs with ⟨v, e, rfl, -⟩ | hexprs
  · rw [replaceStmtReads_set]
    rfl
  · cases s with
    | expr e =>
      have he := hexprs e (by simp [Stmt.exprs])
      exact (Stmt.weight_expr (Expr.isWriteFree_replaceReads hf he)).trans
        (Stmt.weight_expr he).symm
    | declare v init => cases init <;> rfl
    | ret value => cases value <;> rfl
    | goto l cond => cases cond <;> rfl
    | _ => rfl

theorem lowers_inlineHere (hE : Partwise E) (uses : List Use) :
    Obeys (Lowers E) (inlineHere uses) := by
  refine (Lowers.tracking hE).inlineHere fun {s next v value} ss hinline =>
    .of_lt (keepsWhole_inlined hinline ss) fun h => ?_
  have hassign := (inlinable?_eq_some hinline).1
  obtain ⟨hs, _, hrest⟩ := follows_cons.1 ((follows_writes _).trans h)
  have hvalue := Stmt.free_of_assignment? hs hassign
  have hnext := (Stmt.follows_writes next).symm.trans (follows_cons.1 hrest).1
  rw [weight_of_assignment? hassign, weight_cons, weight_cons, blocks_replaceStmtReads,
    weight_replaceStmtReads (fun _ _ => free_only (D := .writes) hvalue) hnext]
  omega

section

variable (hE : Partwise E) (b : Block)
include hE

theorem lowers_dropNoOps : Lowers E b (dropNoOps b).val (dropNoOps b).changed :=
  (Lowers.tracking hE).rewrite (lowers_dropNoOpsHere hE) b

theorem lowers_construct : Lowers E b (construct b).val (construct b).changed :=
  .trans hE ((Lowers.tracking hE).rewrite (lowers_fuseHere hE) b)
    ((Lowers.tracking hE).rewrite (lowers_forwardHere hE _) _)

theorem lowers_inlineOnce : Lowers E b (inlineOnce b).val (inlineOnce b).changed :=
  (Lowers.tracking hE).rewrite (lowers_inlineHere hE _) b

end

/-! ## Copies -/

theorem lowers_propagateCopies (b : Block) :
    Lowers (fun _ _ => True) b (propagateCopies b).val (propagateCopies b).changed := by
  rw [propagateCopies, Tracked.val_map, Tracked.changed_map]
  refine (Lowers.tracking (.of_hole (fun _ _ => trivial) fun _ _ => trivial)).copyBlock
    (fun c s ss => ?_) [] b
  refine .of_weight (keepsWhole_replaced (fun _ _ => free_substitute) s ss)
    (fun h => ?_) fun h => ?_
  · rw [weight_cons, weight_cons, blocks_replaceStmtReads,
      weight_replaceStmtReads (fun _ _ => free_substitute (D := .writes)) (writesWhole_cons.1 h).1]
  · rw [replaceStmtReads_eq_pure (changed_replaceStmtReads.1 h), Tracked.val_pure]

/-! ## Declarations -/

theorem congruent_sameWeight : Congruent fun a b => b.weight = a.weight := by
  refine .of_hole (fun _ => rfl) (fun hab hbc => hbc.trans hab) fun hK h => ?_
  obtain ⟨k, hk⟩ := hK.weight
  rw [hk, hk, h]

theorem weight_hoist (b : Block) : (hoist b).weight = b.weight :=
  congruent_sameWeight.hoist (by simp)
    (fun v e ss => by rw [weight_of_assignment? rfl, weight_of_assignment? rfl]) b

theorem Placed.weight (h : Placed v a b) : b.weight = a.weight :=
  h.of_congruent congruent_sameWeight (by simp)
    fun value ss => by rw [weight_of_assignment? rfl, weight_of_assignment? rfl]

theorem weight_placeAll (vs : List Var) (b : Block) : (placeAll vs b).weight = b.weight := by
  induction vs generalizing b with
  | nil => rfl
  | cons v vs ih => exact (ih _).trans (placed_place v b).weight

theorem weight_placeDeclarations (vars : VarTable) (b : Block) :
    (placeDeclarations vars b).val.weight = b.weight :=
  (weight_placeAll _ _).trans (weight_hoist b)

/-! ## Variables that are never read -/

theorem congruent_sameUses : Congruent fun a b => b.uses = a.uses := by
  refine .of_hole (fun _ => rfl) (fun hab hbc => hbc.trans hab) fun hK h => ?_
  obtain ⟨_, _, huses⟩ := hK.uses
  rw [huses, huses, h]

theorem uses_hoist (b : Block) : (hoist b).uses = b.uses :=
  congruent_sameUses.hoist (fun v ss => by simp [uses_cons, Stmt.ownUses, Stmt.exprs])
    (fun v e ss =>
    by simp [uses_cons, Stmt.set, Stmt.ownUses, Stmt.exprs, Expr.uses, Expr.usesAs]) b

/-- The two blocks are the same without their declarations, and the first one declares a variable
that is not needed. -/
def DropsDeclaration (unread : Var → Bool) (a b : Block) : Prop :=
  hoist b = hoist a ∧ ∃ v ∈ a.declared, unread v = true

theorem hoist_cons_congr (s : Stmt) {ss ss' : Block} (h : hoist ss' = hoist ss) :
    hoist (s :: ss') = hoist (s :: ss) := by
  cases s with
  | declare v init => cases init <;> simp [hoist, h]
  | _ => simp [hoist, h]

theorem partwise_dropsDeclaration (unread : Var → Bool) : Partwise (DropsDeclaration unread) := by
  refine .of_hole (fun ⟨hab, hv⟩ ⟨hbc, _⟩ => ⟨hbc.trans hab, hv⟩) ?_
  rintro K a b hK ⟨h, v, hv, hunread⟩
  obtain ⟨_, _, hdeclared⟩ := hK.declared
  refine ⟨?_, v, by simp [hdeclared, hv], hunread⟩
  cases hK with
  | tail s => exact hoist_cons_congr s h
  | _ => simp [hoist, hoistIn, h]

theorem lowers_sweep (unread : Var → Bool) :
    Obeys (Lowers (DropsDeclaration unread)) (sweep unread) := by
  refine (Lowers.tracking (partwise_dropsDeclaration unread)).sweep fun {s left} ss hleft => ?_
  have hwhole := keepsWhole_leftover? (D := .writes) hleft ss
  rcases leftover?_eq_some hleft with ⟨v, rfl, hunread, rfl⟩ | ⟨v, value, hassign, _, hcases⟩
  · exact .of_rel hwhole (weight_declare_none v ss).symm ⟨rfl, v, by simp, hunread⟩
  · refine .of_lt hwhole fun h => ?_
    have hs := (Stmt.follows_writes s).trans (writesWhole_cons.1 h).1
    have hvalue := Stmt.weight_expr (Stmt.free_of_assignment? hs hassign)
    rw [weight_of_assignment? hassign]
    rcases hcases with ⟨_, rfl⟩ | ⟨_, rfl⟩
    · simp
    · simp [weight_cons, hvalue]

/-- A statement that assigns variables only as a whole and writes one is an assignment of it. -/
theorem assignment?_of_write (hs : s.writesWhole = true) (h : .write v ∈ s.ownUses) :
    ∃ value, s.assignment? = some (v, value) := by
  rcases Stmt.writesWhole_cases hs with ⟨w, e, rfl, he⟩ | hexprs
  · have hmem : Use.write v = .write w ∨ .write v ∈ e.usesAs false := by
      simpa [Stmt.ownUses, Stmt.set, Stmt.exprs, Expr.uses, Expr.usesAs] using h
    rcases hmem with heq | hmem
    · cases heq
      exact ⟨e, rfl⟩
    · exact absurd hmem (Expr.isWriteFree_iff.1 he v)
  · rcases Stmt.mem_ownUses h with ⟨w, hw, heq⟩ | ⟨e, he, hmem⟩
    · cases heq
      cases s with
      | declare w init =>
        cases hw
        cases init with
        | none => simp [Stmt.ownUses, Stmt.exprs] at h
        | some e => exact ⟨e, rfl⟩
      | _ => cases hw
    · exact absurd hmem (Expr.isWriteFree_iff.1 (hexprs e he) v)

/-- Where there is nothing to drop, no variable that is not needed is written. -/
theorem write_notMem_rewrite {unread : Var → Bool} (hv : unread v = true) (b : Block)
    (h : b.writesWhole = true) : .write v ∉ Block.uses (b.rewrite (sweep unread)).val := by
  have hwhole := (congruent_keepsWhole.rewrite (keepsWhole_sweep unread) b).writesWhole h
  intro hmem
  obtain ⟨s, hs, hown⟩ := List.mem_flatMap.1 hmem
  obtain ⟨value, hassign⟩ := assignment?_of_write (List.all_eq_true.1 hwhole s hs) hown
  exact (leftover?_eq_none.1 (swept_rewrite b h s hs) v hv).2 value hassign

theorem lowers_dropUnread (b : Block) :
    Lowers (DropsDeclaration fun v => !b.uses.contains (.read v)) b (dropUnread b).val
      (dropUnread b).changed :=
  (Lowers.tracking (partwise_dropsDeclaration _)).rewrite (lowers_sweep _) b

/-- If the body is as heavy as before, only declarations were dropped. -/
theorem hoist_dropUnread (hwhole : b.writesWhole = true)
    (hweight : (dropUnread b).val.weight = b.weight) : hoist (dropUnread b).val = hoist b := by
  rcases (lowers_dropUnread b).cases_of_weight hwhole hweight with h | h
  · rw [h, Tracked.val_pure]
  · exact h.1

/-- If the body is as heavy as before and uses every variable it declares, nothing was dropped. -/
theorem dropUnread_eq_pure (hwhole : b.writesWhole = true)
    (hused : ∀ v ∈ b.declared, ∃ u ∈ b.uses, u.var = v)
    (hweight : (dropUnread b).val.weight = b.weight) : dropUnread b = pure b := by
  refine ((lowers_dropUnread b).cases_of_weight hwhole hweight).resolve_right ?_
  rintro ⟨hhoist, v, hv, hunread⟩
  obtain ⟨u, hu, rfl⟩ := hused v hv
  cases u with
  | read v => simp [Use.var, hu] at hunread
  | write v =>
    -- An assignment of the variable would have been dropped as well.
    have hdropped : .write v ∉ Block.uses (dropUnread b).val :=
      write_notMem_rewrite hunread b hwhole
    rw [← uses_hoist, hhoist, uses_hoist] at hdropped
    exact hdropped hu

end Cleanup

end ByteLift
