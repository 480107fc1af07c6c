import ByteLift.Proofs.Cleanup.FusionSteps
import ByteLift.Proofs.Semantics.Objects

/-!
# Objects that are left behind

What stands between an allocation and its constructor may jump away and leave the object behind raw;
once the allocation has been moved, it is not allocated at all. This matters only if a constructor
is run on it elsewhere. A body in which that cannot happen is *guarded*, and it stays so.
-/

namespace ByteLift

open Stmt

/-! ## Jumps to loops around a block -/


namespace Stmt

mutual

/-- Whether a statement contains a jump to a loop around it. The loops that jumps inside the
statement may name are given, with `none` for the innermost one. -/
def leaves (inside : List (Option Label)) : Stmt → Bool
  | breakLoop l | continueLoop l => !inside.contains l
  | ite _ a b => leavesList inside a || leavesList inside b
  | loop l _ a => leavesList (none :: l :: inside) a
  | block a => leavesList inside a
  | _ => false

/-- Whether a block contains a jump to a loop around it. -/
def leavesList (inside : List (Option Label)) : Block → Bool
  | [] => false
  | s :: ss => s.leaves inside || leavesList inside ss

end

end Stmt

/-- Whether a block contains a jump to a loop around it. -/
def Block.leaves (b : Block) : Bool := Stmt.leavesList [] b

section

variable {σ ν : Type} {S : Semantics σ ν}

variable {l : Option Label} {kind : LoopJump}

/-- A loop passes on no jump that names it. -/
theorem ne_label_of_ofRound {label : Option Label} {x : Exit ν}
    (h : x.ofRound label = some (kind.exit l)) : l ≠ label := by
  obtain ⟨rfl, hsome⟩ := eq_exit_of_ofRound h
  obtain ⟨m, rfl⟩ := Option.isSome_iff_exists.1 hsome
  rintro rfl
  cases kind <;> simp [LoopJump.exit, Exit.ofRound] at h

/-- A block that ends in a jump to a loop around it contains one. -/
theorem leavesList_of_meaning (b : Block) {inside : List (Option Label)} {s t : σ}
    (h : meaningList S b s (kind.exit l) t) (hl : l ∉ inside) : leavesList inside b = true := by
  refine exit_induction (P := fun b y => ∀ inside,
    y = kind.exit l → l ∉ inside → leavesList inside b = true)
    ?_ ?_ ?_ ?_ ?_ ?_ ?_ ?_ b h inside rfl hl
  · intro inside hy
    cases kind <;> cases hy
  · intro b v inside hy
    cases kind <;> cases hy
  · rintro x s _ t xs hx hact inside rfl hl
    have htarget := eq_jump_of_act hx hact
    cases x with
    | breakLoop | continueLoop => cases kind <;> simp_all [jumpTarget?, leavesList, Stmt.leaves]
    | _ => cases kind <;> cases htarget
  · intro x xs y ih inside hy hl
    simp [leavesList, ih inside hy hl]
  · intro c b xs a y ih inside hy hl
    simp [leavesList, Stmt.leaves, ih inside hy hl]
  · intro c a xs b y ih inside hy hl
    simp [leavesList, Stmt.leaves, ih inside hy hl]
  · rintro m x _ c xs a ih hround inside rfl hl
    have hne := ne_label_of_ofRound hround
    obtain ⟨rfl, hsome⟩ := eq_exit_of_ofRound hround
    have hinside : l ∉ none :: m :: inside := by
      simp only [List.mem_cons, not_or]
      exact ⟨fun hnone => by simp [hnone] at hsome, hne, hl⟩
    simp [leavesList, Stmt.leaves, ih _ rfl hinside]
  · intro xs a y ih inside hy hl
    simp [leavesList, Stmt.leaves, ih inside hy hl]

/-- A run that ends in a jump to a loop around the block is one of a block with such a jump. -/
theorem Block.leaves_of_exec {b : Block} {n : ℕ} {s t : σ}
    (h : b.exec S n s = some (kind.exit l, t)) : b.leaves = true :=
  leavesList_of_meaning b (meaningList_of_exec b h) List.not_mem_nil

end

/-! ## Guarded bodies -/

/-- The number of places in a statement where a constructor is run on the object in a variable,
without those in its blocks. -/
def Stmt.constructions (v : Var) (s : Stmt) : ℕ := (s.exprs.map (Expr.constructions v)).sum

/-- The number of places in a block where a constructor is run on the object in a variable, at any
depth. -/
def Block.constructions (v : Var) (b : Block) : ℕ := b.total (Stmt.constructions v)

namespace Cleanup

open Block

/-- Whether a block runs a constructor on the object in a variable that it does not mention before,
behind a jump to a loop around it. `left` says that there has been such a jump. -/
def crosses (v : Var) (left : Bool) : Block → Bool
  | [] => false
  | s :: ss =>
    if s.mentions v then left && (constructorCall? v s).isSome else crosses v
      (left || s.leaves []) ss

mutual

/-- Whether an allocation in a block of a statement may be left behind on the way to its
constructor. -/
def exposesIn (v : Var) : Stmt → Bool
  | .ite _ a b => exposes v a || exposes v b
  | .loop _ _ a | .block a => exposes v a
  | _ => false

/-- Whether an allocation in a block, at any depth, may be left behind on the way to its
constructor. -/
def exposes (v : Var) : Block → Bool
  | [] => false
  | s :: ss =>
      (((allocation? s).any (·.1 = v) && crosses v false ss) || exposesIn v s) || exposes v ss

end

/-- If a constructor is run on the object in a variable in more than one place, no allocation for
that variable may be left behind. -/
def Guarded (b : Block) : Prop := ∀ v, b.constructions v ≤ 1 ∨ exposes v b = false

/-- The second block is guarded if the first one is. -/
structure KeepsGuard (a b : Block) : Prop where
  mentions : ∀ v, b.mentions v = a.mentions v
  leaves : ∀ inside, Stmt.leavesList inside b = Stmt.leavesList inside a
  crosses : ∀ v left, crosses v left b = true → crosses v left a = true
  exposes : ∀ v, exposes v b = true → exposes v a = true
  constructions : ∀ v, b.constructions v ≤ a.constructions v

theorem KeepsGuard.guarded {a b : Block} (h : KeepsGuard a b) (ha : Guarded a) : Guarded b := by
  intro v
  rcases ha v with hle | hexposes
  · exact .inl ((h.constructions v).trans hle)
  · refine .inr (Bool.eq_false_iff.2 fun hb => ?_)
    rw [h.exposes v hb] at hexposes
    cases hexposes

/-- Statements with other blocks in place of theirs. -/
theorem KeepsGuard.head {s s' : Stmt} (hmentions : ∀ v, s'.mentions v = s.mentions v)
    (hleaves : ∀ inside, s'.leaves inside = s.leaves inside)
    (hcall : ∀ v, constructorCall? v s' = constructorCall? v s)
    (halloc : allocation? s' = none) (hexposes : ∀ v, exposesIn v s' = true → exposesIn v s = true)
    (hconstructions : ∀ v, Block.constructions v [s'] ≤ Block.constructions v [s]) (ss : Block) :
    KeepsGuard (s :: ss) (s' :: ss) where
  mentions v := by rw [mentions_cons, mentions_cons, hmentions]
  leaves inside := by rw [leavesList, leavesList, hleaves]
  crosses v left h := by rwa [Cleanup.crosses, ← hmentions, ← hleaves, ← hcall]
  exposes v h := by
    rw [Cleanup.exposes, halloc, Option.any_none, Bool.false_and, Bool.false_or,
      Bool.or_eq_true] at h
    rw [Cleanup.exposes, Bool.or_eq_true, Bool.or_eq_true]
    exact h.imp (fun h => .inr (hexposes v h)) id
  constructions v := by
    have := hconstructions v
    simp only [Block.constructions, total_cons, total_nil] at this ⊢
    omega

/-- What keeps a part of a body guarded keeps the body guarded. -/
theorem congruent_keepsGuard : Congruent KeepsGuard where
  refl b := ⟨fun _ => rfl, fun _ => rfl, fun _ _ => id, fun _ => id, fun _ => le_rfl⟩
  trans h h' :=
    { mentions v := (h'.mentions v).trans (h.mentions v)
      leaves inside := (h'.leaves inside).trans (h.leaves inside)
      crosses v left hc := h.crosses v left (h'.crosses v left hc)
      exposes v hb := h.exposes v (h'.exposes v hb)
      constructions v := (h'.constructions v).trans (h.constructions v) }
  tail s ss ss' h :=
    { mentions v := by rw [mentions_cons, mentions_cons, h.mentions]
      leaves inside := by rw [leavesList, leavesList, h.leaves]
      crosses v left hc := by
        rw [crosses] at hc ⊢
        split at hc
        · rwa [if_pos ‹_›]
        · rw [if_neg ‹_›]
          exact h.crosses v _ hc
      exposes v hb := by
        simp only [exposes, Bool.or_eq_true, Bool.and_eq_true] at hb ⊢
        exact hb.imp (.imp_left (.imp_right (h.crosses v false))) (h.exposes v)
      constructions v := by
        have := h.constructions v
        simp only [Block.constructions, total_cons] at this ⊢
        omega }
  arms c ss a a' b b' ha hb := by
    refine .head (fun v => ?_) (fun inside => ?_) (fun v => ?_) ?_ (fun v h => ?_) (fun v => ?_) ss
    · rw [mentions_ite, mentions_ite, ha.mentions, hb.mentions]
    · rw [Stmt.leaves, Stmt.leaves, ha.leaves, hb.leaves]
    · rfl
    · rfl
    · rw [exposesIn, Bool.or_eq_true] at h ⊢
      exact h.imp (ha.exposes v) (hb.exposes v)
    · have := ha.constructions v
      have := hb.constructions v
      simp only [Block.constructions, total_ite, Stmt.constructions, Stmt.exprs] at *
      omega
  body l c ss a a' h := by
    refine .head (fun v => ?_) (fun inside => ?_) (fun v => ?_) ?_ (fun v h' => ?_) (fun v => ?_) ss
    · rw [mentions_loop, mentions_loop, h.mentions]
    · rw [Stmt.leaves, Stmt.leaves, h.leaves]
    · rfl
    · rfl
    · rw [exposesIn] at h' ⊢
      exact h.exposes v h'
    · have := h.constructions v
      simp only [Block.constructions, total_loop, Stmt.constructions, Stmt.exprs] at *
      omega
  inner ss a a' h := by
    refine .head (fun v => ?_) (fun inside => ?_) (fun v => ?_) ?_ (fun v h' => ?_) (fun v => ?_) ss
    · rw [mentions_block, mentions_block, h.mentions]
    · rw [Stmt.leaves, Stmt.leaves, h.leaves]
    · rfl
    · rfl
    · rw [exposesIn] at h' ⊢
      exact h.exposes v h'
    · have := h.constructions v
      simp only [Block.constructions, total_block, Stmt.constructions, Stmt.exprs] at *
      omega

theorem leavesList_append (inside : List (Option Label)) (a b : Block) :
    leavesList inside (a ++ b) = (leavesList inside a || leavesList inside b) := by
  induction a with
  | nil => rfl
  | cons s ss ih => simp [leavesList, ih, Bool.or_assoc]

/-! ### One step -/

section

variable {s : Stmt} {v : Var} {m : MethodRef} {args : List Expr} {before : Block}

theorem mentions_construct (u v : Var) (m : MethodRef) (args : List Expr) :
    (Stmt.expr (.construct (.var v) m args)).mentions u =
      (decide (u = v) || (Expr.new m args).mentions u) := by
  rw [Bool.eq_iff_iff, Stmt.mentions, Bool.or_eq_true, mentions_iff, Expr.mentions_iff,
    decide_eq_true_iff]
  simp [uses_cons, ownUses, Stmt.exprs, blocks, declared_cons, declared?, Expr.uses,
    Expr.usesAs, Use.var, eq_comm]

variable {value : Expr}

theorem mentions_of_assignment? (hs : s.assignment? = some (v, value)) (u : Var) :
    s.mentions u = (decide (u = v) || value.mentions u) := by
  rw [Bool.eq_iff_iff, Stmt.mentions, Bool.or_eq_true, mentions_iff, Expr.mentions_iff,
    decide_eq_true_iff]
  rcases eq_of_assignment? hs with rfl | rfl
  · simp [uses_cons, Stmt.set, ownUses, Stmt.exprs, blocks, declared_cons, declared?,
      Expr.uses, Expr.usesAs, Use.var, eq_comm]
  · simp [uses_cons, ownUses, blocks, declared_cons, declared?, Expr.uses, Use.var, eq_comm,
      or_comm]

/-- The allocation's own statement and the constructor, in terms of the new object. -/
theorem constructions_of_assignment? (hs : s.assignment? = some (v, value)) (u : Var) :
    s.constructions u = value.constructions u := by
  rcases eq_of_assignment? hs with rfl | rfl
  · simp [Stmt.constructions, Stmt.set, Stmt.exprs, Expr.constructions, Expr.subexprs,
      Expr.isConstructionOf]
  · simp [Stmt.constructions, Stmt.exprs]

theorem constructions_construct (u v : Var) (m : MethodRef) (args : List Expr) :
    (Stmt.expr (.construct (.var v) m args)).constructions u =
      (Expr.new m args).constructions u + if v = u then 1 else 0 := by
  simp [Stmt.constructions, Stmt.exprs, Expr.constructions, Expr.subexprs, Expr.isConstructionOf,
    List.countP_cons]

section

variable (hs : s.assignment? = some (v, value))
include hs

theorem assignment?_withValue {value' : Expr} :
    (s.withValue value').assignment? = some (v, value') := by
  rcases eq_of_assignment? hs with rfl | rfl <;> rfl

theorem leaves_of_assignment? (inside : List (Option Label)) : s.leaves inside = false := by
  rcases Stmt.eq_of_assignment? hs with rfl | rfl <;> simp [Stmt.leaves, Stmt.set]

theorem exposesIn_of_assignment? (u : Var) : exposesIn u s = false := by
  rcases eq_of_assignment? hs with rfl | rfl <;> simp [exposesIn, Stmt.set]

theorem constructorCall?_of_assignment? (u : Var) : constructorCall? u s = none := by
  rcases eq_of_assignment? hs with rfl | rfl <;> rfl

end

/-- No constructor is run on an object that is assigned again. -/
theorem crosses_append_of_mentions (hbefore : before.mentions v = false) {x : Stmt}
    (hx : x.mentions v = true) (left : Bool) (ss : Block) : crosses v left (before ++ x :: ss) =
      ((left || leavesList [] before) && (constructorCall? v x).isSome) := by
  induction before generalizing left with
  | nil => simp [crosses, hx, leavesList]
  | cons y before ih =>
    rw [mentions_cons, Bool.or_eq_false_iff] at hbefore
    simp [crosses, hbefore.1, ih hbefore.2, leavesList, Bool.or_assoc]

variable (hs : s.assignment? = some (v, .alloc m.owner))

include hs

/-- On the way to the constructor of another object, a new object is as good as a call of its
constructor. -/
theorem crosses_withValue (u : Var) (left : Bool) (ss : Block)
    (h : crosses u left (before ++ s.withValue (.new m args) :: ss) = true) :
    crosses u left (before ++ .expr (.construct (.var v) m args) :: ss) = true := by
  have hnew : (s.withValue (.new m args)).assignment? = _ := assignment?_withValue hs
  induction before generalizing left with
  | nil =>
    simp only [List.nil_append, crosses, mentions_of_assignment? hnew, leaves_of_assignment? hnew,
      constructorCall?_of_assignment? hnew] at h
    simp only [List.nil_append, crosses, mentions_construct, Stmt.leaves]
    split at h
    · simp at h
    · rwa [if_neg ‹_›]
  | cons x before ih =>
    simp only [List.cons_append, crosses] at h ⊢
    split at h
    · rwa [if_pos ‹_›]
    · rw [if_neg ‹_›]
      exact ih _ h

theorem exposes_withValue (u : Var) (ss : Block)
    (h : exposes u (before ++ s.withValue (.new m args) :: ss) = true) :
    exposes u (before ++ .expr (.construct (.var v) m args) :: ss) = true := by
  have hnew : (s.withValue (.new m args)).assignment? = _ := assignment?_withValue hs
  induction before with
  | nil =>
    have halloc : allocation? (s.withValue (.new m args)) = none := by simp [allocation?, hnew]
    simp only [List.nil_append, exposes, exposesIn_of_assignment? hnew, halloc, Option.any_none,
      Bool.false_and, Bool.false_or] at h
    simp [exposes, h]
  | cons x before ih =>
    simp only [List.cons_append, exposes, Bool.or_eq_true, Bool.and_eq_true] at h ⊢
    exact h.imp (.imp_left (.imp_right (crosses_withValue hs u false ss))) ih

/-- Putting an allocation together with its constructor leaves a guarded body guarded. -/
theorem keepsGuard_fused (hbefore : before.mentions v = false) (ss : Block) :
    KeepsGuard (s :: (before ++ .expr (.construct (.var v) m args) :: ss))
      (before ++ s.withValue (.new m args) :: ss) := by
  have hnew : (s.withValue (.new m args)).assignment? = _ := assignment?_withValue hs
  refine ⟨fun u => ?_, fun inside => ?_, fun u left h => ?_, fun u h => ?_, fun u => ?_⟩
  · simp only [mentions_cons, mentions_append, mentions_of_assignment? hs,
      mentions_of_assignment? hnew, mentions_construct]
    cases decide (u = v) <;> simp [Expr.mentions, Expr.uses, Expr.usesAs]
  · simp [Stmt.leavesList, leavesList_append, leaves_of_assignment? hs, leaves_of_assignment? hnew,
      Stmt.leaves]
  · rw [crosses, leaves_of_assignment? hs, Bool.or_false]
    split
    · -- Only the variable itself is mentioned, and it is assigned before any constructor is run.
      rename_i hmentions
      obtain rfl : u = v := by
        simpa [mentions_of_assignment? hs, Expr.mentions, Expr.uses, Expr.usesAs] using hmentions
      rw [crosses_append_of_mentions hbefore (by simp [mentions_of_assignment? hnew]),
        constructorCall?_of_assignment? hnew] at h
      simp at h
    · exact crosses_withValue hs u left ss h
  · rw [exposes, Bool.or_eq_true]
    exact .inr (exposes_withValue hs u ss h)
  · simp only [Block.constructions, total_append, total_cons, constructions_of_assignment? hnew,
      constructions_construct, blocks_withValue]
    omega

/-- Of an allocation that cannot be left behind, all that stands before the constructor stays in the
block. -/
theorem leaves_eq_false_of_exposes (hbefore : before.mentions v = false) {ss : Block}
    (h : exposes v (s :: (before ++ .expr (.construct (.var v) m args) :: ss)) = false) :
    before.leaves = false := by
  rw [exposes, allocation?_eq_some.2 hs,
    crosses_append_of_mentions hbefore (by simp [mentions_construct])] at h
  simp only [Option.any_some, constructorCall?, Bool.or_eq_false_iff] at h
  simpa [Block.leaves] using h.1.1

end

theorem keepsGuard_of_fuseStep {a b : Block} (h : FuseStep a b) : KeepsGuard a b := by
  obtain ⟨v, h⟩ := h
  refine h.of_congruent congruent_keepsGuard fun p q ss hcore => ?_
  obtain ⟨hs, hbefore, _⟩ := hcore
  simpa using keepsGuard_fused hs hbefore ss

theorem exposesIn_eq (v : Var) (s : Stmt) : exposesIn v s = s.blocks.any (exposes v) := by
  cases s <;> simp [exposesIn, blocks]

theorem inherited_exposes (v : Var) : Inherited (exposes v · = false) := by
  intro s ss h
  simp only [exposes, exposesIn_eq, Bool.or_eq_false_iff, List.any_eq_false] at h
  exact ⟨fun a ha => by simpa using h.1.2 a ha, h.2⟩

end Cleanup

end ByteLift
