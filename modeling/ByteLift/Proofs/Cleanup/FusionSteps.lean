import Mathlib.Logic.Relation
import ByteLift.Proofs.Cleanup.Reports

/-!
# Construction step by step

A step moves one allocation to the call of its constructor, over statements that do not mention the
variable, or assigns one new object directly to the variable that it is copied on to. Construction
is a sequence of such steps, and a body that one can be made in is reported as changed.
-/

namespace ByteLift

open Stmt

/-! ## Changes in place -/

namespace Block

/-- A change at one place of a block, at any depth. -/
inductive InPlace (core : Block → Block → Prop) : Block → Block → Prop
  | here {p q : Block} (h : core p q) (ss : Block) : InPlace core (p ++ ss) (q ++ ss)
  | tail (s : Stmt) {ss ss' : Block} (h : InPlace core ss ss') : InPlace core (s :: ss) (s :: ss')
  | thenArm (c : Expr) {a a' : Block} (h : InPlace core a a') (b ss : Block) :
    InPlace core (.ite c a b :: ss) (.ite c a' b :: ss)
  | elseArm (c : Expr) (a : Block) {b b' : Block} (h : InPlace core b b') (ss : Block) :
    InPlace core (.ite c a b :: ss) (.ite c a b' :: ss)
  | body (l : Option Label) (c : Expr) {a a' : Block} (h : InPlace core a a') (ss : Block) :
    InPlace core (.loop l c a :: ss) (.loop l c a' :: ss)
  | inner {a a' : Block} (h : InPlace core a a') (ss : Block) :
    InPlace core (.block a :: ss) (.block a' :: ss)

/-- What holds of a block holds of all parts of it. -/
def Inherited (P : Block → Prop) : Prop := ∀ s ss, P (s :: ss) → (∀ a ∈ s.blocks, P a) ∧ P ss

variable {core : Block → Block → Prop} {a b : Block}

/-- A relation that can be applied in place holds of a change in place if it holds at that place. -/
theorem InPlace.of_congruent {R : Block → Block → Prop} (hR : Congruent R)
    (hcore : ∀ p q ss, core p q → R (p ++ ss) (q ++ ss)) (h : InPlace core a b) : R a b := by
  induction h with
  | here h ss => exact hcore _ _ ss h
  | tail s _ ih => exact hR.tail s ih
  | thenArm c _ b ss ih => exact hR.arms c ss ih (hR.refl b)
  | elseArm c a _ ss ih => exact hR.arms c ss (hR.refl a) ih
  | body l c _ ss ih => exact hR.body l c ss ih
  | inner _ ss ih => exact hR.inner ss ih

theorem InPlace.exists_core (h : InPlace core a b) : ∃ p q, core p q := by
  induction h with
  | here h ss => exact ⟨_, _, h⟩
  | _ => assumption

/-- Any number of changes can be made in place. -/
theorem congruent_inPlace {ι : Type} (cores : ι → Block → Block → Prop) :
    Congruent (Relation.ReflTransGen fun a b => ∃ i, InPlace (cores i) a b) where
  refl _ := .refl
  trans := .trans
  tail s _ _ h := h.lift (s :: ·) fun _ _ => .imp fun _ h => .tail s h
  arms c ss _ a' b _ ha hb :=
    (ha.lift (fun a => .ite c a b :: ss) fun _ _ => .imp fun _ h => .thenArm c h b ss).trans
      (hb.lift (fun b => .ite c a' b :: ss) fun _ _ => .imp fun _ h => .elseArm c a' h ss)
  body l c ss _ _ h := h.lift (fun a => .loop l c a :: ss) fun _ _ => .imp fun _ h => .body l c h ss
  inner ss _ _ h := h.lift (fun a => .block a :: ss) fun _ _ => .imp fun _ h => .inner h ss

end Block

namespace Cleanup

open Block Relation

/-! ## The steps -/

/-- An allocation is put together with the call of a constructor of the same class on the object,
with nothing in between that mentions the variable. -/
inductive Fused (v : Var) : Block → Block → Prop
  | mk {s : Stmt} {before : Block} {m : MethodRef} {args : List Expr}
    (hs : s.assignment? = some (v, .alloc m.owner))
    (hbefore : before.mentions v = false) (hargs : ∀ e ∈ args, e.reads v = false) :
    Fused v (s :: (before ++ [.expr (.construct (.var v) m args)]))
    (before ++ [s.withValue (.new m args)])

/-- A new object that is copied on to another variable is assigned to that one. The variable that it
was in is read once and written once. -/
inductive Forwarded (uses : List Use) (v : Var) : Block → Block → Prop
  | mk {s t : Stmt} {target : Var} {m : MethodRef} {args : List Expr}
    (hs : s.assignment? = some (v, .new m args))
    (ht : t.assignment? = some (target, .var v)) (hne : target ≠ v)
    (hread : uses.count (.read v) = 1)
    (hwrite : uses.count (.write v) = 1) : Forwarded uses v [s, t] [t.withValue (.new m args)]

/-- One allocation is put together with its constructor. -/
def FuseStep (a b : Block) : Prop := ∃ v, InPlace (Fused v) a b

/-- One new object is forwarded. -/
def ForwardStep (uses : List Use) (a b : Block) : Prop := ∃ v, InPlace (Forwarded uses v) a b

theorem congruent_fuseSteps : Congruent (ReflTransGen FuseStep) := congruent_inPlace Fused

theorem congruent_forwardSteps (uses : List Use) : Congruent (ReflTransGen (ForwardStep uses)) :=
  congruent_inPlace (Forwarded uses)

variable {s : Stmt} {v : Var} {b : Block}

variable {cls : String} {m : MethodRef} {args : List Expr} {f : Block → Tracked Block}

theorem allocation?_eq_some :
    allocation? s = some (v, cls) ↔ s.assignment? = some (v, .alloc cls) := by
  unfold allocation?
  split
  · rename_i hassign
    simp [hassign]
  · rename_i hassign
    simpa using hassign v cls

theorem constructorCall?_eq_some :
    constructorCall? v s = some (m, args) ↔ s = .expr (.construct (.var v) m args) := by
  unfold constructorCall?
  split
  · split
    · rename_i h
      simp [h]
    · rename_i h
      simp [h]
  · rename_i h
    constructor
    · intro h'
      cases h'
    · rintro rfl
      exact absurd rfl (h v m args)

/-- Which call of a constructor is found. -/
theorem constructorSite?_eq_some {site : ConstructorSite}
    (h : constructorSite? v cls b = some site) :
    b = site.before ++ .expr (.construct (.var v) site.method site.args) :: site.behind ∧
      site.before.mentions v = false ∧ (∀ e ∈ site.args, e.reads v = false) ∧
      site.method.owner = cls := by
  induction b generalizing site with
  | nil => cases h
  | cons s ss ih =>
    rw [constructorSite?] at h
    split at h
    · rename_i m args hcall
      split at h
      · rename_i hsite
        cases h
        obtain rfl := constructorCall?_eq_some.1 hcall
        exact ⟨rfl, rfl, by simpa using hsite⟩
      · cases h
    · split at h
      · cases h
      · rename_i hmention
        obtain ⟨site, hsite, rfl⟩ := Option.map_eq_some_iff.1 h
        obtain ⟨rfl, hbefore, hargs, howner⟩ := ih hsite
        refine ⟨rfl, ?_, hargs, howner⟩
        rw [mentions_cons, hbefore, Bool.or_false]
        simpa using hmention

/-- A call of a constructor that can be put together with the allocation is found. -/
theorem constructorSite?_append {before : Block} (hbefore : before.mentions v = false)
    (hargs : ∀ e ∈ args, e.reads v = false) (ss : Block) :
    constructorSite? v m.owner (before ++ .expr (.construct (.var v) m args) :: ss) =
      some ⟨before, m, args, ss⟩ := by
  induction before with
  | nil => simpa [constructorSite?, constructorCall?] using hargs
  | cons s before ih =>
    rw [mentions_cons, Bool.or_eq_false_iff] at hbefore
    have hcall : constructorCall? v s = none := by
      refine Option.eq_none_iff_forall_ne_some.2 fun call hcall => ?_
      obtain rfl := constructorCall?_eq_some.1 hcall
      simp [Stmt.mentions, Block.mentions, Block.uses_cons, Stmt.ownUses, Stmt.exprs, Expr.uses,
        Expr.usesAs] at hbefore
    simp [constructorSite?, hcall, hbefore.1, ih hbefore.2]

/-! ## The pass -/

/-- Putting the allocations of a block together with constructors is a number of steps. -/
theorem fuseSteps_fuseHere (b : Block) : ReflTransGen FuseStep b (fuseHere b).val := by
  refine congruent_fuseSteps.tracking.fuseHere (fun {s v cls ss site} halloc hsite => ?_) b
  obtain ⟨rfl, hbefore, hargs, rfl⟩ := constructorSite?_eq_some hsite
  have hcore := Fused.mk (allocation?_eq_some.1 halloc) hbefore hargs
  refine .single ⟨v, ?_⟩
  simpa using InPlace.here hcore site.behind

theorem forwardSteps_forwardHere (uses : List Use) (b : Block) :
    ReflTransGen (ForwardStep uses) b (forwardHere uses b).val := by
  refine (congruent_forwardSteps uses).tracking.forwardHere (fun {s t} ss hforward => ?_) b
  unfold forwardable at hforward
  split at hforward
  · rename_i v m args target source hs ht
    simp only [Bool.and_eq_true, decide_eq_true_eq, ne_eq] at hforward
    obtain ⟨⟨⟨rfl, hne⟩, hread⟩, hwrite⟩ := hforward
    have hassigned : assigned s = .new m args := by simp [assigned, hs]
    rw [hassigned]
    exact .single ⟨source, .here (Forwarded.mk hs ht hne hread hwrite) ss⟩
  · cases hforward

/-- If a rule changes a block or a block in it, applying it throughout the block is a change. -/
theorem changed_rewrite (hf : Obeys Reported f)
    (h : (rewriteEach f b).changed = true ∨ (f b).changed = true) :
    (b.rewrite f).changed = true := by
  simp only [Block.rewrite, Tracked.changed_bind, Bool.or_eq_true]
  rcases h with h | h
  · exact .inl h
  · by_cases heach : (rewriteEach f b).changed = true
    · exact .inl heach
    · rw [tracking_reported.rewriteEach hf b (by simpa using heach)]
      exact .inr h

theorem changed_rewriteEach {a : Block} (ha : a ∈ s.blocks) (h : (a.rewrite f).changed = true)
    (ss : Block) : (rewriteEach f (s :: ss)).changed = true := by
  simp only [Block.rewrite, Tracked.changed_bind, Bool.or_eq_true] at h
  cases s with
  | ite c b b' =>
    simp only [blocks, List.mem_cons, List.not_mem_nil, or_false] at ha
    rcases ha with rfl | rfl <;> rcases h with h | h <;> simp [rewriteEach, rewriteIn, h]
  | loop l c b =>
    obtain rfl : a = b := by simpa using ha
    rcases h with h | h <;> simp [rewriteEach, rewriteIn, h]
  | block b =>
    obtain rfl : a = b := by simpa using ha
    rcases h with h | h <;> simp [rewriteEach, rewriteIn, h]
  | _ => cases ha

/-- An allocation that can be put together with its constructor is found, at any depth. -/
theorem changed_of_fused {c : Block} (h : InPlace (Fused v) b c) :
    (rewriteEach fuseHere b).changed = true ∨ (fuseHere b).changed = true := by
  induction h with
  | here h ss =>
    obtain @⟨s, before, m, args, hs, hbefore, hargs⟩ := h
    have hsite :
      constructorSite? v m.owner (before ++ .expr (.construct (.var v) m args) :: ss) = some _ :=
      constructorSite?_append hbefore hargs ss
    refine .inr ?_
    rw [List.cons_append, List.append_assoc, List.singleton_append, fuseHere,
      allocation?_eq_some.2 hs]
    simp only
    split
    · rename_i hnone
      rw [hsite] at hnone
      cases hnone
    · simp
  | tail s h ih =>
    rcases ih with ih | ih
    · exact .inl (by simp [rewriteEach, ih])
    · refine .inr ?_
      rw [fuseHere]
      split
      · simp [ih]
      · split
        · simp [ih]
        · simp
  | thenArm c _ b ss ih | elseArm c b _ ss ih | body l c _ ss ih | inner _ ss ih =>
    exact .inl (changed_rewriteEach (by simp) (changed_rewrite honest_fuseHere ih) ss)

end Cleanup

end ByteLift
