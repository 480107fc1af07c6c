import ByteLift.Cleanup.Copies
import ByteLift.Cleanup.Declarations
import ByteLift.Proofs.Variables.Uses
import ByteLift.Stmt.Rewrite

/-!
# Rules applied throughout a body

A rule for one block is applied to all blocks of a body, from the inside out. What it does to each
block carries over to the body, if that is a relation between blocks that can be applied in place.
So does what is done to one statement, where copies are replaced and declarations are taken out or
put in.
-/

namespace ByteLift

open Stmt

/-- Relations between blocks that hold of two blocks if they hold of parts in which the two
differ. -/
structure Block.Congruent (R : Block → Block → Prop) : Prop where
  refl : ∀ b, R b b
  trans : ∀ {a b c}, R a b → R b c → R a c
  tail : ∀ s {ss ss'}, R ss ss' → R (s :: ss) (s :: ss')
  arms : ∀ c ss {a a' b b'}, R a a' → R b b' → R (.ite c a b :: ss) (.ite c a' b' :: ss)
  body : ∀ l c ss {a a'}, R a a' → R (.loop l c a :: ss) (.loop l c a' :: ss)
  inner : ∀ ss {a a'}, R a a' → R (.block a :: ss) (.block a' :: ss)

namespace Stmt

variable (f : Block → Tracked Block)

mutual

/-- The blocks that a rule is applied to in the blocks of a statement. -/
def appliedIn : Stmt → List Block
  | ite _ a b =>
      (appliedEach a ++ [(rewriteEach f a).val]) ++ (appliedEach b ++ [(rewriteEach f b).val])
  | loop _ _ a | block a => appliedEach a ++ [(rewriteEach f a).val]
  | _ => []

/-- The blocks that a rule is applied to in the blocks of each statement. -/
def appliedEach : Block → List Block
  | [] => []
  | s :: ss => s.appliedIn ++ appliedEach ss

end

end Stmt

/-- The blocks that a rule is applied to when a body is rewritten, in order. -/
def Block.applied (f : Block → Tracked Block) (b : Block) : List Block :=
  Stmt.appliedEach f b ++ [(Stmt.rewriteEach f b).val]

/-- Relations between a block, what a rule makes of it and whether the rule reports a change. They
hold of two blocks if they hold of parts in which the two differ. -/
structure Block.Tracking (R : Block → Block → Bool → Prop) : Prop where
  refl : ∀ b, R b b false
  trans : ∀ {a b c x y}, R a b x → R b c y → R a c (x || y)
  tail : ∀ s {ss ss' x}, R ss ss' x → R (s :: ss) (s :: ss') x
  arms : ∀ c ss {a a' b b' x y}, R a a' x → R b b' y →
    R (.ite c a b :: ss) (.ite c a' b' :: ss) (x || y)
  body : ∀ l c ss {a a' x}, R a a' x → R (.loop l c a :: ss) (.loop l c a' :: ss) x
  inner : ∀ ss {a a' x}, R a a' x → R (.block a :: ss) (.block a' :: ss) x

/-- What a rule makes of each block and what it reports are as a relation says. -/
def Block.Obeys (R : Block → Block → Bool → Prop) (f : Block → Tracked Block) : Prop :=
  ∀ b, R b (f b).val (f b).changed

namespace Block.Tracking

variable {R : Block → Block → Bool → Prop} {f g : Block → Tracked Block}

section

variable (hR : Tracking R)
include hR

theorem append_left (p : Block) {a b : Block} {x : Bool} (h : R a b x) : R (p ++ a) (p ++ b) x := by
  induction p with
  | nil => exact h
  | cons s p ih => exact hR.tail s ih

theorem bind (hf : Obeys R f) (hg : Obeys R g) : Obeys R fun b => f b >>= g :=
  fun b => hR.trans (hf b) (hg _)

theorem rewriteEach_of_applied (b : Block)
    (h : ∀ a ∈ appliedEach f b, R a (f a).val (f a).changed) :
    R b (rewriteEach f b).val (rewriteEach f b).changed := by
  induction b using nestedInduction with
  | nil => exact hR.refl []
  | cons s ss ihblocks ihss =>
    simp only [appliedEach, List.forall_mem_append] at h
    have hfirst : R (s :: ss) ((s.rewriteIn f).val :: ss) (s.rewriteIn f).changed := by
      obtain ⟨h, -⟩ := h
      cases s with
      | ite c a b =>
        simp only [appliedIn, List.forall_mem_append, List.forall_mem_singleton] at h
        have ha := hR.trans (ihblocks a (by simp) h.1.1) h.1.2
        have hb := hR.trans (ihblocks b (by simp) h.2.1) h.2.2
        simpa [rewriteIn, Bool.or_assoc] using hR.arms c ss ha hb
      | loop l c a =>
        simp only [appliedIn, List.forall_mem_append, List.forall_mem_singleton] at h
        simpa [rewriteIn] using hR.body l c ss (hR.trans (ihblocks a (by simp) h.1) h.2)
      | block a =>
        simp only [appliedIn, List.forall_mem_append, List.forall_mem_singleton] at h
        simpa [rewriteIn] using hR.inner ss (hR.trans (ihblocks a (by simp) h.1) h.2)
      | _ => exact hR.refl _
    simpa [rewriteEach] using hR.trans hfirst (hR.tail _ (ihss h.2))

theorem rewriteEach (hf : Obeys R f) : Obeys R (rewriteEach f) :=
  fun b => hR.rewriteEach_of_applied b fun a _ => hf a

/-- What a rule makes of each block, it makes of a method's body. -/
theorem rewrite (hf : Obeys R f) : Obeys R (Block.rewrite f) := hR.bind (hR.rewriteEach hf) hf

end

open Cleanup

/-- Replacing copies only replaces what statements read. -/
theorem copyBlock (hR : Tracking R) (hreads : ∀ (c : Copies) s ss,
      R (s :: ss) ((replaceStmtReads c.substitute s).val :: ss)
      (replaceStmtReads c.substitute s).changed)
    (c : Copies) (b : Block) : R b (copyBlock c b).val.1 (copyBlock c b).changed := by
  induction b using nestedInduction generalizing c with
  | nil => exact hR.refl []
  | cons s ss ihblocks ihss =>
    have hfirst : R (s :: ss) ((copyStmt c s).val.1 :: ss) (copyStmt c s).changed := by
      cases s with
      | ite cond a b =>
        have ha := ihblocks a (by simp) c
        have hb := ihblocks b (by simp) c
        simpa [copyStmt, replaceStmtReads]
          using hR.trans (hreads c (.ite cond a b) ss) (hR.arms _ ss ha hb)
      | loop l cond a =>
        have ha := ihblocks a (by simp) (c.killAll (Block.written a))
        simpa [copyStmt, replaceStmtReads]
          using hR.trans (hreads _ (.loop l cond a) ss) (hR.body l _ ss ha)
      | block a => simpa [copyStmt] using hR.inner ss (ihblocks a (by simp) c)
      | _ => simpa [copyStmt] using hreads c _ ss
    simpa [Cleanup.copyBlock] using hR.trans hfirst (hR.tail _ (ihss (copyStmt c s).val.2))

end Block.Tracking

/-- If no change is reported, the block is still the one that there was. -/
def Block.Reported (a b : Block) (changed : Bool) : Prop := changed = false → b = a

theorem Block.tracking_reported : Tracking Reported where
  refl _ _ := rfl
  trans hab hbc h := by
    rw [Bool.or_eq_false_iff] at h
    rw [hbc h.2, hab h.1]
  tail s _ _ _ h hx := by rw [h hx]
  arms c ss _ _ _ _ _ _ ha hb h := by
    rw [Bool.or_eq_false_iff] at h
    rw [ha h.1, hb h.2]
  body l c ss _ _ _ h hx := by rw [h hx]
  inner ss _ _ _ h hx := by rw [h hx]

namespace Block.Congruent

variable {R : Block → Block → Prop} {f : Block → Tracked Block}

/-- A relation can be applied in place if it can in one part of a block at a time. -/
theorem of_hole (refl : ∀ b, R b b) (trans : ∀ {a b c}, R a b → R b c → R a c)
    (hole : ∀ {K a b}, Hole K → R a b → R (K a) (K b)) : Congruent R where
  refl := refl
  trans := trans
  tail s _ _ h := (hole (Hole.tail s) h :)
  arms c ss _ a' b _ ha hb :=
    trans (hole (Hole.thenArm c b ss) ha :) (hole (Hole.elseArm c a' ss) hb :)
  body l c ss _ _ h := (hole (Hole.body l c ss) h :)
  inner ss _ _ h := (hole (Hole.inner ss) h :)

section

variable (hR : Congruent R)
include hR

theorem tracking : Tracking fun a b _ => R a b where
  refl := hR.refl
  trans := hR.trans
  tail s _ _ _ := hR.tail s
  arms c ss _ _ _ _ _ _ := hR.arms c ss
  body l c ss _ _ _ := hR.body l c ss
  inner ss _ _ _ := hR.inner ss

/-- A rule that relates each block it is applied to, to what it makes of it, does so for a method's
body. -/
theorem rewrite_of_applied {b : Block} (h : ∀ a ∈ b.applied f, R a (f a).val) :
    R b (b.rewrite f).val := by
  simp only [applied, List.forall_mem_append, List.forall_mem_singleton] at h
  exact hR.trans (hR.tracking.rewriteEach_of_applied b h.1) h.2

theorem rewriteEach (hf : ∀ b, R b (f b).val) (b : Block) : R b (rewriteEach f b).val :=
  hR.tracking.rewriteEach hf b

theorem rewrite (hf : ∀ b, R b (f b).val) (b : Block) : R b (b.rewrite f).val :=
  hR.tracking.rewrite hf b

end

open Cleanup

theorem copyBlock (hR : Congruent R)
    (hreads : ∀ (c : Copies) s ss, R (s :: ss) ((replaceStmtReads c.substitute s).val :: ss))
    (c : Copies) (b : Block) : R b (copyBlock c b).val.1 := hR.tracking.copyBlock hreads c b

theorem hoist (hR : Congruent R) (hdrop : ∀ v ss, R (.declare v none :: ss) ss)
    (hset : ∀ v e ss, R (.declare v (some e) :: ss) (.set v e :: ss)) (b : Block) :
    R b (hoist b) := by
  induction b using nestedInduction with
  | nil => exact hR.refl []
  | cons s ss ihblocks ihss =>
    have htail := hR.tail s ihss
    cases s with
    | declare v init =>
      cases init with
      | none => exact hR.trans htail (hdrop v _)
      | some e => exact hR.trans htail (hset v e _)
    | ite c a b =>
      have ha := ihblocks a (by simp)
      have hb := ihblocks b (by simp)
      exact hR.trans htail (hR.arms c _ ha hb)
    | loop l c a => exact hR.trans htail (hR.body l c _ (ihblocks a (by simp)))
    | block a => exact hR.trans htail (hR.inner _ (ihblocks a (by simp)))
    | _ => exact htail

end Block.Congruent

namespace Cleanup

/-! ## One declaration -/

/-- The second block is the first one with a declaration of a variable. It stands before a statement
that the first mention of the variable is in, or is what has become of an assignment. -/
inductive Placed (v : Var) : Block → Block → Prop
  | absent {b : Block} (hb : b.mentions v = false) : Placed v b b
  | before (s : Stmt) (ss : Block) : Placed v (s :: ss) (.declare v none :: s :: ss)
  | merged {value : Expr} (ss : Block) (hvalue : value.reads v = false) :
    Placed v (.set v value :: ss) (.declare v (some value) :: ss)
  | later {s : Stmt} {ss ss' : Block} (hs : s.mentions v = false) (hss : Placed v ss ss') :
    Placed v (s :: ss) (s :: ss')
  | thenArm {c : Expr} {a a' b ss : Block} (hc : c.mentions v = false) (ha : Placed v a a')
    (hb : b.mentions v = false) (hss : ss.mentions v = false) :
    Placed v (.ite c a b :: ss) (.ite c a' b :: ss)
  | elseArm {c : Expr} {a b b' ss : Block} (hc : c.mentions v = false) (ha : a.mentions v = false)
    (hb : Placed v b b') (hss : ss.mentions v = false) :
    Placed v (.ite c a b :: ss) (.ite c a b' :: ss)
  | body {l : Option Label} {c : Expr} {a a' ss : Block} (hc : c.mentions v = false)
    (ha : Placed v a a')
    (hss : ss.mentions v = false) : Placed v (.loop l c a :: ss) (.loop l c a' :: ss)
  | inner {a a' ss : Block} (ha : Placed v a a') (hss : ss.mentions v = false) :
    Placed v (.block a :: ss) (.block a' :: ss)

theorem placed_declareAt (v : Var) (s : Stmt) (ss : Block) :
    Placed v (s :: ss) (declareAt v s ++ ss) := by
  unfold declareAt
  split
  · rename_i w value
    split
    · rename_i hfresh
      simp only [isFreshSet, Bool.and_eq_true, decide_eq_true_eq, Bool.not_eq_true'] at hfresh
      obtain ⟨rfl, hvalue⟩ := hfresh
      exact .merged ss hvalue
    · exact .before _ ss
  · exact .before s ss

/-- `place` declares a variable where `Placed` allows it. -/
theorem placed_place (v : Var) (b : Block) : Placed v b (place v b) := by
  induction b using Block.nestedInduction with
  | nil => exact .absent rfl
  | cons s ss ihblocks ihss =>
    rw [place]
    split
    · split
      · exact placed_declareAt v s ss
      rename_i hss
      rw [Bool.not_eq_true] at hss
      cases s with
      | ite c a b =>
        rw [placeIn]
        split
        · exact .before _ ss
        · rename_i hc
          rw [Bool.not_eq_true] at hc
          split
          · rename_i hb
            exact .thenArm hc (ihblocks a (by simp)) hb hss
          · rename_i ha _
            exact .elseArm hc ha (ihblocks b (by simp)) hss
          · exact .before _ ss
      | loop l c a =>
        rw [placeIn]
        split
        · rename_i hset
          simp only [Bool.and_eq_true, Bool.not_eq_true'] at hset
          exact .body hset.1 (ihblocks a (by simp)) hss
        · exact .before _ ss
      | block a => exact .inner (ihblocks a (by simp)) hss
      | _ => exact placed_declareAt v _ ss
    · rename_i hs
      exact .later (Bool.eq_false_iff.2 hs) ihss

theorem Placed.of_congruent {R : Block → Block → Prop} {v : Var} {a b : Block}
    (hR : Block.Congruent R) (hbefore : ∀ s ss, R (s :: ss) (.declare v none :: s :: ss))
    (hmerged : ∀ value ss, R (.set v value :: ss) (.declare v (some value) :: ss))
    (h : Placed v a b) : R a b := by
  induction h with
  | absent => exact hR.refl _
  | before s ss => exact hbefore s ss
  | merged ss => exact hmerged _ ss
  | later _ _ ih => exact hR.tail _ ih
  | thenArm _ _ _ _ ih => exact hR.arms _ _ ih (hR.refl _)
  | elseArm _ _ _ _ ih => exact hR.arms _ _ (hR.refl _) ih
  | body _ _ _ ih => exact hR.body _ _ _ ih
  | inner _ _ ih => exact hR.inner _ ih

end Cleanup

end ByteLift
