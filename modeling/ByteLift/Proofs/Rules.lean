import ByteLift.Cleanup.Branches
import ByteLift.Cleanup.Construction
import ByteLift.Cleanup.Inline
import ByteLift.Cleanup.NoOp
import ByteLift.Cleanup.Unread
import ByteLift.Nested.Tidy
import ByteLift.Proofs.Cleanup.Rewrite

/-!
# Rules, one firing at a time

What holds between a block before and after each firing of a rule, and can be applied in place,
holds between the block and what the rule makes of it. This is shown for each rule and whatever
relation, so what is particular to a relation is only what it says of single firings.
-/

namespace ByteLift

open Cleanup

variable {R : Block → Block → Bool → Prop}

/-- What every step keeps, repeating the step keeps. -/
theorem Tracked.settle_induction {α : Type} {P : α → Prop} {step : α → Tracked α}
    (hstep : ∀ a, P a → P (step a).val) (n : Nat) {a : α} (h : P a) :
    P (Tracked.settle step n a) := by
  induction n generalizing a with
  | zero => exact h
  | succ n ih =>
    rw [Tracked.settle]
    split
    · exact ih (hstep a h)
    · exact hstep a h

namespace Block.Tracking

/-! ## Statements that are dropped, moved or put together -/

section

variable (hR : Tracking R)
include hR

theorem dropNoOpsHere (hdrop : ∀ {s} ss, isNoOp s = true → R (s :: ss) ss true) :
    Obeys R dropNoOpsHere := by
  intro b
  induction b with
  | nil => exact hR.refl []
  | cons s ss ih =>
    rw [Cleanup.dropNoOpsHere]
    split
    · rename_i hs
      simpa using hR.trans (hdrop ss hs) ih
    · simpa using hR.tail s ih

theorem sweep {unread : Var → Bool}
    (hdrop : ∀ {s left} ss, leftover? unread s = some left → R (s :: ss) (left ++ ss) true) :
    Obeys R (sweep unread) := by
  intro b
  induction b with
  | nil => exact hR.refl []
  | cons s ss ih =>
    rw [Cleanup.sweep]
    split
    · rename_i left hleft
      simpa using hR.trans (hdrop ss hleft) (hR.append_left left ih)
    · simpa using hR.tail s ih

theorem fuseHere (hfuse : ∀ {s v cls ss site},
      allocation? s = some (v, cls) → constructorSite? v cls ss = some site →
      R (s :: ss) (site.before ++ s.withValue (.new site.method site.args) :: site.behind) true) :
    Obeys R fuseHere := by
  intro b
  fun_induction Cleanup.fuseHere b with
  | case1 => exact hR.refl []
  | case2 s ss _ ih => simpa using hR.tail s ih
  | case3 s ss v cls _ _ ih => simpa using hR.tail s ih
  | case4 s ss v cls halloc site hsite ih => simpa using hR.trans (hfuse halloc hsite) ih

variable {uses : List Use}

theorem forwardHere
    (hforward : ∀ {s t} ss, forwardable uses s t = true →
      R (s :: t :: ss) (t.withValue (assigned s) :: ss) true) :
    Obeys R (forwardHere uses) := by
  intro b
  fun_induction Cleanup.forwardHere uses b with
  | case1 s t ss h ih => simpa using hR.trans (hforward ss h) (hR.tail _ ih)
  | case2 s t ss _ ih => simpa using hR.tail s ih
  | case3 b => exact hR.refl b

theorem inlineHere {uses : List Use}
    (hinline : ∀ {s next v value} ss, inlinable? uses s next = some (v, value) →
      R (s :: next :: ss) ((replaceStmtReads (Expr.only v value) next).val :: ss) true) :
    Obeys R (inlineHere uses) := by
  intro b
  fun_induction Cleanup.inlineHere uses b with
  | case1 s next ss v value h ih => simpa using hR.trans (hinline ss h) (ih _)
  | case2 s next ss _ ih => simpa using hR.tail s ih
  | case3 b => exact hR.refl b

/-! ## The ends of blocks -/

theorem unwrapSinglePass
    (hunwrap : ∀ {s body} ss, singlePass? s = some body → R (s :: ss) (body ++ ss) true) :
    Obeys R unwrapSinglePass := by
  intro b
  induction b with
  | nil => exact hR.refl []
  | cons s ss ih =>
    rw [ByteLift.unwrapSinglePass]
    split
    · rename_i body hbody
      simpa using hR.trans (hunwrap ss hbody) (hR.append_left body ih)
    · simpa using hR.tail s ih

theorem dropUnreached
    (hcut : ∀ {s} ss, s.completes = false → R (s :: ss) [s] (!ss.isEmpty)) :
    Obeys R dropUnreached := by
  intro b
  induction b with
  | nil => exact hR.refl []
  | cons s ss ih =>
    rw [ByteLift.dropUnreached]
    split
    · simpa using hR.tail s ih
    · rename_i hs
      exact hcut ss (Bool.eq_false_iff.2 hs)

theorem dropRepeatedJumps (hdrop : ∀ c a b {jump} ss, jump.isJump = true →
      R (.ite c a b :: jump :: ss)
      (.ite c (dropLastIf jump a).val (dropLastIf jump b).val :: jump :: ss)
        ((dropLastIf jump a).changed || (dropLastIf jump b).changed)) :
        Obeys R dropRepeatedJumps := by
  intro b
  fun_induction ByteLift.dropRepeatedJumps b with
  | case1 c a b jump ss hjump ih =>
    simpa [Bool.or_assoc] using hR.trans (hdrop c a b ss hjump) (hR.tail _ ih)
  | case2 c a b jump ss _ ih => simpa using hR.tail (.ite c a b) ih
  | case3 s ss _ ih => simpa using hR.tail s ih
  | case4 => exact hR.refl []

end

end Block.Tracking

/-- What is done at the end of a loop's body is done to the last statement, or in the arms of a
branch there. -/
theorem stripTail_induction {l : Label} (refl : ∀ b, R b b false)
    (tail : ∀ s {ss ss' x}, R ss ss' x → R (s :: ss) (s :: ss') x)
    (arms : ∀ c {a a' b b' x y}, R a a' x → R b b' y → R [.ite c a b] [.ite c a' b'] (x || y))
    (drop : R [.continueLoop (some l)] [] true) : Block.Obeys R (stripTail l) := by
  intro b
  induction b using Block.nestedInduction with
  | nil => exact refl []
  | cons s ss ihblocks ihss =>
    cases ss with
    | cons t ss => simpa [stripTail] using tail s ihss
    | nil =>
      cases s with
      | ite c a b =>
        have ha := ihblocks a (by simp)
        have hb := ihblocks b (by simp)
        simpa [stripTail, stripTailStmt] using arms c ha hb
      | continueLoop m =>
        simp only [stripTail, stripTailStmt]
        split
        · rename_i hm
          rw [hm]
          exact drop
        · exact refl _
      | _ => simpa [stripTail, stripTailStmt] using refl _

namespace Cleanup

/-- Whether a branch with these arms is turned round. -/
def isTurnable (a b : Block) : Bool :=
  !b.isEmpty && (a.isEmpty || isSingleBranch a && !isSingleBranch b)

end Cleanup

namespace Block

variable {vars : VarTable}

/-- Relations that hold when a loop that runs once is unwrapped, a branch is taken and a branch is
turned round. -/
structure Turning (vars : VarTable) (R : Block → Block → Bool → Prop) :
    Prop extends Tracking R where
  unwrap : ∀ {s body} ss, singlePass? s = some body → R (s :: ss) (body ++ ss) true
  takeThen : ∀ {c} a b ss, c.isTrue = true → R (.ite c a b :: ss) (a ++ ss) true
  turn : ∀ c {a b} ss, isTurnable a b = true →
    R (.ite c a b :: ss) (.ite (c.negate vars) b a :: ss) true

/-! ## Freshly nested code -/

/-- Relations that hold at each firing of the rules that tidy freshly nested code. -/
structure Tidying (vars : VarTable) (R : Block → Block → Bool → Prop) :
    Prop extends Turning vars R where
  cut : ∀ {s} ss, s.completes = false → R (s :: ss) [s] (!ss.isEmpty)
  dropLast : ∀ c a b {jump} ss, jump.isJump = true →
    R (.ite c a b :: jump :: ss) (.ite c (dropLastIf jump a).val
    (dropLastIf jump b).val :: jump :: ss)
      ((dropLastIf jump a).changed || (dropLastIf jump b).changed)
  loop : ∀ l c a ss,
    R (.loop (some l) c a :: ss) ((tidyLoop vars l c a).val :: ss) (tidyLoop vars l c a).changed

theorem Turning.straighten (hR : Turning vars R) : Obeys R (straighten vars) := by
  intro b
  fun_induction ByteLift.straighten vars b with
  | case1 => exact hR.refl []
  | case2 c a b ss behind hc ih =>
    simpa [behind] using hR.trans (hR.takeThen a b ss hc) (hR.append_left a ih)
  | case3 c a b ss behind _ hempty ih =>
    rw [Bool.and_eq_true] at hempty
    simpa [behind] using hR.trans (hR.turn c ss (by simp [isTurnable, hempty])) (hR.tail _ ih)
  | case4 c a b ss behind _ _ ih => simpa [behind] using hR.tail (.ite c a b) ih
  | case5 s ss _ ih => simpa using hR.tail s ih

namespace Tidying

theorem tidyEnds (hR : Tidying vars R) : Obeys R (tidyEnds vars) :=
  hR.bind (hR.unwrapSinglePass hR.unwrap)
    (hR.bind (hR.dropUnreached hR.cut) (hR.bind (hR.dropRepeatedJumps hR.dropLast) hR.straighten))

theorem tidyStmts (hR : Tidying vars R) : Obeys R (tidyStmts vars) := by
  intro b
  induction b using nestedInduction with
  | nil => exact hR.refl []
  | cons s ss ihblocks ihss =>
    have hround (a : Block) (ha : a ∈ s.blocks) :
      R a (tidyRound vars a).val (tidyRound vars a).changed :=
      hR.trans (ihblocks a ha) (hR.tidyEnds _)
    have hfirst : R (s :: ss) ((tidyStmt vars s).val :: ss) (tidyStmt vars s).changed := by
      cases s with
      | ite c a b =>
        have ha := hround a (by simp)
        have hb := hround b (by simp)
        simpa [tidyStmt, tidyRound, Bool.or_assoc] using hR.arms c ss ha hb
      | loop l c a =>
        have ha := hR.body l c ss (hround a (by simp))
        cases l with
        | none => simpa [tidyStmt, tidyRound] using ha
        | some l => simpa [tidyStmt, tidyRound, Bool.or_assoc] using hR.trans ha (hR.loop l c _ ss)
      | block a => simpa [tidyStmt, tidyRound] using hR.inner ss (hround a (by simp))
      | _ => exact hR.refl _
    simpa [ByteLift.tidyStmts] using hR.trans hfirst (hR.tail _ ihss)

theorem tidyRound (hR : Tidying vars R) : Obeys R (tidyRound vars) :=
  hR.bind hR.tidyStmts hR.tidyEnds

/-- Tidying a block until nothing changes, where it does not matter how often something does. -/
theorem tidy {R : Block → Block → Prop} (hR : Tidying vars fun a b _ => R a b) (b : Block) :
    R b (tidy vars b) :=
  Tracked.settle_induction (fun a h => hR.trans h (hR.tidyRound a) (x := false) (y := false))
    _ (hR.refl b)

end Tidying

/-! ## Branches -/

/-- Relations that hold at each firing of the rules that straighten branches. -/
structure Straightening (vars : VarTable) (R : Block → Block → Bool → Prop) :
    Prop extends Turning vars R where
  takeElse : ∀ {c} a b ss, c.isFalse = true → R (.ite c a b :: ss) (b ++ ss) true
  dropEmpty : ∀ {c} ss, c.isPure = true → R (.ite c [] [] :: ss) ss true
  effect : ∀ {c e} ss, effectOf c = some e → R (.ite c [] [] :: ss) (.expr e :: ss) true
  merge : ∀ c d a ss, R (.ite c [.ite d a []] [] :: ss) (.ite (both c d) a [] :: ss) true

namespace Straightening

section

variable (hR : Straightening vars R)
include hR

theorem emptyBranch (c : Expr) (ss : Block) :
    R (.ite c [] [] :: ss) ((emptyBranch c).val ++ ss) (emptyBranch c).changed := by
  unfold Cleanup.emptyBranch
  split
  · rename_i hc
    exact hR.dropEmpty ss hc
  · split
    · rename_i e he
      exact hR.effect ss he
    · exact hR.refl _

theorem mergeBranch (c : Expr) (a b ss : Block) :
    R (.ite c a b :: ss) ((mergeBranch vars c a b).val ++ ss) (mergeBranch vars c a b).changed := by
  fun_induction Cleanup.mergeBranch vars c a b with
  | case1 c inner => simpa using hR.trans (hR.merge c inner [] ss) (hR.emptyBranch _ ss)
  | case2 c inner s rest ih => simpa using hR.trans (hR.merge c inner (s :: rest) ss) ih
  | case3 c a b =>
    unfold turnChain
    split
    · rename_i hturn
      simp only [Bool.and_eq_true] at hturn
      exact hR.turn c ss (by simp [isTurnable, hturn])
    · exact hR.refl _

theorem straightenBranch (c : Expr) (a b ss : Block) :
    R (.ite c a b :: ss) ((straightenBranch vars c a b).val ++ ss)
      (straightenBranch vars c a b).changed := by
  unfold Cleanup.straightenBranch
  split
  · rename_i hc
    exact hR.takeThen a b ss hc
  split
  · rename_i hc
    exact hR.takeElse a b ss hc
  split
  · exact hR.emptyBranch c ss
  · rename_i hb
    have hturn : R (.ite c [] b :: ss) (.ite (c.negate vars) b [] :: ss) true :=
      hR.turn c ss (by simpa [isTurnable] using hb)
    simpa using hR.trans hturn (hR.mergeBranch _ b [] ss)
  · exact hR.mergeBranch c a b ss

theorem straightenEnds : Obeys R (straightenEnds vars) := by
  refine hR.bind (fun b => ?_) (hR.unwrapSinglePass hR.unwrap)
  fun_induction straightenHere vars b with
  | case1 => exact hR.refl []
  | case2 c a b ss ih => simpa using hR.trans (hR.straightenBranch c a b ss) (hR.append_left _ ih)
  | case3 s ss _ ih => simpa using hR.tail s ih

theorem straightenBranches : Obeys R (straightenBranches vars) :=
  hR.rewrite hR.straightenEnds

end

end Straightening

end Block

end ByteLift
