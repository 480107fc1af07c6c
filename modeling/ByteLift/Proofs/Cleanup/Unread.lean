import ByteLift.Proofs.Cleanup.Copies
import ByteLift.Proofs.Semantics.Unseen
import ByteLift.Proofs.Variables.Inline

/-!
# Dropping what is never read

A variable that a body never reads can be assigned or not: no run of the body can tell. So all
assignments of such variables can go, at any depth, if the values that may fail or have an effect
stay.
-/

namespace ByteLift

open State Stmt

variable {ν η : Type} {I : Interpretation ν η} {E : Var → Prop}

/-- An assignment evaluates its value, and then assigns the variable. -/
theorem Stmt.exec_assigned {x : Stmt} {v : Var} {value : Expr}
    (h : x.assignment? = some (v, value)) (n : Nat) (s : State ν η) :
    x.exec I.semantics n s = some (match I.eval value s with
      | .ok a t => (.normal, t.put v a)
      | .error a t => (.thrown a, t)) := by
  have hassign : I.semantics.eval (.assign (.var v) value) s = match I.eval value s with
      | .ok a t => .ok a (t.put v a)
      | .error a t => .error a t := by
    show I.eval (.assign (.var v) value) s = _
    simp only [Interpretation.eval, bind, EStateM.bind]
    cases I.eval value s <;> rfl
  rw [exec_of_assignment? _ h, exec_expr, hassign]
  cases I.eval value s <;> rfl

namespace Block

/-- Blocks that are like others which read none of some variables. -/
theorem congruent_like (I : Interpretation ν η) (E : Var → Prop) :
    Congruent fun a b => a.Spares E → b.Spares E ∧ a.Alike I.semantics (Like E) b := by
  refine .of_hole (fun _ h => ⟨h, like_self h⟩) (fun hab hbc h => ?_) fun {K a b} hK hab h => ?_
  · obtain ⟨hb, hab⟩ := hab h
    obtain ⟨hc, hbc⟩ := hbc hb
    exact ⟨hc, fun n s t hst => .trans (fun _ _ _ => .trans) (hab n (.refl s)) (hbc n hst)⟩
  · obtain ⟨p, hiff⟩ := hK.spares (E := E)
    obtain ⟨hp, ha⟩ := (hiff a).1 h
    obtain ⟨hb, hab⟩ := hab ha
    have hspares := (hiff b).2 ⟨hp, hb⟩
    exact ⟨hspares, like_hole hK hspares hab⟩

end Block

namespace Cleanup

open Block

variable {unread : Var → Bool} {s : Stmt} {ss left : Block}

/-! ## What runs do -/

/-- A block is like what is left of its first statement, with the others behind it. -/
theorem like_leftover? (hI : I.Calm) (hE : ∀ v, unread v = true → E v)
    (hleft : leftover? unread s = some left) (h : Spares E (s :: ss)) :
    Spares E (left ++ ss) ∧ Block.Alike I.semantics (Like E) (s :: ss) (left ++ ss) := by
  have hss : ss.Spares E := (spares_cons.1 h).2.2
  rcases leftover?_eq_some hleft with ⟨v, rfl, _, rfl⟩ |
    ⟨v, value, hassign, hv, ⟨hpure, rfl⟩ | ⟨_, rfl⟩⟩
  · exact ⟨hss, fun n s t hst => like_self hss n hst⟩
  · refine ⟨hss, fun n s t hst => ?_⟩
    obtain ⟨x, s', hx, hs'⟩ := hI.eval (E := E) hpure s
    simp only [Block.exec, execList, exec_assigned hassign, hx]
    exact like_self hss n ((hs'.symm.trans hst).put_left (hE v hv) x)
  · have hvalue : ∀ u, .read u ∈ value.uses → ¬ E u :=
      fun u hu => h u (by simp [uses_of_assignment? hassign, hu])
    refine ⟨by simpa [Spares, or_imp, forall_and] using ⟨hvalue, hss⟩, fun n s t hst => ?_⟩
    simp only [List.singleton_append, Block.exec, execList, exec_assigned hassign,
      Stmt.exec, Stmt.act]
    have hsame : ResultAlike (Like E) (I.eval value s) (I.semantics.eval value t) :=
      Interpretation.like_eval hvalue hst
    rcases hsame.ok_or_error with ⟨x, s', t', hs, ht, hst'⟩ | ⟨x, s', t', hs, ht, hst'⟩
    · simp only [hs, ht]
      exact like_self hss n (hst'.put_left (hE v hv) x)
    · simp only [hs, ht]
      exact .some _ hst'

/-! ## What is left -/

/-- There is nothing to drop from a block, at any depth. -/
def Swept (unread : Var → Bool) (b : Block) : Prop := ∀ s ∈ b.stmts, leftover? unread s = none

/-- A statement stays if it does not set or declare a variable that is not needed. -/
theorem leftover?_eq_none : leftover? unread s = none ↔
    ∀ v, unread v = true → s ≠ .declare v none ∧ ∀ value, s.assignment? ≠ some (v, value) := by
  unfold leftover?
  split
  · rename_i v
    simp only [ite_eq_right_iff, reduceCtorEq, imp_false]
    constructor
    · intro h u hu
      constructor
      · rintro ⟨⟩
        exact h hu
      · rintro e ⟨⟩
    · exact fun h hv => (h v hv).1 rfl
  · rename_i hdeclare
    cases hassign : s.assignment? with
    | none =>
      refine ⟨fun _ v _ => ⟨hdeclare v, ?_⟩, fun _ => rfl⟩
      rintro e ⟨⟩
    | some assignment =>
      obtain ⟨v, value⟩ := assignment
      simp only [ite_eq_right_iff, reduceCtorEq, imp_false]
      constructor
      · intro h u hu
        refine ⟨hdeclare u, ?_⟩
        rintro e ⟨⟩
        exact h hu
      · exact fun h hv => (h v hv).2 value rfl

theorem assignment?_expr {e : Expr} (he : e.isWriteFree = true) :
    (Stmt.expr e).assignment? = none := by
  unfold assignment?
  split
  · rename_i v value heq
    cases heq
    exact absurd (by simp [Expr.usesAs]) (Expr.isWriteFree_iff.1 he v)
  · rename_i heq
    cases heq
  · rfl

theorem swept_cons :
    Swept unread (s :: ss) ↔ leftover? unread s = none ∧ (∀ a ∈ s.blocks, Swept unread a) ∧
    Swept unread ss := by
  simp only [Swept, stmts_cons, List.forall_mem_cons, List.forall_mem_append,
    List.forall_mem_flatMap]

theorem swept_sweep {b : Block} (hwhole : b.writesWhole = true)
    (hblocks : ∀ s ∈ b, ∀ a ∈ s.blocks, Swept unread a) : Swept unread (sweep unread b).val := by
  induction b with
  | nil => rintro s ⟨⟩
  | cons s ss ih =>
    obtain ⟨hs, _, hss⟩ := writesWhole_cons.1 hwhole
    have hrest := ih hss fun t ht => hblocks t (List.mem_cons_of_mem s ht)
    rw [sweep]
    split
    · rename_i left hleft
      rcases leftover?_eq_some hleft with ⟨_, _, _, rfl⟩ |
        ⟨v, value, hassign, _, ⟨_, rfl⟩ | ⟨_, rfl⟩⟩
      · exact hrest
      · exact hrest
      · -- The value that stays does not assign a variable itself.
        have hfree : value.isWriteFree = true :=
          free_of_assignment? (D := .writes) ((follows_writes s).trans hs) hassign
        refine swept_cons.2 ⟨leftover?_eq_none.2 fun u _ => ⟨?_, fun e he => ?_⟩, ?_, hrest⟩
        · rintro ⟨⟩
        · rw [assignment?_expr hfree] at he
          cases he
        · rintro a ⟨⟩
    · rename_i hleft
      exact swept_cons.2 ⟨hleft, hblocks s List.mem_cons_self, hrest⟩

/-- Nothing is left to drop behind the pass. -/
theorem swept_rewrite (b : Block) (h : b.writesWhole = true) :
    Swept unread (b.rewrite (sweep unread)).val := by
  have hsweep {b : Block} (h : b.writesWhole = true)
      (hblocks : ∀ s ∈ (rewriteEach (sweep unread) b).val, ∀ a ∈ s.blocks, Swept unread a) :
      Swept unread (b.rewrite (sweep unread)).val :=
    swept_sweep ((congruent_keepsWhole.rewriteEach (keepsWhole_sweep unread) b).writesWhole h)
      hblocks
  refine hsweep h ?_
  induction b using nestedInduction with
  | nil => simp [rewriteEach]
  | cons s ss ihblocks ih =>
    obtain ⟨_, hblocks, hss⟩ := writesWhole_cons.1 h
    have hin (a : Block) (ha : a ∈ s.blocks) : Swept unread (a.rewrite (sweep unread)).val :=
      hsweep (hblocks a ha) (ihblocks a ha (hblocks a ha))
    have hfirst : ∀ a ∈ (s.rewriteIn (sweep unread)).val.blocks, Swept unread a := by
      cases s with
      | ite c a b => simpa [rewriteIn, Block.rewrite] using hin
      | loop l c a | block a => simpa [rewriteIn, Block.rewrite] using hin
      | _ => simp [rewriteIn, blocks]
    simpa [rewriteEach] using ⟨hfirst, ih hss⟩

/-- Dropping what is assigned to variables that a body never reads does not change what it does: it
ends in the same way, with the same heap, the same operations that may fail or have an effect, and
the same values of the variables it reads. Nothing that only sets or declares another variable is
left, at any depth. -/
theorem exec_dropUnread (I : Interpretation ν η) (hI : I.Calm) {b : Block}
    (hb : b.writesWhole = true) :
    (∀ n s, RunAlike (Like fun v => .read v ∉ b.uses) (b.exec I.semantics n s)
      ((dropUnread b).val.exec I.semantics n s)) ∧
    ∀ x ∈ (dropUnread b).val.stmts, ∀ v, .read v ∉ b.uses →
      x ≠ .declare v none ∧ ∀ value, x.assignment? ≠ some (v, value) := by
  constructor
  · have hspares : b.Spares fun v => .read v ∉ b.uses := fun v hv h => h hv
    have hunread (v : Var) (h : (!b.uses.contains (.read v)) = true) : .read v ∉ b.uses := by
      simpa using h
    have halike := (congruent_like I _).rewrite
      ((congruent_like I _).tracking.sweep fun _ => like_leftover? hI hunread) b hspares
    exact fun n s => halike.2 n (.refl s)
  · intro x hx v hv
    exact leftover?_eq_none.1 (swept_rewrite b hb x hx) v (by simpa using hv)

/-- `a = 3; while (b) { c = g(); b = 0; } return b;`, where `a` and `c` are never read. -/
def callInLoop : Block :=
  [.set ⟨0⟩ (.int 3), .loop none (.var ⟨1⟩) [.set ⟨2⟩ (.staticCall .static default []),
    .set ⟨1⟩ (.int 0)], .ret (some (.var ⟨1⟩))]

/-- The call in the loop stays, and is done once if `b` is not zero at the start. -/
theorem exec_dropUnread_callInLoop :
    callInLoop.writesWhole = true ∧
      (dropUnread callInLoop).val =
        [.loop none (.var ⟨1⟩) [.expr (.staticCall .static default []), .set ⟨1⟩ (.int 0)],
          .ret (some (.var ⟨1⟩))] ∧
      ∃ t, (dropUnread callInLoop).val.exec plainNumbers.semantics 2 ⟨fun _ => 1, (), []⟩ =
        some (.returned (some 0), t) ∧ t.effects = [(.staticCall .static default [], [])] := by
  have hcalm : plainNumbers.Calm := by
    intro op vs h _
    simp only [plainNumbers]
    split <;> exact ⟨_, rfl⟩
  have hrun : (callInLoop.exec plainNumbers.semantics 2 ⟨fun _ => 1, (), []⟩).map
    (fun r => (r.1, r.2.effects)) =
      some (.returned (some 0), [(.staticCall .static default [], [])]) := by
    rfl
  have hwhole : callInLoop.writesWhole = true := by decide
  refine ⟨hwhole, by decide, ?_⟩
  rcases ((exec_dropUnread plainNumbers hcalm hwhole).1 2 ⟨fun _ => 1, (), []⟩).none_or_some with
    ⟨hs, _⟩ | ⟨y, s, t, hs, ht, hlike⟩
  · rw [hs] at hrun
    cases hrun
  · rw [hs] at hrun
    obtain ⟨rfl, heffects⟩ := Prod.mk.inj (Option.some.inj hrun)
    exact ⟨t, ht, hlike.effects.symm.trans heffects⟩

end Cleanup

end ByteLift
