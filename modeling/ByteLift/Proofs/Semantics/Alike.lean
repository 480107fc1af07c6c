import ByteLift.Proofs.Semantics.Nested
import ByteLift.Proofs.Semantics.Parts

/-!
# Runs that are alike

Two computations are *alike* if they come to the same from related states, and leave related states
behind. Expressions in which variables are replaced by expressions like them are alike, if each
operation is like itself; so are statements and blocks.
-/

namespace ByteLift

open Expr

variable {ν σ α β : Type}

/-- The same result, with related states. -/
inductive ResultAlike (R : σ → σ → Prop) : EStateM.Result ν σ α → EStateM.Result ν σ α → Prop
  | ok (a : α) {s t : σ} : R s t → ResultAlike R (.ok a s) (.ok a t)
  | error (v : ν) {s t : σ} : R s t → ResultAlike R (.error v s) (.error v t)

/-- The same end of a run, with related states, or no end. -/
inductive RunAlike (R : σ → σ → Prop) : Option (Exit ν × σ) → Option (Exit ν × σ) → Prop
  | none : RunAlike R none none
  | some (y : Exit ν) {s t : σ} : R s t → RunAlike R (some (y, s)) (some (y, t))

variable {R R' : σ → σ → Prop} {q r : EStateM.Result ν σ α} {s t : σ}

/-- Two results that are alike are both values or both exceptions. -/
theorem ResultAlike.ok_or_error (h : ResultAlike R q r) :
    (∃ a s t, q = .ok a s ∧ r = .ok a t ∧ R s t) ∨ ∃ v s t, q = .error v s ∧
    r = .error v t ∧ R s t := by
  cases h with
  | ok a h => exact .inl ⟨a, _, _, rfl, rfl, h⟩
  | error v h => exact .inr ⟨v, _, _, rfl, rfl, h⟩

section

variable {x y : EStateM ν σ α} (h : ResultAlike R (x s) (y t))
include h

theorem ResultAlike.map (f : α → β) : ResultAlike R ((f <$> x) s) ((f <$> y) t) := by
  rcases h.ok_or_error with ⟨a, s', t', hx, hy, h⟩ | ⟨v, s', t', hx, hy, h⟩
  · simp only [Functor.map, EStateM.map, hx, hy]
    exact .ok _ h
  · simp only [Functor.map, EStateM.map, hx, hy]
    exact .error _ h

theorem ResultAlike.bind {f g : α → EStateM ν σ β}
    (hf : ∀ a ⦃s t⦄, R s t → ResultAlike R (f a s) (g a t)) :
    ResultAlike R ((x >>= f) s) ((y >>= g) t) := by
  simp only [Bind.bind, EStateM.bind]
  rcases h.ok_or_error with ⟨a, s', t', hx, hy, hst⟩ | ⟨v, s', t', hx, hy, hst⟩
  · rw [hx, hy]
    exact hf a hst
  · rw [hx, hy]
    exact .error v hst

end

theorem ResultAlike.mono (hR : ∀ s t, R s t → R' s t) (h : ResultAlike R q r) :
    ResultAlike R' q r := by
  cases h with
  | ok a h => exact .ok a (hR _ _ h)
  | error v h => exact .error v (hR _ _ h)

variable {R'' : σ → σ → Prop} {x y : Stmt} {e : Expr} {n : Nat}

theorem ResultAlike.trans (hR : ∀ s t u, R s t → R' t u → R'' s u) {p : EStateM.Result ν σ α}
    (h : ResultAlike R p q) (h' : ResultAlike R' q r) : ResultAlike R'' p r := by
  cases h with
  | ok a hst =>
    cases h' with
    | ok _ htu => exact .ok a (hR _ _ _ hst htu)
  | error v hst =>
    cases h' with
    | error _ htu => exact .error v (hR _ _ _ hst htu)

theorem RunAlike.none_or_some {q r : Option (Exit ν × σ)} (h : RunAlike R q r) :
    (q = .none ∧ r = .none) ∨ ∃ y s t, q = .some (y, s) ∧ r = .some (y, t) ∧ R s t := by
  cases h with
  | none => exact .inl ⟨rfl, rfl⟩
  | some y h => exact .inr ⟨y, _, _, rfl, rfl, h⟩

theorem RunAlike.trans (hR : ∀ s t u, R s t → R' t u → R'' s u) {p q r : Option (Exit ν × σ)}
    (h : RunAlike R p q) (h' : RunAlike R' q r) : RunAlike R'' p r := by
  cases h with
  | none =>
    cases h'
    exact .none
  | some y hst =>
    cases h' with
    | some _ htu => exact .some y (hR _ _ _ hst htu)

/-- Computations that come to the same from related states. -/
def Alike (R : σ → σ → Prop) (x y : EStateM ν σ α) : Prop :=
  ∀ ⦃s t⦄, R s t → ResultAlike R (x s) (y t)

/-! ## Computations -/

namespace Alike

variable {x y : EStateM ν σ α} {f g : α → EStateM ν σ β}

theorem pure (a : α) : Alike R (Pure.pure a : EStateM ν σ α) (Pure.pure a) := fun _ _ h => .ok a h

theorem bind (h : Alike R x y) (hf : ∀ a, Alike R (f a) (g a)) : Alike R (x >>= f) (y >>= g) :=
  fun _ _ hst => (h hst).bind hf

theorem map (h : Alike R x y) (f : α → β) : Alike R (f <$> x) (f <$> y) :=
  fun _ _ hst => (h hst).map f

theorem ite {p : Prop} [Decidable p] {x' y' : EStateM ν σ α} (h : Alike R x y)
    (h' : Alike R x' y') : Alike R (if p then x else x') (if p then y else y') := by
  split
  · exact h
  · exact h'

end Alike

/-! ## Expressions -/

namespace Interpretation

variable {η : Type} {I : Interpretation ν η} {R : State ν η → State ν η → Prop}

theorem alike_evalList {g : Expr → Expr} {ds : List Expr}
    (h : ∀ d ∈ ds, Alike R (I.eval d) (I.eval (g d))) :
    Alike R (I.evalList ds) (I.evalList (ds.map g)) := by
  induction ds with
  | nil => exact .pure []
  | cons d ds ih =>
    rw [List.forall_mem_cons] at h
    simp only [List.map_cons, evalList]
    exact h.1.bind fun _ => (ih h.2).bind fun _ => .pure _

variable {Q : Expr → Prop}

/-- What an expression does with the values of its parts is like itself, if operations are and so is
the assignment of a variable. -/
theorem alike_finish {vs : List ν} (hperform : ∀ op ws, Alike R (I.perform op ws) (I.perform op ws))
    (hput : ∀ v, e.assigned? = some v → ∀ x ⦃s t⦄, R s t → R (s.put v x) (t.put v x)) :
    Alike R (I.finish e vs) (I.finish e vs) := by
  unfold finish
  split
  case h_5 u _ x => exact fun s t h => .ok x (hput u rfl x h)
  case h_6 | h_7 => exact hperform _ _
  all_goals exact .pure _

/-- Expressions of a kind are like those with others in place of variables. The kind is given with a
property that the parts of an expression share. -/
theorem alike_eval_replaceReads {f : Var → Option Expr} (hparts : ∀ e d, Q e → d ∈ e.parts → Q d)
    (hread : ∀ v, Q (.var v) → Alike R (I.eval (.var v)) (I.eval ((f v).getD (.var v))))
    (hfinish : ∀ e, e.isStrict = true → Q e → ∀ vs, Alike R (I.finish e vs) (I.finish e vs))
    (he : Q e) : Alike R (I.eval e) (I.eval (e.replaceReads f).val) := by
  induction e using partsInduction with
  | var v =>
    have hreplaced : ((Expr.var v).replaceReads f).val = (f v).getD (.var v) := by
      cases hf : f v <;> simp [replaceReads, replaceAs, hf]
    rw [hreplaced]
    exact hread v he
  | lazy op a b t hop iha ihb =>
    have ha := iha (hparts _ a he (by simp [parts, children]))
    have hb := ihb (hparts _ b he (by simp [parts, children]))
    simp only [replaceReads, replaceAs, Tracked.val_bind, Tracked.val_pure]
    rw [I.eval_lazy hop, I.eval_lazy hop]
    exact ha.bind fun _ => .ite (hb.map _) (.pure _)
  | strict e hstrict ih =>
    rw [I.eval_eq_finish hstrict, I.eval_eq_finish (isStrict_replaceReads f hstrict),
      parts_replaceReads f hstrict, I.finish_replaceReads f hstrict]
    exact (alike_evalList fun d hd => ih d hd (hparts e d he hd)).bind fun vs =>
      hfinish e hstrict he vs

/-- Expressions of a kind are like themselves, where the variables that they read have the same
values. -/
theorem alike_eval_self (hparts : ∀ e d, Q e → d ∈ e.parts → Q d)
    (hread : ∀ v, Q (.var v) → ∀ ⦃s t⦄, R s t → s.vars v = t.vars v)
    (hfinish : ∀ e, e.isStrict = true → Q e → ∀ vs, Alike R (I.finish e vs) (I.finish e vs))
    (he : Q e) : Alike R (I.eval e) (I.eval e) := by
  have h := alike_eval_replaceReads (f := fun _ => none) hparts (fun v hv s t hst => ?_) hfinish he
  · rwa [replaceReads_eq_pure fun _ _ => rfl] at h
  · rw [Option.getD_none, eval_var, eval_var, hread v hv hst]
    exact .ok _ hst

end Interpretation

/-! ## Statements -/

theorem Stmt.ownUses_eq (x : Stmt) : x.ownUses = x.evaluated?.elim [] Expr.uses := by
  cases x with
  | declare v init => cases init <;> rfl
  | ret value => cases value <;> simp [ownUses, exprs, evaluated?]
  | goto l cond => cases cond <;> simp [ownUses, exprs, evaluated?]
  | _ => simp [ownUses, exprs, evaluated?]

theorem Stmt.evaluated?_replaceStmtReads (f : Var → Option Expr) (x : Stmt) :
    (Cleanup.replaceStmtReads f x).val.evaluated? = x.evaluated?.map fun e =>
      (e.replaceReads f).val := by
  cases x with
  | declare _ o | ret o | goto _ o => cases o <;> rfl
  | _ => rfl

section

variable (S : Semantics σ ν) (R : σ → σ → Prop)

/-- Statements that end in the same way from related states. -/
def Stmt.Alike (x y : Stmt) : Prop := ∀ n ⦃s t⦄, R s t → RunAlike R (x.exec S n s) (y.exec S n t)

/-- Blocks that end in the same way from related states. -/
def Block.Alike (b c : Block) : Prop := ∀ n ⦃s t⦄, R s t → RunAlike R (b.exec S n s) (c.exec S n t)

end

variable {S : Semantics σ ν}

theorem runAlike_iterate {test test' : EStateM ν σ Bool} {body body' : σ → Option (Exit ν × σ)}
    {label : Option Label} (htest : ByteLift.Alike R test test')
    (hbody : ∀ ⦃s t⦄, R s t → RunAlike R (body s) (body' t)) (n : Nat)
    (h : R s t) : RunAlike R (iterate test body label n s) (iterate test' body' label n t) := by
  induction n generalizing s t with
  | zero => exact .none
  | succ n ih =>
    simp only [iterate]
    rcases (htest h).ok_or_error with ⟨p, s', t', hs, ht, h⟩ | ⟨v, s', t', hs, ht, h⟩
    · rw [hs, ht]
      cases p with
      | false => exact .some _ h
      | true =>
        rcases (hbody h).none_or_some with ⟨hs, ht⟩ | ⟨y, s', t', hs, ht, h⟩
        · simp only [hs, ht]
          exact .none
        · simp only [hs, ht]
          cases y.ofRound label with
          | none => exact ih h
          | some z => exact .some z h
    · rw [hs, ht]
      exact .some _ h

/-- Statements without blocks end alike, if what they evaluate comes to the same. -/
theorem Stmt.runAlike_act {d : Expr} (hx : x.blocks = []) (hy : y.blocks = [])
    (hd : x.evaluated? = some d) (he : y.evaluated? = some e) (hexit : ∀ v, x.exit S v = y.exit S v)
    (h : ResultAlike R (S.eval d s) (S.eval e t)) :
    RunAlike R (some (x.act S s)) (some (y.act S t)) := by
  rcases h.ok_or_error with ⟨v, s', t', hs, ht, h⟩ | ⟨v, s', t', hs, ht, h⟩
  · rw [(act_of_some hx hd s).1 v s' hs, (act_of_some hy he t).1 v t' ht, hexit]
    exact .some _ h
  · rw [(act_of_some hx hd s).2 v s' hs, (act_of_some hy he t).2 v t' ht]
    exact .some _ h

theorem Stmt.runAlike_ite {c c' : Expr} {a b a' b' : Block}
    (hc : ResultAlike R (S.eval c s) (S.eval c' t)) (ha : a.Alike S R a') (hb : b.Alike S R b') :
    RunAlike R ((Stmt.ite c a b).exec S n s) ((Stmt.ite c' a' b').exec S n t) := by
  simp only [Stmt.exec, Semantics.test]
  rcases (hc.map S.truth).ok_or_error with ⟨p, s', t', hs, ht, h⟩ | ⟨v, s', t', hs, ht, h⟩
  · rw [hs, ht]
    cases p with
    | false => exact hb n h
    | true => exact ha n h
  · rw [hs, ht]
    exact .some _ h

/-- A statement that is not a loop ends like the one with other expressions in place of variables,
if what the two evaluate does and the blocks of the statement are like themselves. -/
theorem Stmt.runAlike_replaceStmtReads {f : Var → Option Expr} (hx : x.evaluated? = some e)
    (hloop : Cleanup.isLoop x = false)
    (he : ResultAlike R (S.eval e s) (S.eval (e.replaceReads f).val t))
    (hblocks : ∀ a ∈ x.blocks, Block.Alike S R a a) :
    RunAlike R (x.exec S n s) ((Cleanup.replaceStmtReads f x).val.exec S n t) := by
  have hx' y (hy : y.evaluated? = some e) :
    (Cleanup.replaceStmtReads f y).val.evaluated? = some (e.replaceReads f).val :=
    (evaluated?_replaceStmtReads f y).trans (congrArg _ hy)
  cases x with
  | ite c a b =>
    cases hx
    exact runAlike_ite he (hblocks a (by simp)) (hblocks b (by simp))
  | loop => cases hloop
  | expr | throw => exact runAlike_act rfl rfl hx (hx' _ hx) (fun _ => rfl) he
  | declare _ o | ret o | goto _ o =>
    cases o with
    | none => cases hx
    | some => exact runAlike_act rfl rfl hx (hx' _ hx) (fun _ => rfl) he
  | _ => cases hx

namespace Stmt.Alike

variable {a a' : Block}

section

variable {c : Expr} (hc : ByteLift.Alike R (S.eval c) (S.eval c)) (ha : a.Alike S R a')
include hc ha

theorem ite {b b' : Block} (hb : b.Alike S R b') : Stmt.Alike S R (.ite c a b) (.ite c a' b') :=
  fun _ _ _ h => runAlike_ite (hc h) ha hb

theorem loop {l : Option Label} : Stmt.Alike S R (.loop l c a) (.loop l c a') :=
  fun n _ _ h => runAlike_iterate (hc.map S.truth) (ha n) n h

end

theorem block (ha : a.Alike S R a') : Stmt.Alike S R (.block a) (.block a') := fun n _ _ h => ha n h

/-- A statement is like itself, if what it evaluates and its blocks are. -/
theorem refl_of_evaluated (he : ∀ e, x.evaluated? = some e → ByteLift.Alike R (S.eval e) (S.eval e))
    (hblocks : ∀ a ∈ x.blocks, Block.Alike S R a a) : x.Alike S R x := by
  by_cases hloop : Cleanup.isLoop x = true
  · cases x with
    | loop l c a => exact .loop (he c rfl) (hblocks a (by simp))
    | _ => cases hloop
  · intro n s t h
    cases hx : x.evaluated? with
    | none =>
      cases x with
      | block a => exact hblocks a (by simp) n h
      | declare _ o | ret o | goto _ o =>
        cases o with
        | none => exact .some _ h
        | some e => cases hx
      | breakLoop | continueLoop | label => exact .some _ h
      | _ => cases hx
    | some e =>
      have hself :=
        runAlike_replaceStmtReads (f := fun _ => none) (n := n) hx (by simpa using hloop) (t := t)
        (by rw [replaceReads_eq_pure fun _ _ => rfl]; exact he e hx h) hblocks
      rwa [Cleanup.replaceStmtReads_eq_pure fun _ _ => rfl] at hself

end Stmt.Alike

/-- Blocks end alike, if their first statements do and the others are alike. -/
theorem Block.runAlike_cons {xs ys : Block} (h : RunAlike R (x.exec S n s) (y.exec S n t))
    (hs : Block.Alike S R xs ys) :
    RunAlike R (Block.exec S n (x :: xs) s) (Block.exec S n (y :: ys) t) := by
  simp only [Block.exec, execList]
  rcases h.none_or_some with ⟨hx, hy⟩ | ⟨z, s', t', hx, hy, hst⟩
  · rw [hx, hy]
    exact .none
  · rw [hx, hy]
    cases z with
    | normal => exact hs n hst
    | _ => exact .some _ hst

namespace Block.Alike

theorem nil : Block.Alike S R [] [] := fun _ _ _ h => .some _ h

theorem cons {xs ys : Block} (h : x.Alike S R y) (hs : Block.Alike S R xs ys) :
    Block.Alike S R (x :: xs) (y :: ys) := fun n _ _ hst => runAlike_cons (h n hst) hs

/-- Blocks in which every statement evaluates something that is like itself are like themselves. -/
theorem refl_of_evaluated {b : Block}
    (h : ∀ x ∈ b.stmts, ∀ e, x.evaluated? = some e → ByteLift.Alike R (S.eval e) (S.eval e)) :
    b.Alike S R b := by
  induction b using Block.nestedInduction with
  | nil => exact nil
  | cons x xs ihblocks ih =>
    rw [Block.stmts_cons, List.forall_mem_cons, List.forall_mem_append] at h
    obtain ⟨hx, hblocks, hxs⟩ := h
    exact cons (.refl_of_evaluated hx fun a ha => ihblocks a ha fun y hy =>
      hblocks y (List.mem_flatMap.2 ⟨a, ha, hy⟩))
      (ih hxs)

end Block.Alike

end ByteLift
