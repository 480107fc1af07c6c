import ByteLift.Proofs.Semantics.Completion
import ByteLift.Proofs.Semantics.Replacement

/-!
# Reading copies in place of variables

Reading what a variable is a copy of does not change what a block does: the copies listed at a place
hold in every state in which control comes to it. A statement leaves the copies that it does not
write, and so does a loop, whichever way it is left.
-/

namespace ByteLift

open Stmt

/-! ## Where variables are assigned -/

theorem Block.mem_written {b : Block} {v : Var} : v ∈ b.written ↔ .write v ∈ b.uses := by
  rw [written, List.mem_eraseDups, List.mem_filterMap]
  constructor
  · rintro ⟨u, hu, heq⟩
    cases u with
    | read _ => cases heq
    | write _ =>
      cases heq
      exact hu
  · exact fun h => ⟨_, h, rfl⟩

section

variable {ν η : Type} {I : Interpretation ν η} {s t : State ν η} {x : Stmt} {y : Exit ν} {n : Nat}

open Interpretation

variable {e : Expr} {u : Var}

/-- What a statement evaluates writes nothing, or it is an assignment of the statement. -/
theorem Stmt.evaluated?_of_writesWhole (hx : x.writesWhole = true) (he : x.evaluated? = some e) :
    (∃ v d, e = .assign (.var v) d ∧ d.isWriteFree = true ∧ .write v ∈ x.ownUses) ∨
    e.isWriteFree = true := by
  rcases writesWhole_cases hx with ⟨v, d, rfl, hd⟩ | hfree
  · cases he
    exact .inl ⟨v, d, rfl, hd, by simp [ownUses, set, exprs, Expr.uses, Expr.usesAs]⟩
  · cases x with
    | declare v o =>
      cases o <;> cases he
      exact .inl ⟨v, _, rfl, hfree _ (by simp [exprs]), by simp [ownUses]⟩
    | ret o | goto _ o =>
      cases o <;> cases he
      exact .inr (hfree _ (by simp [exprs]))
    | expr | throw | ite | loop =>
      cases he
      exact .inr (hfree _ (by simp [exprs]))
    | _ => cases he

theorem vars_of_evaluated (hx : x.writesWhole = true) (he : x.evaluated? = some e)
    (hu : .write u ∉ x.ownUses)
    {r : EStateM.Result ν (State ν η) ν} (h : I.semantics.eval e s = r) :
    (endState r).vars u = s.vars u := by
  rcases evaluated?_of_writesWhole hx he with ⟨v, d, rfl, hd, hv⟩ | hfree
  · rcases eval_set (I := I) (v := v) (s := s) hd with
      ⟨a, s', _, hvars, heq⟩ | ⟨a, s', _, hvars, heq⟩
    · rw [← h, show I.semantics.eval (.assign (.var v) d) s = _ from heq]
      refine (State.put_of_ne a ?_).trans (congrFun hvars u)
      rintro rfl
      exact hu hv
    · rw [← h, show I.semantics.eval (.assign (.var v) d) s = _ from heq]
      exact congrFun hvars u
  · exact congrFun (vars_of_eval hfree h) u

/-- A statement without blocks changes only the variables that it writes. -/
theorem vars_of_act (hblocks : x.blocks = []) (hx : x.writesWhole = true)
    (h : x.act I.semantics s = (y, t)) (hu : .write u ∉ x.ownUses) : t.vars u = s.vars u := by
  rcases cases_of_act hblocks h with ⟨_, _, rfl⟩ | ⟨e, v, he, hrun | hrun⟩
  · rfl
  · exact vars_of_evaluated hx he hu hrun.1
  · exact vars_of_evaluated hx he hu hrun.1

/-! ## What runs leave as it is -/

/-- Two loops do the same from the states that a property holds of, if their rounds do and keep
it. -/
theorem iterate_congr {σ : Type} {test test' : EStateM ν σ Bool}
    {body body' : σ → Option (Exit ν × σ)} {label : Option Label} {P : σ → Prop}
    (htest : ∀ s, P s → test' s = test s ∧ P (endState (test s)))
    (hbody : ∀ s, P s → body' s = body s ∧ ∀ y t, body s = some (y, t) → P t) {s : σ} (hs : P s) :
    iterate test' body' label n s = iterate test body label n s ∧
      ∀ y t, iterate test body label n s = some (y, t) → P t := by
  induction n generalizing s with
  | zero => exact ⟨rfl, fun y t h => by cases h⟩
  | succ n ih =>
    obtain ⟨heq, hend⟩ := htest s hs
    simp only [iterate, heq]
    cases hr : test s with
    | error v s' =>
      rw [hr] at hend
      exact ⟨rfl, fun y t h => by cases h; exact hend⟩
    | ok p s' =>
      rw [hr] at hend
      cases p with
      | false => exact ⟨rfl, fun y t h => by cases h; exact hend⟩
      | true =>
        obtain ⟨hround, hkeep⟩ := hbody s' hend
        simp only [hround]
        cases hb : body s' with
        | none => exact ⟨rfl, fun y t h => by cases h⟩
        | some r =>
          obtain ⟨x, s''⟩ := r
          dsimp only
          cases x.ofRound label with
          | none => exact ih (hkeep x s'' hb)
          | some y' => exact ⟨rfl, fun y t h => by cases h; exact hkeep x s'' hb⟩

/-- A block changes only the variables that it writes. -/
theorem vars_of_execList (b : Block) (hwhole : b.writesWhole = true) (hu : .write u ∉ b.uses)
    (h : execList I.semantics n b s = some (y, t)) : t.vars u = s.vars u := by
  have hself : b.Alike I.semantics (fun s' t' => s' = t' ∧ s'.vars u = s.vars u) b := by
    refine .refl_of_evaluated fun x hx e he => ?_
    rintro s' _ ⟨rfl, hs'⟩
    have hvars := vars_of_evaluated (I := I) (s := s') (List.all_eq_true.1 hwhole x hx) he
      (fun hwrite => hu (List.mem_flatMap.2 ⟨x, hx, hwrite⟩)) rfl
    cases hr : I.semantics.eval e s' with
    | ok a r | error a r =>
      rw [hr] at hvars
      constructor
      exact ⟨rfl, hvars.trans hs'⟩
  rcases (hself n ⟨rfl, rfl⟩).none_or_some with ⟨hnone, _⟩ | ⟨z, s', t', hs', _, _, hvars⟩
  · exact absurd (hnone.symm.trans h) (by simp)
  · obtain ⟨_, rfl⟩ := Prod.mk.inj (Option.some.inj (hs'.symm.trans h))
    exact hvars

/-! ## Copies that hold -/

theorem Stmt.exec_of_blocks_eq_nil (hx : x.blocks = []) :
    x.exec I.semantics n s = some (x.act I.semantics s) := by
  cases x with
  | ite | loop | block => cases hx
  | _ => rfl

namespace Cleanup

variable {c d : Copies} {ρ ρ' : Var → ν} {v : Var}

/-- Each variable on a list has the value of the variable it is a copy of. -/
def Copies.Holds (c : Copies) (ρ : Var → ν) : Prop := ∀ e ∈ c, ρ e.1 = ρ e.2

theorem Copies.mem_of_source? (h : c.source? v = some u) : (v, u) ∈ c := by
  obtain ⟨⟨v', u'⟩, hfind, rfl⟩ := Option.map_eq_some_iff.1 h
  have hv : v' = v := by simpa using List.find?_some hfind
  exact hv ▸ List.mem_of_find?_eq_some hfind

/-- A copy can be read in place of the variable. -/
theorem Copies.Holds.sameAt (h : c.Holds ρ) (he : c.substitute v = some e) :
    SameAt ρ (I.eval e) (I.eval (.var v)) := by
  obtain ⟨u, hu, rfl⟩ := Option.map_eq_some_iff.1 he
  intro s hs
  have hvalue : s.vars u = s.vars v := by rw [hs, h _ (mem_of_source? hu)]
  simp only [Interpretation.eval]
  exact ⟨congrArg (EStateM.Result.ok · s) hvalue, hs⟩

variable {vs : List Var}

theorem Copies.mem_killAll {e : Var × Var} : e ∈ c.killAll vs ↔ e ∈ c ∧ e.1 ∉ vs ∧ e.2 ∉ vs := by
  unfold killAll
  induction vs generalizing c with
  | nil => simp
  | cons v vs ih =>
    rw [List.foldl_cons, ih, kill, List.mem_filter]
    simp only [Bool.and_eq_true, decide_eq_true_eq, List.mem_cons, not_or]
    grind

theorem Copies.Holds.killAll (h : c.Holds ρ) (hρ : ∀ u, u ∉ vs → ρ' u = ρ u) :
    (c.killAll vs).Holds ρ' := by
  intro e he
  obtain ⟨hmem, hfst, hsnd⟩ := Copies.mem_killAll.1 he
  rw [hρ _ hfst, hρ _ hsnd, h e hmem]

theorem Copies.Holds.add (h : c.Holds ρ) (heq : ρ v = ρ u) : (c.add v u).Holds ρ := by
  unfold Copies.add
  split
  · exact h
  · intro e he
    rcases List.mem_cons.1 he with rfl | he
    · exact heq
    · exact h e (List.mem_filter.1 he).1

/-- Behind a branch the copies hold that hold behind the arm that was run, if control can run on
behind it. -/
theorem Copies.Holds.join_left {dRuns : Bool} (h : c.Holds ρ) : (c.join true d dRuns).Holds ρ := by
  cases dRuns with
  | false => exact h
  | true => exact fun e he => h e (List.mem_filter.1 he).1

theorem Copies.Holds.join_right {cRuns : Bool} (h : d.Holds ρ) : (c.join cRuns d true).Holds ρ := by
  cases cRuns with
  | false => exact h
  | true =>
    intro e he
    have hsource : d.source? e.1 = some e.2 := by simpa using (List.mem_filter.1 he).2
    exact h _ (mem_of_source? hsource)

/-! ## Statements without blocks -/

/-- A simple statement does the same with reads replaced by equal values. -/
theorem act_replaceStmtReads {f : Var → Option Expr} (hblocks : x.blocks = [])
    (hf : ∀ v e, f v = some e → SameAt s.vars (I.eval e) (I.eval (.var v)))
    (hx : x.writesWhole = true) :
    (replaceStmtReads f x).val.act I.semantics s = x.act I.semantics s := by
  have hexit (v : Option ν) :
    (replaceStmtReads f x).val.exit I.semantics v = x.exit I.semantics v := by
    cases x with
    | declare _ o | ret o | goto _ o => cases o <;> rfl
    | _ => rfl
  have hblocks' := (blocks_replaceStmtReads f x).trans hblocks
  have heval' := evaluated?_replaceStmtReads f x
  cases he : x.evaluated? with
  | none => rw [act_of_none he, act_of_none (by rw [heval', he]; rfl), hexit]
  | some e =>
    rw [he] at heval'
    have heq : I.semantics.eval (e.replaceReads f).val s = I.semantics.eval e s := by
      rcases evaluated?_of_writesWhole hx he with ⟨v, d, rfl, hd, _⟩ | hfree
      · change I.eval (.assign (.var v) (d.replaceReads f).val) s = I.eval (.assign (.var v) d) s
        have hsame : I.eval (d.replaceReads f).val s = I.eval d s :=
          (sameAt_eval (I := I) hf hd s rfl).1
        simp only [Interpretation.eval, bind, EStateM.bind, hsame]
      · exact (sameAt_eval hf hfree s rfl).1
    cases hr : I.semantics.eval e s with
    | ok v t =>
      rw [(act_of_some hblocks he s).1 v t hr,
        (act_of_some hblocks' heval' s).1 v t (heq.trans hr), hexit]
    | error v t =>
      rw [(act_of_some hblocks he s).2 v t hr, (act_of_some hblocks' heval' s).2 v t (heq.trans hr)]

theorem isWriteFree_substitute (v : Var) (e : Expr) (h : c.substitute v = some e) :
    e.isWriteFree = true := by
  obtain ⟨u, _, rfl⟩ := Option.map_eq_some_iff.1 h
  rfl

theorem copyStmt_of_blocks_eq_nil (hx : x.blocks = []) :
    copyStmt c x = (fun y => (y, c.after y)) <$> replaceStmtReads c.substitute x := by
  cases x with
  | ite | loop | block => cases hx
  | _ => rfl

/-- An assignment makes the one variable a copy of the other. -/
theorem vars_of_assignment (hx : x.assignment? = some (v, .var u))
    (h : x.act I.semantics s = (y, t)) : t.vars v = t.vars u := by
  have heval :
    I.semantics.eval (.assign (.var v) (.var u)) s = .ok (s.vars u) (s.put v (s.vars u)) := by
    change I.eval _ s = _
    simp only [Interpretation.eval]
    rfl
  have hput : t = s.put v (s.vars u) := by
    unfold assignment? at hx
    split at hx
    · cases hx
      simp only [Stmt.act, heval] at h
      cases h
      rfl
    · cases hx
      simp only [Stmt.act, heval] at h
      cases h
      rfl
    · cases hx
  rw [hput]
  simp [State.put]

/-- Copies that are listed behind a statement hold behind it. -/
theorem Copies.Holds.after (h : c.Holds s.vars) (hblocks : x.blocks = [])
    (hx : x.writesWhole = true) (hact : x.act I.semantics s = (.normal, t)) :
    (c.after (replaceStmtReads c.substitute x).val).Holds t.vars := by
  have hact' : (replaceStmtReads c.substitute x).val.act I.semantics s = (.normal, t) :=
    (act_replaceStmtReads hblocks (fun _ _ => h.sameAt) hx).trans hact
  unfold Copies.after
  dsimp only
  have hkill : (c.killAll ((replaceStmtReads c.substitute x).val.declared?.toList ++
      Block.written [(replaceStmtReads c.substitute x).val])).Holds t.vars := by
    refine h.killAll fun u hu => vars_of_act hblocks hx hact fun hwrite => hu ?_
    rw [List.mem_append, Block.mem_written, Block.uses_cons, List.mem_append]
    exact .inr (.inl ((write_mem_replaceStmtReads isWriteFree_substitute).2 hwrite))
  split
  · rename_i v u hassign
    exact hkill.add (vars_of_assignment hassign hact')
  · exact hkill

theorem exec_copyStmt_of_blocks_eq_nil (hblocks : x.blocks = []) (hx : x.writesWhole = true)
    (hc : c.Holds s.vars) : (copyStmt c x).val.1.exec I.semantics n s = x.exec I.semantics n s ∧
      ∀ t, x.exec I.semantics n s = some (.normal, t) → (copyStmt c x).val.2.Holds t.vars := by
  rw [copyStmt_of_blocks_eq_nil hblocks, Tracked.val_map, exec_of_blocks_eq_nil hblocks,
    exec_of_blocks_eq_nil ((blocks_replaceStmtReads _ x).trans hblocks)]
  exact ⟨congrArg some (act_replaceStmtReads hblocks (fun _ _ => hc.sameAt) hx),
    fun t h => hc.after hblocks hx (Option.some.inj h)⟩

/-! ## Blocks -/

/-- Control does not run on behind a block that is said not to complete. -/
theorem completes_of_exec {b : Block} (h : execList I.semantics n b s = some (.normal, t)) :
    Block.completes b = true := by
  cases hb : Block.completes b with
  | true => rfl
  | false => exact absurd (meaningList_of_exec b h) (abrupt_of_completesList b hb s t)

/-- A block runs the same with its copies replaced, and those listed behind it hold there. -/
theorem exec_copyBlock (b : Block) (hwhole : b.writesWhole = true) (hc : c.Holds s.vars) :
    execList I.semantics n (copyBlock c b).val.1 s = execList I.semantics n b s ∧
      ∀ t, execList I.semantics n b s = some (.normal, t) → (copyBlock c b).val.2.Holds t.vars := by
  induction b using Block.nestedInduction generalizing c s with
  | nil => exact ⟨rfl, fun t h => by cases h; exact hc⟩
  | cons x xs ihblocks ihxs =>
    obtain ⟨hx, hblocks, hxs⟩ := Block.writesWhole_cons.1 hwhole
    have hstmt : (copyStmt c x).val.1.exec I.semantics n s = x.exec I.semantics n s ∧
        ∀ t, x.exec I.semantics n s = some (.normal, t) → (copyStmt c x).val.2.Holds t.vars := by
      cases x with
      | ite cond a b =>
        simp only [blocks, List.forall_mem_cons] at ihblocks hblocks
        have hcond : cond.isWriteFree = true := by simpa [writesWhole, exprs] using hx
        obtain ⟨heq, hvars⟩ := sameAt_test (I := I) (fun _ _ => hc.sameAt) hcond s rfl
        simp only [copyStmt, Tracked.val_bind, Tracked.val_pure, Stmt.exec, heq]
        cases htest : I.semantics.test cond s with
        | error v s' => exact ⟨rfl, fun t h => by cases h⟩
        | ok p s' =>
          rw [htest] at hvars
          have hc' : c.Holds s'.vars := by rwa [show s'.vars = s.vars from hvars]
          cases p with
          | true =>
            obtain ⟨hrun, hafter⟩ := ihblocks.1 hblocks.1 hc'
            refine ⟨hrun, fun t h => ?_⟩
            rw [completes_of_exec (hrun.trans h)]
            exact (hafter t h).join_left
          | false =>
            obtain ⟨hrun, hafter⟩ := ihblocks.2.1 hblocks.2.1 hc'
            refine ⟨hrun, fun t h => ?_⟩
            rw [completes_of_exec (hrun.trans h)]
            exact (hafter t h).join_right
      | loop l cond a =>
        have ha := hblocks a (by simp)
        have hcond : cond.isWriteFree = true := by simpa [writesWhole, exprs] using hx
        -- The copies that the body does not write hold whenever control comes to the loop or leaves
        -- it.
        have htest (s' : State ν η) (hs' : (c.killAll (Block.written a)).Holds s'.vars) :
            I.semantics.test (cond.replaceReads (c.killAll (Block.written a)).substitute).val s' =
                I.semantics.test cond s' ∧
              (c.killAll (Block.written a)).Holds (endState (I.semantics.test cond s')).vars := by
          obtain ⟨heq, hvars⟩ := sameAt_test (I := I) (fun _ _ => hs'.sameAt) hcond s' rfl
          exact ⟨heq, by rwa [hvars]⟩
        have hbody (s' : State ν η) (hs' : (c.killAll (Block.written a)).Holds s'.vars) :
            execList I.semantics n (copyBlock (c.killAll (Block.written a)) a).val.1 s' =
            execList I.semantics n a s' ∧
              ∀ y t, execList I.semantics n a s' = some (y, t) →
              (c.killAll (Block.written a)).Holds t.vars := by
          refine ⟨(ihblocks a (by simp) ha hs').1, fun y t h e he => ?_⟩
          obtain ⟨_, hfst, hsnd⟩ := Copies.mem_killAll.1 he
          rw [Block.mem_written] at hfst hsnd
          rw [vars_of_execList a ha hfst h, vars_of_execList a ha hsnd h, hs' e he]
        obtain ⟨hrun, hkept⟩ :=
          iterate_congr (P := fun s' : State ν η => (c.killAll (Block.written a)).Holds s'.vars)
          htest hbody (hc.killAll fun _ _ => rfl)
        exact ⟨hrun, hkept .normal⟩
      | block a => exact ihblocks a (by simp) (hblocks a (by simp)) hc
      | _ => exact exec_copyStmt_of_blocks_eq_nil rfl hx hc
    simp only [copyBlock, Tracked.val_bind, Tracked.val_pure, execList, hstmt.1]
    cases hrun : x.exec I.semantics n s with
    | none => exact ⟨rfl, fun t h => by cases h⟩
    | some r =>
      obtain ⟨y, s'⟩ := r
      cases y with
      | normal => exact ihxs hxs (hstmt.2 s' hrun)
      | _ => exact ⟨rfl, fun t h => by cases h⟩

/-- Reading copies in place of variables changes nothing that a block does: under every
interpretation and from every state, it ends in the same way and in the same state, with the same
operations done in the same order. -/
theorem exec_propagateCopies (I : Interpretation ν η) {b : Block}
    (hb : b.writesWhole = true) (n : Nat) (s : State ν η) :
    Block.exec I.semantics n (propagateCopies b).val s = Block.exec I.semantics n b s :=
  (exec_copyBlock b hb (by simp [Copies.Holds])).1

/-- Values are numbers, literals have their values, and all other operations give zero. -/
def plainNumbers : Interpretation Int Unit where
  truth v := v ≠ 0
  ofBool b := if b then 1 else 0
  order v w := some (compare v w)
  isNaN _ := false
  truth_ofBool b := by cases b <;> rfl
  isNaN_of_unordered _ _ h := by cases h
  operate op _ :=
    match op with
    | .lit (.int v) => pure v.toInt
    | _ => pure 0

/-- `a = b; if (c) { b = 1; return a; } return a;`, where `a` is a copy of `b` at the second return
only. -/
def earlyReturn : Block :=
  [.set ⟨0⟩ (.var ⟨1⟩), .ifThen (.var ⟨2⟩) [.set ⟨1⟩ (.int 1), .ret (some (.var ⟨0⟩))],
    .ret (some (.var ⟨0⟩))]

/-- With `b` 5 and `c` 1, both give 5. -/
theorem exec_propagateCopies_earlyReturn :
    earlyReturn.writesWhole = true ∧
      (propagateCopies earlyReturn).val =
        [.set ⟨0⟩ (.var ⟨1⟩), .ifThen (.var ⟨2⟩) [.set ⟨1⟩ (.int 1), .ret (some (.var ⟨0⟩))],
          .ret (some (.var ⟨1⟩))] ∧
      (Block.exec plainNumbers.semantics 1 (propagateCopies earlyReturn).val
        ⟨fun v => if v = ⟨1⟩ then 5 else 1, (), []⟩).map Prod.fst = some (.returned (some 5)) := by
  refine ⟨by decide, by decide, ?_⟩
  rw [exec_propagateCopies plainNumbers (by decide)]
  rfl

end Cleanup

end

end ByteLift
