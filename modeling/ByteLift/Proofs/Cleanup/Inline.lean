import ByteLift.Proofs.Cleanup.Unread
import ByteLift.Proofs.Semantics.Moved

/-!
# Inlining keeps what code does

A value put in place of a variable is evaluated later: by the next statement, where this comes to
the variable. No run can tell if the value is pure. A cast may fail, so nothing may be done before
it; but the pass moves casts in any case: with `s = (String) p; f(g(), s);` it moves one past a
call. The variables whose values were moved are not read any more, and only they differ in the end.
-/

namespace ByteLift

open State Stmt

/-- A statement that fails to evaluate its expression ends with that. -/
theorem Stmt.exec_of_error {σ ν : Type} {S : Semantics σ ν} {x : Stmt} {e : Expr} {s t : σ} {v : ν}
    (hx : x.evaluated? = some e) (hloop : Cleanup.isLoop x = false)
    (he : S.eval e s = .error v t) (n : Nat) : x.exec S n s = some (.thrown v, t) := by
  have htest : S.test e s = .error v t := by
    simp only [Semantics.test, Functor.map, EStateM.map, he]
  cases x with
  | loop => cases hloop
  | ite c a b =>
    cases hx
    simp only [exec, htest]
  | expr | throw =>
    cases hx
    simp only [exec, act, he]
  | declare _ o | ret o | goto _ o =>
    cases o with
    | none => cases hx
    | some d =>
      cases hx
      simp only [exec, act, he, htest]
  | _ => cases hx

namespace Cleanup

open Block

variable {ν η : Type} {I : Interpretation ν η} {E : Var → Prop} {uses : List Use} {s next : Stmt}
  {ss : Block} {v : Var} {value : Expr}

/-! ## One value -/

/-- The next statement is no loop, and writes nothing that the value reads. -/
theorem inlinable?_next (h : inlinable? uses s next = some (v, value)) :
    isLoop next = false ∧ ∀ u, .write u ∈ next.ownUses → .read u ∉ value.uses := by
  unfold inlinable? at h
  split at h
  · split at h
    · rename_i hguard
      cases h
      simp only [Bool.and_eq_true, Bool.not_eq_true', List.any_eq_false] at hguard
      refine ⟨hguard.1.1.2, fun u hu => ?_⟩
      have hreads := hguard.1.2 u (mem_written.2 (by simp [uses_cons, hu]))
      simpa [Expr.reads] using hreads
    · cases h
  · cases h

/-- The value is pure, or the next statement comes to the variable first. -/
def Safe (v : Var) (value : Expr) (next : Stmt) : Prop :=
  value.isPure = true ∨ ∃ e, next.evaluated? = some e ∧ e.Leads v

section

variable (hI : I.Steady) (h : inlinable? uses s next = some (v, value))
  (hbound : ∀ u, (Block.uses (s :: next :: ss)).count u ≤ uses.count u)
  (hwhole : Block.writesWhole (s :: next :: ss) = true) (hsafe : Safe v value next) (hv : E v)
  (hspares : Spares E ((replaceStmtReads (Expr.only v value) next).val :: ss))
include hI h hbound hwhole hsafe hv hspares

/-- What the next statement evaluates comes to the same behind the assignment as with the value put
in. -/
theorem alike_evaluated {e : Expr} (he : next.evaluated? = some e) :
    Alike (Like E) (I.behind v value (I.eval e))
      (I.eval (e.replaceReads (Expr.only v value)).val) := by
  obtain ⟨hassign, hread, hwrite, -, d, hd, hdreads⟩ := inlinable?_eq_some h
  have hown : next.ownUses = e.uses := by rw [next.ownUses_eq, he]; rfl
  have hmem : .read v ∈ e.uses :=
    hown ▸ mem_ownUses_of_exprs hd (by simpa [Expr.reads] using hdreads)
  -- What the new statement reads is what the value reads, and what the old one reads but for the
  -- variable.
  have hreads := (spares_cons.1 hspares).1
  rw [ownUses_replaceStmtReads, hown] at hreads
  have hvalue (u : Var) (hu : .read u ∈ value.uses) : ¬ E u :=
    hreads u (List.mem_flatMap.2 ⟨_, hmem, by rwa [Use.replaced_only_self]⟩)
  have hothers (u : Var) (hu : .read u ∈ e.uses) (huv : u ≠ v) : ¬ E u :=
    hreads u (List.mem_flatMap.2 ⟨_, hu,
      by rw [Use.replaced_only_of_ne (by simpa using huv)]; simp⟩)
  -- The variable is not read or written elsewhere.
  have hboundRead := hread ▸ hbound (.read v)
  have hboundWrite := hwrite ▸ hbound (.write v)
  rw [uses_of_assignment? hassign, uses_cons, hown] at hboundRead hboundWrite
  simp only [List.count_append, List.count_cons_self,
    List.count_cons_of_ne (show Use.write v ≠ .read v by simp)]
    at hboundRead hboundWrite
  rcases hsafe with hpure | ⟨e', he', hleads⟩
  · refine Interpretation.alike_behind_pure hI hpure hv hvalue hothers fun u hu => ⟨?_, ?_⟩
    · rintro rfl
      exact List.count_eq_zero.1 (show e.uses.count (.write u) = 0 by omega) hu
    · exact (inlinable?_next h).2 u (hown ▸ hu)
  · cases he.symm.trans he'
    have hfree : value.isWriteFree = true :=
      free_of_assignment? (D := .writes)
        ((follows_writes s).trans (writesWhole_cons.1 hwhole).1) hassign
    exact Interpretation.alike_behind_leads hI hfree hv hvalue hleads (by omega) hothers

/-- Putting a value in place of the variable that it was assigned to. -/
theorem like_inlined :
    Block.Alike I.semantics (Like E) (s :: next :: ss)
      ((replaceStmtReads (Expr.only v value) next).val :: ss) := by
  obtain ⟨hassign, -, -, -, d, hd, _⟩ := inlinable?_eq_some h
  obtain ⟨hloop, -⟩ := inlinable?_next h
  obtain ⟨-, hblocks, hss⟩ := spares_cons.1 hspares
  rw [blocks_replaceStmtReads] at hblocks
  obtain ⟨e, he⟩ : ∃ e, next.evaluated? = some e := by
    cases next with
    | declare _ o | ret o | goto _ o =>
      cases o with
      | none => cases hd
      | some e => exact ⟨_, rfl⟩
    | expr | throw | ite | loop => exact ⟨_, rfl⟩
    | _ => cases hd
  intro n p q hpq
  have hmoved := alike_evaluated hI h hbound hwhole hsafe hv hspares he hpq
  rw [Block.exec, execList, exec_assigned hassign]
  cases hx : I.eval value p with
  | ok x p' =>
    rw [Interpretation.behind_of_ok hx] at hmoved
    exact runAlike_cons (runAlike_replaceStmtReads he hloop hmoved fun a ha =>
      like_self (hblocks a ha))
      (like_self hss)
  | error x p' =>
    rw [Interpretation.behind_of_error hx] at hmoved
    rcases hmoved.ok_or_error with ⟨_, _, _, hp, _⟩ | ⟨y, p'', q', hp, hq, hpq'⟩
    · cases hp
    · cases hp
      have he' := (evaluated?_replaceStmtReads (Expr.only v value) next).trans (congrArg _ he)
      have hloop' : isLoop (replaceStmtReads (Expr.only v value) next).val = false := by
        cases next with
        | loop => cases hloop
        | declare _ o | ret o | goto _ o => cases o <;> rfl
        | _ => rfl
      rw [Block.exec, execList, exec_of_error he' hloop' hq]
      exact .some _ hpq'

end

/-! ## All values -/

/-- Blocks that are made of others by inlining. They use variables no more often. The variables in
which runs may differ were read once, and are not read any more. -/
structure Moves (I : Interpretation ν η) (uses : List Use) (a b : Block) : Prop where
  count_uses_le : ∀ u, b.uses.count u ≤ a.uses.count u
  writesWhole : b.writesWhole = true
  alike : ∃ D : Var → Prop, (∀ v, D v → uses.count (.read v) = 1 ∧ .read v ∈ a.uses) ∧ b.Spares D ∧
    ∀ E, (∀ v, D v → E v) → b.Spares E → a.Alike I.semantics (Like E) b

/-- A variable that was read once, in a part that does not read it any more, is not read at all. -/
theorem spares_of_once {D : Var → Prop} {a a' c : Block}
    (hD : ∀ v, D v → uses.count (.read v) = 1 ∧ .read v ∈ a.uses) (ha' : a'.Spares D)
    (hc : ∀ v, c.uses.count (.read v) + a.uses.count (.read v) ≤
      uses.count (.read v) + a'.uses.count (.read v)) :
    c.Spares D := by
  rw [spares_iff_count] at ha' ⊢
  intro v hv
  have hle := hc v
  have hread := List.one_le_count_iff.2 (hD v hv).2
  rw [(hD v hv).1, ha' v hv] at hle
  omega

/-- Values that are moved in a part of a block are moved in the block. -/
theorem congruent_moves (I : Interpretation ν η) (uses : List Use) :
    Congruent fun a b => (∀ u, a.uses.count u ≤ uses.count u) → a.writesWhole = true →
    Moves I uses a b := by
  refine .of_hole (fun a _ hwhole => ⟨fun _ => Nat.le_refl _, hwhole, fun _ => False,
    fun _ => False.elim, fun _ _ => id, fun E _ h => like_self h⟩) (fun hab hbc hbound hwhole => ?_)
    fun {K a b} hK h hbound hwhole => ?_
  · obtain ⟨hle, hwhole, D, hD, hspares, hab⟩ := hab hbound hwhole
    obtain ⟨hle', hwhole, D', hD', hspares', hbc⟩ :=
      hbc (fun u => Nat.le_trans (hle u) (hbound u)) hwhole
    have hsub {a b : Block} (hle : ∀ u, b.uses.count u ≤ a.uses.count u) {u : Use}
      (hu : u ∈ b.uses) : u ∈ a.uses :=
      List.one_le_count_iff.1 (Nat.le_trans (List.one_le_count_iff.2 hu) (hle u))
    refine ⟨fun u => Nat.le_trans (hle' u) (hle u), hwhole, fun v => D v ∨ D' v, ?_, ?_, ?_⟩
    · rintro v (hv | hv)
      · exact hD v hv
      · exact ⟨(hD' v hv).1, hsub hle (hD' v hv).2⟩
    · rintro v hv (h | h)
      · exact hspares v (hsub hle' hv) h
      · exact hspares' v hv h
    · intro E hE hc n s t hst
      exact .trans (fun _ _ _ h h' => (h.mono fun v hv => hE v (.inl hv)).trans h')
        (hab D (fun _ => id) hspares n (.refl s)) (hbc E (fun v hv => hE v (.inr hv)) hc n hst)
  · obtain ⟨us, vs, huses⟩ := hK.uses
    obtain ⟨k, hk⟩ := hK.count_uses
    obtain ⟨p, hp⟩ := hK.writesWhole
    obtain ⟨hrest, hwhole⟩ := (hp a).1 hwhole
    simp only [hk] at hbound
    obtain ⟨hle, hwhole, D, hD, hspares, halike⟩ := h (fun u => by have := hbound u; omega) hwhole
    refine ⟨fun u => by simpa [hk] using hle u, (hp b).2 ⟨hrest, hwhole⟩, D,
      fun v hv => ⟨(hD v hv).1, by simp [huses, (hD v hv).2]⟩, ?_, fun E hE hb => ?_⟩
    · refine spares_of_once hD hspares fun v => ?_
      have := hbound (.read v)
      simp only [hk]
      omega
    · obtain ⟨_, hiff⟩ := hK.spares (E := E)
      exact like_hole hK hb (halike E hE ((hiff b).1 hb).2)

/-- Each value that the rule moves within a block is pure, or the statement that it is moved to
comes to the variable first. -/
def MovesSafely (uses : List Use) : Block → Prop
  | s :: next :: ss =>
    match inlinable? uses s next with
    | some (v, value) =>
      Safe v value next ∧ MovesSafely uses ((replaceStmtReads (Expr.only v value) next).val :: ss)
    | none => MovesSafely uses (next :: ss)
  | _ => True
termination_by b => b.length

/-- Moving one value changes only a variable that is not read any more. -/
theorem moves_step (hI : I.Steady) (h : inlinable? uses s next = some (v, value))
    (hsafe : Safe v value next)
    (hbound : ∀ u, (Block.uses (s :: next :: ss)).count u ≤ uses.count u)
    (hwhole : Block.writesWhole (s :: next :: ss) = true) :
    Moves I uses (s :: next :: ss) ((replaceStmtReads (Expr.only v value) next).val :: ss) := by
  have hinlines := inlines_step (v := v) h hbound
  obtain ⟨hassign, hread, hwrite, hself, hnext⟩ := inlinable?_eq_some h
  have hunused := unused_inlined hassign hself hnext (hread ▸ hbound _) (hwrite ▸ hbound _)
  obtain ⟨d, hd, hdreads⟩ := hnext
  refine ⟨hinlines.count_uses_le, (keepsWhole_inlined h ss).writesWhole hwhole, (· = v), ?_, ?_,
    fun E hE hspares => ?_⟩
  · rintro _ rfl
    refine ⟨hread, ?_⟩
    have hmem := mem_ownUses_of_exprs hd (by simpa [Expr.reads] using hdreads)
    simp [uses_cons, hmem]
  · exact fun u hu huv => hunused _ hu huv
  · exact like_inlined hI h hbound hwhole hsafe (hE v rfl) hspares

theorem moves_inlineHere (hI : I.Steady) {b : Block} (hsafe : MovesSafely uses b)
    (hbound : ∀ u, b.uses.count u ≤ uses.count u) (hwhole : b.writesWhole = true) :
    Moves I uses b (inlineHere uses b).val := by
  have hcong := congruent_moves I uses
  fun_induction inlineHere uses b with
  | case1 s next ss v value hinline ih =>
    rw [MovesSafely, hinline] at hsafe
    exact hcong.trans (moves_step hI hinline hsafe.1) (ih _ hsafe.2) hbound hwhole
  | case2 s next ss hinline ih =>
    rw [MovesSafely, hinline] at hsafe
    exact hcong.tail s (ih hsafe) hbound hwhole
  | case3 b => exact hcong.refl b hbound hwhole

/-- Inlining does not change what a body does, if each value that it moves past anything else is
pure: the body ends in the same way, with the same heap and the same operations that may fail or
have an effect. Only variables that were read and are not read any more can differ. -/
theorem exec_inlineOnce (I : Interpretation ν η) (hI : I.Steady) {b : Block}
    (hb : b.writesWhole = true)
    (hsafe : ∀ a ∈ b.applied (inlineHere b.uses), MovesSafely b.uses a) (n : Nat) (s : State ν η) :
    RunAlike (Like fun v => .read v ∈ b.uses ∧ .read v ∉ (inlineOnce b).val.uses)
      (b.exec I.semantics n s) ((inlineOnce b).val.exec I.semantics n s) := by
  obtain ⟨-, -, D, hD, hspares, halike⟩ := (congruent_moves I b.uses).rewrite_of_applied
    (fun a ha => moves_inlineHere hI (hsafe a ha)) (fun _ => Nat.le_refl _) hb
  refine halike _ (fun v hv => ⟨(hD v hv).2, fun hread => hspares v hread hv⟩)
    (fun v hv h => h.2 hv) n (.refl s)

/-! ## A cast that is moved -/

/-- Values are numbers, and a cast to a class throws any number but zero. Other operations give
zero. -/
def strictCasts : Interpretation Int Unit :=
  { plainNumbers with
    operate := fun op vs =>
      match op, vs with
      | .cast t _, [v] => if t.isPrimitive || v = 0 then pure 0 else throw v
      | _, _ => pure 0 }

theorem steady_strictCasts : strictCasts.Steady := by
  refine ⟨fun _ _ => 0, fun op vs h hop => ?_⟩
  simp only [strictCasts]
  split
  · simp only [Expr.isPure, Bool.and_eq_true] at hop
    simp only [hop.1, Bool.true_or, if_true]
    rfl
  · rfl

/-- `s = (String) p; f(s, g());` -/
def castFirst : Block :=
  [.set ⟨1⟩ (.cast (.ref "java/lang/String") (.var ⟨0⟩)),
    .expr (.staticCall .static default [.var ⟨1⟩, .staticCall .static default []])]

/-- The cast is evaluated first, before and behind inlining. -/
theorem exec_inlineOnce_castFirst :
    castFirst.writesWhole = true ∧
      (inlineOnce castFirst).val =
        [.expr (.staticCall .static default
          [.cast (.ref "java/lang/String") (.var ⟨0⟩), .staticCall .static default []])] ∧
      ∃ t, (inlineOnce castFirst).val.exec strictCasts.semantics 1 ⟨fun _ => 7, (), []⟩ =
        some (.thrown 7, t) ∧
        t.effects = [(.cast (.ref "java/lang/String") .this, [7])] := by
  have hwhole : castFirst.writesWhole = true := by decide
  have hsafe : ∀ a ∈ castFirst.applied (inlineHere castFirst.uses),
    MovesSafely castFirst.uses a := by
    intro a ha
    rw [List.mem_singleton.1 (show a ∈ [castFirst] from ha), castFirst, MovesSafely]
    refine ⟨.inr ⟨_, rfl, .part rfl (List.nil_append _).symm nofun .var⟩, ?_⟩
    rw [MovesSafely]
    · trivial
    · rintro _ _ _ ⟨⟩
  have hrun : (castFirst.exec strictCasts.semantics 1 ⟨fun _ => 7, (), []⟩).map
    (fun r => (r.1, r.2.effects)) =
      some (.thrown 7, [(.cast (.ref "java/lang/String") .this, [7])]) := by
    rfl
  refine ⟨hwhole, by decide +kernel, ?_⟩
  rcases (exec_inlineOnce strictCasts steady_strictCasts hwhole hsafe 1
    ⟨fun _ => 7, (), []⟩).none_or_some with
    ⟨hs, _⟩ | ⟨y, s, t, hs, ht, hlike⟩
  · rw [hs] at hrun
    cases hrun
  · rw [hs] at hrun
    obtain ⟨rfl, heffects⟩ := Prod.mk.inj (Option.some.inj hrun)
    exact ⟨t, ht, hlike.effects.symm.trans heffects⟩

/-- `s = (String) p; f(g(), s);` -/
def castBehindCall : Block :=
  [.set ⟨1⟩ (.cast (.ref "java/lang/String") (.var ⟨0⟩)),
    .expr (.staticCall .static default [.staticCall .static default [], .var ⟨1⟩])]

/-- A cast that fails before `g` is called is moved behind the call, which is then made. -/
theorem inlineOnce_moves_cast_past_call :
    castBehindCall.writesWhole = true ∧
      (castBehindCall.exec strictCasts.semantics 1 ⟨fun _ => 7, (), []⟩).map
        (fun r => (r.1, r.2.effects)) =
        some (.thrown 7, [(.cast (.ref "java/lang/String") .this, [7])]) ∧
      ((inlineOnce castBehindCall).val.exec strictCasts.semantics 1 ⟨fun _ => 7, (), []⟩).map
          (fun r => (r.1, r.2.effects)) =
        some (.thrown 7, [(.staticCall .static default [], []),
          (.cast (.ref "java/lang/String") .this, [7])]) := by
  refine ⟨by decide, by rfl, by decide +kernel⟩

end Cleanup

end ByteLift
