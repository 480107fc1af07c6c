import ByteLift.Proofs.Semantics.Replacement
import ByteLift.Proofs.Semantics.Unseen

/-!
# Moving a value to where it is used

A variable is assigned a value and then read once, in an expression. The value can be evaluated at
the place where the variable is read instead, if nobody can tell the order: either the value is
pure, or nothing that may fail or have an effect comes before the variable.
-/

namespace ByteLift

open Expr List

/-- The evaluation of the expression comes to the variable for sure, and before it comes to anything
that may fail or have an effect. -/
inductive Expr.Leads (v : Var) : Expr → Prop
  | var : Leads v (.var v)
  | condAnd {a b : Expr} {t : Ty} : Leads v a → Leads v (.binary .condAnd a b t)
  | condOr {a b : Expr} {t : Ty} : Leads v a → Leads v (.binary .condOr a b t)
  | part {e d : Expr} {before behind : List Expr} :
  e.isStrict = true → e.parts = before ++ d :: behind →
      (∀ c ∈ before, c.isPure = true) → Leads v d → Leads v e

variable {v : Var} {e d : Expr}

theorem Expr.Leads.read_mem (h : e.Leads v) : .read v ∈ e.uses := by
  induction h with
  | var => simp [uses, usesAs]
  | condAnd _ ih | condOr _ ih => exact mem_append_left _ ih
  | part _ hparts _ _ ih =>
    exact uses_parts_subset (hparts ▸ mem_append_right _ mem_cons_self) ih

/-- Putting a value in place of a variable that is not read changes nothing. -/
theorem Expr.val_replaceReads_only {value : Expr} (hd : .read v ∉ d.uses) :
    (d.replaceReads (only v value)).val = d := by
  rw [replaceReads_eq_pure fun u hu => ?_]
  · rfl
  · have huv : u ≠ v := fun huv => hd (huv ▸ hu)
    simp [only, huv]

/-- A variable that is read at most once, in one part of an expression, is not read in the
others. -/
theorem Expr.read_in_one_part {before later : List Expr} (hstrict : e.isStrict = true)
    (hparts : e.parts = before ++ d :: later) (hcount : e.uses.count (.read v) ≤ 1)
    (hd : .read v ∈ d.uses) :
    (∀ c ∈ before, .read v ∉ c.uses) ∧ d.uses.count (.read v) ≤ 1 ∧ ∀ c ∈ later,
      .read v ∉ c.uses := by
  have hread := one_le_count_iff.2 hd
  rw [uses_eq_parts (ne_var_of_isStrict hstrict), hparts] at hcount
  simp only [flatMap_append, flatMap_cons, count_append] at hcount
  have hzero {cs : List Expr} (h : (cs.flatMap uses).count (.read v) = 0) :
    ∀ c ∈ cs, .read v ∉ c.uses :=
    fun c hc hv => count_eq_zero.1 h (mem_flatMap.2 ⟨c, hc, hv⟩)
  exact ⟨hzero (by omega), by omega, hzero (by omega)⟩

namespace Interpretation

open State

variable {ν η α β : Type} {I : Interpretation ν η} {E : Var → Prop} {value : Expr}

/-! ## A computation behind an assignment -/

variable (I v value) in
/-- A computation behind the assignment of a value. -/
def behind (k : EStateM ν (State ν η) α) : EStateM ν (State ν η) α := do
  let x ← I.eval value
  modify (·.put v x)
  k

variable {k : EStateM ν (State ν η) α} {s t : State ν η} {x : ν} {before : List Expr}

theorem behind_of_ok (h : I.eval value s = .ok x t) : I.behind v value k s = k (t.put v x) := by
  rw [behind, bind_of_ok h]
  rfl

theorem behind_of_error (h : I.eval value s = .error x t) : I.behind v value k s = .error x t := by
  simp only [behind, bind, EStateM.bind, h]

theorem behind_bind (k : EStateM ν (State ν η) α) (f : α → EStateM ν (State ν η) β) :
    I.behind v value (k >>= f) = I.behind v value k >>= f := by
  simp [behind]

/-- Putting a pure value in place of a variable that holds it changes nothing, as long as the
variable and those that the value reads are left alone. -/
theorem alike_replaceReads_pure (hI : I.Steady) (hpure : value.isPure = true) {s' : State ν η}
    (hx : I.eval value s = .ok x s') (hothers : ∀ u, .read u ∈ e.uses → u ≠ v → ¬ E u)
    (hwrites : ∀ u, .write u ∈ e.uses → u ≠ v ∧ .read u ∉ value.uses) :
    Alike (fun p q => Like E p q ∧ p.vars v = x ∧ ∀ u,
      .read u ∈ value.uses → q.vars u = s.vars u) (I.eval e)
      (I.eval (e.replaceReads (Expr.only v value)).val) := by
  refine alike_eval_replaceReads (Q := fun d => d.uses ⊆ e.uses) ?_ ?_ ?_ (List.Subset.refl _)
  · exact fun d c hd hc u hu => hd (uses_parts_subset hc hu)
  · rintro u hu p q ⟨hpq, hpv, hq⟩
    by_cases huv : u = v
    · -- The value comes to what the variable holds.
      subst huv
      obtain ⟨y, _, q', hy, hqy, _, hq'⟩ :=
        hI.eval_eq (E := fun _ => False) hpure fun w hw => (hq w hw).symm
      cases hx.symm.trans hy
      rw [show (Expr.only u value u).getD (.var u) = value by simp [Expr.only], eval_var, hpv, hqy]
      exact .ok x ⟨hpq.trans (hq'.mono fun _ => False.elim), hpv,
        fun w hw => (hq'.vars w id).symm.trans (hq w hw)⟩
    · rw [show (Expr.only v value u).getD (.var u) = .var u by simp [Expr.only, huv],
        eval_var, eval_var, hpq.vars u (hothers u (hu (by simp [Expr.uses, usesAs])) huv)]
      exact .ok _ ⟨hpq, hpv, hq⟩
  · rintro d hstrict hd vs
    refine alike_finish (fun op ws p q h => ?_) fun w hw y p q h => ?_
    all_goals obtain ⟨hpq, hpv, hq⟩ := h
    · have hpvars := (SameAt.perform I op ws p rfl).2
      have hqvars := (SameAt.perform I op ws q rfl).2
      rcases (like_perform (I := I) op ws hpq).ok_or_error with
        ⟨a, p', q', hp, hq', h⟩ | ⟨a, p', q', hp, hq', h⟩
      all_goals
        rw [hp] at hpvars ⊢
        rw [hq'] at hqvars ⊢
        have hkept : p'.vars v = x ∧ ∀ u, .read u ∈ value.uses → q'.vars u = s.vars u :=
          ⟨(congrFun hpvars v).trans hpv, fun u hu => (congrFun hqvars u).trans (hq u hu)⟩
      · exact .ok a ⟨h, hkept⟩
      · exact .error a ⟨h, hkept⟩
    · obtain ⟨hwv, hwvalue⟩ := hwrites w (hd (by
        rw [uses_eq_parts (ne_var_of_isStrict hstrict), hw]
        simp))
      refine ⟨hpq.put w y, (put_of_ne y (Ne.symm hwv)).trans hpv,
        fun u hu => (put_of_ne y ?_).trans (hq u hu)⟩
      rintro rfl
      exact hwvalue hu

/-- A pure value may be moved to any place where the variable and those that the value reads are as
before. -/
theorem alike_behind_pure (hI : I.Steady) (hpure : value.isPure = true) (hv : E v)
    (hvalue : ∀ u, .read u ∈ value.uses → ¬ E u) (hothers : ∀ u, .read u ∈ e.uses → u ≠ v → ¬ E u)
    (hwrites : ∀ u, .write u ∈ e.uses → u ≠ v ∧ .read u ∉ value.uses) :
    Alike (Like E) (I.behind v value (I.eval e))
      (I.eval (e.replaceReads (Expr.only v value)).val) := by
  intro s t hst
  obtain ⟨x, s', hx, hs'⟩ := hI.calm.eval (E := E) hpure s
  rw [behind_of_ok hx]
  refine (alike_replaceReads_pure hI hpure hx hothers hwrites
    ⟨?_, put_self s' v x, fun u hu => ?_⟩).mono
    fun _ _ h => h.1
  · exact (hs'.symm.trans hst).put_left hv x
  · exact (hst.vars u (hvalue u hu)).symm

/-! ## Values that may fail -/

/-- A variable that is read in one place is not read in another. -/
theorem count_split {us vs : List Use} {u : Use} (h : (us ++ vs).count u ≤ 1) (hu : u ∈ us) :
    us.count u ≤ 1 ∧ u ∉ vs := by
  rw [count_append] at h
  have := one_le_count_iff.2 hu
  exact ⟨by omega, count_eq_zero.1 (by omega)⟩

/-- A strict expression, with one of its parts told apart. -/
theorem eval_eq_of_parts {later : List Expr} (hstrict : e.isStrict = true)
    (hparts : e.parts = before ++ d :: later) : I.eval e = (do
      let vs ← I.evalList before
      let w ← I.eval d
      let ws ← I.evalList later
      I.finish e (vs ++ w :: ws)) := by
  rw [I.eval_eq_finish hstrict, hparts, evalList_append]
  simp [evalList]

/-- What is pure may be evaluated before the assignment or behind it. -/
theorem alike_behind_evalList (hI : I.Steady) (hfree : value.isWriteFree = true)
    (hpure : ∀ d ∈ before, d.isPure = true)
    (hbefore : ∀ d ∈ before, ∀ u, .read u ∈ d.uses → u ≠ v ∧ ¬ E u)
    {k k' : List ν → EStateM ν (State ν η) α}
    (hk : ∀ vs, Alike (Like E) (I.behind v value (k vs)) (k' vs))
    (hself : ∀ vs, Alike (Like fun _ => False) (k vs) (k vs)) :
    Alike (Like E) (I.behind v value (I.evalList before >>= k)) (I.evalList before >>= k') := by
  intro s t hst
  have hquiet : ∀ d ∈ before, I.Quiet d := fun d hd => hI.quiet (hpure d hd)
  cases hx : I.eval value s with
  | ok x s' =>
    have hvars : s'.vars = s.vars := vars_of_eval hfree hx
    obtain ⟨vs, s₁, t₁, hs₁, ht₁, hlike, hlike'⟩ :=
      evalList_eq_of_quiet hquiet (s := s'.put v x) (t := t) fun d hd u hu => by
      obtain ⟨huv, hu⟩ := hbefore d hd u hu
      rw [put_of_ne x huv, hvars, hst.vars u hu]
    have hmoved := hk vs (hst.trans (hlike'.mono fun _ => False.elim))
    rw [behind_of_ok hx] at hmoved ⊢
    rw [bind_of_ok hs₁, bind_of_ok ht₁]
    exact (hself vs hlike.symm).trans
      (fun _ _ _ h h' => (h.mono fun _ => False.elim).trans h') hmoved
  | error x s' =>
    obtain ⟨vs, _, t₁, _, ht₁, _, hlike'⟩ :=
      evalList_eq_of_quiet hquiet (s := s) (t := t) fun d hd u hu =>
      hst.vars u (hbefore d hd u hu).2
    have hmoved := hk vs (hst.trans (hlike'.mono fun _ => False.elim))
    rw [behind_of_error hx] at hmoved ⊢
    rwa [bind_of_ok ht₁]

/-- What comes first may be evaluated before the assignment or behind it. -/
theorem alike_behind_leads (hI : I.Steady) (hfree : value.isWriteFree = true) (hv : E v)
    (hvalue : ∀ u, .read u ∈ value.uses → ¬ E u) (h : e.Leads v)
    (hcount : e.uses.count (.read v) ≤ 1) (hothers : ∀ u, .read u ∈ e.uses → u ≠ v → ¬ E u) :
    Alike (Like E) (I.behind v value (I.eval e))
      (I.eval (e.replaceReads (Expr.only v value)).val) := by
  induction h with
  | var =>
    intro s t hst
    have hreplaced : ((Expr.var v).replaceReads (Expr.only v value)).val = value := by
      simp [replaceReads, replaceAs, Expr.only]
    rw [hreplaced]
    rcases (like_eval (I := I) hvalue hst).ok_or_error with
      ⟨x, s', t', hs, ht, hst'⟩ | ⟨x, s', t', hs, ht, hst'⟩
    · rw [behind_of_ok hs, ht, eval_var, put_self]
      exact .ok x (hst'.put_left hv x)
    · rw [behind_of_error hs, ht]
      exact .error x hst'
  | @condAnd a b ty ha ih | @condOr a b ty ha ih =>
    obtain ⟨hcount, hb⟩ := count_split hcount ha.read_mem
    have hself := like_eval (I := I) (e := b) fun u hu =>
      hothers u (mem_append_right _ hu) fun huv => hb (huv ▸ hu)
    simp only [replaceReads, replaceAs, Tracked.val_bind, Tracked.val_pure]
    rw [I.eval_lazy (c := a) (d := b) (u := ty) rfl,
      I.eval_lazy (c := a) (d := b) (u := ty) rfl, behind_bind,
      show (b.replaceAs (Expr.only v value) false).val = b from val_replaceReads_only hb]
    exact (ih hcount fun u hu => hothers u (mem_append_left _ hu)).bind fun _ =>
      .ite (hself.map _) (.pure _)
  | @part e d before later hstrict hparts hpure hd ih =>
    have hdparts : d ∈ e.parts := hparts ▸ mem_append_right _ mem_cons_self
    obtain ⟨hbefore, hcount, hlater⟩ := read_in_one_part hstrict hparts hcount hd.read_mem
    have hsameList {cs : List Expr} (hcs : ∀ c ∈ cs, .read v ∉ c.uses) :
        cs.map (fun c => (c.replaceReads (Expr.only v value)).val) = cs := by
      rw [map_congr_left fun c hc => val_replaceReads_only (hcs c hc), map_id']
    have hothers' {c : Expr} (hc : c ∈ e.parts) (hv : .read v ∉ c.uses) (u : Var)
      (hu : .read u ∈ c.uses) :
        u ≠ v ∧ ¬ E u := by
      have huv : u ≠ v := fun huv => hv (huv ▸ hu)
      exact ⟨huv, hothers u (uses_parts_subset hc hu) huv⟩
    have hparts' : (e.replaceReads (Expr.only v value)).val.parts =
        before ++ (d.replaceReads (Expr.only v value)).val :: later := by
      rw [parts_replaceReads _ hstrict, hparts, map_append, map_cons, hsameList hbefore,
        hsameList hlater]
    rw [eval_eq_of_parts hstrict hparts, eval_eq_of_parts (isStrict_replaceReads _ hstrict) hparts',
      I.finish_replaceReads _ hstrict]
    -- Behind the part, nothing reads the variable.
    have hrest {D : Var → Prop} (hD : ∀ u, D u → E u) (vs : List ν) (w : ν) : Alike (Like D)
        (do let ws ← I.evalList later; I.finish e (vs ++ w :: ws))
        (do let ws ← I.evalList later; I.finish e (vs ++ w :: ws)) := by
      refine (like_evalList fun c hc u hu hDu => ?_).bind fun ws =>
        alike_finish like_perform fun u _ x _ _ h => h.put u x
      exact (hothers' (hparts ▸ mem_append_right _ (mem_cons_of_mem d hc)) (hlater c hc) u
        hu).2 (hD u hDu)
    refine alike_behind_evalList hI hfree hpure
      (fun c hc => hothers' (hparts ▸ mem_append_left _ hc) (hbefore c hc))
      (fun vs => ?_) fun vs => ?_
    · rw [behind_bind]
      exact (ih hcount fun u hu => hothers u (uses_parts_subset hdparts hu)).bind
        (hrest (fun _ => id) vs)
    · exact (like_eval fun _ _ => id).bind (hrest (fun _ => False.elim) vs)

end Interpretation

end ByteLift
