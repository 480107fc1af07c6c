import ByteLift.Proofs.Semantics.Alike

/-!
# What a run cannot tell apart

States that differ only in variables that a block does not read, and in operations without effect,
are alike to it. An interpretation is *calm* if operations of pure expressions never fail and leave
the heap alone, and *steady* if moreover they come to the same whatever the heap is.
-/

namespace ByteLift

open Expr

variable {E : Var → Prop} {ν η : Type}

namespace State

/-- The operations done so far that may fail or have an effect, in order. -/
def effects (s : State ν η) : List (Expr × List ν) := s.done.filter fun d => !d.1.isPure

/-- The states differ only in some variables and in the pure operations that were done. -/
structure Like (E : Var → Prop) (s t : State ν η) : Prop where
  vars : ∀ v, ¬ E v → s.vars v = t.vars v
  heap : s.heap = t.heap
  effects : s.effects = t.effects

namespace Like

variable {D : Var → Prop} {s t u : State ν η}

theorem refl (s : State ν η) : Like E s s := ⟨fun _ _ => rfl, rfl, rfl⟩

theorem symm (h : Like E s t) : Like E t s :=
  ⟨fun v hv => (h.vars v hv).symm, h.heap.symm, h.effects.symm⟩

theorem trans (h : Like E s t) (h' : Like E t u) : Like E s u :=
  ⟨fun v hv => (h.vars v hv).trans (h'.vars v hv), h.heap.trans h'.heap, h.effects.trans h'.effects⟩

theorem mono (hD : ∀ v, D v → E v) (h : Like D s t) : Like E s t :=
  ⟨fun v hv => h.vars v (mt (hD v) hv), h.heap, h.effects⟩

theorem put (h : Like E s t) (v : Var) (x : ν) : Like E (s.put v x) (t.put v x) := by
  refine ⟨fun w hw => ?_, h.heap, h.effects⟩
  by_cases hwv : w = v
  · simp [hwv]
  · rw [put_of_ne x hwv, put_of_ne x hwv, h.vars w hw]

/-- A variable that does not matter can be assigned in one of the states. -/
theorem put_left (h : Like E s t) {v : Var} (hv : E v) (x : ν) : Like E (s.put v x) t := by
  refine ⟨fun w hw => ?_, h.heap, h.effects⟩
  have hne : w ≠ v := by
    rintro rfl
    exact hw hv
  rw [put_of_ne x hne, h.vars w hw]

end Like

end State

open State

namespace Interpretation

variable {I : Interpretation ν η} {e : Expr}

/-! ## Expressions -/

theorem like_perform (op : Expr) (vs : List ν) :
    Alike (Like E) (I.perform op vs) (I.perform op vs) := by
  intro s t h
  unfold perform
  rw [h.heap]
  have heffects (k : η) :
      Like E { s with heap := k, done := s.done ++ [(op, vs)] }
      { t with heap := k, done := t.done ++ [(op, vs)] } := by
    refine ⟨h.vars, rfl, ?_⟩
    have := h.effects
    simp only [effects, List.filter_append] at this ⊢
    rw [this]
  split
  · exact .ok _ (heffects _)
  · exact .error _ (heffects _)

/-- An expression comes to the same from states that differ in variables it does not read. -/
theorem like_eval (he : ∀ v, .read v ∈ e.uses → ¬ E v) : Alike (Like E) (I.eval e) (I.eval e) := by
  refine alike_eval_self (Q := fun d => ∀ v, .read v ∈ d.uses → ¬ E v) ?_ ?_ ?_ he
  · exact fun d c hd hc v hv => hd v (uses_parts_subset hc hv)
  · exact fun v hv s t hst => hst.vars v (hv v (by simp [Expr.uses, usesAs]))
  · exact fun d _ _ vs => alike_finish like_perform fun v _ x s t hst => hst.put v x

theorem like_evalList {es : List Expr} (hes : ∀ e ∈ es, ∀ v, .read v ∈ e.uses → ¬ E v) :
    Alike (Like E) (I.evalList es) (I.evalList es) := by
  have hself : Alike (Like E) (I.evalList es) (I.evalList (es.map id)) :=
    alike_evalList fun e he => like_eval (hes e he)
  rwa [List.map_id] at hself

/-! ## Pure expressions -/

variable (I) in
/-- Operations of pure expressions never fail and leave the heap as it is. -/
def Calm : Prop := ∀ op vs h, op.isPure = true → ∃ v, I.operate op vs h = .ok v h

variable (I) in
/-- Operations of pure expressions never fail, leave the heap as it is, and do not depend on it. -/
def Steady : Prop :=
  ∃ value : Expr → List ν → ν, ∀ op vs h, op.isPure = true → I.operate op vs h = .ok (value op vs) h

theorem Steady.calm (hI : I.Steady) : I.Calm := by
  obtain ⟨value, hvalue⟩ := hI
  exact fun op vs h hop => ⟨_, hvalue op vs h hop⟩

/-- Nothing of a state is changed by a pure operation but the list of the operations done. -/
theorem Calm.perform (hI : I.Calm) {op : Expr} (hop : op.isPure = true) (vs : List ν)
    (s : State ν η) : ∃ x t, I.perform op vs s = .ok x t ∧ Like E s t := by
  obtain ⟨x, hx⟩ := hI op vs s.heap hop
  refine ⟨x, { s with done := s.done ++ [(op, vs)] }, by rw [Interpretation.perform, hx],
    fun _ _ => rfl, rfl, ?_⟩
  simp [effects, hop]

theorem Calm.finish (hI : I.Calm) (he : e.isPure = true) (vs : List ν) (s : State ν η) :
    ∃ x t, I.finish e vs s = .ok x t ∧ Like E s t := by
  unfold Interpretation.finish
  split
  case h_5 | h_6 => cases he
  case h_7 => exact hI.perform (isPure_head he) _ s
  all_goals exact ⟨_, s, rfl, .refl s⟩

/-- A pure expression has a value, and evaluating it changes nothing. -/
theorem Calm.eval (hI : I.Calm) (he : e.isPure = true) (s : State ν η) :
    ∃ x t, I.eval e s = .ok x t ∧ Like E s t := by
  induction e using partsInduction generalizing s with
  | var v => exact ⟨s.vars v, s, eval_var v s, .refl s⟩
  | lazy op a b ty hop iha ihb =>
    simp only [isPure, Bool.and_eq_true] at he
    obtain ⟨x, t, hx, ht⟩ := iha he.1.2 s
    rw [I.eval_lazy hop, bind_of_ok hx]
    split
    · obtain ⟨y, u, hy, hu⟩ := ihb he.2 t
      rw [map_eq_pure_bind, bind_of_ok hy]
      exact ⟨_, u, rfl, ht.trans hu⟩
    · exact ⟨_, t, rfl, ht⟩
  | strict e hstrict ih =>
    have hlist (ds : List Expr) (hds : ∀ d ∈ ds, d ∈ e.parts) (s : State ν η) :
        ∃ xs t, I.evalList ds s = .ok xs t ∧ Like E s t := by
      induction ds generalizing s with
      | nil => exact ⟨[], s, rfl, .refl s⟩
      | cons d ds ihs =>
        rw [List.forall_mem_cons] at hds
        obtain ⟨x, t, hx, ht⟩ := ih d hds.1 (isPure_of_mem_parts he hds.1) s
        obtain ⟨xs, u, hxs, hu⟩ := ihs hds.2 t
        exact ⟨x :: xs, u, evalList_cons hx hxs, ht.trans hu⟩
    obtain ⟨xs, t, hxs, ht⟩ := hlist e.parts (fun _ => id) s
    obtain ⟨x, u, hx, hu⟩ := hI.finish he xs t
    rw [I.eval_eq_finish hstrict, bind_of_ok hxs, hx]
    exact ⟨x, u, rfl, ht.trans hu⟩

variable {s t : State ν η}

/-- Where the variables it reads have the same values, a pure expression has the same value,
whatever the heap is. -/
theorem Steady.eval_eq (hI : I.Steady) (he : e.isPure = true)
    (hvars : ∀ v, .read v ∈ e.uses → s.vars v = t.vars v) :
    ∃ x s' t', I.eval e s = .ok x s' ∧ I.eval e t = .ok x t' ∧ Like E s s' ∧ Like E t t' := by
  obtain ⟨value, hvalue⟩ := id hI
  have hsame :=
    alike_eval_self (I := I) (R := fun s t => ∀ v, .read v ∈ e.uses → s.vars v = t.vars v)
    (Q := fun d => d.isPure = true ∧ d.uses ⊆ e.uses) ?_ ?_ ?_ ⟨he, List.Subset.refl _⟩ hvars
  · obtain ⟨x, s', hx, hs'⟩ := hI.calm.eval (E := E) he s
    obtain ⟨y, t', hy, ht'⟩ := hI.calm.eval (E := E) he t
    rcases hsame.ok_or_error with ⟨z, _, _, hz, hz', _⟩ | ⟨z, _, _, hz, hz', _⟩
    · cases hx.symm.trans hz
      cases hy.symm.trans hz'
      exact ⟨x, _, _, hx, hy, hs', ht'⟩
    · cases hx.symm.trans hz
  · exact fun d c hd hc => ⟨isPure_of_mem_parts hd.1 hc, fun u hu => hd.2 (uses_parts_subset hc hu)⟩
  · exact fun v hv s t hst => hst v (hv.2 (by simp [Expr.uses, usesAs]))
  · intro d _ hd vs
    unfold Interpretation.finish
    split
    case h_5 | h_6 => cases hd.1
    case h_7 =>
      intro s t hst
      simp only [Interpretation.perform, hvalue _ _ _ (isPure_head hd.1)]
      exact .ok _ hst
    all_goals exact .pure _

variable (I) in
/-- The expression comes to the same wherever the variables it reads have the same values, and
nobody can tell whether it is evaluated. -/
def Quiet (e : Expr) : Prop := ∀ s t : State ν η, (∀ v, .read v ∈ e.uses → s.vars v = t.vars v) →
  ∃ x s' t', I.eval e s = .ok x s' ∧ I.eval e t = .ok x t' ∧ Like (fun _ => False) s s' ∧
  Like (fun _ => False) t t'

theorem Steady.quiet (hI : I.Steady) (he : e.isPure = true) : I.Quiet e := fun _ _ => hI.eval_eq he

theorem quiet_var (v : Var) : I.Quiet (.var v) := by
  intro s t h
  refine ⟨s.vars v, s, t, eval_var v s, ?_, .refl s, .refl t⟩
  rw [eval_var, h v (by simp [Expr.uses, usesAs])]

theorem evalList_eq_of_quiet {ds : List Expr} (hds : ∀ d ∈ ds, I.Quiet d)
    (hvars : ∀ d ∈ ds, ∀ v, .read v ∈ d.uses → s.vars v = t.vars v) :
    ∃ xs s' t', I.evalList ds s = .ok xs s' ∧ I.evalList ds t = .ok xs t' ∧
      Like (fun _ => False) s s' ∧ Like (fun _ => False) t t' := by
  induction ds generalizing s t with
  | nil => exact ⟨[], s, t, rfl, rfl, .refl s, .refl t⟩
  | cons d ds ih =>
    rw [List.forall_mem_cons] at hds hvars
    obtain ⟨x, s', t', hs, ht, hs', ht'⟩ := hds.1 s t hvars.1
    obtain ⟨xs, s'', t'', hss, hts, hs'', ht''⟩ := ih hds.2 (s := s') (t := t') fun e he v hv => by
      rw [← hs'.vars v id, ← ht'.vars v id]
      exact hvars.2 e he v hv
    exact ⟨x :: xs, s'', t'', evalList_cons hs hss, evalList_cons ht hts, hs'.trans hs'',
      ht'.trans ht''⟩

end Interpretation

/-! ## Blocks -/

variable {I : Interpretation ν η}

theorem Stmt.like_evaluated {x : Stmt} (hx : ∀ v, .read v ∈ x.ownUses → ¬ E v) {e : Expr}
    (he : x.evaluated? = some e) :
    ByteLift.Alike (Like E) (I.semantics.eval e) (I.semantics.eval e) := by
  rw [x.ownUses_eq, he] at hx
  exact Interpretation.like_eval hx

namespace Block

/-- The block reads none of some variables. -/
def Spares (E : Var → Prop) (b : Block) : Prop := ∀ v, .read v ∈ b.uses → ¬ E v

/-- A block ends in the same way from states that differ in variables it does not read. -/
theorem like_self {b : Block} (hb : b.Spares E) : b.Alike I.semantics (Like E) b :=
  .refl_of_evaluated fun x hx _ he => x.like_evaluated
    (fun v hv => hb v (List.mem_flatMap.2 ⟨x, hx, hv⟩)) he

variable {x : Stmt} {xs a b : Block} {c : Expr} {l : Option Label}

theorem spares_iff_count : b.Spares E ↔ ∀ v, E v → b.uses.count (.read v) = 0 :=
  ⟨fun h v hv => List.count_eq_zero.2 fun hread => h v hread hv,
    fun h v hread hv => List.count_eq_zero.1 (h v hv) hread⟩

theorem spares_cons :
    Spares E (x :: xs) ↔ (∀ v, .read v ∈ x.ownUses → ¬ E v) ∧ (∀ a ∈ x.blocks, Spares E a) ∧
    xs.Spares E := by
  simp only [Spares, uses_cons, List.mem_append, List.mem_flatMap]
  grind

theorem spares_ite : Spares E (.ite c a b :: xs) ↔
    (∀ v, .read v ∈ c.uses → ¬ E v) ∧ a.Spares E ∧ b.Spares E ∧ xs.Spares E := by
  simp only [Spares, uses_ite, List.mem_append]
  grind

theorem spares_loop :
    Spares E (.loop l c a :: xs) ↔ (∀ v, .read v ∈ c.uses → ¬ E v) ∧ a.Spares E ∧ xs.Spares E := by
  simp only [Spares, uses_loop, List.mem_append]
  grind

theorem spares_block : Spares E (.block a :: xs) ↔ a.Spares E ∧ xs.Spares E := by
  simp only [Spares, uses_block, List.mem_append]
  grind

/-! Blocks are alike if they differ in parts that are, and the rest reads none of the variables. -/

variable {K : Block → Block}

theorem Hole.spares (hK : Hole K) : ∃ p : Prop, ∀ b, Spares E (K b) ↔ p ∧ b.Spares E := by
  obtain ⟨us, vs, h⟩ := hK.uses
  refine ⟨∀ v, .read v ∈ us ++ vs → ¬ E v, fun b => ?_⟩
  simp only [Spares, h, List.mem_append]
  grind

theorem like_hole (hK : Hole K) (h : Spares E (K b)) (hab : a.Alike I.semantics (Like E) b) :
    Block.Alike I.semantics (Like E) (K a) (K b) := by
  cases hK with
  | tail x =>
    obtain ⟨hx, hblocks, _⟩ := spares_cons.1 h
    exact .cons (.refl_of_evaluated (fun _ he => x.like_evaluated hx he) fun a ha =>
      like_self (hblocks a ha)) hab
  | thenArm c d ss =>
    obtain ⟨hc, _, hd, hss⟩ := spares_ite.1 h
    exact .cons (.ite (Interpretation.like_eval hc) hab (like_self hd)) (like_self hss)
  | elseArm c d ss =>
    obtain ⟨hc, hd, _, hss⟩ := spares_ite.1 h
    exact .cons (.ite (Interpretation.like_eval hc) (like_self hd) hab) (like_self hss)
  | body l c ss =>
    obtain ⟨hc, _, hss⟩ := spares_loop.1 h
    exact .cons (.loop (Interpretation.like_eval hc) hab) (like_self hss)
  | inner ss => exact .cons (.block hab) (like_self (spares_block.1 h).2)

end Block

end ByteLift
