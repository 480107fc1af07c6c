import ByteLift.Proofs.Lift.Merges
import ByteLift.Proofs.Semantics.Splits
import Mathlib.Data.List.Induction

/-!
# Storing entries of the stack, under an interpretation

Spilling entries and storing them in the temporaries of a label are assignments that split the
evaluation of the stack: running them and then evaluating what takes the places of the entries comes
to the same as evaluating the entries.
-/

namespace ByteLift

open Interpretation List

variable {ν η : Type} {I : Interpretation ν η} {env : Env} {m m' : Machine} {ds es es' : List Expr}
  {s t : State ν η}

/-! ## Running assignments -/

section

variable (hout : m'.out = m.out ++ ds.map .expr)
include hout

theorem Machine.passes_of_evalList {vs : List ν} (h : I.evalList ds s = .ok vs t) :
    m.Passes I.semantics m' s t := by
  refine ⟨_, hout, ?_⟩
  clear hout
  induction ds generalizing s vs with
  | nil =>
    simp only [evalList] at h
    obtain ⟨_, rfl⟩ := pure_eq_ok.1 h
    rfl
  | cons d ds ih =>
    simp only [evalList] at h
    obtain ⟨x, s₁, hx, h⟩ := bind_eq_ok.1 h
    obtain ⟨xs, _, hxs, h⟩ := bind_eq_ok.1 h
    obtain ⟨_, rfl⟩ := pure_eq_ok.1 h
    exact (Flat.straight_cons ((Stmt.act_of_some rfl rfl s).1 x s₁ hx)).trans (ih hxs)

theorem Machine.leaves_of_evalList {x : ν} (h : I.evalList ds s = .error x t) :
    m.Leaves I.semantics m' (.thrown x) s t := by
  induction ds generalizing s m with
  | nil =>
    simp only [evalList] at h
    cases h
  | cons d ds ih =>
    simp only [evalList, bind, EStateM.bind] at h
    cases hd : I.eval d s with
    | error y s₁ =>
      rw [hd] at h
      cases h
      exact .one hout ((Stmt.act_of_some rfl rfl s).2 x t hd)
    | ok y s₁ =>
      have hrest : I.evalList ds s₁ = .error x t := by
        rw [hd] at h
        cases hds : I.evalList ds s₁ with
        | ok ys s₂ =>
          simp only [hds] at h
          cases h
        | error z s₂ => simpa only [hds] using h
      have hfirst : m.Passes I.semantics { m with out := m.out ++ [.expr d] } s s₁ :=
        .one rfl ((Stmt.act_of_some rfl rfl s).1 y s₁ hd)
      exact hfirst.leaves (ih (by simpa using hout) hrest)

end

/-! ## Spilling -/

/-- The statements that were emitted are assignments to new variables, and split the evaluation of a
stack. -/
def KeepsEvaluation (I : Interpretation ν η) (m m' : Machine) (es es' : List Expr) : Prop :=
  ∃ ds, m'.out = m.out ++ ds.map .expr ∧
    I.Splits (fun x => m.vars.size ≤ x.index ∧ x.index < m'.vars.size) ds es.reverse es'.reverse

namespace KeepsEvaluation

variable {m'' : Machine} {e : Expr} (h : KeepsEvaluation I m m' es es')
include h

theorem keep (he : e.ReadsBelow m.vars.size) : KeepsEvaluation I m m' (e :: es) (e :: es') := by
  obtain ⟨ds, hout, hsplits⟩ := h
  refine ⟨ds, hout, ?_⟩
  rw [reverse_cons, reverse_cons]
  refine hsplits.append _ (forall_mem_singleton.2 fun x hx hnew => ?_)
  have hlt : x.index < m.vars.size := he.2 _ hx
  omega

theorem trans {es'' : List Expr} (h' : KeepsEvaluation I m' m'' es' es'')
    (hsize : m.vars.size ≤ m'.vars.size)
    (hsize' : m'.vars.size ≤ m''.vars.size) : KeepsEvaluation I m m'' es es'' := by
  obtain ⟨ds, hout, hsplits⟩ := h
  obtain ⟨ds', hout', hsplits'⟩ := h'
  refine ⟨ds ++ ds', by simp [hout', hout],
    (hsplits.mono fun x hx => ?_).trans (hsplits'.mono fun x hx => ?_)⟩
  · omega
  · omega

/-- An entry can be stored at once if it is quiet, or if all that stays below it is. -/
theorem store (hquiet : I.Quiet e ∨ ∀ d ∈ es', I.Quiet d) (he : e.ReadsBelow m.vars.size)
    (hes' : ∀ d ∈ es', d.ReadsBelow m'.vars.size) (hsize : m.vars.size ≤ m'.vars.size)
    (hsize' : m''.vars.size = m'.vars.size + 1) (hout : m''.out = m'.out ++ [.set m'.vars.next e]) :
    KeepsEvaluation I m m'' (e :: es) (.var m'.vars.next :: es') := by
  have hset : KeepsEvaluation I m' m'' (e :: es') (.var m'.vars.next :: es') := by
    refine ⟨[.assign (.var m'.vars.next) e], hout, ?_⟩
    rw [reverse_cons, reverse_cons]
    refine (splits_set (by simpa using hquiet) he.isWriteFree ?_ ?_).mono ?_
    · simpa using fun d hd => (hes' d hd).isWriteFree
    · intro d hd hread
      have hlt : m'.vars.next.index < m'.vars.size := (hes' d (mem_reverse.1 hd)).2 _ hread
      simp at hlt
    · rintro _ rfl
      simp only [VarTable.index_next]
      omega
  exact (h.keep he).trans hset hsize (by omega)

end KeepsEvaluation

namespace SpillsTo

variable {chosen : Nat → Expr → Bool} (h : SpillsTo env chosen m m' es es')
include h

theorem readsBelow (hes : ∀ e ∈ es, e.ReadsBelow m.vars.size) :
    ∀ e ∈ es', e.ReadsBelow m'.vars.size :=
  h.forall_mem (P := fun n e => e.ReadsBelow n) (fun _ _ _ hn he => he.mono hn)
    (fun _ _ => Expr.readsBelow_var.2) hes

/-- Spilling keeps the evaluation of a stack, if an entry that is stored is quiet or those that stay
below it are. A property `K` tells what stays. -/
theorem keepsEvaluation {K : Expr → Prop} (hvar : ∀ v, K (.var v))
    (hkept : ∀ slot, ∀ e ∈ es, chosen slot e = false → K e)
    (hquiet : ∀ (e : Expr) (ds : List Expr),
      (∀ d ∈ ds, K d) → e.isPure = true ∨ (∀ d ∈ ds, d.isPure = true) →
      I.Quiet e ∨ ∀ d ∈ ds, I.Quiet d) (hes : ∀ e ∈ es, e.ReadsBelow m.vars.size) :
    KeepsEvaluation I m m' es es' := by
  induction h with
  | nil => exact ⟨[], by simp, .refl _⟩
  | keep _ _ ih =>
    simp only [forall_mem_cons] at hes hkept
    exact (ih (fun slot => (hkept slot).2) hes.2).keep hes.1
  | store h _ hp hx ih =>
    simp only [forall_mem_cons] at hes hkept
    obtain ⟨rfl, _, _, hsize, _, hout⟩ := Lift.spill_eq_ok hx
    have hbelow := h.spilled.forall_mem (fun slot => (hkept slot).2) fun v _ => hvar v
    exact (ih (fun slot => (hkept slot).2) hes.2).store (hquiet _ _ hbelow hp) hes.1
      (h.readsBelow hes.2) h.size hsize
      hout
  | again h h' ih ih' =>
    have hbelow := h.spilled.forall_mem hkept fun v _ => hvar v
    exact (ih hkept hes).trans (ih' (fun _ d hd _ => hbelow d hd) (h.readsBelow hes)) h.size h'.size

end SpillsTo

/-! ## Storing entries in temporaries -/

namespace Lift

/-- The assignments that store entries in temporaries. -/
def sets (ps : List (Expr × Var)) : List Expr :=
  ps.filterMap fun p => if p.1 = .var p.2 then none else some (.assign (.var p.2) p.1)

theorem moves_eq_sets (es : List Expr) (temps : List Var) :
    moves es temps = (sets (es.zip temps)).map .expr := by
  rw [sets, map_filterMap, moves]
  congr 1
  funext p
  by_cases h : p.1 = .var p.2 <;> simp [h, Stmt.set]

/-- Entries that are stored one after another, each behind those whose temporaries it does not read,
have the values that they have if none is stored. -/
theorem splits_sets {ps : List (Expr × Var)} (hpair : ps.Pairwise StoredBehind)
    (hnodup : (ps.map Prod.snd).Nodup) (hfree : ∀ p ∈ ps, p.1.isWriteFree = true) :
    I.Splits (fun x => ∃ p ∈ ps, p.1 ≠ .var p.2 ∧ p.2 = x) (sets ps) (ps.map Prod.fst)
      (ps.map fun p => .var p.2) := by
  induction ps using List.reverseRecOn with
  | nil => exact .refl _
  | append_singleton ps p ih =>
    obtain ⟨e, t⟩ := p
    rw [pairwise_append] at hpair
    rw [map_append, nodup_append] at hnodup
    rw [forall_mem_append] at hfree
    have hbelow := (ih hpair.1 hnodup.1 hfree.1).append [e] <| by
      simp only [forall_mem_singleton]
      rintro x hx ⟨p, hp, hne, rfl⟩
      exact (hpair.2.2 p hp _ (mem_singleton_self _)).elim hne fun hread => hread hx
    have hmono : ∀ x, (∃ p ∈ ps, p.1 ≠ .var p.2 ∧ p.2 = x) → ∃ p ∈ ps ++ [(e, t)],
      p.1 ≠ .var p.2 ∧ p.2 = x := by
      rintro x ⟨p, hp, h⟩
      exact ⟨p, mem_append_left _ hp, h⟩
    simp only [map_append, map_singleton]
    by_cases hown : e = .var t
    · subst hown
      rw [show sets (ps ++ [(.var t, t)]) = sets ps by simp [sets]]
      exact hbelow.mono hmono
    · rw [show sets (ps ++ [(e, t)]) = sets ps ++ [.assign (.var t) e] by simp [sets, hown]]
      refine (hbelow.mono hmono).trans
        ((splits_set (.inr (forall_mem_map.2 fun p _ => quiet_var p.2))
        (hfree.2 (e, t) (by simp)) (forall_mem_map.2 fun p _ => rfl)
        (forall_mem_map.2 fun p hp => ?_)).mono ?_)
      · have hne := hnodup.2.2 p.2 (mem_map_of_mem hp) t (by simp)
        simpa [Expr.uses, Expr.usesAs] using hne.symm
      · exact fun x hx => ⟨(e, t), by simp, hown, hx.symm⟩

/-- Once those that conflict are spilled, all entries can be stored. -/
theorem splits_moves {n : Nat} {temps : List Var}
    (h : Spilled (conflicts es.reverse temps) n es es')
    (hlen : temps.length = es.length) (hnodup : temps.Nodup) (hold : ∀ t ∈ temps, t.index < n)
    (hfree : ∀ e ∈ es', e.isWriteFree = true) :
    I.Splits (· ∈ temps) (sets (es'.reverse.zip temps)) es'.reverse (temps.map .var) := by
  have hlen' : temps.length = es'.reverse.length := by rw [length_reverse, h.length, hlen]
  have hfst : (es'.reverse.zip temps).map Prod.fst = es'.reverse := map_fst_zip (by omega)
  have hsnd : (es'.reverse.zip temps).map Prod.snd = temps := map_snd_zip (by omega)
  have hsplits :=
    splits_sets (I := I) (pairwise_storedBehind h hnodup hold) (hsnd.symm ▸ hnodup) fun p hp =>
    hfree p.1 (mem_reverse.1 (of_mem_zip hp).1)
  rw [hfst, show (fun p : Expr × Var => Expr.var p.2) = Expr.var ∘ Prod.snd from rfl,
    ← map_map, hsnd] at hsplits
  refine hsplits.mono ?_
  rintro x ⟨p, hp, _, rfl⟩
  exact (of_mem_zip hp).2

end Lift

end ByteLift
