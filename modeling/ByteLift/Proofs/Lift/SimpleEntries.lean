import ByteLift.Proofs.Lift.Stored
import ByteLift.Proofs.Semantics.Simple

/-!
# Storing simple entries

Literals, variables and `this` are the simple entries of a stack. Spilling all others, from the
bottom up, gives each the value it would have had in its turn. Simple entries stored in the
temporaries of a label give these their values, and keep their own unless they are such a temporary.
-/

namespace ByteLift

open Lift

/-! ## What emitted statements do -/

theorem Flat.straight_of_ne {σ ν : Type} {S : Semantics σ ν} {y : Stmt} {ss : Block}
    {x : Exit ν} {s t : σ}
    (hact : y.act S s = (x, t)) (hx : x ≠ .normal) : Flat.straight S (y :: ss) s = none := by
  rw [Flat.straight, hact]
  cases x <;> first | rfl | exact absurd rfl hx

section

variable {σ ν : Type} {S : Semantics σ ν} {m m' : Machine} {x : Exit ν} {s : σ}

/-- Control leaves the emitted statements in one way only. -/
theorem Machine.Leaves.unique {x' : Exit ν} {t t' : σ}
    (h : m.Leaves S m' x s t) (h' : m.Leaves S m' x' s t') (hx : x ≠ .normal)
    (hx' : x' ≠ .normal) : x = x' := by
  obtain ⟨ss, y, rest, s₁, hout, hss, hact⟩ := h
  obtain ⟨ss', y', rest', s₁', hout', hss', hact'⟩ := h'
  have heq := List.append_cancel_left (hout.symm.trans hout')
  clear hout hout'
  induction ss generalizing ss' s with
  | nil =>
    cases hss
    cases ss' with
    | nil =>
      cases hss'
      cases heq
      rw [hact] at hact'
      exact congrArg Prod.fst hact'
    | cons z ss' =>
      cases heq
      rw [Flat.straight_of_ne hact hx] at hss'
      cases hss'
  | cons z ss ih =>
    cases ss' with
    | nil =>
      cases hss'
      cases heq
      rw [Flat.straight_of_ne hact' hx'] at hss
      cases hss
    | cons z' ss' =>
      rw [List.cons_append, List.cons_append] at heq
      obtain ⟨rfl, htail⟩ := List.cons.inj heq
      rw [Flat.straight] at hss hss'
      cases hz : z.act S s with
      | mk e u =>
        rw [hz] at hss hss'
        cases e with
        | normal => exact ih hss ss' hss' htail
        | _ => cases hss

end

/-! ## Spilling all but simple entries -/

section

variable {ν η : Type} {I : Interpretation ν η} {constant : Expr → ν}
  {chosen : Nat → Expr → Bool} {env : Env} {m m' m'' : Machine} {e x : Expr} {es es' : List Expr}

/-- What spilling entries does when only simple ones are left. -/
structure Spills (I : Interpretation ν η) (constant : Expr → ν) (chosen : Nat → Expr → Bool)
    (m m' : Machine) (es es' : List Expr) : Prop where
  spilled : Spilled chosen m.vars.size es es'
  simple : ∀ e ∈ es', e.isSimple = true ∧ e.ReadsBelow m'.vars.size
  size : m.vars.size ≤ m'.vars.size
  merges : m'.merges = m.merges
  runs : ∀ s vs t, I.evalList es.reverse s = .ok vs t → ∃ s', m.Passes I.semantics m' s s' ∧
    s'.heap = t.heap ∧
    es'.reverse.map (I.valueOf constant s'.vars) = vs ∧ ∀ x : Var, x.index < m.vars.size →
    s'.vars x = s.vars x

theorem KeepsEvaluation.spills (hI : I.Fixes constant) (h : KeepsEvaluation I m m' es es')
    (hspilled : Spilled chosen m.vars.size es es')
    (hsimple : ∀ e ∈ es', e.isSimple = true ∧ e.ReadsBelow m'.vars.size)
    (hsize : m.vars.size ≤ m'.vars.size)
    (hmerges : m'.merges = m.merges) (hes : ∀ e ∈ es, e.ReadsBelow m.vars.size) :
    Spills I constant chosen m m' es es' := by
  refine ⟨hspilled, hsimple, hsize, hmerges, fun s vs t hvs => ?_⟩
  obtain ⟨ds, hout, hsplits⟩ := h
  have hresult := hsplits s
  rw [hvs] at hresult
  rcases hresult.ok_or_error with ⟨_, _, t', heq, hrun, hlike⟩ | ⟨_, _, _, heq, _⟩
  · cases heq
    obtain ⟨_, s', hds, hes'⟩ := bind_eq_ok.1 hrun
    obtain ⟨_, hvalues, hsame⟩ :=
      hI.evalList_simple es'.reverse (by simpa using fun e he => (hsimple e he).1) s'
    cases hes'.symm.trans hvalues
    have ht : t.vars = s.vars :=
      Interpretation.vars_of_evalList (by simpa using fun e he => (hes e he).isWriteFree) hvs
    refine ⟨s', Machine.passes_of_evalList hout hds, hsame.heap.trans hlike.heap.symm, rfl,
      fun x hx => ?_⟩
    rw [hsame.vars x id, ← hlike.vars x fun hnew => by omega, ht]
  · cases heq

theorem SpillsTo.keepsEvaluation_of_fixes (hI : I.Fixes constant)
    (h : SpillsTo env chosen m m' es es') (hes : ∀ e ∈ es, e.ReadsBelow m.vars.size)
    (hsimple : ∀ slot, ∀ e ∈ es, chosen slot e = false → e.isSimple = true) :
    KeepsEvaluation I m m' es es' :=
  h.keepsEvaluation (fun _ => rfl) hsimple
    (fun _ _ hds _ => .inr fun d hd => hI.quiet (hds d hd)) hes

theorem spills_spillStack (hI : I.Fixes constant) (h : spillStack env chosen m = .ok () m')
    (hes : ∀ e ∈ m.stack, e.ReadsBelow m.vars.size)
    (hsimple : ∀ slot, ∀ e ∈ m.stack, chosen slot e = false → e.isSimple = true) :
    KeepsEvaluation I m m' m.stack m'.stack ∧ Spills I constant chosen m m' m.stack m'.stack := by
  obtain ⟨m₁, heq, hsteps⟩ := spillsTo_spillStack h
  have hkeeps := hsteps.keepsEvaluation_of_fixes hI hes hsimple
  have hsimple' := hsteps.spilled.forall_mem hsimple fun _ _ => rfl
  have hreads := hsteps.readsBelow hes
  replace hkeeps : KeepsEvaluation I m { m₁ with stack := m'.stack } m.stack m'.stack := hkeeps
  rw [heq]
  exact ⟨hkeeps, hkeeps.spills hI hsteps.spilled
    (fun e he => ⟨hsimple' e he, hreads e he⟩) hsteps.size
    hsteps.adds.merges hes⟩

/-! ## Going to a label with simple entries -/

/-- The entries on a machine's stack are simple and read variables of its table. -/
def Machine.Simple (m : Machine) : Prop :=
  ∀ e ∈ m.stack, e.isSimple = true ∧ e.ReadsBelow m.vars.size

theorem Machine.Simple.index_lt (h : m.Simple) {j : Nat} {v : Var}
    (he : m.stack.reverse[j]? = some (.var v)) : v.index < m.vars.size :=
  Expr.readsBelow_var.1 (h _ (List.mem_reverse.1 (List.mem_of_getElem? he))).2

/-- What going to a label does when the entries are simple: all are stored in the temporaries of the
label. An entry that conflicts is replaced on the stack by a new variable that is no temporary of a
label. -/
structure Flowed (I : Interpretation ν η) (constant : Expr → ν) (l : Label) (m m' : Machine)
    (temps : List Var) : Prop where
  merging : m.Merging m'
  simple : m'.Simple
  length : temps.length = m.stack.length
  height : m'.stack.length = m.stack.length
  merges : ∀ (j : Nat) v, temps[j]? = some v → entered? (l, j) m'.merges = some v
  depth : Lift.HasDepth m' l temps.length
  slots : ∀ (j : Nat) e', m'.stack.reverse[j]? = some e' →
    m.stack.reverse[j]? = some e' ∧ conflicts m.stack.reverse temps j e' = false ∨
      ∃ t : Var, e' = .var t ∧ m.vars.size ≤ t.index ∧ ∀ p, entered? p m'.merges ≠ some t
  runs : ∀ s, ∃ s', m.Passes I.semantics m' s s' ∧ s'.heap = s.heap ∧
    temps.map s'.vars = m.stack.reverse.map (I.valueOf constant s.vars) ∧
    (∀ (j : Nat) e', m'.stack.reverse[j]? = some e' → (∀ t ∈ temps, e' ≠ .var t) →
      (m.stack.reverse.map (I.valueOf constant s.vars))[j]? =
      some (I.valueOf constant s'.vars e')) ∧
    ∀ x : Var, x.index < m.vars.size → x ∉ temps → s'.vars x = s.vars x

/-- Simple entries are all stored in the temporaries of the label. -/
theorem flowed_flowTo (hI : I.Fixes constant) {l : Label} (h : flowTo env l m = .ok () m')
    (hm : m.MergesOnce) (hsimple : m.Simple) : ∃ temps, Flowed I constant l m m' temps := by
  obtain ⟨m₁, m₂, temps, hjoins, hlen, hmerges, hdepth, hspill, rfl⟩ := flowTo_eq_ok h
  have hm₁ := hjoins.once hm
  have hnodup := hm₁.nodup hmerges
  have hold : ∀ t ∈ temps, t.index < m₁.vars.size := fun _ => hm₁.index_lt hmerges
  obtain ⟨_, hspills⟩ :=
    spills_spillStack hI hspill (fun e he => (hsimple e (hjoins.stack ▸ he)).2.mono hjoins.size)
    fun _ e he _ => (hsimple e (hjoins.stack ▸ he)).1
  rw [hjoins.stack] at hspills
  have hmerging := merges_spillStack _ _ _ _ hspill
  refine ⟨temps, hjoins.toMerging.trans (hmerging.trans (.of_eq rfl rfl (Nat.le_refl _))),
    hspills.simple, hlen, hspills.spilled.length, fun j v hv => hmerging.kept _ v (hmerges j v hv),
    (hlen ▸ hdepth).of_records hmerging.records, ?_, fun s => ?_⟩
  · intro j e' he'
    obtain ⟨e, he, ⟨rfl, hc⟩ | ⟨t, rfl, ht, _⟩⟩ := hspills.spilled.getElem?_reverse he'
    · exact .inl ⟨he, hc⟩
    · refine .inr ⟨t, rfl, Nat.le_trans hjoins.size ht, fun p hp => ?_⟩
      rw [show m₂.merges = m₁.merges from hspills.merges] at hp
      have hlt := hm₁.size p t hp
      omega
  · have hes : ∀ e ∈ m.stack.reverse, e.isSimple = true :=
      fun e he => (hsimple e (List.mem_reverse.1 he)).1
    obtain ⟨t, hvs, hst⟩ := hI.evalList_simple _ hes s
    obtain ⟨s₁, hpass, hheap, hvalues, hvars⟩ := hspills.runs s _ _ hvs
    obtain ⟨t₁, hvs₁, hst₁⟩ := hI.evalList_simple m₂.stack.reverse
      (by simpa using fun e he => (hspills.simple e he).1) s₁
    have hmoves := splits_moves (I := I) hspills.spilled hlen hnodup hold fun e he =>
      (hspills.simple e he).2.isWriteFree
    rcases hmoves.stored s₁ with ⟨_, t₂, _, s', hvs₂, hrun, htemps, hlike⟩ | ⟨_, _, _, herror, _⟩
    case inr => cases hvs₁.symm.trans herror
    cases hvs₁.symm.trans hvs₂
    have hother : ∀ x, x ∉ temps → s'.vars x = s₁.vars x := fun x hx =>
      (hlike.vars x hx).symm.trans (hst₁.vars x id).symm
    have hpass' :
      m₂.Passes I.semantics { m₂ with out := m₂.out ++ moves m₂.stack.reverse temps } s₁ s' :=
      Machine.passes_of_evalList (congrArg _ (moves_eq_sets ..)) hrun
    refine ⟨s', (Machine.Passes.of_out hjoins.out).trans (hpass.trans hpass'),
      (hst₁.heap.trans hlike.heap).symm.trans (hheap.trans hst.heap.symm), htemps.trans hvalues,
      fun j e' he' hne => ?_, fun x hx hnot => ?_⟩
    · rw [← hvalues, List.getElem?_map, he', Option.map_some,
        Interpretation.valueOf_eq fun v hv => hother v fun hmem => hne v hmem hv]
    · exact (hother x hnot).trans (hvars x (Nat.lt_of_lt_of_le hx hjoins.size))

end

end ByteLift
