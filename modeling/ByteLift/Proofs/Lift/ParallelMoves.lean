import ByteLift.Proofs.Lift.Dispatch

/-!
# Storing the stack is a parallel assignment

Whatever the entries of the stack are, and whichever temporaries of the label they read, going to a
label evaluates them once each, in the order in which they were pushed, and leaves their values in
the temporaries. If an entry throws, nothing behind it is evaluated. No other variables are assigned
but new ones.
-/

namespace ByteLift

namespace Lift

variable {env : Env} {m m' : Machine}

/-- The states that the machine can be in, also amid an instruction: the stack changes to entries
that assign nothing and read variables of the table, entries are spilled, a variable is added,
statements are emitted, or the stack is stored for a label. -/
inductive Underway (env : Env) : Machine → Prop
  | reached {m : Machine} : Reached env m → Underway env m
  | stack {m : Machine} {st : List Expr} :
      Underway env m → (∀ e ∈ st, e.ReadsBelow m.vars.size) → Underway env { m with stack := st }
  | spill {m m' : Machine} (chosen : Nat → Expr → Bool) :
      Underway env m → spillStack env chosen m = .ok () m' → Underway env m'
  | declare {m : Machine} (decl : VarDecl) (temps : Nat) :
      Underway env m → Underway env { m with vars := m.vars.push decl, temps }
  | append {m : Machine} (ss : Block) : Underway env m → Underway env { m with out := m.out ++ ss }
  | flowTo {m m' : Machine} (l : Label) :
    Underway env m → flowTo env l m = .ok () m' → Underway env m'
  | other {m : Machine} (locals : List ((Nat × LocalKind) × Local)) (address : Address)
    (asked : List Query) :
      Underway env m → Underway env { m with locals, address, asked }

theorem readsBelow_spillStack {chosen : Nat → Expr → Bool} (h : spillStack env chosen m = .ok () m')
    (hm : ∀ e ∈ m.stack, e.ReadsBelow m.vars.size) : ∀ e ∈ m'.stack, e.ReadsBelow m'.vars.size := by
  obtain ⟨m₁, heq, hsteps⟩ := spillsTo_spillStack h
  have hreads := hsteps.readsBelow hm
  rw [heq]
  exact hreads

theorem Underway.mergesOnce (h : Underway env m) : m.MergesOnce := by
  induction h with
  | reached h => exact h.mergesOnce
  | spill chosen _ hspill ih => exact (merges_spillStack chosen _ _ _ hspill).once ih
  | flowTo l _ hflow ih => exact (merges_flowTo l _ _ _ hflow).once ih
  | declare _ _ _ ih => exact ih.of_eq rfl rfl (by simp)
  | stack _ _ ih | append _ _ ih | other _ _ _ _ ih => exact ih.of_eq rfl rfl (Nat.le_refl _)

theorem Underway.readsBelow (h : Underway env m) : ∀ e ∈ m.stack, e.ReadsBelow m.vars.size := by
  induction h with
  | reached h => exact (h.within (Nat.le_refl _)).stack
  | stack _ hst => exact hst
  | spill chosen _ hspill ih => exact readsBelow_spillStack hspill ih
  | declare _ _ _ ih => exact fun e he => (ih e he).mono (by simp)
  | append _ _ ih | other _ _ _ _ ih => exact ih
  | flowTo l _ hflow ih =>
    obtain ⟨m₁, m₂, temps, hjoins, _, _, _, hspill, rfl⟩ := flowTo_eq_ok hflow
    have hreads :=
      readsBelow_spillStack hspill fun e he => (ih e (hjoins.stack ▸ he)).mono hjoins.size
    exact hreads

/-- Storing the stack for a label splits its evaluation: all of it is done before the label. -/
theorem splits_flowTo {ν η : Type} {I : Interpretation ν η} (hI : I.Steady)
    (hm : Underway env m) {l : Label} (h : Lift.flowTo env l m = .ok () m') :
    ∃ (temps : List Var) (ds : List Expr), temps.length = m.stack.length ∧ temps.Nodup ∧
      (∀ j, entered? (l, j) m'.merges = temps[j]?) ∧ m'.out = m.out ++ ds.map .expr ∧
      I.Splits (fun x => x ∈ temps ∨ m.vars.size ≤ x.index ∧ x.index < m'.vars.size) ds
        m.stack.reverse (temps.map .var) := by
  have hmerging := merges_flowTo l _ _ _ h
  obtain ⟨m₁, m₂, temps, hjoins, hlen, hmerges, hdepth, hspill, rfl⟩ := flowTo_eq_ok h
  have hm₁ := hjoins.once hm.mergesOnce
  have hreads : ∀ e ∈ m₁.stack, e.ReadsBelow m₁.vars.size := fun e he =>
    (hm.readsBelow e (hjoins.stack ▸ he)).mono hjoins.size
  have hspills := merges_spillStack _ _ _ _ hspill
  obtain ⟨m₂', heq, hsteps⟩ := spillsTo_spillStack hspill
  obtain ⟨ds, hout, hsplits⟩ :=
    hsteps.keepsEvaluation (I := I) (K := fun _ => True) (fun _ => trivial)
    (fun _ _ _ _ => trivial) (fun e ds _ hpure => hpure.imp hI.quiet fun hds d hd =>
    hI.quiet (hds d hd)) hreads
  have hreads₂ := readsBelow_spillStack hspill hreads
  have hspilled := hsteps.spilled
  rw [hjoins.stack] at hspilled hsplits
  have hnodup := hm₁.nodup hmerges
  have hmoves :=
    splits_moves (I := I) hspilled hlen hnodup (fun _ => hm₁.index_lt hmerges) fun e he =>
    (hreads₂ e he).isWriteFree
  have hout₂ : m₂.out = m.out ++ ds.map .expr := by rw [heq, ← hjoins.out, ← hout]
  have hsize₂ : m₂.vars.size = m₂'.vars.size := by rw [heq]
  refine ⟨temps, ds ++ sets (m₂.stack.reverse.zip temps), hlen, hnodup, fun j => ?_, ?_, ?_⟩
  · exact (hmerging.once hm.mergesOnce).entered?_eq
      (fun j v hv => hspills.kept _ v (hmerges j v hv))
      ((hlen ▸ hdepth).of_records hspills.records) j
  · rw [List.map_append, ← moves_eq_sets, ← List.append_assoc, ← hout₂]
  · refine (hsplits.mono fun x hx => .inr ?_).trans (hmoves.mono fun x => .inl)
    exact ⟨Nat.le_trans hjoins.size hx.1, hsize₂ ▸ hx.2⟩

end Lift

/-- Going to a label is one parallel assignment of the stack to its temporaries. The statements that
are emitted do what evaluating the stack from the bottom up does, and leave the value of each entry
in the temporary of its slot; or they throw what an entry throws. They assign no other variables but
new ones. -/
theorem flowTo_assigns_in_parallel {ν η : Type} {I : Interpretation ν η} (hI : I.Steady) {env : Env}
    {m m' : Machine} (hm : Lift.Underway env m) {l : Label} (h : Lift.flowTo env l m = .ok () m') :
    ∃ temps : List Var, temps.length = m.stack.length ∧ temps.Nodup ∧
      (∀ j, entered? (l, j) m'.merges = temps[j]?) ∧ ∀ s : State ν η, ∃ s',
        (∀ x, x ∉ temps → x.index < m.vars.size ∨ m'.vars.size ≤ x.index → s'.vars x = s.vars x) ∧
        ((∃ vs t, I.evalList m.stack.reverse s = .ok vs t ∧ m.Passes I.semantics m' s s' ∧
          temps.map s'.vars = vs ∧
            s'.heap = t.heap ∧ s'.effects = t.effects) ∨
          ∃ v t, I.evalList m.stack.reverse s = .error v t ∧
            m.Leaves I.semantics m' (.thrown v) s s' ∧
            s'.heap = t.heap ∧ s'.effects = t.effects) := by
  obtain ⟨temps, ds, hlen, hnodup, hmerges, hout, hsplits⟩ := Lift.splits_flowTo hI hm h
  refine ⟨temps, hlen, hnodup, hmerges, fun s => ?_⟩
  have hvars {r : EStateM.Result ν (State ν η) (List ν)} (hr : I.evalList m.stack.reverse s = r) :
      (Interpretation.endState r).vars = s.vars :=
    Interpretation.vars_of_evalList (by simpa using fun e he => (hm.readsBelow e he).isWriteFree) hr
  have hother {t s' : State ν η} (ht : t.vars = s.vars)
      (hlike : t.Like (fun x => x ∈ temps ∨ m.vars.size ≤ x.index ∧ x.index < m'.vars.size) s') :
      ∀ x, x ∉ temps → x.index < m.vars.size ∨ m'.vars.size ≤ x.index → s'.vars x = s.vars x := by
    intro x hx hold
    rw [← ht, hlike.vars x]
    rintro (hmem | hnew)
    · exact hx hmem
    · omega
  rcases hsplits.stored s with ⟨vs, t, us, s', hvs, hds, htemps, hlike⟩ | ⟨v, t, s', hv, hds, hlike⟩
  · exact ⟨s', hother (hvars hvs) hlike,
      .inl ⟨vs, t, hvs, Machine.passes_of_evalList hout hds, htemps,
      hlike.heap.symm, hlike.effects.symm⟩⟩
  · exact ⟨s', hother (hvars hv) hlike, .inr ⟨v, t, hv, Machine.leaves_of_evalList hout hds,
      hlike.heap.symm, hlike.effects.symm⟩⟩

/-- The machine behind `5; 1; L: swap`, with the temporaries of `L` in each other's slots. -/
def swapped : Machine := { twoKept with stack := [.var ⟨0⟩, .var ⟨1⟩] }

/-- A jump back to `L` exchanges what its temporaries hold. -/
theorem flowTo_assigns_in_parallel_swapped :
    ∃ m', Lift.flowTo looping ⟨0⟩ swapped = .ok () m' ∧
      m'.out = swapped.out ++ [.set ⟨2⟩ (.var ⟨0⟩), .set ⟨0⟩ (.var ⟨1⟩), .set ⟨1⟩ (.var ⟨2⟩)] ∧
      ∃ s', swapped.Passes wholeInts.semantics m' ⟨fun v => if v = ⟨0⟩ then 5 else 1, (), []⟩ s' ∧
        s'.vars ⟨0⟩ = 1 ∧ s'.vars ⟨1⟩ = 5 := by
  have hrun : Lift.run looping true [(⟨0, .iconst 5⟩, true), (⟨1, .iconst 1⟩, true),
    (⟨2, .swap⟩, true)]
      (.start looping .empty) = .ok () swapped := by cbv
  have hok : Lift.flowTo looping ⟨0⟩ swapped = .ok ()
      { swapped with
        vars := tempInts ["var0", "var1", "var2"]
        stack := [.var ⟨2⟩, .var ⟨1⟩]
        out := swapped.out ++ [.set ⟨2⟩ (.var ⟨0⟩), .set ⟨0⟩ (.var ⟨1⟩), .set ⟨1⟩ (.var ⟨2⟩)]
        temps := 3 } := by cbv
  have hsteady : wholeInts.Steady := ⟨fun op _ => intOf op, fun _ _ _ _ => rfl⟩
  obtain ⟨temps, _, _, htemps, hall⟩ := flowTo_assigns_in_parallel hsteady
    (.reached (.run (.start .empty (by simp [looping])) hrun)) hok
  obtain ⟨s', _, ⟨vs, t, hvs, hpasses, hvalues, _⟩ | ⟨v, t, herror, _⟩⟩ :=
    hall ⟨fun v => if v = ⟨0⟩ then 5 else 1, (), []⟩
  · cases hvs
    have hslot (j : Nat) := congrArg (·[j]?) hvalues
    simp only [List.getElem?_map, ← htemps] at hslot
    exact ⟨_, hok, rfl, s', hpasses, Option.some.inj (hslot 0), Option.some.inj (hslot 1)⟩
  · cases herror

end ByteLift
