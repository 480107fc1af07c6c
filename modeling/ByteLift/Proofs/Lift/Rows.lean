import ByteLift.Proofs.Lift.SimpleEntries
import ByteLift.Proofs.Semantics.Division

/-!
# Rows of assignments

Code that only computes is lifted to assignments. Spilling keeps the values of a stack, whether or
not they can all be computed: running the assignments and then evaluating the new stack gives what
evaluating the old stack does. If an entry throws, then so does an assignment or an entry that is
left.
-/

namespace ByteLift

open Interpretation Function

variable {m m' m'' : Machine} {row : List (Var × Expr)} {ν : Type}
  {I : Interpretation ν Unit} {e : Expr}

theorem Expr.isWriteFree_of_isPlain (he : e.isPlain = true) : e.isWriteFree = true := by
  refine isWriteFree_of_isAssignFree ?_
  induction e using childrenInduction with
  | step e ih =>
    rw [isAssignFree_eq, isAssign_of_isPlain he, Bool.not_false, Bool.true_and, List.all_eq_true]
    exact fun d hd => ih d hd (isPlain_of_mem_children he hd)

theorem Expr.Known.isWriteFree {n : Nat} (h : e.Known n) : e.isWriteFree = true :=
  isWriteFree_of_isPlain h.plain

/-! ## Rows -/

/-- A row of assignments, as statements. -/
def assigned (row : List (Var × Expr)) : Block := row.map fun a => .set a.1 a.2

/-- The statements emitted between two states of the machine are a row of assignments. -/
structure Machine.Assigns (m m' : Machine) (row : List (Var × Expr)) : Prop where
  out : m'.out = m.out ++ assigned row
  free : ∀ a ∈ row, a.2.isWriteFree = true

namespace Machine.Assigns

variable {row' : List (Var × Expr)}

theorem nil (h : m'.out = m.out) : m.Assigns m' [] := ⟨by simp [h, assigned], by simp⟩

theorem one {v : Var} (h : m'.out = m.out ++ [.set v e]) (he : e.isWriteFree = true) :
    m.Assigns m' [(v, e)] := ⟨h, by simpa using he⟩

theorem trans (h : m.Assigns m' row) (h' : m'.Assigns m'' row') : m.Assigns m'' (row ++ row') := by
  refine ⟨?_, fun a ha => ?_⟩
  · rw [h'.out, h.out, assigned, assigned, assigned, List.map_append, List.append_assoc]
  · exact (List.mem_append.1 ha).elim (h.free a) (h'.free a)

variable {x : ν} {s : State ν Unit}

/-- The values of variables behind a row are those that its assignments leave when they are
evaluated. -/
theorem assign?_eq (hfree : ∀ a ∈ row, a.2.isWriteFree = true) (s : State ν Unit) :
    I.assign? row s.vars = match I.evalList (row.map fun a => .assign (.var a.1) a.2) s with
      | .ok _ s' => some s'.vars
      | .error .. => none := by
  induction row generalizing s with
  | nil => rfl
  | cons a row ih =>
    rw [List.forall_mem_cons] at hfree
    simp only [List.map_cons, evalList, assign?, value?_eq, bind, EStateM.bind]
    rcases eval_set (I := I) (v := a.1) (s := s) hfree.1 with
      ⟨y, s', heval, hvars, hset⟩ | ⟨y, s', heval, _, hset⟩
    · have hput : update s.vars a.1 y = (s'.put a.1 y).vars := by
        funext u
        rw [update_apply, ← hvars]
        rfl
      rw [heval, hset, Option.bind_some, hput, ih hfree.2]
      dsimp only
      cases I.evalList _ (s'.put a.1 y) <;> rfl
    · rw [heval, hset]
      rfl

section

variable (h : m.Assigns m' row)
include h

theorem out_eq : m'.out = m.out ++ (row.map fun a => .assign (.var a.1) a.2).map .expr := by
  rw [h.out, assigned, List.map_map]
  rfl

/-- Control runs through assignments that do not throw. -/
theorem passes {vals : Var → ν} (hvals : I.assign? row s.vars = some vals) :
    ∃ s', m.Passes I.semantics m' s s' ∧ s'.vars = vals := by
  rw [assign?_eq h.free] at hvals
  split at hvals <;> cases hvals
  rename_i hlist
  exact ⟨_, passes_of_evalList h.out_eq hlist, rfl⟩

/-- The first assignment that throws ends the row. -/
theorem leaves (hI : ∀ op vs h y h', I.operate op vs h = .error y h' → y = x)
    (hvals : I.assign? row s.vars = none) : ∃ s', m.Leaves I.semantics m' (.thrown x) s s' := by
  rw [assign?_eq h.free] at hvals
  split at hvals
  · cases hvals
  · rename_i y s' hlist
    obtain rfl := Throws.evalList (fun e _ => throws_eval hI e) s y s' hlist
    exact ⟨s', leaves_of_evalList h.out_eq hlist⟩

end

end Machine.Assigns

/-! ## Spilling -/

section

variable {env : Env} {es es' : List Expr}

/-- A row of assignments keeps what a stack evaluates to, and touches no variables but new ones. -/
structure KeepsOutcome (I : Interpretation ν Unit) (m m' : Machine) (es es' : List Expr)
    (row : List (Var × Expr)) : Prop extends m.Assigns m' row where
  values : ∀ vals, ((I.assign? row vals).bind fun vals' => I.values? vals' es') = I.values? vals es
  vars : ∀ vals vals', I.assign? row vals = some vals' → ∀ x : Var, x.index < m.vars.size →
    vals' x = vals x

/-- Known expressions have the same value where the known variables have. -/
theorem Expr.Known.value?_eq {n : Nat} (he : e.Known n) {vals vals' : Var → ν}
    (h : ∀ x : Var, x.index < n → vals' x = vals x) : I.value? vals' e = I.value? vals e :=
  value?_congr fun x hx => h x (he.vars x hx)

namespace KeepsOutcome

theorem nil (I : Interpretation ν Unit) (m : Machine) : KeepsOutcome I m m [] [] [] := by
  refine ⟨.nil rfl, fun vals => rfl, fun vals vals' h x _ => ?_⟩
  cases h
  rfl

section

variable (h : KeepsOutcome I m m' es es' row)
include h

theorem keep (he : e.Known m.vars.size) : KeepsOutcome I m m' (e :: es) (e :: es') row := by
  refine ⟨h.toAssigns, fun vals => ?_, h.vars⟩
  have hvalues := h.values vals
  rw [values?_cons, ← hvalues]
  cases hrow : I.assign? row vals with
  | none => cases I.value? vals e <;> rfl
  | some vals' =>
    rw [Option.bind_some, Option.bind_some, values?_cons, he.value?_eq (h.vars vals vals' hrow)]

/-- A last assignment, to a variable that nothing on the stack reads, adds a value to those of the
stack. -/
theorem values_set {v : Var} (hv : ∀ d ∈ es', .read v ∉ d.uses) (he : e.Known m.vars.size)
    (vals : Var → ν) :
    ((I.assign? (row ++ [(v, e)]) vals).bind fun vals' => (I.values? vals' es').map fun vs =>
      (vals' v, vs)) =
      (I.value? vals e).bind fun x => (I.values? vals es).map fun vs => (x, vs) := by
  rw [assign?_append, ← h.values vals]
  cases hrow : I.assign? row vals with
  | none => cases I.value? vals e <;> rfl
  | some vals' =>
    rw [Option.bind_some, Option.bind_some, assign?_singleton,
      he.value?_eq (h.vars vals vals' hrow)]
    cases I.value? vals e with
    | none => rfl
    | some y =>
      have hbelow : I.values? (update vals' v y) es' = I.values? vals' es' := by
        refine values?_congr fun d hd x hx => update_of_ne ?_ _ _
        rintro rfl
        exact hv d hd hx
      rw [Option.map_some, Option.bind_some, Option.bind_some, hbelow, update_self]

theorem vars_set {v : Var} {vals vals' : Var → ν}
    (hrow : I.assign? (row ++ [(v, e)]) vals = some vals') (x : Var)
    (hx : x.index < m.vars.size) (hne : x ≠ v) : vals' x = vals x := by
  rw [assign?_append, Option.bind_eq_some_iff] at hrow
  obtain ⟨vals₁, hrow, hlast⟩ := hrow
  rw [assign?_singleton, Option.map_eq_some_iff] at hlast
  obtain ⟨y, _, rfl⟩ := hlast
  rw [update_of_ne hne, h.vars vals vals₁ hrow x hx]

/-- An entry that is stored in a new variable is computed before all that stays, or throws before
all that stays is. -/
theorem store (hes' : ∀ e ∈ es', e.Entry m'.vars.size) (hsize : m.vars.size ≤ m'.vars.size)
    (he : e.Known m.vars.size) (hout : m''.out = m'.out ++ [.set m'.vars.next e]) :
    KeepsOutcome I m m'' (e :: es) (.var m'.vars.next :: es') (row ++ [(m'.vars.next, e)]) := by
  refine ⟨h.toAssigns.trans (.one hout he.isWriteFree), fun vals => ?_,
    fun vals vals' hrow x hx => ?_⟩
  · -- What stays does not read the new variable.
    have hv : ∀ d ∈ es', .read m'.vars.next ∉ d.uses :=
      fun d hd hx => Var.ne_of_lt ((hes' d hd).vars _ hx) (Nat.le_refl _) rfl
    have hvalues := congrArg (Option.map fun p => p.1 :: p.2) (h.values_set hv he vals)
    simpa [Option.map_bind, values?_cons, comp_def] using hvalues
  · exact h.vars_set hrow x hx (Var.ne_of_lt hx hsize)

theorem trans {es'' : List Expr} {row' : List (Var × Expr)}
    (h' : KeepsOutcome I m' m'' es' es'' row')
    (hsize : m.vars.size ≤ m'.vars.size) : KeepsOutcome I m m'' es es'' (row ++ row') := by
  refine ⟨h.toAssigns.trans h'.toAssigns, fun vals => ?_, fun vals vals' hrow x hx => ?_⟩
  · rw [assign?_append, ← h.values vals, Option.bind_assoc]
    exact congrArg _ (funext h'.values)
  · rw [assign?_append, Option.bind_eq_some_iff] at hrow
    obtain ⟨vals₁, hrow, hrow'⟩ := hrow
    rw [h'.vars vals₁ vals' hrow' x (Nat.lt_of_lt_of_le hx hsize), h.vars vals vals₁ hrow x hx]

end

end KeepsOutcome

variable {chosen : Nat → Expr → Bool}

theorem SpillsTo.exists_keepsOutcome (I : Interpretation ν Unit)
    (h : SpillsTo env chosen m m' es es')
    (hes : ∀ e ∈ es, e.Entry m.vars.size) : ∃ row, KeepsOutcome I m m' es es' row := by
  induction h with
  | nil _ m => exact ⟨[], .nil I m⟩
  | keep _ _ ih =>
    rw [List.forall_mem_cons] at hes
    obtain ⟨row, hkeeps⟩ := ih hes.2
    exact ⟨row, hkeeps.keep hes.1.toKnown⟩
  | store h _ _ hx ih =>
    rw [List.forall_mem_cons] at hes
    obtain ⟨row, hkeeps⟩ := ih hes.2
    obtain ⟨rfl, _, _, _, _, hout⟩ := Lift.spill_eq_ok hx
    exact ⟨_, hkeeps.store (h.entries hes.2) h.size hes.1.toKnown hout⟩
  | again h _ ih ih' =>
    obtain ⟨row, hkeeps⟩ := ih hes
    obtain ⟨row', hkeeps'⟩ := ih' (h.entries hes)
    exact ⟨_, hkeeps.trans hkeeps' h.size⟩

theorem exists_keepsOutcome (I : Interpretation ν Unit)
    (h : Lift.spillStack env chosen m = .ok () m')
    (hes : m.Entries) : ∃ row, KeepsOutcome I m m' m.stack m'.stack row := by
  obtain ⟨m₁, heq, hsteps⟩ := spillsTo_spillStack h
  obtain ⟨row, hassigns, hvalues, hvars⟩ := hsteps.exists_keepsOutcome I hes
  refine ⟨row, ⟨?_, hassigns.free⟩, hvalues, hvars⟩
  rw [heq]
  exact hassigns.out

/-! ## Emitting an assignment -/

/-- A row of assignments gives a variable the value of an expression and keeps what a stack
evaluates to. It touches no other variables but new ones. -/
structure SetsVariable (I : Interpretation ν Unit) (m m' : Machine) (v : Var) (e : Expr)
    (row : List (Var × Expr)) : Prop extends m.Assigns m' row where
  values : ∀ vals,
    ((I.assign? row vals).bind fun vals' => (I.values? vals' m'.stack).map fun vs =>
    (vals' v, vs)) =
      (I.value? vals e).bind fun x => (I.values? vals m.stack).map fun vs => (x, vs)
  vars : ∀ vals vals', I.assign? row vals = some vals' → ∀ x : Var, x.index < m.vars.size → x ≠ v →
    vals' x = vals x

theorem exists_setsVariable (I : Interpretation ν Unit) {v : Var} {effects : Bool}
    (h : Lift.emit env (.set v e) (some v) effects m = .ok () m') (hes : m.Entries)
    (he : e.Known m.vars.size)
    (hv : v.index < m.vars.size) : ∃ row, SetsVariable I m m' v e row := by
  obtain ⟨m₁, hspill, rfl⟩ := emit_eq_ok h
  obtain ⟨_, _, hspilled, _⟩ := spillStack_spec hspill hes
  obtain ⟨row, hkeeps⟩ := exists_keepsOutcome I hspill hes
  have hunread : ∀ d ∈ m₁.stack, .read v ∉ d.uses := by
    refine hspilled.forall_mem ?_ ?_
    · intro slot d _ hc hmem
      simp [Expr.reads, hmem] at hc
    · intro y hy hmem
      simp only [Expr.uses, Expr.usesAs, Bool.false_eq_true, if_false, List.mem_singleton,
        Use.read.injEq] at hmem
      rw [hmem] at hv
      omega
  exact ⟨row ++ [(v, e)], hkeeps.toAssigns.trans (.one rfl he.isWriteFree),
    hkeeps.values_set hunread he, fun _ _ => hkeeps.vars_set⟩

end

end ByteLift
