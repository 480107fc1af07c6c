import ByteLift.Proofs.Lift.Machine

/-!
# Spilling

Spilling entries of the stack keeps what the stack evaluates to: running the statements that are
emitted and then evaluating the new stack gives the values, and leaves the memory, that evaluating
the old stack would. The order of effects is kept because an entry that is not pure is only spilled
when all such entries below it are.
-/

namespace ByteLift

open World Lift Flat

variable {σ ρ η : Type} [DecidableEq ρ] {s s' : σ} {env : Env} {m m' : Machine}
  {w : World ρ η} {e : Expr} {x : Value ρ} {t t' : Store ρ η} {vs : List (Value ρ)}

/-! ## Success of steps of the lifting machine -/

section

variable {ε α : Type}

theorem get_eq_ok {a : σ} : (get : EStateM ε σ σ) s = .ok a s' ↔ a = s ∧ s' = s := by
  constructor
  · intro h
    cases h
    exact ⟨rfl, rfl⟩
  · rintro ⟨rfl, rfl⟩
    rfl

variable {u : PUnit}

theorem set_eq_ok {x : σ} : (set x : EStateM ε σ PUnit) s = .ok u s' ↔ s' = x := by
  constructor
  · intro h
    cases h
    rfl
  · rintro rfl
    rfl

theorem modify_eq_ok {f : σ → σ} : (modify f : EStateM ε σ PUnit) s = .ok u s' ↔ s' = f s := by
  constructor
  · intro h
    cases h
    rfl
  · rintro rfl
    rfl

theorem throw_eq_ok {e : ε} {a : α} : (throw e : EStateM ε σ α) s = .ok a s' ↔ False := by
  constructor
  · intro h
    cases h
  · exact False.elim

end

namespace Lift

theorem spill_eq_ok {e x : Expr} (h : spill env e m = .ok x m') :
    x = .var m.vars.next ∧ m'.stack = m.stack ∧ m.Adds m' ∧ m'.vars.size = m.vars.size + 1 ∧
      m'.vars.ty m.vars.next = (env.typeOf m.vars e).orObject ∧
      m'.out = m.out ++ [.set m.vars.next e] := by
  cases h
  refine ⟨rfl, rfl, ⟨VarTable.extends_push _ _, ⟨_, rfl, ?_⟩, rfl, rfl, rfl⟩, ?_, ?_, rfl⟩
  · rfl
  · exact VarTable.size_push _ _
  · exact VarTable.ty_push_next _ _

end Lift

/-! ## What emitted code does -/

namespace Machine

variable {ν : Type} (S : Semantics σ ν)

/-- Control runs through the statements that were emitted between two states of the machine. -/
def Passes (m m' : Machine) (s s' : σ) : Prop :=
  ∃ ss, m'.out = m.out ++ ss ∧ straight S ss s = some s'

/-- Control leaves the statements that were emitted between two states of the machine. -/
def Leaves (m m' : Machine) (x : Exit ν) (s s' : σ) : Prop :=
  ∃ ss y rest s₁, m'.out = m.out ++ (ss ++ y :: rest) ∧ straight S ss s = some s₁ ∧
    y.act S s₁ = (x, s')

variable {S} {m₁ : Machine} {s₁ : σ} {x : Exit ν} {y : Stmt}

theorem Passes.of_out (h : m'.out = m.out) : m.Passes S m' s s := ⟨[], by simp [h], rfl⟩

theorem Passes.one (hout : m'.out = m.out ++ [y]) (hact : y.act S s = (.normal, s')) :
    m.Passes S m' s s' :=
  ⟨[y], hout, straight_cons hact⟩

theorem Passes.trans (h : m.Passes S m₁ s s₁) (h' : m₁.Passes S m' s₁ s') : m.Passes S m' s s' := by
  obtain ⟨ss, hout, hss⟩ := h
  obtain ⟨ss', hout', hss'⟩ := h'
  exact ⟨ss ++ ss', by rw [hout', hout, List.append_assoc], straight_append hss hss'⟩

theorem Leaves.one {rest : Block} (hout : m'.out = m.out ++ y :: rest)
    (hact : y.act S s = (x, s')) : m.Leaves S m' x s s' := ⟨[], y, rest, s, hout, rfl, hact⟩

theorem Passes.leaves (h : m.Passes S m₁ s s₁) (h' : m₁.Leaves S m' x s₁ s') :
    m.Leaves S m' x s s' := by
  obtain ⟨ss, hss, hrun⟩ := h
  obtain ⟨ss', y, rest, s₂, hout, hrun', hact⟩ := h'
  refine ⟨ss ++ ss', y, rest, s₂, ?_, straight_append hrun hrun', hact⟩
  rw [hout, hss, List.append_assoc, List.append_assoc]

/-- Statements that are emitted later do not matter. -/
theorem Leaves.mono (h : m.Leaves S m₁ x s s') (hout : m₁.out <+: m'.out) :
    m.Leaves S m' x s s' := by
  obtain ⟨ss, y, rest, s₁, hss, hrun, hact⟩ := h
  obtain ⟨post, hpost⟩ := hout
  exact ⟨ss, y, rest ++ post, s₁, by rw [← hpost, hss]; simp, hrun, hact⟩

section

variable {block : Block} (hout : m'.out <+: block)

include hout

theorem Passes.leads (h : m.Passes S m' s s') :
    ∃ k, Leads (step S block) k (m.out.length, s) (m'.out.length, s') := by
  obtain ⟨ss, hss, hrun⟩ := h
  rw [hss] at hout ⊢
  exact ⟨ss.length, leads_straight hout hrun⟩

theorem Leaves.exists_leads (h : m.Leaves S m' x s s') :
    ∃ k pos y s₁, Leads (step S block) k (m.out.length, s) (pos, s₁) ∧ block[pos]? = some y ∧
      y.act S s₁ = (x, s') := by
  obtain ⟨ss, y, rest, s₁, hss, hrun, hact⟩ := h
  rw [hss, ← List.append_assoc] at hout
  obtain ⟨post, rfl⟩ := hout
  refine ⟨ss.length, (m.out ++ ss).length, y, s₁, ?_, by simp, hact⟩
  exact leads_straight ⟨y :: rest ++ post, by simp⟩ hrun

/-- A jump takes at least one step. -/
theorem Leaves.leads_jump {l : Label} {q : Nat} (h : m.Leaves S m' (.jumping l) s s')
    (hq : position? block l = some q) :
    ∃ k, Leads (step S block) (k + 1) (m.out.length, s) (q, s') := by
  obtain ⟨k, pos, y, s₁, hlead, hy, hact⟩ := h.exists_leads hout
  have hon : step S block (pos, s₁) = .on (q, s') := by
    rw [step_on hy (by rw [hact]; exact hq), hact]
  refine ⟨k, ?_⟩
  rw [Nat.add_comm]
  exact hlead.trans (.one hon)

theorem Leaves.ends (h : m.Leaves S m' x s s') (hx : ∀ pos, follow block pos x = none) :
    Flat.Ends S block m.out.length s (x, s') := by
  obtain ⟨k, pos, y, s₁, hlead, hy, hact⟩ := h.exists_leads hout
  refine ⟨1 + k, (hlead 1).trans ?_⟩
  rw [← hact]
  exact run_stop hy (by rw [hact]; exact hx pos)

end

end Machine

section

variable {s s' : Store ρ η} {v : Var}

theorem act_expr (h : w.eval e s = .ok x s') : (Stmt.expr e).act w.semantics s = (.normal, s') := by
  have h' : w.semantics.eval e s = .ok x s' := h
  rw [Stmt.act, h']

theorem act_set (h : w.eval e s = .ok x s') :
    (Stmt.set v e).act w.semantics s = (.normal, s'.put v x) := by
  refine act_expr (x := x) ?_
  rw [eval, bind_of_ok h]
  rfl

theorem Var.ne_of_lt {u : Var} {n : Nat} (hu : u.index < n) (hv : n ≤ v.index) : u ≠ v := by
  rintro rfl
  omega

end

/-! ## Spilling part of a stack -/

/-- How the entries of a stack change when some are spilled: each stays, if it was not chosen, or
becomes a read of a variable that is not among the first `n`, if it was chosen or is not pure. -/
inductive Spilled (chosen : Nat → Expr → Bool) (n : Nat) : List Expr → List Expr → Prop
  | nil : Spilled chosen n [] []
  | kept {e : Expr} {es es' : List Expr} : Spilled chosen n es es' → chosen es.length e = false →
      Spilled chosen n (e :: es) (e :: es')
  | spilled {e : Expr} {es es' : List Expr} {t : Var} : Spilled chosen n es es' → n ≤ t.index →
      (chosen es.length e = true ∨ e.isPure = false) → Spilled chosen n (e :: es) (.var t :: es')

variable {chosen : Nat → Expr → Bool} {n : Nat} {es es' : List Expr}

section

variable (h : Spilled chosen n es es')
include h

theorem Spilled.trans {n' : Nat} {es'' : List Expr}
    (h' : Spilled (fun _ e => !e.isPure) n' es' es'') (hn : n ≤ n') : Spilled chosen n es es'' := by
  induction h generalizing es'' with
  | nil => cases h' <;> exact .nil
  | kept _ hc ih =>
    cases h' with
    | kept h' _ => exact .kept (ih h') hc
    | spilled h' ht hp => exact .spilled (ih h') (by omega) (.inr (by simpa using hp))
  | spilled _ ht hc ih =>
    cases h' with
    | kept h' _ => exact .spilled (ih h') ht hc
    | spilled h' ht' => exact .spilled (ih h') (by omega) hc

theorem Spilled.length : es'.length = es.length := by
  induction h <;> simp_all

/-- What holds of all entries that are not chosen, and of new variables, holds of what is left. -/
theorem Spilled.forall_mem {P : Expr → Prop} (hkept : ∀ slot, ∀ e ∈ es, chosen slot e = false → P e)
    (hvar : ∀ t : Var, n ≤ t.index → P (.var t)) : ∀ e ∈ es', P e := by
  induction h with
  | nil => simp
  | kept _ hc ih =>
    simp only [List.forall_mem_cons] at hkept ⊢
    exact ⟨(hkept _).1 hc, ih fun slot => (hkept slot).2⟩
  | spilled _ ht _ ih =>
    simp only [List.forall_mem_cons] at hkept ⊢
    exact ⟨hvar _ ht, ih fun slot => (hkept slot).2⟩

/-- What is spilled unless it is pure is pure afterwards. -/
theorem Spilled.isPure (hc : ∀ slot e, chosen slot e = false → e.isPure = true) :
    ∀ e ∈ es', e.isPure = true :=
  h.forall_mem (fun slot e _ => hc slot e) fun _ _ => rfl

end

/-- Spilling keeps what a stack evaluates to, and touches no variables but new ones. -/
def KeepsValues {ρ η : Type} [DecidableEq ρ] (w : World ρ η) (m m' : Machine) (es es' : List Expr) :
    Prop :=
  ∀ (s t : Store ρ η) (vs : List (Value ρ)), w.evalStack es s = .ok vs t →
    ∃ s', m.Passes w.semantics m' s s' ∧ w.evalStack es' s' = .ok vs ⟨s'.vars, t.memory⟩ ∧
      ∀ x : Var, x.index < m.vars.size ∨ m'.vars.size ≤ x.index → s'.vars x = s.vars x

/-- Spilling keeps what a stack evaluates to in every world. -/
def KeepsMeaning (m m' : Machine) (es es' : List Expr) : Prop :=
  ∀ {ρ η : Type} [DecidableEq ρ] (w : World ρ η), KeepsValues w m m' es es'

/-! ## Entries evaluated later -/

section

variable {r : Store ρ η} {v : Value ρ}

/-- An entry has the same value in a store with the same memory and the same variables. -/
theorem Expr.Known.eval_congr (he : e.Known n) (h : w.eval e t = .ok v t')
    (hm : r.memory = t.memory) (hr : ∀ x : Var, x.index < n → r.vars x = t.vars x) :
    w.eval e r = .ok v ⟨r.vars, t'.memory⟩ :=
  (w.stays_eval e he.plain t r v t' h hm fun x hx => hr x (he.vars x hx)).2

/-- A pure entry has the same value in a store with the same variables. -/
theorem Expr.Known.eval_pure (he : e.Known n) (hp : e.isPure = true) (h : w.eval e t = .ok v t')
    (hr : ∀ x : Var, x.index < n → r.vars x = t.vars x) : t' = t ∧ w.eval e r = .ok v r :=
  w.still_eval e he.plain hp t r v t' h fun x hx => hr x (he.vars x hx)

section

variable (hes : ∀ e ∈ es, e.Entry n)
include hes

/-- Evaluating entries leaves the variables alone. -/
theorem vars_of_evalStack (h : w.evalStack es t = .ok vs t') : t'.vars = t.vars :=
  (w.stays_evalStack (fun e he => (hes e he).plain) t t vs t' h rfl fun _ _ => rfl).1

theorem evalStack_pure (hp : ∀ e ∈ es, e.isPure = true)
    (h : w.evalStack es t = .ok vs t') (hr : ∀ x : Var, x.index < n → r.vars x = t.vars x) :
    t' = t ∧ w.evalStack es r = .ok vs r := by
  refine w.still_evalStack (fun e he => (hes e he).plain) hp t r vs t' h ?_
  rintro x ⟨e, he, hx⟩
  exact hr x ((hes e he).vars x hx)

/-- A computation can be run ahead of entries that it comes behind if it is still, or if they are
pure. -/
theorem evalStack_behind {c : Eval ρ η (Value ρ)} {V : Var → Prop} (hc : c.Stays V)
    (hp : c.Still V ∨ ∀ e ∈ es, e.isPure = true)
    (hvs : w.evalStack es r = .ok vs ⟨r.vars, t.memory⟩)
    (hv : c t = .ok v t') (hr : ∀ x, V x → r.vars x = t.vars x) :
    ∃ μ, c r = .ok v ⟨r.vars, μ⟩ ∧ ∀ r' : Store ρ η, r'.memory = μ →
      (∀ x, World.ReadBy es x → r'.vars x = r.vars x) →
      w.evalStack es r' = .ok vs ⟨r'.vars, t'.memory⟩ := by
  have hplain : ∀ e ∈ es, e.isPlain = true := fun e he => (hes e he).plain
  rcases hp with hp | hp
  · obtain ⟨rfl, hv'⟩ := hp t r v t' hv hr
    exact ⟨r.memory, hv', fun r' hm hr' => (w.stays_evalStack hplain r r' vs _ hvs hm hr').2⟩
  · obtain ⟨hsame, _⟩ := w.still_evalStack hplain hp r r vs _ hvs fun _ _ => rfl
    have hmem : r.memory = t.memory := (congrArg Store.memory hsame).symm
    refine ⟨t'.memory, (hc t r v t' hv hmem hr).2, fun r' hm hr' => ?_⟩
    rw [← hm]
    exact (w.still_evalStack hplain hp r r' vs _ hvs hr').2

end

end

/-! ## The spilling functions -/

/-- How entries are spilled one by one. An entry stays if it is not chosen. It is stored when it is
pure, or when all that stays below it is. What was spilled can be spilled further, until all that
stays is pure. -/
inductive SpillsTo (env : Env) :
    (Nat → Expr → Bool) → Machine → Machine → List Expr → List Expr → Prop
  | nil (chosen : Nat → Expr → Bool) (m : Machine) : SpillsTo env chosen m m [] []
  | keep {chosen : Nat → Expr → Bool} {m m' : Machine} {e : Expr} {es es' : List Expr} :
      SpillsTo env chosen m m' es es' → chosen es.length e = false →
      SpillsTo env chosen m m' (e :: es) (e :: es')
  | store {chosen : Nat → Expr → Bool} {m m' m'' : Machine} {e x : Expr} {es es' : List Expr} :
      SpillsTo env chosen m m' es es' → (chosen es.length e = true ∨ e.isPure = false) →
      (e.isPure = true ∨ ∀ d ∈ es', d.isPure = true) → spill env e m' = .ok x m'' →
      SpillsTo env chosen m m'' (e :: es) (x :: es')
  | again {chosen : Nat → Expr → Bool} {m m' m'' : Machine} {es es' es'' : List Expr} :
      SpillsTo env chosen m m' es es' → SpillsTo env (fun _ e => !e.isPure) m' m'' es' es'' →
      SpillsTo env chosen m m'' es es''

namespace SpillsTo

section

variable (h : SpillsTo env chosen m m' es es')
include h

/-- Spilling only adds to the machine. -/
theorem adds : m.Adds m' := by
  induction h with
  | nil => exact .refl _
  | keep _ _ ih => exact ih
  | store _ _ _ hx ih => exact ih.trans (spill_eq_ok hx).2.2.1
  | again _ _ ih ih' => exact ih.trans ih'

theorem size : m.vars.size ≤ m'.vars.size := h.adds.vars.size

theorem spilled : Spilled chosen m.vars.size es es' := by
  induction h with
  | nil => exact .nil
  | keep _ hc ih => exact .kept ih hc
  | store h hc _ hx ih =>
    obtain ⟨rfl, _⟩ := spill_eq_ok hx
    exact .spilled ih h.size hc
  | again h _ ih ih' => exact ih.trans ih' h.size

/-- What holds of all entries, and of variables of the table, holds of what is left. -/
theorem forall_mem {P : Nat → Expr → Prop} (hmono : ∀ n n' e, n ≤ n' → P n e → P n' e)
    (hvar : ∀ (n : Nat) (v : Var), v.index < n → P n (.var v)) (hes : ∀ e ∈ es, P m.vars.size e) :
    ∀ e ∈ es', P m'.vars.size e := by
  induction h with
  | nil => exact hes
  | keep h _ ih =>
    simp only [List.forall_mem_cons] at hes ⊢
    exact ⟨hmono _ _ _ h.size hes.1, ih hes.2⟩
  | store _ _ _ hx ih =>
    obtain ⟨rfl, _, hadds, hsize, _⟩ := spill_eq_ok hx
    simp only [List.forall_mem_cons] at hes ⊢
    refine ⟨hvar _ _ ?_, fun e he => hmono _ _ _ hadds.vars.size (ih hes.2 e he)⟩
    rw [hsize, VarTable.index_next]
    omega
  | again _ _ ih ih' => exact ih' (ih hes)

theorem entries (hes : ∀ e ∈ es, e.Entry m.vars.size) : ∀ e ∈ es', e.Entry m'.vars.size :=
  h.forall_mem (fun _ _ _ hn he => he.mono hn) (fun _ _ => Expr.entry_var) hes

theorem wides (hes : ∀ e ∈ es, e.Entry m.vars.size) :
    es'.map (env.isWide m'.vars) = es.map (env.isWide m.vars) := by
  induction h with
  | nil => rfl
  | keep h _ ih =>
    rw [List.forall_mem_cons] at hes
    rw [List.map_cons, List.map_cons, ih hes.2, env.isWide_of_extends h.adds.vars hes.1]
  | @store _ m m' m'' e x es es' h _ _ hx ih =>
    obtain ⟨rfl, _, hadds, _, hty, _⟩ := spill_eq_ok hx
    rw [List.forall_mem_cons] at hes
    have hwide : env.isWide m''.vars (.var m'.vars.next) = env.isWide m.vars e := by
      rw [← env.isWide_of_extends h.adds.vars hes.1]
      simp only [Env.isWide, Env.typeOf, Expr.ty]
      rw [hty, Ty.isWide_orObject]
    have hbelow : es'.map (env.isWide m''.vars) = es'.map (env.isWide m'.vars) :=
      List.map_congr_left fun e he => env.isWide_of_extends hadds.vars (h.entries hes.2 e he)
    rw [List.map_cons, List.map_cons, hwide, hbelow, ih hes.2]
  | again h _ ih ih' => exact (ih' (h.entries hes)).trans (ih hes)

end

end SpillsTo

theorem spillsTo_spillImpure (es : List Expr) (h : spillImpure env es m = .ok es' m') :
    SpillsTo env (fun _ e => !e.isPure) m m' es es' := by
  induction es generalizing m' es' with
  | nil =>
    cases h
    exact .nil ..
  | cons e es ih =>
    obtain ⟨below, m₁, hbelow, h⟩ := bind_eq_ok.1 h
    have hsteps := ih hbelow
    split at h
    · obtain ⟨rfl, rfl⟩ := pure_eq_ok.1 h
      exact hsteps.keep (by simpa)
    · rename_i hp
      obtain ⟨x, m₂, hx, h⟩ := bind_eq_ok.1 h
      obtain ⟨rfl, rfl⟩ := pure_eq_ok.1 h
      exact hsteps.store (.inr (Bool.eq_false_iff.2 hp)) (.inr (hsteps.spilled.isPure (by simp))) hx

/-- Spilling goes entry by entry, as `SpillsTo` says. -/
theorem spillsTo_spillChosen (es : List Expr) (h : spillChosen env chosen es m = .ok es' m') :
    SpillsTo env chosen m m' es es' := by
  induction es generalizing m' es' with
  | nil =>
    cases h
    exact .nil ..
  | cons e es ih =>
    obtain ⟨kept, m₁, hkept, h⟩ := bind_eq_ok.1 h
    have hsteps := ih hkept
    split at h
    · rename_i hc
      split at h
      · rename_i hp
        obtain ⟨_, _, hbelow, h⟩ := bind_eq_ok.1 h
        obtain ⟨rfl, rfl⟩ := pure_eq_ok.1 hbelow
        obtain ⟨x, m₂, hx, h⟩ := bind_eq_ok.1 h
        obtain ⟨rfl, rfl⟩ := pure_eq_ok.1 h
        exact hsteps.store (.inl hc) (.inl hp) hx
      · obtain ⟨below, m₂, hbelow, h⟩ := bind_eq_ok.1 h
        obtain ⟨x, m₃, hx, h⟩ := bind_eq_ok.1 h
        obtain ⟨rfl, rfl⟩ := pure_eq_ok.1 h
        have himpure := spillsTo_spillImpure kept hbelow
        exact (hsteps.again himpure).store (.inl hc) (.inr (himpure.spilled.isPure (by simp))) hx
    · rename_i hc
      obtain ⟨rfl, rfl⟩ := pure_eq_ok.1 h
      exact hsteps.keep (Bool.eq_false_iff.2 hc)

/-- Spilling the machine's own stack. The steps do not look at the machine's stack. -/
theorem spillsTo_spillStack (h : spillStack env chosen m = .ok () m') :
    ∃ m₁, m' = { m₁ with stack := m'.stack } ∧ SpillsTo env chosen m m₁ m.stack m'.stack := by
  simp only [spillStack, bind_eq_ok, get_eq_ok, modify_eq_ok] at h
  obtain ⟨_, _, ⟨rfl, rfl⟩, es, m₁, hes', rfl⟩ := h
  exact ⟨m₁, rfl, spillsTo_spillChosen _ hes'⟩

section

variable {m'' : Machine}

namespace KeepsValues

variable {es'' : List Expr} {x : Expr}

theorem nil (w : World ρ η) (m : Machine) : KeepsValues w m m [] [] := by
  intro s t vs hvs
  obtain ⟨rfl, rfl⟩ := evalStack_nil_eq_ok.1 hvs
  exact ⟨_, .of_out rfl, rfl, fun _ _ => rfl⟩

section

variable (h : KeepsValues w m m' es es')
include h

theorem trans (h' : KeepsValues w m' m'' es' es'')
    (hsize : m.vars.size ≤ m'.vars.size) (hsize' : m'.vars.size ≤ m''.vars.size) :
    KeepsValues w m m'' es es'' := by
  intro s t vs hvs
  obtain ⟨s₁, hemit, hvs₁, hvars⟩ := h s t vs hvs
  obtain ⟨s₂, hemit', hvs₂, hvars'⟩ := h' s₁ _ vs hvs₁
  refine ⟨s₂, hemit.trans hemit', hvs₂, fun x hx => ?_⟩
  rw [hvars' x (by omega), hvars x (by omega)]

/-- An entry that stays is evaluated behind those below it, as before. -/
theorem keep (hes : ∀ e ∈ es, e.Entry m.vars.size)
    (he : e.Entry m.vars.size) : KeepsValues w m m' (e :: es) (e :: es') := by
  intro s t vs hvs
  obtain ⟨us, v, t₁, hus, hv, rfl⟩ := evalStack_cons_eq_ok.1 hvs
  obtain ⟨s₁, hemit, hus', hvars⟩ := h s t₁ us hus
  have ht₁ := vars_of_evalStack hes hus
  have hv' : w.eval e ⟨s₁.vars, t₁.memory⟩ = .ok v ⟨s₁.vars, t.memory⟩ :=
    he.eval_congr hv rfl fun x hx => by
      rw [ht₁]
      exact hvars x (.inl hx)
  exact ⟨s₁, hemit, evalStack_cons_eq_ok.2 ⟨us, v, _, hus', hv', rfl⟩, hvars⟩

/-- An entry can be stored at once if it is pure, or if all that stays below it is. -/
theorem store (hes : ∀ e ∈ es, e.Entry m.vars.size)
    (hes' : ∀ e ∈ es', e.Entry m'.vars.size) (hsize : m.vars.size ≤ m'.vars.size)
    (he : e.Entry m.vars.size) (hp : e.isPure = true ∨ ∀ e ∈ es', e.isPure = true)
    (hx : spill env e m' = .ok x m'') : KeepsValues w m m'' (e :: es) (x :: es') := by
  obtain ⟨rfl, _, _, hsize', _, hout⟩ := spill_eq_ok hx
  intro s t vs hvs
  obtain ⟨us, v, t₁, hus, hv, rfl⟩ := evalStack_cons_eq_ok.1 hvs
  obtain ⟨s₁, hemit, hus', hvars⟩ := h s t₁ us hus
  obtain ⟨μ, hv', hus''⟩ :=
    evalStack_behind hes' (w.stays_eval e he.plain) (hp.imp_left (w.still_eval e he.plain)) hus'
    hv fun x hx => by
      rw [vars_of_evalStack hes hus]
      exact hvars x (.inl (he.vars x hx))
  refine ⟨Store.put ⟨s₁.vars, μ⟩ m'.vars.next v, hemit.trans (.one hout (act_set hv')), ?_, ?_⟩
  · refine evalStack_cons_eq_ok.2 ⟨us, v, _, hus'' _ rfl ?_, ?_, rfl⟩
    · rintro x ⟨d, hd, hx⟩
      exact Store.put_of_ne _ _ (Var.ne_of_lt ((hes' d hd).vars x hx) (Nat.le_refl _))
    · rw [eval_var]
      simp
  · intro x hx
    rw [Store.put_of_ne _ _ ?_, hvars x (by omega)]
    rintro rfl
    rw [VarTable.index_next] at hx
    omega

end

end KeepsValues

theorem SpillsTo.keepsValues (h : SpillsTo env chosen m m' es es')
    (hes : ∀ e ∈ es, e.Entry m.vars.size) : KeepsValues w m m' es es' := by
  induction h with
  | nil => exact .nil w _
  | keep _ _ ih =>
    rw [List.forall_mem_cons] at hes
    exact (ih hes.2).keep hes.2 hes.1
  | store h _ hp hx ih =>
    rw [List.forall_mem_cons] at hes
    exact (ih hes.2).store hes.2 (h.entries hes.2) h.size hes.1 hp hx
  | again h h' ih ih' => exact (ih hes).trans (ih' (h.entries hes)) h.size h'.size

/-- Spilling the machine's own stack. -/
theorem spillStack_spec (h : spillStack env chosen m = .ok () m') (hes : m.Entries) :
    m.Adds m' ∧ m'.Entries ∧ Spilled chosen m.vars.size m.stack m'.stack ∧
      m'.stack.map (env.isWide m'.vars) = m.stack.map (env.isWide m.vars) ∧
      KeepsMeaning m m' m.stack m'.stack := by
  obtain ⟨m₁, heq, hsteps⟩ := spillsTo_spillStack h
  have hadds := Machine.Adds.restack m₁ m'.stack
  rw [heq]
  exact ⟨hsteps.adds.trans hadds, hsteps.entries hes, hsteps.spilled, hsteps.wides hes,
    fun _ => hsteps.keepsValues hes⟩

/-! ## Emitting a statement -/

section

variable {st : Stmt} {writes : Option Var} {effects : Bool}

theorem emit_eq_ok (h : emit env st writes effects m = .ok () m') :
    ∃ m₁, spillStack env (fun _ e => writes.any (e.reads ·) || (effects && !e.isPure))
      m = .ok () m₁ ∧
      m' = { m₁ with out := m₁.out ++ [st] } := by
  simp only [emit, append, bind_eq_ok, modify_eq_ok] at h
  obtain ⟨_, m₁, hm₁, rfl⟩ := h
  exact ⟨m₁, hm₁, rfl⟩

/-- What emitting a statement other than a label changes. -/
theorem emit_spec (h : emit env st writes effects m = .ok () m')
    (hes : m.Entries) (hst : placedLabel? st = none) :
    m.Adds m' ∧ m'.Entries ∧ m'.stack.map (env.isWide m'.vars) =
      m.stack.map (env.isWide m.vars) := by
  obtain ⟨m₁, hm₁, rfl⟩ := emit_eq_ok h
  obtain ⟨hadds, hes₁, _, hwides, _⟩ := spillStack_spec hm₁ hes
  exact ⟨hadds.trans ⟨.refl _, ⟨[st], rfl, by simp [hst]⟩, rfl, rfl, rfl⟩, hes₁, hwides⟩

variable {s : Store ρ η}

/-- An expression statement with effects is run when all that stays on the stack is pure. -/
theorem emit_expr_runs {V : Var → Prop} (h : emit env (.expr e) none true m = .ok () m')
    (hes : m.Entries) (he : Eval.Stays V (w.eval e)) (hV : ∀ x, V x → x.index < m.vars.size)
    (hvs : w.evalStack m.stack s = .ok vs t) (hx : w.eval e t = .ok x t') :
    ∃ s', m.Passes w.semantics m' s s' ∧ w.evalStack m'.stack s' = .ok vs ⟨s'.vars, t'.memory⟩ ∧
      ∀ y : Var, y.index < m.vars.size ∨ m'.vars.size ≤ y.index → s'.vars y = s.vars y := by
  obtain ⟨m₁, hm₁, rfl⟩ := emit_eq_ok h
  obtain ⟨_, hes₁, hspilled, _, hkeep⟩ := spillStack_spec hm₁ hes
  obtain ⟨s₁, hemit, hvs₁, hvars⟩ := hkeep w s t vs hvs
  obtain ⟨μ, hx₁, hvs'⟩ :=
    evalStack_behind hes₁ he (.inr (hspilled.isPure (by simp))) hvs₁ hx fun y hy => by
    rw [vars_of_evalStack hes hvs]
    exact hvars y (.inl (hV y hy))
  exact ⟨⟨s₁.vars, μ⟩, hemit.trans (.one rfl (act_expr hx₁)), hvs' _ rfl fun _ _ => rfl, hvars⟩

/-- An assignment to a variable is run when nothing that stays on the stack reads the variable, and
all is pure that is evaluated too late otherwise. -/
theorem emit_set_runs {v : Var} (h : emit env (.set v e) (some v) (!e.isPure) m = .ok () m')
    (hes : m.Entries)
    (he : e.Known m.vars.size) (hv : v.index < m.vars.size) (hvs : w.evalStack m.stack s = .ok vs t)
    (hx : w.eval e t = .ok x t') :
    ∃ s', m.Passes w.semantics m' s s' ∧ w.evalStack m'.stack s' = .ok vs ⟨s'.vars, t'.memory⟩ ∧
      s'.vars v = x ∧
      ∀ y : Var, y ≠ v → y.index < m.vars.size ∨ m'.vars.size ≤ y.index → s'.vars y = s.vars y := by
  obtain ⟨m₁, hm₁, rfl⟩ := emit_eq_ok h
  obtain ⟨_, hes₁, hspilled, _, hkeep⟩ := spillStack_spec hm₁ hes
  obtain ⟨s₁, hemit, hvs₁, hvars⟩ := hkeep w s t vs hvs
  have hunread : ∀ e ∈ m₁.stack, .read v ∉ e.usesAs false := by
    refine hspilled.forall_mem ?_ ?_
    · intro slot e _ hc hmem
      simp [Expr.reads, Expr.uses, hmem] at hc
    · intro y hy hmem
      simp only [Expr.usesAs, Bool.false_eq_true, if_false, List.mem_singleton,
        Use.read.injEq] at hmem
      rw [hmem] at hv
      omega
  have hp : (w.eval e).Still (fun y => .read y ∈ e.usesAs false) ∨ ∀ e ∈ m₁.stack,
    e.isPure = true := by
    by_cases hp : e.isPure = true
    · exact .inl (w.still_eval e he.plain hp)
    · exact .inr (hspilled.isPure (by simp [hp]))
  obtain ⟨μ, hx₁, hvs'⟩ := evalStack_behind hes₁ (w.stays_eval e he.plain) hp hvs₁ hx fun y hy => by
    rw [vars_of_evalStack hes hvs]
    exact hvars y (.inl (he.vars y hy))
  refine ⟨Store.put ⟨s₁.vars, μ⟩ v x, hemit.trans (.one rfl (act_set hx₁)), hvs' _ rfl ?_,
    Store.put_self .., fun y hne hy => ?_⟩
  · rintro y ⟨d, hd, hy⟩
    refine Store.put_of_ne _ _ ?_
    rintro rfl
    exact hunread d hd hy
  · rw [Store.put_of_ne _ _ hne]
    exact hvars y hy

end

end

end ByteLift
