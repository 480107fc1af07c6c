import ByteLift.Proofs.Lift.Condition
import ByteLift.Proofs.Lift.FlowTo

/-!
# Lifting jumps and branches

A jump stores the stack for the label it goes to and then goes there. A branch does the same before
it knows whether it will be taken, and tests its condition last. So a condition that reads a
temporary of the label, which may be assigned by then, is evaluated before and its value kept in a
temporary of its own.
-/

namespace ByteLift

open Expr VarTable Lift

variable {ρ η : Type} [DecidableEq ρ] {w : World ρ η} {m final m' m₁ : Machine}
  {s : Store ρ η} {l : Label}
  {f : Frame ρ η} {env : Env} {target : Address} {ls : List Label} {cond cond' : Expr}

section

variable {s' : Store ρ η}

theorem act_goto {c : Expr} {v : Value ρ} (h : w.eval c s = .ok v s') :
    (Stmt.goto l (some c)).act w.semantics s = (if v.truth then .jumping l else .normal, s') := by
  have htest : w.semantics.test c s = .ok v.truth s' := map_of_ok h
  rw [Stmt.act, htest]

theorem Matches.withPc (h : Matches w env final m f s) (pc : Nat) :
    Matches w env final m { f with pc } s :=
  ⟨h.stack, h.wides, h.locals⟩

omit [DecidableEq ρ] in
theorem Arrives.withPc (h : Arrives final l f s) (pc : Nat) : Arrives final l { f with pc } s :=
  ⟨h.shape, h.temps, h.memory, h.locals⟩

end

/-! ## Jumps -/

/-- A goto is no label. -/
theorem Machine.adds_goto (m : Machine) (l : Label) (c : Option Expr) (st : List Expr) :
    m.Adds { m with out := m.out ++ [.goto l c], stack := st } :=
  ⟨.refl _, ⟨_, rfl, rfl⟩, rfl, rfl, rfl⟩

namespace Lift

theorem labelFor_eq_ok :
    labelFor env target m = .ok l m' ↔ env.flow.label? target = some l ∧ m' = m := by
  unfold labelFor
  cases h : env.flow.label? target with
  | none =>
    simp only [bind_eq_ok, get_eq_ok, throw_eq_ok, and_false, exists_false, reduceCtorEq, false_and]
  | some l' =>
    rw [pure_eq_ok]
    constructor
    · rintro ⟨rfl, rfl⟩
      exact ⟨rfl, rfl⟩
    · rintro ⟨hl, rfl⟩
      exact ⟨Option.some.inj hl, rfl⟩

theorem goto_eq_ok (h : goto env target m = .ok () m') :
    ∃ l m₁, env.flow.label? target = some l ∧ flowTo env l m = .ok () m₁ ∧
      m' = { m₁ with out := m₁.out ++ [.goto l none], stack := [] } := by
  simp only [goto, bind_eq_ok, labelFor_eq_ok, append_eq_ok, modify_eq_ok] at h
  obtain ⟨l, _, ⟨hl, rfl⟩, _, m₁, hflow, _, _, rfl, rfl⟩ := h
  exact ⟨l, m₁, hl, hflow, rfl⟩

theorem advances_goto (h : goto env target m = .ok () m') (hm : m.Coherent) (hes : m.Entries) :
    m.Advances m' := by
  obtain ⟨l, m₁, _, hflow, rfl⟩ := goto_eq_ok h
  obtain ⟨_, _, _, hflows⟩ := exists_flows hflow hm hes
  have hadv := hflows.advances
  have hadds := m₁.adds_goto l none []
  exact hadv.grows.advances (hadds.advances hadv.coherent (by simp [Machine.Entries]))

end Lift

theorem Matches.goto (hmatch : Matches w env final m f s) (hm : m.Coherent) (hes : m.Entries)
    (h : goto env target m = .ok () m') (hfinal : m'.Grows ls final) (hcoherent : final.Coherent) :
    ∃ l s', env.flow.label? target = some l ∧ m.Leaves w.semantics m' (.jumping l) s s' ∧
    Arrives final l f s' := by
  obtain ⟨l, m₁, hl, hflow, rfl⟩ := goto_eq_ok h
  obtain ⟨_, _, _, hflows⟩ := exists_flows hflow hm hes
  obtain ⟨s', hemitted, harrives, _⟩ :=
    hmatch.flows hflows ((m₁.adds_goto l none []).grows.trans hfinal) hcoherent
  exact ⟨l, s', hl, hemitted.leaves (.one rfl rfl), harrives⟩

/-! ## Branches -/

namespace Lift

/-- The state in which the value of a condition was stored in a new temporary. -/
def stored (m : Machine) (decl : VarDecl) (cond : Expr) : Machine :=
  { m with
    vars := m.vars.push decl
    temps := m.temps + 1
    out := m.out ++ [.set m.vars.next cond] }

/-- What is done with a condition before the stack is stored for a label. It is left for later if it
reads no temporary of the label that is assigned. Otherwise it is stored, behind all entries of the
stack that are not simple. -/
inductive Prepares (env : Env) (l : Label) (m : Machine) (cond : Expr) : Machine → Expr → Prop
  | later :
  (m.stack = [] ∨ ∀ j v, entered? (l, j) m.merges = some v → .read v ∉ cond.usesAs false) →
      Prepares env l m cond m cond
  | now {m₁ : Machine} {decl : VarDecl} : spillStack env (fun _ e => !e.isSimple) m = .ok () m₁ →
      Prepares env l m cond (stored m₁ decl cond) (.var m₁.vars.next)

theorem branch_eq_ok (h : branch env cond target m = .ok () m') :
    ∃ l m₁ cond' m₂, env.flow.label? target = some l ∧ Prepares env l m cond m₁ cond' ∧
      flowTo env l m₁ = .ok () m₂ ∧
      m' = { m₂ with
        out := m₂.out ++ [.goto l (some cond')], stack := merged m₂.merges l m₂.stack } := by
  simp only [branch, bind_eq_ok, labelFor_eq_ok, get_eq_ok] at h
  obtain ⟨l, _, ⟨hl, rfl⟩, _, m, ⟨rfl, rfl⟩, h⟩ := h
  split at h
  · simp only [newTemp, bind_eq_ok, get_eq_ok, set_eq_ok, pure_eq_ok, append_eq_ok,
      modify_eq_ok] at h
    obtain ⟨_, m₁, hspill, _, _, ⟨rfl, rfl⟩, _, _, ⟨_, _, ⟨rfl, rfl⟩, _, _, rfl, rfl, rfl⟩,
      _, _, rfl, _, _, ⟨rfl, rfl⟩, _, m₂, hflow, _, _, rfl, rfl⟩ := h
    exact ⟨l, _, _, m₂, hl, .now hspill, hflow, rfl⟩
  · rename_i hreads
    simp only [bind_eq_ok, pure_eq_ok, append_eq_ok, modify_eq_ok] at h
    obtain ⟨_, _, ⟨rfl, rfl⟩, _, m₂, hflow, _, _, rfl, rfl⟩ := h
    refine ⟨l, _, _, m₂, hl, .later ?_, hflow, rfl⟩
    simp only [Bool.and_eq_true, Bool.not_eq_true', not_and, Bool.not_eq_true, List.any_eq_false,
      decide_eq_true_eq] at hreads
    by_cases hempty : m.stack = []
    · exact .inl hempty
    · refine .inr fun j v hv => ?_
      have hmem := mem_of_entered? hv
      exact reads_eq_false_iff.1 (by simpa using hreads (by simpa using hempty) _ hmem rfl)

theorem Prepares.advances (h : Prepares env l m cond m₁ cond') (hm : m.Coherent) (hes : m.Entries) :
    m.Advances m₁ := by
  cases h with
  | later => exact ⟨.refl m, hm, hes⟩
  | @now m₁ decl hspill =>
    obtain ⟨hadds, hes₁, _⟩ := spillStack_spec hspill hes
    have hadds' : m.Adds (stored m₁ decl cond) :=
      hadds.trans ⟨extends_push _ _, ⟨_, rfl, rfl⟩, rfl, rfl, rfl⟩
    exact hadds'.advances hm fun e he => (hes₁ e he).mono (extends_push _ decl).size

variable {temps : List Var} {m₂ : Machine}

/-- The stack behind a branch that is not taken consists of reads of the temporaries. -/
theorem merged_eq {merges : List ((Label × Nat) × Var)} {st : List Expr}
    (hlen : temps.length = st.length)
    (hmerges : ∀ i v, temps[i]? = some v → entered? (l, i) merges = some v) :
    merged merges l st = (temps.map Expr.var).reverse := by
  induction st generalizing temps with
  | nil =>
    obtain rfl := List.eq_nil_of_length_eq_zero hlen
    rfl
  | cons e below ih =>
    obtain ⟨temps, v, rfl⟩ : ∃ ts v, temps = ts ++ [v] :=
      ⟨temps.dropLast, temps.getLast (by rintro rfl; cases hlen),
        (List.dropLast_concat_getLast _).symm⟩
    have hlen' : temps.length = below.length := by simpa using hlen
    have hv := hmerges below.length v (by rw [← hlen', List.getElem?_concat_length])
    rw [merged, hv, List.map_append, List.reverse_append, ih hlen' fun i u hu => hmerges i u ?_]
    · rfl
    · have hi := (List.getElem?_eq_some_iff.1 hu).1
      rw [List.getElem?_append_left hi, hu]

/-- A variable is assigned on the way to a label only if it is a temporary of the label. -/
theorem Flows.not_mem (h : Flows env l m m₁ m₂ m' temps) {x : Var} (hx : x.index < m.vars.size)
    (hnot : m.stack = [] ∨ ∀ i, entered? (l, i) m.merges ≠ some x) : x ∉ temps := by
  intro hmem
  obtain ⟨i, hi⟩ := List.mem_iff_getElem?.1 hmem
  rcases hnot with hempty | hnot
  · have hlt := (List.getElem?_eq_some_iff.1 hi).1
    rw [h.length, hempty] at hlt
    cases hlt
  · rcases h.settles.advances.grows.new_merges _ _ (h.merges i x hi) with hold | hnew
    · exact hnot i hold
    · omega

/-- Behind a branch the stack is in the temporaries of the label. -/
theorem Flows.merged {c : Option Expr} (h : Flows env l m m₁ m₂ m' temps) :
    Machine.Merged { m' with out := m'.out ++ [.goto l c], stack := merged m'.merges l m'.stack } l
      temps := by
  obtain ⟨_, _, hspilled, _⟩ := spillStack_spec h.spill h.settles.advances.entries
  have hmerges : ∀ i v, temps[i]? = some v → entered? (l, i) m'.merges = some v :=
    fun i v hv => h.adds.grows.merges _ _ (h.merges i v hv)
  have hlen : temps.length = m'.stack.length := by
    rw [h.length, h.out, hspilled.length, h.settles.stack]
  obtain ⟨shape, hl, hshape⟩ := h.shape
  refine ⟨merged_eq hlen hmerges, hmerges, shape, h.adds.shapes ▸ hl, ?_⟩
  rw [h.length, ← List.length_map Ty.isWide, hshape, List.length_reverse, List.length_map]

theorem advances_branch (h : branch env cond target m = .ok () m') (hm : m.Coherent)
    (hes : m.Entries) : m.Advances m' := by
  obtain ⟨l, m₁, cond', m₂, _, hprepares, hflow, rfl⟩ := branch_eq_ok h
  have hadv := hprepares.advances hm hes
  obtain ⟨_, _, _, hflows⟩ := exists_flows hflow hadv.coherent hadv.entries
  have hadv₂ := hflows.advances
  have hadds := m₂.adds_goto l (some cond') (merged m₂.merges l m₂.stack)
  have hcoherent := hadds.coherent hadv₂.coherent
  exact ⟨hadv.grows.trans (hadv₂.grows.trans hadds.grows), hcoherent,
    hflows.merged.entries hcoherent⟩

end Lift

section

variable {c : Value ρ} {μ : Memory ρ η}

/-- A condition that was prepared still comes out the same after the temporaries of the label have
been assigned. -/
theorem Lift.Prepares.runs (h : Lift.Prepares env l m cond m₁ cond')
    (hmatch : Matches w env final m f s)
    (hm : m.Coherent) (hes : m.Entries) (hfinal : m₁.Grows ls final)
    (hknown : cond.Known m.vars.size) (hcond : w.eval cond ⟨s.vars, f.memory⟩ = .ok c ⟨s.vars, μ⟩) :
    ∃ s₁ μ₁, m.Passes w.semantics m₁ s s₁ ∧ Matches w env final m₁ { f with memory := μ₁ } s₁ ∧
      ∀ s' : Store ρ η, s'.memory = μ₁ → (∀ x : Var, x.index < m₁.vars.size →
          (m₁.stack = [] ∨ ∀ j, entered? (l, j) m₁.merges ≠ some x) → s'.vars x = s₁.vars x) →
        w.eval cond' s' = .ok c ⟨s'.vars, μ⟩ := by
  cases h with
  | later hreads =>
    refine ⟨s, f.memory, .of_out rfl, hmatch, fun s' hmem hvars => ?_⟩
    refine (w.stays_eval cond hknown.plain _ s' c _ hcond hmem fun x hx =>
      hvars x (hknown.vars x hx) ?_).2
    exact hreads.imp_right fun hreads j hj => hreads j x hj hx
  | @now m₁ decl hspill =>
    have hadds : m₁.Adds (stored m₁ decl cond) := ⟨extends_push _ _, ⟨_, rfl, rfl⟩, rfl, rfl, rfl⟩
    obtain ⟨hadds₁, hes₁, hspilled, _⟩ := spillStack_spec hspill hes
    have hm₁ := hadds₁.coherent hm
    obtain ⟨s₁, hemitted, hmatch₁, hvars⟩ :=
      hmatch.spillStack hm hes hspill (hadds.grows.trans hfinal)
    -- What is left on the stack is pure, so the condition is evaluated in the memory it is meant
    -- for.
    have hpure : ∀ e ∈ m₁.stack, e.isPure = true :=
      hspilled.isPure fun _ e hc => isPure_of_isSimple (by simpa using hc)
    have hmem := (evalStack_pure hes₁ hpure hmatch₁.stack (r := s₁) fun _ _ => rfl).1
    have hcond₁ := hknown.eval_congr (r := s₁) hcond (congrArg Store.memory hmem).symm hvars
    have hput : ∀ x : Var, x.index < m₁.vars.size →
      (Store.put ⟨s₁.vars, μ⟩ m₁.vars.next c).vars x = s₁.vars x :=
      fun x hx => Store.put_of_ne _ _ (Var.ne_of_lt hx (Nat.le_refl _))
    refine ⟨Store.put ⟨s₁.vars, μ⟩ m₁.vars.next c, μ, hemitted.trans (.one rfl (act_set hcond₁)),
      ⟨?_, ?_, ?_⟩, fun s' hmem' hvars' => ?_⟩
    · exact (evalStack_pure hes₁ hpure hmatch₁.stack hput).2
    · refine Eq.trans (List.map_congr_left fun e he => ?_) hmatch₁.wides
      exact env.isWide_of_extends hadds.vars (hes₁ e he)
    · refine hmatch₁.locals.of_vars fun k v hk => Store.put_of_ne _ _ ?_
      rintro rfl
      have hold := hadds.old_or_later hm₁ hfinal hk
      have hsize : (stored m₁ decl cond).vars.size = m₁.vars.size + 1 := size_push _ _
      rw [hsize, index_next] at hold
      omega
    · have hnext : m₁.vars.next.index < (stored m₁ decl cond).vars.size := by
        show _ < (m₁.vars.push decl).size
        rw [size_push, index_next]
        omega
      rw [World.eval_var, hvars' _ hnext (.inr fun j hj => ?_), Store.put_self, ← hmem']
      have hlt := (hm₁.merges l j _ hj).1
      rw [index_next] at hlt
      omega

/-- A branch goes to its label or runs on, as its condition comes out. -/
theorem Matches.branch (hmatch : Matches w env final m f s) (hm : m.Coherent) (hes : m.Entries)
    (h : branch env cond target m = .ok () m') (hfinal : m'.Grows ls final)
    (hcoherent : final.Coherent) (hknown : cond.Known m.vars.size)
    (hcond : w.eval cond ⟨s.vars, f.memory⟩ = .ok c ⟨s.vars, μ⟩) :
    ∃ l s', env.flow.label? target = some l ∧
      if c.truth then
        m.Leaves w.semantics m' (.jumping l) s s' ∧ Arrives final l { f with memory := μ } s'
      else m.Passes w.semantics m' s s' ∧ Matches w env final m' { f with memory := μ } s' := by
  obtain ⟨l, m₁, cond', m₂, hl, hprepares, hflow, rfl⟩ := branch_eq_ok h
  have hadv := hprepares.advances hm hes
  obtain ⟨_, _, temps, hflows⟩ := exists_flows hflow hadv.coherent hadv.entries
  have hadds := m₂.adds_goto l (some cond') (merged m₂.merges l m₂.stack)
  have hfinal₂ := hadds.grows.trans hfinal
  obtain ⟨s₁, μ₁, hemitted, hmatch₁, heval⟩ :=
    hprepares.runs hmatch hm hes (hflows.advances.grows.trans hfinal₂) hknown hcond
  obtain ⟨s₂, hemitted₂, harrives, hvars⟩ := hmatch₁.flows hflows hfinal₂ hcoherent
  have hcond' := heval s₂ harrives.memory fun x hx hnot => hvars x hx (hflows.not_mem hx hnot)
  have hact := act_goto (l := l) hcond'
  have harrives' : Arrives final l { f with memory := μ } ⟨s₂.vars, μ⟩ :=
    ⟨harrives.shape, harrives.temps, rfl, harrives.locals.of_vars fun _ _ _ => rfl⟩
  refine ⟨l, ⟨s₂.vars, μ⟩, hl, ?_⟩
  split
  · rename_i htruth
    rw [if_pos htruth] at hact
    exact ⟨(hemitted.trans hemitted₂).leaves (.one rfl hact), harrives'⟩
  · rename_i htruth
    rw [if_neg htruth] at hact
    exact ⟨(hemitted.trans hemitted₂).trans (.one rfl hact),
      harrives'.matches hflows.merged (hadds.coherent hflows.advances.coherent) hfinal⟩

end

end ByteLift
