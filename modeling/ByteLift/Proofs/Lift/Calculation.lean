import ByteLift.Proofs.Lift.Rows

/-!
# Lifting instructions that only compute

Divisions stay pending on the stack of the lifting machine. The values on the frame's stack can be
computed from the variables. Once the stack machine has thrown, an entry throws, and each
instruction keeps it, stores it or makes it part of another one; only where entries are dropped it
may be lost.
-/

namespace ByteLift

open Expr Lift Interpretation
open World hiding null

variable {env : Env} {m m' : Machine} {i : Instruction} {vars : VarTable}
  {top : List Expr} {e : Expr}

/-- The instructions of code without branches that computes with what is on the stack and in
locals. -/
def Instruction.calculates : Instruction → Bool
  | nop | aconstNull | iconst _ | lconst _ | fconst _ | dconst _ | ldc _ | load .. | store ..
  | iinc .. | pop | pop2 | dup | dupX1 | dupX2 | dup2 | dup2X1 | dup2X2 | swap | arith .. | neg _
  | convert _ | compare _ | methodReturn _ => true
  | _ => false

/-! ## What always holds -/

/-- Each local has a variable of its own, and the entries of the stack are made of variables,
without effects. -/
structure Machine.Tidy (m : Machine) : Prop extends m.OwnLocals where
  entries : m.Entries
  quiet : ∀ e ∈ m.stack, e.hasEffects = false

section

variable {m₁ : Machine} {st : List Expr}

theorem Machine.OwnLocals.of_adds (h : m.OwnLocals) (hadds : m.Adds m') : m'.OwnLocals where
  known k l hk := by
    rw [hadds.locals] at hk
    obtain ⟨v, hl, hv⟩ := h.known k l hk
    exact ⟨v, hl, Nat.lt_of_lt_of_le hv hadds.vars.size⟩
  inj k k' v hk hk' := by
    rw [hadds.locals] at hk hk'
    exact h.inj k k' v hk hk'

/-- A tidy machine stays tidy when something is added, if its stack does. -/
theorem Machine.Tidy.of_adds (h : m.Tidy) (hadds : m.Adds m') (hentries : m'.Entries)
    (hquiet : ∀ e ∈ m'.stack, e.hasEffects = false) : m'.Tidy :=
  ⟨h.toOwnLocals.of_adds hadds, hentries, hquiet⟩

variable {es : List Expr}

/-- The stack can be any that is made of what there was. -/
theorem Machine.Tidy.withStack (h : m.Tidy) {asked : List Query} (hes : ∀ e ∈ es, e ∈ m.stack) :
    Machine.Tidy { m with stack := es, asked } :=
  h.of_adds (.of_eq rfl rfl rfl rfl rfl) (fun e he => h.entries e (hes e he)) fun e he =>
    h.quiet e (hes e he)

theorem Machine.Tidy.withAddress (h : m.Tidy) (address : Address) :
    Machine.Tidy { m with address } :=
  h.of_adds (.of_eq rfl rfl rfl rfl rfl) h.entries h.quiet

theorem Machine.Tidy.spillStack {chosen : Nat → Expr → Bool} (h : m.Tidy)
    (hspill : Lift.spillStack env chosen m = .ok () m₁) : m₁.Tidy := by
  obtain ⟨hadds, hes, hspilled, _⟩ := spillStack_spec hspill h.entries
  exact h.of_adds hadds hes (hspilled.forall_mem (fun _ e he _ => h.quiet e he)
    fun t _ => by simp [hasEffects, subexprs, isEffect])

theorem Machine.Tidy.emit {x : Stmt} {writes : Option Var} {effects : Bool} (h : m.Tidy)
    (hemit : Lift.emit env x writes effects m = .ok () m') (hx : Flat.placedLabel? x = none) :
    m'.Tidy := by
  obtain ⟨m₁, hspill, rfl⟩ := emit_eq_ok hemit
  have h₁ := h.spillStack hspill
  exact h₁.of_adds ⟨.refl _, ⟨[x], rfl, by simp [hx]⟩, rfl, rfl, rfl⟩ h₁.entries h₁.quiet

theorem Makes.hasEffects {gives : Bool} (h : Makes env vars i gives top e)
    (hi : i.calculates = true) (htop : ∀ a ∈ top, a.hasEffects = false) : e.hasEffects = false := by
  cases h with
  | aconstNull | iconst | lconst | fconst | dconst | ldc =>
    simp [Expr.hasEffects, null, int, subexprs, isEffect]
  | arith op kind b a | compare kind b a =>
    have ha := htop a (by simp)
    have hb := htop b (by simp)
    simp only [Expr.hasEffects] at ha hb ⊢
    simp [subexprs, isEffect, ha, hb]
  | neg kind a | convert kind a =>
    have ha := htop a (by simp)
    simp only [Expr.hasEffects] at ha ⊢
    simp [subexprs, isEffect, ha]
  | _ => cases hi

/-- Instructions that make an expression of entries put it in their place. -/
theorem Lift.step_makes_of_calculates (h : step env i m = .ok () m') (hes : m.Entries)
    (hi : i.calculates = true) (hmakes : i.makesExpr = true) :
    ∃ top st e asked, m.stack = top ++ st ∧ Makes env m.vars i true top e ∧
      m' = { m with stack := e :: st, asked } := by
  have hctor : ∀ kind r, i = .invoke kind r →
    (env.method r (kind = .static)).isConstructor = false := by
    rintro kind r rfl
    cases hi
  obtain ⟨gives, top, st, e, hst, hmade, asked, hputs⟩ := step_makes h hes hmakes hctor
  have hgives : gives = true := by
    cases hmade with
    | arrayStore | putField | putStatic | invoke => cases hi
    | _ => rfl
  subst hgives
  exact ⟨top, st, e, asked, hst, hmade, hputs⟩

/-- Entries without effects are dropped without a trace. -/
theorem Lift.discard_of_quiet (h : discard env es m = .ok () m')
    (hes : ∀ e ∈ es, e.hasEffects = false) : m' = m := by
  induction es with
  | nil => exact (pure_eq_ok.1 h).2.symm
  | cons e es ih =>
    rw [List.forall_mem_cons] at hes
    rw [discard, hes.1] at h
    exact ih h hes.2

/-- Takes words off the stack and drops them. -/
theorem Lift.drop_eq_ok_of_quiet {n : Nat}
    (h : (takeWords env n >>= fun es => discard env es.reverse) m = .ok () m')
    (hquiet : ∀ e ∈ m.stack, e.hasEffects = false) :
    ∃ top st, takeWords env n m = .ok top { m with stack := st } ∧ m.stack = top ++ st ∧
      m' = { m with stack := st } ∧
      ∀ {ρ : Type} (vs us : List (Value ρ)), top.map (env.isWide m.vars) = vs.map Value.isWide →
        Frame.takeWords n (vs ++ us) = some (vs, us) := by
  obtain ⟨top, _, htop, h⟩ := bind_eq_ok.1 h
  obtain ⟨st, hst, rfl, htake⟩ := takeWords_eq_ok htop
  refine ⟨top, st, htop, hst, discard_of_quiet h fun e he => hquiet e ?_, htake⟩
  simp [hst, List.mem_reverse.1 he]

/-- The variable that a store chooses is known, and is of no other local. -/
theorem Machine.Tidy.localForStore {slot : Nat} {kind : LocalKind} {ty : Ty} {v : Var} (h : m.Tidy)
    (hv : Lift.localForStore slot kind ty m = .ok v m') :
    m'.Tidy ∧ v.index < m'.vars.size ∧ m'.stack = m.stack ∧ m'.out = m.out ∧
      m.vars.Extends m'.vars ∧ entered? (slot, kind) m'.locals = some (.var v) ∧
      ∀ k, k ≠ (slot, kind) → entered? k m'.locals = entered? k m.locals := by
  rcases localForStore_cases hv with ⟨hk, hm'⟩ | ⟨_, rfl, decl, _, rfl⟩
  · have hext : m.Adds m' ∧ m'.stack = m.stack ∧ m'.out = m.out := by
      rcases hm' with rfl | ⟨hwide, rfl⟩
      · exact ⟨.refl m', rfl, rfl⟩
      · exact ⟨⟨VarTable.extends_setTy _ hwide, ⟨[], by simp, rfl⟩, rfl, rfl, rfl⟩, rfl, rfl⟩
    obtain ⟨hadds, hstack, hout⟩ := hext
    have hk' : entered? (slot, kind) m'.locals = some (.var v) := by rw [hadds.locals, hk]
    have htidy : m'.Tidy := h.of_adds hadds
      (by intro e he; exact (h.entries e (hstack ▸ he)).mono hadds.vars.size) (hstack ▸ h.quiet)
    have hlt := htidy.index_lt hk'
    exact ⟨htidy, hlt, hstack, hout, hadds.vars, hk', fun k _ => by rw [hadds.locals]⟩
  · have hext := VarTable.extends_push m.vars decl
    have hlocals (k : Nat × LocalKind) : entered? k (m.withLocal (slot, kind) decl).locals =
        if k = (slot, kind) then some (.var m.vars.next) else entered? k m.locals :=
      entered?_withLocal k
    exact ⟨⟨h.toOwnLocals.withLocal, fun e he => (h.entries e he).mono hext.size, h.quiet⟩,
      by simp [withLocal], rfl,
      rfl, hext, by rw [hlocals, if_pos rfl], fun k hk => by rw [hlocals, if_neg hk]⟩

/-- Each instruction leaves the machine tidy. -/
theorem Machine.Tidy.step (h : m.Tidy) (hstep : Lift.step env i m = .ok () m')
    (hi : i.calculates = true) (hstatic : env.isStatic = true) : m'.Tidy := by
  have hmade (hmakes : i.makesExpr = true) : m'.Tidy := by
    obtain ⟨top, st, e, asked, hst, hmade, rfl⟩ :=
      step_makes_of_calculates hstep h.entries hi hmakes
    have htop : ∀ a ∈ top, a.Entry m.vars.size := fun a ha => h.entries a (by simp [hst, ha])
    refine h.of_adds (.of_eq rfl rfl rfl rfl rfl) ?_ ?_
    · exact List.forall_mem_cons.2 ⟨hmade.entry rfl htop,
        fun d hd => h.entries d (by simp [hst, hd])⟩
    · refine List.forall_mem_cons.2 ⟨hmade.hasEffects hi fun a ha =>
        h.quiet a (by simp [hst, ha]), ?_⟩
      exact fun d hd => h.quiet d (by simp [hst, hd])
  cases i with
  | nop =>
    obtain ⟨_, rfl⟩ := pure_eq_ok.1 hstep
    exact h
  | load kind slot =>
    obtain ⟨v, hk, rfl⟩ := load_eq_ok hstep h.toOwnLocals
    have hv := h.index_lt hk
    refine h.of_adds (.of_eq rfl rfl rfl rfl rfl) ?_ ?_
    · exact List.forall_mem_cons.2 ⟨entry_var hv, h.entries⟩
    · exact List.forall_mem_cons.2 ⟨by simp [Expr.hasEffects, subexprs, isEffect], h.quiet⟩
  | store kind slot =>
    obtain ⟨value, st, v, m₁, hst, hlocal, hemit⟩ := store_eq_ok hstep hstatic
    have h₀ : Machine.Tidy { m with stack := st } := h.withStack fun e he => by simp [hst, he]
    exact (h₀.localForStore hlocal).1.emit hemit rfl
  | iinc slot amount =>
    obtain ⟨v, e, _, _, _, hemit⟩ := iinc_eq_ok hstep h.toOwnLocals
    exact h.emit hemit rfl
  | pop | pop2 =>
    obtain ⟨top, st, _, hst, rfl, _⟩ := drop_eq_ok_of_quiet hstep h.quiet
    exact h.withStack fun e he => by simp [hst, he]
  | dup | dupX1 | dupX2 | dup2 | dup2X1 | dup2X2 =>
    obtain ⟨_, _, _, m₁, top, below, st, _, hspill, hgroups, rfl⟩ := duplicate_eq_ok hstep
    refine (h.spillStack hspill).withStack fun e he => ?_
    rw [hgroups.stack]
    simp only [List.mem_append] at he ⊢
    tauto
  | swap =>
    obtain ⟨_, _, _, m₁, a, b, st, _, _, hspill, hst, rfl⟩ := swap_eq_ok hstep
    refine (h.spillStack hspill).withStack fun e he => ?_
    rw [hst]
    simp only [List.mem_cons] at he ⊢
    tauto
  | methodReturn kind =>
    have hexit {y : Stmt} (hy : Flat.placedLabel? y = none) :
        Machine.Tidy { m with stack := [], out := m.out ++ [y] } :=
      h.of_adds ⟨.refl _, ⟨[y], rfl, by simp [hy]⟩, rfl, rfl,
        rfl⟩ (by simp [Machine.Entries]) (by simp)
    cases kind with
    | none =>
      obtain ⟨_, rfl⟩ := return_eq_ok hstep
      exact hexit rfl
    | some kind =>
      obtain ⟨value, _, rfl⟩ :=
        exit_eq_ok (y := fun e => .ret (some (e.coerce env.returnType))) hstep
      exact hexit rfl
  | aconstNull | iconst | lconst | fconst | dconst | ldc | arith | neg | convert | compare =>
    exact hmade rfl
  | _ => cases hi

end

/-- The variables of locals take as many words as the values they are for. -/
def Machine.WideLocals (m : Machine) : Prop :=
  ∀ k v, entered? k m.locals = some (.var v) → (m.vars.ty v).isWide = k.2.isWide

variable {ρ : Type} {op : ArithOp}

theorem Machine.WideLocals.of_adds (h : m.WideLocals) (hm : m.OwnLocals) (hadds : m.Adds m') :
    m'.WideLocals := by
  intro k v hk
  rw [hadds.locals] at hk
  have hlt := hm.index_lt hk
  exact (hadds.vars.wide v hlt).trans (h k v hk)

theorem Machine.WideLocals.localForStore {slot : Nat} {kind : LocalKind} {ty : Ty} {v : Var}
    (h : m.WideLocals) (hm : m.OwnLocals) (hv : Lift.localForStore slot kind ty m = .ok v m')
    (hty : kind = .reference → ty.isWide = false) : m'.WideLocals := by
  rcases localForStore_cases hv with ⟨_, rfl | ⟨hwide, rfl⟩⟩ | ⟨_, rfl, decl, hdecl, rfl⟩
  · exact h
  · exact h.of_adds hm ⟨VarTable.extends_setTy _ hwide, ⟨[], by simp, rfl⟩, rfl, rfl, rfl⟩
  · intro k u hk
    rw [entered?_withLocal] at hk
    split at hk
    · rename_i hkey
      cases hk
      show ((m.vars.push decl).ty m.vars.next).isWide = _
      rw [VarTable.ty_push_next, hdecl, isWide_localTy hty, hkey]
    · have hlt := hm.index_lt hk
      exact ((VarTable.extends_push m.vars decl).wide u hlt).trans (h k u hk)

/-! ## Values of what is made -/

theorem Value.isZero_cases {kind : NumKind} {y : Value ρ} (h : y.isZero = true)
    (hkind : y.kind = kind.kind) : kind.ty = .int ∨ kind.ty = .long := by
  cases y with
  | int =>
    cases kind with
    | int => exact .inl rfl
    | _ => cases hkind
  | long =>
    cases kind with
    | long => exact .inr rfl
    | _ => cases hkind
  | _ => cases h

theorem Lift.arithTy_of_isDivision (h : op.isDivision = true) (kind : NumKind) (left right : Ty) :
    arithTy (.ofArith op) kind left right = kind.ty := by
  have hbitwise : (BinOp.ofArith op).isBitwise = false := by
    cases op with
    | div | rem => rfl
    | _ => cases h
  rw [arithTy, hbitwise]
  rfl

/-- A division takes two operands of one kind. -/
theorem World.kind_of_isDivision {η : Type} {w : World ρ η} {a b v : Value ρ}
    (h : w.arith op a b = some v) (hop : op.isDivision = true) : b.kind = a.kind := by
  have hshift : op.isShift = false := by
    cases op with
    | div | rem => rfl
    | _ => cases hop
  unfold arith at h
  rw [hshift] at h
  split at h
  case h_3 | h_6 => cases h
  all_goals rfl

section

variable {η : Type} [DecidableEq ρ] {w : World ρ η} {exception : ρ} {vals : Var → Value ρ} {n : Nat}
  {gives : Bool} {vs st st' : List (Value ρ)} {f : Frame ρ η}

section

variable (h : Makes env vars i gives top e)
include h

/-- What is made of an entry that throws throws. -/
theorem Makes.value?_eq_none (hi : i.calculates = true) (htop : ∀ a ∈ top, a.Entry n)
    (hnone : (w.throwing exception).values? vals top = none) :
    (w.throwing exception).value? vals e = none := by
  have hpart (hstrict : e.isStrict = true)
      (hfinish : ∀ vs, (w.throwing exception).finish e vs =
      (w.throwing exception).perform e.head vs)
      (hparts : ∀ d, d ∈ e.parts ↔ d ∈ top) : (w.throwing exception).value? vals e = none := by
    obtain ⟨d, hd, hnone⟩ := values?_eq_none.1 hnone
    rw [value?_eq_result? hstrict (fun d hd => (htop d ((hparts d).1 hd)).isWriteFree) hfinish,
      values?_eq_none.2 ⟨d, (hparts d).2 hd, hnone⟩]
    rfl
  cases h with
  | aconstNull | iconst | lconst | fconst | dconst | ldc => cases hnone
  | neg | convert => exact hpart rfl (fun _ => rfl) fun _ => .rfl
  | arith op =>
    exact hpart (by cases op <;> rfl) (fun _ => rfl) fun d => by simp [parts, children, or_comm]
  | compare => exact hpart rfl (fun _ => rfl) fun d => by simp [parts, children, or_comm]
  | _ => cases hi

/-- What is made by a division by zero throws. -/
theorem Makes.value?_of_dividesByZero (htop : ∀ a ∈ top, a.Entry n)
    (hvs : (w.throwing exception).values? vals top = some vs) (hf : f.stack = vs ++ st)
    (hzero : f.dividesByZero i = true) : (w.throwing exception).value? vals e = none := by
  cases h with
  | arith op kind b a =>
    obtain ⟨y, x, hy, hx, rfl⟩ := values?_two_eq_some.1 hvs
    simp only [Frame.dividesByZero, hf, List.cons_append, Bool.and_eq_true,
      decide_eq_true_eq] at hzero
    obtain ⟨⟨⟨hop, hyzero⟩, _⟩, hkind⟩ := hzero
    rw [value?_binary (htop a (by simp)).isWriteFree (htop b (by simp)).isWriteFree, hx, hy,
      Lift.arithTy_of_isDivision hop]
    simp [hop, hyzero, Value.isZero_cases hyzero hkind]
  | _ => cases hzero

/-- The expression has the value that the instruction computes from the values of the entries, and
takes as many words as the value, unless the instruction divides by zero. -/
theorem Makes.value?_eq_some {ctx : Context} {μ μ' : Memory ρ η} (hi : i.calculates = true)
    (htop : ∀ a ∈ top, a.Entry n) (hvs : (w.throwing exception).values? vals top = some vs)
    (hwides : top.map (env.isWide vars) = vs.map Value.isWide) (hf : f.stack = vs ++ st)
    (hzero : f.dividesByZero i = false) (hrun : w.compute ctx i (vs ++ st) μ = some (st', μ')) :
    ∃ x, (w.throwing exception).value? vals e = some x ∧ st' = x :: st ∧ μ' = μ ∧
      env.isWide vars e = x.isWide := by
  cases h with
  | aconstNull | iconst | lconst | fconst | dconst =>
    cases hvs
    cases hrun
    exact ⟨_, value?_lit _, rfl, rfl, rfl⟩
  | ldc c =>
    cases hvs
    cases hrun
    cases c <;> exact ⟨_, value?_lit _, rfl, rfl, rfl⟩
  | neg kind a =>
    obtain ⟨x, hx, rfl⟩ := values?_one_eq_some.1 hvs
    unfold compute at hrun
    simp only [List.cons_append] at hrun
    split at hrun <;> cases hrun
    rename_i hkind
    refine ⟨_, by rw [value?_neg (htop a (by simp)).isWriteFree, hx]; rfl, rfl, rfl, ?_⟩
    rw [Value.isWide, kind_neg, hkind, ← kind.isWide_ty]
    rfl
  | convert c a =>
    obtain ⟨x, hx, rfl⟩ := values?_one_eq_some.1 hvs
    unfold compute at hrun
    simp only [List.cons_append] at hrun
    split at hrun
    · obtain ⟨hkind, rfl, rfl⟩ := expect_eq_some hrun
      have hprim : c.target.isPrimitive = true := by cases c <;> rfl
      refine ⟨_, ?_, rfl, rfl, ?_⟩
      · rw [value?_cast (htop a (by simp)).isWriteFree, hx, Option.map_some, if_pos hprim]
      · rw [Value.isWide, hkind, LocalKind.isWide_ofTy]
        rfl
    · cases hrun
  | compare kind b a =>
    obtain ⟨y, x, hy, hx, rfl⟩ := values?_two_eq_some.1 hvs
    obtain ⟨z, hz, heq⟩ := Option.map_eq_some_iff.1 hrun
    cases heq
    refine ⟨z, ?_, rfl, rfl, ?_⟩
    · rw [value?_threeWay (htop a (by simp)).isWriteFree (htop b (by simp)).isWriteFree, hx, hy]
      simp only [Option.bind_some, Option.map_some, hz, Option.getD_some]
    · rw [World.threeWay] at hz
      split at hz <;> cases hz
      rfl
  | arith op kind b a =>
    obtain ⟨y, x, hy, hx, rfl⟩ := values?_two_eq_some.1 hvs
    unfold compute at hrun
    simp only [List.cons_append] at hrun
    split at hrun
    · rename_i hkind
      obtain ⟨z, hz, heq⟩ := Option.map_eq_some_iff.1 hrun
      cases heq
      refine ⟨z, ?_, rfl, rfl, ?_⟩
      · -- The operands are of one kind, so a zero divisor is a zero of the instruction's kind.
        have hnonzero : ¬ (op.isDivision = true ∧ y.isZero = true) := by
          rintro ⟨hop, hyzero⟩
          simp [Frame.dividesByZero, hf, hop, hyzero, hkind, kind_of_isDivision hz hop] at hzero
        rw [value?_binary (htop a (by simp)).isWriteFree (htop b (by simp)).isWriteFree, hx, hy,
          Option.bind_some, Option.bind_some, hz, if_neg, Option.getD_some]
        simp only [Bool.and_eq_true]
        exact fun hcond => hnonzero ⟨hcond.1.1, hcond.2⟩
      · rw [Value.isWide, kind_arith hz, hkind]
        have hwide : env.isWide vars a = x.isWide := (List.cons.inj (List.cons.inj hwides).2).1
        exact Lift.isWide_arithTy _ _ (hwide.trans (congrArg LocalKind.isWide hkind))
    · cases hrun
  | _ => cases hi

end

end

end ByteLift
