import ByteLift.Proofs.Lift.Rearrange
import ByteLift.Proofs.Lift.Switch

/-!
# Lifting one instruction

What an instruction does to a frame, the statements emitted for it do to the variables and the
memory. They leave the method as the instruction does, or go to the label of the address it jumps
to, or run on to a state that matches the frame again.
-/

namespace ByteLift

open Expr
open World hiding null

variable {env : Env} {m m' final : Machine} {i : Instruction} {target : Address}
  {ctx : Context} {code : Code}
  {ρ η : Type} [DecidableEq ρ] {w : World ρ η} {f : Frame ρ η} {s : Store ρ η} {ls : List Label}

/-! ## Leaving the method -/

namespace Lift

theorem ensureEmpty_eq_ok {u : Unit} : ensureEmpty m = .ok u m' ↔ m.stack = [] ∧ m' = m := by
  simp only [ensureEmpty, bind_eq_ok, get_eq_ok]
  constructor
  · rintro ⟨_, m, ⟨rfl, rfl⟩, h⟩
    split at h
    · cases h
    · rename_i hempty
      obtain ⟨_, rfl⟩ := pure_eq_ok.1 h
      exact ⟨by simpa using hempty, rfl⟩
  · rintro ⟨hempty, rfl⟩
    refine ⟨m', m', ⟨rfl, rfl⟩, ?_⟩
    rw [hempty]
    rfl

/-- An exit finds nothing but its operand on the stack. -/
theorem exit_eq_ok {y : Expr → Stmt}
    (h : (do let value ← pop; ensureEmpty; append [y value]) m = .ok () m') :
    ∃ value, m.stack = [value] ∧ m' = { m with stack := [], out := m.out ++ [y value] } := by
  simp only [bind_eq_ok, pop_eq_ok, ensureEmpty_eq_ok, append_eq_ok] at h
  obtain ⟨value, _, ⟨st, hst, rfl⟩, _, _, ⟨hempty, rfl⟩, rfl⟩ := h
  obtain rfl : st = [] := hempty
  exact ⟨value, hst, rfl⟩

theorem return_eq_ok (h : step env (.methodReturn none) m = .ok () m') :
    m.stack = [] ∧ m' = { m with stack := [], out := m.out ++ [.ret none] } := by
  simp only [step, bind_eq_ok, ensureEmpty_eq_ok, append_eq_ok] at h
  obtain ⟨_, m, ⟨hempty, rfl⟩, rfl⟩ := h
  exact ⟨hempty, by rw [← hempty]⟩

theorem advances_exit {y : Stmt} (hm : m.Coherent) (hy : Flat.placedLabel? y = none) :
    m.Advances { m with stack := [], out := m.out ++ [y] } := by
  have hadds : m.Adds { m with stack := [], out := m.out ++ [y] } :=
    ⟨.refl _, ⟨[y], rfl, by simp [hy]⟩, rfl, rfl, rfl⟩
  exact hadds.advances hm (by simp [Machine.Entries])

/-! ## Conditions that instructions make -/

/-- The condition that a branch makes of the entries it takes, the topmost first, and where it
goes. -/
inductive Tests (env : Env) (vars : VarTable) : Instruction → List Expr → Expr → Address → Prop
  | ifZero (op : CompareOp) (target : Address) (a : Expr) :
      Tests env vars (.ifZero op target) [a] (zeroCondition env vars op a) target
  | ifInt (op : CompareOp) (target : Address) (b a : Expr) :
      Tests env vars (.ifInt op target) [b, a]
        (.compare op (a.coerce (env.typeOf vars b)) (b.coerce (env.typeOf vars a))) target
  | ifRef (op : CompareOp) (target : Address) (b a : Expr) :
      Tests env vars (.ifRef op target) [b, a] (.compare op a b) target
  | ifNull (target : Address) (a : Expr) :
      Tests env vars (.ifNull target) [a] (.compare .eq a .null) target
  | ifNonNull (target : Address) (a : Expr) :
      Tests env vars (.ifNonNull target) [a] (.compare .ne a .null) target

end Lift

/-- The instructions that go one of two ways. -/
def Instruction.isBranch : Instruction → Bool
  | ifZero .. | ifInt .. | ifRef .. | ifNull _ | ifNonNull _ => true
  | _ => false

namespace Lift

variable {vars : VarTable} {top : List Expr} {cond : Expr}

/-- A branch makes a condition of the entries that it takes. -/
theorem step_tests (h : step env i m = .ok () m') (hi : i.isBranch = true) :
    ∃ top below cond target, m.stack = top ++ below ∧ Tests env m.vars i top cond target ∧
      branch env cond target { m with stack := below } = .ok () m' := by
  cases i with
  | ifZero op target =>
    simp only [step, bind_eq_ok, pop_eq_ok, get_eq_ok] at h
    obtain ⟨a, _, ⟨below, hst, rfl⟩, _, _, ⟨rfl, rfl⟩, h⟩ := h
    exact ⟨[a], below, _, target, hst, .ifZero op target a, h⟩
  | ifInt op target =>
    simp only [step, bind_eq_ok, pop_eq_ok, typeOf_eq_ok] at h
    obtain ⟨b, _, ⟨_, hb, rfl⟩, a, _, ⟨below, ha, rfl⟩, _, _, ⟨rfl, rfl⟩, _, _, ⟨rfl, rfl⟩, h⟩ := h
    subst ha
    exact ⟨[b, a], below, _, target, hb, .ifInt op target b a, h⟩
  | ifRef op target =>
    simp only [step, bind_eq_ok, pop_eq_ok] at h
    obtain ⟨b, _, ⟨_, hb, rfl⟩, a, _, ⟨below, ha, rfl⟩, h⟩ := h
    subst ha
    exact ⟨[b, a], below, _, target, hb, .ifRef op target b a, h⟩
  | ifNull target | ifNonNull target =>
    simp only [step, bind_eq_ok, pop_eq_ok] at h
    obtain ⟨a, _, ⟨below, hst, rfl⟩, h⟩ := h
    exact ⟨[a], below, _, target, hst, by constructor, h⟩
  | _ => cases hi

variable {n : Nat}

section

variable (h : Tests env vars i top cond target)
include h

theorem Tests.known (hes : ∀ e ∈ top, e.Entry n) : cond.Known n := by
  have hnull : Expr.null.Known n := ⟨by simp [Expr.null, isPlain], by simp [Expr.null, usesAs]⟩
  cases h with
  | ifZero op target a => exact known_zeroCondition env vars op (hes a (by simp))
  | ifInt op target b a =>
    exact .compare ((hes a (by simp)).coerce _) ((hes b (by simp)).coerce _)
  | ifRef op target b a => exact .compare (hes a (by simp)).toKnown (hes b (by simp)).toKnown
  | ifNull target a | ifNonNull target a => exact .compare (hes a (by simp)).toKnown hnull

/-- The condition comes out as the instruction's own test, unless the instruction is stuck. -/
theorem Tests.exec {ρ η : Type} [DecidableEq ρ] {w : World ρ η} {f : Frame ρ η} {t t' : Store ρ η}
    {vs st : List (Value ρ)} (hes : ∀ e ∈ top, e.Entry n)
    (htop : w.evalStack top t = .ok vs t') (hf : f.stack = vs ++ st) :
    w.exec ctx code f i = .stop none ∨
      ∃ c, w.eval cond t = .ok c t' ∧ w.exec ctx code f i =
        World.branch code f c.truth target st := by
  cases h with
  | ifZero op target a =>
    obtain ⟨v, hv, rfl⟩ := evalStack_one_eq_ok.1 htop
    unfold World.exec
    rw [hf]
    cases v with
    | int k =>
      obtain ⟨c, hc, htruth⟩ : ∃ c, w.eval (zeroCondition env vars op a) t = .ok c t' ∧ _ :=
        eval_zeroCondition env vars (hes a (by simp)).operand hv
      exact .inr ⟨c, hc, by rw [htruth]; rfl⟩
    | _ => exact .inl rfl
  | ifInt op target b a =>
    obtain ⟨v, u, t₁, hv, hu, rfl⟩ := evalStack_two_eq_ok.1 htop
    unfold World.exec
    rw [hf]
    cases u with
    | int k =>
      cases v with
      | int j =>
        rw [← w.eval_coerce a (env.typeOf vars b)] at hv
        rw [← w.eval_coerce b (env.typeOf vars a)] at hu
        refine .inr ⟨_, eval_compare hv hu, ?_⟩
        rw [Value.truth_ofBool]
        rfl
      | _ => exact .inl rfl
    | _ => cases v <;> exact .inl rfl
  | ifRef op target b a =>
    obtain ⟨v, u, t₁, hv, hu, rfl⟩ := evalStack_two_eq_ok.1 htop
    unfold World.exec
    rw [hf]
    cases u with
    | ref k =>
      cases v with
      | ref j =>
        refine .inr ⟨_, eval_compare hv hu, ?_⟩
        rw [Value.truth_ofBool]
        rfl
      | _ => exact .inl rfl
    | _ => cases v <;> exact .inl rfl
  | ifNull target a | ifNonNull target a =>
    obtain ⟨v, hv, rfl⟩ := evalStack_one_eq_ok.1 htop
    unfold World.exec
    rw [hf]
    cases v with
    | ref k =>
      refine .inr ⟨_, eval_compare hv (w.eval_null _), ?_⟩
      rw [Value.truth_ofBool]
      show World.branch code f _ target st = _
      congr 1
      by_cases hk : k = w.null <;> simp [CompareOp.decides, CompareOp.holds, order, hk]
    | _ => exact .inl rfl

theorem Tests.targets : target ∈ i.targets ∧ i.endsFlow = false := by
  cases h <;> simp [Instruction.targets, Instruction.endsFlow]

end

/-! ## What always holds -/

/-- Each instruction keeps what always holds of the machine. -/
theorem advances_step {flow : Flow} (h : step (ctx.env code flow) i m = .ok () m') (hm : m.Coherent)
    (hes : m.Entries) (hstatic : ctx.isStatic = true) (hsupports : ctx.Supports i)
    (hfits : (ctx.env code flow).fits m.vars m.stack i = true) : m.Advances m' := by
  have hmakes (hi : i.makesExpr = true) : m.Advances m' :=
    advances_of_makesExpr h hm hes hi hsupports.isConstructor
  cases i with
  | nop =>
    obtain ⟨_, rfl⟩ := pure_eq_ok.1 h
    exact ⟨.refl m, hm, hes⟩
  | load kind slot => exact advances_load h hm hes
  | store kind slot => exact advances_store h hstatic hm hes hfits
  | iinc slot amount => exact advances_iinc h hm hes
  | pop | pop2 => exact advances_drop h hm hes
  | dup | dupX1 | dupX2 | dup2 | dup2X1 | dup2X2 => exact advances_duplicate h hm hes
  | swap => exact advances_swap h hm hes
  | ifZero | ifInt | ifRef | ifNull | ifNonNull =>
    obtain ⟨top, below, cond, target, hst, _, hbranch⟩ := step_tests h rfl
    have hadds := Machine.Adds.restack m below
    exact hadds.grows.advances (advances_branch hbranch (hadds.coherent hm) (entries_below hes hst))
  | goto target => exact advances_goto h hm hes
  | tableSwitch | lookupSwitch => exact advances_switch h hm hes
  | methodReturn kind =>
    cases kind with
    | none =>
      obtain ⟨_, rfl⟩ := return_eq_ok h
      exact advances_exit hm rfl
    | some kind =>
      obtain ⟨value, _, rfl⟩ := exit_eq_ok (y := fun e => .ret (some (e.coerce ctx.returnType))) h
      exact advances_exit hm rfl
  | athrow =>
    obtain ⟨value, _, rfl⟩ := exit_eq_ok h
    exact advances_exit hm rfl
  | new name => exact hsupports.elim
  | invokeDynamic | monitorEnter | monitorExit | jsr | ret =>
    simp only [step, bind_eq_ok, get_eq_ok, throw_eq_ok, and_false, exists_false] at h
  | _ => exact hmakes rfl

end Lift

/-! ## What the emitted statements do -/

section

/-- The statements emitted for an instruction do what the instruction does to a frame. Nothing is
said of an instruction that is stuck. -/
inductive Reflects (w : World ρ η) (env : Env) (code : Code) (final m m' : Machine)
    (i : Instruction) (f : Frame ρ η) (s : Store ρ η) : World.FrameStep ρ η → Prop
  | stuck : Reflects w env code final m m' i f s (.stop none)
  | leaves {x : Exit (Value ρ)} {s' : Store ρ η} :
      (∀ block pos, Flat.follow block pos x = none) → m.Leaves w.semantics m' x s s' →
      Reflects w env code final m m' i f s (.stop (some (x, s'.memory)))
  | runsOn {f' : Frame ρ η} {s' : Store ρ η} : i.endsFlow = false → f'.pc = f.pc + 1 →
      m.Passes w.semantics m' s s' → Matches w env final m' f' s' →
      Reflects w env code final m m' i f s (.on f')
  | jumps {target : Address} {l : Label} {f' : Frame ρ η} {s' : Store ρ η} : target ∈ i.targets →
      code.indexOf? target = some f'.pc → env.flow.label? target = some l →
      m.Leaves w.semantics m' (.jumping l) s s' → Arrives final l f' s' →
      Reflects w env code final m m' i f s (.on f')

variable {st : List (Value ρ)}

theorem Reflects.of_runs {f' : Frame ρ η} (hends : i.endsFlow = false) (hpc : f'.pc = f.pc + 1)
    (h : MatchesAfter w env final m m' f' s) : Reflects w env code final m m' i f s (.on f') := by
  obtain ⟨s', hemitted, hmatch⟩ := h
  exact .runsOn hends hpc hemitted hmatch

theorem Reflects.of_jump {l : Label} {s' : Store ρ η} (ht : target ∈ i.targets)
    (hl : env.flow.label? target = some l) (hexit : m.Leaves w.semantics m' (.jumping l) s s')
    (harrives : Arrives final l { f with stack := st } s') :
    Reflects w env code final m m' i f s (World.jump code f target st) := by
  unfold World.jump
  split
  · rename_i pos hpos
    exact .jumps ht hpos hl hexit (harrives.withPc pos)
  · exact .stuck

/-- A branch takes its operands off the stack and goes the way that its condition says. -/
theorem Reflects.of_tests {top below : List Expr} {cond : Expr} (hmatch : Matches w env final m f s)
    (hm : m.Coherent) (hes : m.Entries) (hst : m.stack = top ++ below)
    (htests : Lift.Tests env m.vars i top cond target)
    (h : Lift.branch env cond target { m with stack := below } = .ok () m')
    (hfinal : m'.Grows ls final)
    (hcoherent : final.Coherent) : Reflects w env code final m m' i f s (w.exec ctx code f i) := by
  obtain ⟨us, ts, t, hus, htvars, hts, hf, _, hbelow⟩ := hmatch.split hes hst
  have htop : ∀ e ∈ top, e.Entry m.vars.size := fun e he => hes e (by simp [hst, he])
  have ht : t = ⟨s.vars, t.memory⟩ := by rw [← htvars]
  obtain hstuck | ⟨c, hc, hexec⟩ : w.exec ctx code f i = .stop none ∨ _ := htests.exec htop hts hf
  · rw [hstuck]
    exact .stuck
  -- The operands are evaluated behind what is below them.
  have hadds := Machine.Adds.restack m below
  have hmatch' :
    Matches w env final { m with stack := below } { f with stack := us, memory := t.memory } s :=
    ⟨by rw [← ht]; exact hus, hbelow, hmatch.locals⟩
  obtain ⟨l, s', hl, hbranch⟩ :=
    hmatch'.branch (hadds.coherent hm) (Lift.entries_below hes hst) h hfinal
    hcoherent (htests.known htop) (show w.eval cond ⟨s.vars, t.memory⟩ = _ from ht ▸ hc)
  obtain ⟨htarget, hends⟩ := htests.targets
  rw [hexec]
  unfold branch
  split at hbranch
  · rename_i htruth
    rw [if_pos htruth]
    exact .of_jump htarget hl hbranch.1 hbranch.2
  · rename_i htruth
    rw [if_neg htruth]
    exact .runsOn hends rfl hbranch.1 (hbranch.2.withPc _)

/-- An exit evaluates its operand. -/
theorem Reflects.of_exit {e : Expr} {y : Stmt} {x : Value ρ → Exit (Value ρ)} {v : Value ρ}
    {vs : List (Value ρ)} (hmatch : Matches w env final m f s) (hst : m.stack = [e])
    (hout : m'.out = m.out ++ [y]) (hf : f.stack = v :: vs)
    (hy : ∀ s', w.eval e s = .ok v s' → y.act w.semantics s = (x v, s'))
    (hx : ∀ v block pos, Flat.follow block pos (x v) = none) :
    Reflects w env code final m m' i f s (.stop (some (x v, f.memory))) := by
  have hstack := hmatch.stack
  rw [hst, hf] at hstack
  obtain ⟨_, heval, heq⟩ := evalStack_one_eq_ok.1 hstack
  cases heq
  exact .leaves (hx v) (.one hout (hy _ heval))

/-- An instruction that neither uses locals nor passes control runs on, unless it is stuck. -/
theorem Reflects.of_compute {ctx : Context} (hends : i.endsFlow = false)
    (h : ∀ vs μ, w.compute ctx i f.stack f.memory = some (vs, μ) →
      MatchesAfter w env final m m' { f with pc := f.pc + 1, stack := vs, memory := μ } s) :
    Reflects w env code final m m' i f s (match w.compute ctx i f.stack f.memory with
      | some (st, memory) => .on { f with pc := f.pc + 1, stack := st, memory }
      | none => .stop none) := by
  split
  · rename_i vs μ hrun
    exact .of_runs hends rfl (h vs μ hrun)
  · exact .stuck

end

/-- A choice, or else the default, is among the choices and the default. -/
theorem getD_mem_concat {α : Type} {xs : List α} {x : Option α} {default : α}
    (h : ∀ y, x = some y → y ∈ xs) : x.getD default ∈ xs ++ [default] := by
  cases x with
  | none => simp
  | some y => exact List.mem_append_left _ (h y rfl)

/-- The instructions that choose between several targets. -/
def Instruction.isSwitch : Instruction → Bool
  | tableSwitch .. | lookupSwitch .. => true
  | _ => false

section

variable {flow : Flow}

/-- Each instruction is lifted rightly. -/
theorem Matches.step (hmatch : Matches w (ctx.env code flow) final m f s) (hm : m.Coherent)
    (hes : m.Entries) (h : Lift.step (ctx.env code flow) i m = .ok () m')
    (hfinal : m'.Grows ls final)
    (hcoherent : final.Coherent) (hstatic : ctx.isStatic = true) (hsupports : ctx.Supports i)
    (hfits : (ctx.env code flow).fits m.vars m.stack i = true)
    (hswitch : i.isSwitch = true → f.stack.length = 1) :
    Reflects w (ctx.env code flow) code final m m' i f s (w.exec ctx code f i) := by
  cases i with
  | nop =>
    obtain ⟨_, rfl⟩ := pure_eq_ok.1 h
    exact .runsOn rfl rfl (.of_out rfl) (hmatch.withPc _)
  | load kind slot =>
    unfold World.exec
    dsimp only
    split
    · rename_i x hx
      exact .of_runs rfl rfl (hmatch.load hm h hfinal hx)
    · exact .stuck
  | store kind slot =>
    unfold World.exec
    dsimp only
    split
    · rename_i x vs hf
      split
      · rename_i hkind
        exact .of_runs rfl rfl (hmatch.store h hstatic hm hes hfits hfinal hcoherent hf hkind)
      · exact .stuck
    · exact .stuck
  | iinc slot amount =>
    unfold World.exec
    dsimp only
    split
    · rename_i a ha
      exact .of_runs rfl rfl (hmatch.iinc hm hes h hfinal hcoherent ha)
    · exact .stuck
  | pop | pop2 =>
    refine Reflects.of_compute rfl fun vs μ hrun => ?_
    obtain ⟨⟨taken, us⟩, htaken, heq⟩ := Option.map_eq_some_iff.1 hrun
    cases heq
    exact hmatch.drop h hm hes hfinal htaken
  | dup | dupX1 | dupX2 | dup2 | dup2X1 | dup2X2 =>
    refine Reflects.of_compute rfl fun vs μ hrun => ?_
    obtain ⟨_, hdup, heq⟩ := Option.map_eq_some_iff.1 hrun
    cases heq
    exact hmatch.duplicate hm hes h hfinal hdup
  | swap =>
    refine Reflects.of_compute rfl fun vs μ hrun => ?_
    unfold compute at hrun
    dsimp only at hrun
    split at hrun
    · rename_i b a us htaken
      cases hrun
      exact hmatch.swap hm hes h hfinal htaken
    · cases hrun
  | ifZero | ifInt | ifRef | ifNull | ifNonNull =>
    obtain ⟨top, below, cond, target, hst, htests, hbranch⟩ := Lift.step_tests h rfl
    exact .of_tests hmatch hm hes hst htests hbranch hfinal hcoherent
  | goto target =>
    obtain ⟨l, s', hl, hexit, harrives⟩ := hmatch.goto hm hes h hfinal hcoherent
    exact .of_jump (by simp [Instruction.targets]) hl hexit harrives
  | tableSwitch default low targets =>
    unfold World.exec
    dsimp only
    split
    · rename_i key st hf
      obtain rfl : st = [] := by simpa [hf] using hswitch rfl
      obtain ⟨l, s', hl, hexit, harrives⟩ := hmatch.switch hm hes h hfinal hcoherent hf
      rw [Lift.find?_tableCases] at hl
      exact .of_jump (getD_mem_concat fun _ => List.mem_of_getElem?) hl hexit harrives
    · exact .stuck
  | lookupSwitch default pairs =>
    unfold World.exec
    dsimp only
    split
    · rename_i key st hf
      obtain rfl : st = [] := by simpa [hf] using hswitch rfl
      obtain ⟨l, s', hl, hexit, harrives⟩ := hmatch.switch hm hes h hfinal hcoherent hf
      refine .of_jump (getD_mem_concat fun t ht => ?_) hl hexit harrives
      obtain ⟨c, hc, rfl⟩ := Option.map_eq_some_iff.1 ht
      exact List.mem_map_of_mem (List.mem_of_find?_eq_some hc)
    · exact .stuck
  | methodReturn kind =>
    cases kind with
    | none =>
      obtain ⟨hempty, rfl⟩ := Lift.return_eq_ok h
      unfold World.exec
      rw [← (hmatch.of_empty hempty).2]
      exact .leaves (fun _ _ => rfl) (.one rfl rfl)
    | some kind =>
      obtain ⟨value, hst, rfl⟩ :=
        Lift.exit_eq_ok (y := fun e => .ret (some (e.coerce ctx.returnType))) h
      unfold World.exec
      dsimp only
      split
      · rename_i v vs hf
        split
        · refine .of_exit (x := fun v => .returned (some v)) hmatch hst rfl hf (fun s' hv => ?_)
            fun _ _ _ => rfl
          have hcoerce : w.semantics.eval (value.coerce ctx.returnType) s = .ok v s' :=
            (congrFun (w.eval_coerce value _) s).trans hv
          rw [Stmt.act, hcoerce]
        · exact .stuck
      · exact .stuck
  | athrow =>
    obtain ⟨value, hst, rfl⟩ := Lift.exit_eq_ok h
    unfold World.exec
    dsimp only
    split
    · rename_i v vs hf
      refine .of_exit hmatch hst rfl hf (fun s' hv => ?_) fun _ _ _ => rfl
      rw [Stmt.act, show w.semantics.eval value s = _ from hv]
    · exact .stuck
  | new name => exact hsupports.elim
  | invokeDynamic | monitorEnter | monitorExit | jsr | ret =>
    simp only [Lift.step, bind_eq_ok, get_eq_ok, throw_eq_ok, and_false, exists_false] at h
  | _ =>
    exact .of_compute rfl fun vs μ hrun => hmatch.makesExpr hm hes h hfinal rfl hsupports hfits hrun

end

end ByteLift
