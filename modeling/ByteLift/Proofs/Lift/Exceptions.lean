import ByteLift.Proofs.Lift.Slots
import ByteLift.Proofs.Lift.Throwing

/-!
# Exceptions of lifted code

A method without branches that only computes is lifted to assignments and a return. The flat code
returns what the code does, and throws only where the code does. It throws wherever the code does if
none but pure entries are dropped: for `pop` and `pop2` an exception does not count as an effect.
-/

namespace ByteLift

open Lift World Machine

variable {ctx : Context} {code : Code} {flow : Flow} {vars : VarTable} {labels table : LabelTable}
  {final m : Machine}

/-! ## Code without branches -/

/-- A static method whose code has no branches and only computes. -/
structure Context.Calculates (ctx : Context) (code : Code) (vars : VarTable) : Prop where
  isStatic : ctx.isStatic = true
  calculates : ∀ i ∈ code.instructions, i.instruction.calculates = true
  params : ctx.params.Nodup
  params_lt : ∀ v ∈ ctx.params, v.index < vars.size

theorem Instruction.targets_of_calculates {i : Instruction} (h : i.calculates = true) :
    i.targets = [] := by
  cases i with
  | ifZero | ifInt | ifRef | ifNull | ifNonNull | goto | jsr | tableSwitch | lookupSwitch => cases h
  | _ => rfl

theorem Instruction.isReturn_of_calculates {i : Instruction} (h : i.calculates = true)
    (hends : i.endsFlow = true) : ∃ kind, i = .methodReturn kind := by
  cases i with
  | methodReturn kind => exact ⟨kind, rfl⟩
  | goto | tableSwitch | lookupSwitch | athrow | ret => cases h
  | _ => cases hends

/-- Where nothing jumps, there are no labels. -/
theorem Code.label?_of_targets {code : Code} {flow : Flow} {labels table : LabelTable}
    (hflow : code.flow labels = .ok (flow, table))
    (h : ∀ i ∈ code.instructions, i.instruction.targets = [])
    (a : Address) : flow.label? a = none := by
  have hjumps : code.jumps = [] := by
    refine List.flatMap_eq_nil_iff.2 fun i hi => ?_
    rw [h i hi]
    rfl
  rw [Code.flow_eq] at hflow
  rw [Code.targetAddresses, hjumps] at hflow
  simp only [List.find?_nil, List.map_nil, sortAscending, List.foldl_nil, Code.labelAll] at hflow
  split at hflow
  · cases hflow
  · cases hflow
    rfl

/-- Whether none but pure entries are dropped while instructions are lifted. -/
def Lift.dropsPure (env : Env) (runsOn : Bool) (items : List (Addressed × Bool))
    (m : Machine) : Bool :=
  (items.zip (stages env runsOn items m)).all fun
    | ((i, _), some stage) => (dropped env i.instruction stage.before).all Expr.isPure
    | (_, none) => true

/-- Whether none but pure entries are dropped while a method is lifted. -/
def Context.dropsPure (ctx : Context) (code : Code) (vars : VarTable)
    (labels : LabelTable) : Bool :=
  match code.flow labels with
  | .error _ => true
  | .ok (flow, _) =>
    Lift.dropsPure (ctx.env code flow) true (code.instructions.zip flow.reachable)
      (start (ctx.env code flow) vars)

/-- Lifting comes to an instruction that control reaches. -/
structure Comes (ctx : Context) (code : Code) (flow : Flow) (final : Machine) (p : Nat)
    (runsOn : Bool) (m : Machine) : Prop where
  tidy : m.Tidy
  reached : flow.reachable[p]? = some true
  run : Lift.run (ctx.env code flow) runsOn ((code.instructions.zip flow.reachable).drop p)
    m = .ok () final

section

variable {p : Nat} {runsOn : Bool}

/-- One instruction is lifted, and lifting comes to the next one unless control leaves the
method. -/
theorem Comes.passes (h : Comes ctx code flow final p runsOn m) (hmethod : ctx.Calculates code vars)
    (hflow : code.flow labels = .ok (flow, table)) :
    ∃ i m₁ m₂, code.instructions[p]? = some i ∧ m₁ = { m with address := i.address } ∧
      Lift.step (ctx.env code flow) i.instruction m₁ = .ok () m₂ ∧ m₂.out <+: final.out ∧
      (i.instruction.endsFlow = false → Comes ctx code flow final (p + 1)
        (!i.instruction.endsFlow) m₂) ∧
      (dropsPure (ctx.env code flow) runsOn
        ((code.instructions.zip flow.reachable).drop p) m = true →
        (∀ e ∈ dropped (ctx.env code flow) i.instruction m₁, e.isPure = true) ∧
        dropsPure (ctx.env code flow) (!i.instruction.endsFlow)
          ((code.instructions.zip flow.reachable).drop (p + 1)) m₂ = true) := by
  have hhas := Code.hasFlow_of_flow hflow
  have hlt : p < code.instructions.length := by
    rw [← Code.length_reachable, ← hhas.reachable]
    exact (List.getElem?_eq_some_iff.1 h.reached).1
  obtain ⟨i, hi⟩ : ∃ i, code.instructions[p]? = some i := ⟨_, List.getElem?_eq_getElem hlt⟩
  have hcalculates := hmethod.calculates i (List.mem_of_getElem? hi)
  obtain ⟨htidy, hreached, hrun⟩ := h
  rw [drop_zip_eq_cons hi hreached] at hrun ⊢
  obtain ⟨m₁, m₂, henter, hstep, hrest⟩ := run_cons_reached hrun
  have hm₁ := enter_eq_ok henter
  rw [show (ctx.env code flow).flow.label? i.address = none from Code.label?_of_targets hflow
    (fun j hj => Instruction.targets_of_calculates (hmethod.calculates j hj)) _] at hm₁
  have htidy₁ : m₁.Tidy := hm₁ ▸ htidy.withAddress _
  refine ⟨i, m₁, m₂, hi, hm₁, hstep, (runs_of_run hrest).isPrefix_out, fun hends => ?_,
    fun hdrops => ?_⟩
  · refine ⟨htidy₁.step hstep hcalculates hmethod.isStatic, ?_, hrest⟩
    rw [hhas.reachable] at hreached ⊢
    exact Code.reachable_succ hreached hi hends hhas.fallsOff
  · rw [dropsPure, stages_cons_reached henter hstep, List.zip_cons_cons, List.all_cons,
      Bool.and_eq_true, List.all_eq_true] at hdrops
    exact hdrops

end

/-! ## Leaving the method -/

section

variable {ν : Type} {I : Interpretation ν Unit} {e : Expr} {s : State ν Unit}

/-- A value that can be computed is returned, and else the method throws. -/
theorem Interpretation.exists_act_ret {x : ν}
    (hI : ∀ op vs h y h', I.operate op vs h = .error y h' → y = x) (e : Expr) (s : State ν Unit) :
    ∃ s', (Stmt.ret (some e)).act I.semantics s =
      ((I.value? s.vars e).elim (.thrown x) fun v => .returned (some v), s') := by
  rw [Stmt.act, show I.semantics.eval e s = I.eval e s from rfl, value?_eq]
  cases heval : I.eval e s with
  | ok v s' => exact ⟨s', rfl⟩
  | error y s' =>
    obtain rfl := throws_eval hI e s y s' heval
    exact ⟨s', rfl⟩

theorem Flat.Ends.unique {σ ν : Type} {S : Semantics σ ν} {block : Block} {pos : Nat} {s : σ}
    {r r' : Exit ν × σ}
    (h : Flat.Ends S block pos s r) (h' : Flat.Ends S block pos s r') : r = r' := by
  obtain ⟨n, hn⟩ := h
  obtain ⟨n', hn'⟩ := h'
  exact runFor_unique hn hn'

end

/-! ## Runs -/

section

variable {ρ η : Type} [DecidableEq ρ] {w : World ρ η} {exception : ρ} {m₂ : Machine} {f : Frame ρ η}
  {i : Instruction} {s : State (Value ρ) Unit}

/-- Behind assignments one of which throws, or that leave an entry that throws. -/
theorem Fails.leaves (h : Fails (w.throwing exception) m m₂ s.vars) (hout : m₂.out <+: final.out)
    (hrest : ∀ t : State (Value ρ) Unit, (w.throwing exception).values? t.vars m₂.stack = none →
      ∃ s', m₂.Leaves (w.throwing exception).semantics final (.thrown (.ref exception)) t s') :
    ∃ s', m.Leaves (w.throwing exception).semantics final (.thrown (.ref exception)) s s' := by
  obtain ⟨row, hassigns, hnone⟩ := h
  cases hrow : (w.throwing exception).assign? row s.vars with
  | none =>
    obtain ⟨s', hleaves⟩ := hassigns.leaves (fun _ _ _ _ _ => operate_eq_error) hrow
    exact ⟨s', hleaves.mono hout⟩
  | some vals =>
    obtain ⟨t, hpasses, rfl⟩ := hassigns.passes hrow
    rw [hrow] at hnone
    obtain ⟨s', hleaves⟩ := hrest t hnone
    exact ⟨s', hpasses.leaves hleaves⟩

/-- A stack with an entry that throws is left by throwing. -/
theorem Comes.leaves_thrown {p : Nat} {runsOn : Bool} {m : Machine} {s : State (Value ρ) Unit}
    (h : Comes ctx code flow final p runsOn m) (hmethod : ctx.Calculates code vars)
    (hflow : code.flow labels = .ok (flow, table))
    (hdrops : dropsPure (ctx.env code flow) runsOn
      ((code.instructions.zip flow.reachable).drop p) m = true)
    (hnone : (w.throwing exception).values? s.vars m.stack = none) :
    ∃ s', m.Leaves (w.throwing exception).semantics final (.thrown (.ref exception)) s s' := by
  obtain ⟨i, m₁, m₂, hi, rfl, hstep, hout, hnext, hpure⟩ := h.passes hmethod hflow
  have hlt := (List.getElem?_eq_some_iff.1 hi).1
  obtain ⟨hdropped, hdrops⟩ := hpure hdrops
  have hcalculates := hmethod.calculates i (List.mem_of_getElem? hi)
  cases hends : i.instruction.endsFlow with
  | false =>
    have hfails : Fails (w.throwing exception) { m with address := i.address } m₂ s.vars :=
      fails_step hnone hstep (h.tidy.withAddress _) hcalculates hends hmethod.isStatic hdropped
    exact hfails.leaves hout fun t ht => (hnext hends).leaves_thrown hmethod hflow hdrops ht
  | true =>
    -- A return finds nothing but its operand on the stack.
    obtain ⟨kind, hkind⟩ := Instruction.isReturn_of_calculates hcalculates hends
    rw [hkind] at hstep
    cases kind with
    | none =>
      rw [show m.stack = [] from (return_eq_ok hstep).1] at hnone
      cases hnone
    | some kind =>
      obtain ⟨value, hst, rfl⟩ :=
        exit_eq_ok (y := fun e => .ret (some (e.coerce ctx.returnType))) hstep
      rw [show m.stack = [value] from hst, Interpretation.values?_cons_eq_none,
        ← value?_coerce value
        ctx.returnType] at hnone
      obtain ⟨s', hact⟩ := Interpretation.exists_act_ret (fun _ _ _ _ _ => operate_eq_error) _ s
      rw [hnone.resolve_right nofun] at hact
      exact ⟨s', Machine.Leaves.mono (.one rfl hact) hout⟩
termination_by code.instructions.length - p

/-- A return of the code is a return of the flat code, unless it is stuck. -/
theorem Holds.leaves_returned {kind : Option LocalKind} {env : Env}
    (hholds : Holds (w.throwing exception) env m s.vars f)
    (h : Lift.step env (.methodReturn kind) m = .ok () m₂) (ctx : Context) (code : Code) :
    w.exec ctx code f (.methodReturn kind) = .stop none ∨
      ∃ v s', w.exec ctx code f (.methodReturn kind) = .stop (some (.returned v, f.memory)) ∧
        m.Leaves (w.throwing exception).semantics m₂ (.returned v) s s' := by
  cases kind with
  | none =>
    obtain ⟨_, rfl⟩ := return_eq_ok h
    exact .inr ⟨none, s, rfl, .one rfl rfl⟩
  | some kind =>
    obtain ⟨value, hst, rfl⟩ := exit_eq_ok (y := fun e => .ret (some (e.coerce env.returnType))) h
    have hstack := hholds.stack
    rw [hst] at hstack
    obtain ⟨v, hv, hf⟩ := Interpretation.values?_one_eq_some.1 hstack
    rw [← value?_coerce value env.returnType] at hv
    obtain ⟨s', hact⟩ := Interpretation.exists_act_ret (fun _ _ _ _ _ => operate_eq_error) _ s
    rw [hv] at hact
    unfold exec
    rw [hf]
    dsimp only
    by_cases hkind : v.kind = kind
    · exact .inr ⟨some v, s', if_pos hkind, .one rfl hact⟩
    · exact .inl (if_neg hkind)

/-- From a state that holds what a frame does, the code returns or throws. The flat code returns
what the code does, and throws as the code does if none but pure entries are dropped. -/
theorem Comes.runs {p : Nat} {runsOn : Bool} {m : Machine} {s : State (Value ρ) Unit}
    {f : Frame ρ η} (h : Comes ctx code flow final p runsOn m) (hmethod : ctx.Calculates code vars)
    (hflow : code.flow labels = .ok (flow, table))
    (hholds : Holds (w.throwing exception) (ctx.env code flow) m s.vars f) (hpc : f.pc = p)
    (hstuck : ∀ n, w.runThrowing exception ctx code n f ≠ some none) :
    ∃ x, w.EndsThrowing exception ctx code f (x, f.memory) ∧
      (x = .thrown (.ref exception) ∨ ∃ v, x = .returned v) ∧ ((∃ v, x = .returned v) ∨
          dropsPure (ctx.env code flow) runsOn
            ((code.instructions.zip flow.reachable).drop p) m = true →
        ∃ s', m.Leaves (w.throwing exception).semantics final x s s') := by
  obtain ⟨i, m₁, m₂, hi, rfl, hstep, hout, hnext, hpure⟩ := h.passes hmethod hflow
  have hlt := (List.getElem?_eq_some_iff.1 hi).1
  have hcalculates := hmethod.calculates i (List.mem_of_getElem? hi)
  have hholds₁ :
    Holds (w.throwing exception) (ctx.env code flow) { m with address := i.address } s.vars f :=
    ⟨hholds.stack, hholds.wides, hholds.locals.wide, hholds.locals.kind, hholds.locals.value⟩
  have hstepf : w.stepThrowing exception ctx code f =
      if f.dividesByZero i.instruction then .stop (some (.thrown (.ref exception), f.memory))
      else w.exec ctx code f i.instruction := by
    rw [stepThrowing, hpc, hi]
  cases hzero : f.dividesByZero i.instruction with
  | true =>
    -- The code throws here. The flat code does so later, when it computes the entry that was just
    -- made.
    rw [hzero] at hstepf
    refine ⟨.thrown (.ref exception), ⟨1, runFor_stop hstepf⟩, .inl rfl, fun hdrops => ?_⟩
    obtain ⟨_, hdrops⟩ := hpure (hdrops.resolve_left nofun)
    have hfails := fails_of_dividesByZero hstep (h.tidy.withAddress _) hcalculates hholds₁ hzero
    have hcomes := hnext (Frame.endsFlow_of_dividesByZero hzero)
    exact hfails.leaves hout fun t ht => hcomes.leaves_thrown hmethod hflow hdrops ht
  | false =>
    rw [hzero] at hstepf
    cases hends : i.instruction.endsFlow with
    | false =>
      have hcontinues :=
        hholds₁.step hstep (h.tidy.withAddress _) hcalculates hends hmethod.isStatic hzero ctx code
      generalize w.exec ctx code f i.instruction = r at hstepf hcontinues
      cases hcontinues with
      | stuck => exact absurd (runFor_stop hstepf) (hstuck 1)
      | on hpc' hmemory hfollows =>
        obtain ⟨row, vals, hassigns, hrow, hholds'⟩ := hfollows
        obtain ⟨t, hpasses, rfl⟩ := hassigns.passes hrow
        obtain ⟨x, ⟨k, hrun⟩, hx, hleaves⟩ :=
          (hnext hends).runs hmethod hflow hholds' (by rw [hpc', hpc])
          fun k hk => hstuck (k + 1) ((runFor_on hstepf).trans hk)
        refine ⟨x, ⟨k + 1, (runFor_on hstepf).trans (hmemory ▸ hrun)⟩, hx, fun hcond => ?_⟩
        obtain ⟨s', hleaves⟩ := hleaves (hcond.imp_right fun hdrops => (hpure hdrops).2)
        exact ⟨s', hpasses.leaves hleaves⟩
    | true =>
      obtain ⟨kind, hkind⟩ := Instruction.isReturn_of_calculates hcalculates hends
      rw [hkind] at hstep hstepf
      obtain hnone | ⟨v, s', hexec, hleaves⟩ := hholds₁.leaves_returned hstep ctx code
      · exact absurd (runFor_stop (hstepf.trans hnone)) (hstuck 1)
      · refine ⟨.returned v, ⟨1, runFor_stop (hstepf.trans hexec)⟩, .inr ⟨v, rfl⟩, fun _ => ?_⟩
        exact ⟨s', hleaves.mono hout⟩
termination_by code.instructions.length - p

/-- At the start, the parameters hold the arguments and the stack is empty. -/
theorem Context.Calculates.holds_start {args : List (Value ρ)} {μ : Memory ρ η}
    (h : ctx.Calculates code vars)
    (hkinds : args.map Value.kind = ctx.params.map fun v => LocalKind.ofTy (vars.ty v))
    (hargs : ctx.params.map s.vars = args) :
    Holds (w.throwing exception) (ctx.env code flow) (start (ctx.env code flow) vars) s.vars
      (Frame.start args μ) := by
  have hlocals : (start (ctx.env code flow) vars).locals = paramLocals vars 0 ctx.params :=
    if_pos h.isStatic
  have hcoherent : (start (ctx.env code flow) vars).Coherent :=
    coherent_start h.isStatic h.params h.params_lt
  have hentered (k : Nat × LocalKind) (x : Value ρ) (hx : (Frame.start args μ).locals k = some x) :
      ∃ v, entered? k (paramLocals vars 0 ctx.params) = some (.var v) ∧ s.vars v = x ∧
      x.kind = k.2 :=
    Frame.entered?_of_argLocals (s := ⟨s.vars, μ⟩) hkinds hargs hx
  refine ⟨rfl, rfl, fun k v hk => ?_, fun k x hx => ?_, fun k x hx => ?_⟩
  · obtain ⟨_, hu, _, hwide⟩ := hcoherent.locals k _ hk
    cases hu
    exact hwide
  · obtain ⟨_, _, _, hkind⟩ := hentered k x hx
    exact hkind
  · obtain ⟨v, hv, hvalue, _⟩ := hentered k x hx
    exact ⟨v, hlocals ▸ hv, hvalue⟩

/-- The code ends, flat code returns what the code does, and throws only if the code does. If none
but pure entries are dropped, flat code ends as the code does. -/
theorem runThrowing_iff_ends_of_lifted {args : List (Value ρ)} {μ : Memory ρ η} {flat : FlatCode}
    (hmethod : ctx.Calculates code vars) (h : (FlatCode.ofCode ctx code vars labels).1 = .ok flat)
    (hkinds : args.map Value.kind = ctx.params.map fun v => LocalKind.ofTy (vars.ty v))
    (hstuck : ∀ n, w.runThrowing exception ctx code n (Frame.start args μ) ≠ some none)
    (hargs : ctx.params.map s.vars = args) :
    (∃ x, w.EndsThrowing exception ctx code (Frame.start args μ) (x, μ)) ∧
    (∀ v, w.EndsThrowing exception ctx code (Frame.start args μ) (.returned v, μ) →
      ∃ s', Flat.Ends (w.throwing exception).semantics flat.block 0 s (.returned v, s')) ∧
    (∀ y s', Flat.Ends (w.throwing exception).semantics flat.block 0 s (.thrown y, s') →
      w.EndsThrowing exception ctx code (Frame.start args μ) (.thrown (.ref exception), μ)) ∧
    (ctx.dropsPure code vars labels = true → ∀ x,
      w.EndsThrowing exception ctx code (Frame.start args μ) (x, μ) ↔
        ∃ s', Flat.Ends (w.throwing exception).semantics flat.block 0 s (x, s')) := by
  obtain ⟨flow, table, final, hflow, hrun, rfl⟩ := FlatCode.ofCode_eq_ok h
  have hcode : 0 < code.instructions.length := by
    refine Nat.pos_of_ne_zero fun hzero => hstuck 1 (runFor_stop ?_)
    rw [stepThrowing, List.eq_nil_of_length_eq_zero hzero]
    rfl
  have hcomes : Comes ctx code flow final 0 true (start (ctx.env code flow) vars) := by
    refine ⟨⟨(coherent_start hmethod.isStatic hmethod.params hmethod.params_lt).ownLocals, ?_, ?_⟩,
      ?_, hrun⟩
    · simp [Machine.Entries, start]
    · simp [start]
    · rw [(Code.hasFlow_of_flow hflow).reachable]
      exact Code.reachable_zero hcode
  have hdrops : ctx.dropsPure code vars labels =
      dropsPure (ctx.env code flow) true ((code.instructions.zip flow.reachable).drop 0)
        (start (ctx.env code flow) vars) := by
    rw [Context.dropsPure, hflow]
    rfl
  obtain ⟨x, hends, hx, hleaves⟩ :=
    hcomes.runs hmethod hflow (hmethod.holds_start hkinds hargs) rfl hstuck
  have hflat (hcond : (∃ v, x = .returned v) ∨ ctx.dropsPure code vars labels = true) :
      ∃ s', Flat.Ends (w.throwing exception).semantics final.out 0 s (x, s') := by
    obtain ⟨s', hleaves⟩ := hleaves (hdrops ▸ hcond)
    refine ⟨s', hleaves.ends List.prefix_rfl fun pos => ?_⟩
    rcases hx with rfl | ⟨v, rfl⟩ <;> rfl
  refine ⟨⟨x, hends⟩, fun v hv => ?_, fun y s' hy => ?_,
    fun hpure y => ⟨fun hy => ?_, fun hy => ?_⟩⟩
  · cases hends.unique hv
    exact hflat (.inl ⟨v, rfl⟩)
  · rcases hx with rfl | ⟨v, rfl⟩
    · exact hends
    · -- If the code returned, so would the flat code.
      obtain ⟨t, ht⟩ := hflat (.inl ⟨v, rfl⟩)
      cases hy.unique ht
  · cases hends.unique hy
    exact hflat (.inr hpure)
  · obtain ⟨s', hs'⟩ := hy
    obtain ⟨t, ht⟩ := hflat (.inr hpure)
    cases hs'.unique ht
    exact hends

end

/-- `1 / a`, above which `a` is put and dropped again. -/
def keptDivision : Code :=
  .sequential 1 [.load .int 0, .iconst 1, .load .int 0, .arith .div .int, .swap, .pop,
    .methodReturn (some .int)]

/-- The flat code of `keptDivision` throws where `a` is zero: the division is stored before `a` is
dropped. -/
theorem ends_flat_keptDivision :
    ∃ flat, (FlatCode.ofCode ofOneInt keptDivision oneInt .empty).1 = .ok flat ∧
      ofOneInt.dropsPure keptDivision oneInt .empty = true ∧
      wholeNumbers.EndsThrowing () ofOneInt keptDivision (Frame.start [.int 0] ⟨(), []⟩)
        (.thrown (.ref ()), ⟨(), []⟩) ∧
      ∃ s', Flat.Ends (wholeNumbers.throwing ()).semantics flat.block 0 ⟨fun _ => .int 0, (), []⟩
        (.thrown (.ref ()), s') := by
  have hok : (FlatCode.ofCode ofOneInt keptDivision oneInt .empty).1 = .ok
      ⟨[.set ⟨1⟩ (.binary .div (.int 1) (.var ⟨0⟩) .int), .ret (some (.var ⟨1⟩))],
        oneInt.push
          { ty := .int, name := "var1", synthetic := true, parameter := false,
            isFinal := false, slot := none },
        ⟨#[]⟩⟩ := by
    cbv
  have hdrops : ofOneInt.dropsPure keptDivision oneInt .empty = true := by cbv
  have hrun : wholeNumbers.runThrowing () ofOneInt keptDivision 4 (Frame.start [.int 0] ⟨(), []⟩) =
      some (some (.thrown (.ref ()), ⟨(), []⟩)) := rfl
  obtain ⟨_, _, _, hiff⟩ := runThrowing_iff_ends_of_lifted (s := ⟨fun _ => .int 0, (), []⟩)
    ⟨rfl, by decide, by decide, by decide⟩ hok rfl (fun n hn => by cases runFor_unique hrun hn) rfl
  exact ⟨_, hok, hdrops, ⟨4, hrun⟩, (hiff hdrops _).1 ⟨4, hrun⟩⟩

/-- `1 / a`, which is dropped. -/
def lostDivision : Code :=
  .sequential 1 [.iconst 1, .load .int 0, .arith .div .int, .pop, .iconst 5,
    .methodReturn (some .int)]

/-- The division of `lostDivision` has no effect but its exception, so it is dropped: where `a` is
zero, the code throws and the flat code returns 5. -/
theorem ends_flat_lostDivision :
    ∃ flat, (FlatCode.ofCode ofOneInt lostDivision oneInt .empty).1 = .ok flat ∧
      flat.block = [.ret (some (.int 5))] ∧
      ofOneInt.dropsPure lostDivision oneInt .empty = false ∧
      wholeNumbers.EndsThrowing () ofOneInt lostDivision (Frame.start [.int 0] ⟨(), []⟩)
        (.thrown (.ref ()), ⟨(), []⟩) ∧
      ∃ s', Flat.Ends (wholeNumbers.throwing ()).semantics flat.block 0 ⟨fun _ => .int 0, (), []⟩
        (.returned (some (.int 5)), s') := by
  have hok : (FlatCode.ofCode ofOneInt lostDivision oneInt .empty).1 =
      .ok ⟨[.ret (some (.int 5))], oneInt, ⟨#[]⟩⟩ := by
    cbv
  have hdrops : ofOneInt.dropsPure lostDivision oneInt .empty = false := by cbv
  exact ⟨_, hok, rfl, hdrops, ⟨3, rfl⟩, ⟨fun _ => .int 0, (), [(.int 5, [])]⟩, 1, by cbv⟩

end ByteLift
