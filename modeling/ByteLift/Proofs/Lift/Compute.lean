import ByteLift.Proofs.Lift.Operand

/-!
# Lifting instructions that compute

The lifting machine matches a frame when its stack evaluates to the values on the frame's stack and
its variables hold the frame's locals. Each instruction that does not pass control keeps this up:
what it does to the frame, the statements it emits do to the variables and the memory.
-/

namespace ByteLift

open Expr

variable {ρ η : Type} [DecidableEq ρ] {m m' final : Machine} {ls : List Label} {env : Env}
  {i : Instruction} {st : List Expr} {w : World ρ η} {f : Frame ρ η} {s : Store ρ η}

/-! ## Frames and stores -/

section

/-- The locals of a frame are in the variables that stand for them at the end of lifting, and each
is of the kind it is kept under. -/
structure HoldsLocals (final : Machine) (locals : Nat × LocalKind → Option (Value ρ))
    (s : Store ρ η) : Prop where
  value : ∀ k v x, entered? k final.locals = some (.var v) → locals k = some x → s.vars v = x
  kind : ∀ k x, locals k = some x → x.kind = k.2

/-- A frame is as a store and a state of the lifting machine say. Its memory is that after the
pending entries have been evaluated. -/
structure Matches (w : World ρ η) (env : Env) (final m : Machine) (f : Frame ρ η) (s : Store ρ η) :
    Prop where
  stack : w.evalStack m.stack s = .ok f.stack ⟨s.vars, f.memory⟩
  wides : m.stack.map (env.isWide m.vars) = f.stack.map Value.isWide
  locals : HoldsLocals final f.locals s

/-- The statements emitted between two states lead to a store in which a frame is as the later state
says. -/
abbrev MatchesAfter (w : World ρ η) (env : Env) (final m m' : Machine) (f : Frame ρ η)
    (s : Store ρ η) : Prop :=
  ∃ s', m.Passes w.semantics m' s s' ∧ Matches w env final m' f s'

omit [DecidableEq ρ] in
theorem HoldsLocals.of_vars {locals : Nat × LocalKind → Option (Value ρ)} {s' : Store ρ η}
    (h : HoldsLocals final locals s)
    (hvars : ∀ k v, entered? k final.locals = some (.var v) → s'.vars v = s.vars v) :
    HoldsLocals final locals s' :=
  ⟨fun k v x hk hx => (hvars k v hk).trans (h.value k v x hk hx), h.kind⟩

end

namespace Machine

/-- A step of the machine keeps its invariants and emits no label. -/
structure Advances (m m' : Machine) : Prop where
  grows : m.Grows [] m'
  coherent : m'.Coherent
  entries : m'.Entries

theorem Grows.advances (h : m.Grows [] m') (h' : m'.Advances m'') : m.Advances m'' :=
  ⟨h.trans h'.grows, h'.coherent, h'.entries⟩

theorem Adds.advances (h : m.Adds m') (hm : m.Coherent) (hes : m'.Entries) : m.Advances m' :=
  ⟨h.grows, h.coherent hm, hes⟩

/-- The stack, and what was looked up, do not count. -/
theorem Adds.of_below {asked : List Query} (h : Adds { m with stack := st, asked } m') :
    m.Adds m' :=
  ⟨h.vars, h.out, h.locals, h.merges, h.shapes⟩

/-- A local has its variable already, or gets one that is not there yet. -/
theorem Adds.old_or_later (h : m.Adds m') (hm : m.Coherent) (hfinal : m'.Grows ls final)
    {k : Nat × LocalKind} {v : Var} (hk : entered? k final.locals = some (.var v)) :
    v.index < m.vars.size ∨ m'.vars.size ≤ v.index := by
  rcases hfinal.new_locals k v hk with hk | hk
  · rw [h.locals] at hk
    have hlt := hm.ownLocals.index_lt hk
    exact .inl hlt
  · exact .inr hk

end Machine

/-! ## Expressions made of entries -/

/-- The instructions that make an expression of the entries they take. -/
def Instruction.makesExpr : Instruction → Bool
  | aconstNull | iconst _ | lconst _ | fconst _ | dconst _ | ldc _ | arrayLoad _ | arrayStore _
  | arrayLength | newArray _ | anewArray _ | multiNewArray .. | arith .. | neg _ | convert _
  | compare _ | getField _ | putField _ | getStatic _ | putStatic _ | invoke .. | checkCast _
  | instanceOf _ => true
  | _ => false

namespace Lift

variable {o : Expr} {isStatic : Bool} {top : List Expr}

theorem fieldReceiver_of_isPlain (r : MemberRef) (ho : o.isPlain = true) :
    fieldReceiver env r o = o := by
  have hne : o ≠ .this := by
    rintro rfl
    simp [isPlain] at ho
  simp [fieldReceiver, hne]

theorem callReceiver_of_isPlain (kind : InvokeKind) (r : MemberRef) (ho : o.isPlain = true) :
    callReceiver env kind r o = o := by
  have hne : o ≠ .this := by
    rintro rfl
    simp [isPlain] at ho
  simp [callReceiver, hne]

variable {r : MemberRef} {e : Expr} {asked : List Query}

theorem lookupField_eq_ok {f : FieldRef} : lookupField env r isStatic m = .ok f m' ↔
      f = env.field r isStatic ∧ m' = { m with asked := m.asked ++ [.field r isStatic] } := by
  simp only [lookupField, bind_eq_ok, modify_eq_ok, pure_eq_ok]
  constructor
  · rintro ⟨_, _, rfl, rfl, rfl⟩
    exact ⟨rfl, rfl⟩
  · rintro ⟨rfl, rfl⟩
    exact ⟨(), _, rfl, rfl, rfl⟩

theorem lookupMethod_eq_ok {f : MethodRef} : lookupMethod env r isStatic m = .ok f m' ↔
      f = env.method r isStatic ∧ m' = { m with asked := m.asked ++ [.method r isStatic] } := by
  simp only [lookupMethod, bind_eq_ok, modify_eq_ok, pure_eq_ok]
  constructor
  · rintro ⟨_, _, rfl, rfl, rfl⟩
    exact ⟨rfl, rfl⟩
  · rintro ⟨rfl, rfl⟩
    exact ⟨(), _, rfl, rfl, rfl⟩

/-- What an instruction does with the expression it makes. -/
def Puts (env : Env) (m m' : Machine) (gives : Bool) (e : Expr) (st : List Expr) : Prop :=
  ∃ asked, if gives then m' = { m with stack := e :: st, asked }
    else emit env (.expr e) none true { m with stack := st, asked } = .ok () m'

theorem Puts.pushed : Puts env m { m with stack := e :: st, asked } true e st :=
  ⟨asked, rfl⟩

theorem Puts.emitted (h : emit env (.expr e) none true { m with stack := st, asked } = .ok () m') :
    Puts env m m' false e st :=
  ⟨asked, h⟩

theorem Puts.of_isVoid {isVoid : Bool}
    (h : (if isVoid = true then emit env (.expr e) none true else push e)
      { m with stack := st, asked } = .ok () m') :
    Puts env m m' (!isVoid) e st := by
  cases isVoid with
  | true => exact .emitted h
  | false =>
    obtain rfl := push_eq_ok.1 h
    exact .pushed

/-- A call makes an expression of the entries that it takes. -/
theorem invoke_makes {kind : InvokeKind} (h : invoke env kind r m = .ok () m') (hes : m.Entries)
    (hctor : (env.method r (kind = .static)).isConstructor = false) :
    ∃ top st e, m.stack = top ++ st ∧ MakesCall (env.method r (kind = .static)) kind top e ∧
      Puts env m m' (!(env.method r (kind = .static)).isVoid) e st := by
  simp only [invoke, bind_eq_ok, lookupMethod_eq_ok] at h
  obtain ⟨_, _, ⟨rfl, rfl⟩, args, _, hargs, h⟩ := h
  obtain ⟨as, st, hst, hlen, rfl, rfl⟩ := popArgs_eq_ok hargs
  have hst : m.stack = as.reverse ++ st := hst
  simp only [hctor, Bool.false_eq_true, if_false] at h
  by_cases hkind : kind = .static
  · subst hkind
    simp only [if_true, pure_bind] at h
    exact ⟨as.reverse, st, _, hst, .static hlen, .of_isVoid h⟩
  · simp only [hkind, if_false, pure_bind, bind_eq_ok, pop_eq_ok] at h
    obtain ⟨o, _, ⟨st', hst', rfl⟩, h⟩ := h
    have hst' : st = o :: st' := hst'
    subst hst'
    rw [callReceiver_of_isPlain kind r (hes o (by simp [hst])).plain] at h
    have hstatic : decide (kind = .static) = false := by simp [hkind]
    rw [hstatic] at hlen ⊢
    exact ⟨as.reverse ++ [o], st', _, by simp [hst], .on hlen hkind, .of_isVoid h⟩

/-- An instruction that makes an expression makes it of the entries on top of the stack. -/
theorem step_makes (h : step env i m = .ok () m') (hes : m.Entries) (hi : i.makesExpr = true)
    (hctor : ∀ kind r, i = .invoke kind r → (env.method r (kind = .static)).isConstructor = false) :
    ∃ gives top st e, m.stack = top ++ st ∧ Makes env m.vars i gives top e ∧
    Puts env m m' gives e st := by
  cases i with
  | aconstNull | iconst | lconst | fconst | dconst | ldc =>
    obtain rfl := push_eq_ok.1 h
    exact ⟨true, [], m.stack, _, rfl, by constructor, .pushed⟩
  | arrayLength | newArray | anewArray | neg | convert | checkCast | instanceOf =>
    simp only [step, bind_eq_ok, pop_eq_ok, push_eq_ok] at h
    obtain ⟨a, _, ⟨st, ha, rfl⟩, rfl⟩ := h
    exact ⟨true, [a], st, _, ha, by constructor, .pushed⟩
  | multiNewArray descriptor dimensions =>
    simp only [step, bind_eq_ok, push_eq_ok] at h
    obtain ⟨dims, _, hdims, rfl⟩ := h
    obtain ⟨st, hst, rfl, rfl⟩ := popMany_eq_ok hdims
    exact ⟨true, dims.reverse, st, _, hst, .multiNewArray descriptor dims, .pushed⟩
  | arrayLoad kind =>
    simp only [step, bind_eq_ok, pop_eq_ok, typeOf_eq_ok, push_eq_ok] at h
    obtain ⟨j, _, ⟨_, hj, rfl⟩, a, _, ⟨st, ha, rfl⟩, _, _, ⟨rfl, rfl⟩, rfl⟩ := h
    subst ha
    exact ⟨true, [j, a], st, _, hj, .arrayLoad kind j a, .pushed⟩
  | arrayStore kind =>
    simp only [step, bind_eq_ok, pop_eq_ok, typeOf_eq_ok] at h
    obtain ⟨e, _, ⟨_, he, rfl⟩, j, _, ⟨_, hj, rfl⟩, a, _, ⟨st, ha, rfl⟩, ty, _, ⟨_, rfl⟩, h⟩ := h
    subst ha hj
    exact ⟨false, [e, j, a], st, _, he, .arrayStore kind e j a _, .emitted h⟩
  | arith op kind =>
    simp only [step, bind_eq_ok, pop_eq_ok, typeOf_eq_ok, push_eq_ok] at h
    obtain ⟨b, _, ⟨_, hb, rfl⟩, a, _, ⟨st, ha, rfl⟩, _, _, ⟨rfl, rfl⟩, _, _, ⟨rfl, rfl⟩, rfl⟩ := h
    subst ha
    exact ⟨true, [b, a], st, _, hb, .arith op kind b a, .pushed⟩
  | compare kind =>
    simp only [step, bind_eq_ok, pop_eq_ok, push_eq_ok] at h
    obtain ⟨b, _, ⟨_, hb, rfl⟩, a, _, ⟨st, ha, rfl⟩, rfl⟩ := h
    subst ha
    exact ⟨true, [b, a], st, _, hb, .compare kind b a, .pushed⟩
  | getField r =>
    simp only [step, bind_eq_ok, pop_eq_ok, lookupField_eq_ok, push_eq_ok] at h
    obtain ⟨o, _, ⟨st, ho, rfl⟩, _, _, ⟨rfl, rfl⟩, rfl⟩ := h
    rw [fieldReceiver_of_isPlain r (hes o (by simp [ho])).plain]
    exact ⟨true, [o], st, _, ho, .getField r o, .pushed⟩
  | putField r =>
    simp only [step, bind_eq_ok, pop_eq_ok, lookupField_eq_ok] at h
    obtain ⟨e, _, ⟨_, he, rfl⟩, o, _, ⟨st, ho, rfl⟩, _, _, ⟨rfl, rfl⟩, h⟩ := h
    subst ho
    rw [fieldReceiver_of_isPlain r (hes o (by simp [he])).plain] at h
    exact ⟨false, [e, o], st, _, he, .putField r e o _, .emitted h⟩
  | getStatic r =>
    simp only [step, bind_eq_ok, lookupField_eq_ok, push_eq_ok] at h
    obtain ⟨_, _, ⟨rfl, rfl⟩, rfl⟩ := h
    exact ⟨true, [], m.stack, _, rfl, .getStatic r, .pushed⟩
  | putStatic r =>
    simp only [step, bind_eq_ok, pop_eq_ok, lookupField_eq_ok] at h
    obtain ⟨e, _, ⟨st, he, rfl⟩, _, _, ⟨rfl, rfl⟩, h⟩ := h
    exact ⟨false, [e], st, _, he, .putStatic r e _, .emitted h⟩
  | invoke kind r =>
    obtain ⟨top, st, e, hst, hcall, hputs⟩ := invoke_makes h hes (hctor kind r rfl)
    exact ⟨_, top, st, e, hst, .invoke hcall, hputs⟩
  | _ => cases hi

/-- What is left of a stack, below entries that were taken, is a stack. -/
theorem entries_below (hes : m.Entries) (hst : m.stack = top ++ st) :
    Machine.Entries { m with stack := st, asked } :=
  fun e he => hes e (by simp [hst, he])

theorem Puts.advances {gives : Bool} (h : Puts env m m' gives e st) (hm : m.Coherent)
    (hes : m.Entries)
    (hst : m.stack = top ++ st) (he : gives = true → e.Entry m.vars.size) : m.Advances m' := by
  obtain ⟨asked, h⟩ := h
  cases gives with
  | true =>
    obtain rfl : m' = { m with stack := e :: st, asked } := h
    refine Machine.Adds.advances (.of_eq rfl rfl rfl rfl rfl) hm ?_
    intro d hd
    rcases List.mem_cons.1 hd with rfl | hd
    · exact he rfl
    · exact hes d (by simp [hst, hd])
  | false =>
    obtain ⟨hadds, hes', _⟩ := emit_spec h (entries_below hes hst) rfl
    exact hadds.of_below.advances hm hes'

theorem advances_of_makesExpr (h : step env i m = .ok () m') (hm : m.Coherent) (hes : m.Entries)
    (hi : i.makesExpr = true)
    (hctor : ∀ kind r, i = .invoke kind r → (env.method r (kind = .static)).isConstructor = false) :
    m.Advances m' := by
  obtain ⟨gives, top, st, e, hst, hmakes, hputs⟩ := step_makes h hes hi hctor
  exact hputs.advances hm hes hst fun hgives => hmakes.entry hgives fun a ha =>
    hes a (by simp [hst, ha])

end Lift

/-- What a frame that is matched holds, below and on top. -/
theorem Matches.split {top : List Expr} (h : Matches w env final m f s) (hes : m.Entries)
    (hst : m.stack = top ++ st) : ∃ us ts t, w.evalStack st s = .ok us t ∧ t.vars = s.vars ∧
      w.evalStack top t = .ok ts ⟨s.vars, f.memory⟩ ∧ f.stack = ts ++ us ∧
      top.map (env.isWide m.vars) = ts.map Value.isWide ∧
      st.map (env.isWide m.vars) = us.map Value.isWide := by
  have hstack := h.stack
  rw [hst] at hstack
  obtain ⟨us, ts, t, hus, hts, hf⟩ := World.evalStack_append_eq_ok.1 hstack
  have hwides := h.wides
  rw [hst, hf, List.map_append, List.map_append] at hwides
  have hlen : (top.map (env.isWide m.vars)).length = (ts.map Value.isWide).length := by
    rw [List.length_map, List.length_map, World.length_of_evalStack hts]
  obtain ⟨htop, hbelow⟩ := List.append_inj hwides hlen
  have hvars := vars_of_evalStack (fun e he => hes e (by simp [hst, he])) hus
  exact ⟨us, ts, t, hus, hvars, hts, hf, htop, hbelow⟩

/-- Spilling keeps a frame matched. -/
theorem Matches.spillStack {chosen : Nat → Expr → Bool} (hmatch : Matches w env final m f s)
    (hm : m.Coherent) (hes : m.Entries) (h : Lift.spillStack env chosen m = .ok () m')
    (hfinal : m'.Grows ls final) :
    ∃ s', m.Passes w.semantics m' s s' ∧ Matches w env final m' f s' ∧
      ∀ y : Var, y.index < m.vars.size → s'.vars y = s.vars y := by
  obtain ⟨hadds, _, _, hwides, hkeep⟩ := spillStack_spec h hes
  obtain ⟨s', hemitted, hstack, hvars⟩ := hkeep w s _ _ hmatch.stack
  refine ⟨s', hemitted, ⟨hstack, hwides.trans hmatch.wides, hmatch.locals.of_vars fun k v hk => ?_⟩,
    fun y hy => hvars y (.inl hy)⟩
  exact hvars v (hadds.old_or_later hm hfinal hk)

/-- An expression statement is emitted in place of an instruction with an effect. -/
theorem HoldsLocals.emit_expr {asked : List Query} {e : Expr} {t : Store ρ η}
    {us : List (Value ρ)} {x : Value ρ}
    {μ : Memory ρ η} (pc : Nat) (h : HoldsLocals final f.locals s) (hm : m.Coherent)
    (hemit : Lift.emit env (.expr e) none true { m with stack := st, asked } = .ok () m')
    (hfinal : m'.Grows ls final) (hst : Machine.Entries { m with stack := st, asked })
    (he : Eval.Stays (fun x => x.index < m.vars.size) (w.eval e))
    (hus : w.evalStack st s = .ok us t) (hx : w.eval e t = .ok x ⟨s.vars, μ⟩)
    (hwides : st.map (env.isWide m.vars) = us.map Value.isWide) :
    ∃ s', m.Passes w.semantics m' s s' ∧
      Matches w env final m' { f with pc, stack := us, memory := μ } s' ∧
      ∀ y : Var, y.index < m.vars.size → s'.vars y = s.vars y := by
  obtain ⟨s', hemitted, hstack, hvars⟩ := emit_expr_runs hemit hst he (fun _ hx => hx) hus hx
  obtain ⟨hadds, _, hwides'⟩ := emit_spec hemit hst rfl
  refine ⟨s', hemitted, ⟨hstack, hwides'.trans hwides, h.of_vars fun k v hk => ?_⟩, fun y hy =>
    hvars y (.inl hy)⟩
  exact hvars v (hadds.of_below.old_or_later hm hfinal hk)

section

variable {ctx : Context} {code : Code} {flow : Flow}

theorem Context.Supports.isConstructor (h : ctx.Supports i) (kind : InvokeKind) (r : MemberRef)
    (hi : i = .invoke kind r) :
    ((ctx.env code flow).method r (kind = .static)).isConstructor = false := by
  subst hi
  exact h.2

/-- An instruction that makes an expression is lifted rightly. -/
theorem Matches.makesExpr {vs : List (Value ρ)} {μ : Memory ρ η} {pc : Nat}
    (hmatch : Matches w (ctx.env code flow) final m f s) (hm : m.Coherent) (hes : m.Entries)
    (h : Lift.step (ctx.env code flow) i m = .ok () m') (hfinal : m'.Grows ls final)
    (hi : i.makesExpr = true) (hsupports : ctx.Supports i)
    (hfits : (ctx.env code flow).fits m.vars m.stack i = true)
    (hrun : w.compute ctx i f.stack f.memory = some (vs, μ)) :
    MatchesAfter w (ctx.env code flow) final m m' { f with pc, stack := vs, memory := μ } s := by
  obtain ⟨gives, top, st, e, hst, hmakes, asked, hputs⟩ :=
    Lift.step_makes h hes hi hsupports.isConstructor
  obtain ⟨us, ts, t, hus, hvars, hts, hf, htop, hbelow⟩ := hmatch.split hes hst
  rw [hf] at hrun
  rw [hst] at hfits
  obtain ⟨v, hv, hgives⟩ := hmakes.eval hsupports hfits hts htop hrun
  cases gives with
  | true =>
    obtain ⟨rfl, hwide⟩ := hgives
    obtain rfl : m' = { m with stack := e :: st, asked } := hputs
    refine ⟨s, .of_out rfl, ?_, ?_, hmatch.locals⟩
    · exact World.evalStack_cons_eq_ok.2 ⟨us, v, t, hus, hv, rfl⟩
    · show (e :: st).map ((ctx.env code flow).isWide m.vars) = (v :: us).map Value.isWide
      rw [List.map_cons, List.map_cons, hwide, hbelow]
  | false =>
    obtain rfl : vs = us := hgives
    obtain ⟨s', hemitted, hmatch', _⟩ := hmatch.locals.emit_expr pc hm hputs hfinal
      (Lift.entries_below hes hst) (hmakes.stays w fun a ha =>
      hes a (by simp [hst, ha])) hus hv hbelow
    exact ⟨s', hemitted, hmatch'⟩

end

end ByteLift
