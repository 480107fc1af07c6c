import ByteLift.Proofs.Lift.Calculation

/-!
# Lifting code that may throw

As long as no division by zero is met, the assignments emitted for an instruction do to the
variables what it does to the frame. Where the stack machine throws, an entry of the lifting
machine's stack throws, and it stays so behind each instruction that does not drop the entry.
-/

namespace ByteLift

open World

open Expr Lift Interpretation

variable {ρ η : Type} {env : Env} {m m' : Machine} {vals : Var → Value ρ} {f : Frame ρ η} {pc : Nat}

/-! ## Frames and variables -/

section

variable {I : Interpretation (Value ρ) Unit} {m₁ : Machine} {vals' : Var → Value ρ}
  {locals : Nat × LocalKind → Option (Value ρ)}

/-- The locals of a frame are in the variables that stand for them, each of the kind it is kept
under. -/
structure Machine.HasLocals (m : Machine) (vals : Var → Value ρ)
    (locals : Nat × LocalKind → Option (Value ρ)) : Prop where
  wide : m.WideLocals
  kind : ∀ k x, locals k = some x → x.kind = k.2
  value : ∀ k x, locals k = some x → ∃ v, entered? k m.locals = some (.var v) ∧ vals v = x

/-- The stack and the locals of a frame can be computed from the variables. -/
structure Holds (I : Interpretation (Value ρ) Unit) (env : Env) (m : Machine) (vals : Var → Value ρ)
    (f : Frame ρ η) : Prop where
  stack : I.values? vals m.stack = some f.stack
  wides : m.stack.map (env.isWide m.vars) = f.stack.map Value.isWide
  locals : m.HasLocals vals f.locals

/-- The statements emitted between two states are assignments that lead to variables which a frame
can be computed from. -/
def Follows (I : Interpretation (Value ρ) Unit) (env : Env) (m m' : Machine) (vals : Var → Value ρ)
    (f : Frame ρ η) : Prop :=
  ∃ row vals', m.Assigns m' row ∧ I.assign? row vals = some vals' ∧ Holds I env m' vals' f

/-- The statements emitted between two states are assignments, and one of them or an entry behind
them throws. -/
def Fails (I : Interpretation (Value ρ) Unit) (m m' : Machine) (vals : Var → Value ρ) : Prop :=
  ∃ row, m.Assigns m' row ∧ ((I.assign? row vals).bind fun vals' => I.values? vals' m'.stack) = none

theorem Follows.of_out (hout : m'.out = m.out) (h : Holds I env m' vals f) :
    Follows I env m m' vals f :=
  ⟨[], vals, .nil hout, rfl, h⟩

theorem Fails.of_out (hout : m'.out = m.out) (h : I.values? vals m'.stack = none) :
    Fails I m m' vals :=
  ⟨[], .nil hout, h⟩

theorem Machine.HasLocals.of_adds (h : m.HasLocals vals locals) (hm : m.OwnLocals)
    (hadds : m.Adds m')
    (hvals : ∀ x : Var, x.index < m.vars.size → vals' x = vals x) : m'.HasLocals vals' locals := by
  refine ⟨h.wide.of_adds hm hadds, h.kind, fun k x hx => ?_⟩
  obtain ⟨v, hk, hv⟩ := h.value k x hx
  have hlt := hm.index_lt hk
  exact ⟨v, by rw [hadds.locals, hk], by rw [hvals v hlt, hv]⟩

/-- The values of a stack fall apart as the entries do. -/
theorem Holds.split {top st : List Expr} (h : Holds I env m vals f) (hst : m.stack = top ++ st) :
    ∃ ts us, f.stack = ts ++ us ∧ I.values? vals top = some ts ∧ I.values? vals st = some us ∧
      top.map (env.isWide m.vars) = ts.map Value.isWide ∧
      st.map (env.isWide m.vars) = us.map Value.isWide := by
  have hstack := h.stack
  have hwides := h.wides
  rw [hst] at hstack hwides
  obtain ⟨ts, us, hts, hus, hf⟩ := values?_append_eq_some.1 hstack
  rw [hf, List.map_append, List.map_append] at hwides
  obtain ⟨htop, hbelow⟩ := List.append_inj hwides (by simp [length_of_values? hts])
  exact ⟨ts, us, hf, hts, hus, htop, hbelow⟩

variable {es : List Expr} {vs : List (Value ρ)} {chosen : Nat → Expr → Bool} {v : Var} {e : Expr}
  {effects : Bool}

/-- The stack is replaced by one with other values. -/
theorem Holds.withStack (h : Holds I env m vals f) {asked : List Query} {μ : Memory ρ η}
    (hvs : I.values? vals es = some vs)
    (hwides : es.map (env.isWide m.vars) = vs.map Value.isWide) :
    Holds I env { m with stack := es, asked } vals ⟨pc, vs, f.locals, μ⟩ :=
  ⟨hvs, hwides, h.locals.wide, h.locals.kind, h.locals.value⟩

theorem Holds.spillStack (h : Holds I env m vals f) (hm : m.Tidy)
    (hspill : Lift.spillStack env chosen m = .ok () m₁) : Follows I env m m₁ vals f := by
  obtain ⟨hadds, _, _, hwides, _⟩ := spillStack_spec hspill hm.entries
  obtain ⟨row, hkeeps⟩ := exists_keepsOutcome I hspill hm.entries
  have hvalues := hkeeps.values vals
  rw [h.stack] at hvalues
  obtain ⟨vals', hrow, hstack⟩ := Option.bind_eq_some_iff.1 hvalues
  exact ⟨row, vals', hkeeps.toAssigns, hrow, hstack, hwides.trans h.wides,
    h.locals.of_adds hm.toOwnLocals hadds (hkeeps.vars vals vals' hrow)⟩

theorem fails_spillStack (hnone : I.values? vals m.stack = none) (hm : m.Tidy)
    (hspill : Lift.spillStack env chosen m = .ok () m₁) : Fails I m m₁ vals := by
  obtain ⟨row, hkeeps⟩ := exists_keepsOutcome I hspill hm.entries
  exact ⟨row, hkeeps.toAssigns, (hkeeps.values vals).trans hnone⟩

/-- Behind a spill, the stack is put in another order. -/
theorem Follows.withStack {es : List Expr} {vs : List (Value ρ)} {pc : Nat}
    (h : Follows I env m m₁ vals f) (hes : ∀ vals', Holds I env m₁ vals' f →
      I.values? vals' es = some vs ∧ es.map (env.isWide m₁.vars) = vs.map Value.isWide) :
    Follows I env m { m₁ with stack := es } vals ⟨pc, vs, f.locals, f.memory⟩ := by
  obtain ⟨row, vals', hassigns, hrow, hholds⟩ := h
  obtain ⟨hvs, hwides⟩ := hes vals' hholds
  exact ⟨row, vals', ⟨hassigns.out, hassigns.free⟩, hrow, hholds.withStack hvs hwides⟩

theorem Fails.withStack (h : Fails I m m₁ vals)
    (hes : ∀ vals', I.values? vals' m₁.stack = none → I.values? vals' es = none) :
    Fails I m { m₁ with stack := es } vals := by
  obtain ⟨row, hassigns, hnone⟩ := h
  refine ⟨row, ⟨hassigns.out, hassigns.free⟩, ?_⟩
  cases hrow : I.assign? row vals with
  | none => rfl
  | some vals' =>
    rw [hrow] at hnone
    exact hes vals' hnone

/-! ## Assignments to locals -/

/-- The frame after a value was stored in a local. -/
def Frame.stored (f : Frame ρ η) (st : List (Value ρ)) (key : Nat × LocalKind)
    (x : Value ρ) : Frame ρ η :=
  { f with pc := f.pc + 1, stack := st, locals := fun k => if k = key then some x else f.locals k }

/-- An assignment to the variable of a local stores a value in the local. -/
theorem Follows.of_emit {key : Nat × LocalKind} {x : Value ρ} {us : List (Value ρ)} (hm : m.Tidy)
    (hwide : m.WideLocals) (hkinds : ∀ k y, f.locals k = some y → y.kind = k.2)
    (hothers : ∀ k y, k ≠ key → f.locals k = some y → ∃ u,
      entered? k m.locals = some (.var u) ∧ vals u = y)
    (hk : entered? key m.locals = some (.var v)) (hkind : x.kind = key.2)
    (hemit : Lift.emit env (.set v e) (some v) effects m = .ok () m') (he : e.Known m.vars.size)
    (hx : I.value? vals e = some x) (hus : I.values? vals m.stack = some us)
    (hwides : m.stack.map (env.isWide m.vars) = us.map Value.isWide) :
    Follows I env m m' vals (f.stored us key x) := by
  have hv := hm.index_lt hk
  obtain ⟨hadds, _, hwides'⟩ := emit_spec hemit hm.entries rfl
  obtain ⟨row, hsets⟩ := exists_setsVariable I hemit hm.entries he hv
  have hvalues := hsets.values vals
  rw [hx, hus] at hvalues
  obtain ⟨vals', hrow, hpair⟩ := Option.bind_eq_some_iff.1 hvalues
  obtain ⟨vs, hvs, heq⟩ := Option.map_eq_some_iff.1 hpair
  cases heq
  refine ⟨row, vals', hsets.toAssigns, hrow, hvs, hwides'.trans hwides,
    hwide.of_adds hm.toOwnLocals hadds, fun k y hy => ?_, fun k y hy => ?_⟩
  · simp only [Frame.stored] at hy
    split at hy
    · rename_i hkey
      cases hy
      rw [hkey, hkind]
    · exact hkinds k y hy
  · rw [hadds.locals]
    simp only [Frame.stored] at hy
    split at hy
    · rename_i hkey
      cases hy
      exact ⟨v, hkey ▸ hk, rfl⟩
    · -- Another local has another variable, which the row leaves alone.
      rename_i hkey
      obtain ⟨u, hu, rfl⟩ := hothers k y hkey hy
      have hult := hm.index_lt hu
      refine ⟨u, hu, hsets.vars vals vals' hrow u hult ?_⟩
      rintro rfl
      exact hkey (hm.inj k key u hu hk)

theorem Fails.of_emit (hm : m.Tidy) (hv : v.index < m.vars.size)
    (hemit : Lift.emit env (.set v e) (some v) effects m = .ok () m') (he : e.Known m.vars.size)
    (hnone : I.value? vals e = none ∨ I.values? vals m.stack = none) : Fails I m m' vals := by
  obtain ⟨row, hsets⟩ := exists_setsVariable I hemit hm.entries he hv
  refine ⟨row, hsets.toAssigns, ?_⟩
  have hvalues := hsets.values vals
  have hright :
    ((I.value? vals e).bind fun x => (I.values? vals m.stack).map fun vs => (x, vs)) = none := by
    rcases hnone with hnone | hnone
    · rw [hnone]
      rfl
    · rw [hnone]
      cases I.value? vals e <;> rfl
  rw [hright] at hvalues
  cases hrow : I.assign? row vals with
  | none => rfl
  | some vals' =>
    rw [hrow, Option.bind_some, Option.map_eq_none_iff] at hvalues
    exact hvalues

end

/-! ## Instructions -/

/-- The entries that an instruction drops. -/
def Lift.dropped (env : Env) (i : Instruction) (m : Machine) : List Expr :=
  let words := match i with
    | .pop => 1
    | .pop2 => 2
    | _ => 0
  match takeWords env words m with
  | .ok es _ => es
  | .error .. => []

section

variable [DecidableEq ρ] {w : World ρ η} {exception : ρ} {i : Instruction} {ctx : Context}

/-- A division by zero leaves an entry that throws. -/
theorem fails_of_dividesByZero (h : Lift.step env i m = .ok () m') (hm : m.Tidy)
    (hi : i.calculates = true)
    (hholds : Holds (w.throwing exception) env m vals f) (hzero : f.dividesByZero i = true) :
    Fails (w.throwing exception) m m' vals := by
  cases i with
  | arith op kind =>
    obtain ⟨top, st, e, asked, hst, hmakes, rfl⟩ := step_makes_of_calculates h hm.entries hi rfl
    obtain ⟨ts, us, hf, hts, _⟩ := hholds.split hst
    refine .of_out rfl (values?_cons_eq_none.2 (.inl ?_))
    exact hmakes.value?_of_dividesByZero (fun a ha => hm.entries a (by simp [hst, ha])) hts hf hzero
  | _ => cases hzero

variable {kind : LocalKind} {slot : Nat} {x : Value ρ} {us : List (Value ρ)}

section

variable (hholds : Holds (w.throwing exception) env m vals f)
include hholds

theorem Holds.load (h : Lift.step env (.load kind slot) m = .ok () m') (hm : m.Tidy)
    (hx : f.locals (slot, kind) = some x) :
    Follows (w.throwing exception) env m m' vals { f with pc, stack := x :: f.stack } := by
  obtain ⟨v, hk, rfl⟩ := load_eq_ok h hm.toOwnLocals
  obtain ⟨u, hu, hv⟩ := hholds.locals.value _ x hx
  rw [hk] at hu
  cases hu
  refine .of_out rfl (hholds.withStack ?_ ?_)
  · exact values?_cons_eq_some.2 ⟨x, f.stack, by rw [value?_var, hv], hholds.stack, rfl⟩
  · rw [List.map_cons, List.map_cons, hholds.wides, Value.isWide, hholds.locals.kind _ x hx]
    exact congrArg (· :: _) (hholds.locals.wide _ v hk)

/-- A store assigns the variable of its slot what the frame stores. -/
theorem Holds.store (h : Lift.step env (.store kind slot) m = .ok () m') (hm : m.Tidy)
    (hstatic : env.isStatic = true) (hf : f.stack = x :: us) (hkind : x.kind = kind) :
    Follows (w.throwing exception) env m m' vals (f.stored us (slot, kind) x) := by
  obtain ⟨value, st, v, m₁, hst, hlocal, hemit⟩ := store_eq_ok h hstatic
  obtain ⟨_, _, hf', hts, hus, htop, hbelow⟩ := hholds.split (show m.stack = [value] ++ st from hst)
  obtain ⟨y, hy, rfl⟩ := values?_one_eq_some.1 hts
  rw [hf] at hf'
  cases hf'
  have hm₀ : Machine.Tidy { m with stack := st } := hm.withStack fun e he => by simp [hst, he]
  obtain ⟨hm₁, _, hstack, hout, hext, hk, hothers⟩ := hm₀.localForStore hlocal
  -- A reference takes one word, so the entry that stands for it has a type that does.
  have hty : kind = .reference → (env.typeOf m.vars value).isWide = false := by
    rintro rfl
    have hwide : (env.typeOf m.vars value).isWide = x.isWide := (List.cons.inj htop).1
    rw [hwide, Value.isWide, hkind]
    rfl
  have hwide₀ : Machine.WideLocals { m with stack := st } := hholds.locals.wide
  have hentry : ∀ e ∈ value :: st, e.Entry m.vars.size := fun e he => hm.entries e (hst ▸ he)
  rw [List.forall_mem_cons] at hentry
  obtain ⟨row, vals', hassigns, hrow, hholds'⟩ := Follows.of_emit (f := f) hm₁
    (hwide₀.localForStore hm₀.toOwnLocals hlocal hty) hholds.locals.kind
    (fun k y hne hy => by rw [hothers k hne]; exact hholds.locals.value k y hy) hk hkind hemit
    ((hentry.1.toKnown.mono hext.size).coerce _) (by rw [value?_coerce, hy])
    (by rw [hstack]; exact hus) (by
      rw [hstack, ← hbelow]
      exact List.map_congr_left fun e he => env.isWide_of_extends hext (hentry.2 e he))
  exact ⟨row, vals', ⟨by rw [hassigns.out, hout], hassigns.free⟩, hrow, hholds'⟩

theorem Holds.iinc {amount : Int16} {k : Int32}
    (h : Lift.step env (.iinc slot amount) m = .ok () m') (hm : m.Tidy)
    (hk : f.locals (slot, .int) = some (.int k)) :
    Follows (w.throwing exception) env m m' vals
      (f.stored f.stack (slot, .int) (.int (k + amount.toInt32))) := by
  obtain ⟨v, e, hv, rfl, hknown, hemit⟩ := iinc_eq_ok h hm.toOwnLocals
  obtain ⟨u, hu, hvalue⟩ := hholds.locals.value _ _ hk
  rw [hv] at hu
  cases hu
  exact .of_emit hm hholds.locals.wide hholds.locals.kind
    (fun j y _ hy => hholds.locals.value j y hy) hv rfl hemit
    hknown (value?_increment _ amount hvalue) hholds.stack hholds.wides

theorem Holds.drop {n : Nat} {taken : List (Value ρ)}
    (h : (takeWords env n >>= fun es => discard env es.reverse) m = .ok () m') (hm : m.Tidy)
    (hrun : Frame.takeWords n f.stack = some (taken, us)) :
    Follows (w.throwing exception) env m m' vals { f with pc, stack := us } := by
  obtain ⟨top, st, _, hst, rfl, htake⟩ := drop_eq_ok_of_quiet h hm.quiet
  obtain ⟨ts, us', hf, _, hus, htop, hbelow⟩ := hholds.split hst
  rw [hf, htake ts us' htop] at hrun
  cases hrun
  exact .of_out rfl (hholds.withStack hus hbelow)

/-- Duplicated entries have the values that the frame duplicates. -/
theorem Holds.duplicate {group under : Nat} {vs : List (Value ρ)}
    (h : Lift.duplicate env group under m = .ok () m')
    (hm : m.Tidy) (hrun : Frame.duplicate group under f.stack = some vs) :
    Follows (w.throwing exception) env m m' vals { f with pc, stack := vs } := by
  obtain ⟨_, _, _, m₁, top, below, st, _, hspill, hgroups, rfl⟩ := duplicate_eq_ok h
  refine (hholds.spillStack hm hspill).withStack fun vals' hholds' => ?_
  obtain ⟨ts, bus, hf, hts, hbus, htop, hwides⟩ := hholds'.split hgroups.stack
  obtain ⟨bs, us, hbs, hus, rfl⟩ := values?_append_eq_some.1 hbus
  rw [List.map_append, List.map_append] at hwides
  obtain ⟨hbelow, hst⟩ := List.append_inj hwides (by simp [length_of_values? hbs])
  simp only [Frame.duplicate, hf, hgroups.take ts _ htop, hgroups.take_below bs us hbelow,
    Option.bind_eq_bind, Option.bind_some, Option.some.injEq] at hrun
  subst hrun
  constructor
  · simp only [values?_append, hts, hbs, hus, Option.bind_some, Option.map_some]
  · simp only [List.map_append, htop, hbelow, hst]

theorem Holds.swap {y : Value ρ} (h : Lift.swap env m = .ok () m') (hm : m.Tidy)
    (hrun : Frame.takeWords 2 f.stack = some ([y, x], us)) :
    Follows (w.throwing exception) env m m' vals { f with pc, stack := x :: y :: us } := by
  obtain ⟨a₀, b₀, st₀, m₁, a, b, st, hst₀, htake, hspill, hst, rfl⟩ := swap_eq_ok h
  obtain ⟨ts, us₀, hf, _, _, htop, _⟩ := hholds.split hst₀
  rw [hf, htake ts us₀ htop] at hrun
  cases hrun
  refine (hholds.spillStack hm hspill).withStack fun vals' hholds' => ?_
  obtain ⟨hstack, hwides, _⟩ := hholds'
  rw [hst, show f.stack = y :: x :: us from hf] at hstack hwides
  obtain ⟨_, _, hy, hrest, heq⟩ := values?_cons_eq_some.1 hstack
  obtain ⟨_, _, hx, hus, rfl⟩ := values?_cons_eq_some.1 hrest
  cases heq
  constructor
  · simp only [values?_cons, hx, hy, hus, Option.bind_some, Option.map_some]
  · obtain ⟨hb, hwides⟩ := List.cons.inj hwides
    obtain ⟨ha, hbelow⟩ := List.cons.inj hwides
    rw [List.map_cons, List.map_cons, List.map_cons, List.map_cons, ha, hb, hbelow]

end

/-- An instruction is stuck, or leads to a frame that can be computed behind the assignments emitted
for it. -/
inductive Continues (I : Interpretation (Value ρ) Unit) (env : Env) (m m' : Machine)
    (vals : Var → Value ρ) (f : Frame ρ η) : World.FrameStep ρ η → Prop
  | stuck : Continues I env m m' vals f (.stop none)
  | on {f' : Frame ρ η} : f'.pc = f.pc + 1 → f'.memory = f.memory → Follows I env m m' vals f' →
      Continues I env m m' vals f (.on f')

/-- An instruction that neither uses locals nor passes control only changes the stack. -/
theorem Continues.of_compute (hrun : ∀ st μ, w.compute ctx i f.stack f.memory = some (st, μ) →
      μ = f.memory ∧ Follows (w.throwing exception) env m m' vals
      { f with pc := f.pc + 1, stack := st }) :
    Continues (w.throwing exception) env m m' vals f (match w.compute ctx i f.stack f.memory with
      | some (st, memory) => .on { f with pc := f.pc + 1, stack := st, memory }
      | none => .stop none) := by
  split
  · rename_i st μ hst
    obtain ⟨rfl, hfollows⟩ := hrun st μ hst
    exact .on rfl rfl hfollows
  · exact .stuck

/-- What an instruction does to a frame, the assignments emitted for it do to the variables. -/
theorem Holds.step (hholds : Holds (w.throwing exception) env m vals f)
    (h : Lift.step env i m = .ok () m')
    (hm : m.Tidy) (hi : i.calculates = true) (hends : i.endsFlow = false)
    (hstatic : env.isStatic = true)
    (hzero : f.dividesByZero i = false) (ctx : Context) (code : Code) :
    Continues (w.throwing exception) env m m' vals f (w.exec ctx code f i) := by
  have hmade (hmakes : i.makesExpr = true) (st : List (Value ρ)) (μ : Memory ρ η)
      (hrun : w.compute ctx i f.stack f.memory = some (st, μ)) :
      μ = f.memory ∧ Follows (w.throwing exception) env m m' vals
      { f with pc := f.pc + 1, stack := st } := by
    obtain ⟨top, below, e, asked, hst, hmakes, rfl⟩ :=
      step_makes_of_calculates h hm.entries hi hmakes
    obtain ⟨ts, us, hf, hts, hus, htop, hbelow⟩ := hholds.split hst
    rw [hf] at hrun
    obtain ⟨x, hx, rfl, rfl, hwide⟩ :=
      hmakes.value?_eq_some hi (fun a ha => hm.entries a (by simp [hst, ha])) hts htop hf hzero hrun
    refine ⟨rfl, .of_out rfl (hholds.withStack (values?_cons_eq_some.2 ⟨x, us, hx, hus, rfl⟩) ?_)⟩
    rw [List.map_cons, List.map_cons, hwide, hbelow]
  cases i with
  | nop =>
    obtain ⟨_, rfl⟩ := pure_eq_ok.1 h
    exact .on rfl rfl (.of_out rfl (hholds.withStack hholds.stack hholds.wides))
  | load kind slot =>
    unfold exec
    dsimp only
    split
    · rename_i x hx
      exact .on rfl rfl (hholds.load h hm hx)
    · exact .stuck
  | store kind slot =>
    unfold exec
    dsimp only
    split
    · rename_i x us hf
      split
      · rename_i hkind
        exact .on rfl rfl (hholds.store h hm hstatic hf hkind)
      · exact .stuck
    · exact .stuck
  | iinc slot amount =>
    unfold exec
    dsimp only
    split
    · rename_i k hk
      exact .on rfl rfl (hholds.iinc h hm hk)
    · exact .stuck
  | pop | pop2 =>
    refine Continues.of_compute fun st μ hrun => ?_
    obtain ⟨⟨taken, us⟩, htaken, heq⟩ := Option.map_eq_some_iff.1 hrun
    cases heq
    exact ⟨rfl, hholds.drop h hm htaken⟩
  | dup | dupX1 | dupX2 | dup2 | dup2X1 | dup2X2 =>
    refine Continues.of_compute fun st μ hrun => ?_
    obtain ⟨_, hdup, heq⟩ := Option.map_eq_some_iff.1 hrun
    cases heq
    exact ⟨rfl, hholds.duplicate h hm hdup⟩
  | swap =>
    refine Continues.of_compute fun st μ hrun => ?_
    unfold compute at hrun
    dsimp only at hrun
    split at hrun
    · rename_i b a us htaken
      cases hrun
      exact ⟨rfl, hholds.swap h hm htaken⟩
    · cases hrun
  | methodReturn kind => cases hends
  | aconstNull | iconst | lconst | fconst | dconst | ldc | arith | neg | convert | compare =>
    exact .of_compute (hmade rfl)
  | _ => cases hi

/-! ## Behind an exception -/

section

variable (hnone : (w.throwing exception).values? vals m.stack = none)
include hnone

theorem fails_drop {n : Nat}
    (h : (takeWords env n >>= fun es => discard env es.reverse) m = .ok () m') (hm : m.Tidy)
    (hpure : ∀ es m₁, takeWords env n m = .ok es m₁ → ∀ e ∈ es, e.isPure = true) :
    Fails (w.throwing exception) m m' vals := by
  obtain ⟨top, st, htop, hst, rfl, _⟩ := drop_eq_ok_of_quiet h hm.quiet
  rw [hst, values?_append_eq_none] at hnone
  refine .of_out rfl (hnone.resolve_left fun hnone => ?_)
  obtain ⟨e, he, hnone⟩ := values?_eq_none.1 hnone
  obtain ⟨v, hv⟩ := (w.calm_throwing exception).exists_value? (hpure top _ htop e he) vals
  cases hnone.symm.trans hv

theorem fails_store (h : Lift.step env (.store kind slot) m = .ok () m') (hm : m.Tidy)
    (hstatic : env.isStatic = true) : Fails (w.throwing exception) m m' vals := by
  obtain ⟨value, st, v, m₁, hst, hlocal, hemit⟩ := store_eq_ok h hstatic
  have hm₀ : Machine.Tidy { m with stack := st } := hm.withStack fun e he => by simp [hst, he]
  obtain ⟨hm₁, hv, hstack, hout, hext, _, _⟩ := hm₀.localForStore hlocal
  have hvalue : value.Known m₁.vars.size :=
    (hm.entries value (by simp [hst])).toKnown.mono hext.size
  rw [hst, values?_cons_eq_none, ← value?_coerce value (m₁.vars.ty v),
    show st = m₁.stack from hstack.symm] at hnone
  obtain ⟨row, hassigns, hfails⟩ := Fails.of_emit hm₁ hv hemit (hvalue.coerce _) hnone
  exact ⟨row, ⟨by rw [hassigns.out, hout], hassigns.free⟩, hfails⟩

theorem fails_duplicate {group under : Nat} (h : Lift.duplicate env group under m = .ok () m')
    (hm : m.Tidy) : Fails (w.throwing exception) m m' vals := by
  obtain ⟨_, _, _, m₁, top, below, st, _, hspill, hgroups, rfl⟩ := duplicate_eq_ok h
  refine (fails_spillStack hnone hm hspill).withStack fun vals' hnone' => ?_
  rw [hgroups.stack] at hnone'
  simp only [values?_append_eq_none] at hnone' ⊢
  tauto

theorem fails_swap (h : Lift.swap env m = .ok () m') (hm : m.Tidy) :
    Fails (w.throwing exception) m m' vals := by
  obtain ⟨_, _, _, m₁, a, b, st, _, _, hspill, hst, rfl⟩ := swap_eq_ok h
  refine (fails_spillStack hnone hm hspill).withStack fun vals' hnone' => ?_
  rw [hst] at hnone'
  simp only [values?_cons_eq_none] at hnone' ⊢
  tauto

/-- An entry that throws stays on the stack, or becomes a part of one that throws, or is stored,
unless it is dropped. -/
theorem fails_step (h : Lift.step env i m = .ok () m') (hm : m.Tidy) (hi : i.calculates = true)
    (hends : i.endsFlow = false) (hstatic : env.isStatic = true)
    (hpure : ∀ e ∈ dropped env i m, e.isPure = true) : Fails (w.throwing exception) m m' vals := by
  have hmade (hmakes : i.makesExpr = true) : Fails (w.throwing exception) m m' vals := by
    obtain ⟨top, st, e, asked, hst, hmakes, rfl⟩ := step_makes_of_calculates h hm.entries hi hmakes
    rw [hst, values?_append_eq_none] at hnone
    refine .of_out rfl (values?_cons_eq_none.2 (hnone.imp_left fun htop => ?_))
    exact hmakes.value?_eq_none hi (fun a ha => hm.entries a (by simp [hst, ha])) htop
  cases i with
  | nop =>
    obtain ⟨_, rfl⟩ := pure_eq_ok.1 h
    exact .of_out rfl hnone
  | load kind slot =>
    obtain ⟨v, _, rfl⟩ := load_eq_ok h hm.toOwnLocals
    exact .of_out rfl (values?_cons_eq_none.2 (.inr hnone))
  | store kind slot => exact fails_store hnone h hm hstatic
  | iinc slot amount =>
    obtain ⟨v, e, hk, _, hknown, hemit⟩ := iinc_eq_ok h hm.toOwnLocals
    have hv := hm.index_lt hk
    exact .of_emit hm hv hemit hknown (.inr hnone)
  | pop | pop2 =>
    refine fails_drop hnone h hm fun es m₁ htop e he => hpure e ?_
    rw [dropped, htop]
    exact he
  | dup | dupX1 | dupX2 | dup2 | dup2X1 | dup2X2 => exact fails_duplicate hnone h hm
  | swap => exact fails_swap hnone h hm
  | methodReturn kind => cases hends
  | aconstNull | iconst | lconst | fconst | dconst | ldc | arith | neg | convert | compare =>
    exact hmade rfl
  | _ => cases hi

end

end

end ByteLift
