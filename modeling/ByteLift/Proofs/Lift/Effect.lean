import ByteLift.Proofs.Lift.Depth

/-!
# How many values an instruction takes and gives

Lifting an instruction takes as many entries off the stack, and puts as many on it, as the
instruction does with values. An instruction that jumps leaves the number of values below its
operands recorded at each label that it goes to.
-/

namespace ByteLift

open List

variable {pops pushes : Nat}

/-! ## Counting values -/

namespace Instruction

/-- The numbers of values that a call takes and gives. A constructor takes the object that it makes
ready. -/
def callEffect (kind : InvokeKind) (r : MemberRef) : Nat × Nat :=
  let (params, result) := MethodRef.signature r.descriptor
  if r.name = "<init>" then (params.length + 1, 0)
  else
    (params.length + if kind = .static then 0 else 1, if result = .void then 0 else 1)

/-- The numbers of values that an instruction takes off the stack and puts on it. There are none if
they depend on how many words the values take. -/
def stackEffect? : Instruction → Option (Nat × Nat)
  | nop | iinc .. | goto _ | ret _ | methodReturn none => some (0, 0)
  | aconstNull | iconst _ | lconst _ | fconst _ | dconst _ | ldc _ | load .. | getStatic _ | new _
  | jsr _ =>
    some (0, 1)
  | store .. | pop | ifZero .. | ifNull _ | ifNonNull _ | tableSwitch .. | lookupSwitch ..
  | putStatic _ | methodReturn (some _) | athrow | monitorEnter | monitorExit => some (1, 0)
  | arrayLength | newArray _ | anewArray _ | neg _ | convert _ | getField _ | checkCast _
  | instanceOf _ =>
    some (1, 1)
  | ifInt .. | ifRef .. | putField _ => some (2, 0)
  | arrayLoad _ | arith .. | compare _ => some (2, 1)
  | arrayStore _ => some (3, 0)
  | multiNewArray _ dimensions => some (dimensions, 1)
  | dup => some (1, 2)
  | dupX1 => some (2, 3)
  | swap => some (2, 2)
  | invoke kind r => some (callEffect kind r)
  | invokeDynamic _ descriptor =>
    let (params, result) := MethodRef.signature descriptor
    some (params.length, if result = .void then 0 else 1)
  | pop2 | dupX2 | dup2 | dup2X1 | dup2X2 => none

/-- The instructions that leave the method. -/
def isExit : Instruction → Bool
  | methodReturn _ | athrow => true
  | _ => false

end Instruction

/-- Methods are taken to have the names and the descriptors that references to them give. -/
def Context.Resolves (ctx : Context) : Prop :=
  ∀ r isStatic, (ctx.method r isStatic).name = r.name ∧
    ((ctx.method r isStatic).params, (ctx.method r isStatic).result) =
    MethodRef.signature r.descriptor

namespace Lift

variable {α : Type} {c : Lift α} {env : Env} {m m' : Machine}

/-! ## Steps that take entries and put some -/

/-- Steps that take a number of entries off the stack and put a number on it. -/
def Moves (pops pushes : Nat) (c : Lift Unit) : Prop :=
  ∀ m m', c m = .ok () m' →
    pops ≤ m.stack.length ∧ m'.stack.length + pops = m.stack.length + pushes ∧ m.Records m'

namespace Moves

theorem of_levels {c : Lift Unit} (h : Levels c) : Moves 0 0 c := by
  intro m m' hm'
  have hlevel := h m () m' hm'
  exact ⟨Nat.zero_le _, by rw [hlevel.depth], hlevel.records⟩

theorem push (e : Expr) : Moves 0 1 (Lift.push e) := by
  intro m m' h
  obtain rfl := push_eq_ok.1 h
  exact ⟨Nat.zero_le _, rfl, .of_eq rfl⟩

theorem throw {e : Failure} : Moves pops pushes (MonadExcept.throw e) :=
  fun _ _ h => (throw_eq_ok.1 h).elim

variable {f : α → Lift Unit}

theorem after (hc : Levels c) (hf : ∀ a, Moves pops pushes (f a)) :
    Moves pops pushes (c >>= f) := by
  intro m m' h
  obtain ⟨a, m₁, ha, h⟩ := bind_eq_ok.1 h
  have hlevel := hc m a m₁ ha
  obtain ⟨henough, hdepth, hrecords⟩ := hf a m₁ m' h
  rw [hlevel.depth] at henough hdepth
  exact ⟨henough, hdepth, hlevel.records.trans hrecords⟩

/-- Taking entries off the stack first. -/
theorem taking {n : Nat}
    (hc : ∀ m a m', c m = .ok a m' → ∃ top st,
      m.stack = top ++ st ∧ top.length = n ∧ m' = { m with stack := st })
    (hf : ∀ a, Moves pops pushes (f a)) : Moves (pops + n) pushes (c >>= f) := by
  intro m m' h
  obtain ⟨a, _, ha, h⟩ := bind_eq_ok.1 h
  obtain ⟨top, st, hst, rfl, rfl⟩ := hc m a _ ha
  obtain ⟨henough, hdepth, hrecords⟩ := hf a _ m' h
  dsimp only at henough hdepth
  rw [hst, length_append]
  exact ⟨by omega, by omega, hrecords⟩

theorem pop {f : Expr → Lift Unit} (hf : ∀ e, Moves pops pushes (f e)) :
    Moves (pops + 1) pushes (Lift.pop >>= f) :=
  taking (fun _ e _ h => by
    obtain ⟨st, hst, rfl⟩ := pop_eq_ok.1 h
    exact ⟨[e], st, hst, rfl, rfl⟩) hf

theorem popMany (n : Nat) {f : List Expr → Lift Unit} (hf : ∀ es, Moves pops pushes (f es)) :
    Moves (pops + n) pushes (Lift.popMany n >>= f) :=
  taking (fun _ es _ h => by
    obtain ⟨st, hst, hlen, rfl⟩ := popMany_eq_ok h
    exact ⟨es.reverse, st, hst, by rw [length_reverse, hlen], rfl⟩) hf

theorem popArgs (ts : List Ty) {f : List Expr → Lift Unit} (hf : ∀ es, Moves pops pushes (f es)) :
    Moves (pops + ts.length) pushes (Lift.popArgs ts >>= f) :=
  taking (fun _ es _ h => by
    obtain ⟨as, st, hst, hlen, _, rfl⟩ := popArgs_eq_ok h
    exact ⟨as.reverse, st, hst, by rw [length_reverse, hlen], rfl⟩) hf

variable (r : MemberRef) (isStatic : Bool)

theorem lookupField {f : FieldRef → Lift Unit} (hf : ∀ field, Moves pops pushes (f field)) :
    Moves pops pushes (Lift.lookupField env r isStatic >>= f) :=
  after (Relates.bind (.modify fun _ => .of_eq rfl rfl) fun _ => .pure _) hf

theorem lookupMethod {f : MethodRef → Lift Unit}
    (hf : Moves pops pushes (f (env.method r isStatic))) :
    Moves pops pushes (Lift.lookupMethod env r isStatic >>= f) := by
  intro m m' h
  simp only [bind_eq_ok, lookupMethod_eq_ok] at h
  obtain ⟨_, _, ⟨rfl, rfl⟩, h⟩ := h
  obtain ⟨henough, hdepth, hrecords⟩ := hf _ m' h
  exact ⟨henough, hdepth, hrecords⟩

end Moves

theorem moves_emit (e : Expr) (writes : Option Var) (effects : Bool) :
    Moves 0 0 (emit env (.expr e) writes effects) :=
  .of_levels (levels_emit e writes effects)

theorem moves_storeLocal (kind : LocalKind) (slot : Nat) :
    Moves 1 0 (storeLocal env kind slot) := by
  refine .pop fun value => .after Relates.get fun m => ?_
  have hstore : Moves 0 0 (do
      let v ← localForStore slot kind (env.typeOf m.vars value)
      let stored := value.coerce ((← get).vars.ty v)
      emit env (.set v stored) (some v) (!value.isPure)) :=
    .after (levels_localForStore _ _ _) fun _ => .after Relates.get fun _ => moves_emit _ _ _
  dsimp only
  split
  · exact .after (Relates.modify fun _ => .of_eq rfl rfl) fun _ => hstore
  · exact hstore

variable {ctx : Context} {code : Code} {flow : Flow} {target : Address}
  {table : List (Int32 × Address)} {i : Instruction}

/-- A call takes its operands off the stack and leaves its result. -/
theorem moves_invoke (hctx : ctx.Resolves) (kind : InvokeKind) (r : MemberRef) :
    Moves (Instruction.callEffect kind r).1 (Instruction.callEffect kind r).2
      (invoke (ctx.env code flow) kind r) := by
  have hmethod : ((ctx.env code flow).method r (kind = .static)).name = r.name ∧
      (((ctx.env code flow).method r (kind = .static)).params,
        ((ctx.env code flow).method r (kind = .static)).result) =
        MethodRef.signature r.descriptor :=
    hctx r (kind = .static)
  unfold invoke
  refine .lookupMethod r _ ?_
  generalize (ctx.env code flow).method r (kind = .static) = method at hmethod
  have hgive (call : Expr) : Moves 0 (if method.result = .void then 0 else 1)
      (if method.isVoid then emit (ctx.env code flow) (.expr call) none true else push call) := by
    by_cases hvoid : method.result = .void
    · simpa [MethodRef.isVoid, hvoid] using moves_emit _ _ _
    · simpa [MethodRef.isVoid, hvoid] using Moves.push call
  rw [Instruction.callEffect, ← hmethod.1, ← hmethod.2]
  by_cases hinit : method.name = "<init>"
  · have hconstructor : method.isConstructor = true := by
      simpa [MethodRef.isConstructor] using hinit
    simp only [if_pos hinit, if_pos hconstructor, Nat.add_comm _ 1]
    exact .popArgs _ fun args => .pop fun _ => moves_emit _ _ _
  · have hconstructor : ¬ method.isConstructor = true := by
      simpa [MethodRef.isConstructor] using hinit
    simp only [if_neg hinit, if_neg hconstructor]
    rw [Nat.add_comm]
    refine .popArgs _ fun args => ?_
    by_cases hstatic : kind = .static
    · rw [if_pos hstatic, if_pos hstatic]
      exact .after (Relates.pure _) hgive
    · rw [if_neg hstatic, if_neg hstatic]
      exact .pop fun _ => .after (Relates.pure _) hgive

/-- The number of entries that fill at most one word. -/
theorem length_of_take {vars : VarTable} {n : Nat} {es : List Expr} (hn : n ≤ 1)
    (h : ∀ {ρ : Type} (vs us : List (Value ρ)), es.map (env.isWide vars) = vs.map Value.isWide →
      Frame.takeWords n (vs ++ us) = some (vs, us)) : es.length = n := by
  obtain ⟨vs, hvs⟩ : ∃ vs : List (Value Unit), es.map (env.isWide vars) = vs.map Value.isWide := by
    refine ⟨es.map fun e => if env.isWide vars e then .long 0 else .int 0, ?_⟩
    rw [map_map]
    refine map_congr_left fun e _ => ?_
    cases hwide : env.isWide vars e <;> simp [hwide, Value.isWide, Value.kind, LocalKind.isWide]
  have htake := h vs [] hvs
  have hlen : es.length = vs.length := by simpa using congrArg List.length hvs
  rw [hlen]
  obtain rfl | rfl : n = 0 ∨ n = 1 := by omega
  · simp only [Frame.takeWords, Option.some.injEq, Prod.mk.injEq] at htake
    rw [← htake.1]
    rfl
  · cases vs with
    | nil => simp [Frame.takeWords] at htake
    | cons v vs =>
      simp only [cons_append, Frame.takeWords] at htake
      split at htake
      · cases htake
      · simp only [Option.map_some, Option.some.injEq, Prod.mk.injEq, List.cons.injEq,
          true_and] at htake
        rw [← htake.1]
        rfl

theorem moves_duplicate {group under : Nat} (hgroup : group ≤ 1) (hunder : under ≤ 1) :
    Moves (group + under) (group + under + group) (duplicate env group under) := by
  intro m m' h
  obtain ⟨_, _, _, m₁, top, below, st, _, hspill, hgroups, rfl⟩ := duplicate_eq_ok h
  have hlevel := levels_spillStack _ _ _ _ hspill
  have hdepth := hlevel.depth
  have htop := length_of_take hgroup hgroups.take
  have hbelow := length_of_take hunder hgroups.take_below
  rw [hgroups.stack, length_append, length_append] at hdepth
  refine ⟨by omega, ?_, hlevel.records⟩
  simp only [length_append]
  omega

theorem moves_swap : Moves 2 2 (swap env) := by
  intro m m' h
  obtain ⟨_, _, _, m₁, a, b, st, _, _, hspill, hst, rfl⟩ := swap_eq_ok h
  have hlevel := levels_spillStack _ _ _ _ hspill
  have hdepth := hlevel.depth
  simp only [hst, length_cons] at hdepth
  refine ⟨by omega, ?_, hlevel.records⟩
  simp only [length_cons]
  omega

theorem moves_drop : Moves 1 0 (takeWords env 1 >>= fun es => discard env es.reverse) := by
  refine .taking (n := 1) (fun m es m' h => ?_) fun es => .of_levels (levels_discard es.reverse)
  obtain ⟨st, hst, rfl, htake⟩ := takeWords_eq_ok h
  exact ⟨es, st, hst, length_of_take (Nat.le_refl 1) htake, rfl⟩

/-! ## Jumps -/

/-- An address that is gone to has a number of values recorded at its label. -/
def JumpsTo (env : Env) (m : Machine) (depth : Nat) (target : Address) : Prop :=
  ∃ l, env.flow.label? target = some l ∧ HasDepth m l depth

theorem JumpsTo.of_records {depth : Nat} (h : JumpsTo env m depth target)
    (hrecords : m.Records m') : JumpsTo env m' depth target := by
  obtain ⟨l, hl, hdepth⟩ := h
  exact ⟨l, hl, hdepth.of_records hrecords⟩

variable {cond key : Expr} {default : Address}

theorem Prepares.level {l : Label} {cond' : Expr} {m₁ : Machine}
    (h : Prepares env l m cond m₁ cond') : m.Level m₁ := by
  cases h with
  | later _ => exact .of_eq rfl rfl
  | now hspill => exact (levels_spillStack _ _ _ _ hspill).trans (.of_eq rfl rfl)

theorem Keeps.level {key' : Expr} (h : Keeps key m m' key') : m.Level m' := by
  cases h with
  | simple _ => exact .of_eq rfl rfl
  | stored => exact .of_eq rfl rfl

/-- What lifting an instruction that takes and gives numbers of values does to the stack. -/
structure Effect (env : Env) (i : Instruction) (m m' : Machine) (pops pushes : Nat) : Prop where
  enough : pops ≤ m.stack.length
  records : m.Records m'
  runs_on : i.endsFlow = false → m'.stack.length + pops = m.stack.length + pushes
  jumps : ∀ t ∈ i.targets, pushes = 0 ∧ JumpsTo env m' (m.stack.length - pops) t
  exits : i.isExit = true → m.stack.length = pops

theorem Moves.effect (h : Moves pops pushes (step env i)) (hstep : step env i m = .ok () m')
    (htargets : i.targets = []) (hexit : i.isExit = false) : Effect env i m m' pops pushes := by
  obtain ⟨henough, hdepth, hrecords⟩ := h m m' hstep
  exact ⟨henough, hrecords, fun _ => hdepth, by simp [htargets], by simp [hexit]⟩

/-- The instructions that neither jump nor leave the method. -/
theorem moves_step (hctx : ctx.Resolves) (hi : i.stackEffect? = some (pops, pushes))
    (htargets : i.targets.isEmpty = true) (hexit : i.isExit = false) :
    Moves pops pushes (step (ctx.env code flow) i) := by
  cases i with
  | nop =>
    cases hi
    exact .of_levels (Relates.pure _)
  | aconstNull | iconst | lconst | fconst | dconst | ldc | new =>
    cases hi
    exact .push _
  | load kind slot =>
    cases hi
    exact .after (behaves_loadLocal slot kind).relates .push
  | store kind slot =>
    cases hi
    exact moves_storeLocal kind slot
  | iinc slot amount =>
    cases hi
    refine .after (behaves_loadLocal slot .int).relates fun e => ?_
    split
    · exact .after Relates.get fun _ => moves_emit _ _ _
    · exact .of_levels (behaves_mismatch _).relates
  | arrayLoad kind =>
    cases hi
    exact .pop fun _ => .pop fun _ => .after (behaves_typeOf _).relates fun _ => .push _
  | arrayStore kind =>
    cases hi
    exact .pop fun _ => .pop fun _ => .pop fun _ => .after (behaves_typeOf _).relates fun _ =>
      moves_emit _ _ _
  | arrayLength | newArray | anewArray | neg | convert | checkCast | instanceOf =>
    cases hi
    exact .pop fun _ => .push _
  | multiNewArray descriptor dimensions =>
    cases hi
    have hmoves : Moves (0 + pops) 1 (step (ctx.env code flow) (.multiNewArray descriptor pops)) :=
      .popMany pops fun _ => .push _
    rwa [Nat.zero_add] at hmoves
  | pop =>
    cases hi
    exact moves_drop
  | dup =>
    cases hi
    exact moves_duplicate (Nat.le_refl 1) (Nat.zero_le 1)
  | dupX1 =>
    cases hi
    exact moves_duplicate (Nat.le_refl 1) (Nat.le_refl 1)
  | swap =>
    cases hi
    exact moves_swap
  | arith op kind =>
    cases hi
    exact .pop fun _ => .pop fun _ => .after (behaves_typeOf _).relates fun _ =>
      .after (behaves_typeOf _).relates fun _ => .push _
  | compare kind =>
    cases hi
    exact .pop fun _ => .pop fun _ => .push _
  | getField r =>
    cases hi
    exact .pop fun _ => .lookupField r false fun _ => .push _
  | putField r =>
    cases hi
    exact .pop fun _ => .pop fun _ => .lookupField r false fun _ => moves_emit _ _ _
  | getStatic r =>
    cases hi
    exact .lookupField r true fun _ => .push _
  | putStatic r =>
    cases hi
    exact .pop fun _ => .lookupField r true fun _ => moves_emit _ _ _
  | invoke kind r =>
    have heffect : Instruction.callEffect kind r = (pops, pushes) := Option.some.inj hi
    have hmoves : Moves _ _ (step (ctx.env code flow) (.invoke kind r)) := moves_invoke hctx kind r
    rwa [heffect] at hmoves
  | invokeDynamic | monitorEnter | monitorExit | ret => exact .after Relates.get fun _ => .throw
  | pop2 | dupX2 | dup2 | dup2X1 | dup2X2 => cases hi
  | methodReturn | athrow => cases hexit
  | tableSwitch => simp [Instruction.targets] at htargets
  | lookupSwitch => simp [Instruction.targets] at htargets
  | _ => cases htargets

end Lift

end ByteLift
