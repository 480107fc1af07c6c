import Mathlib
import ByteLift.Proofs.Lift.Simulation

/-!
# What lifted code does

Flat code ends as the code it was lifted from does: with the same value returned or thrown, the same
heap and the same calls and stores in the same order; or both run forever.

Beyond being type-correct, the code has to meet one condition, since a local slot keeps the type of
its first store: a slot that first held an array of longs makes the entries of a later array of
references take two words.
-/

namespace ByteLift

open Machine

/-- Whether references take one word at all instructions that lifting comes to. -/
def Context.wordsFit (ctx : Context) (code : Code) (vars : VarTable) (labels : LabelTable) : Bool :=
  match code.flow labels with
  | .error _ => true
  | .ok (flow, _) =>
    let env := ctx.env code flow
    Lift.wordsFit env true (code.instructions.zip flow.reachable) (start env vars)

/-- A static method whose code can be lifted. -/
structure Context.Liftable (ctx : Context) (code : Code) (vars : VarTable) (labels : LabelTable) :
    Prop where
  isStatic : ctx.isStatic = true
  /-- No two instructions share an address. -/
  addresses : (code.instructions.map Addressed.address).Nodup
  /-- Descriptors can be read and are those of the members they name, and no object is made. -/
  supports : ∀ i ∈ code.instructions, ctx.Supports i.instruction
  params : ctx.params.Nodup
  params_lt : ∀ v ∈ ctx.params, v.index < vars.size
  wordsFit : ctx.wordsFit code vars labels = true

section

variable {ρ η : Type} [DecidableEq ρ]

/-- A run of a method in which each instruction gets operands of the kinds it expects, and no switch
meets anything on the stack below its key. -/
structure World.RunsTyped (w : World ρ η) (ctx : Context) (code : Code) (f : Frame ρ η) : Prop where
  never_stuck : ∀ n, w.run ctx code n f ≠ some none
  switch : ∀ f', Visits (w.step ctx code) f f' → ∀ i, code.instructions[f'.pc]? = some i →
    i.instruction.isSwitch = true → f'.stack.length = 1

variable {w : World ρ η} {ctx : Context} {code : Code} {flow : Flow} {vars : VarTable}
  {labels table : LabelTable} {final : Machine} {args : List (Value ρ)} {μ : Memory ρ η}
  {s : Store ρ η}

theorem FlatCode.ofCode_eq_ok {flat : FlatCode}
    (h : (FlatCode.ofCode ctx code vars labels).1 = .ok flat) :
    ∃ flow table final, code.flow labels = .ok (flow, table) ∧
      Lift.run (ctx.env code flow) true (code.instructions.zip flow.reachable)
        (start (ctx.env code flow) vars) = .ok () final ∧
      flat = ⟨final.out, final.vars.finish, table⟩ := by
  unfold FlatCode.ofCode at h
  split at h
  · cases h
  · rename_i flow table hflow
    dsimp only at h
    split at h
    · rename_i final hrun
      cases h
      exact ⟨flow, table, final, hflow, hrun, rfl⟩
    · cases h

section

variable (h : ctx.Liftable code vars labels) (hflow : code.flow labels = .ok (flow, table))
  (hrun : Lift.run (ctx.env code flow) true (code.instructions.zip flow.reachable)
    (start (ctx.env code flow) vars) = .ok () final)
include h hflow hrun

/-- At the start, the machine stands before the first instruction. -/
theorem Context.Liftable.stands :
    Stands ctx code flow final 0 true (start (ctx.env code flow) vars) := by
  have hfits := h.wordsFit
  rw [Context.wordsFit, hflow] at hfits
  exact ⟨coherent_start h.isStatic h.params h.params_lt,
    by simp [Machine.Entries, start], hrun, hfits⟩

theorem Context.Liftable.lifted : Lifted ctx code flow final := by
  obtain ⟨hm, hes, _, hfits⟩ := h.stands hflow hrun
  have hsupports : ∀ it ∈ code.instructions.zip flow.reachable, ctx.Supports it.1.instruction :=
    fun it hit => h.supports _ (List.of_mem_zip hit).1
  obtain ⟨hgrows, hcoherent⟩ := Lift.grows_run hrun hm hes h.isStatic hsupports hfits
  refine ⟨Code.hasFlow_of_flow hflow, h.isStatic, h.supports, hcoherent,
    Flat.uniqueLabels_of_nodup ?_⟩
  obtain ⟨ss, hss, hlabels⟩ := hgrows.out
  have hout : final.out = ss := hss
  rw [hout, hlabels]
  exact (Code.hasFlow_of_flow hflow).nodup_passedLabels h.addresses

/-- At the start, the parameters hold the arguments and the stack is empty. -/
theorem Context.Liftable.at_start (hcode : 0 < code.instructions.length)
    (hkinds : args.map Value.kind = ctx.params.map fun v => LocalKind.ofTy (vars.ty v))
    (hargs : ctx.params.map s.vars = args) :
    ∃ k c, Leads (Flat.step w.semantics final.out) k (0, s) c ∧
      At w ctx code flow final (Frame.start args s.memory) c := by
  have hlifted := h.lifted hflow hrun
  have hstands := h.stands hflow hrun
  obtain ⟨ls, hgrows⟩ := hstands.grows hlifted
  have hlocals : (start (ctx.env code flow) vars).locals = paramLocals vars 0 ctx.params :=
    if_pos h.isStatic
  have hmatch : Matches w (ctx.env code flow) final (start (ctx.env code flow) vars)
      (Frame.start args s.memory) s := by
    refine matches_empty rfl rfl rfl ⟨fun k v x hk hx => ?_, fun k x hx => ?_⟩
    · obtain ⟨u, hu, rfl, _⟩ := Frame.entered?_of_argLocals hkinds hargs hx
      rw [hgrows.locals k _ (hlocals ▸ hu)] at hk
      cases hk
      rfl
    · obtain ⟨_, _, _, hkind⟩ := Frame.entered?_of_argLocals hkinds hargs hx
      exact hkind
  have hreached : flow.reachable[0]? = some true := by
    rw [hlifted.hasFlow.reachable]
    exact Code.reachable_zero hcode
  obtain ⟨k, c, i, m₃, hlead, hmeets⟩ := exists_meets_of_runsOn hlifted hstands hmatch hreached
  exact ⟨k, c, hlead, i, true, _, m₃, hmeets⟩

end

/-- Running the code on the stack machine and running the flat code go on side by side. -/
theorem Lifted.simulates (hlifted : Lifted ctx code flow final)
    (hstart : ∃ runsOn m, Stands ctx code flow final 0 runsOn m) {f : Frame ρ η}
    (htyped : w.RunsTyped ctx code f) :
    Simulates (w.step ctx code) (Flat.step w.semantics final.out)
      (fun f' c => Visits (w.step ctx code) f f' ∧ At w ctx code flow final f' c)
      (fun r r' => r = some (r'.1, r'.2.memory)) fun f' => code.instructions.length - f'.pc := by
  constructor
  · rintro f' c r ⟨hvisits, hat⟩ hstep
    have hmatched := hat.step hlifted hstart (htyped.switch f' hvisits)
    rw [hstep] at hmatched
    cases r with
    | none =>
      obtain ⟨k, hlead⟩ := hvisits.exists_leads
      exact absurd ((hlead 1).trans (runFor_stop hstep)) (htyped.never_stuck (1 + k))
    | some r =>
      obtain ⟨n, s', hn, hmem⟩ := hmatched
      exact ⟨n, _, hn, by rw [hmem]⟩
  · rintro f' c f'' ⟨hvisits, hat⟩ hstep
    have hmatched := hat.step hlifted hstart (htyped.switch f' hvisits)
    rw [hstep] at hmatched
    obtain ⟨k, c', hlead, hat', hzero⟩ := hmatched
    refine ⟨k, c', hlead, ⟨hvisits.on hstep, hat'⟩, fun hk => ?_⟩
    obtain ⟨i, _, _, _, hmeets⟩ := hat'
    have hlt := (List.getElem?_eq_some_iff.1 hmeets.instruction).1
    have hpc := hzero hk
    omega

/-- Flat code returns or throws what the code it was lifted from does, with the same heap and the
same calls and stores, or both run forever. -/
theorem run_iff_run_of_lifted {flat : FlatCode} (hmethod : ctx.Liftable code vars labels)
    (h : (FlatCode.ofCode ctx code vars labels).1 = .ok flat)
    (hkinds : args.map Value.kind = ctx.params.map fun v => LocalKind.ofTy (vars.ty v))
    (htyped : w.RunsTyped ctx code (Frame.start args μ)) (hargs : ctx.params.map s.vars = args)
    (hmemory : s.memory = μ) (x : Exit (Value ρ)) (μ' : Memory ρ η) :
    (∃ n, w.run ctx code n (Frame.start args μ) = some (some (x, μ'))) ↔
      ∃ n s', Flat.run w.semantics flat.block n 0 s = some (x, s') ∧ s'.memory = μ' := by
  obtain ⟨flow, table, final, hflow, hrun, rfl⟩ := FlatCode.ofCode_eq_ok h
  have hlifted := hmethod.lifted hflow hrun
  have hcode : 0 < code.instructions.length := by
    refine Nat.pos_of_ne_zero fun hzero => htyped.never_stuck 1 (runFor_stop ?_)
    rw [World.step, List.eq_nil_of_length_eq_zero hzero]
    rfl
  subst hmemory
  obtain ⟨k, c, hlead, hat⟩ := hmethod.at_start (w := w) hflow hrun hcode hkinds hargs
  have hsim := hlifted.simulates ⟨_, _, hmethod.stands hflow hrun⟩ htyped
  constructor
  · rintro ⟨n, hn⟩
    obtain ⟨m, ⟨y, s'⟩, hm, heq⟩ := hsim.forward ⟨.refl _, hat⟩ hn
    cases heq
    exact ⟨m + k, s', (hlead m).trans hm, rfl⟩
  · rintro ⟨n, s', hn, rfl⟩
    have hn' : runFor (Flat.step w.semantics final.out) n c = some (x, s') := by
      rw [← hlead n]
      exact runFor_mono (Nat.le_add_right n k) hn
    obtain ⟨m, r, hm, heq⟩ := hsim.backward ⟨.refl _, hat⟩ hn'
    exact ⟨m, heq ▸ hm⟩

end

/-- A world without objects, in which nothing is computed but whole numbers. -/
def wholeNumbers : World Unit Unit where
  null := ()
  string _ := ()
  classOf _ := ()
  floats _ a _ := a
  doubles _ a _ := a
  negFloat a := a
  negDouble a := a
  orderFloats _ _ := some .eq
  orderDoubles _ _ := some .eq
  convert _ v := v
  isInstance _ _ := false
  field _ _ v := v
  static _ _ := .ref ()
  element _ a _ := a
  length _ _ := 0
  newArray _ _ _ := ()
  result _ _ := .ref ()
  update _ _ := ()
  orderFloats_none _ _ h := nomatch h
  orderDoubles_none _ _ h := nomatch h

/-- A static method of one `int`, of a class without members. -/
def ofOneInt : Context where
  cls := default
  isStatic := true
  returnType := .int
  params := [⟨0⟩]
  field _ _ := default
  method _ _ := default

/-- `a < 0 ? 1 : 2`, which leaves a value on the stack where its two ways join. -/
def signChoice : Code :=
  .sequential 1 [.load .int 0, .ifZero .ge 4, .iconst 1, .goto 5, .iconst 2,
    .methodReturn (some .int)]

/-- The variables of a method with one parameter, an `int`. -/
def oneInt : VarTable :=
  VarTable.empty.push
    { ty := .int, name := "a", synthetic := false, parameter := true,
      isFinal := false, slot := some 0 }

/-- The flat code of `signChoice` returns 1 for a negative number: the value that was on the stack
where the two ways join is in a temporary. -/
theorem run_flat_signChoice :
    ∃ flat, (FlatCode.ofCode ofOneInt signChoice oneInt .empty).1 = .ok flat ∧
      ∃ n s', Flat.run wholeNumbers.semantics flat.block n 0 ⟨fun _ => .int (-7), ⟨(), []⟩⟩ =
        some (.returned (some (.int 1)), s') ∧ s'.memory = ⟨(), []⟩ := by
  have hok : (FlatCode.ofCode ofOneInt signChoice oneInt .empty).1 = .ok
      ⟨[.goto ⟨0⟩ (some (.compare .ge (.var ⟨0⟩) (.int 0))), .set ⟨1⟩ (.int 1), .goto ⟨1⟩ none,
          .label ⟨0⟩, .set ⟨1⟩ (.int 2), .label ⟨1⟩, .ret (some (.var ⟨1⟩))],
        oneInt.push
          { ty := .int, name := "var1", synthetic := true, parameter := false,
            isFinal := false, slot := none },
        ⟨#["label0", "label1"]⟩⟩ := by
    cbv
  have hrun : wholeNumbers.run ofOneInt signChoice 6 (Frame.start [.int (-7)] ⟨(), []⟩) =
      some (some (.returned (some (.int 1)), ⟨(), []⟩)) := rfl
  have hplain : ∀ i ∈ signChoice.instructions, i.instruction.isSwitch = false := by decide
  refine ⟨_, hok, (run_iff_run_of_lifted ⟨rfl, by decide, ?_, by decide, by decide, by cbv⟩ hok rfl
    ⟨fun n hn => ?_, fun f _ i hi hswitch => ?_⟩ rfl rfl _ _).1 ⟨6, hrun⟩⟩
  · intro i hi
    simp only [signChoice, Code.sequential, List.zipIdx_cons, List.zipIdx_nil,
      List.map_cons, List.map_nil, List.mem_cons, List.not_mem_nil, or_false] at hi
    rcases hi with rfl | rfl | rfl | rfl | rfl | rfl <;> trivial
  · cases runFor_unique hrun hn
  · rw [hplain i (List.mem_of_getElem? hi)] at hswitch
    cases hswitch

end ByteLift
