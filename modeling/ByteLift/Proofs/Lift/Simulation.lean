import ByteLift.Proofs.Lift.Run

/-!
# Flat code does what the code does

Whenever the stack machine comes to an instruction, the flat code stands behind its label, and the
state of the lifting machine there matches the frame. One step takes some steps of the flat code, or
none if the instruction emitted nothing; but then the stack machine ran on to a later instruction.
-/

namespace ByteLift

open Lift Flat

variable {ρ η : Type} [DecidableEq ρ] {w : World ρ η} {final m m₁ : Machine} {f : Frame ρ η}
  {s s' : Store ρ η} {runsOn : Bool} {i : Addressed} {ctx : Context} {code : Code} {flow : Flow}

/-! ## The start -/

theorem entered?_cons {κ α : Type} [DecidableEq κ] (k key : κ) (a : α) (entries : List (κ × α)) :
    entered? k ((key, a) :: entries) = if key = k then some a else entered? k entries := by
  unfold entered?
  rw [List.find?_cons]
  by_cases h : key = k <;> simp [h]

namespace Machine

variable {vars : VarTable} {params : List Var} {slot : Nat} {k k' : Nat × LocalKind} {v : Var}

theorem mem_of_paramLocals {l : Local} (h : entered? k (paramLocals vars slot params) = some l) :
    ∃ v ∈ params, l = .var v ∧ k.2 = LocalKind.ofTy (vars.ty v) := by
  induction params generalizing slot with
  | nil => cases h
  | cons u params ih =>
    rw [paramLocals, entered?_cons] at h
    split at h
    · rename_i hk
      cases h
      exact ⟨u, by simp, rfl, by rw [← hk]⟩
    · obtain ⟨v, hv, hl, hkind⟩ := ih h
      exact ⟨v, List.mem_cons_of_mem _ hv, hl, hkind⟩

theorem paramLocals_inj (hnodup : params.Nodup)
    (h : entered? k (paramLocals vars slot params) = some (.var v))
    (h' : entered? k' (paramLocals vars slot params) = some (.var v)) : k = k' := by
  have hmem {k : Nat × LocalKind} {slot : Nat} {params : List Var}
      (h : entered? k (paramLocals vars slot params) = some (.var v)) : v ∈ params := by
    obtain ⟨u, hu, heq, _⟩ := mem_of_paramLocals h
    cases heq
    exact hu
  induction params generalizing slot with
  | nil => cases h
  | cons u params ih =>
    obtain ⟨hu, hnodup⟩ := List.nodup_cons.1 hnodup
    rw [paramLocals, entered?_cons] at h h'
    split at h <;> split at h'
    · rename_i hk hk'
      exact hk.symm.trans hk'
    · cases h
      exact absurd (hmem h') hu
    · cases h'
      exact absurd (hmem h) hu
    · exact ih hnodup h h'

theorem coherent_start {env : Env} (hstatic : env.isStatic = true) (hnodup : env.params.Nodup)
    (hvars : ∀ v ∈ env.params, v.index < vars.size) : (start env vars).Coherent := by
  have hlocals : (start env vars).locals = paramLocals vars 0 env.params := if_pos hstatic
  refine ⟨fun k l hk => ?_, fun k k' v hk hk' => ?_, fun l j v h => ?_, fun p q v h => ?_,
    fun k p v _ h => ?_⟩
  · rw [hlocals] at hk
    obtain ⟨v, hv, rfl, hkind⟩ := mem_of_paramLocals hk
    exact ⟨v, rfl, hvars v hv, by rw [hkind, LocalKind.isWide_ofTy]; rfl⟩
  · rw [hlocals] at hk hk'
    exact paramLocals_inj hnodup hk hk'
  all_goals cases h

end Machine

section

omit [DecidableEq ρ] in
/-- The arguments of a method are in the slots of its parameters. -/
theorem Frame.entered?_of_argLocals {vars : VarTable} {params : List Var}
    {args : List (Value ρ)} {slot : Nat} {k : Nat × LocalKind} {x : Value ρ}
    (hkinds : args.map Value.kind = params.map fun v => LocalKind.ofTy (vars.ty v))
    (hvalues : params.map s.vars = args) (h : argLocals slot args k = some x) :
    ∃ v, entered? k (Machine.paramLocals vars slot params) = some (.var v) ∧ s.vars v = x ∧
    x.kind = k.2 := by
  induction params generalizing slot args with
  | nil =>
    subst hvalues
    cases h
  | cons v params ih =>
    subst hvalues
    obtain ⟨hkind, hkinds⟩ := List.cons.inj hkinds
    replace hkind : (s.vars v).kind = LocalKind.ofTy (vars.ty v) := hkind
    simp only [List.map_cons, argLocals] at h
    rw [Machine.paramLocals, entered?_cons, ← hkind]
    split at h
    · rename_i hk
      cases h
      exact ⟨v, if_pos hk.symm, rfl, by rw [hk]⟩
    · rename_i hk
      have hwidth : (if (s.vars v).isWide then 2 else 1) = (vars.ty v).width := by
        have hwide : (s.vars v).isWide = (vars.ty v).isWide := by
          rw [Value.isWide, hkind, LocalKind.isWide_ofTy]
        rw [hwide, Ty.width]
      rw [hwidth] at h
      rw [if_neg (Ne.symm hk)]
      exact ih hkinds rfl h

/-! ## Where the flat code stands -/

variable {env : Env} {ls : List Label} {l : Label}

/-! ## Coming to an instruction -/

theorem Arrives.passLabel (h : Arrives final l f s) (hpass : Lift.passLabel env l m = .ok () m₁)
    (hm : m.Coherent) (hes : m.Entries) (hfinal : m₁.Grows ls final) :
    Matches w env final m₁ f s ∧ m₁.out = m.out ++ [.label l] := by
  obtain ⟨_, hcoherent, hout, temps, hmerged⟩ := passLabel_spec hpass hm hes
  exact ⟨h.matches hmerged hcoherent hfinal, hout⟩

/-- Control that runs on to an instruction passes its label. -/
theorem Matches.enter (hmatch : Matches w env final m f s) (hm : m.Coherent) (hes : m.Entries)
    (h : Lift.enter env true i m = .ok () m₁) (hfinal : m₁.Grows ls final)
    (hcoherent : final.Coherent) :
    ∃ s', m.Passes w.semantics m₁ s s' ∧ Matches w env final m₁ f s' := by
  have hadds : m.Adds { m with address := i.address } := .of_eq rfl rfl rfl rfl rfl
  have hmatch' : Matches w env final { m with address := i.address } f s :=
    ⟨hmatch.stack, hmatch.wides, hmatch.locals⟩
  have henter := enter_eq_ok h
  split at henter
  · subst henter
    exact ⟨s, .of_out rfl, hmatch'⟩
  · rename_i l hl
    obtain ⟨m₂, hadv, hflow, hpass⟩ := enterLabel_spec henter (hadds.coherent hm) hes
    obtain ⟨_, _, _, hflows⟩ := exists_flows (hflow rfl) (hadds.coherent hm) hes
    obtain ⟨hgrows, _⟩ := passLabel_spec hpass hadv.coherent hadv.entries
    obtain ⟨s', hemitted, harrives, _⟩ := hmatch'.flows hflows (hgrows.trans hfinal) hcoherent
    obtain ⟨hmatch₁, hout⟩ := harrives.passLabel hpass hadv.coherent hadv.entries hfinal
    obtain ⟨ss, hss, hrun⟩ := hemitted.trans (.one hout rfl)
    exact ⟨s', ⟨ss, hss, hrun⟩, hmatch₁⟩

/-- Control that jumps to an instruction comes to its label. -/
theorem Arrives.enter (h : Arrives final l f s) (hl : env.flow.label? i.address = some l)
    (henter : Lift.enter env runsOn i m = .ok () m₁) (hm : m.Coherent) (hes : m.Entries)
    (hfinal : m₁.Grows ls final) :
    Matches w env final m₁ f s ∧ ∃ pre, m₁.out = pre ++ [.label l] := by
  have hadds : m.Adds { m with address := i.address } := .of_eq rfl rfl rfl rfl rfl
  have henter' := enter_eq_ok henter
  rw [hl] at henter'
  obtain ⟨m₂, hadv, _, hpass⟩ := enterLabel_spec henter' (hadds.coherent hm) hes
  obtain ⟨hmatch, hout⟩ := h.passLabel hpass hadv.coherent hadv.entries hfinal
  exact ⟨hmatch, m₂.out, hout⟩

end

/-! ## What lifting leaves behind -/

/-- A method was lifted, and this is the state of the lifting machine at the end. -/
structure Lifted (ctx : Context) (code : Code) (flow : Flow) (final : Machine) : Prop where
  hasFlow : code.HasFlow flow
  isStatic : ctx.isStatic = true
  supports : ∀ i ∈ code.instructions, ctx.Supports i.instruction
  coherent : final.Coherent
  unique : Flat.UniqueLabels final.out

/-- A state of the lifting machine before the instruction at a position. -/
structure Stands (ctx : Context) (code : Code) (flow : Flow) (final : Machine) (p : Nat)
    (runsOn : Bool) (m : Machine) : Prop where
  coherent : m.Coherent
  entries : m.Entries
  run : Lift.run (ctx.env code flow) runsOn ((code.instructions.zip flow.reachable).drop p)
    m = .ok () final
  fits : Lift.wordsFit (ctx.env code flow) runsOn
    ((code.instructions.zip flow.reachable).drop p) m = true

section

variable {p : Nat}

theorem drop_zip_eq_cons {reached : Bool} (hi : code.instructions[p]? = some i)
    (hr : flow.reachable[p]? = some reached) :
    (code.instructions.zip flow.reachable).drop p =
      (i, reached) :: (code.instructions.zip flow.reachable).drop (p + 1) := by
  have hget : (code.instructions.zip flow.reachable)[p]? = some (i, reached) :=
    List.getElem?_zip_eq_some.2 ⟨hi, hr⟩
  obtain ⟨hlt, hget⟩ := List.getElem?_eq_some_iff.1 hget
  rw [List.drop_eq_getElem_cons hlt, hget]

section

variable (h : Stands ctx code flow final p runsOn m) (hlifted : Lifted ctx code flow final)
include h hlifted

theorem Stands.grows : ∃ ls, m.Grows ls final := by
  refine ⟨_, (grows_run h.run h.coherent h.entries hlifted.isStatic (fun it hit => ?_) h.fits).1⟩
  exact hlifted.supports _ (List.of_mem_zip (List.mem_of_mem_drop hit)).1

/-- What is done at an instruction that control reaches. -/
theorem Stands.passes (hi : code.instructions[p]? = some i) (hr : flow.reachable[p]? = some true) :
    ∃ m₁ m₂, Lift.enter (ctx.env code flow) runsOn i m = .ok () m₁ ∧
      Lift.step (ctx.env code flow) i.instruction m₁ = .ok () m₂ ∧
      (ctx.env code flow).fits m₁.vars m₁.stack i.instruction = true ∧ m₁.Coherent ∧ m₁.Entries ∧
      m₁.Advances m₂ ∧ Stands ctx code flow final (p + 1) (!i.instruction.endsFlow) m₂ := by
  obtain ⟨hm, hes, hrun, hfits⟩ := h
  rw [drop_zip_eq_cons hi hr] at hrun hfits
  obtain ⟨m₁, m₂, henter, hstep, hrun⟩ := run_cons_reached hrun
  simp only [Lift.wordsFit, henter, hstep, Bool.and_eq_true] at hfits
  obtain ⟨_, hm₁, hes₁⟩ := grows_enter henter hm hes
  have hadv :=
    advances_step hstep hm₁ hes₁ hlifted.isStatic
      (hlifted.supports i (List.mem_of_getElem? hi)) hfits.1
  exact ⟨m₁, m₂, henter, hstep, hfits.1, hm₁, hes₁, hadv, hadv.coherent, hadv.entries,
    hrun, hfits.2⟩

end

/-- Lifting comes to each position. -/
theorem exists_stands (hlifted : Lifted ctx code flow final)
    (hstart : ∃ runsOn m, Stands ctx code flow final 0 runsOn m)
    (hp : p ≤ code.instructions.length) : ∃ runsOn m, Stands ctx code flow final p runsOn m := by
  induction p with
  | zero => exact hstart
  | succ p ih =>
    obtain ⟨runsOn, m, h⟩ := ih (by omega)
    have hlen : flow.reachable.length = code.instructions.length := by
      rw [hlifted.hasFlow.reachable, Code.length_reachable]
    have hi := List.getElem?_eq_getElem (show p < code.instructions.length from hp)
    have hr := List.getElem?_eq_getElem (show p < flow.reachable.length by omega)
    cases hreached : flow.reachable[p] with
    | true =>
      rw [hreached] at hr
      obtain ⟨m₁, m₂, _, _, _, _, _, _, hnext⟩ := h.passes hlifted hi hr
      exact ⟨_, m₂, hnext⟩
    | false =>
      rw [hreached] at hr
      obtain ⟨hm, hes, hrun, hfits⟩ := h
      rw [drop_zip_eq_cons hi hr] at hrun hfits
      exact ⟨false, m, hm, hes, hrun, hfits⟩

end

/-! ## The simulation -/

section

/-- The flat code stands at the instruction that the frame is to run, and matches the frame. -/
structure Meets (w : World ρ η) (ctx : Context) (code : Code) (flow : Flow) (final : Machine)
    (f : Frame ρ η) (c : Nat × Store ρ η) (i : Addressed) (runsOn : Bool)
    (m m₁ : Machine) : Prop where
  stands : Stands ctx code flow final f.pc runsOn m
  instruction : code.instructions[f.pc]? = some i
  reached : flow.reachable[f.pc]? = some true
  enter : Lift.enter (ctx.env code flow) runsOn i m = .ok () m₁
  position : c.1 = m₁.out.length
  matched : Matches w (ctx.env code flow) final m₁ f c.2

variable {m₂ : Machine} {f' : Frame ρ η} {c : Nat × Store ρ η}

/-- Running on comes to the next instruction. -/
theorem exists_meets_of_runsOn (hlifted : Lifted ctx code flow final)
    (hstands : Stands ctx code flow final f'.pc true m₂)
    (hmatch : Matches w (ctx.env code flow) final m₂ f' s)
    (hreached : flow.reachable[f'.pc]? = some true) :
    ∃ k c' i m₃, Leads (step w.semantics final.out) k (m₂.out.length, s) c' ∧
      Meets w ctx code flow final f' c' i true m₂ m₃ := by
  have hlt : f'.pc < code.instructions.length := by
    rw [← Code.length_reachable, ← hlifted.hasFlow.reachable]
    exact (List.getElem?_eq_some_iff.1 hreached).1
  have hi := List.getElem?_eq_getElem hlt
  obtain ⟨m₃, m₄, henter, _, _, hm₃, _, hadv, hnext⟩ := hstands.passes hlifted hi hreached
  obtain ⟨ls, hgrows⟩ := hnext.grows hlifted
  have hfinal := hadv.grows.trans hgrows
  obtain ⟨s', hemitted, hmatch'⟩ :=
    hmatch.enter hstands.coherent hstands.entries henter hfinal hlifted.coherent
  obtain ⟨ss, hss, _⟩ := hfinal.out
  obtain ⟨k, hlead⟩ := hemitted.leads ⟨ss, hss.symm⟩
  exact ⟨k, _, _, m₃, hlead, hstands, hi, hreached, henter, rfl, hmatch'⟩

/-- A jump comes to the instruction at its target. -/
theorem exists_meets_of_jump (hlifted : Lifted ctx code flow final) {a : Address} {l : Label}
    (hstart : ∃ runsOn m, Stands ctx code flow final 0 runsOn m) (ha : code.indexOf? a = some f'.pc)
    (hl : flow.label? a = some l) (harrives : Arrives final l f' s)
    (hreached : flow.reachable[f'.pc]? = some true) :
    ∃ q c' i runsOn m m₃, position? final.out l = some q ∧
      Leads (step w.semantics final.out) 1 (q, s) c' ∧
      Meets w ctx code flow final f' c' i runsOn m m₃ := by
  obtain ⟨i, hi, rfl⟩ := Code.getElem?_of_indexOf? ha
  obtain ⟨runsOn, m, hstands⟩ :=
    exists_stands hlifted hstart (Nat.le_of_lt (List.getElem?_eq_some_iff.1 hi).1)
  obtain ⟨m₃, m₄, henter, _, _, _, _, hadv, hnext⟩ := hstands.passes hlifted hi hreached
  obtain ⟨ls, hgrows⟩ := hnext.grows hlifted
  have hfinal := hadv.grows.trans hgrows
  obtain ⟨hmatch, pre, hout⟩ := harrives.enter hl henter hstands.coherent hstands.entries hfinal
  obtain ⟨ss, hss, _⟩ := hfinal.out
  have hlabel : final.out[pre.length]? = some (.label l) := by simp [hss, hout]
  have hon : step w.semantics final.out (pre.length, s) = .on (m₃.out.length, s) := by
    rw [step_on hlabel rfl, hout, List.length_append]
    rfl
  exact ⟨pre.length, _, i, runsOn, m, m₃, position?_eq_some hlifted.unique hlabel,
    .one hon, hstands, hi, hreached, henter, rfl, hmatch⟩

/-- The flat code stands where the frame does. -/
def At (w : World ρ η) (ctx : Context) (code : Code) (flow : Flow) (final : Machine) (f : Frame ρ η)
    (c : Nat × Store ρ η) : Prop :=
  ∃ i runsOn m m₁, Meets w ctx code flow final f c i runsOn m m₁

/-- What a step of the stack machine is matched by. -/
theorem At.step (hat : At w ctx code flow final f c) (hlifted : Lifted ctx code flow final)
    (hstart : ∃ runsOn m, Stands ctx code flow final 0 runsOn m)
    (hswitch : ∀ i, code.instructions[f.pc]? = some i → i.instruction.isSwitch = true →
      f.stack.length = 1) :
    match w.step ctx code f with
    | .stop none => True
    | .stop (some r) =>
        ∃ n s', runFor (step w.semantics final.out) n c = some (r.1, s') ∧ s'.memory = r.2
    | .on f' => ∃ k c', Leads (step w.semantics final.out) k c c' ∧ At w ctx code flow final f' c' ∧
        (k = 0 → f'.pc = f.pc + 1) := by
  obtain ⟨i, runsOn, m, m₁, hstands, hi, hreached, henter, hposition, hmatch⟩ := hat
  obtain ⟨pos, s⟩ := c
  obtain rfl : pos = m₁.out.length := hposition
  obtain ⟨m₁', m₂, henter', hstep, hfits, hm₁, hes₁, hadv, hnext⟩ :=
    hstands.passes hlifted hi hreached
  obtain rfl : m₁ = m₁' := by
    rw [henter] at henter'
    cases henter'
    rfl
  obtain ⟨ls, hgrows⟩ := hnext.grows hlifted
  obtain ⟨ss, hss, _⟩ := hgrows.out
  have hreached' : code.reachable[f.pc]? = some true := hlifted.hasFlow.reachable ▸ hreached
  have hreflects := hmatch.step hm₁ hes₁ hstep hgrows hlifted.coherent hlifted.isStatic
    (hlifted.supports i (List.mem_of_getElem? hi)) hfits (hswitch i hi)
  have hexec : w.step ctx code f = w.exec ctx code f i.instruction := by rw [World.step, hi]
  rw [hexec]
  generalize w.exec ctx code f i.instruction = r at hreflects
  cases hreflects with
  | stuck => trivial
  | leaves hx hexit =>
    obtain ⟨n, hn⟩ := hexit.ends ⟨ss, hss.symm⟩ fun pos => hx final.out pos
    exact ⟨n, _, hn, rfl⟩
  | @runsOn f' s' hends hpc hemitted hmatch' =>
    have hnext' : Stands ctx code flow final f'.pc true m₂ := by
      rw [hpc]
      simpa [hends] using hnext
    have hreached'' : flow.reachable[f'.pc]? = some true := by
      rw [hlifted.hasFlow.reachable, hpc]
      exact Code.reachable_succ hreached' hi hends hlifted.hasFlow.fallsOff
    obtain ⟨k, hlead⟩ := hemitted.leads ⟨ss, hss.symm⟩
    obtain ⟨k', c', i', m₃, hlead', hmeets⟩ :=
      exists_meets_of_runsOn hlifted hnext' hmatch' hreached''
    exact ⟨k' + k, c', hlead.trans hlead', ⟨i', true, m₂, m₃, hmeets⟩, fun _ => hpc⟩
  | @jumps target l f' s' htarget hindex hl hexit harrives =>
    have hreached'' : flow.reachable[f'.pc]? = some true := by
      rw [hlifted.hasFlow.reachable]
      exact Code.reachable_of_target hreached' hi htarget hindex
    obtain ⟨q, c', i', runsOn', m', m₃, hq, hlead', hmeets⟩ :=
      exists_meets_of_jump hlifted hstart hindex hl harrives hreached''
    obtain ⟨k, hlead⟩ := hexit.leads_jump ⟨ss, hss.symm⟩ hq
    exact ⟨1 + (k + 1), c', hlead.trans hlead', ⟨i', runsOn', m', m₃, hmeets⟩,
      fun hzero => by omega⟩

end

end ByteLift
