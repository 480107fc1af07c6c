import ByteLift.Proofs.Bytecode.Flow
import ByteLift.Proofs.Lift.Step

/-!
# Lifting a whole method

The instructions are lifted one after another in the order in which they stand. Before each of them
the machine is in a state that keeps what always holds, and the label of the instruction, if it has
one, is passed first. No label is emitted twice.
-/

namespace ByteLift

namespace Lift

/-- Comes to an instruction: notes where it stands, and passes its label if it has one. -/
def enter (env : Env) (runsOn : Bool) (i : Addressed) : Lift Unit := do
  modify fun m => { m with address := i.address }
  if let some label := env.flow.label? i.address then enterLabel env label runsOn

/-- Whether references take one word at all instructions that lifting comes to. -/
def wordsFit (env : Env) (runsOn : Bool) : List (Addressed × Bool) → Machine → Bool
  | [], _ => true
  | (_, false) :: rest, m => wordsFit env false rest m
  | (i, true) :: rest, m =>
    match enter env runsOn i m with
    | .error .. => true
    | .ok _ m₁ =>
      env.fits m₁.vars m₁.stack i.instruction &&
        match step env i.instruction m₁ with
        | .error .. => true
        | .ok _ m₂ => wordsFit env (!i.instruction.endsFlow) rest m₂

variable {env : Env} {runsOn : Bool} {i : Addressed} {rest : List (Addressed × Bool)}
  {m m₁ m' : Machine}

theorem run_reached : run env runsOn ((i, true) :: rest) =
    (do enter env runsOn i; step env i.instruction; run env (!i.instruction.endsFlow) rest) := by
  rw [run, if_pos rfl]
  unfold enter
  cases env.flow.label? i.address <;> rfl

theorem run_cons_reached (h : run env runsOn ((i, true) :: rest) m = .ok () m') :
    ∃ m₁ m₂, enter env runsOn i m = .ok () m₁ ∧ step env i.instruction m₁ = .ok () m₂ ∧
      run env (!i.instruction.endsFlow) rest m₂ = .ok () m' := by
  rw [run_reached, bind_eq_ok] at h
  obtain ⟨_, m₁, henter, h⟩ := h
  obtain ⟨_, m₂, hstep, h⟩ := bind_eq_ok.1 h
  exact ⟨m₁, m₂, henter, hstep, h⟩

/-- How instructions are lifted one after another. Those that control does not reach are passed
over. -/
inductive Runs (env : Env) (final : Machine) : Bool → List (Addressed × Bool) → Machine → Prop
  | done {runsOn : Bool} : Runs env final runsOn [] final
  | skip {runsOn : Bool} {i : Addressed} {rest : List (Addressed × Bool)} {m : Machine} :
      Runs env final false rest m → Runs env final runsOn ((i, false) :: rest) m
  | lift {runsOn : Bool} {i : Addressed} {rest : List (Addressed × Bool)} {m m₁ m₂ : Machine} :
      enter env runsOn i m = .ok () m₁ → step env i.instruction m₁ = .ok () m₂ →
      Runs env final (!i.instruction.endsFlow) rest m₂ → Runs env final runsOn ((i, true) :: rest) m

/-- Lifting a row of instructions is lifting them one by one. -/
theorem runs_of_run {items : List (Addressed × Bool)} (h : run env runsOn items m = .ok () m') :
    Runs env m' runsOn items m := by
  induction items generalizing runsOn m with
  | nil =>
    obtain ⟨_, rfl⟩ := pure_eq_ok.1 h
    exact .done
  | cons it items ih =>
    obtain ⟨i, reached⟩ := it
    cases reached with
    | false => exact .skip (ih h)
    | true =>
      obtain ⟨m₁, m₂, henter, hstep, h⟩ := run_cons_reached h
      exact .lift henter hstep (ih h)

/-- What is done before an instruction is lifted. -/
theorem enter_eq_ok (h : enter env runsOn i m = .ok () m₁) :
    match env.flow.label? i.address with
    | none => m₁ = { m with address := i.address }
    | some l => enterLabel env l runsOn { m with address := i.address } = .ok () m₁ := by
  unfold enter at h
  cases hl : env.flow.label? i.address with
  | none =>
    simp only [hl, bind_eq_ok, modify_eq_ok, pure_eq_ok] at h
    obtain ⟨_, _, rfl, _, rfl⟩ := h
    rfl
  | some l =>
    simp only [hl, bind_eq_ok, modify_eq_ok] at h
    obtain ⟨_, _, rfl, h⟩ := h
    exact h

/-- Passing a label keeps what always holds. -/
theorem enterLabel_spec {l : Label} (h : enterLabel env l runsOn m = .ok () m₁) (hm : m.Coherent)
    (hes : m.Entries) : ∃ m₂, m.Advances m₂ ∧ (runsOn = true → flowTo env l m = .ok () m₂) ∧
    passLabel env l m₂ = .ok () m₁ := by
  obtain ⟨m₂, hflow, hpass⟩ := enterLabel_eq_ok h
  cases runsOn with
  | true =>
    obtain ⟨_, _, _, hflows⟩ := exists_flows hflow hm hes
    exact ⟨m₂, hflows.advances, fun _ => hflow, hpass⟩
  | false =>
    obtain rfl : m₂ = m := hflow
    exact ⟨m₂, ⟨.refl m₂, hm, hes⟩, fun h => (Bool.false_ne_true h).elim, hpass⟩

theorem grows_enter (h : enter env runsOn i m = .ok () m₁) (hm : m.Coherent) (hes : m.Entries) :
    m.Grows (env.flow.label? i.address).toList m₁ ∧ m₁.Coherent ∧ m₁.Entries := by
  have hadds : m.Adds { m with address := i.address } := .of_eq rfl rfl rfl rfl rfl
  have henter := enter_eq_ok h
  split at henter
  · rename_i hl
    rw [hl, henter]
    exact ⟨hadds.grows, hadds.coherent hm, hes⟩
  · rename_i l hl
    obtain ⟨m₂, hadv, _, hpass⟩ := enterLabel_spec henter (hadds.coherent hm) hes
    obtain ⟨hgrows, hcoherent, _, temps, hmerged⟩ := passLabel_spec hpass hadv.coherent hadv.entries
    rw [hl]
    exact ⟨hadds.grows.trans (hadv.grows.trans hgrows), hcoherent, hmerged.entries hcoherent⟩

/-- The labels of the instructions that control reaches. -/
def passedLabels (flow : Flow) (items : List (Addressed × Bool)) : List Label :=
  items.flatMap fun (i, reached) => if reached then (flow.label? i.address).toList else []

section

variable {ctx : Context} {code : Code} {flow : Flow} {items : List (Addressed × Bool)}

theorem grows_run (h : run (ctx.env code flow) runsOn items m = .ok () m') (hm : m.Coherent)
    (hes : m.Entries) (hstatic : ctx.isStatic = true)
    (hsupports : ∀ it ∈ items, ctx.Supports it.1.instruction)
    (hfits : wordsFit (ctx.env code flow) runsOn items m = true) :
    m.Grows (passedLabels flow items) m' ∧ m'.Coherent := by
  replace h := runs_of_run h
  induction h with
  | done => exact ⟨.refl _, hm⟩
  | skip _ ih => exact ih hm hes (List.forall_mem_cons.1 hsupports).2 hfits
  | lift henter hstep _ ih =>
    rw [List.forall_mem_cons] at hsupports
    simp only [wordsFit, henter, hstep, Bool.and_eq_true] at hfits
    obtain ⟨hgrows₁, hm₁, hes₁⟩ := grows_enter henter hm hes
    have hadv := advances_step hstep hm₁ hes₁ hstatic hsupports.1 hfits.1
    obtain ⟨hgrows, hcoherent⟩ := ih hadv.coherent hadv.entries hsupports.2 hfits.2
    exact ⟨hgrows₁.trans (hadv.grows.trans hgrows), hcoherent⟩

end

end Lift

/-! ## Labels -/

variable {code : Code} {flow : Flow}

/-- Instructions at different addresses have different labels. -/
theorem Lift.nodup_passedLabels {items : List (Addressed × Bool)} (hflow : code.HasFlow flow)
    (hnodup : (items.map (·.1.address)).Nodup) : (passedLabels flow items).Nodup := by
  refine List.nodup_flatMap.2 ⟨fun it _ => ?_, ?_⟩
  · obtain ⟨i, reached⟩ := it
    have hone (l : Option Label) : l.toList.Nodup := by cases l <;> simp
    cases reached <;> simp [hone]
  · refine (List.pairwise_map.1 hnodup).imp fun {it it'} hne => ?_
    intro l hl hl'
    obtain ⟨i, reached⟩ := it
    obtain ⟨j, reached'⟩ := it'
    refine hne (hflow.label_inj i.address j.address l ?_ ?_)
    · cases reached <;> simp at hl
      exact hl
    · cases reached' <;> simp at hl'
      exact hl'

/-- The labels of a code without repeated addresses are passed once each. -/
theorem Code.HasFlow.nodup_passedLabels (h : code.HasFlow flow)
    (haddresses : (code.instructions.map Addressed.address).Nodup) :
    (Lift.passedLabels flow (code.instructions.zip flow.reachable)).Nodup := by
  have hlen : code.instructions.length = flow.reachable.length := by
    rw [h.reachable, Code.length_reachable]
  have hmap : (code.instructions.zip flow.reachable).map (·.1.address) =
    code.instructions.map Addressed.address := by
    rw [← List.map_fst_zip (Nat.le_of_eq hlen), List.map_map, List.map_fst_zip (Nat.le_of_eq hlen)]
    rfl
  exact Lift.nodup_passedLabels h (hmap ▸ haddresses)

theorem Flat.uniqueLabels_of_nodup {code : Block} (h : (code.filterMap placedLabel?).Nodup) :
    UniqueLabels code := by
  intro l
  have hcount : (code.filterMap placedLabel?).count l = code.count (.label l) := by
    induction code with
    | nil => rfl
    | cons x xs ih =>
      rw [List.filterMap_cons] at h ⊢
      cases x with
      | label l' =>
        simp only [placedLabel?] at h ⊢
        rw [List.count_cons, List.count_cons, ih (List.nodup_cons.1 h).2]
        by_cases hl : l' = l <;> simp [hl]
      | _ =>
        rw [List.count_cons_of_ne (by simp)]
        exact ih h
  rw [← hcount]
  exact List.nodup_iff_count_le_one.1 h l

end ByteLift
