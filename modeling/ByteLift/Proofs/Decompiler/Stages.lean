import ByteLift.Proofs.Lift.Emitted
import ByteLift.Proofs.Variables.Declared

/-!
# What one stage hands to the next

Lifting hands flat code to nesting, and nesting hands nested code to the passes that clean it up.
None of them checks what it is given. Lifted code has each label at one place and all jumps go to
labels that are there, so nesting finds every label it looks for. Assignments are whole statements,
and stay so.
-/

namespace ByteLift

open FlatCode List

variable {code : Code} {vars : VarTable} {labels : LabelTable}

namespace Flat

/-- Every jump goes to a label that stands somewhere. -/
def JumpsPlaced (flat : Block) : Prop := ∀ l c, Stmt.goto l c ∈ flat → .label l ∈ flat

theorem mem_placedLabels {flat : Block} {l : Label} :
    l ∈ flat.filterMap placedLabel? ↔ .label l ∈ flat := by
  rw [mem_filterMap]
  constructor
  · rintro ⟨s, hs, hl⟩
    cases s <;> simp only [placedLabel?, reduceCtorEq, Option.some.injEq] at hl
    exact hl ▸ hs
  · exact fun h => ⟨_, h, rfl⟩

end Flat

/-! ## Lifting -/

namespace Lift

variable {flow : Flow} {l : Label}

/-- A label that a reached instruction jumps to is that of a reached instruction. -/
theorem mem_passedLabels_of_jumpedTo (hflow : code.HasFlow flow)
    (h : JumpedTo flow (code.instructions.zip flow.reachable) l) :
    l ∈ passedLabels flow (code.instructions.zip flow.reachable) := by
  obtain ⟨i, hi, t, ht, hl⟩ := h
  obtain ⟨p, hp⟩ := mem_iff_getElem?.1 hi
  rw [getElem?_zip_eq_some] at hp
  obtain ⟨q, hq⟩ := hflow.indexOf? i (mem_of_getElem? hp.1) t ht
  obtain ⟨j, hj, rfl⟩ := Code.getElem?_of_indexOf? hq
  have hreached : flow.reachable[q]? = some true := by
    rw [hflow.reachable] at hp ⊢
    exact Code.reachable_of_target hp.2 hp.1 ht hq
  have hmem : (j, true) ∈ code.instructions.zip flow.reachable :=
    mem_of_getElem? (getElem?_zip_eq_some.2 ⟨hj, hreached⟩)
  exact mem_flatMap.2 ⟨_, hmem, by simp [hl]⟩

end Lift

namespace FlatCode

variable {ctx : Context} {flat : FlatCode}

/-- Where the labels and jumps of lifted code come from. -/
theorem emitted_of_ofCode (h : (ofCode ctx code vars labels).1 = .ok flat) :
    ∃ flow, code.HasFlow flow ∧
      flat.block.filterMap Flat.placedLabel? =
        Lift.passedLabels flow (code.instructions.zip flow.reachable) ∧
      (∀ s ∈ flat.block, s.isFlat = true) ∧
      ∀ l c, .goto l c ∈ flat.block → Lift.JumpedTo flow
        (code.instructions.zip flow.reachable) l := by
  obtain ⟨flow, table, final, hflow, hrun, rfl⟩ := ofCode_eq_ok h
  obtain ⟨ss, hout, hlabels, hflat, hjumps⟩ := (Lift.runs_of_run hrun).appends
  obtain rfl : final.out = ss := hout
  exact ⟨flow, Code.hasFlow_of_flow hflow, hlabels, hflat, hjumps⟩

theorem uniqueLabels_of_ofCode (haddresses : (code.instructions.map Addressed.address).Nodup)
    (h : (ofCode ctx code vars labels).1 = .ok flat) : Flat.UniqueLabels flat.block := by
  obtain ⟨flow, hflow, hlabels, _, _⟩ := emitted_of_ofCode h
  exact Flat.uniqueLabels_of_nodup (hlabels ▸ hflow.nodup_passedLabels haddresses)

section

variable (h : (ofCode ctx code vars labels).1 = .ok flat)
include h

theorem jumpsPlaced_of_ofCode : Flat.JumpsPlaced flat.block := by
  obtain ⟨flow, hflow, hlabels, _, hjumps⟩ := emitted_of_ofCode h
  intro l c hgoto
  rw [← Flat.mem_placedLabels, hlabels]
  exact Lift.mem_passedLabels_of_jumpedTo hflow (hjumps l c hgoto)

theorem exists_within_of_ofCode : ∃ n, flat.block.Within n := by
  -- The parameters need not be in the table here, so the bound has to be above them as well.
  obtain ⟨n, hn, hparams⟩ : ∃ n, flat.vars.size ≤ n ∧ ∀ v ∈ ctx.params, v.index < n := by
    generalize ctx.params = params
    induction params with
    | nil => exact ⟨_, Nat.le_refl _, nofun⟩
    | cons v params ih =>
      obtain ⟨n, hn, hparams⟩ := ih
      refine ⟨n + v.index + 1, by omega, forall_mem_cons.2 ⟨by omega, fun w hw => ?_⟩⟩
      have hw := hparams w hw
      omega
  exact ⟨n, (within_of_ofCode h).2 n hn hparams⟩

end

end FlatCode

/-! ## Nesting -/

variable {flat : Block}

theorem EnteredLoop.Shape.jumpsPlaced_rotateLoop {l : EnteredLoop} {entry head exit : Label}
    {cond : Option Expr} (h : l.Shape flat entry head cond) (hplaced : Flat.JumpsPlaced flat) :
    Flat.JumpsPlaced (rotateLoop vars flat l exit) := by
  have hlabel (m : Label) :
    .label m ∈ rotateLoop vars flat l exit ↔ .label m ∈ flat ∨ m = exit := by
    rw [← count_pos_iff, ← count_pos_iff, h.count_label_rotateLoop]
    split
    · simp [*]
    · simp [*]
  intro m c hm
  rw [hlabel]
  rw [h.rotateLoop_eq] at hm
  simp only [mem_append, mem_cons, leaveUnless, mem_map, Stmt.goto.injEq,
    reduceCtorEq, false_or] at hm
  rcases hm with hm | hm | ⟨_, _, rfl, _⟩ | hm | ⟨rfl, _⟩ | hm
  · exact .inl (hplaced m c (mem_of_mem_take hm))
  · exact .inl (hplaced m c (slice_subset _ _ _ hm))
  · exact .inr rfl
  · exact .inl (hplaced m c (slice_subset _ _ _ hm))
  · exact .inl (hplaced _ none (mem_of_getElem? h.enters))
  · exact .inl (hplaced m c (mem_of_mem_drop hm))

/-- Turning loops round keeps every jump's label in the code. -/
theorem jumpsPlaced_rotateLoops (vars : VarTable) (labels : LabelTable) (n : Nat)
    (hplaced : Flat.JumpsPlaced flat) : Flat.JumpsPlaced (rotateLoops vars n flat labels).1 := by
  induction n generalizing flat labels with
  | zero => exact hplaced
  | succ n ih =>
    rw [rotateLoops]
    split
    · exact hplaced
    · rename_i l hfound
      obtain ⟨entry, head, cond, hshape⟩ := shape_of_enteredLoop? hfound
      exact ih _ (hshape.jumpsPlaced_rotateLoop hplaced)

variable {failure : Failure}

/-- Where all labels are placed, only scopes that cross can fail to be found. -/
theorem scopes_eq_error {o : Enumeration flat} (hplaced : Flat.JumpsPlaced flat)
    (h : scopes flat o labels = .error failure) :
    ∃ l, o.widened = .error l ∧ failure = .irreducible (labels.name l) := by
  unfold scopes at h
  split at h
  · rename_i l p hfind
    obtain ⟨c, hc⟩ := mem_gotos.1 (mem_of_find?_eq_some hfind)
    have hlabel := hplaced l c (mem_of_getElem? hc)
    have hnone : labelIndex? flat l = none := by simpa using find?_some hfind
    obtain ⟨p, hp⟩ := mem_iff_getElem?.1 hlabel
    simpa using lastIndex?_eq_none_iff.1 hnone p _ hp
  · split at h
    · rename_i l hwiden
      cases h
      exact ⟨l, hwiden, rfl⟩
    · cases h

/-- Nesting fails only for scopes that cross. -/
theorem nest_eq_error {order : ScopeOrder} (hplaced : Flat.JumpsPlaced flat)
    (h : flat.nest labels vars order = .error failure) :
    ∃ turned table l, rotateLoops vars flat.length flat labels = (turned, table) ∧
      (order turned).widened = .error l ∧ failure = .irreducible (table.name l) := by
  simp only [Block.nest] at h
  have hturned := jumpsPlaced_rotateLoops vars labels flat.length hplaced
  cases hrotate : rotateLoops vars flat.length flat labels with
  | mk turned table =>
    rw [hrotate] at h hturned
    simp only [bind, Except.bind] at h
    split at h
    · rename_i hscopes
      cases h
      obtain ⟨l, hwiden, rfl⟩ := scopes_eq_error hturned hscopes
      exact ⟨turned, table, l, rfl, hwiden, rfl⟩
    · cases h

/-! ## From stage to stage -/

/-- Lifted code is flat, each of its labels stands at one place and every jump goes to one of them,
so that nesting fails, in whatever order it lists the scopes, for no other reason than scopes that
cross. Assignments are whole statements in it, in what nesting makes of it, and in what any sequence
of passes leaves of that. -/
theorem FlatCode.keeps_stage_interfaces {ctx : Context} {code : Code} {vars : VarTable}
    {labels : LabelTable}
    {flat : FlatCode} (haddresses : (code.instructions.map Addressed.address).Nodup)
    (h : (ofCode ctx code vars labels).1 = .ok flat) :
    (∀ s ∈ flat.block, s.isFlat = true) ∧ Flat.UniqueLabels flat.block ∧
      Flat.JumpsPlaced flat.block ∧ flat.block.assignsWhole = true ∧
      ∀ (table : VarTable) (order : ScopeOrder),
        (∀ failure, flat.block.nest flat.labels table order = .error failure →
          ∃ turned names l, rotateLoops table flat.block.length flat.block flat.labels =
            (turned, names) ∧
            (order turned).widened = .error l ∧ failure = .irreducible (names.name l)) ∧
        ∀ nested names, flat.block.nest flat.labels table order = .ok (nested, names) →
          nested.assignsWhole = true ∧
            ∀ vars' ps, (∀ p ∈ ps, p ∈ Cleanup.passes) →
              (Cleanup.runPasses vars' ps nested).val.assignsWhole = true := by
  obtain ⟨_, _, _, hflat, _⟩ := emitted_of_ofCode h
  have hplaced := jumpsPlaced_of_ofCode h
  obtain ⟨n, hwithin⟩ := exists_within_of_ofCode h
  refine ⟨hflat, uniqueLabels_of_ofCode haddresses h, hplaced, hwithin.whole,
    fun table order => ⟨?_, ?_⟩⟩
  · exact fun failure hfailure => nest_eq_error hplaced hfailure
  · intro nested names hnest
    have hnested := (within_of_nest hwithin hnest).whole
    exact ⟨hnested, fun vars' ps hps => Cleanup.keepsWhole_runPasses hps vars' nested hnested⟩

/-- `while (n > 0) { last = n; n = n - 1; }`, entered by a jump to the test. -/
def lastOfLoop : Code :=
  .sequential 1 [.goto 4, .load .int 0, .putStatic ⟨"Count", "last", "I"⟩,
    .iinc 0 (-1), .load .int 0, .ifZero .gt 1, .methodReturn none]

theorem keeps_stage_interfaces_lastOfLoop :
    ∃ flat nested names, (ofCode ofOneInt lastOfLoop oneInt .empty).1 = .ok flat ∧
      flat.block.nest flat.labels flat.vars = .ok (nested, names) ∧ Flat.JumpsPlaced flat.block ∧
      (Cleanup.runPasses flat.vars Cleanup.passes nested).val.assignsWhole = true := by
  have hok : ((ofCode ofOneInt lastOfLoop oneInt .empty).1.bind fun flat =>
      flat.block.nest flat.labels flat.vars).isOk = true := by cbv
  generalize hflat : (ofCode ofOneInt lastOfLoop oneInt .empty).1 = flat at hok
  cases flat with
  | error failure => cases hok
  | ok flat =>
    have hinterfaces := keeps_stage_interfaces (by decide) hflat
    cases hnest : flat.block.nest flat.labels flat.vars with
    | error failure => simp [Except.bind, hnest, Except.isOk, Except.toBool] at hok
    | ok result =>
      obtain ⟨nested, names⟩ := result
      obtain ⟨_, hpasses⟩ := (hinterfaces.2.2.2.2 flat.vars _).2 nested names hnest
      exact ⟨flat, nested, names, rfl, hnest, hinterfaces.2.2.1, hpasses flat.vars _ fun _ => id⟩

end ByteLift
