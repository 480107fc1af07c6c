import ByteLift.Cleanup.Pipeline
import ByteLift.Proofs.Nested.Tidy

/-!
# Cleaning up keeps code well formed

None of the passes adds a jump, a label or a loop, and loops are only taken down where nothing jumps
to them. So each pass keeps the jumps of a method's body in the loops that they name.
-/

namespace ByteLift.Cleanup

open Stmt

/-- Rules that keep blocks well formed, whatever loops these stand in. -/
def KeepsNesting (f : Block → Tracked Block) : Prop :=
  ∀ (around : List (Option Label)) (b : Block),
    WellNestedList around b → WellNestedList around (f b).val

/-- A rule that keeps one block well formed keeps a method's body so when it is applied
throughout. -/
theorem KeepsNesting.rewrite {f : Block → Tracked Block} (hf : KeepsNesting f) :
    KeepsNesting (Block.rewrite f) :=
  fun around b h => congruent_wellNested.rewrite (fun a around => hf around a) b around h

/-! ## One block -/

theorem keepsNesting_dropNoOpsHere : KeepsNesting dropNoOpsHere := fun around b =>
  congruent_wellNested.tracking.dropNoOpsHere (fun _ _ _ h => (wellNestedList_cons.1 h).2) b around

section

variable {left : Block} {s : Stmt} {unread : Var → Bool} (h : leftover? unread s = some left)
include h

/-- What a statement leaves behind when variables are not needed. -/
theorem leftover?_eq_some : (∃ v, s = .declare v none ∧ unread v = true ∧ left = []) ∨
      ∃ v value, s.assignment? = some (v, value) ∧ unread v = true ∧
        (value.isPure = true ∧ left = [] ∨ value.isPure = false ∧ left = [.expr value]) := by
  unfold leftover? at h
  split at h
  · rename_i v
    split at h
    · rename_i hunread
      cases h
      exact .inl ⟨v, rfl, hunread, rfl⟩
    · cases h
  · split at h
    · rename_i v value hassign
      split at h
      · rename_i hunread
        cases h
        refine .inr ⟨v, value, hassign, hunread, ?_⟩
        cases hpure : value.isPure with
        | true => exact .inl ⟨rfl, rfl⟩
        | false => exact .inr ⟨rfl, rfl⟩
      · cases h
    · cases h

theorem wellNestedList_leftover? (around : List (Option Label)) : WellNestedList around left := by
  rcases leftover?_eq_some h with ⟨_, _, _, rfl⟩ | ⟨_, _, _, _, ⟨_, rfl⟩ | ⟨_, rfl⟩⟩ <;> simp

end

theorem keepsNesting_sweep (unread : Var → Bool) : KeepsNesting (sweep unread) := fun around b =>
  congruent_wellNested.tracking.sweep (fun _ hleft around h =>
    wellNestedList_append.2 ⟨wellNestedList_leftover? hleft around, (wellNestedList_cons.1 h).2⟩) b
      around

variable {around : List (Option Label)} {s : Stmt} {b : Block} {ps : List Pass}

/-- The assignment of a new value to a variable stands anywhere, as the old one did. -/
theorem wellNested_withValue (value : Expr) (h : s.WellNested around) :
    (s.withValue value).WellNested around := by
  unfold withValue
  split
  · simp
  · simp
  · exact h

/-- The call of a constructor is a statement of the block, with the others before and behind it. -/
theorem constructorSite?_eq {v : Var} {cls : String} {site : ConstructorSite}
    (h : constructorSite? v cls b = some site) :
    ∃ call, b = site.before ++ call :: site.behind ∧
      constructorCall? v call = some (site.method, site.args) := by
  induction b generalizing site with
  | nil => simp [constructorSite?] at h
  | cons s ss ih =>
    rw [constructorSite?] at h
    split at h
    · rename_i method args hcall
      split at h
      · cases h
        exact ⟨s, rfl, hcall⟩
      · cases h
    · split at h
      · cases h
      · obtain ⟨later, hlater, rfl⟩ := Option.map_eq_some_iff.1 h
        obtain ⟨call, heq, hcall⟩ := ih hlater
        exact ⟨call, congrArg (s :: ·) heq, hcall⟩

theorem keepsNesting_fuseHere : KeepsNesting fuseHere := by
  refine fun around b => congruent_wellNested.tracking.fuseHere
    (fun _ hsite around h => ?_) b around
  obtain ⟨call, rfl, -⟩ := constructorSite?_eq hsite
  simp only [wellNestedList_cons, wellNestedList_append] at h
  simpa [h.2] using wellNested_withValue _ h.1

variable (uses : List Use) (vars : VarTable)

theorem keepsNesting_forwardHere : KeepsNesting (forwardHere uses) := by
  refine fun around b => congruent_wellNested.tracking.forwardHere
    (fun ss _ around h => ?_) b around
  simp only [wellNestedList_cons] at h
  simpa [h.2.2] using wellNested_withValue _ h.2.1

/-- Replacing what a statement reads leaves its jumps and blocks as they are. -/
theorem wellNested_replaceStmtReads (f : Var → Option Expr) :
    (replaceStmtReads f s).val.WellNested around ↔ s.WellNested around := by
  unfold replaceStmtReads
  split <;> simp [Stmt.WellNested]

theorem keepsNesting_inlineHere : KeepsNesting (inlineHere uses) := by
  refine fun around b => congruent_wellNested.tracking.inlineHere (fun ss _ around h => ?_) b around
  simpa [wellNested_replaceStmtReads] using (wellNestedList_cons.1 h).2

/-! ## Branches -/

theorem straightening_wellNested :
    Block.Straightening vars fun a b _ => ∀ around, WellNestedList around a →
    WellNestedList around b where
  toTurning := turning_wellNested vars
  takeElse a b ss _ around := by simp +contextual
  dropEmpty ss _ around := by simp
  effect ss _ around := by simp
  merge c d a ss around := by simp

/-! ## Copies and declarations -/

theorem wellNestedList_copyBlock (around : List (Option Label)) (copies : Copies) (b : Block)
    (h : WellNestedList around b) : WellNestedList around (copyBlock copies b).val.1 :=
  congruent_wellNested.copyBlock (fun c s ss around => by simp [wellNested_replaceStmtReads])
    copies b around h

theorem wellNestedList_hoist (around : List (Option Label)) (b : Block)
    (h : WellNestedList around b) : WellNestedList around (hoist b) :=
  congruent_wellNested.hoist (fun _ _ _ h => (wellNestedList_cons.1 h).2)
    (fun v e ss around => by simp) b around h

theorem wellNestedList_place (v : Var) (around : List (Option Label)) (b : Block)
    (h : WellNestedList around b) : WellNestedList around (place v b) :=
  (placed_place v b).of_congruent congruent_wellNested (fun s ss around => by simp)
    (fun value ss around => by simp)
    around h

theorem keepsNesting_placeDeclarations : KeepsNesting (placeDeclarations vars) := by
  intro around b h
  simp only [placeDeclarations, Tracked.val_note]
  generalize localsOf vars (hoist b) = locals
  have hbare := wellNestedList_hoist around b h
  generalize hoist b = bare at hbare
  induction locals generalizing bare with
  | nil => exact hbare
  | cons v vs ih => exact ih _ (wellNestedList_place v around bare hbare)

/-! ## All passes -/

/-- Every pass keeps a method's body well formed. -/
theorem keepsNesting_of_mem_passes {p : Pass} (hp : p ∈ passes) (vars : VarTable) :
    KeepsNesting (p.run vars) := by
  simp only [passes, List.mem_cons, List.not_mem_nil, or_false] at hp
  rcases hp with rfl | rfl | rfl | rfl | rfl | rfl | rfl
  · exact keepsNesting_dropNoOpsHere.rewrite
  · intro around b h
    exact (keepsNesting_forwardHere _).rewrite around _ (keepsNesting_fuseHere.rewrite around b h)
  · intro around b h
    exact wellNestedList_copyBlock around [] b h
  · exact fun around b => (keepsNesting_sweep _).rewrite around b
  · exact keepsNesting_placeDeclarations vars
  · exact fun around b => (keepsNesting_inlineHere _).rewrite around b
  · exact fun around b => (straightening_wellNested vars).straightenBranches b around

/-- What each of some passes keeps is kept by running them one after another. -/
theorem runPasses_induction {P : Block → Prop} {vars : VarTable}
    (hps : ∀ p ∈ ps, ∀ b, P b → P (p.run vars b).val) (h : P b) : P (runPasses vars ps b).val := by
  induction ps generalizing b with
  | nil => exact h
  | cons p ps ih =>
    exact ih (fun q hq => hps q (List.mem_cons_of_mem _ hq)) (hps p List.mem_cons_self b h)

/-- Any sequence of passes keeps it so as well. -/
theorem keepsNesting_runPasses (hps : ∀ p ∈ ps, p ∈ passes) (vars : VarTable) :
    KeepsNesting (runPasses vars ps) := fun around _ h =>
  runPasses_induction (fun p hp => keepsNesting_of_mem_passes (hps p hp) vars around) h

end ByteLift.Cleanup
