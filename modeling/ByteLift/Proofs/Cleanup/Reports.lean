import ByteLift.Proofs.Cleanup.CopiesSettle

/-!
# What passes report

Cleaning up stops after a round in which no pass reports a change. It may do so because the reports
can be relied on: a rule that changes a block says so, at every depth, and no pass loses the report
of a rule. A body that is left before the limit is reached is therefore one that no pass changes.
-/

namespace ByteLift

/-! ## Reports -/

/-- If no change is reported, the value is still the one that it is compared with. -/
def Tracked.Honest {α : Type} (t : Tracked α) (a : α) : Prop := t.changed = false → t = pure a

namespace Tracked.Honest

variable {α β : Type} {t : Tracked α} {a : α}

theorem of_val (h : t.changed = false → t.val = a) : t.Honest a :=
  fun hunchanged => Tracked.ext (h hunchanged) hunchanged

/-- If the first step changes nothing, the second one starts from the same value. -/
theorem bind {f : α → Tracked β} {c : β} (ht : t.Honest a) (hf : (f a).Honest c) :
    (t >>= f).Honest c := by
  intro hunchanged
  rw [changed_bind, Bool.or_eq_false_iff] at hunchanged
  have htpure := ht hunchanged.1
  rw [htpure, val_pure] at hunchanged
  rw [htpure, pure_bind]
  exact hf hunchanged.2

end Tracked.Honest

namespace Block

theorem Reported.of_changed (a b : Block) : Reported a b true := fun h => by cases h

theorem straightening_reported (vars : VarTable) : Straightening vars Reported where
  toTracking := tracking_reported
  unwrap _ _ := .of_changed _ _
  takeThen _ _ _ _ := .of_changed _ _
  turn _ _ _ _ _ := .of_changed _ _
  takeElse _ _ _ _ := .of_changed _ _
  dropEmpty _ _ := .of_changed _ _
  effect _ _ := .of_changed _ _
  merge _ _ _ _ := .of_changed _ _

/-- A rule that is honest about each block is honest about a method's body. -/
theorem honest_rewrite {f : Block → Tracked Block} (hf : Obeys Reported f) (b : Block) :
    (b.rewrite f).Honest b :=
  .of_val (tracking_reported.rewrite hf b)

end Block

namespace Cleanup

open Block

variable {vars : VarTable} {b : Block}

/-! ## Passes -/

theorem honest_fuseHere : Obeys Reported fuseHere :=
  tracking_reported.fuseHere fun _ _ => .of_changed _ _

/-- The uses that decide what is forwarded are those of the body after fusing, which is the body
itself if nothing was fused. -/
theorem honest_construct (b : Block) : (construct b).Honest b :=
  (honest_rewrite honest_fuseHere b).bind
    (honest_rewrite (tracking_reported.forwardHere fun _ _ => .of_changed _ _) b)

/-- A pass that reports no change makes none. -/
theorem honest_of_mem_passes {p : Pass} (hp : p ∈ passes) (vars : VarTable) (b : Block) :
    (p.run vars b).Honest b := by
  simp only [passes, List.mem_cons, List.not_mem_nil, or_false] at hp
  rcases hp with rfl | rfl | rfl | rfl | rfl | rfl | rfl
  · exact honest_rewrite (tracking_reported.dropNoOpsHere fun _ _ => .of_changed _ _) b
  · exact honest_construct b
  · exact propagateCopies_eq_pure
  · exact honest_rewrite (tracking_reported.sweep fun _ _ => .of_changed _ _) b
  · exact .of_val fun h => by simpa [placeDeclarations] using h
  · exact honest_rewrite (tracking_reported.inlineHere fun _ _ => .of_changed _ _) b
  · exact honest_rewrite (straightening_reported vars).straightenEnds b

/-! ## Rounds -/

variable {ps : List Pass}

theorem run_eq_pure_of_changed_runPasses (hps : ps ⊆ passes)
    (hunchanged : (runPasses vars ps b).changed = false) : ∀ p ∈ ps, p.run vars b = pure b := by
  induction ps with
  | nil => simp
  | cons p ps ih =>
    rw [List.cons_subset] at hps
    rw [runPasses, Tracked.changed_bind, Bool.or_eq_false_iff] at hunchanged
    have hp := honest_of_mem_passes hps.1 vars b hunchanged.1
    rw [hp] at hunchanged
    rw [List.forall_mem_cons]
    exact ⟨hp, ih hps.2 hunchanged.2⟩

theorem runPasses_eq_pure (h : ∀ p ∈ ps, p.run vars b = pure b) : runPasses vars ps b = pure b := by
  induction ps with
  | nil => rfl
  | cons p ps ih =>
    rw [List.forall_mem_cons] at h
    rw [runPasses, h.1, pure_bind, ih h.2]

/-- A round that changes nothing is the last one. -/
theorem rounds_of_round_eq_pure (h : round vars b = pure b) (limit : Nat) :
    rounds vars (limit + 1) b = (1, b) := by
  rw [rounds, h]
  rfl

/-- Rounds that end before the limit end with one in which no pass changes anything. -/
theorem run_eq_pure_of_rounds_lt {limit : Nat} (h : (rounds vars limit b).1 < limit) :
    ∀ p ∈ passes, p.run vars (rounds vars limit b).2 = pure (rounds vars limit b).2 := by
  induction limit generalizing b with
  | zero => cases h
  | succ limit ih =>
    cases hchanged : (round vars b).changed with
    | true =>
      simp only [rounds, hchanged, if_true] at h ⊢
      exact ih (Nat.lt_of_succ_lt_succ h)
    | false =>
      have hpasses := run_eq_pure_of_changed_runPasses (List.Subset.refl _) hchanged
      rw [rounds_of_round_eq_pure (runPasses_eq_pure hpasses) limit]
      exact hpasses

/-- Every pass says whether it changes the body. So a body that is left before the limit is reached
is clean: no pass changes it, and cleaning it up again takes the one round that shows this. -/
theorem rounds_lt_limit_clean (vars : VarTable) (b : Block) :
    (∀ p ∈ passes, (p.run vars b).changed = false → (p.run vars b).val = b) ∧
      ∀ limit, (rounds vars limit b).1 < limit →
        (∀ p ∈ passes, p.run vars (rounds vars limit b).2 = pure (rounds vars limit b).2) ∧
          ∀ again, 1 ≤ again → rounds vars again (rounds vars limit b).2 =
            (1, (rounds vars limit b).2) := by
  constructor
  · intro p hp hunchanged
    rw [honest_of_mem_passes hp vars b hunchanged, Tracked.val_pure]
  · intro limit hlimit
    have hclean := run_eq_pure_of_rounds_lt hlimit
    refine ⟨hclean, fun again hagain => ?_⟩
    obtain ⟨again, rfl⟩ := Nat.exists_eq_add_of_le' hagain
    exact rounds_of_round_eq_pure (runPasses_eq_pure hclean) again

/-- A parameter, and two locals that are assigned from it. -/
def copyVars : VarTable :=
  ⟨#[⟨.int, "a", false, true, false, some 0⟩, ⟨.int, "b", false, false, false, some 1⟩,
    ⟨.int, "c", false, false, false, some 2⟩]⟩

/-- Two copies of a parameter, of which the second is returned, are gone after the first round, and
the second round finds the body clean. -/
theorem rounds_lt_limit_clean_copies :
    let body : Block := [.set ⟨1⟩ (.var ⟨0⟩), .set ⟨2⟩ (.var ⟨1⟩), .ret (some (.var ⟨2⟩))]
    (rounds copyVars 9 body).1 < 9 ∧
      (∀ p ∈ passes, p.run copyVars (rounds copyVars 9 body).2 = pure (rounds copyVars 9 body).2) ∧
        ∀ again, 1 ≤ again → rounds copyVars again (rounds copyVars 9 body).2 =
          (1, (rounds copyVars 9 body).2) := by
  intro body
  have hlimit : (rounds copyVars 9 body).1 < 9 := by decide +kernel
  exact ⟨hlimit, (rounds_lt_limit_clean copyVars body).2 9 hlimit⟩

end Cleanup

end ByteLift
