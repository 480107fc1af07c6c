import Mathlib.Data.Nat.Find
import Mathlib.Logic.Function.Iterate
import ByteLift.Proofs.Cleanup.CopiesHoist
import ByteLift.Proofs.Cleanup.PlaceOrder
import ByteLift.Proofs.Cleanup.Reports
import ByteLift.Proofs.Variables.Declared

/-!
# Cleaning up comes to an end

No round makes a body heavier, so from some round on its weight stays. Such rounds only replace
copies, place declarations and turn branches round. The copies are all replaced after two of them,
and then the branches to be turned get fewer until a round changes nothing.
-/

namespace ByteLift

open Block Tracked Function

namespace Cleanup

/-! ## Passes -/

variable {vars : VarTable} {b : Block} {v : Var}

/-- No pass makes a body heavier, and one that reports no change makes none. -/
theorem lowers_of_mem_passes {p : Pass} (hp : p ∈ passes) (vars : VarTable) (b : Block) :
    Lowers (fun _ _ => True) b (p.run vars b).val (p.run vars b).changed := by
  have hwhole := keepsWhole_of_mem_passes (D := .writes) hp vars b
  simp only [passes, List.mem_cons, List.not_mem_nil, or_false] at hp
  rcases hp with rfl | rfl | rfl | rfl | rfl | rfl | rfl
  · exact (lowers_dropNoOps partwise_false b).mono False.elim
  · exact (lowers_construct partwise_false b).mono False.elim
  · exact lowers_propagateCopies b
  · exact (lowers_dropUnread b).mono fun _ => trivial
  · refine .of_weight hwhole (fun _ => weight_placeDeclarations vars b) fun h => ?_
    simpa [placeDeclarations] using h
  · exact (lowers_inlineOnce partwise_false b).mono False.elim
  · exact (lowers_straightenBranches vars b).mono fun _ => trivial

/-! ## Rounds that leave the weight -/

theorem weight_runPasses_le {ps : List Pass} (hps : ps ⊆ passes) (hb : b.writesWhole = true) :
    (runPasses vars ps b).val.weight ≤ b.weight := by
  induction ps generalizing b with
  | nil => exact Nat.le_refl _
  | cons p ps ih =>
    rw [List.cons_subset] at hps
    have hp := lowers_of_mem_passes hps.1 vars b
    exact Nat.le_trans (ih hps.2 (hp hb).1) (hp.weight_le hb)

/-- If all passes together leave the weight, so does the first one, and so do those after it. -/
theorem weight_of_runPasses_cons {p : Pass} {ps : List Pass} (hps : p :: ps ⊆ passes)
    (hb : b.writesWhole = true) (hweight : (runPasses vars (p :: ps) b).val.weight = b.weight) :
    (p.run vars b).val.weight = b.weight ∧ ps ⊆ passes ∧ (p.run vars b).val.writesWhole = true ∧
      (runPasses vars ps (p.run vars b).val).val.weight = (p.run vars b).val.weight := by
  rw [List.cons_subset] at hps
  have hp := lowers_of_mem_passes hps.1 vars b
  have hfirst := hp.weight_le hb
  have hrest : (runPasses vars ps (p.run vars b).val).val.weight ≤ _ :=
    weight_runPasses_le hps.2 (hp hb).1
  rw [runPasses, val_bind] at hweight
  exact ⟨by omega, hps.2, (hp hb).1, by omega⟩

/-- A round is its seven passes. -/
theorem round_eq (vars : VarTable) (b : Block) : round vars b = (do
    let b ← dropNoOps b
    let b ← construct b
    let b ← propagateCopies b
    let b ← dropUnread b
    let b ← placeDeclarations vars b
    let b ← inlineOnce b
    straightenBranches vars b) := by
  simp only [round, passes, runPasses, bind_pure]

/-- Where declarations go does not depend on where they were. -/
theorem val_placeDeclarations_congr {a b : Block} (h : hoist a = hoist b) :
    (placeDeclarations vars a).val = (placeDeclarations vars b).val := by
  simp only [placeDeclarations, h, val_note]

theorem placeDeclarations_eq_pure (h : placeAll (localsOf vars (hoist b)) (hoist b) = b) :
    placeDeclarations vars b = pure b :=
  Tracked.ext h (by simpa [placeDeclarations, placeAll] using h)

/-- The body in the middle of a round, with its copies replaced and its declarations taken out. -/
def bareIn (b : Block) : Block := hoist (propagateCopies b).val

/-- The body in the middle of a round, with the declarations of its locals placed. -/
def placedIn (vars : VarTable) (b : Block) : Block := placeAll (localsOf vars (bareIn b)) (bareIn b)

/-- A body that the passes of a round make no lighter. -/
structure Steady (vars : VarTable) (b : Block) : Prop where
  whole : b.writesWhole = true
  noOps : dropNoOps b = pure b
  constructed : construct b = pure b
  unread : (dropUnread (propagateCopies b).val).val.weight = (propagateCopies b).val.weight
  inlined : inlineOnce (placedIn vars b) = pure (placedIn vars b)
  turned : straightenBranches vars (placedIn vars b) = pure (placedIn vars b) ∨
    TurnsDown vars (placedIn vars b) (straightenBranches vars (placedIn vars b)).val
  next : (round vars b).val = (straightenBranches vars (placedIn vars b)).val

/-- A body whose weight a round keeps is steady. -/
theorem steady_of_weight (hb : b.writesWhole = true)
    (hweight : (round vars b).val.weight = b.weight) : Steady vars b := by
  have hround := congrArg Tracked.val (round_eq vars b)
  have hps : passes ⊆ passes := fun _ => id
  rw [round] at hweight
  rw [passes] at hps hweight
  -- The first two passes leave the body as it is.
  obtain ⟨hdrop, hps, -, hweight⟩ := weight_of_runPasses_cons hps hb hweight
  have hnoOps := ((lowers_dropNoOps partwise_false b).cases_of_weight hb hdrop).resolve_right id
  simp only [hnoOps, val_pure] at hweight
  obtain ⟨hconstruct, hps, -, hweight⟩ := weight_of_runPasses_cons hps hb hweight
  have hconstructed :=
    ((lowers_construct partwise_false b).cases_of_weight hb hconstruct).resolve_right id
  simp only [hconstructed, val_pure] at hweight
  -- The next three take it to where its declarations are placed.
  obtain ⟨-, hps, hcopied, hweight⟩ := weight_of_runPasses_cons hps hb hweight
  obtain ⟨hunread, hps, hread, hweight⟩ := weight_of_runPasses_cons hps hcopied hweight
  obtain ⟨-, hps, hwhole, hweight⟩ := weight_of_runPasses_cons hps hread hweight
  have hplaced :
    (placeDeclarations vars (dropUnread (propagateCopies b).val).val).val = placedIn vars b :=
    val_placeDeclarations_congr (hoist_dropUnread hcopied hunread)
  simp only [hplaced] at hwhole hweight
  -- The last two leave it there but for the branches that are turned.
  obtain ⟨hinline, hps, -, hweight⟩ := weight_of_runPasses_cons hps hwhole hweight
  have hinlined :=
    ((lowers_inlineOnce partwise_false _).cases_of_weight hwhole hinline).resolve_right id
  simp only [hinlined, val_pure] at hweight
  obtain ⟨hstraight, -⟩ := weight_of_runPasses_cons hps hwhole hweight
  have hturned := (lowers_straightenBranches vars _).cases_of_weight hwhole hstraight
  simp only [val_bind, hnoOps, hconstructed, hplaced, hinlined, val_pure] at hround
  exact ⟨hb, hnoOps, hconstructed, hunread, hinlined, hturned, hround⟩

/-! ## From one such round to the next -/

/-- A block that declares nothing is bare as it is. -/
theorem hoist_eq_self (h : b.declared = []) : hoist b = b := by
  induction b using nestedInduction with
  | nil => rfl
  | cons s ss ihblocks ihss =>
    rw [declared_cons, List.append_eq_nil_iff, List.append_eq_nil_iff, List.flatMap_eq_nil_iff] at h
    obtain ⟨hs, hblocks, hss⟩ := h
    have ih a (ha : a ∈ s.blocks) : hoist a = a := ihblocks a ha (hblocks a ha)
    cases s with
    | declare v init => simp [Stmt.declared?] at hs
    | _ => simp_all [hoist, hoistIn]

theorem declared_bareIn (b : Block) : (bareIn b).declared = [] := declared_hoist _

/-- Blocks that use the same variables have the same locals. -/
theorem localsOf_perm {a b : Block} (ha : a.declared = []) (hb : b.declared = [])
    (h : SameVars a b) : (localsOf vars b).Perm (localsOf vars a) := by
  refine (List.perm_ext_iff_of_nodup (nodup_localsOf _ _) (nodup_localsOf _ _)).2 fun v => ?_
  simp only [mem_localsOf ha, mem_localsOf hb, h.mem_uses]

theorem mem_declared_placeAll {vs : List Var} (h : v ∈ (placeAll vs b).declared) :
    v ∈ b.declared ∨ v ∈ vs := by
  have hcount := count_declared_placeAll vs b v
  have hpos := List.count_pos_iff.2 h
  by_contra hv
  rw [not_or, ← List.count_eq_zero, ← List.count_eq_zero] at hv
  omega

/-- The body that a round leaves. -/
def afterRound (vars : VarTable) (b : Block) : Block := (round vars b).val

namespace Steady

section

variable (h : Steady vars b)
include h

theorem turned_placedIn : Turned vars (placedIn vars b) (afterRound vars b) := by
  rw [afterRound, h.next]
  rcases h.turned with hpure | hdown
  · rw [hpure]
    exact .refl _
  · exact hdown.1

/-- But for its declarations, the round leaves the body with its copies replaced and branches
turned. The declarations are those of the locals. -/
theorem afterRound_eq : Turned vars (bareIn b) (hoist (afterRound vars b)) ∧
    afterRound vars b = placeAll (localsOf vars (bareIn b)) (hoist (afterRound vars b)) := by
  obtain ⟨bare, hturned, hround⟩ := exists_of_turned_placeAll h.turned_placedIn
  have hbare : hoist (afterRound vars b) = bare := by
    rw [hround, hoist_placeAll, hoist_eq_self]
    simp [List.eq_nil_iff_forall_not_mem, hturned.sameVars.mem_declared, declared_bareIn]
  rw [hbare]
  exact ⟨hturned, hround⟩

theorem mem_localsOf_of_declared (hv : v ∈ (afterRound vars b).declared) :
    v ∈ localsOf vars (bareIn b) := by
  rw [h.turned_placedIn.sameVars.mem_declared] at hv
  refine (mem_declared_placeAll hv).resolve_left ?_
  simp [declared_bareIn]

/-- The declarations that the round leaves do not matter for the copies. -/
theorem propagateCopies_hoist_afterRound :
    propagateCopies (hoist (afterRound vars b)) =
      hoist <$> propagateCopies (afterRound vars b) := by
  refine propagateCopies_hoist fun v hv => scoped_round h.whole ?_
  exact ((mem_localsOf (declared_bareIn b)).1 (h.mem_localsOf_of_declared hv)).1

/-- A round replaces all copies if declarations do not matter for them. -/
theorem propagateCopies_afterRound
    (hbare : propagateCopies (hoist b) = hoist <$> propagateCopies b) :
    propagateCopies (afterRound vars b) = pure (afterRound vars b) := by
  have hagain : (propagateCopies (bareIn b)).changed = false := by
    have hval : bareIn b = (propagateCopies (hoist b)).val := by rw [hbare, val_map, bareIn]
    rw [hval]
    exact propagateCopies_again _
  have hchanged := changed_propagateCopies_turned h.afterRound_eq.1 hagain
  rw [h.propagateCopies_hoist_afterRound, changed_map] at hchanged
  exact propagateCopies_eq_pure hchanged

/-- Once there are no copies left to replace, declarations are placed where they were, but for their
order. -/
theorem shuffled_placedIn
    (hcopied : propagateCopies (afterRound vars b) = pure (afterRound vars b)) :
    Shuffled (placedIn vars (afterRound vars b)) (afterRound vars b) := by
  obtain ⟨hturned, hround⟩ := h.afterRound_eq
  have hbare : bareIn (afterRound vars b) = hoist (afterRound vars b) := by
    rw [bareIn, hcopied, val_pure]
  rw [placedIn, hbare]
  nth_rewrite 3 [hround]
  exact shuffled_placeAll_of_perm (localsOf_perm (declared_bareIn b) (declared_hoist _)
    hturned.sameVars) _

end

end Steady

/-! ## The last rounds -/

/-- A body that no round makes lighter, with all copies replaced and its declarations in place but
for their order. -/
structure Settled (vars : VarTable) (b : Block) : Prop where
  steady : ∀ n, Steady vars ((afterRound vars)^[n] b)
  bare : propagateCopies (hoist b) = hoist <$> propagateCopies b
  copied : propagateCopies b = pure b
  placed : Shuffled (placedIn vars b) b

theorem settled_afterRound (hsteady : ∀ n, Steady vars ((afterRound vars)^[n] b))
    (hbare : propagateCopies (hoist b) = hoist <$> propagateCopies b) :
    Settled vars (afterRound vars b) where
  steady n := hsteady (n + 1)
  bare := (hsteady 0).propagateCopies_hoist_afterRound
  copied := (hsteady 0).propagateCopies_afterRound hbare
  placed := (hsteady 0).shuffled_placedIn ((hsteady 0).propagateCopies_afterRound hbare)

namespace Settled

theorem now (h : Settled vars b) : Steady vars b := h.steady 0

theorem next (h : Settled vars b) : Settled vars (afterRound vars b) :=
  settled_afterRound h.steady h.bare

/-- If no branch is turned, the round after that changes nothing. -/
theorem round_eq_pure (h : Settled vars b)
    (hstraight : straightenBranches vars (placedIn vars b) = pure (placedIn vars b)) :
    round vars (afterRound vars b) = pure (afterRound vars b) := by
  have hnext : placedIn vars b = afterRound vars b := by
    rw [afterRound, h.now.next, hstraight, val_pure]
  have hbare : hoist (afterRound vars b) = bareIn b := by
    rw [← hnext, placedIn, hoist_placeAll, hoist_eq_self (declared_bareIn b)]
  have hplaced : placeDeclarations vars (afterRound vars b) = pure (afterRound vars b) := by
    refine placeDeclarations_eq_pure ?_
    rw [hbare, ← hnext, placedIn]
  have hunread : dropUnread (afterRound vars b) = pure (afterRound vars b) := by
    refine dropUnread_eq_pure h.next.now.whole (fun v hv => ?_) ?_
    · rw [← uses_hoist, hbare]
      exact ((mem_localsOf (declared_bareIn b)).1 (h.now.mem_localsOf_of_declared hv)).2
    · have hweight := h.next.now.unread
      rwa [h.next.copied, val_pure] at hweight
  have hinlined := h.now.inlined
  rw [hnext] at hstraight hinlined
  rw [round_eq, h.next.now.noOps, pure_bind, h.next.now.constructed, pure_bind, h.next.copied,
    pure_bind, hunread, pure_bind, hplaced, pure_bind, hinlined, pure_bind, hstraight]

/-- Each round turns branches that are not turned back, until a round has none to turn. -/
theorem exists_round_eq_pure {b : Block} (h : Settled vars b) :
    ∃ n, round vars ((afterRound vars)^[n] b) = pure ((afterRound vars)^[n] b) := by
  rcases h.now.turned with hstraight | hdown
  · refine ⟨1, ?_⟩
    rw [iterate_one]
    exact h.round_eq_pure hstraight
  · have hless : turnable (afterRound vars b) < turnable b := by
      rw [turnable_shuffled h.placed, afterRound, h.now.next]
      exact hdown.2
    obtain ⟨n, hn⟩ := h.next.exists_round_eq_pure
    refine ⟨n + 1, ?_⟩
    rwa [iterate_succ_apply]
termination_by turnable b

end Settled

section

variable (vars : VarTable) (hb : b.writesWhole = true)
include hb

theorem whole_iterate (n : Nat) : ((afterRound vars)^[n] b).writesWhole = true := by
  induction n with
  | zero => exact hb
  | succ n ih =>
    rw [iterate_succ_apply']
    exact (keepsWhole_runPasses (fun _ => id) vars _).writesWhole ih

theorem weight_afterRound_le : (afterRound vars b).weight ≤ b.weight :=
  weight_runPasses_le (fun _ => id) hb

theorem weight_iterate_le (n : Nat) : ((afterRound vars)^[n] b).weight ≤ b.weight := by
  induction n with
  | zero => exact Nat.le_refl _
  | succ n ih =>
    rw [iterate_succ_apply']
    exact Nat.le_trans (weight_afterRound_le vars (whole_iterate vars hb n)) ih

end

/-- Some round changes nothing. -/
theorem exists_round_eq_pure (vars : VarTable) {b : Block} (hb : b.writesWhole = true) :
    ∃ n, round vars ((afterRound vars)^[n] b) = pure ((afterRound vars)^[n] b) := by
  by_cases hweight : ∀ n, ((afterRound vars)^[n + 1] b).weight = ((afterRound vars)^[n] b).weight
  · have hsteady n : Steady vars ((afterRound vars)^[n] b) := by
      refine steady_of_weight (whole_iterate vars hb n) ?_
      have hsame := hweight n
      rwa [iterate_succ_apply'] at hsame
    -- Two rounds take all declarations to their places and replace all copies.
    have hsettled :=
      settled_afterRound (fun n => hsteady (n + 1)) (hsteady 0).propagateCopies_hoist_afterRound
    obtain ⟨n, hn⟩ := hsettled.exists_round_eq_pure
    exact ⟨n + 2, hn⟩
  · -- Some round makes the body lighter.
    obtain ⟨n, hn⟩ := not_forall.1 hweight
    have hnext := whole_iterate vars hb n
    have hless : ((afterRound vars)^[n + 1] b).weight < b.weight := by
      rw [iterate_succ_apply'] at hn ⊢
      have := weight_afterRound_le vars hnext
      have := weight_iterate_le vars hb n
      omega
    obtain ⟨m, hm⟩ := exists_round_eq_pure vars (whole_iterate vars hb (n + 1))
    refine ⟨m + (n + 1), ?_⟩
    rwa [iterate_add_apply]
termination_by b.weight

/-! ## The limit -/

/-- As long as the limit allows, rounds that change something are run one after another. -/
theorem rounds_add (n limit : Nat)
    (h : ∀ m < n, (round vars ((afterRound vars)^[m] b)).changed = true) :
    rounds vars (n + limit) b = (n + (rounds vars limit ((afterRound vars)^[n] b)).1,
      (rounds vars limit ((afterRound vars)^[n] b)).2) := by
  induction n generalizing b with
  | zero => simp
  | succ n ih =>
    have hfirst : (round vars b).changed = true := h 0 (Nat.succ_pos n)
    have hrest : rounds vars (n + limit) (round vars b).val = _ :=
      ih fun m hm => h (m + 1) (Nat.succ_lt_succ hm)
    rw [Nat.add_right_comm, rounds, if_pos hfirst, hrest, iterate_succ_apply]
    simp only [afterRound, Nat.add_right_comm]

/-- Cleaning up comes to an end. After some number of rounds there is one in which no pass changes
anything, and with any limit that allows for it, that round is the last. -/
theorem rounds_converge (vars : VarTable) {b : Block} (hb : b.writesWhole = true) :
    ∃ (n : Nat) (last : Block), rounds vars n b = (n, last) ∧
      (∀ p ∈ passes, p.run vars last = pure last) ∧
      ∀ limit, n < limit → rounds vars limit b = (n + 1, last) := by
  have hstop : ∃ n, (round vars ((afterRound vars)^[n] b)).changed = false := by
    obtain ⟨n, hn⟩ := exists_round_eq_pure vars hb
    exact ⟨n, by rw [hn, Tracked.changed_pure]⟩
  -- The first round without a change is the one to stop at.
  have hchanged m (hm : m < Nat.find hstop) :
    (round vars ((afterRound vars)^[m] b)).changed = true := by
    simpa using Nat.find_min hstop hm
  have hlast := run_eq_pure_of_changed_runPasses (fun _ => id) (Nat.find_spec hstop)
  refine ⟨Nat.find hstop, (afterRound vars)^[Nat.find hstop] b, rounds_add _ 0 hchanged, hlast, ?_⟩
  intro limit hlimit
  obtain ⟨k, rfl⟩ := Nat.exists_eq_add_of_lt hlimit
  rw [Nat.add_assoc, rounds_add _ (k + 1) hchanged,
    rounds_of_round_eq_pure (runPasses_eq_pure hlast)]

/-- Code that copies a parameter and reads the copy on one side of a branch. -/
def copyThenBranch : Block :=
  [.set ⟨1⟩ (.var ⟨0⟩),
    .ite (.compare .eq (.var ⟨0⟩) (.lit (.int 0))) [] [.set ⟨2⟩ (.var ⟨1⟩), .ret (some (.var ⟨2⟩))]]

theorem rounds_converge_copyThenBranch :
    copyThenBranch.writesWhole = true ∧
    ∃ (n : Nat) (last : Block), rounds copyVars n copyThenBranch = (n, last) ∧
      (∀ p ∈ passes, p.run copyVars last = pure last) ∧
      ∀ limit, n < limit → rounds copyVars limit copyThenBranch = (n + 1, last) :=
  ⟨by decide, rounds_converge copyVars (by decide)⟩

end Cleanup

end ByteLift
