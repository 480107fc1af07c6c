import ByteLift.Proofs.Variables.Reshape

/-!
# Cleaning up keeps assignments whole

No pass moves an assignment into an expression. The values that passes move around are those of
assignments, the arguments of constructors and variables, and these may stand anywhere in a body
that follows a discipline.
-/

namespace ByteLift

open Stmt

variable {D : Discipline} {s : Stmt} {value : Expr}

/-! ## Assignments -/

variable {v : Var}

/-- The value of an assignment may stand anywhere. -/
theorem Stmt.free_of_assignment? (h : s.follows D = true) (hs : s.assignment? = some (v, value)) :
    D.free value = true := by
  rcases eq_of_assignment? hs with rfl | rfl
  · rwa [follows_set] at h
  · simpa [follows, exprs] using h

theorem Stmt.follows_withValue (h : s.follows D = true) (hvalue : D.free value = true) :
    (s.withValue value).follows D = true := by
  unfold withValue
  split
  · rwa [follows_set]
  · simpa [follows, exprs] using hvalue
  · exact h

theorem Stmt.blocks_withValue (s : Stmt) (value : Expr) :
    (s.withValue value).blocks = s.blocks := by
  unfold withValue
  split <;> rfl

namespace Block

/-- The second block follows a discipline if the first one does. -/
def KeepsWhole (D : Discipline) (a b : Block) : Prop := a.follows D = true → b.follows D = true

/-- A discipline that is kept by a part of a block is kept by the block. -/
theorem congruent_keepsWhole : Congruent (KeepsWhole D) := by
  refine .of_hole (fun _ => id) (fun hab hbc h => hbc (hab h)) fun {K a b} hK hab h => ?_
  obtain ⟨p, hp⟩ := hK.follows (D := D)
  exact (hp b).2 (((hp a).1 h).imp_right hab)

theorem KeepsWhole.writesWhole {a b : Block} (h : KeepsWhole .writes a b)
    (ha : a.writesWhole = true) : b.writesWhole = true := by
  rw [← follows_writes] at ha ⊢
  exact h ha

end Block

namespace Cleanup

open Block

/-! ## One block -/

theorem keepsWhole_dropNoOpsHere (b : Block) : KeepsWhole D b (dropNoOpsHere b).val :=
  congruent_keepsWhole.tracking.dropNoOpsHere (fun _ _ h => (follows_cons.1 h).2.2) b

variable {v : Var}

/-- The object that a constructor called by a statement makes may stand anywhere. -/
theorem free_new_of_constructorCall? {method : MethodRef} {args : List Expr}
    (h : constructorCall? v s = some (method, args)) (hs : s.follows D = true) :
    D.free (.new method args) = true := by
  unfold constructorCall? at h
  split at h
  · split at h
    · cases h
      exact D.free_new (List.all_eq_true.1 hs _ List.mem_cons_self)
    · cases h
  · cases h

/-- The arguments could stand where the constructor was called, so they can stand in the
assignment. -/
theorem keepsWhole_fused {cls : String} {ss : Block} {site : ConstructorSite}
    (h : constructorSite? v cls ss = some site) (s : Stmt) :
    KeepsWhole D (s :: ss) (site.before ++ s.withValue
      (.new site.method site.args) :: site.behind) := by
  intro hwhole
  obtain ⟨call, rfl, hcall⟩ := constructorSite?_eq h
  obtain ⟨hs, hblocks, hss⟩ := follows_cons.1 hwhole
  obtain ⟨hbefore, hbehind⟩ := follows_append.1 hss
  obtain ⟨hsite, _, hbehind⟩ := follows_cons.1 hbehind
  refine follows_append.2 ⟨hbefore, follows_cons.2 ⟨?_, ?_, hbehind⟩⟩
  · exact follows_withValue hs (free_new_of_constructorCall? hcall hsite)
  · rwa [blocks_withValue]

theorem keepsWhole_fuseHere (b : Block) : KeepsWhole D b (fuseHere b).val :=
  congruent_keepsWhole.tracking.fuseHere (fun _ hsite => keepsWhole_fused hsite _) b

/-- The value of an assignment can stand in the next one. -/
theorem keepsWhole_forwarded (s t : Stmt) (ss : Block) :
    KeepsWhole D (s :: t :: ss) (t.withValue (assigned s) :: ss) := by
  intro h
  obtain ⟨hs, _, hrest⟩ := follows_cons.1 h
  obtain ⟨ht, hblocks, hss⟩ := follows_cons.1 hrest
  have hvalue : D.free (assigned s) = true := by
    unfold assigned
    cases hassign : s.assignment? with
    | none => exact D.free_lit .null
    | some assignment => exact free_of_assignment? hs hassign
  refine follows_cons.2 ⟨follows_withValue ht hvalue, ?_, hss⟩
  rwa [blocks_withValue]

theorem keepsWhole_forwardHere (uses : List Use) (b : Block) :
    KeepsWhole D b (forwardHere uses b).val :=
  congruent_keepsWhole.tracking.forwardHere (fun ss _ => keepsWhole_forwarded _ _ ss) b

section

variable {left : Block} {unread : Var → Bool} (h : leftover? unread s = some left)
include h

/-- What is left of a statement may stand there. -/
theorem follows_leftover? (hs : s.follows D = true) : left.follows D = true := by
  rcases leftover?_eq_some h with ⟨_, _, _, rfl⟩ | ⟨_, value, hassign, _, ⟨_, rfl⟩ | ⟨_, rfl⟩⟩
  · rfl
  · rfl
  · have hvalue := follows_expr (free_of_assignment? hs hassign)
    exact follows_cons.2 ⟨hvalue, by simp, rfl⟩

theorem keepsWhole_leftover? (ss : Block) : KeepsWhole D (s :: ss) (left ++ ss) := by
  intro hwhole
  obtain ⟨hs, _, hss⟩ := follows_cons.1 hwhole
  exact follows_append.2 ⟨follows_leftover? h hs, hss⟩

end

theorem keepsWhole_sweep (unread : Var → Bool) (b : Block) : KeepsWhole D b (sweep unread b).val :=
  congruent_keepsWhole.tracking.sweep (fun ss hleft => keepsWhole_leftover? hleft ss) b

variable {w : Var} {e : Expr} {uses : List Use} {next : Stmt}

theorem free_only (hvalue : D.free value = true) (h : Expr.only v value w = some e) :
    D.free e = true := by
  unfold Expr.only at h
  split at h
  · cases h
    exact hvalue
  · cases h

/-- When a value is inlined. -/
theorem inlinable?_eq_some (h : inlinable? uses s next = some (w, value)) :
    s.assignment? = some (w, value) ∧ uses.count (.read w) = 1 ∧ uses.count (.write w) = 1 ∧
      value.reads w = false ∧ ∃ e ∈ next.exprs, e.reads w = true := by
  unfold inlinable? at h
  split at h
  · rename_i x e hassign
    split at h
    · rename_i hguard
      cases h
      simp only [Bool.and_eq_true, decide_eq_true_eq, Bool.not_eq_true', List.any_eq_true] at hguard
      exact ⟨hassign, hguard.1.1.1.1.1.1, hguard.1.1.1.1.1.2, hguard.1.1.1.2, hguard.2⟩
    · cases h
  · cases h

theorem keepsWhole_replaced {f : Var → Option Expr} (hf : ∀ v e, f v = some e → D.free e = true)
    (s : Stmt) (ss : Block) : KeepsWhole D (s :: ss) ((replaceStmtReads f s).val :: ss) := by
  intro h
  obtain ⟨hs, hblocks, hss⟩ := follows_cons.1 h
  refine follows_cons.2 ⟨follows_replaceStmtReads hf hs, ?_, hss⟩
  rwa [blocks_replaceStmtReads]

theorem keepsWhole_inlined (h : inlinable? uses s next = some (v, value)) (ss : Block) :
    KeepsWhole D (s :: next :: ss) ((replaceStmtReads (Expr.only v value) next).val :: ss) := by
  intro hwhole
  obtain ⟨hs, _, hrest⟩ := follows_cons.1 hwhole
  have hvalue := free_of_assignment? hs (inlinable?_eq_some h).1
  exact keepsWhole_replaced (fun _ _ => free_only hvalue) next ss hrest

theorem keepsWhole_inlineHere (uses : List Use) (b : Block) :
    KeepsWhole D b (inlineHere uses b).val :=
  congruent_keepsWhole.tracking.inlineHere (fun ss hinline => keepsWhole_inlined hinline ss) b

/-! ## Copies -/

theorem free_substitute {c : Copies} (h : c.substitute v = some e) : D.free e = true := by
  obtain ⟨source, _, rfl⟩ := Option.map_eq_some_iff.1 h
  exact D.free_var source

theorem keepsWhole_copyBlock (c : Copies) (b : Block) : KeepsWhole D b (copyBlock c b).val.1 :=
  congruent_keepsWhole.copyBlock (fun _ => keepsWhole_replaced fun _ _ => free_substitute) c b

end Cleanup

end ByteLift
