import ByteLift.Proofs.Cleanup.CopiesSettle

/-!
# Copies do not depend on declarations

A declaration ends what is known of copies of its variable. Where nothing mentions a variable before
it is declared there is nothing to end, so copies can be replaced before the declarations are taken
out of a body or after that, with the same result.
-/

namespace ByteLift.Cleanup

open Block Tracked

variable {c d : Copies} {v w : Var} {s : Stmt} {ss a b : Block}

/-! ## Variables that no copy has to do with -/

/-- No copy on a list has to do with a variable. -/
def Copies.Avoids (c : Copies) (v : Var) : Prop := ∀ e ∈ c, e.1 ≠ v ∧ e.2 ≠ v

section

variable (h : c.Avoids v)
include h

theorem Copies.Avoids.subset (hsub : d ⊆ c) : d.Avoids v := fun e he => h e (hsub he)

theorem Copies.Avoids.killAll : c.killAll [v] = c := by
  refine List.filter_eq_self.2 fun e he => ?_
  simpa using h e he

theorem Copies.Avoids.add {u : Var} (hw : w ≠ v) (hu : u ≠ v) : (c.add w u).Avoids v := by
  by_cases hne : w = u
  · simpa [Copies.add, hne] using h
  · intro e he
    rcases (Copies.mem_add hne).1 he with rfl | ⟨he, -⟩
    · exact ⟨hw, hu⟩
    · exact h e he

/-- A variable that a statement does not mention is not mentioned either when copies have been
replaced. -/
theorem Copies.Avoids.var_ne {us : List Use} (hus : ∀ u ∈ us, u.var ≠ v) :
    ∀ u ∈ us.flatMap (Use.replaced c.substitute), u.var ≠ v := by
  intro u hu
  obtain ⟨x, hx, hu⟩ := List.mem_flatMap.1 hu
  cases x with
  | write w =>
    obtain rfl : u = .write w := by simpa [Use.replaced] using hu
    exact hus _ hx
  | read w =>
    cases hw : c.source? w with
    | none =>
      obtain rfl : u = .read w := by simpa [Use.replaced, Copies.substitute, hw] using hu
      exact hus _ hx
    | some r =>
      obtain rfl : u = .read r := by
        simpa [Use.replaced, Copies.substitute, hw, Expr.uses, Expr.usesAs] using hu
      exact (h _ (Copies.mem_of_source? hw)).2

theorem Copies.Avoids.after (hs : ∀ u ∈ s.ownUses, u.var ≠ v) : (c.after s).Avoids v := by
  have hkill := h.subset (Copies.killAll_subset c (s.declared?.toList ++ written [s]))
  unfold Copies.after
  dsimp only
  split
  · rename_i w u hassign
    have huses : .write w ∈ s.ownUses ∧ .read u ∈ s.ownUses := by
      rcases Stmt.eq_of_assignment? hassign with rfl | rfl <;>
        simp [Stmt.ownUses, Stmt.set, Stmt.exprs, Expr.uses, Expr.usesAs]
    exact hkill.add (hs _ huses.1) (hs _ huses.2)
  · exact hkill

end

theorem avoids_of_blocks_eq_nil (hs : s.blocks = []) (hc : c.Avoids v)
    (h : ∀ u ∈ s.ownUses, u.var ≠ v) : (copyStmt c s).val.2.Avoids v := by
  rw [copyStmt_of_blocks_eq_nil hs, val_map]
  refine hc.after fun u hu => ?_
  rw [ownUses_replaceStmtReads] at hu
  exact hc.var_ne h u hu

theorem avoids_copyBlock (b : Block) (hc : c.Avoids v) (h : b.mentions v = false) :
    (copyBlock c b).val.2.Avoids v := by
  induction b using nestedInduction generalizing c with
  | nil => exact hc
  | cons s ss ihblocks ihss =>
    obtain ⟨hown, -, hblocks, hss⟩ := mentions_cons_eq_false.1 h
    have hs : (copyStmt c s).val.2.Avoids v := by
      cases s with
      | ite cond a b =>
        have ha := ihblocks a (by simp) hc (hblocks a (by simp))
        have hb := ihblocks b (by simp) hc (hblocks b (by simp))
        exact (Copies.join_subset _ _ _ _).elim ha.subset hb.subset
      | loop l cond a => exact hc.subset (Copies.killAll_subset c (written a))
      | block a => exact ihblocks a (by simp) hc (hblocks a (by simp))
      | _ => exact avoids_of_blocks_eq_nil rfl hc hown
    exact ihss hs hss

/-! ## Variables that are declared first -/

/-- Nothing in a block mentions a variable before the block declares it, and no copy has to do with
one. -/
def DeclaresFirst (c : Copies) (b : Block) : Prop :=
  ∀ v ∈ b.declared, b.Scoped v ∧ b.declared.count v ≤ 1 ∧ c.Avoids v

theorem DeclaresFirst.block (h : DeclaresFirst c (s :: ss)) (hsub : d ⊆ c) (ha : a ∈ s.blocks) :
    DeclaresFirst d a := by
  intro v hv
  have hmem : v ∈ s.blocks.flatMap declared := List.mem_flatMap.2 ⟨a, ha, hv⟩
  obtain ⟨hscoped, hcount, havoids⟩ :=
    h v (by simp only [declared_cons, List.mem_append]; exact .inr (.inl hmem))
  refine ⟨(Scoped.cons_iff.1 hscoped).2.1 a ha, ?_, havoids.subset hsub⟩
  have hle : a.declared.count v ≤ (s.blocks.flatMap declared).count v := by
    rw [List.flatMap_def]
    exact (List.sublist_flatten_of_mem (List.mem_map_of_mem ha)).count_le v
  simp only [declared_cons, List.count_append] at hcount
  omega

theorem DeclaresFirst.tail (h : DeclaresFirst c (s :: ss)) :
    DeclaresFirst (copyStmt c s).val.2 ss := by
  intro v hv
  obtain ⟨hscoped, hcount, havoids⟩ :=
    h v (by simp only [declared_cons, List.mem_append]; exact .inr (.inr hv))
  have hlater := List.one_le_count_iff.2 hv
  simp only [declared_cons, List.count_append] at hcount
  obtain ⟨hexprs, hblocks, hss⟩ := Scoped.cons_iff.1 hscoped
  have hs : s.declared? ≠ some v := by
    intro hs
    simp [hs] at hcount
    omega
  -- The variable is declared behind the statement, so the statement does not mention it.
  have hmentions : mentions [s] v = false := by
    refine mentions_cons_eq_false.2 ⟨var_ne_of_mem_ownUses hexprs hs, hs, fun a ha => ?_, rfl⟩
    refine (hblocks a ha).mentions_eq_false fun hmem => ?_
    have := List.one_le_count_iff.2 (List.mem_flatMap.2 ⟨a, ha, hmem⟩)
    omega
  exact ⟨hss.resolve_left hs, by omega, avoids_copyBlock [s] havoids hmentions⟩

/-! ## Taking declarations out -/

theorem sameExits_hoist (b : Block) : SameExits b (hoist b) := by
  refine congruent_sameExits.hoist (fun v ss => ⟨?_, fun k l i => ?_⟩)
    (fun v e ss => ⟨rfl, fun k l i => ?_⟩) b
  · simp [Stmt.completesList, Stmt.completes]
  · cases k <;> simp [Stmt.jumpsToList, Stmt.jumpsTo, Stmt.jumpTarget?]
  · cases k <;> rfl

theorem hoist_cons (hs : s.declared? = none) (ss : Block) :
    hoist (s :: ss) = hoistIn s :: hoist ss := by
  cases s with
  | declare => cases hs
  | _ => rfl

theorem declared?_copyStmt (c : Copies) (s : Stmt) :
    (copyStmt c s).val.1.declared? = s.declared? := by
  cases s with
  | ite | loop | block => rfl
  | _ => exact declared?_replaceStmtReads _ _

/-- It makes no difference to copies whether an assignment is a declaration. -/
theorem after_set (c : Copies) (v : Var) (e : Expr) :
    c.after (.set v e) = c.after (.declare v (some e)) := by
  have hkill : c.killAll ((Stmt.set v e).declared?.toList ++ written [.set v e]) =
      c.killAll ((Stmt.declare v (some e)).declared?.toList ++ written [.declare v (some e)]) := by
    refine Copies.killAll_congr fun w => ?_
    simp [mem_written, uses_cons, Stmt.set, Stmt.declared?, Stmt.ownUses, Stmt.exprs,
      Stmt.blocks, Expr.uses, Expr.usesAs]
  unfold Copies.after
  rw [hkill]
  rfl

/-- Copies are replaced in an assignment as they are in a declaration. -/
theorem copyStmt_set (c : Copies) (v : Var) (e : Expr) : (copyStmt c (.set v e)).val =
        (.set v (e.replaceReads c.substitute).val, (copyStmt c (.declare v (some e))).val.2) ∧
      (copyStmt c (.set v e)).changed = (copyStmt c (.declare v (some e))).changed := by
  constructor
  · rw [copyStmt_of_blocks_eq_nil rfl, val_map, replaceStmtReads_set, after_set]
    rfl
  · simp [copyStmt, Stmt.set, replaceStmtReads, Expr.replaceReads, Expr.replaceAs]

/-- The first statement and what follows it can be taken one after the other. -/
theorem copyBlock_hoist_cons (hs : s.declared? = none)
    (hstmt : copyStmt c (hoistIn s) = Prod.map hoistIn id <$> copyStmt c s)
    (hrest : copyBlock (copyStmt c s).val.2 (hoist ss) = Prod.map hoist id <$> copyBlock
      (copyStmt c s).val.2 ss) :
    copyBlock c (hoist (s :: ss)) = Prod.map hoist id <$> copyBlock c (s :: ss) := by
  have hs' := (declared?_copyStmt c s).trans hs
  refine ext ?_ ?_
  · simp [hoist_cons hs, copyBlock, hstmt, hrest, hoist_cons hs']
  · simp [hoist_cons hs, copyBlock, hstmt, hrest]

theorem hoistIn_of_blocks_eq_nil (hs : s.blocks = []) : hoistIn s = s := by
  cases s with
  | ite | loop | block => cases hs
  | _ => rfl

theorem copyStmt_hoistIn_of_blocks_eq_nil (hs : s.blocks = []) :
    copyStmt c (hoistIn s) = Prod.map hoistIn id <$> copyStmt c s := by
  have hs' := hoistIn_of_blocks_eq_nil ((blocks_replaceStmtReads c.substitute s).trans hs)
  rw [hoistIn_of_blocks_eq_nil hs, copyStmt_of_blocks_eq_nil hs]
  refine ext ?_ ?_
  · simp [hs']
  · simp

/-- If variables are declared before they are mentioned, copies can be replaced before or after the
declarations are taken out. -/
theorem copyBlock_hoist (b : Block) (h : DeclaresFirst c b) :
    copyBlock c (hoist b) = Prod.map hoist id <$> copyBlock c b := by
  induction b using nestedInduction generalizing c with
  | nil => rfl
  | cons s ss ihblocks ihss =>
    have hrest := ihss h.tail
    cases s with
    | declare v init =>
      cases init with
      | none =>
        have hstmt : copyStmt c (.declare v none) = pure (.declare v none, c) :=
          congrArg (fun d => (pure (Stmt.declare v none, d) : Tracked _))
            (h v (by simp)).2.2.killAll
        rw [hstmt] at hrest
        refine ext ?_ ?_
        · simpa [hoist, copyBlock, hstmt, Prod.map] using congrArg val hrest
        · simpa [hoist, copyBlock, hstmt] using congrArg changed hrest
      | some e =>
        obtain ⟨hval, hchanged⟩ := copyStmt_set c v e
        refine ext ?_ ?_
        · simp only [hoist, copyBlock, val_bind, val_pure, val_map, hval, hrest]
          rfl
        · simp [hoist, copyBlock, hval, hchanged, hrest]
    | ite cond a b =>
      have ha := ihblocks a (by simp) (h.block (fun _ => id) (by simp))
      have hb := ihblocks b (by simp) (h.block (fun _ => id) (by simp))
      refine copyBlock_hoist_cons rfl (ext ?_ ?_) hrest
      · simp [copyStmt, hoistIn, ha, hb, completes, (sameExits_hoist _).completes]
      · simp [copyStmt, hoistIn, ha, hb]
    | loop l cond a =>
      have ha := ihblocks a (by simp) (h.block (Copies.killAll_subset c (written a)) (by simp))
      have hwritten : written (hoist a) = written a := by rw [written, uses_hoist, written]
      refine copyBlock_hoist_cons rfl (ext ?_ ?_) hrest
      · simp [copyStmt, hoistIn, hwritten, ha]
      · simp [copyStmt, hoistIn, hwritten, ha]
    | block a =>
      have ha := ihblocks a (by simp) (h.block (fun _ => id) (by simp))
      refine copyBlock_hoist_cons rfl (ext ?_ ?_) hrest
      · simp [copyStmt, hoistIn, ha]
      · simp [copyStmt, hoistIn, ha]
    | _ => exact copyBlock_hoist_cons rfl (copyStmt_hoistIn_of_blocks_eq_nil rfl) hrest

theorem propagateCopies_hoist (h : ∀ v ∈ b.declared, b.Scoped v ∧ b.declared.count v ≤ 1) :
    propagateCopies (hoist b) = hoist <$> propagateCopies b := by
  have hfirst : DeclaresFirst [] b := fun v hv => ⟨(h v hv).1, (h v hv).2, by simp [Copies.Avoids]⟩
  refine ext ?_ ?_ <;> simp [propagateCopies, copyBlock_hoist b hfirst]

end ByteLift.Cleanup
