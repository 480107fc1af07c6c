import ByteLift.Proofs.Variables.Uses

/-!
# Declarations in scope

The scope of a declaration is what follows it in its block. A block is *scoped* for a variable if
everything that mentions it stands in the scope of a declaration of it, and the variable is
*declared once* if moreover there is one declaration. Only the first is kept by taking blocks apart
and putting blocks together.
-/

namespace ByteLift.Block

/-- All that mentions a variable in a block stands behind a declaration of it, in the same block as
the declaration or inside it. -/
inductive Scoped (v : Var) : Block → Prop
  | nil : Scoped v []
  | declare {init : Option Expr} {ss : Block} (hinit : ∀ e ∈ init, e.mentions v = false) :
    Scoped v (.declare v init :: ss)
  | cons {s : Stmt} {ss : Block} (hexprs : ∀ e ∈ s.exprs, e.mentions v = false)
    (hblocks : ∀ a ∈ s.blocks, Scoped v a) (hss : Scoped v ss) : Scoped v (s :: ss)

/-- A block has exactly one declaration of a variable, at any depth, and all else that mentions the
variable stands in a later statement of the block that holds it. -/
inductive DeclaredOnce (v : Var) : Block → Prop
  /-- The declaration is one of the statements. -/
  | here {before after : Block} {init : Option Expr} (hbefore : before.mentions v = false)
    (hinit : ∀ e ∈ init, e.mentions v = false) (hafter : v ∉ after.declared) :
    DeclaredOnce v (before ++ .declare v init :: after)
  /-- The declaration is inside one block of one of the statements, and so is all else. -/
  | inside {before after a : Block} {s : Stmt} {left right : List Block}
    (hbefore : before.mentions v = false)
    (hexprs : ∀ e ∈ s.exprs, e.mentions v = false) (hblocks : s.blocks = left ++ a :: right)
    (hothers : ∀ x ∈ left ++ right, Block.mentions x v = false) (ha : DeclaredOnce v a)
    (hafter : after.mentions v = false) : DeclaredOnce v (before ++ s :: after)

variable {v : Var} {s : Stmt} {ss a b : Block}

/-! ## Scoped blocks -/

namespace Scoped

theorem cons_iff :
    Scoped v (s :: ss) ↔ (∀ e ∈ s.exprs, e.mentions v = false) ∧ (∀ a ∈ s.blocks, Scoped v a) ∧
      (s.declared? = some v ∨ Scoped v ss) := by
  constructor
  · intro h
    cases h with
    | declare hinit => exact ⟨fun e he => hinit e (Option.mem_toList.1 he), by simp, .inl rfl⟩
    | cons hexprs hblocks hss => exact ⟨hexprs, hblocks, .inr hss⟩
  · rintro ⟨hexprs, hblocks, hdeclared | hss⟩
    · cases s with
      | declare w init =>
        cases hdeclared
        exact .declare fun e he => hexprs e (Option.mem_toList.2 he)
      | _ => cases hdeclared
    · exact .cons hexprs hblocks hss

variable {c : Expr} {l : Option Label}

@[simp] theorem ite_iff : Scoped v (.ite c a b :: ss) ↔
    c.mentions v = false ∧ Scoped v a ∧ Scoped v b ∧ Scoped v ss := by
  simp [cons_iff, Stmt.exprs, Stmt.blocks, Stmt.declared?, and_assoc]

@[simp] theorem loop_iff :
    Scoped v (.loop l c a :: ss) ↔ c.mentions v = false ∧ Scoped v a ∧ Scoped v ss := by
  simp [cons_iff, Stmt.exprs, Stmt.blocks, Stmt.declared?]

@[simp] theorem block_iff : Scoped v (.block a :: ss) ↔ Scoped v a ∧ Scoped v ss := by
  simp [cons_iff, Stmt.exprs, Stmt.blocks, Stmt.declared?]

@[simp] theorem breakLoop_iff : Scoped v (.breakLoop l :: ss) ↔ Scoped v ss := by
  simp [cons_iff, Stmt.exprs, Stmt.blocks, Stmt.declared?]

@[simp] theorem continueLoop_iff : Scoped v (.continueLoop l :: ss) ↔ Scoped v ss := by
  simp [cons_iff, Stmt.exprs, Stmt.blocks, Stmt.declared?]

@[simp] theorem expr_iff {e : Expr} :
    Scoped v (.expr e :: ss) ↔ e.mentions v = false ∧ Scoped v ss := by
  simp [cons_iff, Stmt.exprs, Stmt.blocks, Stmt.declared?]

theorem of_cons (h : Scoped v (s :: ss)) (hs : s.declared? ≠ some v) : Scoped v ss :=
  (cons_iff.1 h).2.2.resolve_left hs

theorem tail {ss' : Block} (h : Scoped v (s :: ss)) (hss : Scoped v ss → Scoped v ss') :
    Scoped v (s :: ss') := by
  obtain ⟨hexprs, hblocks, hrest⟩ := cons_iff.1 h
  exact cons_iff.2 ⟨hexprs, hblocks, hrest.imp_right hss⟩

theorem append (ha : Scoped v a) (hb : Scoped v b) : Scoped v (a ++ b) := by
  induction ha with
  | nil => exact hb
  | declare hinit => exact .declare hinit
  | cons hexprs hblocks _ _ ih => exact .cons hexprs hblocks ih

end Scoped

/-- A variable that is not used needs no declaration. -/
theorem scoped_of_unused (h : ∀ u ∈ b.uses, u.var ≠ v) : Scoped v b := by
  induction b using nestedInduction with
  | nil => exact .nil
  | cons s ss ihblocks ihss =>
    simp only [uses_cons, List.mem_append, List.mem_flatMap] at h
    refine .cons (fun e he => Expr.mentions_eq_false_iff.2 fun u hu => ?_) (fun a ha => ?_)
      (ihss fun u hu => ?_)
    · exact h u (.inl (Stmt.mem_ownUses_of_exprs he hu))
    · exact ihblocks a ha fun u hu => h u (.inr (.inl ⟨a, ha, hu⟩))
    · exact h u (.inr (.inr hu))

theorem scoped_of_mentions_eq_false (h : b.mentions v = false) : Scoped v b :=
  scoped_of_unused (mentions_eq_false_iff.1 h).1

/-- A statement itself uses no variable that it does not declare and that its expressions do not
mention. -/
theorem var_ne_of_mem_ownUses (hexprs : ∀ e ∈ s.exprs, e.mentions v = false)
    (hs : s.declared? ≠ some v) : ∀ u ∈ s.ownUses, u.var ≠ v := by
  intro u hu
  rcases Stmt.mem_ownUses hu with ⟨w, hw, rfl⟩ | ⟨e, he, hu⟩
  · rintro rfl
    exact hs hw
  · exact Expr.mentions_eq_false_iff.1 (hexprs e he) u hu

/-- What mentions a variable needs a declaration of it. -/
theorem Scoped.unused (h : Scoped v b) (hv : v ∉ b.declared) : ∀ u ∈ b.uses, u.var ≠ v := by
  induction h with
  | nil => simp
  | declare => simp [declared_cons, Stmt.declared?] at hv
  | @cons s ss hexprs _ _ ihblocks ihss =>
    simp only [declared_cons, List.mem_append, List.mem_flatMap, not_or, Option.mem_toList] at hv
    intro u hu
    simp only [uses_cons, List.mem_append, List.mem_flatMap] at hu
    rcases hu with hu | ⟨a, ha, hu⟩ | hu
    · exact var_ne_of_mem_ownUses hexprs hv.1 u hu
    · exact ihblocks a ha (fun hdeclared => hv.2.1 ⟨a, ha, hdeclared⟩) u hu
    · exact ihss hv.2.2 u hu

theorem Scoped.mentions_eq_false (h : Scoped v b) (hv : v ∉ b.declared) : b.mentions v = false :=
  mentions_eq_false_iff.2 ⟨h.unused hv, hv⟩

/-! ## One declaration -/

theorem DeclaredOnce.mem_declared (h : DeclaredOnce v b) : v ∈ b.declared := by
  induction h with
  | here => simp [declared_cons, Stmt.declared?]
  | inside _ _ hblocks _ _ _ ih => simp [declared_cons, hblocks, ih]

theorem DeclaredOnce.cons (h : DeclaredOnce v ss) (hs : Block.mentions [s] v = false) :
    DeclaredOnce v (s :: ss) := by
  have hcons {before : Block} (h : before.mentions v = false) :
    Block.mentions ([s] ++ before) v = false := by
    rw [mentions_append, hs, h, Bool.or_self]
  cases h with
  | here hbefore hinit hafter => exact DeclaredOnce.here (hcons hbefore) hinit hafter
  | inside hbefore hexprs hblocks hothers ha hafter =>
    exact DeclaredOnce.inside (hcons hbefore) hexprs hblocks hothers ha hafter

theorem declaredOnce_declare {init : Option Expr} (hinit : ∀ e ∈ init, e.mentions v = false)
    (honce : (Block.declared (.declare v init :: ss)).count v ≤ 1) :
    DeclaredOnce v (.declare v init :: ss) := by
  refine DeclaredOnce.here (v := v) (show Block.mentions [] v = false from rfl) hinit fun hss => ?_
  have := List.one_le_count_iff.2 hss
  simp [declared_cons, Stmt.declared?] at honce
  omega

/-- If one block of a statement has the only declaration, nothing else in the statement mentions the
variable. -/
theorem DeclaredOnce.of_block (ha : DeclaredOnce v a) (hmem : a ∈ s.blocks)
    (hexprs : ∀ e ∈ s.exprs, e.mentions v = false) (hblocks : ∀ x ∈ s.blocks, Scoped v x)
    (honce : (s.blocks.flatMap Block.declared).count v ≤ 1) (hss : ss.mentions v = false) :
    DeclaredOnce v (s :: ss) := by
  obtain ⟨left, right, hsplit⟩ := List.append_of_mem hmem
  refine .inside (show Block.mentions [] v = false from rfl) hexprs hsplit (fun x hx => ?_) ha hss
  have hx' : x ∈ s.blocks := by
    rw [hsplit]
    simp only [List.mem_append, List.mem_cons] at hx ⊢
    exact hx.imp_right .inr
  refine (hblocks x hx').mentions_eq_false fun hxv => ?_
  have hcount := List.one_le_count_iff.2 (List.mem_flatMap.2 ⟨x, hx, hxv⟩)
  have hcount' := List.one_le_count_iff.2 ha.mem_declared
  simp only [hsplit, List.flatMap_append, List.flatMap_cons, List.count_append] at honce hcount
  omega

/-- A variable that is used and has one declaration, with all else in its scope, is declared
once. -/
theorem Scoped.declaredOnce (h : Scoped v b) (honce : b.declared.count v ≤ 1)
    (hused : ∃ u ∈ b.uses, u.var = v) : DeclaredOnce v b := by
  induction h with
  | nil => simp at hused
  | declare hinit => exact declaredOnce_declare hinit honce
  | @cons s ss hexprs hblocks hss ihblocks ihss =>
    by_cases hs : s.declared? = some v
    · cases s with
      | declare w init =>
        cases hs
        exact declaredOnce_declare (fun e he => hexprs e (Option.mem_toList.2 he)) honce
      | _ => cases hs
    have hown := var_ne_of_mem_ownUses hexprs hs
    obtain ⟨u, hu, huv⟩ := hused
    simp only [uses_cons, List.mem_append, List.mem_flatMap] at hu
    simp only [declared_cons, List.count_append] at honce
    by_cases hdeclared : v ∈ ss.declared
    · -- The declaration stands behind the statement, which then does not mention the variable.
      have hlater := List.one_le_count_iff.2 hdeclared
      have hothers : ∀ a ∈ s.blocks, Block.mentions a v = false := fun a ha =>
        (hblocks a ha).mentions_eq_false fun hmem => by
          have := List.one_le_count_iff.2 (List.mem_flatMap.2 ⟨a, ha, hmem⟩)
          omega
      refine (ihss (by omega) ?_).cons (mentions_cons_eq_false.2 ⟨hown, hs, hothers, rfl⟩)
      rcases hu with hu | ⟨a, ha, hu⟩ | hu
      · exact absurd huv (hown u hu)
      · exact absurd huv ((mentions_eq_false_iff.1 (hothers a ha)).1 u hu)
      · exact ⟨u, hu, huv⟩
    · -- Nothing behind the statement mentions the variable, so one of its blocks does.
      obtain ⟨a, ha, hu⟩ : ∃ a ∈ s.blocks, u ∈ Block.uses a := by
        rcases hu with hu | hu | hu
        · exact absurd huv (hown u hu)
        · exact hu
        · exact absurd huv (hss.unused hdeclared u hu)
      have hle : (Block.declared a).count v ≤ (s.blocks.flatMap Block.declared).count v := by
        rw [List.flatMap_def]
        exact (List.sublist_flatten_of_mem (List.mem_map_of_mem ha)).count_le v
      exact (ihblocks a ha (by omega) ⟨u, hu, huv⟩).of_block ha hexprs hblocks (by omega)
        (hss.mentions_eq_false hdeclared)

end ByteLift.Block
