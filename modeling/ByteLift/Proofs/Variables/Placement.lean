import ByteLift.Proofs.Variables.Passes

/-!
# Placing declarations

One declaration is placed at a time. It goes before the first statement that mentions the variable,
or into it if it is the only one, and so everything that mentions the variable comes into its scope.
The declarations that stand in the block already keep their scopes.
-/

namespace ByteLift

namespace Cleanup

open Block Scoped

/-! ## Bare blocks -/

theorem declared_hoist (b : Block) : (hoist b).declared = [] := by
  induction b using nestedInduction with
  | nil => rfl
  | cons s ss ihblocks ihss =>
    cases s with
    | declare v init => cases init <;> simpa [hoist, Stmt.set] using ihss
    | ite c a b =>
      have ha := ihblocks a (by simp)
      have hb := ihblocks b (by simp)
      simp [hoist, hoistIn, ha, hb, ihss]
    | loop l c a => simp [hoist, hoistIn, ihblocks a (by simp [Stmt.blocks]), ihss]
    | block a => simp [hoist, hoistIn, ihblocks a (by simp [Stmt.blocks]), ihss]
    | _ => exact ihss

variable {D : Discipline}

theorem keepsWhole_hoist (b : Block) : KeepsWhole D b (hoist b) :=
  congruent_keepsWhole.hoist (fun _ _ h => (follows_declare.1 h).2)
    (fun _ _ _ h => follows_set.2 ⟨(follows_declare.1 h).1 _ rfl, (follows_declare.1 h).2⟩) b

/-! ## One declaration -/

namespace Placed

variable {v w : Var} {a b : Block}

section

variable (h : Placed v a b)
include h

/-- All that mentions a variable is in the scope of the declaration that is placed. -/
theorem scoped_self (hwhole : a.writesWhole = true) : b.Scoped v := by
  induction h with
  | absent hb => exact scoped_of_mentions_eq_false hb
  | before s ss => exact .declare nofun
  | @merged value ss hvalue =>
    -- The value does not read the variable, and it writes nothing at all.
    refine .declare fun e he => ?_
    cases he
    have hfree := Expr.isWriteFree_iff.1 (writesWhole_set.1 hwhole).1 v
    simpa [Expr.mentions, Expr.reads, Expr.uses, hfree] using hvalue
  | later hs _ ih =>
    exact (scoped_of_mentions_eq_false hs).append (ih (writesWhole_cons.1 hwhole).2.2)
  | thenArm hc _ hb hss ih =>
    have ha' := ih (writesWhole_ite.1 hwhole).2.1
    exact ite_iff.2 ⟨hc, ha', scoped_of_mentions_eq_false hb, scoped_of_mentions_eq_false hss⟩
  | elseArm hc ha _ hss ih =>
    have hb' := ih (writesWhole_ite.1 hwhole).2.2.1
    exact ite_iff.2 ⟨hc, scoped_of_mentions_eq_false ha, hb', scoped_of_mentions_eq_false hss⟩
  | body hc _ hss ih =>
    have ha' := ih (writesWhole_loop.1 hwhole).2.1
    exact loop_iff.2 ⟨hc, ha', scoped_of_mentions_eq_false hss⟩
  | inner _ hss ih =>
    have ha' := ih (writesWhole_block.1 hwhole).1
    exact block_iff.2 ⟨ha', scoped_of_mentions_eq_false hss⟩

/-- What is in the scope of a declaration stays there. -/
theorem scoped_of_scoped (ha : a.Scoped w) : b.Scoped w := by
  induction h with
  | absent => exact ha
  | before s ss => exact .cons (by simp [Stmt.exprs]) (by simp) ha
  | @merged value ss =>
    obtain ⟨hassign, hss⟩ := expr_iff.1 ha
    rw [Expr.mentions_eq_false_iff] at hassign
    refine .cons (fun e he => ?_) (by simp) hss
    obtain rfl : e = value := by simpa [Stmt.exprs] using he
    exact Expr.mentions_eq_false_iff.2 fun u hu => hassign u (List.mem_append_right _ hu)
  | later _ _ ih => exact ha.tail ih
  | thenArm _ _ _ _ ih =>
    obtain ⟨hc, ha, hb, hss⟩ := ite_iff.1 ha
    exact ite_iff.2 ⟨hc, ih ha, hb, hss⟩
  | elseArm _ _ _ _ ih =>
    obtain ⟨hc, ha, hb, hss⟩ := ite_iff.1 ha
    exact ite_iff.2 ⟨hc, ha, ih hb, hss⟩
  | body _ _ _ ih =>
    obtain ⟨hc, ha, hss⟩ := loop_iff.1 ha
    exact loop_iff.2 ⟨hc, ih ha, hss⟩
  | inner _ _ ih =>
    obtain ⟨ha, hss⟩ := block_iff.1 ha
    exact block_iff.2 ⟨ih ha, hss⟩

/-- At most one declaration is added, of the variable that it is placed for. -/
theorem count_declared_le (w : Var) : b.declared.count w ≤ a.declared.count w + [v].count w := by
  induction h with
  | absent => omega
  | before s ss => simp [List.count_cons]
  | merged ss => simp [Stmt.set, List.count_cons]
  | later _ _ ih =>
    simp only [declared_cons, List.count_append]
    omega
  | thenArm _ _ _ _ ih | elseArm _ _ _ _ ih | body _ _ _ ih | inner _ _ ih =>
    simp only [declared_ite, declared_loop, declared_block, List.count_append]
    omega

theorem keepsWhole : KeepsWhole D a b := by
  refine h.of_congruent congruent_keepsWhole (fun _ _ h => follows_declare.2 ⟨nofun, h⟩)
    fun value ss h => ?_
  obtain ⟨hvalue, hss⟩ := follows_set.1 h
  exact follows_declare.2 ⟨fun e he => Option.some_inj.1 he ▸ hvalue, hss⟩

end

end Placed

/-! ## All declarations -/

variable {vars : VarTable} {v : Var} {b : Block}

/-- The block with a declaration placed for each variable of a list. -/
def placeAll (vs : List Var) (b : Block) : Block := vs.foldl (fun acc v => place v acc) b

theorem keepsWhole_placeAll (vs : List Var) (b : Block) : KeepsWhole D b (placeAll vs b) := by
  induction vs generalizing b with
  | nil => exact id
  | cons w vs ih => exact congruent_keepsWhole.trans (placed_place w b).keepsWhole (ih _)

theorem scoped_placeAll {vs : List Var} (hwhole : b.writesWhole = true) (h : v ∈ vs ∨ b.Scoped v) :
    (placeAll vs b).Scoped v := by
  induction vs generalizing b with
  | nil => exact h.resolve_left (by simp)
  | cons w vs ih =>
    -- Once the declaration is placed, those of other variables do not take anything out of its
    -- scope.
    have hplaced := placed_place w b
    refine ih (hplaced.keepsWhole.writesWhole hwhole) ?_
    rcases h with h | h
    · rcases List.mem_cons.1 h with rfl | h
      · exact .inr (hplaced.scoped_self hwhole)
      · exact .inl h
    · exact .inr (hplaced.scoped_of_scoped h)

theorem count_declared_placeAll (vs : List Var) (b : Block) (v : Var) :
    (placeAll vs b).declared.count v ≤ b.declared.count v + vs.count v := by
  induction vs generalizing b with
  | nil => exact Nat.le_refl _
  | cons w vs ih =>
    have hfirst := (placed_place w b).count_declared_le v
    have hrest := ih (place w b)
    simp only [List.count_cons, List.count_nil] at hfirst ⊢
    exact Nat.le_trans hrest (by omega)

theorem nodup_eraseDups (vs : List Var) : vs.eraseDups.Nodup := by
  cases vs with
  | nil => simp
  | cons w vs =>
    rw [List.eraseDups_cons, List.nodup_cons]
    exact ⟨by simp, nodup_eraseDups (vs.filter fun v => !v == w)⟩
termination_by vs.length
decreasing_by exact Nat.lt_succ_of_le (List.length_filter_le _ _)

/-- The variables that an expression uses are those among its parts. -/
theorem var_mem_subexprs (target : Bool) (e : Expr) :
    .var v ∈ e.subexprs ↔ ∃ u ∈ e.usesAs target, u.var = v := by
  induction e using Expr.childrenInduction generalizing target with
  | step e ih =>
  cases e with
  | var w => cases target <;> simp [Expr.usesAs, Expr.subexprs, Use.var, eq_comm]
  | assign a b =>
    simp [Expr.usesAs, Expr.subexprs, ih a (by simp [Expr.children]) (!target),
      ih b (by simp [Expr.children]) false, or_and_right, exists_or]
  | _ =>
    rw [Expr.subexprs_eq, Expr.usesAs_eq_children (by simp) (.inl rfl)]
    simp only [List.mem_cons, List.mem_flatMap, reduceCtorEq, false_or]
    constructor
    · rintro ⟨d, hd, hv⟩
      obtain ⟨u, hu, huv⟩ := (ih d hd false).1 hv
      exact ⟨u, ⟨d, hd, hu⟩, huv⟩
    · rintro ⟨u, ⟨d, hd, hu⟩, huv⟩
      exact ⟨d, hd, (ih d hd false).2 ⟨u, hu, huv⟩⟩

/-- The locals of a bare block are the variables that it uses and that are no parameters. -/
theorem mem_localsOf (hdeclared : b.declared = []) :
    v ∈ localsOf vars b ↔ (vars.get v).parameter = false ∧ ∃ u ∈ b.uses, u.var = v := by
  have hexprs : .var v ∈ Block.exprs b ↔ ∃ u ∈ b.uses, u.var = v := by
    simp only [Block.exprs, Block.uses, List.mem_flatMap, var_mem_subexprs false]
    constructor
    · rintro ⟨s, hs, e, he, u, hu, huv⟩
      exact ⟨u, ⟨s, hs, Stmt.mem_ownUses_of_exprs he hu⟩, huv⟩
    · rintro ⟨u, ⟨s, hs, hu⟩, huv⟩
      rcases Stmt.mem_ownUses hu with ⟨w, hw, -⟩ | ⟨e, he, hu⟩
      · have : w ∈ b.declared := List.mem_filterMap.2 ⟨s, hs, hw⟩
        simp [hdeclared] at this
      · exact ⟨s, hs, e, he, u, hu, huv⟩
  rw [localsOf, List.mem_eraseDups, List.mem_filterMap, ← hexprs]
  constructor
  · rintro ⟨e, he, hev⟩
    split at hev
    · obtain ⟨hparam, rfl⟩ : (vars.get _).parameter = false ∧ _ = v := by simpa using hev
      exact ⟨hparam, he⟩
    · cases hev
  · rintro ⟨hparam, he⟩
    exact ⟨.var v, he, by simp [hparam]⟩

theorem nodup_localsOf (vars : VarTable) (b : Block) : (localsOf vars b).Nodup := nodup_eraseDups _

theorem keepsWhole_placeDeclarations (vars : VarTable) (b : Block) :
    KeepsWhole D b (placeDeclarations vars b).val :=
  congruent_keepsWhole.trans (keepsWhole_hoist b) (keepsWhole_placeAll _ _)

/-- Every local is in the scope of a declaration wherever it is mentioned. -/
theorem scoped_placeDeclarations (hwhole : b.writesWhole = true)
    (hv : (vars.get v).parameter = false) : (placeDeclarations vars b).val.Scoped v := by
  refine scoped_placeAll ((keepsWhole_hoist b).writesWhole hwhole) ?_
  by_cases hused : ∃ u ∈ (hoist b).uses, u.var = v
  · obtain ⟨u, hu, rfl⟩ := hused
    exact .inl ((mem_localsOf (declared_hoist b)).2 ⟨hv, u, hu, rfl⟩)
  · exact .inr (scoped_of_unused fun u hu huv => hused ⟨u, hu, huv⟩)

/-- No variable is declared twice. -/
theorem count_declared_placeDeclarations (vars : VarTable) (b : Block) (v : Var) :
    (placeDeclarations vars b).val.declared.count v ≤ 1 := by
  have h := count_declared_placeAll (localsOf vars (hoist b)) (hoist b) v
  have hone : (localsOf vars (hoist b)).count v ≤ 1 := List.nodup_iff_count.1 (nodup_localsOf _ _) v
  rw [declared_hoist, List.count_nil] at h
  exact Nat.le_trans h (by omega)

end Cleanup

end ByteLift
