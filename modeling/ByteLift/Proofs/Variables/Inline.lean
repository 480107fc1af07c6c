import ByteLift.Proofs.Variables.Passes

/-!
# Inlining keeps scopes

A value takes the place of a variable that is written once and read once in the whole method, so the
uses of the method stay a bound on those of its blocks while values move. Any other variable
declared around the two statements is declared before the first of them.
-/

namespace ByteLift

open List

variable {v : Var} {value : Expr}

/-! ## Uses of a statement with a value put in -/

namespace Use

theorem replaced_only_self : replaced (Expr.only v value) (.read v) = value.uses := by
  simp [replaced, Expr.only]

theorem replaced_only_of_ne {u : Use} (h : u ≠ .read v) : replaced (Expr.only v value) u = [u] := by
  cases u with
  | write w => rfl
  | read w =>
    have hw : w ≠ v := fun hw => h (hw ▸ rfl)
    simp [replaced, Expr.only, hw]

/-- The value of a variable is put in once for each read of it. -/
theorem count_replaced_le (v : Var) (value : Expr) (u : Use) (us : List Use) :
    (us.flatMap (replaced (Expr.only v value))).count u ≤
      us.count u + us.count (.read v) * value.uses.count u := by
  induction us with
  | nil => simp
  | cons x us ih =>
    rw [flatMap_cons, count_append]
    have hcons : us.count u ≤ (x :: us).count u := count_le_count_cons
    by_cases hx : x = .read v
    · subst hx
      rw [replaced_only_self, count_cons_self, Nat.add_mul, Nat.one_mul]
      omega
    · rw [replaced_only_of_ne hx, count_cons_of_ne hx, ← count_append,
        singleton_append]
      simp only [count_cons]
      omega

/-- What is done to a variable with a value put in is done by the value or was done before. -/
theorem mem_replaced_only {u : Use} {us : List Use}
    (h : u ∈ us.flatMap (replaced (Expr.only v value))) :
    u ∈ value.uses ∨ u ∈ us ∧ u ≠ .read v := by
  obtain ⟨x, hx, hu⟩ := mem_flatMap.1 h
  by_cases hread : x = .read v
  · rw [hread, replaced_only_self] at hu
    exact .inl hu
  · rw [replaced_only_of_ne hread, mem_singleton] at hu
    exact .inr (hu ▸ ⟨hx, hread⟩)

end Use

namespace Cleanup

open Block

variable {uses : List Use} {w : Var} {s next : Stmt} {ss a b : Block}

/-! ## One value -/

/-- Blocks that are made of others by inlining: they use variables no more often, declare a variable
no more often, and leave it in scope. -/
structure Inlines (v : Var) (a b : Block) : Prop where
  count_uses_le : ∀ u, b.uses.count u ≤ a.uses.count u
  count_declared_le : b.declared.count v ≤ a.declared.count v
  scoped_of_scoped : a.Scoped v → b.Scoped v

/-- Inlining in a part of a block keeps the scopes of the block. -/
theorem congruent_inlines (uses : List Use) (v : Var) :
    Congruent fun a b => (∀ u, a.uses.count u ≤ uses.count u) → Inlines v a b := by
  refine .of_hole (fun _ _ => ⟨fun _ => Nat.le_refl _, Nat.le_refl _, id⟩)
    (fun hab hbc hbound => ?_)
    fun {K a b} hK h hbound => ?_
  · have h₁ := hab hbound
    have h₂ := hbc fun u => Nat.le_trans (h₁.count_uses_le u) (hbound u)
    exact ⟨fun u => Nat.le_trans (h₂.count_uses_le u) (h₁.count_uses_le u),
      Nat.le_trans h₂.count_declared_le h₁.count_declared_le,
      fun h => h₂.scoped_of_scoped (h₁.scoped_of_scoped h)⟩
  · obtain ⟨k, hk⟩ := hK.count_uses
    obtain ⟨xs, ys, hdeclared⟩ := hK.declared
    simp only [hk] at hbound
    obtain ⟨huses, hcount, hscoped⟩ := h fun u => Nat.le_trans (Nat.le_add_left _ _) (hbound u)
    refine ⟨fun u => by simpa [hk] using huses u, by simpa [hdeclared] using hcount, ?_⟩
    cases hK with
    | tail s => exact fun hs => hs.tail hscoped
    | thenArm | elseArm =>
      simp only [Scoped.ite_iff]
      grind
    | body =>
      simp only [Scoped.loop_iff]
      grind
    | inner =>
      simp only [Scoped.block_iff]
      grind

theorem uses_of_assignment? (h : s.assignment? = some (w, value)) (b : Block) :
    Block.uses (s :: b) = .write w :: (value.uses ++ b.uses) := by
  rcases Stmt.eq_of_assignment? h with rfl | rfl
  · exact uses_expr _ b
  · exact uses_cons _ b

theorem uses_replaceStmtReads (f : Var → Option Expr) (s : Stmt) (ss : Block) :
    Block.uses ((replaceStmtReads f s).val :: ss) =
      s.ownUses.flatMap (Use.replaced f) ++ (s.blocks.flatMap Block.uses ++ ss.uses) := by
  rw [uses_cons, ownUses_replaceStmtReads, blocks_replaceStmtReads]

/-- A value that is put in at one place is used no more often than before. -/
theorem count_uses_inlined (hassign : s.assignment? = some (w, value))
    (hread : next.ownUses.count (.read w) ≤ 1) (u : Use) :
    (Block.uses ((replaceStmtReads (Expr.only w value) next).val :: ss)).count u ≤
      (Block.uses (s :: next :: ss)).count u := by
  rw [uses_of_assignment? hassign, uses_replaceStmtReads, uses_cons]
  simp only [count_append, count_cons]
  have hreplaced := Use.count_replaced_le w value u next.ownUses
  have honce := Nat.mul_le_mul_right (value.uses.count u) hread
  omega

/-- A variable that is read once and written once is not used any more when its value has been put
in. -/
theorem unused_inlined (hassign : s.assignment? = some (w, value)) (hvalue : value.reads w = false)
    (hnext : ∃ e ∈ next.exprs, e.reads w = true)
    (hread : (Block.uses (s :: next :: ss)).count (.read w) ≤ 1)
    (hwrite : (Block.uses (s :: next :: ss)).count (.write w) ≤ 1) :
    ∀ u ∈ Block.uses ((replaceStmtReads (Expr.only w value) next).val :: ss), u.var ≠ w := by
  obtain ⟨e, he, hreads⟩ := hnext
  have hmem : .read w ∈ next.ownUses :=
    Stmt.mem_ownUses_of_exprs he (by simpa [Expr.reads] using hreads)
  have hown := one_le_count_iff.2 hmem
  rw [uses_of_assignment? hassign, uses_cons] at hread hwrite
  simp only [count_append, count_cons_self,
    count_cons_of_ne (show Use.write w ≠ .read w by simp)]
    at hread hwrite
  -- The read is in the next statement and the write in the assignment, so there is none elsewhere.
  have hno {us : List Use} (hr : us.count (.read w) = 0) (hw : us.count (.write w) = 0) :
    ∀ u ∈ us, u.var ≠ w := by
    rintro u hu rfl
    cases u with
    | read v => exact count_eq_zero.1 hr hu
    | write v => exact count_eq_zero.1 hw hu
  have hvalue : value.uses.count (.read w) = 0 :=
    count_eq_zero.2 (by simpa [Expr.reads] using hvalue)
  intro u hu
  rw [uses_replaceStmtReads, mem_append] at hu
  rcases hu with hu | hu
  · rcases Use.mem_replaced_only hu with hu | ⟨hu, hne⟩
    · exact hno hvalue (by omega) u hu
    · intro huv
      cases u with
      | read x => exact hne (congrArg Use.read huv)
      | write x =>
        have hzero : next.ownUses.count (.write w) = 0 := by omega
        exact count_eq_zero.1 hzero (huv ▸ hu)
  · exact hno (by rw [count_append]; omega) (by rw [count_append]; omega) u hu

/-- Other variables stay in scope, if the value does not mention them. -/
theorem scoped_inlined (hvalue : value.mentions v = false) (h : Scoped v (next :: ss)) :
    Scoped v ((replaceStmtReads (Expr.only w value) next).val :: ss) := by
  obtain ⟨hexprs, hblocks, hrest⟩ := Scoped.cons_iff.1 h
  rw [Scoped.cons_iff, exprs_replaceStmtReads, blocks_replaceStmtReads, declared?_replaceStmtReads]
  refine ⟨fun e he => ?_, hblocks, hrest⟩
  obtain ⟨x, hx, rfl⟩ := mem_map.1 he
  refine Expr.mentions_eq_false_iff.2 fun u hu => ?_
  rw [Expr.uses_replaceReads] at hu
  rcases Use.mem_replaced_only hu with hu | hu
  · exact Expr.mentions_eq_false_iff.1 hvalue u hu
  · exact Expr.mentions_eq_false_iff.1 (hexprs x hx) u hu.1

/-- Inlining one value keeps scopes. -/
theorem inlines_step (h : inlinable? uses s next = some (w, value))
    (hbound : ∀ u, (Block.uses (s :: next :: ss)).count u ≤ uses.count u) :
    Inlines v (s :: next :: ss) ((replaceStmtReads (Expr.only w value) next).val :: ss) := by
  obtain ⟨hassign, hread, hwrite, hvalue, hnext⟩ := inlinable?_eq_some h
  have hread := hread ▸ hbound (.read w)
  have hwrite := hwrite ▸ hbound (.write w)
  refine ⟨fun u => count_uses_inlined hassign ?_ u, ?_, fun hscoped => ?_⟩
  · rw [uses_cons s, uses_cons next] at hread
    simp only [count_append] at hread
    omega
  · rw [declared_cons s, declared_cons next, declared_cons, blocks_replaceStmtReads,
      declared?_replaceStmtReads]
    simp only [count_append]
    omega
  · obtain ⟨hexprs, _, _⟩ := Scoped.cons_iff.1 hscoped
    rcases Stmt.eq_of_assignment? hassign with rfl | rfl
    · have hmentions := Expr.mentions_eq_false_iff.1 (hexprs _ mem_cons_self)
      refine scoped_inlined (Expr.mentions_eq_false_iff.2 fun u hu => ?_) (hscoped.of_cons nofun)
      exact hmentions u (mem_append_right _ hu)
    · by_cases hv : v = w
      · -- The declaration is gone, and with it the last use of the variable.
        subst hv
        exact scoped_of_unused (unused_inlined hassign hvalue hnext hread hwrite)
      · exact scoped_inlined (hexprs _ mem_cons_self)
          (hscoped.of_cons fun h => hv (Option.some_inj.1 h).symm)

/-! ## All values -/

/-- Inlining in a method's body keeps variables in scope and declares none. -/
theorem inlines_inlineOnce (v : Var) (b : Block) : Inlines v b (inlineOnce b).val :=
  (congruent_inlines b.uses v).rewrite ((congruent_inlines b.uses v).tracking.inlineHere fun _ =>
    inlines_step) b
    fun _ => Nat.le_refl _

end Cleanup

end ByteLift
