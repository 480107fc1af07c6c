import ByteLift.Proofs.Cleanup.Converge

/-!
# Declarations in loops

Placing declarations moves nothing else, and doing it again changes nothing. A variable may only be
declared in the body of a loop if no round of the loop sees the value that the round before has
left. There the declaration is always one with the assignment that the round starts with, and this
is so at any depth.
-/

namespace ByteLift.Cleanup

open Block

variable {vars : VarTable} {v w : Var} {s : Stmt} {ss a b : Block}

/-! ## Fresh values -/

/-- Every declaration in a block gives its variable a value, and one that does not read the
variable. -/
def Initialized (b : Block) : Prop :=
  ∀ v init, .declare v init ∈ b.stmts → ∃ e, init = some e ∧ e.reads v = false

/-- In all loops of a block, a declaration gives its variable a value that does not read it. -/
def LoopsInitialized (b : Block) : Prop := ∀ l c body, .loop l c body ∈ b.stmts → Initialized body

theorem initialized_append : Initialized (a ++ b) ↔ Initialized a ∧ Initialized b := by
  simp only [Initialized, stmts_append, List.mem_append]
  grind

theorem initialized_cons : Initialized (s :: ss) ↔
    (∀ v init, s = .declare v init → ∃ e, init = some e ∧ e.reads v = false) ∧
      (∀ a ∈ s.blocks, Initialized a) ∧ Initialized ss := by
  simp only [Initialized, stmts_cons, List.mem_cons, List.mem_append, List.mem_flatMap]
  grind

theorem loopsInitialized_cons : LoopsInitialized (s :: ss) ↔
    (∀ l c body, s = .loop l c body → Initialized body) ∧ (∀ a ∈ s.blocks, LoopsInitialized a) ∧
      LoopsInitialized ss := by
  simp only [LoopsInitialized, stmts_cons, List.mem_cons, List.mem_append, List.mem_flatMap]
  grind

theorem initialized_of_declared_eq_nil (h : b.declared = []) : Initialized b := by
  intro v init hdeclare
  have hmem : v ∈ b.declared := List.mem_filterMap.2 ⟨.declare v init, hdeclare, rfl⟩
  simp [h] at hmem

theorem loopsInitialized_of_declared_eq_nil (h : b.declared = []) : LoopsInitialized b := by
  induction b using nestedInduction with
  | nil => exact fun _ _ _ hloop => by cases hloop
  | cons s ss ihblocks ihss =>
    rw [declared_cons, List.append_eq_nil_iff, List.append_eq_nil_iff, List.flatMap_eq_nil_iff] at h
    obtain ⟨-, hblocks, hss⟩ := h
    refine loopsInitialized_cons.2 ⟨?_, fun a ha => ihblocks a ha (hblocks a ha), ihss hss⟩
    rintro l c body rfl
    exact initialized_of_declared_eq_nil (hblocks body (by simp))

/-! ## One declaration -/

theorem value_of_isFreshSet (h : isFreshSet v s = true) :
    ∃ value, s = .set v value ∧ value.reads v = false := by
  obtain ⟨value, rfl⟩ := isFreshSet_eq_true h
  exact ⟨value, rfl, by simpa [isFreshSet, Stmt.set] using h⟩

/-- If a body starts with setting a variable, the declaration becomes one with that assignment. -/
theorem place_of_setFirst (h : setFirst v b = true) :
    ∃ before value behind, b = before ++ .set v value :: behind ∧ value.reads v = false ∧
      place v b = before ++ .declare v (some value) :: behind := by
  induction b with
  | nil => cases h
  | cons s ss ih =>
    rw [setFirst_cons] at h
    cases hs : s.mentions v with
    | true =>
      rw [if_pos hs] at h
      obtain ⟨value, rfl, hvalue⟩ := value_of_isFreshSet h
      exact ⟨[], value, ss, rfl, hvalue, place_of_goesInto hs h⟩
    | false =>
      rw [if_neg (by simp [hs])] at h
      obtain ⟨before, value, behind, rfl, hvalue, hplace⟩ := ih h
      exact ⟨s :: before, value, behind, rfl, hvalue,
        by rw [place_of_mentions_eq_false hs, hplace]; rfl⟩

theorem Initialized.place (h : Initialized b) (hset : setFirst v b = true) :
    Initialized (place v b) := by
  obtain ⟨before, value, behind, rfl, hvalue, hplace⟩ := place_of_setFirst hset
  rw [initialized_append, initialized_cons] at h
  rw [hplace, initialized_append, initialized_cons]
  refine ⟨h.1, fun w init heq => ?_, by simp, h.2.2.2⟩
  cases heq
  exact ⟨value, rfl, hvalue⟩

/-- Placing a declaration leaves loops with initialized locals. -/
theorem loopsInitialized_place (v : Var) (b : Block) (h : LoopsInitialized b) :
    LoopsInitialized (place v b) := by
  induction b using nestedInduction with
  | nil => exact h
  | cons s ss ihblocks ihss =>
    obtain ⟨hloop, hblocks, hss⟩ := loopsInitialized_cons.1 h
    have ih a (ha : a ∈ s.blocks) : LoopsInitialized (place v a) := ihblocks a ha (hblocks a ha)
    rcases place_cases v s ss with ⟨-, hinto, heq⟩ | ⟨-, heq⟩ | ⟨-, heq⟩ <;> rw [heq]
    · refine loopsInitialized_cons.2 ⟨fun l c body hput => ?_, ?_, hss⟩
      · obtain ⟨body, rfl, rfl⟩ := putInto_eq_loop hput.symm
        simp only [goesInto, Bool.and_eq_true] at hinto
        exact (hloop _ _ _ rfl).place hinto.2
      · cases s with
        | expr e => cases e <;> simp [putInto]
        | ite | loop | block => simpa [putInto] using ih
        | _ => simp [putInto, Stmt.blocks]
    · exact loopsInitialized_cons.2 ⟨by simp, by simp, h⟩
    · exact loopsInitialized_cons.2 ⟨hloop, hblocks, ihss hss⟩

/-! ## All declarations -/

theorem loopsInitialized_placeAll (vs : List Var) (h : LoopsInitialized b) :
    LoopsInitialized (placeAll vs b) := by
  induction vs generalizing b with
  | nil => exact h
  | cons v vs ih => exact ih (loopsInitialized_place v b h)

theorem Placed.mem_declared_self (h : Placed v a b) (ha : a.mentions v = true) :
    v ∈ b.declared := by
  induction h with
  | absent hb => simp [hb] at ha
  | before | merged => simp
  | later hs _ ih =>
    rw [mentions_cons, hs, Bool.false_or] at ha
    exact (declared_append [_] _).symm ▸ List.mem_append_right _ (ih ha)
  | thenArm hc _ hb hss ih =>
    simp only [mentions_cons, Stmt.mentions_ite, hc, hb, hss, Bool.or_false, Bool.false_or] at ha
    simp [ih ha]
  | elseArm hc ha' _ hss ih =>
    simp only [mentions_cons, Stmt.mentions_ite, hc, ha', hss, Bool.or_false, Bool.false_or] at ha
    simp [ih ha]
  | body hc _ hss ih =>
    simp only [mentions_cons, Stmt.mentions_loop, hc, hss, Bool.or_false, Bool.false_or] at ha
    simp [ih ha]
  | inner _ hss ih =>
    simp only [mentions_cons, Stmt.mentions_block, hss, Bool.or_false] at ha
    simp [ih ha]

theorem mem_declared_place_of_mem (v : Var) (h : w ∈ b.declared) : w ∈ (place v b).declared := by
  by_cases hw : w = v
  · subst hw
    exact (placed_place w b).mem_declared_self (mentions_iff.2 (.inr h))
  · exact ((placed_place v b).mem_declared hw).2 h

theorem mem_declared_placeAll_of_mem (vs : List Var) (h : w ∈ b.declared) :
    w ∈ (placeAll vs b).declared := by
  induction vs generalizing b with
  | nil => exact h
  | cons v vs ih => exact ih (mem_declared_place_of_mem v h)

theorem mem_declared_placeAll_of_mentions {vs : List Var} (hv : v ∈ vs) (hb : b.mentions v = true) :
    v ∈ (placeAll vs b).declared := by
  induction vs generalizing b with
  | nil => cases hv
  | cons w vs ih =>
    by_cases hvw : v = w
    · subst hvw
      exact mem_declared_placeAll_of_mem vs ((placed_place v b).mem_declared_self hb)
    · exact ih ((List.mem_cons.1 hv).resolve_left hvw) ((mentions_place b hvw).trans hb)

theorem mem_declared_placeDeclarations : v ∈ (placeDeclarations vars b).val.declared ↔
    (vars.get v).parameter = false ∧ ∃ u ∈ b.uses, u.var = v := by
  rw [← uses_hoist b, ← mem_localsOf (declared_hoist b)]
  constructor
  · intro h
    have hmem : v ∈ (placeAll (localsOf vars (hoist b)) (hoist b)).declared := h
    exact (mem_declared_placeAll hmem).resolve_left (by simp [declared_hoist])
  · intro h
    have hused := ((mem_localsOf (declared_hoist b)).1 h).2
    exact mem_declared_placeAll_of_mentions h (mentions_iff.2 (.inl hused))

/-- Placing declarations is taking all of them out and declaring each local that is used once more,
and exactly once. But for declarations the block is the same; a second time changes nothing; and no
declaration in a loop, at any depth, loses a value that one round leaves for the next. -/
theorem placeDeclarations_narrows (vars : VarTable) (b : Block) :
    hoist (placeDeclarations vars b).val = hoist b ∧
      placeDeclarations vars (placeDeclarations vars b).val = pure (placeDeclarations vars b).val ∧
      (placeDeclarations vars b).val.declared.Nodup ∧
      (∀ v, v ∈ (placeDeclarations vars b).val.declared ↔
        (vars.get v).parameter = false ∧ ∃ u ∈ b.uses, u.var = v) ∧
      LoopsInitialized (placeDeclarations vars b).val := by
  have hhoist : hoist (placeDeclarations vars b).val = hoist b :=
    (hoist_placeAll (localsOf vars (hoist b)) (hoist b)).trans (hoist_eq_self (declared_hoist b))
  refine ⟨hhoist, placeDeclarations_eq_pure ?_, ?_, fun v => mem_declared_placeDeclarations, ?_⟩
  · rw [hhoist]
    rfl
  · exact List.nodup_iff_count.2 (count_declared_placeDeclarations vars b)
  · exact loopsInitialized_placeAll _ (loopsInitialized_of_declared_eq_nil (declared_hoist b))

end ByteLift.Cleanup
