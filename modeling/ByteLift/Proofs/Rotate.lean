import ByteLift.Proofs.Scope.Initial

/-!
# Loops entered at their test

What a loop that is turned round looks like, and what the turned code looks like.
-/

namespace ByteLift

/-- The statements of flat code. -/
def Stmt.isFlat : Stmt → Bool
  | .expr _ | .ret _ | .throw _ | .label _ | .goto _ _ => true
  | _ => false

/-- The shape of a loop entered at its test: the jump over the body, the label of the body, the
label of the test and the last jump back to the body. Jumps from outside only go to the test. -/
structure EnteredLoop.Shape (flat : Block) (l : EnteredLoop) (entry head : Label)
    (cond : Option Expr) : Prop where
  enters : flat[l.enters]? = some (.goto entry none)
  body : flat[l.enters + 1]? = some (.label head)
  test : labelIndex? flat entry = some l.test
  back : flat[l.back]? = some (.goto head cond)
  back_last : ∀ j d, flat[j]? = some (.goto head d) → j ≤ l.back
  lt_test : l.enters + 1 < l.test
  test_lt : l.test < l.back
  not_entered : ∀ i m d p, flat[i]? = some (.goto m d) → labelIndex? flat m = some p →
    l.enters < p → p ≤ l.back → m ≠ entry → l.enters ≤ i ∧ i ≤ l.back

theorem isGotoTo_iff {l : Label} {x : Stmt} : x.isGotoTo l = true ↔ ∃ d, x = .goto l d := by
  cases x <;> simp [Stmt.isGotoTo]

variable {flat : Block} {l : EnteredLoop}

/-- A loop that is found has that shape. -/
theorem shape_of_enteredLoopAt? {g : Nat} (h : enteredLoopAt? flat g = some l) :
    ∃ entry head cond, l.Shape flat entry head cond := by
  simp only [enteredLoopAt?] at h
  split at h
  · rename_i entry head hgoto hhead
    split at h
    · rename_i c e hc he
      split at h
      · rename_i hin
        cases h
        simp only [Bool.and_eq_true, decide_eq_true_eq, Bool.not_eq_true'] at hin
        obtain ⟨⟨hlt, hle⟩, helse⟩ := hin
        obtain ⟨⟨x, hx, hback⟩, hlast⟩ := lastIndex?_eq_some_iff.1 he
        obtain ⟨cond, rfl⟩ := isGotoTo_iff.1 hback
        have hne : c ≠ e := by
          rintro rfl
          rw [getElem?_of_labelIndex? hc] at hx
          cases hx
        refine ⟨entry, head, cond, hgoto, hhead, hc, hx, ?_, hlt, by simp only; omega, ?_⟩
        · intro j d hj
          exact hlast j _ hj (isGotoTo_iff.2 ⟨d, rfl⟩)
        · intro i m d p hi hp hgp hpe hm
          rw [enteredElsewhere, List.any_eq_false] at helse
          have := helse (.goto m d, i) (List.mk_mem_zipIdx_iff_getElem?.2 hi)
          simp only [hp, Option.any_some] at this
          by_contra hout
          refine this ?_
          simp only at hgp hpe hout
          simp only [ne_eq, hm, not_false_eq_true, decide_true, Bool.and_true, hgp, hpe,
            Bool.or_eq_true, decide_eq_true_eq]
          omega
      · cases h
    · cases h
  · cases h

theorem shape_of_enteredLoop? (h : enteredLoop? flat = some l) :
    ∃ entry head cond, l.Shape flat entry head cond := by
  obtain ⟨g, _, hg⟩ := List.exists_of_findSome?_eq_some h
  exact shape_of_enteredLoopAt? hg

/-! ## What turning a loop round adds -/

theorem slice_subset (b : Block) (first last : Nat) : slice b first last ⊆ b :=
  fun _ hx => List.mem_of_mem_take (List.mem_of_mem_drop hx)

variable {vars : VarTable} {labels : LabelTable}

/-- Turning a loop round adds jumps and the label behind the loop. -/
theorem mem_rotateLoop {exit : Label} {s : Stmt} (hs : s ∈ rotateLoop vars flat l exit) :
    s ∈ flat ∨ s = .label exit ∨ ∃ m c, s = .goto m c := by
  unfold rotateLoop at hs
  split at hs
  · rename_i entry d head m cond hgoto hlabel hback
    simp only [List.mem_append, List.mem_map, List.mem_cons, Option.mem_toList] at hs
    rcases hs with (((hs | hs) | ⟨c, _, rfl⟩) | rfl | hs) | rfl | rfl | hs
    · exact .inl (List.mem_of_mem_take hs)
    · exact .inl (slice_subset _ _ _ hs)
    · exact .inr (.inr ⟨_, _, rfl⟩)
    · exact .inl (List.mem_of_getElem? hlabel)
    · exact .inl (slice_subset _ _ _ hs)
    · exact .inr (.inr ⟨_, _, rfl⟩)
    · exact .inr (.inl rfl)
    · exact .inl (List.mem_of_mem_drop hs)
  · exact .inl hs

/-- The labels of the code are in the table. -/
def LabelTable.Holds (labels : LabelTable) (flat : Block) : Prop :=
  ∀ l, Stmt.label l ∈ flat → l.index < labels.size

@[simp] theorem LabelTable.size_grow (labels : LabelTable) :
    labels.grow.size = labels.size + 1 := by
  simp [LabelTable.grow, LabelTable.size]

@[simp] theorem LabelTable.index_next (labels : LabelTable) : labels.next.index = labels.size := rfl

theorem holds_rotateLoop (h : labels.Holds flat) :
    labels.grow.Holds (rotateLoop vars flat l labels.next) := by
  intro m hm
  rw [LabelTable.size_grow]
  rcases mem_rotateLoop hm with hm | hm | ⟨_, _, hm⟩
  · have := h m hm
    omega
  · cases hm
    simp
  · cases hm

/-- Turning loops round keeps code flat and its labels in the table. -/
theorem isFlat_rotateLoops (vars : VarTable) (n : Nat) (hflat : ∀ s ∈ flat, s.isFlat = true)
    (hlabels : labels.Holds flat) :
    (∀ s ∈ (rotateLoops vars n flat labels).1, s.isFlat = true) ∧
      (rotateLoops vars n flat labels).2.Holds (rotateLoops vars n flat labels).1 := by
  induction n generalizing flat labels with
  | zero => exact ⟨hflat, hlabels⟩
  | succ n ih =>
    rw [rotateLoops]
    split
    · exact ⟨hflat, hlabels⟩
    · refine ih ?_ (holds_rotateLoop hlabels)
      intro s hs
      rcases mem_rotateLoop hs with hs | rfl | ⟨_, _, rfl⟩
      · exact hflat s hs
      · rfl
      · rfl

end ByteLift
