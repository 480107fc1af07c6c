import Mathlib.Tactic.SplitIfs
import ByteLift.Proofs.Rotate
import ByteLift.Proofs.Semantics.Flat

/-!
# Turning loops round

Turning a loop round reorders code. `EnteredLoop.place` says where each position of the code ends
up, and the turned code does at that place what the code did before: falling from the body into the
test is now a jump, the jump that entered the loop is gone, and the jump back has become a jump out.
-/

namespace ByteLift

open Flat Stmt

/-- The labels that the code jumps to are in the table. -/
def LabelTable.HoldsJumps (labels : LabelTable) (flat : Block) : Prop :=
  ∀ l c, goto l c ∈ flat → l.index < labels.size

/-! ## The layout of the turned code -/

variable {b flat : Block} {first last i : Nat} {x : Stmt} {vars : VarTable} {labels : LabelTable}

theorem getElem?_slice (h : first + i < last) : (slice b first last)[i]? = b[first + i]? := by
  rw [slice, List.getElem?_drop, List.getElem?_take_of_lt h]

theorem length_slice (h : last ≤ b.length) : (slice b first last).length = last - first := by
  simp only [slice, List.length_drop, List.length_take]
  omega

theorem slice_eq_cons (h : b[first]? = some x) (hlt : first < last) :
    slice b first last = x :: slice b (first + 1) last := by
  obtain ⟨hlen, rfl⟩ := List.getElem?_eq_some_iff.1 h
  rw [slice, List.drop_eq_getElem_cons (by simp; omega), List.getElem_take, slice]

theorem drop_eq_slice_append (h : first ≤ last) (hlen : last ≤ b.length) :
    b.drop first = slice b first last ++ b.drop last := by
  rw [slice, ← List.drop_append_of_le_length (by simp only [List.length_take]; omega),
    List.take_append_drop]

theorem drop_eq_cons (h : b[i]? = some x) : b.drop i = x :: b.drop (i + 1) := by
  obtain ⟨hlen, rfl⟩ := List.getElem?_eq_some_iff.1 h
  exact List.drop_eq_getElem_cons hlen

/-- The jump out of a loop that has a condition. -/
def leaveUnless (vars : VarTable) (exit : Label) (cond : Option Expr) : Block :=
  cond.toList.map fun c => .goto exit (some (c.negate vars))

/-- Where a position of the code ends up when a loop is turned round. -/
def EnteredLoop.place (l : EnteredLoop) (cond : Option Expr) (i : Nat) : Nat :=
  if i ≤ l.enters then i
  else if i < l.test then i + (l.back - l.test) + cond.toList.length - 1
  else if i ≤ l.back then l.enters + (i - l.test)
  else i + cond.toList.length

namespace EnteredLoop.Shape

variable {l : EnteredLoop} {entry head exit : Label} {cond : Option Expr}
  (h : l.Shape flat entry head cond)

include h

theorem back_lt : l.back < flat.length := (List.getElem?_eq_some_iff.1 h.back).1

/-- The turned code, piece by piece. -/
theorem rotateLoop_eq : rotateLoop vars flat l exit =
    flat.take l.enters ++ (slice flat l.test l.back ++ (leaveUnless vars exit cond ++
      (slice flat (l.enters + 1) l.test ++ .goto entry none :: .label exit :: flat.drop
        (l.back + 1)))) := by
  rw [slice_eq_cons h.body h.lt_test, rotateLoop, h.enters, h.body, h.back, leaveUnless]
  simp only [List.append_assoc, List.cons_append]

/-- The code itself, cut into the same pieces. -/
theorem eq_pieces :
    flat = flat.take l.enters ++ (.goto entry none :: (slice flat (l.enters + 1) l.test ++
      (slice flat l.test l.back ++ .goto head cond :: flat.drop (l.back + 1)))) := by
  have hback := h.back_lt
  have henters := h.lt_test
  have htest := h.test_lt
  calc flat = flat.take l.enters ++ flat.drop l.enters := (List.take_append_drop ..).symm
    _ = _ := by
      rw [drop_eq_cons h.enters,
        drop_eq_slice_append (show l.enters + 1 ≤ l.test by omega) (by omega),
        drop_eq_slice_append (show l.test ≤ l.back by omega) (by omega), drop_eq_cons h.back]

/-- The statements of the code other than the two jumps of the loop are at their places. -/
theorem getElem?_place (henters : i ≠ l.enters) (hback : i ≠ l.back) :
    (rotateLoop vars flat l exit)[l.place cond i]? = flat[i]? := by
  have hlen := h.back_lt
  have hlt := h.lt_test
  have htest := h.test_lt
  have hleave : (leaveUnless vars exit cond).length = cond.toList.length := by simp [leaveUnless]
  have hhead : (slice flat (l.enters + 1) l.test).length = l.test - (l.enters + 1) :=
    length_slice (by omega)
  have htail : (slice flat l.test l.back).length = l.back - l.test := length_slice (by omega)
  have hfront : (flat.take l.enters).length = l.enters := List.length_take_of_le (by omega)
  rw [h.rotateLoop_eq, EnteredLoop.place]
  split
  · rw [List.getElem?_append_left (by omega), List.getElem?_take_of_lt (by omega)]
  split
  · rw [List.getElem?_append_right (by omega), List.getElem?_append_right (by omega),
      List.getElem?_append_right (by omega), List.getElem?_append_left (by omega),
      getElem?_slice (by omega)]
    congr 1
    omega
  split
  · rw [List.getElem?_append_right (by omega), List.getElem?_append_left (by omega),
      getElem?_slice (by omega)]
    congr 1
    omega
  · rw [List.getElem?_append_right (by omega), List.getElem?_append_right (by omega),
      List.getElem?_append_right (by omega), List.getElem?_append_right (by omega)]
    rw [hfront, htail, hleave, hhead]
    obtain ⟨j, rfl⟩ : ∃ j, i = l.back + 1 + j := ⟨i - (l.back + 1), by omega⟩
    have hpos : l.back + 1 + j + cond.toList.length - l.enters - (l.back - l.test) -
        cond.toList.length - (l.test - (l.enters + 1)) = j + 2 := by omega
    rw [hpos, List.getElem?_cons_succ, List.getElem?_cons_succ, List.getElem?_drop]

/-- Behind the body the turned code jumps to the test, and behind that is the end of the loop. -/
theorem getElem?_behind :
    (rotateLoop vars flat l exit)[l.back - 1 + cond.toList.length]? = some (.goto entry none) ∧
      (rotateLoop vars flat l exit)[l.back + cond.toList.length]? = some (.label exit) := by
  have hlen := h.back_lt
  have hlt := h.lt_test
  have htest := h.test_lt
  have hfront : (flat.take l.enters ++ (slice flat l.test l.back ++ (leaveUnless vars exit cond ++
      slice flat (l.enters + 1) l.test))).length = l.back - 1 + cond.toList.length := by
    simp only [List.length_append, List.length_take, leaveUnless, List.length_map]
    rw [length_slice (by omega), length_slice (by omega)]
    omega
  have heq : rotateLoop vars flat l exit = _ := h.rotateLoop_eq
  simp only [← List.append_assoc] at heq hfront
  rw [heq]
  constructor
  · rw [List.getElem?_append_right (by omega), hfront, Nat.sub_self, List.getElem?_cons_zero]
  · rw [List.getElem?_append_right (by omega), hfront]
    have hone : l.back + cond.toList.length - (l.back - 1 + cond.toList.length) = 1 := by omega
    rw [hone, List.getElem?_cons_succ, List.getElem?_cons_zero]

/-- The jump out stands where the jump back was. -/
theorem getElem?_leave {c : Expr} (hc : cond = some c) :
    (rotateLoop vars flat l exit)[l.place cond l.back]? =
      some (.goto exit (some (c.negate vars))) := by
  have hlen := h.back_lt
  have hlt := h.lt_test
  have htest := h.test_lt
  have hfront : (flat.take l.enters).length = l.enters := List.length_take_of_le (by omega)
  have htail : (slice flat l.test l.back).length = l.back - l.test := length_slice (by omega)
  rw [h.rotateLoop_eq, EnteredLoop.place, if_neg (by omega), if_neg (by omega), if_pos (by omega),
    List.getElem?_append_right (by omega), List.getElem?_append_right (by omega), hfront, htail,
    leaveUnless, hc]
  have hzero : l.enters + (l.back - l.test) - l.enters - (l.back - l.test) = 0 := by omega
  rw [hzero]
  rfl

/-- The turned code has the labels of the code, and the one behind the loop. -/
theorem count_label_rotateLoop (m : Label) : (rotateLoop vars flat l exit).count (.label m) =
      flat.count (.label m) + if m = exit then 1 else 0 := by
  have hleave : (leaveUnless vars exit cond).count (.label m) = 0 := by
    rw [List.count_eq_zero]
    simp [leaveUnless]
  have hgoto (k : Label) (c : Option Expr) (b : Block) :
    (goto k c :: b).count (.label m) = b.count (.label m) :=
    List.count_cons_of_ne (by simp)
  have hexit (b : Block) : (label exit :: b).count (.label m) =
      b.count (.label m) + if m = exit then 1 else 0 := by
    by_cases hm : m = exit
    · rw [hm, List.count_cons_self, if_pos rfl]
    · rw [List.count_cons_of_ne (by simpa [eq_comm] using hm), if_neg hm, Nat.add_zero]
  have heq := congrArg (List.count (label m)) h.eq_pieces
  rw [h.rotateLoop_eq]
  simp only [List.count_append, hgoto, hexit, hleave] at heq ⊢
  omega

theorem uniqueLabels_rotateLoop (hunique : Flat.UniqueLabels flat) (hexit : .label exit ∉ flat) :
    Flat.UniqueLabels (rotateLoop vars flat l exit) := by
  intro m
  rw [h.count_label_rotateLoop]
  have hm := hunique m
  split
  · rename_i heq
    have := List.count_eq_zero.2 hexit
    rw [heq]
    omega
  · omega

/-! ## What the turned code does -/

/-- A label is at its place. -/
theorem position?_rotateLoop (hunique : Flat.UniqueLabels flat) (hexit : .label exit ∉ flat)
    {p : Nat} {m : Label} (hp : flat[p]? = some (.label m)) :
    position? (rotateLoop vars flat l exit) m = some (l.place cond p) := by
  refine position?_eq_some (h.uniqueLabels_rotateLoop hunique hexit) ?_
  rw [h.getElem?_place, hp]
  · rintro rfl
    rw [h.enters] at hp
    cases hp
  · rintro rfl
    rw [h.back] at hp
    cases hp

/-- Control runs on at the next place, except where the body used to run on into the test. -/
theorem place_succ (henters : i ≠ l.enters) (hback : i ≠ l.back) (htest : i + 1 ≠ l.test) :
    l.place cond (i + 1) = l.place cond i + 1 := by
  have := h.lt_test
  have := h.test_lt
  unfold EnteredLoop.place
  split_ifs <;> omega

variable {σ ν : Type} {S : Semantics σ ν}

/-- A statement that is moved does the same at its place. -/
theorem run_place (hunique : Flat.UniqueLabels flat) (hexit : .label exit ∉ flat)
    (henters : i ≠ l.enters) (hback : i ≠ l.back) (hx : flat[i]? = some x) {s : σ} {next : Nat}
    (hnext : follow flat i (x.act S s).1 = some next) :
    ∃ k, 0 < k ∧ ∀ n, run S (rotateLoop vars flat l exit) (n + k) (l.place cond i) s =
      run S (rotateLoop vars flat l exit) n (l.place cond next) (x.act S s).2 := by
  have hplace : (rotateLoop vars flat l exit)[_]? = _ := h.getElem?_place henters hback
  rw [hx] at hplace
  cases hact : (x.act S s).1 with
  | normal =>
    rw [hact, follow, Option.some.injEq] at hnext
    subst hnext
    have hfollow : follow (rotateLoop vars flat l exit) (l.place cond i) (x.act S s).1 =
        some (l.place cond i + 1) := by rw [hact]; rfl
    by_cases htest : i + 1 = l.test
    · -- The body runs on into the test by a jump.
      have hlabel := getElem?_of_labelIndex? h.test
      have hat : l.place cond i + 1 = l.back - 1 + cond.toList.length := by
        have := h.lt_test
        have := h.test_lt
        unfold EnteredLoop.place
        split_ifs <;> omega
      have hjump : follow (rotateLoop vars flat l exit) (l.place cond i + 1)
          ((goto entry none).act S (x.act S s).2).1 = some (l.place cond (i + 1)) := by
        rw [htest]
        exact h.position?_rotateLoop hunique hexit hlabel
      refine ⟨2, by omega, fun n => ?_⟩
      rw [run_step hplace hfollow, run_step (hat ▸ h.getElem?_behind.1) hjump]
      rfl
    · refine ⟨1, by omega, fun n => ?_⟩
      rw [run_step hplace hfollow, h.place_succ henters hback htest]
  | jumping m =>
    rw [hact] at hnext
    have hfollow : follow (rotateLoop vars flat l exit) (l.place cond i) (x.act S s).1 =
        some (l.place cond next) := by
      rw [hact]
      exact h.position?_rotateLoop hunique hexit (getElem?_of_position? hnext)
    exact ⟨1, by omega, fun n => run_step hplace hfollow⟩
  | _ => rw [hact] at hnext; cases hnext

/-- The jump that entered the loop is gone, so its place is that of the test. -/
theorem place_enters : l.place cond l.enters = l.place cond l.test := by
  have := h.lt_test
  have := h.test_lt
  unfold EnteredLoop.place
  split_ifs <;> omega

section

variable (hnan : S.NaNTyped vars) (hunique : Flat.UniqueLabels flat)
include hnan hunique

variable {s : σ}

/-- Where the jump back was, the turned code goes on with the body or jumps out of the loop, as the
condition says. -/
theorem run_back (hexit : .label exit ∉ flat) {next : Nat}
    (hnext : follow flat l.back ((goto head cond).act S s).1 = some next) :
    ∃ k, (∀ n, run S (rotateLoop vars flat l exit) (n + k) (l.place cond l.back) s =
        run S (rotateLoop vars flat l exit) n (l.place cond next) ((goto head cond).act S s).2) ∧
      (k = 0 → next = l.enters + 1) := by
  have hlt := h.lt_test
  have htest := h.test_lt
  have hhead : position? flat head = some (l.enters + 1) := position?_eq_some hunique h.body
  cases hc : cond with
  | none =>
    rw [hc, act, follow, hhead, Option.some.injEq] at hnext
    refine ⟨0, fun n => ?_, fun _ => hnext.symm⟩
    have hat : l.place none l.back = l.place none (l.enters + 1) := by
      simp only [EnteredLoop.place, Option.toList_none, List.length_nil]
      split_ifs <;> omega
    rw [hat, hnext]
    rfl
  | some c =>
    have hleave : (rotateLoop vars flat l exit)[_]? = _ := h.getElem?_leave hc
    simp only [hc, act] at hnext
    rw [hc] at hleave
    cases hval : S.test c s with
    | error v u =>
      simp only [hval, follow] at hnext
      cases hnext
    | ok p u =>
      simp only [hval] at hnext
      have hact :
        (goto exit (some (c.negate vars))).act S s = (if p then .normal else .jumping exit, u) := by
        simp only [act, Semantics.test_negate hnan, Functor.map, EStateM.map, hval]
        cases p <;> rfl
      have hback : (goto head (some c)).act S s = (if p then .jumping head else .normal, u) := by
        simp only [act, hval]
      rw [hback]
      cases p with
      | true =>
        simp only [if_true, follow, hhead, Option.some.injEq] at hnext
        subst hnext
        have hat : l.place (some c) l.back + 1 = l.place (some c) (l.enters + 1) := by
          simp only [EnteredLoop.place, Option.toList_some, List.length_singleton]
          split_ifs <;> omega
        refine ⟨1, fun n => ?_, by simp⟩
        rw [run_step hleave (by rw [hact]; rfl), hact, hat]
      | false =>
        simp only [Bool.false_eq_true, if_false, follow, Option.some.injEq] at hnext
        subst hnext
        have hbehind : (rotateLoop vars flat l exit)[_]? = _ := h.getElem?_behind.2
        have hposition := position?_eq_some (h.uniqueLabels_rotateLoop hunique hexit) hbehind
        have hat : l.place (some c) (l.back + 1) = l.back + cond.toList.length + 1 := by
          simp only [EnteredLoop.place, hc, Option.toList_some, List.length_singleton]
          split_ifs <;> omega
        refine ⟨2, fun n => ?_, by simp⟩
        rw [run_step hleave (by rw [hact]; exact hposition), hact, run_step hbehind rfl, hat]
        rfl

/-- If the condition of the loop throws, it still does so. -/
theorem ends_back (hstop : follow flat l.back ((goto head cond).act S s).1 = none) :
    Flat.Ends S (rotateLoop vars flat l exit) (l.place cond l.back) s
      ((goto head cond).act S s) := by
  have hhead : position? flat head = some (l.enters + 1) := position?_eq_some hunique h.body
  cases hc : cond with
  | none =>
    rw [hc, act, follow, hhead] at hstop
    cases hstop
  | some c =>
    have hleave : (rotateLoop vars flat l exit)[_]? = _ := h.getElem?_leave hc
    simp only [hc, act] at hstop
    rw [hc] at hleave
    cases hval : S.test c s with
    | ok p u => cases p <;> simp [hval, follow, hhead] at hstop
    | error v u =>
      have hact : (goto exit (some (c.negate vars))).act S s = (.thrown v, u) := by
        simp only [act, Semantics.test_negate hnan, Functor.map, EStateM.map, hval]
      have hback : (goto head (some c)).act S s = (.thrown v, u) := by
        simp only [act, hval]
      rw [hback, ← hact]
      exact ends_stop hleave (by rw [hact]; rfl)

/-- The turned code does what the code does. -/
theorem mirrors_rotateLoop (hexit : .label exit ∉ flat) (hjumps : ∀ c, .goto exit c ∉ flat) :
    Flat.Mirrors S flat (rotateLoop vars flat l exit) (l.place cond)
      (fun i => if i = l.enters ∨ i = l.back then 1 else 0) where
  off i hi := by
    have hlen := h.back_lt
    have hlt := h.lt_test
    have htest := h.test_lt
    rw [List.getElem?_eq_none_iff] at hi
    rw [h.getElem?_place (by omega) (by omega), List.getElem?_eq_none hi]
  stop i x s hx hstop := by
    by_cases henters : i = l.enters
    · rw [henters, h.enters] at hx
      cases hx
      have hlabel := position?_eq_some hunique (getElem?_of_labelIndex? h.test)
      rw [act, follow, hlabel] at hstop
      cases hstop
    by_cases hback : i = l.back
    · subst hback
      rw [h.back] at hx
      cases hx
      exact h.ends_back hnan hunique hstop
    · have hplace : (rotateLoop vars flat l exit)[_]? = _ := h.getElem?_place henters hback
      rw [hx] at hplace
      refine ends_stop hplace ?_
      cases hact : (x.act S s).1 with
      | normal =>
        rw [hact] at hstop
        cases hstop
      | jumping m =>
        obtain ⟨c, rfl⟩ := exists_goto_of_act hact
        rw [hact, follow, position?_eq_none_iff] at hstop
        rw [follow, position?_eq_none_iff]
        intro hmem
        rcases mem_rotateLoop hmem with hmem | hmem | ⟨_, _, hmem⟩
        · exact hstop hmem
        · cases hmem
          exact hjumps c (List.mem_of_getElem? hx)
        · cases hmem
      | _ => rfl
  step i x s next hx hnext := by
    by_cases henters : i = l.enters
    · rw [henters, h.enters] at hx
      cases hx
      have hlabel := position?_eq_some hunique (getElem?_of_labelIndex? h.test)
      rw [act, follow, hlabel, Option.some.injEq] at hnext
      subst hnext henters
      have hlt := h.lt_test
      have htest := h.test_lt
      refine ⟨0, fun n => ?_, fun _ => ?_⟩
      · rw [h.place_enters]
        rfl
      · rw [if_neg (by omega), if_pos (.inl rfl)]
        exact Nat.one_pos
    by_cases hback : i = l.back
    · subst hback
      rw [h.back] at hx
      cases hx
      obtain ⟨k, hk, hzero⟩ := h.run_back hnan hunique hexit hnext
      have hlt := h.lt_test
      have htest := h.test_lt
      refine ⟨k, hk, fun heq => ?_⟩
      rw [hzero heq, if_neg (by omega), if_pos (.inr rfl)]
      exact Nat.one_pos
    · obtain ⟨k, hpos, hk⟩ := h.run_place hunique hexit henters hback hx hnext
      exact ⟨k, hk, by omega⟩

end

end EnteredLoop.Shape

theorem EnteredLoop.Shape.holdsJumps_rotateLoop {l : EnteredLoop} {entry head : Label}
    {cond : Option Expr} (h : l.Shape flat entry head cond) (hjumps : labels.HoldsJumps flat) :
    labels.grow.HoldsJumps (rotateLoop vars flat l labels.next) := by
  intro m c hm
  rw [LabelTable.size_grow]
  rw [h.rotateLoop_eq] at hm
  have hmem {k : Label} {d : Option Expr} (hd : goto k d ∈ flat) : k.index < labels.size + 1 :=
    Nat.lt_succ_of_lt (hjumps k d hd)
  simp only [List.mem_append, List.mem_cons, leaveUnless, List.mem_map, goto.injEq, reduceCtorEq,
    false_or] at hm
  rcases hm with hm | hm | ⟨_, _, rfl, _⟩ | hm | ⟨rfl, _⟩ | hm
  · exact hmem (List.mem_of_mem_take hm)
  · exact hmem (slice_subset _ _ _ hm)
  · simp
  · exact hmem (slice_subset _ _ _ hm)
  · exact hmem (List.mem_of_getElem? h.enters)
  · exact hmem (List.mem_of_mem_drop hm)

/-- Turning loops round keeps what flat code does, and that no label stands at two places. -/
theorem ends_rotateLoops {σ ν : Type} {S : Semantics σ ν} (hnan : S.NaNTyped vars) (n : Nat)
    (hunique : Flat.UniqueLabels flat) (hlabels : labels.Holds flat)
    (hjumps : labels.HoldsJumps flat) :
    Flat.UniqueLabels (rotateLoops vars n flat labels).1 ∧ ∀ (s : σ) (r : Exit ν × σ),
        Flat.Ends S flat 0 s r ↔ Flat.Ends S (rotateLoops vars n flat labels).1 0 s r := by
  induction n generalizing flat labels with
  | zero => exact ⟨hunique, fun _ _ => Iff.rfl⟩
  | succ n ih =>
    rw [rotateLoops]
    split
    · exact ⟨hunique, fun _ _ => Iff.rfl⟩
    · rename_i l hfound
      obtain ⟨entry, head, cond, hshape⟩ := shape_of_enteredLoop? hfound
      have hexit : .label labels.next ∉ flat := fun hmem => Nat.lt_irrefl _ (hlabels _ hmem)
      have hgoto (c : Option Expr) : .goto labels.next c ∉ flat :=
        fun hmem => Nat.lt_irrefl _ (hjumps _ _ hmem)
      have hmirror := hshape.mirrors_rotateLoop hnan hunique hexit hgoto
      obtain ⟨hunique', hends⟩ := ih (hshape.uniqueLabels_rotateLoop hunique hexit)
        (holds_rotateLoop hlabels) (hshape.holdsJumps_rotateLoop hjumps)
      refine ⟨hunique', fun s r => ?_⟩
      rw [← hends, hmirror.ends_iff, EnteredLoop.place, if_pos (Nat.zero_le _)]

end ByteLift
