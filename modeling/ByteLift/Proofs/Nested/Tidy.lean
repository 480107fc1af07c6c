import ByteLift.Proofs.Nested.SinglePass
import ByteLift.Proofs.Rules

/-!
# Taking the scaffolding down

What the rules that tidy loops look for and what they leave, and that every rule keeps code well
formed.
-/

namespace ByteLift

open Stmt Block Meaning Exit List

variable {vars : VarTable} {around : List (Option Label)}

/-! ## What the rules for loops look for -/

variable {b body : Block} {l : Label}

variable {s : Stmt} {cond : Expr}

theorem eq_dropLast_append_of_getLast? (h : b.getLast? = some s) : b = b.dropLast ++ [s] := by
  obtain ⟨hne, hlast⟩ := getLast?_eq_some_iff.1 h
  simp [hlast]

/-- The end of a body is turned if it has the right shape. -/
theorem turnTail_cases (vars : VarTable) (l : Label) (body : Block) :
    (turnTail vars l body).val = body ∨
      ∃ before c a, body = before ++ [.ite c (a ++ [.continueLoop (some l)]) [],
        .breakLoop (some l)] ∧
        (turnTail vars l body).val = before ++ .ifThen (c.negate vars)
          [.breakLoop (some l)] :: a := by
  rw [turnTail]
  split
  · rename_i last c a before hbody
    split
    · rename_i htail
      simp only [Bool.and_eq_true, decide_eq_true_eq] at htail
      obtain ⟨rfl, hlast⟩ := htail
      refine .inr ⟨before.reverse, c, a.dropLast, ?_, rfl⟩
      rw [← eq_dropLast_append_of_getLast? hlast, ← reverse_reverse body, hbody]
      simp
    · exact .inl rfl
  · exact .inl rfl

/-- A condition is pulled out of a body if it starts with one. -/
theorem pullCondition_cases (vars : VarTable) (l : Label) (cond : Expr) (body : Block) :
    (pullCondition vars l cond body).val = (cond, body) ∨
      ∃ c rest, body = .ite c [.breakLoop (some l)] [] :: rest ∧ cond.isTrue = true ∧
        (pullCondition vars l cond body).val = (c.negate vars, rest) := by
  unfold pullCondition
  split
  · rename_i c m rest
    split
    · rename_i hhead
      simp only [Bool.and_eq_true, decide_eq_true_eq] at hhead
      obtain ⟨⟨rfl, hcond⟩, _⟩ := hhead
      exact .inr ⟨c, rest, rfl, hcond, rfl⟩
    · exact .inl rfl
  · exact .inl rfl

/-! ## Well-formedness -/

/-- Code may be put in the place of other code if it is well formed wherever that is. -/
theorem congruent_wellNested :
    Congruent fun a b => ∀ around, WellNestedList around a → WellNestedList around b where
  refl _ _ := id
  trans hab hbc around h := hbc around (hab around h)
  tail s _ _ h around := by simpa using fun hs hss => ⟨hs, h around hss⟩
  arms c ss _ _ _ _ ha hb around := by
    simpa using fun h₁ h₂ hss => ⟨⟨ha around h₁, hb around h₂⟩, hss⟩
  body l c ss _ _ h around := by simpa using fun hl ha hss => ⟨⟨hl, h (l :: around) ha⟩, hss⟩
  inner ss _ _ h around := by simpa using fun ha hss => ⟨h around ha, hss⟩

theorem wellNestedList_stripTail (l : Label) (h : WellNestedList around b) :
    WellNestedList around (stripTail l b).val :=
  stripTail_induction (R := fun a b _ => ∀ around,
    WellNestedList around a → WellNestedList around b)
    congruent_wellNested.refl (fun s _ _ _ => congruent_wellNested.tail s)
    (fun c _ _ _ _ _ _ => congruent_wellNested.arms c []) (by simp) b around h

theorem wellNestedList_turnTail (h : WellNestedList around body) :
    WellNestedList around (turnTail vars l body).val := by
  rcases turnTail_cases vars l body with hval | ⟨before, c, a, rfl, hval⟩
  · rwa [hval]
  · rw [hval]
    simp_all

theorem wellNestedList_pullCondition (h : WellNestedList around body) :
    WellNestedList around (pullCondition vars l cond body).val.2 := by
  rcases pullCondition_cases vars l cond body with hval | ⟨c, rest, rfl, _, hval⟩
  · rwa [hval]
  · rw [hval]
    exact (wellNestedList_cons.1 h).2

theorem wellNested_tidyLoop (h : (loop (some l) cond body).WellNested around) :
    (tidyLoop vars l cond body).val.WellNested around := by
  simp only [wellNested_loop] at h
  simp only [tidyLoop, Tracked.val_bind, Tracked.val_pure, wellNested_loop]
  exact ⟨h.1, wellNestedList_pullCondition
    (wellNestedList_turnTail (wellNestedList_stripTail l h.2))⟩

theorem wellNestedList_dropLastIf (h : WellNestedList around b) :
    WellNestedList around (dropLastIf s b).val := by
  rw [dropLastIf]
  split
  · exact h.subset (dropLast_subset b)
  · exact h

theorem turning_wellNested (vars : VarTable) :
    Turning vars fun a b _ => ∀ around, WellNestedList around a → WellNestedList around b where
  toTracking := congruent_wellNested.tracking
  unwrap ss h around := by simpa using fun hs hss => ⟨wellNestedList_singlePass h hs, hss⟩
  takeThen a b ss _ around := by simp +contextual
  turn c a b ss _ around := by simp +contextual

theorem tidying_wellNested (vars : VarTable) :
    Tidying vars fun a b _ => ∀ around, WellNestedList around a → WellNestedList around b where
  toTurning := turning_wellNested vars
  cut ss _ around := by simp +contextual
  dropLast c a b jump ss _ around := by
    simpa using fun ha hb hjump hss =>
      ⟨⟨wellNestedList_dropLastIf ha, wellNestedList_dropLastIf hb⟩, hjump, hss⟩
  loop l c a ss around h := by
    rw [wellNestedList_cons] at h ⊢
    exact ⟨wellNested_tidyLoop h.1, h.2⟩

theorem wellNestedList_tidy (h : WellNestedList around b) : WellNestedList around (tidy vars b) :=
  (tidying_wellNested vars).tidy b around h

/-- A jump may lose its label wherever it stands: it is in some loop. -/
theorem wellNestedList_stripLabels (around : List (Option Label))
    (innermost : Option Label) (b : Block)
    (h : WellNestedList around b) : WellNestedList around (stripLabels innermost b) := by
  induction b using nestedInduction generalizing around innermost with
  | nil => exact h
  | cons s ss ihblocks ihss =>
    rw [wellNestedList_cons] at h
    rw [stripLabels, wellNestedList_cons]
    refine ⟨?_, ihss _ _ h.2⟩
    obtain ⟨h, -⟩ := h
    cases s with
    | ite c a b =>
      rw [wellNested_ite] at h
      simpa [stripLabel] using ⟨ihblocks a (by simp) around innermost h.1,
        ihblocks b (by simp) around innermost h.2⟩
    | loop l c a =>
      rw [wellNested_loop] at h
      simpa [stripLabel] using ⟨by simpa using h.1, ihblocks a (by simp) (l :: around) l h.2⟩
    | block a =>
      rw [wellNested_block] at h
      simpa [stripLabel] using ihblocks a (by simp) around innermost h
    | breakLoop l | continueLoop l =>
      simp only [stripLabel, wellNested_breakLoop, wellNested_continueLoop] at h ⊢
      refine ⟨h.1, ?_⟩
      split
      · simp
      · exact h.2
    | _ => simpa only [stripLabel] using h

/-- Loops lose labels that no jump names. -/
theorem wellNestedList_dropLabels {used : Label → Bool} (around : List (Option Label)) (b : Block)
    (h : WellNestedList around b)
    (hused : ∀ t ∈ nestedList b, ∀ l, t.namedLabel? = some l → used l = true) :
    WellNestedList (around.map (Option.filter used)) (dropLabels used b) := by
  induction b using nestedInduction generalizing around with
  | nil => exact wellNestedList_nil
  | cons s ss ihblocks ihss =>
    rw [wellNestedList_cons] at h
    simp only [nestedList, mem_append] at hused
    rw [dropLabels, wellNestedList_cons]
    refine ⟨?_, ihss _ h.2 fun t ht => hused t (.inr ht)⟩
    obtain ⟨h, -⟩ := h
    have hused := fun t ht => hused t (.inl ht)
    cases s with
    | ite c a b =>
      rw [wellNested_ite] at h
      simp only [nested, mem_cons, mem_append] at hused
      simpa [dropLabel] using ⟨ihblocks a (by simp) around h.1 fun t ht => hused t (.inr (.inl ht)),
        ihblocks b (by simp) around h.2 fun t ht => hused t (.inr (.inr ht))⟩
    | loop l c a =>
      rw [wellNested_loop] at h
      simp only [nested, mem_cons] at hused
      rw [dropLabel, wellNested_loop]
      refine ⟨?_, ihblocks a (by simp) (l :: around) h.2 fun t ht => hused t (.inr ht)⟩
      -- A label that is left is the label of the loop, and so are those around it.
      intro hsome hmem
      obtain ⟨m, hm, heq⟩ := mem_map.1 hmem
      obtain ⟨k, hk⟩ := Option.isSome_iff_exists.1 hsome
      have hl := (Option.filter_eq_some_iff.1 hk).1
      have hm' := (Option.filter_eq_some_iff.1 (heq.trans hk)).1
      exact h.1 (by simp [hl]) (by rwa [hl, ← hm'])
    | block a =>
      rw [wellNested_block] at h
      simp only [nested, mem_cons] at hused
      simpa [dropLabel] using ihblocks a (by simp) around h fun t ht => hused t (.inr ht)
    | breakLoop l | continueLoop l =>
      simp only [wellNested_breakLoop, wellNested_continueLoop, nested,
        mem_singleton] at h hused
      simp only [dropLabel, wellNested_breakLoop, wellNested_continueLoop]
      refine ⟨by simpa using h.1, ?_⟩
      intro hsome
      obtain ⟨m, rfl⟩ := Option.isSome_iff_exists.1 hsome
      exact mem_map.2 ⟨some m, h.2 hsome, by simp [hused _ rfl m rfl]⟩
    | label | goto => simp [Stmt.WellNested] at h
    | _ => simp [dropLabel, Stmt.WellNested]

/-- A label that a jump names is counted. -/
theorem labelCount_pos {t : Stmt} (ht : t ∈ nestedList b) (hl : t.namedLabel? = some l) :
    decide (0 < Block.labelCount b l) = true := by
  simp only [Block.labelCount, decide_eq_true_eq, count_pos_iff]
  exact mem_filterMap.2 ⟨t, ht, hl⟩

/-! ## Meaning -/

section Meaning

variable {σ ν : Type} {S : Semantics σ ν}

/-- At the end of a loop's body, going on with the loop is the same as running on. -/
def Exit.absorb (l : Label) : Exit ν → Exit ν
  | .continuing (some m) => if m = l then .normal else .continuing (some m)
  | x => x

theorem ofRound_absorb (l : Label) (x : Exit ν) :
    (x.absorb l).ofRound (some l) = x.ofRound (some l) := by
  cases x with
  | continuing m =>
    cases m with
    | none => rfl
    | some m =>
      rw [absorb]
      split
      · rename_i heq
        simp [ofRound, heq]
      · rfl
  | _ => rfl

theorem via_absorb_continue (l : Label) : via (absorb l) ((continueLoop (some l)).meaning S) =
      .via (absorb l) .skip := by
  rw [meaning_of_blocks_eq_nil S rfl]
  refine ext fun s y t => ?_
  constructor
  · rintro ⟨x, hx, rfl⟩
    cases hx
    exact ⟨.normal, ⟨rfl, rfl⟩, by simp [absorb]⟩
  · rintro ⟨x, ⟨rfl, rfl⟩, rfl⟩
    exact ⟨_, rfl, by simp [absorb]⟩

theorem via_absorb_stripTail (l : Label) (b : Block) :
    via (absorb l) (meaningList S (stripTail l b).val) = .via (absorb l) (meaningList S b) := by
  refine stripTail_induction
    (R := fun a b _ => via (absorb l) (meaningList S b) = .via (absorb l) (meaningList S a))
    (fun _ => rfl) (fun s _ _ _ h => ?_) (fun c _ _ _ _ _ _ ha hb => ?_) ?_ b
  · rw [meaningList_cons, meaningList_cons]
    exact via_seq_congr h _
  · simp only [meaningList_cons, meaningList_nil, seq_skip, meaning_ite]
    rw [via_branch fun _ => rfl, via_branch fun _ => rfl, ha, hb]
  · rw [meaningList_cons, meaningList_nil, seq_skip, via_absorb_continue]

section

variable (hnan : S.NaNTyped vars) (l : Label)
include hnan

/-- Turning the end of a body round changes nothing that its loop sees. -/
theorem via_absorb_turnTail (body : Block) :
    via (absorb l) (meaningList S (turnTail vars l body).val) =
      .via (absorb l) (meaningList S body) := by
  rcases turnTail_cases vars l body with hval | ⟨before, c, a, rfl, hval⟩
  · rw [hval]
  rw [hval, meaningList_append, meaningList_append]
  refine via_seq_congr ?_ _
  have hbreak : ((breakLoop (some l)).meaning S).Abrupt := abrupt_of_completes _ rfl
  have hcont : ((continueLoop (some l)).meaning S).Abrupt := abrupt_of_completes _ rfl
  -- Both are a branch with what is left of the body in one arm and the break in the other.
  have hnew : meaningList S (.ifThen (c.negate vars) [.breakLoop (some l)] :: a) =
      .branch (S.test c) (meaningList S a) ((breakLoop (some l)).meaning S) := by
    rw [meaningList_cons, ifThen, meaning_ite, Semantics.test_negate hnan, branch_not,
      branch_seq, meaningList_nil, skip_seq, meaningList_cons, meaningList_nil,
      seq_skip, hbreak.seq_eq]
  have hold : meaningList S [.ite c (a ++ [.continueLoop (some l)]) [], .breakLoop (some l)] =
      .branch (S.test c) (.seq (meaningList S a) ((continueLoop (some l)).meaning S))
        ((breakLoop (some l)).meaning S) := by
    simp only [meaningList_cons, meaningList_nil, seq_skip, meaning_ite, meaningList_append,
      branch_seq, skip_seq, seq_assoc, hcont.seq_eq]
  rw [hnew, hold, via_branch fun _ => rfl, via_branch fun _ => rfl,
    via_seq_congr (via_absorb_continue l), seq_skip]

theorem meaning_pullCondition (cond : Expr) (body : Block) :
    (Stmt.loop (some l) (pullCondition vars l cond body).val.1
      (pullCondition vars l cond body).val.2).meaning S =
      (Stmt.loop (some l) cond body).meaning S := by
  rcases pullCondition_cases vars l cond body with hval | ⟨c, rest, rfl, hcond, hval⟩
  · rw [hval]
  have hbreak : ((breakLoop (some l)).meaning S).Abrupt := abrupt_of_completes _ rfl
  rw [hval, meaning_loop, meaning_loop, Semantics.test_of_isTrue hcond, Semantics.test_negate hnan,
    ← iter_guard, meaningList_cons, meaning_ite, branch_seq, meaningList_cons,
    meaningList_nil, seq_skip, skip_seq, hbreak.seq_eq,
    meaning_of_blocks_eq_nil S rfl]
  rfl

/-- Straightening a loop keeps its meaning. -/
theorem meaning_tidyLoop (cond : Expr) (body : Block) :
    (tidyLoop vars l cond body).val.meaning S = (Stmt.loop (some l) cond body).meaning S := by
  simp only [tidyLoop, Tracked.val_bind, Tracked.val_pure]
  rw [meaning_pullCondition hnan, meaning_loop, meaning_loop,
    iter_congr (ofRound_absorb l) (via_absorb_turnTail hnan l _),
    iter_congr (ofRound_absorb l) (via_absorb_stripTail l body)]

end

theorem abrupt_of_isJump (h : s.isJump = true) : (s.meaning S).Abrupt := by
  refine s.abrupt_of_completes ?_
  cases s with
  | goto l c => cases c <;> simp_all [isJump, Stmt.completes]
  | _ => simp_all [isJump, Stmt.completes]

/-- A jump at the end of a block may go if the same jump follows the block. -/
theorem seq_dropLastIf {jump : Stmt} (hjump : jump.isJump = true) (a : Block) (k : Meaning σ ν) :
    seq (meaningList S (dropLastIf jump a).val) (.seq (jump.meaning S) k) =
      .seq (meaningList S a) (.seq (jump.meaning S) k) := by
  have habrupt := abrupt_of_isJump (S := S) hjump
  rw [dropLastIf]
  split
  · rename_i hlast
    obtain ⟨b, rfl⟩ := getLast?_eq_some_iff.1 hlast
    rw [Tracked.val_mark, dropLast_concat, meaningList_append, meaningList_cons,
      meaningList_nil, seq_skip, seq_assoc, habrupt.seq_eq, habrupt.seq_eq]
  · rfl

/-- A part of a block can be replaced by one that means the same. -/
theorem congruent_meaningList : Congruent fun a b => meaningList S b = meaningList S a where
  refl _ := rfl
  trans h h' := h'.trans h
  tail s _ _ h := by rw [meaningList_cons, meaningList_cons, h]
  arms c ss _ _ _ _ ha hb := by
    rw [meaningList_cons, meaningList_cons, meaning_ite, meaning_ite, ha, hb]
  body l c ss _ _ h := by rw [meaningList_cons, meaningList_cons, meaning_loop, meaning_loop, h]
  inner ss _ _ h := by rw [meaningList_cons, meaningList_cons, meaning_block, meaning_block, h]

theorem turning_meaningList (hnan : S.NaNTyped vars) :
    Turning vars fun a b _ => meaningList S b = meaningList S a where
  toTracking := congruent_meaningList.tracking
  unwrap ss h := by rw [meaningList_append, meaningList_cons, meaning_singlePass h]
  takeThen a b ss hc := by
    rw [meaningList_append, meaningList_cons, meaning_ite, Semantics.test_of_isTrue hc, branch_true]
  turn c a b ss _ := by
    rw [meaningList_cons, meaningList_cons, meaning_ite, meaning_ite,
      Semantics.test_negate hnan, branch_not]

theorem tidying_meaningList (hnan : S.NaNTyped vars) :
    Tidying vars fun a b _ => meaningList S b = meaningList S a where
  toTurning := turning_meaningList hnan
  cut {s} ss hs := by
    have habrupt : (s.meaning S).Abrupt := s.abrupt_of_completes hs
    rw [meaningList_cons, meaningList_cons, habrupt.seq_eq, habrupt.seq_eq]
  dropLast c a b jump ss hjump := by
    simp only [meaningList_cons, meaning_ite, branch_seq, seq_dropLastIf hjump]
  loop l c a ss := by rw [meaningList_cons, meaningList_cons, meaning_tidyLoop hnan]

/-- Tidying keeps the meaning of a block. -/
theorem meaningList_tidy (hnan : S.NaNTyped vars) (b : Block) :
    meaningList S (tidy vars b) = meaningList S b :=
  (tidying_meaningList hnan).tidy b

/-- In the loop with a label, a jump that names the label is a jump that names none. -/
def Exit.unlabel (innermost : Option Label) : Exit ν → Exit ν
  | .breaking l => .breaking (if l = innermost then none else l)
  | .continuing l => .continuing (if l = innermost then none else l)
  | x => x

theorem unlabel_eq_normal (l : Option Label) (x : Exit ν) :
    x.unlabel l = .normal ↔ x = .normal := by
  cases x <;> simp [unlabel]

theorem ofRound_unlabel (label : Option Label) (x : Exit ν) :
    (x.unlabel label).ofRound label = x.ofRound label := by
  cases x with
  | breaking l | continuing l =>
    cases l with
    | none => simp [unlabel, ofRound]
    | some l =>
      rw [unlabel]
      split
      · rename_i heq
        simp [ofRound, heq]
      · rfl
  | _ => rfl

theorem unlabel_none (x : Exit ν) : x.unlabel none = x := by
  cases x with
  | breaking l | continuing l => cases l <;> simp [unlabel]
  | _ => rfl

theorem via_ofFun {f : Exit ν → Exit ν} {g h : σ → Exit ν × σ}
    (heq : ∀ s, (f (g s).1, (g s).2) = (f (h s).1, (h s).2)) :
    via f (.ofFun g) = .via f (.ofFun h) := by
  have half {g h : σ → Exit ν × σ} (heq : ∀ s, (f (g s).1, (g s).2) = (f (h s).1, (h s).2)) (s : σ)
      (y : Exit ν) (t : σ) : via f (.ofFun g) s y t → via f (.ofFun h) s y t := by
    rintro ⟨x, hx, rfl⟩
    have hs := heq s
    rw [show g s = (x, t) from hx, Prod.mk.injEq] at hs
    exact ⟨(h s).1, Prod.ext rfl hs.2.symm, hs.1.symm⟩
  exact ext fun s y t => ⟨half heq s y t, half (fun s => (heq s).symm) s y t⟩

/-- Labels that name the innermost loop can be left out. -/
theorem via_unlabel_stripLabels (innermost : Option Label) (b : Block) :
    via (unlabel innermost) (meaningList S (stripLabels innermost b)) =
      .via (unlabel innermost) (meaningList S b) := by
  induction b using nestedInduction generalizing innermost with
  | nil => rfl
  | cons s ss ihblocks ihss =>
    have hfirst : via (unlabel innermost) ((stripLabel innermost s).meaning S) =
        .via (unlabel innermost) (s.meaning S) := by
      cases s with
      | ite c a b =>
        simp only [stripLabel, meaning_ite]
        rw [via_branch fun _ => rfl, via_branch fun _ => rfl, ihblocks a (by simp),
          ihblocks b (by simp)]
      | loop l c a =>
        simp only [stripLabel, meaning_loop]
        rw [iter_congr (ofRound_unlabel l) (ihblocks a (by simp) l)]
      | block a =>
        simp only [stripLabel, meaning_block]
        exact ihblocks a (by simp) innermost
      | breakLoop l | continueLoop l =>
        simp only [stripLabel]
        rw [meaning_of_blocks_eq_nil S rfl, meaning_of_blocks_eq_nil S rfl]
        refine via_ofFun fun s => ?_
        simp only [Stmt.act, unlabel]
        split <;> simp_all
      | _ => simp only [stripLabel]
    simp only [stripLabels, meaningList_cons, via_seq (unlabel_eq_normal innermost)]
    rw [hfirst, ihss]

/-- Dropping the labels of jumps to the innermost loop keeps the meaning of a method's body. -/
theorem meaningList_stripLabels (b : Block) :
    meaningList S (stripLabels none b) = meaningList S b := by
  have h := via_unlabel_stripLabels (S := S) none b
  rwa [show unlabel none = (id : Exit ν → Exit ν) from funext unlabel_none, via_id, via_id] at h

/-- A jump to a loop with a label names that label. -/
theorem exists_named_of_jumpsToList {kind : LoopJump} (b : Block)
    (h : jumpsToList kind (some l) true b = true) : ∃ t ∈ nestedList b, t.namedLabel? = some l := by
  induction b using nestedInduction with
  | nil => simp [jumpsToList] at h
  | cons s ss ihblocks ihss =>
    simp only [jumpsToList, Bool.or_eq_true] at h
    simp only [nestedList, mem_append, or_and_right, exists_or]
    refine h.imp (fun h => ?_) ihss
    cases s with
    | ite c a b =>
      simp only [jumpsTo, Bool.or_eq_true] at h
      simp only [nested, mem_cons, mem_append, or_and_right, exists_or]
      exact .inr (h.imp (ihblocks a (by simp)) (ihblocks b (by simp)))
    | loop _ _ a | block a =>
      simp only [jumpsTo] at h
      simp only [nested, mem_cons, or_and_right, exists_or]
      exact .inr (ihblocks a (by simp) h)
    | breakLoop m | continueLoop m =>
      refine ⟨_, mem_singleton.2 rfl, ?_⟩
      cases kind <;> cases m <;> simp_all [jumpsTo, jumpTarget?, namedLabel?]
    | _ => cases kind <;> simp [jumpsTo, jumpTarget?] at h

variable {used : Label → Bool}

/-- A loop may lose a label that no jump in its body names. -/
theorem iter_filter {label : Option Label} {a : Block}
    (hused : ∀ t ∈ nestedList a, ∀ l, t.namedLabel? = some l → used l = true)
    (test : EStateM ν σ Bool) :
    iter test (label.filter used) (meaningList S a) = .iter test label (meaningList S a) := by
  cases label with
  | none => rfl
  | some l =>
    cases hl : used l with
    | true => simp [Option.filter, hl]
    | false =>
      refine iter_label ?_ test
      -- No round ends in a jump that names the label.
      have hnot (kind : LoopJump) {s t : σ} : ¬ meaningList S a s (kind.exit (some l)) t := by
        intro hbody
        have hjump : jumpsToList kind (some l) true a = true :=
          jumpsToList_of_meaning a true hbody (.inr ⟨rfl, rfl⟩)
        obtain ⟨t, ht, hname⟩ := exists_named_of_jumpsToList a hjump
        rw [hused t ht l hname] at hl
        cases hl
      intro s x t hbody
      cases x with
      | breaking m =>
        cases m with
        | none => rfl
        | some m =>
          have hne : m ≠ l := by
            rintro rfl
            exact hnot .breaking hbody
          simp [ofRound, Option.filter, hl, hne]
      | continuing m =>
        cases m with
        | none => rfl
        | some m =>
          have hne : m ≠ l := by
            rintro rfl
            exact hnot .continuing hbody
          simp [ofRound, Option.filter, hl, hne]
      | _ => rfl

/-- Labels that no jump names mean nothing. -/
theorem meaningList_dropLabels (b : Block)
    (hused : ∀ t ∈ nestedList b, ∀ l, t.namedLabel? = some l → used l = true) :
    meaningList S (dropLabels used b) = meaningList S b := by
  induction b using nestedInduction with
  | nil => rfl
  | cons s ss ihblocks ihss =>
    simp only [nestedList, mem_append] at hused
    simp only [dropLabels, meaningList_cons]
    rw [ihss fun t ht => hused t (.inr ht)]
    have hused := fun t ht => hused t (.inl ht)
    congr 1
    cases s with
    | ite c a b =>
      simp only [nested, mem_cons, mem_append] at hused
      simp only [dropLabel, meaning_ite]
      rw [ihblocks a (by simp) fun t ht => hused t (.inr (.inl ht)),
        ihblocks b (by simp) fun t ht => hused t (.inr (.inr ht))]
    | loop l c a =>
      simp only [nested, mem_cons] at hused
      have hbody := fun t ht => hused t (.inr ht)
      simp only [dropLabel, meaning_loop]
      rw [ihblocks a (by simp) hbody, iter_filter hbody]
    | block a =>
      simp only [nested, mem_cons] at hused
      simp only [dropLabel, meaning_block]
      exact ihblocks a (by simp) fun t ht => hused t (.inr ht)
    | _ => simp only [dropLabel]

end Meaning

end ByteLift
