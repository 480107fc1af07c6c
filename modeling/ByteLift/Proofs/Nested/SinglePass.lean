import ByteLift.Nested.SinglePass
import ByteLift.Proofs.Nested.WellNested
import ByteLift.Proofs.Semantics.Completion

/-!
# Loops that run once

A loop that runs once is replaced by its body, with the breaks out of the loop taken out. `Lifts`
says how the body changes, rule by rule: the code behind a branch moves into the arms that run on.
-/

namespace ByteLift

open Stmt Meaning

/-- Taking the breaks out of the loop with a label turns the one block into the other. -/
inductive Lifts (label : Option Label) : Block → Block → Prop
  | nil : Lifts label [] []
  /-- What follows a break is dropped with it. -/
  | leave {target : Option Label} {rest : Block} (h : target = none ∨ target = label) :
    Lifts label (.breakLoop target :: rest) []
  /-- What follows a branch moves into its arms, unless control does not run on behind the arm. -/
  | branch {c : Expr} {a b rest restA restB a' b' : Block}
    (ha : restA = rest ∨ restA = [] ∧ Block.completes a = false)
    (hb : restB = rest ∨ restB = [] ∧ Block.completes b = false)
    (hliftA : Lifts label (a ++ restA) a') (hliftB : Lifts label (b ++ restB) b') :
    Lifts label (.ite c a b :: rest) [.ite c a' b']
  /-- A statement that does not break out of the loop stays. -/
  | keep {s : Stmt} {rest rest' : Block} (hs : s.jumpsTo .breaking label false = false)
    (hrest : Lifts label rest rest') : Lifts label (s :: rest) (s :: rest')

variable {out b : Block} {label : Option Label}

/-- A branch of two arms that may be missing. -/
theorem ite_eq_some {c : Expr} {x y : Option Block}
    (h : (x >>= fun a => y >>= fun b => pure [Stmt.ite c a b]) = some out) :
    ∃ a b, x = some a ∧ y = some b ∧ out = [.ite c a b] := by
  obtain ⟨a, hx, h⟩ := Option.bind_eq_some_iff.1 h
  obtain ⟨b, hy, h⟩ := Option.bind_eq_some_iff.1 h
  cases h
  exact ⟨a, b, hx, hy, rfl⟩

/-- What `liftBreaks` makes has a property that holds where code is left out, where what follows a
branch goes into one of its arms or nowhere, and where a statement stays. -/
theorem liftBreaks_induction {R : Block → Block → Prop} (h : liftBreaks label b = some out)
    (nil : R [] [])
    (leave : ∀ {target rest}, target = none ∨ target = label → R (.breakLoop target :: rest) [])
    (branch : ∀ {c a b rest a' b'} (restA restB : Block),
      (restA = rest ∨ restA = [] ∧ Block.completes a = false) →
      (restB = rest ∨ restB = [] ∧ Block.completes b = false) →
      (restA = rest ∧ restB = [] ∨ restA = [] ∧ restB = rest ∨ restA = [] ∧ restB = []) →
      R (a ++ restA) a' → R (b ++ restB) b' → R (.ite c a b :: rest) [.ite c a' b'])
    (keep : ∀ {s rest rest'}, s.jumpsTo .breaking label false = false → R rest rest' →
      R (s :: rest) (s :: rest')) :
    R b out := by
  have harm {a a' : Block} (h : R a a') : R (a ++ []) a' := by rwa [List.append_nil]
  fun_induction liftBreaks label b generalizing out with
  | case1 =>
    cases h
    exact nil
  | case2 target rest htarget =>
    cases h
    exact leave htarget
  | case3 target rest htarget ih =>
    obtain ⟨later, hlater, rfl⟩ := Option.map_eq_some_iff.1 h
    refine keep ?_ (ih hlater)
    cases target <;> simp_all [jumpsTo, jumpTarget?]
  | case4 c a b rest _ hb ha hrest iha ihb =>
    obtain rfl := List.isEmpty_iff.1 hrest
    obtain ⟨a', b', hxa, hxb, rfl⟩ := ite_eq_some h
    exact branch [] [] (.inl rfl) (.inl rfl) (.inl ⟨rfl, rfl⟩) (harm (iha hxa)) (harm (ihb hxb))
  | case5 => cases h
  | case6 c a b rest _ hb ha iha ihb =>
    obtain ⟨a', b', hxa, hxb, rfl⟩ := ite_eq_some h
    exact branch [] [] (.inr ⟨rfl, ha⟩) (.inr ⟨rfl, hb⟩) (.inr (.inr ⟨rfl, rfl⟩)) (harm (iha hxa))
      (harm (ihb hxb))
  | case7 c a b rest _ hb ha iha ihb =>
    obtain ⟨a', b', hxa, hxb, rfl⟩ := ite_eq_some h
    exact branch rest [] (.inl rfl) (.inr ⟨rfl, hb⟩) (.inl ⟨rfl, rfl⟩) (iha hxa) (harm (ihb hxb))
  | case8 c a b rest _ hb ha iha ihb =>
    obtain ⟨a', b', hxa, hxb, rfl⟩ := ite_eq_some h
    exact branch [] rest (.inr ⟨rfl, ha⟩) (.inl rfl) (.inr (.inl ⟨rfl, rfl⟩))
      (harm (iha hxa)) (ihb hxb)
  | case9 c a b rest hbreaks ih =>
    obtain ⟨later, hlater, rfl⟩ := Option.map_eq_some_iff.1 h
    refine keep ?_ (ih hlater)
    simpa [jumpsTo, Block.breaksOutOf] using hbreaks
  | case10 => cases h
  | case11 s rest _ _ hbreaks ih =>
    obtain ⟨later, hlater, rfl⟩ := Option.map_eq_some_iff.1 h
    refine keep ?_ (ih hlater)
    simpa [Block.breaksOutOf, jumpsToList] using hbreaks

theorem lifts_of_liftBreaks (h : liftBreaks label b = some out) : Lifts label b out :=
  liftBreaks_induction h .nil .leave (fun _ _ ha hb _ => .branch ha hb) .keep

variable {s : Stmt} {around : List (Option Label)}

/-- The loops that are replaced have no condition, are never started again, and control never runs
on behind their bodies. -/
theorem singlePass?_eq_some (h : singlePass? s = some out) :
    ∃ label cond body, s = .loop label cond body ∧ cond.isTrue = true ∧
      Block.continues body label = false ∧ Block.completes body = false ∧
      Lifts label body out := by
  cases s <;> simp only [singlePass?] at h
  case loop label cond body =>
    split at h
    · rename_i hcond
      simp only [Bool.and_eq_true, Bool.not_eq_true'] at hcond
      exact ⟨label, cond, body, rfl, hcond.1.1, hcond.1.2, hcond.2, lifts_of_liftBreaks h⟩
    · cases h
  all_goals cases h

/-! ## Well-formedness -/

theorem jumpsToList_append {kind : LoopJump} {inner : Bool} {a : Block} :
    jumpsToList kind label inner (a ++ b) =
      (jumpsToList kind label inner a || jumpsToList kind label inner b) := by
  induction a with
  | nil => simp [jumpsToList]
  | cons s ss ih => simp [jumpsToList, ih, Bool.or_assoc]

/-- The body of a loop that is not continued does not need the loop once its breaks are taken
out. -/
theorem Lifts.wellNestedList (h : Lifts label b out) (hb : WellNestedList (label :: around) b)
    (hcont : jumpsToList .continuing label false b = false) : WellNestedList around out := by
  induction h with
  | nil => exact wellNestedList_nil
  | leave => exact wellNestedList_nil
  | @branch c a b rest restA restB a' b' ha hb' _ _ iha ihb =>
    simp only [wellNestedList_cons, wellNested_ite, jumpsToList, jumpsTo, Bool.or_eq_false_iff]
      at hb hcont
    -- The code that goes into an arm is that behind the branch, or nothing.
    have harm {x y : Block} (hx : y = rest ∨ y = [] ∧ Block.completes x = false)
        (hnest : WellNestedList (label :: around) x)
        (hx' : jumpsToList .continuing label false x = false) :
        WellNestedList (label :: around) (x ++ y) ∧
        jumpsToList .continuing label false (x ++ y) = false := by
      rcases hx with rfl | ⟨rfl, _⟩
      · simp [jumpsToList_append, hnest, hx', hb.2, hcont.2]
      · simp [hnest, hx']
    obtain ⟨hA, hcontA⟩ := harm ha hb.1.1 hcont.1.1
    obtain ⟨hB, hcontB⟩ := harm hb' hb.1.2 hcont.1.2
    simp [iha hA hcontA, ihb hB hcontB]
  | @keep s _ _ hs _ ih =>
    simp only [wellNestedList_cons, jumpsToList, Bool.or_eq_false_iff] at hb hcont ⊢
    have hin : WellNestedList (label :: around) [s] := by simpa using hb.1
    have hone : WellNestedList around [s] :=
      wellNestedList_remove [] hin (by simpa [jumpsToList] using hs)
      (by simpa [jumpsToList] using hcont.1)
    exact ⟨(wellNestedList_cons.1 hone).1, ih hb.2 hcont.2⟩

/-- Replacing a loop that runs once leaves no jump without its loop. -/
theorem wellNestedList_singlePass (h : singlePass? s = some out) (hs : s.WellNested around) :
    WellNestedList around out := by
  obtain ⟨label, cond, body, rfl, _, hcont, _, hlift⟩ := singlePass?_eq_some h
  exact hlift.wellNestedList (wellNested_loop.1 hs).2 hcont

/-! ## Meaning -/

section Meaning

variable {σ ν : Type} {S : Semantics σ ν}

/-- How a loop that runs once ends, given how its body does. -/
def Exit.leave (label : Option Label) : Exit ν → Exit ν
  | .breaking none => .normal
  | .breaking (some l) => if some l = label then .normal else .breaking (some l)
  | x => x

/-- A statement that does not break out of the loop ends as it did without the loop. -/
theorem leave_of_jumpsTo {x : Stmt} (hx : x.jumpsTo .breaking label false = false) {s : σ}
    {y : Exit ν} {t : σ} (h : x.meaning S s y t) : y.leave label = y := by
  have hnot (m : Option Label) (hm : m = none ∧ false = false ∨ m.isSome ∧ m = label) :
    y ≠ .breaking m := by
    rintro rfl
    have hlist : meaningList S [x] s (.breaking m) t := by
      rwa [meaningList_cons, meaningList_nil, seq_skip]
    have hjump : jumpsToList .breaking label false [x] = true :=
      jumpsToList_of_meaning [x] false hlist hm
    rw [jumpsToList, jumpsToList, Bool.or_false] at hjump
    rw [hx] at hjump
    cases hjump
  cases y with
  | breaking m =>
    cases m with
    | none => exact absurd rfl (hnot none (.inl ⟨rfl, rfl⟩))
    | some m =>
      rw [Exit.leave, if_neg]
      intro hm
      exact hnot (some m) (.inr ⟨rfl, hm⟩) rfl
  | _ => rfl

/-- A body without its breaks ends where the body with them leaves the loop. -/
theorem Lifts.meaningList_eq (h : Lifts label b out) :
    meaningList S out = .via (Exit.leave label) (meaningList S b) := by
  induction h with
  | nil => rw [meaningList_nil, via_skip rfl]
  | @leave target rest htarget =>
    have habrupt : ((Stmt.breakLoop target).meaning S).Abrupt := Stmt.abrupt_of_completes _ rfl
    rw [meaningList_cons, habrupt.seq_eq, meaning_of_blocks_eq_nil S rfl]
    refine ext fun s y t => ?_
    have hleave : (Exit.breaking target : Exit ν).leave label = .normal := by
      rcases htarget with rfl | rfl
      · rfl
      · cases target <;> simp [Exit.leave]
    constructor
    · rintro ⟨rfl, rfl⟩
      exact ⟨_, rfl, hleave⟩
    · rintro ⟨x, hx, rfl⟩
      cases hx
      exact ⟨hleave, rfl⟩
  | @branch c a b rest restA restB a' b' ha hb _ _ iha ihb =>
    -- Behind an arm that does not complete there is nothing to run.
    have harm {x y : Block} (hx : y = rest ∨ y = [] ∧ Block.completes x = false) :
        meaningList S (x ++ y) = .seq (meaningList S x) (meaningList S rest) := by
      rw [meaningList_append]
      rcases hx with rfl | ⟨rfl, hx⟩
      · rfl
      · rw [(abrupt_of_completesList x hx).seq_eq, (abrupt_of_completesList x hx).seq_eq]
    rw [meaningList_cons, meaningList_cons, meaningList_nil, seq_skip, meaning_ite,
      meaning_ite, iha, ihb, harm ha, harm hb, branch_seq, via_branch fun _ => rfl]
  | @keep s rest rest' hs _ ih =>
    rw [meaningList_cons, meaningList_cons, ih,
      via_seq_of_fixed fun _ _ _ h => leave_of_jumpsTo hs h]

/-- The body of a loop that is not continued and does not complete is run once. -/
theorem meaning_singlePass (h : singlePass? s = some out) : meaningList S out = s.meaning S := by
  obtain ⟨label, cond, body, rfl, hcond, hcont, hcomp, hlift⟩ := singlePass?_eq_some h
  rw [hlift.meaningList_eq, meaning_loop, Semantics.test_of_isTrue hcond]
  have hnot (m : Option Label) (hm : m = none ∧ false = false ∨ m.isSome ∧ m = label) {s t : σ} :
      ¬ meaningList S body s (.continuing m) t := by
    intro hbody
    have hjump : jumpsToList .continuing label false body = true :=
      jumpsToList_of_meaning body false hbody hm
    rw [Block.continues, hjump] at hcont
    cases hcont
  have hround {s : σ} {x : Exit ν} {t : σ} (hbody : meaningList S body s x t) :
      x.ofRound label = some (x.leave label) := by
    cases x with
    | normal => exact absurd hbody (abrupt_of_completesList body hcomp s t)
    | breaking m =>
      cases m with
      | none => rfl
      | some m =>
        simp only [Exit.ofRound, Exit.leave]
        split <;> rfl
    | continuing m =>
      cases m with
      | none => exact absurd hbody (hnot none (.inl ⟨rfl, rfl⟩))
      | some m =>
        rw [Exit.ofRound, if_neg]
        · rfl
        · intro hm
          exact hnot (some m) (.inr ⟨rfl, hm⟩) hbody
    | _ => rfl
  refine ext fun s y t => ?_
  rw [iter_once fun s x t hbody => by simp [hround hbody]]
  constructor
  · rintro ⟨x, hbody, rfl⟩
    exact ⟨x, hbody, hround hbody⟩
  · rintro ⟨x, hbody, hx⟩
    rw [hround hbody, Option.some.injEq] at hx
    exact ⟨x, hbody, hx⟩

end Meaning

end ByteLift
