import ByteLift.Proofs.Cleanup.Turn

/-!
# Where a declaration goes

A declaration goes into the first statement that mentions its variable, or before it. Turning
branches round and placing other declarations do not change which, so the order in which
declarations are placed only shows in the order of those that end up side by side.
-/

namespace ByteLift

variable {v : Var} {s : Stmt} {ss a b : Block} {vars : VarTable}

namespace Cleanup

open Block

/-! ## Into a statement or before it -/

/-- Whether the declaration of a variable goes into a statement that mentions it, rather than before
it. `later` says that a statement behind this one mentions the variable too. -/
def goesInto (v : Var) (later : Bool) : Stmt → Bool
  | .ite c a b => !later && !c.mentions v && (Block.mentions a v != Block.mentions b v)
  | .loop _ c a => !later && !c.mentions v && setFirst v a
  | .block _ => !later
  | s => isFreshSet v s

/-- A statement with the declaration of a variable inside it. -/
def putInto (v : Var) : Stmt → Stmt
  | .expr (.assign _ value) => .declare v (some value)
  | .ite c a b => .ite c (place v a) (place v b)
  | .loop l c a => .loop l c (place v a)
  | .block a => .block (place v a)
  | s => s

theorem place_eq_self (h : b.mentions v = false) : place v b = b := by
  induction b with
  | nil => rfl
  | cons s ss ih =>
    rw [mentions_cons, Bool.or_eq_false_iff] at h
    simp [place, h.1, ih h.2]

theorem declareAt_eq (hs : s.blocks = []) :
    declareAt v s = if isFreshSet v s then [putInto v s] else [.declare v none, s] := by
  unfold declareAt
  split
  · rfl
  · rename_i hassign
    have hfresh : isFreshSet v s = false := by
      unfold isFreshSet
      split
      · exact absurd rfl (hassign _ _)
      · rfl
    simp [hfresh]

/-- Where the declaration goes. -/
theorem place_cons (v : Var) (s : Stmt) (ss : Block) : place v (s :: ss) =
    if s.mentions v then
      if goesInto v (ss.mentions v) s then putInto v s :: ss else .declare v none :: s :: ss
    else s :: place v ss := by
  rw [place]
  split
  · cases s with
    | ite c a b =>
      cases hss : ss.mentions v with
      | true => simp [goesInto, declareAt]
      | false =>
        rw [placeIn]
        cases hc : c.mentions v with
        | true => simp [goesInto, hc]
        | false =>
          cases ha : Block.mentions a v <;> cases hb : Block.mentions b v <;>
            simp [goesInto, putInto, hc, ha, hb, place_eq_self]
    | loop l c a =>
      cases hss : ss.mentions v with
      | true => simp [goesInto, declareAt]
      | false =>
        cases hc : c.mentions v <;> cases hset : setFirst v a <;>
          simp [placeIn, goesInto, putInto, hc, hset]
    | block a => cases hss : ss.mentions v <;> simp [goesInto, putInto, declareAt, placeIn]
    | expr | declare | breakLoop | continueLoop | ret | throw | label | goto =>
      simp only [placeIn, ite_self, goesInto]
      rw [declareAt_eq rfl]
      split
      · rename_i hfresh
        simp [hfresh]
      · rename_i hfresh
        simp [hfresh]
  · rfl

theorem place_of_goesInto (hs : s.mentions v = true) (h : goesInto v (ss.mentions v) s = true) :
    place v (s :: ss) = putInto v s :: ss := by
  rw [place_cons, if_pos hs, if_pos h]

theorem place_of_mentions_eq_false (hs : s.mentions v = false) :
    place v (s :: ss) = s :: place v ss := by
  rw [place_cons, if_neg (by simp [hs])]

/-- Whether the declaration of a variable goes before the first statement of a block. -/
def goesBefore (v : Var) : Block → Bool
  | [] => false
  | s :: ss => s.mentions v && !goesInto v (Block.mentions ss v) s

theorem place_of_goesBefore (h : goesBefore v b = true) : place v b = .declare v none :: b := by
  cases b with
  | nil => cases h
  | cons s ss =>
    simp only [goesBefore, Bool.and_eq_true, Bool.not_eq_true'] at h
    simp [place_cons, h.1, h.2]

/-- How the declaration of a variable comes into a block. -/
theorem place_cases (v : Var) (s : Stmt) (ss : Block) :
    (s.mentions v = true ∧ goesInto v (ss.mentions v) s = true ∧
      place v (s :: ss) = putInto v s :: ss) ∨
      (goesBefore v (s :: ss) = true ∧ place v (s :: ss) = .declare v none :: s :: ss) ∨
      (s.mentions v = false ∧ place v (s :: ss) = s :: place v ss) := by
  cases hs : s.mentions v with
  | false => exact .inr (.inr ⟨rfl, place_of_mentions_eq_false hs⟩)
  | true =>
    cases hinto : goesInto v (ss.mentions v) s with
    | true => exact .inl ⟨rfl, rfl, place_of_goesInto hs hinto⟩
    | false =>
      have hbefore : goesBefore v (s :: ss) = true := by simp [goesBefore, hs, hinto]
      exact .inr (.inl ⟨hbefore, place_of_goesBefore hbefore⟩)

theorem setFirst_cons (v : Var) (s : Stmt) (ss : Block) :
    setFirst v (s :: ss) = if s.mentions v then isFreshSet v s else setFirst v ss := by
  unfold setFirst
  cases hs : s.mentions v <;> simp [hs]

/-! ## Branches that are turned round -/

theorem mentions_negate (vars : VarTable) (c : Expr) (v : Var) :
    (c.negate vars).mentions v = c.mentions v := by
  simp [Expr.mentions]

/-- Two blocks that look the same to the rules for placing declarations. -/
structure SameFirst (a b : Block) : Prop extends SameVars a b where
  setFirst : ∀ v, setFirst v b = setFirst v a

theorem congruent_sameFirst : Congruent SameFirst where
  refl b := ⟨congruent_sameVars.refl b, fun _ => rfl⟩
  trans hab hbc :=
    ⟨congruent_sameVars.trans hab.1 hbc.1, fun v => (hbc.setFirst v).trans (hab.setFirst v)⟩
  tail s _ _ h := ⟨congruent_sameVars.tail s h.1, fun v => by simp [setFirst_cons, h.setFirst]⟩
  arms c ss _ _ _ _ ha hb := ⟨congruent_sameVars.arms c ss ha.1 hb.1, fun v => by
    simp [setFirst_cons, Stmt.mentions_ite, ha.mentions, hb.mentions, isFreshSet]⟩
  body l c ss _ _ h := ⟨congruent_sameVars.body l c ss h.1, fun v => by
    simp [setFirst_cons, Stmt.mentions_loop, h.mentions, isFreshSet]⟩
  inner ss _ _ h := ⟨congruent_sameVars.inner ss h.1, fun v => by
    simp [setFirst_cons, Stmt.mentions_block, h.mentions, isFreshSet]⟩

/-- Two statements of which each can stand for the other where a declaration of the variable is
placed. -/
structure SameTarget (v : Var) (s t : Stmt) : Prop where
  mentions : t.mentions v = s.mentions v
  goesInto : ∀ later, goesInto v later t = goesInto v later s

namespace SameTarget

variable {a' b' : Block} {t : Stmt}

theorem arms (c : Expr) (ha : SameFirst a a') (hb : SameFirst b b') :
    SameTarget v (.ite c a b) (.ite c a' b') where
  mentions := by simp [Stmt.mentions_ite, ha.mentions, hb.mentions]
  goesInto later := by simp [Cleanup.goesInto, ha.mentions, hb.mentions]

theorem body (l : Option Label) (c : Expr) (ha : SameFirst a a') :
    SameTarget v (.loop l c a) (.loop l c a') where
  mentions := by simp [Stmt.mentions_loop, ha.mentions]
  goesInto later := by simp [Cleanup.goesInto, ha.setFirst]

theorem inner (ha : SameFirst a a') : SameTarget v (.block a) (.block a') where
  mentions := by simp [Stmt.mentions_block, ha.mentions]
  goesInto _ := rfl

theorem turn (vars : VarTable) (c : Expr) (a b : Block) :
    SameTarget v (.ite c a b) (.ite (c.negate vars) b a) where
  mentions := by simp [Stmt.mentions_ite, mentions_negate, Bool.or_comm (Block.mentions a v)]
  goesInto later := by simp [Cleanup.goesInto, mentions_negate, bne_comm (a := Block.mentions a v)]

theorem goesBefore (h : SameTarget v s t) (ss : Block) :
    goesBefore v (t :: ss) = goesBefore v (s :: ss) := by
  simp [Cleanup.goesBefore, h.mentions, h.goesInto]

end SameTarget

end Cleanup

open Cleanup in
theorem Turned.sameFirst (h : Turned vars a b) : SameFirst a b := by
  refine of_congruent congruent_sameFirst
    (fun c a b ss => ⟨sameVars (.turn c a b ss), fun v => ?_⟩) h
  simp [setFirst_cons, (SameTarget.turn vars c a b).mentions, isFreshSet]

namespace Cleanup

theorem goesBefore_turned (h : Turned vars a b) (v : Var) : goesBefore v b = goesBefore v a := by
  induction h with
  | refl => rfl
  | trans _ _ ihab ihbc => exact ihbc.trans ihab
  | tail s h => simp [goesBefore, h.sameVars.mentions]
  | arms c ss ha hb => exact (SameTarget.arms c ha.sameFirst hb.sameFirst).goesBefore ss
  | body l c ss h => exact (SameTarget.body l c h.sameFirst).goesBefore ss
  | inner ss h => exact (SameTarget.inner h.sameFirst).goesBefore ss
  | turn c a b ss => exact (SameTarget.turn vars c a b).goesBefore ss

variable {c : Expr} {p : Block}

theorem putInto_eq_ite (h : .ite c a b = putInto v s) :
    ∃ a₀ b₀, s = .ite c a₀ b₀ ∧ a = place v a₀ ∧ b = place v b₀ := by
  cases s with
  | ite c a₀ b₀ =>
    cases h
    exact ⟨a₀, b₀, rfl, rfl, rfl⟩
  | expr e => cases e <;> cases h
  | _ => cases h

theorem putInto_eq_loop {l : Option Label} (h : .loop l c a = putInto v s) :
    ∃ a₀, s = .loop l c a₀ ∧ a = place v a₀ := by
  cases s with
  | loop l c a₀ =>
    cases h
    exact ⟨a₀, rfl, rfl⟩
  | expr e => cases e <;> cases h
  | _ => cases h

theorem putInto_eq_block (h : .block a = putInto v s) : ∃ a₀, s = .block a₀ ∧ a = place v a₀ := by
  cases s with
  | block a₀ =>
    cases h
    exact ⟨a₀, rfl, rfl⟩
  | expr e => cases e <;> cases h
  | _ => cases h

/-- If the first statement is turned behind the placing of a declaration, it can be turned before
it. -/
theorem SameTarget.exists_place {s' : Stmt} (h : SameTarget v s s')
    (hturned : ∀ ss, Turned vars (s :: ss) (s' :: ss))
    (hblocks : s.blocks ≠ []) (hinto : ∀ t, s = putInto v t →
      ∃ t', s' = putInto v t' ∧ SameTarget v t t' ∧ ∀ ss, Turned vars (t :: ss) (t' :: ss))
    {p : Block} (hp : s :: ss = place v p) : ∃ q, Turned vars p q ∧ s' :: ss = place v q := by
  cases p with
  | nil => cases hp
  | cons t ts =>
    rcases place_cases v t ts with ⟨ht, hgoes, heq⟩ | ⟨-, heq⟩ | ⟨ht, heq⟩
    · rw [heq] at hp
      injection hp with hs hss
      obtain ⟨t', rfl, htarget, hturned'⟩ := hinto t hs
      refine ⟨t' :: ts, hturned' ts, ?_⟩
      rw [place_of_goesInto (htarget.mentions.trans ht) ((htarget.goesInto _).trans hgoes), hss]
    · rw [heq] at hp
      cases hp
      exact absurd rfl hblocks
    · rw [heq] at hp
      cases hp
      exact ⟨s' :: ts, hturned ts, (place_of_mentions_eq_false (h.mentions.trans ht)).symm⟩

/-- Turning branches round behind the placing of a declaration is the same as before it. -/
theorem exists_of_turned_place (h : Turned vars a b) :
    ∀ p, a = place v p → ∃ q, Turned vars p q ∧ b = place v q := by
  induction h with
  | refl => exact fun p hp => ⟨p, .refl p, hp⟩
  | trans _ _ ihab ihbc =>
    intro p hp
    obtain ⟨q, hq, rfl⟩ := ihab p hp
    obtain ⟨r, hr, rfl⟩ := ihbc q rfl
    exact ⟨r, .trans hq hr, rfl⟩
  | @tail s ss ss' h ih =>
    rintro (_ | ⟨t, ts⟩) hp
    · cases hp
    rcases place_cases v t ts with ⟨ht, hinto, heq⟩ | ⟨hbefore, heq⟩ | ⟨ht, heq⟩ <;>
      rw [heq] at hp <;> cases hp
    · refine ⟨t :: ss', .tail t h, ?_⟩
      rw [place_of_goesInto ht (by rwa [h.sameVars.mentions])]
    · refine ⟨ss', h, ?_⟩
      rw [place_of_goesBefore ((goesBefore_turned h v).trans hbefore)]
    · obtain ⟨q, hq, rfl⟩ := ih ts rfl
      exact ⟨s :: q, .tail s hq, (place_of_mentions_eq_false ht).symm⟩
  | arms c ss ha hb iha ihb =>
    intro p
    refine (SameTarget.arms c ha.sameFirst hb.sameFirst).exists_place (fun ss => .arms c ss ha hb)
      (by simp) fun t ht => ?_
    obtain ⟨a₀, b₀, rfl, heqa, heqb⟩ := putInto_eq_ite ht
    obtain ⟨a₁, ha₁, rfl⟩ := iha a₀ heqa
    obtain ⟨b₁, hb₁, rfl⟩ := ihb b₀ heqb
    exact ⟨.ite c a₁ b₁, rfl, .arms c ha₁.sameFirst hb₁.sameFirst, fun ss => .arms c ss ha₁ hb₁⟩
  | body l c ss h ih =>
    intro p
    refine (SameTarget.body l c h.sameFirst).exists_place (fun ss => .body l c ss h) (by simp)
      fun t ht => ?_
    obtain ⟨a₀, rfl, heq⟩ := putInto_eq_loop ht
    obtain ⟨a₁, ha₁, rfl⟩ := ih a₀ heq
    exact ⟨.loop l c a₁, rfl, .body l c ha₁.sameFirst, fun ss => .body l c ss ha₁⟩
  | inner ss h ih =>
    intro p
    refine (SameTarget.inner h.sameFirst).exists_place (fun ss => .inner ss h) (by simp)
      fun t ht => ?_
    obtain ⟨a₀, rfl, heq⟩ := putInto_eq_block ht
    obtain ⟨a₁, ha₁, rfl⟩ := ih a₀ heq
    exact ⟨.block a₁, rfl, .inner ha₁.sameFirst, fun ss => .inner ss ha₁⟩
  | turn c a b ss =>
    intro p
    refine (SameTarget.turn vars c a b).exists_place (.turn c a b) (by simp) fun t ht => ?_
    obtain ⟨a₀, b₀, rfl, rfl, rfl⟩ := putInto_eq_ite ht
    exact ⟨.ite (c.negate vars) b₀ a₀, rfl, .turn vars c a₀ b₀, .turn c a₀ b₀⟩

theorem exists_of_turned_placeAll {vs : List Var} (h : Turned vars (placeAll vs p) b) :
    ∃ q, Turned vars p q ∧ b = placeAll vs q := by
  induction vs generalizing p with
  | nil => exact ⟨b, h, rfl⟩
  | cons v vs ih =>
    obtain ⟨q, hq, rfl⟩ := ih h
    obtain ⟨r, hr, rfl⟩ := exists_of_turned_place hq p rfl
    exact ⟨r, hr, rfl⟩

end Cleanup

end ByteLift
