import ByteLift.Proofs.Cleanup.Place

/-!
# The order in which declarations are placed

Where the declaration of a variable goes does not depend on the declarations that have been placed
before it. Two of them that go before the same statement stand side by side, the one placed last
first. Nothing else shows in which order they were placed, and no rule for branches looks at it.
-/

namespace ByteLift

open Block Cleanup Stmt

/-! ## Declarations side by side -/

/-- Two blocks that differ only in the order of bare declarations that stand side by side. -/
inductive Shuffled : Block → Block → Prop
  | refl (b : Block) : Shuffled b b
  | trans {a b c : Block} (hab : Shuffled a b) (hbc : Shuffled b c) : Shuffled a c
  | tail (s : Stmt) {ss ss' : Block} (h : Shuffled ss ss') : Shuffled (s :: ss) (s :: ss')
  | arms (c : Expr) (ss : Block) {a a' b b' : Block} (ha : Shuffled a a') (hb : Shuffled b b') :
    Shuffled (.ite c a b :: ss) (.ite c a' b' :: ss)
  | body (l : Option Label) (c : Expr) (ss : Block) {a a' : Block} (h : Shuffled a a') :
    Shuffled (.loop l c a :: ss) (.loop l c a' :: ss)
  | inner (ss : Block) {a a' : Block} (h : Shuffled a a') :
    Shuffled (.block a :: ss) (.block a' :: ss)
  | swap (v w : Var) (ss : Block) :
    Shuffled (.declare v none :: .declare w none :: ss) (.declare w none :: .declare v none :: ss)

theorem Stmt.mentions_declare_none (v w : Var) : (declare w none).mentions v = decide (w = v) := by
  rw [Bool.eq_iff_iff, mentions, mentions_iff]
  simp [uses_cons, ownUses, Stmt.exprs, eq_comm]

namespace Shuffled

variable {a b : Block}

/-- What exchanging two declarations does, exchanging any number of them does. -/
theorem of_congruent {R : Block → Block → Prop} (hR : Congruent R)
    (hswap : ∀ v w ss, R (.declare v none :: .declare w none :: ss)
      (.declare w none :: .declare v none :: ss))
    (h : Shuffled a b) : R a b := by
  induction h with
  | refl b => exact hR.refl b
  | trans _ _ ihab ihbc => exact hR.trans ihab ihbc
  | tail s _ ih => exact hR.tail s ih
  | arms c ss _ _ iha ihb => exact hR.arms c ss iha ihb
  | body l c ss _ ih => exact hR.body l c ss ih
  | inner ss _ ih => exact hR.inner ss ih
  | swap v w ss => exact hswap v w ss

theorem sameFirst (h : Shuffled a b) : SameFirst a b := by
  refine of_congruent congruent_sameFirst
    (fun v w ss => ⟨⟨fun u => ?_, fun x => ?_⟩, fun x => ?_⟩) h
  · simp [uses_cons, Stmt.ownUses, Stmt.exprs]
  · simp only [declared_declare, List.mem_cons]
    grind
  · simp only [setFirst_cons, isFreshSet]
    grind

end Shuffled

namespace Cleanup

/-- Blocks that look the same to the rule for turning branches round, with as many branches to be
turned. -/
structure SameTurnable (a b : Block) : Prop extends SameOutline a b where
  turnable : turnable b = turnable a

theorem congruent_sameTurnable : Congruent SameTurnable where
  refl b := ⟨congruent_sameOutline.refl b, rfl⟩
  trans hab hbc := ⟨congruent_sameOutline.trans hab.1 hbc.1, hbc.turnable.trans hab.turnable⟩
  tail s _ _ h := ⟨congruent_sameOutline.tail s h.1, by simp [h.turnable]⟩
  arms c ss _ _ _ _ ha hb := ⟨congruent_sameOutline.arms c ss ha.1 hb.1, by
    simp only [turnable_ite, isTurnable_congr ha.1 hb.1, ha.turnable, hb.turnable]⟩
  body l c ss _ _ h := ⟨congruent_sameOutline.body l c ss h.1, by simp [turnableStmt, h.turnable]⟩
  inner ss _ _ h := ⟨congruent_sameOutline.inner ss h.1, by simp [turnableStmt, h.turnable]⟩

theorem turnable_shuffled {a b : Block} (h : Shuffled a b) : turnable b = turnable a :=
  (h.of_congruent congruent_sameTurnable fun _ _ _ => ⟨⟨rfl, rfl⟩, by simp [turnableStmt]⟩).turnable

/-! ## One declaration behind another -/

variable {v w : Var} {s t : Stmt} {ss ss' a b : Block}

/-- The statements that a declaration is placed at and behind can be exchanged for others that look
the same. -/
theorem SameTarget.shuffled_place (h : SameTarget v s t) (hss : Shuffled ss ss')
    (hcons : ∀ {ss ss'}, Shuffled ss ss' → Shuffled (s :: ss) (t :: ss'))
    (hinto : Shuffled (putInto v s :: ss) (putInto v t :: ss'))
    (htail : Shuffled (place v ss) (place v ss')) :
    Shuffled (place v (s :: ss)) (place v (t :: ss')) := by
  simp only [place_cons, h.mentions, h.goesInto, hss.sameFirst.mentions]
  split
  · split
    · exact hinto
    · exact .tail _ (hcons hss)
  · exact hcons htail

/-- Placing a declaration respects the exchange of others. -/
theorem shuffled_place (h : Shuffled a b) (v : Var) : Shuffled (place v a) (place v b) := by
  induction h with
  | refl => exact .refl _
  | trans _ _ ihab ihbc => exact .trans ihab ihbc
  | tail s h ih => exact SameTarget.shuffled_place ⟨rfl, fun _ => rfl⟩ h (.tail s) (.tail _ h) ih
  | arms c ss ha hb iha ihb =>
    exact (SameTarget.arms c ha.sameFirst hb.sameFirst).shuffled_place (.refl ss)
      (fun h => .trans (.arms c _ ha hb) (.tail _ h)) (.arms c ss iha ihb) (.refl _)
  | body l c ss h ih =>
    exact (SameTarget.body l c h.sameFirst).shuffled_place (.refl ss)
      (fun hss => .trans (.body l c _ h) (.tail _ hss)) (.body l c ss ih) (.refl _)
  | inner ss h ih =>
    exact (SameTarget.inner h.sameFirst).shuffled_place (.refl ss)
      (fun hss => .trans (.inner _ h) (.tail _ hss)) (.inner ss ih) (.refl _)
  | swap u w ss =>
    by_cases hu : u = v <;> by_cases hw : w = v <;>
      simp only [place_cons, mentions_declare_none, goesInto, isFreshSet, hu, hw,
      decide_true, decide_false,
        if_true, if_false, Bool.false_eq_true]
    · exact .refl _
    · exact .trans (.tail _ (.swap v w ss)) (.swap v w _)
    · exact .trans (.swap u v _) (.tail _ (.swap u v ss))
    · exact .swap u w _

theorem shuffled_placeAll (h : Shuffled a b) (vs : List Var) :
    Shuffled (placeAll vs a) (placeAll vs b) := by
  induction vs generalizing a b with
  | nil => exact h
  | cons v vs ih => exact ih (shuffled_place h v)

/-- Placing a declaration changes no other statement, but for an assignment that becomes one with
it. -/
theorem Placed.hoist (h : Placed v a b) : hoist b = hoist a := by
  induction h with
  | absent => rfl
  | before => rfl
  | merged => rfl
  | later _ _ ih => exact hoist_cons_congr _ ih
  | thenArm _ _ _ _ ih | elseArm _ _ _ _ ih | body _ _ _ ih | inner _ _ ih =>
    simp [Cleanup.hoist, hoistIn, ih]

theorem hoist_placeAll (vs : List Var) (b : Block) : hoist (placeAll vs b) = hoist b := by
  induction vs generalizing b with
  | nil => rfl
  | cons v vs ih => exact (ih _).trans (placed_place v b).hoist

theorem Placed.mem_declared (h : Placed v a b) (hne : w ≠ v) : w ∈ b.declared ↔ w ∈ a.declared := by
  induction h with
  | absent => rfl
  | before => simp [hne]
  | merged => simp [hne, Stmt.set]
  | later _ _ ih => simp [declared_cons, ih]
  | thenArm _ _ _ _ ih | elseArm _ _ _ _ ih | body _ _ _ ih | inner _ _ ih => simp [ih]

theorem mentions_place (b : Block) (hne : w ≠ v) : (place v b).mentions w = b.mentions w := by
  have hplaced := placed_place v b
  rw [Bool.eq_iff_iff, mentions_iff, mentions_iff, ← uses_hoist, hplaced.hoist, uses_hoist]
  simp only [hplaced.mem_declared hne]

variable {later later' : Bool}

theorem goesInto_of_later (h : goesInto v later s = true) : goesInto v false s = true := by
  cases s <;> simp_all [goesInto]

theorem mentions_putInto (hs : s.mentions v = true) (h : goesInto v later s = true) (hne : w ≠ v) :
    (putInto v s).mentions w = s.mentions w := by
  have hplace : place v [s] = [putInto v s] := place_of_goesInto hs (goesInto_of_later h)
  have hmentions := mentions_place [s] hne
  rwa [hplace] at hmentions

theorem isFreshSet_eq_true (h : isFreshSet v s = true) : ∃ value, s = .set v value := by
  unfold isFreshSet at h
  split at h
  · rename_i w value
    simp only [Bool.and_eq_true, decide_eq_true_eq] at h
    exact ⟨value, by rw [h.1, Stmt.set]⟩
  · cases h

/-- A statement assigns one variable at most. -/
theorem eq_of_isFreshSet (hv : isFreshSet v s = true) (hw : isFreshSet w s = true) : w = v := by
  obtain ⟨value, rfl⟩ := isFreshSet_eq_true hv
  obtain ⟨_, heq⟩ := isFreshSet_eq_true hw
  cases heq
  rfl

theorem isFreshSet_putInto (h : goesInto v later s = true) (hne : w ≠ v) :
    isFreshSet w (putInto v s) = isFreshSet w s := by
  cases s with
  | expr e =>
    obtain ⟨value, hset⟩ := isFreshSet_eq_true (v := v) h
    have hfresh : isFreshSet w (.expr e) = false :=
      Bool.eq_false_iff.2 fun hw => hne (eq_of_isFreshSet (v := v) h hw)
    rw [hfresh, hset]
    rfl
  | _ => rfl

theorem setFirst_place (b : Block) (hne : w ≠ v) : setFirst w (place v b) = setFirst w b := by
  induction b with
  | nil => rfl
  | cons s ss ih =>
    rcases place_cases v s ss with ⟨hs, hinto, heq⟩ | ⟨-, heq⟩ | ⟨-, heq⟩
    · rw [heq, setFirst_cons, setFirst_cons, mentions_putInto hs hinto hne,
        isFreshSet_putInto hinto hne]
    · rw [heq, setFirst_cons, mentions_declare_none]
      simp [hne.symm]
    · rw [heq, setFirst_cons, setFirst_cons, ih]

/-- Where the declaration of a variable goes does not depend on that of another one. -/
theorem goesInto_putInto (h : goesInto v later s = true) (hne : w ≠ v) :
    goesInto w later' (putInto v s) = goesInto w later' s := by
  cases s with
  | ite c a b => simp [goesInto, putInto, mentions_place _ hne]
  | loop l c a => simp [goesInto, putInto, setFirst_place _ hne]
  | block a => rfl
  | expr e =>
    have hfresh := isFreshSet_putInto h hne
    cases e <;> exact hfresh
  | _ => rfl

theorem mentions_declare_of_ne (hne : w ≠ v) : (declare v none).mentions w = false := by
  simp [mentions_declare_none, hne.symm]

/-- If the first statement does not mention one of two variables, the declaration of that one goes
behind it. -/
theorem place_place_of_mentions_eq_false (hne : w ≠ v) (hs : s.mentions v = true)
    (hw : s.mentions w = false) : place w (place v (s :: ss)) = place v (place w (s :: ss)) := by
  have hmentions := mentions_place ss hne.symm
  rw [place_of_mentions_eq_false hw]
  rcases place_cases v s ss with ⟨-, hinto, heq⟩ | ⟨hbefore, heq⟩ | ⟨hs', -⟩
  · have hputs : (putInto v s).mentions w = false := (mentions_putInto hs hinto hne).trans hw
    rw [heq, place_of_mentions_eq_false hputs, place_of_goesInto hs (by rwa [hmentions])]
  · have hbefore' : goesBefore v (s :: place w ss) = true := by
      simpa [goesBefore, hmentions] using hbefore
    rw [heq, place_of_mentions_eq_false (mentions_declare_of_ne hne), place_of_mentions_eq_false hw,
      place_of_goesBefore hbefore']
  · simp [hs] at hs'

/-- If one declaration goes into the first statement, the other one goes before or into it as it
would anyway. -/
theorem place_place_of_goesBefore (hne : w ≠ v) (hs : s.mentions v = true)
    (hinto : goesInto v (ss.mentions v) s = true) (hbefore : goesBefore w (s :: ss) = true) :
    place w (place v (s :: ss)) = place v (place w (s :: ss)) := by
  have hbefore' : goesBefore w (putInto v s :: ss) = true := by
    simpa [goesBefore, mentions_putInto hs hinto hne, goesInto_putInto hinto hne] using hbefore
  rw [place_of_goesInto hs hinto, place_of_goesBefore hbefore', place_of_goesBefore hbefore,
    place_of_mentions_eq_false (mentions_declare_of_ne hne.symm), place_of_goesInto hs hinto]

/-- Two declarations that go into the same statement go into its blocks. -/
theorem shuffled_putInto (hne : w ≠ v) (hv : goesInto v later s = true)
    (hw : goesInto w later' s = true)
    (ih : ∀ a ∈ s.blocks, Shuffled (place w (place v a)) (place v (place w a))) (ss : Block) :
    Shuffled (putInto w (putInto v s) :: ss) (putInto v (putInto w s) :: ss) := by
  cases s with
  | ite c a b => exact .arms c ss (ih a (by simp)) (ih b (by simp))
  | loop l c a => exact .body l c ss (ih a (by simp))
  | block a => exact .inner ss (ih a (by simp))
  | expr e => exact absurd (eq_of_isFreshSet (v := v) hv hw) hne
  | _ => cases hv

/-- Two declarations may be placed in either order. -/
theorem shuffled_place_place (v w : Var) (b : Block) :
    Shuffled (place w (place v b)) (place v (place w b)) := by
  by_cases hne : w = v
  · rw [hne]
    exact .refl _
  induction b using nestedInduction with
  | nil => exact .refl _
  | cons s ss ihblocks ihss =>
    cases hs : s.mentions v with
    | false =>
      cases hw : s.mentions w with
      | false =>
        rw [place_of_mentions_eq_false hs, place_of_mentions_eq_false hw,
          place_of_mentions_eq_false hw, place_of_mentions_eq_false hs]
        exact .tail s ihss
      | true =>
        rw [place_place_of_mentions_eq_false (Ne.symm hne) hw hs]
        exact .refl _
    | true =>
      cases hw : s.mentions w with
      | false =>
        rw [place_place_of_mentions_eq_false hne hs hw]
        exact .refl _
      | true =>
        cases hv : goesInto v (ss.mentions v) s with
        | true =>
          cases hinto : goesInto w (ss.mentions w) s with
          | true =>
            rw [place_of_goesInto hs hv, place_of_goesInto hw hinto, place_of_goesInto,
              place_of_goesInto]
            · exact shuffled_putInto hne hv hinto ihblocks ss
            · exact (mentions_putInto hw hinto (Ne.symm hne)).trans hs
            · exact (goesInto_putInto hinto (Ne.symm hne)).trans hv
            · exact (mentions_putInto hs hv hne).trans hw
            · exact (goesInto_putInto hv hne).trans hinto
          | false =>
            rw [place_place_of_goesBefore hne hs hv (by simp [goesBefore, hw, hinto])]
            exact .refl _
        | false =>
          have hbefore : goesBefore v (s :: ss) = true := by simp [goesBefore, hs, hv]
          cases hinto : goesInto w (ss.mentions w) s with
          | true =>
            rw [place_place_of_goesBefore (Ne.symm hne) hw hinto hbefore]
            exact .refl _
          | false =>
            have hbefore' : goesBefore w (s :: ss) = true := by simp [goesBefore, hw, hinto]
            rw [place_of_goesBefore hbefore, place_of_goesBefore hbefore',
              place_of_mentions_eq_false (mentions_declare_of_ne hne), place_of_goesBefore hbefore',
              place_of_mentions_eq_false (mentions_declare_of_ne (Ne.symm hne)),
              place_of_goesBefore hbefore]
            exact .swap v w _

/-- The order in which declarations are placed only shows where they stand side by side. -/
theorem shuffled_placeAll_of_perm {vs ws : List Var} (h : vs.Perm ws) (b : Block) :
    Shuffled (placeAll vs b) (placeAll ws b) := by
  induction h generalizing b with
  | nil => exact .refl b
  | cons v _ ih => exact ih (place v b)
  | swap v w vs => exact shuffled_placeAll (shuffled_place_place w v b) vs
  | trans _ _ ihab ihbc => exact .trans (ihab b) (ihbc b)

end Cleanup

end ByteLift
