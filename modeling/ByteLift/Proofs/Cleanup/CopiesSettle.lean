import ByteLift.Proofs.Cleanup.Turn

/-!
# Copies are replaced once and for all

What is read in place of a copy is no copy itself. So a body in which copies have been replaced has
none left to replace, and that stays so when branches are turned round: behind a branch a copy holds
if it does behind both arms, whichever of them comes first.
-/

namespace ByteLift

open Tracked

variable {c d : Copies} {v : Var} {s : Stmt} {ss a b : Block}

namespace Cleanup

open Block

variable {w : Var}

/-! ## Lists of copies -/

/-- No variable is a copy of two others, and none is a copy of a copy. -/
structure Copies.WellFormed (c : Copies) : Prop where
  keyed : ∀ {v u u'}, (v, u) ∈ c → (v, u') ∈ c → u = u'
  flat : ∀ {v u u'}, (v, u) ∈ c → (u, u') ∉ c

/-- Two lists with the same copies. -/
def Copies.Same (c d : Copies) : Prop := ∀ e, e ∈ d ↔ e ∈ c

namespace Copies

theorem wellFormed_nil : WellFormed [] := ⟨by simp, by simp⟩

theorem WellFormed.subset (h : c.WellFormed) (hsub : d ⊆ c) : d.WellFormed :=
  ⟨fun hu hu' => h.keyed (hsub hu) (hsub hu'), fun hu hu' => h.flat (hsub hu) (hsub hu')⟩

theorem source?_eq_none : c.source? v = none ↔ ∀ u, (v, u) ∉ c := by
  rw [source?, Option.map_eq_none_iff, List.find?_eq_none]
  constructor
  · exact fun h u hu => h (v, u) hu (by simp)
  · rintro h ⟨v', u⟩ hu heq
    obtain rfl : v' = v := by simpa using heq
    exact h u hu

variable {u : Var} {e : Var × Var}

theorem WellFormed.source? (h : c.WellFormed) : c.source? v = some u ↔ (v, u) ∈ c := by
  refine ⟨mem_of_source?, fun hu => ?_⟩
  cases hsource : c.source? v with
  | none => exact absurd hu (source?_eq_none.1 hsource u)
  | some u' => rw [h.keyed hu (mem_of_source? hsource)]

theorem substitute_eq_none : c.substitute v = none ↔ ∀ u, (v, u) ∉ c := by
  rw [substitute, Option.map_eq_none_iff, source?_eq_none]

theorem Same.substitute (h : c.Same d) (hc : c.WellFormed) : d.substitute = c.substitute := by
  have hd : d.WellFormed := hc.subset fun e => (h e).1
  funext v
  have hsource : d.source? v = c.source? v := Option.ext fun u => by rw [hd.source?, hc.source?, h]
  rw [Copies.substitute, Copies.substitute, hsource]

theorem killAll_congr {vs ws : List Var} (h : ∀ v, v ∈ ws ↔ v ∈ vs) :
    c.killAll ws = c.killAll vs := by
  have hfilter (vs : List Var) : c.killAll vs = c.filter fun e => e.1 ∉ vs && e.2 ∉ vs := by
    unfold killAll
    induction vs generalizing c with
    | nil => exact (List.filter_eq_self.2 fun _ _ => by simp).symm
    | cons v vs ih =>
      rw [List.foldl_cons, ih, kill, List.filter_filter]
      congr 1
      funext e
      grind
  simp only [hfilter, h]

theorem Same.killAll (h : c.Same d) (vs : List Var) : (c.killAll vs).Same (d.killAll vs) := by
  intro e
  rw [mem_killAll, mem_killAll, h e]

theorem killAll_subset (c : Copies) (vs : List Var) : c.killAll vs ⊆ c :=
  fun _ he => (mem_killAll.1 he).1

theorem mem_add (hne : v ≠ u) : e ∈ c.add v u ↔ e = (v, u) ∨ e ∈ c ∧ e.1 ≠ v := by
  simp [add, hne]

theorem Same.add (h : c.Same d) (v u : Var) : (c.add v u).Same (d.add v u) := by
  by_cases hne : v = u
  · simpa [Copies.add, hne] using h
  · intro e
    rw [mem_add hne, mem_add hne, h]

theorem Same.after (h : c.Same d) (s : Stmt) : (c.after s).Same (d.after s) := by
  have hkill := h.killAll (s.declared?.toList ++ written [s])
  unfold Copies.after
  dsimp only
  split
  · exact hkill.add _ _
  · exact hkill

theorem mem_meet (hd : d.WellFormed) : e ∈ c.meet d ↔ e ∈ c ∧ e ∈ d := by
  simp [meet, hd.source?]

theorem join_subset (c d : Copies) (x y : Bool) : c.join x d y ⊆ c ∨ c.join x d y ⊆ d := by
  cases x <;> cases y
  · exact .inl (List.nil_subset _)
  · exact .inr (List.Subset.refl _)
  · exact .inl (List.Subset.refl _)
  · exact .inl (List.filter_sublist.subset)

theorem WellFormed.join (hc : c.WellFormed) (hd : d.WellFormed) (x y : Bool) :
    (c.join x d y).WellFormed :=
  (join_subset c d x y).elim hc.subset hd.subset

theorem Same.join {c' d' : Copies} (hc : c.Same c') (hd : d.Same d') (hwf : d.WellFormed)
    (x y : Bool) : (c.join x d y).Same (c'.join x d' y) := by
  have hwf' : d'.WellFormed := hwf.subset fun e => (hd e).1
  intro e
  cases x <;> cases y
  · rfl
  · exact hd e
  · exact hc e
  · rw [Copies.join, Copies.join, mem_meet hwf, mem_meet hwf', hc, hd]

/-- Which arm comes first does not matter. -/
theorem same_join_comm (hc : c.WellFormed) (hd : d.WellFormed) (x y : Bool) :
    (c.join x d y).Same (d.join y c x) := by
  intro e
  cases x <;> cases y
  · rfl
  · rfl
  · rfl
  · rw [join, join, mem_meet hc, mem_meet hd, and_comm]

theorem WellFormed.add (hc : c.WellFormed) (hu : ∀ w, (u, w) ∉ c) (hv : ∀ e ∈ c, e.2 ≠ v) :
    (c.add v u).WellFormed := by
  by_cases hne : v = u
  · simpa [Copies.add, hne] using hc
  constructor
  · intro x y z hy hz
    rcases (mem_add hne).1 hy with hy | ⟨hy, hyv⟩ <;> rcases (mem_add hne).1 hz with hz | ⟨hz, hzv⟩
    · cases hy
      cases hz
      rfl
    · cases hy
      exact absurd rfl hzv
    · cases hz
      exact absurd rfl hyv
    · exact hc.keyed hy hz
  · intro x y z hy hz
    rcases (mem_add hne).1 hy with hy | ⟨hy, -⟩ <;> rcases (mem_add hne).1 hz with hz | ⟨hz, -⟩
    · cases hy
      cases hz
      exact hne rfl
    · cases hy
      exact hu z hz
    · cases hz
      exact hv _ hy rfl
    · exact hc.flat hy hz

/-- Behind a statement that reads no copies the list is well-formed. -/
theorem WellFormed.after (hc : c.WellFormed)
    (hs : ∀ v, .read v ∈ s.ownUses → c.substitute v = none) : (c.after s).WellFormed := by
  have hkill := hc.subset (killAll_subset c (s.declared?.toList ++ written [s]))
  unfold Copies.after
  dsimp only
  split
  · rename_i v u hassign
    have hread : .read u ∈ s.ownUses ∧ .write v ∈ s.ownUses := by
      rcases Stmt.eq_of_assignment? hassign with rfl | rfl <;>
        simp [Stmt.ownUses, Stmt.set, Stmt.exprs, Expr.uses, Expr.usesAs]
    refine hkill.add (fun w hw => ?_) fun e he hev => ?_
    · exact substitute_eq_none.1 (hs u hread.1) w (killAll_subset _ _ hw)
    · refine (mem_killAll.1 he).2.2 (List.mem_append_right _ (mem_written.2 ?_))
      rw [hev, uses_cons, List.mem_append]
      exact .inl hread.2
  · exact hkill

end Copies

/-! ## What is read in place of a copy -/

/-- Once copies have been replaced in a statement, it reads none. -/
theorem Copies.WellFormed.substitute_of_replaced (hc : c.WellFormed) {us : List Use}
    (h : .read v ∈ us.flatMap (Use.replaced c.substitute)) : c.substitute v = none := by
  obtain ⟨x, -, hx⟩ := List.mem_flatMap.1 h
  cases x with
  | write w => simp [Use.replaced] at hx
  | read w =>
    cases hw : c.source? w with
    | none =>
      obtain rfl : v = w := by simpa [Use.replaced, Copies.substitute, hw] using hx
      simp [Copies.substitute, hw]
    | some u =>
      obtain rfl : v = u := by
        simpa [Use.replaced, Copies.substitute, hw, Expr.uses, Expr.usesAs] using hx
      exact Copies.substitute_eq_none.2 fun u' => hc.flat (Copies.mem_of_source? hw)

theorem replaceReads_again (hc : c.WellFormed) (e : Expr) :
    (e.replaceReads c.substitute).val.replaceReads c.substitute =
      pure (e.replaceReads c.substitute).val := by
  refine Expr.replaceReads_eq_pure fun v hv => ?_
  rw [Expr.uses_replaceReads] at hv
  exact hc.substitute_of_replaced hv

theorem read_replaceStmtReads (hc : c.WellFormed) (s : Stmt) :
    ∀ v, .read v ∈ (replaceStmtReads c.substitute s).val.ownUses → c.substitute v = none := by
  intro v hv
  rw [ownUses_replaceStmtReads] at hv
  exact hc.substitute_of_replaced hv

theorem congruent_sameWrites : Congruent fun a b => ∀ u, .write u ∈ b.uses ↔ .write u ∈ a.uses := by
  refine .of_hole (fun _ _ => .rfl) (fun hab hbc u => (hbc u).trans (hab u)) fun hK h => ?_
  obtain ⟨_, _, huses⟩ := hK.uses
  simp [huses, h]

theorem write_mem_copyBlock (c : Copies) (b : Block) (u : Var) :
    .write u ∈ Block.uses (copyBlock c b).val.1 ↔ .write u ∈ b.uses := by
  refine congruent_sameWrites.copyBlock (fun c s ss u => ?_) c b u
  simp only [uses_cons, List.mem_append, write_mem_replaceStmtReads isWriteFree_substitute,
    blocks_replaceStmtReads]

theorem killAll_written_copyBlock (c d : Copies) (b : Block) :
    d.killAll (written (copyBlock c b).val.1) = d.killAll b.written :=
  Copies.killAll_congr fun v => by rw [mem_written, mem_written, write_mem_copyBlock]

theorem copyStmt_again_of_blocks_eq_nil (hs : s.blocks = []) (hc : c.WellFormed) :
    copyStmt c (copyStmt c s).val.1 = pure (copyStmt c s).val ∧
    (copyStmt c s).val.2.WellFormed := by
  have hread := read_replaceStmtReads hc s
  rw [copyStmt_of_blocks_eq_nil hs, val_map]
  constructor
  · rw [copyStmt_of_blocks_eq_nil ((blocks_replaceStmtReads _ s).trans hs),
      replaceStmtReads_eq_pure hread, map_pure]
  · exact hc.after hread

/-- A second walk with the same copies changes nothing. -/
theorem copyBlock_again (c : Copies) (b : Block) (hc : c.WellFormed) :
    copyBlock c (copyBlock c b).val.1 = pure (copyBlock c b).val ∧
    (copyBlock c b).val.2.WellFormed := by
  induction b using nestedInduction generalizing c with
  | nil => exact ⟨rfl, hc⟩
  | cons s ss ihblocks ihss =>
    have hstmt : copyStmt c (copyStmt c s).val.1 = pure (copyStmt c s).val ∧
      (copyStmt c s).val.2.WellFormed := by
      cases s with
      | ite cond a b =>
        obtain ⟨ha, hwfa⟩ := ihblocks a (by simp) c hc
        obtain ⟨hb, hwfb⟩ := ihblocks b (by simp) c hc
        exact ⟨by simp [copyStmt, replaceReads_again hc, ha, hb], hwfa.join hwfb _ _⟩
      | loop l cond a =>
        have hkill := hc.subset (Copies.killAll_subset c (written a))
        have ha := (ihblocks a (by simp) _ hkill).1
        exact ⟨by simp [copyStmt, killAll_written_copyBlock, replaceReads_again hkill, ha], hkill⟩
      | block a =>
        obtain ⟨ha, hwfa⟩ := ihblocks a (by simp) c hc
        exact ⟨by simp [copyStmt, ha], hwfa⟩
      | _ => exact copyStmt_again_of_blocks_eq_nil rfl hc
    obtain ⟨hss, hwf⟩ := ihss _ hstmt.2
    exact ⟨by simp [copyBlock, hstmt.1, hss], hwf⟩

theorem wellFormed_copyStmt (hc : c.WellFormed) (s : Stmt) : (copyStmt c s).val.2.WellFormed :=
  (copyBlock_again c [s] hc).2

/-- A body in which copies have been replaced has none left to replace. -/
theorem propagateCopies_again (b : Block) :
    (propagateCopies (propagateCopies b).val).changed = false := by
  have h := (copyBlock_again [] b Copies.wellFormed_nil).1
  simp [propagateCopies, h]

/-! ## Branches that are turned round -/

end Cleanup

namespace Block

theorem completes_of_isEmpty (h : b.isEmpty = true) : Stmt.completesList b = true := by
  rw [List.isEmpty_iff.1 h]
  rfl

theorem completes_ite (c : Expr) (a b : Block) :
    (Stmt.ite c a b).completes = (Stmt.completesList a || Stmt.completesList b) := by
  rw [Stmt.completes]
  cases hb : List.isEmpty b with
  | false => rfl
  | true => simp [completes_of_isEmpty hb]

/-- Two blocks that control can leave in the same ways. -/
structure SameExits (a b : Block) : Prop where
  completes : Stmt.completesList b = Stmt.completesList a
  jumps : ∀ kind l inner, Stmt.jumpsToList kind l inner b = Stmt.jumpsToList kind l inner a

theorem congruent_sameExits : Congruent SameExits where
  refl _ := ⟨rfl, fun _ _ _ => rfl⟩
  trans hab hbc :=
    ⟨hbc.completes.trans hab.completes, fun k l i => (hbc.jumps k l i).trans (hab.jumps k l i)⟩
  tail s _ _ h :=
    ⟨by simp [Stmt.completesList, h.completes], fun k l i => by simp [Stmt.jumpsToList, h.jumps]⟩
  arms c ss _ _ _ _ ha hb := by
    constructor
    · simp [Stmt.completesList, completes_ite, ha.completes, hb.completes]
    · simp [Stmt.jumpsToList, Stmt.jumpsTo, ha.jumps, hb.jumps]
  body l c ss _ _ h := by
    constructor
    · simp [Stmt.completesList, Stmt.completes, breaksOutOf, h.jumps]
    · simp [Stmt.jumpsToList, Stmt.jumpsTo, h.jumps]
  inner ss _ _ h := by
    constructor
    · simp [Stmt.completesList, Stmt.completes, h.completes]
    · simp [Stmt.jumpsToList, Stmt.jumpsTo, h.jumps]

end Block

open Block in
theorem Turned.sameExits {vars : VarTable} (h : Turned vars a b) : SameExits a b := by
  refine of_congruent congruent_sameExits (fun c a b ss => ⟨?_, fun k l i => ?_⟩) h
  · simp [Stmt.completesList, completes_ite, Bool.or_comm]
  · simp [Stmt.jumpsToList, Stmt.jumpsTo, Bool.or_comm]

namespace Cleanup

open Block

variable {s' : Stmt} {a' b' : Block} {vars : VarTable}

/-- Two outcomes that differ only in the order in which copies are listed. -/
structure SameOutcome {α : Type} (x y : Tracked (α × Copies)) : Prop where
  val : y.val.1 = x.val.1
  changed : y.changed = x.changed
  same : x.val.2.Same y.val.2

theorem sameOutcome_of_blocks_eq_nil (hs : s.blocks = []) (hc : c.WellFormed) (hcd : c.Same d) :
    SameOutcome (copyStmt c s) (copyStmt d s) := by
  rw [copyStmt_of_blocks_eq_nil hs, copyStmt_of_blocks_eq_nil hs, hcd.substitute hc]
  exact ⟨rfl, rfl, hcd.after (replaceStmtReads c.substitute s).val⟩

/-- The order in which copies are listed does not matter. -/
theorem sameOutcome_copyBlock (b : Block) (hc : c.WellFormed) (hcd : c.Same d) :
    SameOutcome (copyBlock c b) (copyBlock d b) := by
  induction b using nestedInduction generalizing c d with
  | nil => exact ⟨rfl, rfl, hcd⟩
  | cons s ss ihblocks ihss =>
    have hs : SameOutcome (copyStmt c s) (copyStmt d s) := by
      cases s with
      | ite cond a b =>
        have ha := ihblocks a (by simp) hc hcd
        have hb := ihblocks b (by simp) hc hcd
        constructor
        · simp [copyStmt, hcd.substitute hc, ha.val, hb.val]
        · simp [copyStmt, hcd.substitute hc, ha.changed, hb.changed]
        · simpa [copyStmt, ha.val, hb.val] using ha.same.join hb.same (copyBlock_again c b hc).2 _ _
      | loop l cond a =>
        have hkill := hcd.killAll (written a)
        have hwf := hc.subset (Copies.killAll_subset c (written a))
        have ha := ihblocks a (by simp) hwf hkill
        constructor
        · simp [copyStmt, hkill.substitute hwf, ha.val]
        · simp [copyStmt, hkill.substitute hwf, ha.changed]
        · exact hkill
      | block a =>
        have ha := ihblocks a (by simp) hc hcd
        exact ⟨by simp [copyStmt, ha.val], by simp [copyStmt, ha.changed], ha.same⟩
      | _ => exact sameOutcome_of_blocks_eq_nil rfl hc hcd
    have hss := ihss (wellFormed_copyStmt hc s) hs.same
    exact ⟨by simp [copyBlock, hs.val, hss.val],
      by simp [copyBlock, hs.changed, hss.changed], hss.same⟩

theorem val_copyBlock (c : Copies) (b : Block) (h : (copyBlock c b).changed = false) :
    (copyBlock c b).val.1 = b := by
  refine tracking_reported.copyBlock (fun c s ss hs => ?_) c b h
  rw [replaceStmtReads_eq_pure (changed_replaceStmtReads.1 hs), val_pure]

theorem propagateCopies_eq_pure (hchanged : (propagateCopies b).changed = false) :
    propagateCopies b = pure b :=
  ext (val_copyBlock [] b ((changed_map _ _).symm.trans hchanged)) hchanged

/-- Nothing is replaced in the second of two statements if nothing is in the first, and the same
copies are listed behind them. -/
def SettlesWith (c d : Copies) (s s' : Stmt) : Prop :=
  (copyStmt c s).changed = false →
    (copyStmt d s').changed = false ∧ (copyStmt c s).val.2.Same (copyStmt d s').val.2

/-- Nothing is replaced in a block of which the first statement is exchanged for such a one. -/
theorem SettlesWith.copyBlock (h : SettlesWith c d s s') (hc : c.WellFormed) (ss : Block)
    (hunchanged : (copyBlock c (s :: ss)).changed = false) :
    (copyBlock d (s' :: ss)).changed = false ∧
      (copyBlock c (s :: ss)).val.2.Same (copyBlock d (s' :: ss)).val.2 := by
  simp only [Cleanup.copyBlock, changed_bind, changed_pure, Bool.or_false, Bool.or_eq_false_iff]
    at hunchanged
  obtain ⟨hs', hsame⟩ := h hunchanged.1
  have hss := sameOutcome_copyBlock ss (wellFormed_copyStmt hc s) hsame
  refine ⟨?_, hss.same⟩
  simp [Cleanup.copyBlock, hs', hss.changed, hunchanged.2]

theorem changed_replaceReads_negate (vars : VarTable) (f : Var → Option Expr) (e : Expr)
    (h : (e.replaceReads f).changed = false) :
    ((e.negate vars).replaceReads f).changed = false := by
  rw [Expr.changed_replaceReads] at h ⊢
  rwa [Expr.uses_negate]

/-- Nothing is replaced in the second of two blocks if nothing is in the first, whatever is known
before them, and the same copies are listed behind them. -/
def SettlesAs (a b : Block) : Prop := ∀ {c d : Copies}, c.WellFormed → c.Same d →
  (copyBlock c a).changed = false →
    (copyBlock d b).changed = false ∧ (copyBlock c a).val.2.Same (copyBlock d b).val.2

theorem SettlesAs.arms (cond : Expr) (ha : SettlesAs a a') (hb : SettlesAs b b')
    (hxa : SameExits a a') (hxb : SameExits b b') (hc : c.WellFormed) (hcd : c.Same d) :
    SettlesWith c d (.ite cond a b) (.ite cond a' b') := by
  intro h
  simp only [copyStmt, changed_bind, changed_pure, Bool.or_false, Bool.or_eq_false_iff] at h
  obtain ⟨ha', hsame⟩ := ha hc hcd h.2.1
  obtain ⟨hb', hsame'⟩ := hb hc hcd h.2.2
  have hwf := (copyBlock_again c b hc).2
  constructor
  · simp [copyStmt, hcd.substitute hc, h.1, ha', hb']
  · simpa [copyStmt, val_copyBlock _ _ ha', val_copyBlock _ _ hb', val_copyBlock _ _ h.2.1,
      val_copyBlock _ _ h.2.2, completes, hxa.completes, hxb.completes]
      using hsame.join hsame' hwf _ _

theorem SettlesAs.body (l : Option Label) (cond : Expr) (ha : SettlesAs a a')
    (hvars : SameVars a a')
    (hc : c.WellFormed) (hcd : c.Same d) : SettlesWith c d (.loop l cond a) (.loop l cond a') := by
  intro h
  simp only [copyStmt, changed_bind, changed_pure, Bool.or_false, Bool.or_eq_false_iff] at h
  have hwritten : d.killAll (written a') = d.killAll (written a) :=
    Copies.killAll_congr fun v => by rw [mem_written, mem_written, hvars.mem_uses]
  have hkill : (c.killAll (written a)).Same (d.killAll (written a')) :=
    hwritten ▸ hcd.killAll (written a)
  have hwf := hc.subset (Copies.killAll_subset c (written a))
  obtain ⟨ha', -⟩ := ha hwf hkill h.2
  constructor
  · simp [copyStmt, hkill.substitute hwf, h.1, ha']
  · exact hkill

/-- A copy holds behind a branch if it does behind both arms, whichever of them comes first. -/
theorem settlesWith_turn (vars : VarTable) (cond : Expr) (a b : Block) (hc : c.WellFormed)
    (hcd : c.Same d) : SettlesWith c d (.ite cond a b) (.ite (cond.negate vars) b a) := by
  intro h
  simp only [copyStmt, changed_bind, changed_pure, Bool.or_false, Bool.or_eq_false_iff] at h
  have ha := sameOutcome_copyBlock a hc hcd
  have hb := sameOutcome_copyBlock b hc hcd
  have hwf {b : Block} := (copyBlock_again c b hc).2
  constructor
  · simp [copyStmt, hcd.substitute hc, changed_replaceReads_negate vars _ _ h.1, ha.changed,
      hb.changed, h.2.1, h.2.2]
  · have hcomm := Copies.same_join_comm (hwf (b := a)) (hwf (b := b)) (completes a) (completes b)
    have hjoin := hb.same.join ha.same hwf (completes b) (completes a)
    simp only [copyStmt, val_bind, val_pure, ha.val, hb.val, val_copyBlock _ _ h.2.1,
      val_copyBlock _ _ h.2.2]
    exact fun e => (hjoin e).trans (hcomm e)

/-- If copies have been replaced, there are none to replace after branches have been turned
round. -/
theorem settlesAs_of_turned (h : Turned vars a b) : SettlesAs a b := by
  induction h with
  | refl b =>
    intro c d hc hcd h
    have hb := sameOutcome_copyBlock b hc hcd
    exact ⟨hb.changed.trans h, hb.same⟩
  | trans _ _ ihab ihbc =>
    intro c d hc hcd h
    obtain ⟨hb, hsame⟩ := ihab hc hcd h
    obtain ⟨hc', hsame'⟩ := ihbc (hc.subset fun e => (hcd e).1) (fun _ => .rfl) hb
    exact ⟨hc', fun e => (hsame' e).trans (hsame e)⟩
  | tail s _ ih =>
    intro c d hc hcd h
    have hs := sameOutcome_copyBlock [s] hc hcd
    simp only [copyBlock, changed_bind, changed_pure, Bool.or_false, Bool.or_eq_false_iff] at h
    obtain ⟨hss, hsame⟩ := ih (wellFormed_copyStmt hc s) hs.same h.2
    refine ⟨?_, hsame⟩
    have hfirst : (copyStmt d s).changed = false := by simpa [copyBlock, h.1] using hs.changed
    simpa [copyBlock, hfirst] using hss
  | arms cond ss ha hb iha ihb =>
    exact fun hc hcd =>
      (SettlesAs.arms cond iha ihb ha.sameExits hb.sameExits hc hcd).copyBlock hc ss
  | body l cond ss ha iha =>
    exact fun hc hcd => (SettlesAs.body l cond iha ha.sameVars hc hcd).copyBlock hc ss
  | inner ss _ iha =>
    intro c d hc hcd
    refine SettlesWith.copyBlock (fun h => ?_) hc ss
    simp only [copyStmt, changed_bind, changed_pure, Bool.or_false] at h
    obtain ⟨ha', hsame⟩ := iha hc hcd h
    exact ⟨by simp [copyStmt, ha'], hsame⟩
  | turn cond a b ss => exact fun hc hcd => (settlesWith_turn vars cond a b hc hcd).copyBlock hc ss

/-- Turning branches round makes no copies that could be replaced. -/
theorem changed_propagateCopies_turned (h : Turned vars a b)
    (ha : (propagateCopies a).changed = false) : (propagateCopies b).changed = false := by
  rw [propagateCopies, changed_map] at ha ⊢
  exact (settlesAs_of_turned h Copies.wellFormed_nil (fun _ => .rfl) ha).1

end Cleanup

end ByteLift
