import ByteLift.Proofs.Cleanup.CopiesSettle

/-!
# Chains of copies

A variable may be a copy of a copy of a copy. Each link of such a chain is listed as a copy of the
root, since what it is assigned has been replaced by then. So one walk over a body is enough: behind
the chain, the root is read in place of every link, in all branches and loops that leave the chain
alone, and a second walk finds nothing to replace.
-/

namespace ByteLift.Cleanup

open Block Stmt List

variable {c : Copies} {root v : Var} {vs : List Var} {s : Stmt} {ss b : Block}

/-! ## Where control goes -/

theorem isTrue_replaceReads (c : Copies) (e : Expr) :
    (e.replaceReads c.substitute).val.isTrue = e.isTrue := by
  cases e with
  | var v =>
    cases hv : c.source? v <;> simp [Expr.replaceReads, Expr.replaceAs, Copies.substitute,
      hv, Expr.isTrue]
  | _ => simp [Expr.replaceReads, Expr.replaceAs, Expr.isTrue]

theorem sameExits_replaceStmtReads (c : Copies) (s : Stmt) (ss : Block) :
    SameExits (s :: ss) ((replaceStmtReads c.substitute s).val :: ss) := by
  cases s with
  | ite cond a b =>
    refine ⟨?_, fun kind l inner => rfl⟩
    simp [replaceStmtReads, completesList, completes_ite]
  | loop l cond a =>
    refine ⟨?_, fun kind l inner => rfl⟩
    simp [replaceStmtReads, Stmt.completesList, Stmt.completes, isTrue_replaceReads]
  | declare _ o | ret o | goto _ o => cases o <;> exact ⟨rfl, fun kind _ _ => by cases kind <;> rfl⟩
  | _ => exact ⟨rfl, fun kind _ _ => by cases kind <;> rfl⟩

/-- Replacing copies does not change where control can go. -/
theorem sameExits_copyBlock (c : Copies) (b : Block) : SameExits b (copyBlock c b).val.1 :=
  congruent_sameExits.copyBlock sameExits_replaceStmtReads c b

/-! ## Behind a chain -/

/-- Each variable of a list is listed as a copy of the root. -/
def Copies.Links (c : Copies) (root : Var) (vs : List Var) : Prop := ∀ v ∈ vs, (v, root) ∈ c

/-- A block that neither assigns nor declares variables of a list. -/
def Leaves (vs : List Var) (b : Block) : Prop := ∀ v ∈ vs, .write v ∉ b.uses ∧ v ∉ b.declared

/-- Control may run on behind each statement that is not the last one of its block, at any depth. -/
def AllReached (b : Block) : Prop :=
  ∀ a ∈ b :: b.stmts.flatMap Stmt.blocks, Stmt.completesList a.dropLast = true

theorem leaves_cons :
    Leaves vs (s :: ss) ↔ (∀ v ∈ vs, .write v ∉ s.ownUses ∧ s.declared? ≠ some v) ∧
      (∀ a ∈ s.blocks, Leaves vs a) ∧ Leaves vs ss := by
  simp only [Leaves, uses_cons, declared_cons, mem_append, mem_flatMap, Option.mem_toList]
  grind

theorem allReached_cons :
    AllReached (s :: ss) ↔ (s.completes = true ∨ ss = []) ∧ (∀ a ∈ s.blocks, AllReached a) ∧
    AllReached ss := by
  have hlast : completesList (s :: ss).dropLast = true ↔
      (s.completes = true ∨ ss = []) ∧ completesList ss.dropLast = true := by
    cases ss with
    | nil => simp [completesList]
    | cons => simp [completesList]
  simp only [AllReached, stmts_cons, forall_mem_cons, flatMap_cons, flatMap_append,
    forall_mem_append, hlast, forall_mem_flatMap, flatMap_assoc]
  grind

namespace Copies

theorem Links.killAll (h : c.Links root vs) {ws : List Var} (hws : ∀ v ∈ root :: vs, v ∉ ws) :
    (c.killAll ws).Links root vs :=
  fun v hv => mem_killAll.2 ⟨h v hv, hws v (mem_cons_of_mem root hv),
    hws root mem_cons_self⟩

theorem Links.after (h : c.Links root vs)
    (hs : ∀ v ∈ root :: vs, .write v ∉ s.ownUses ∧ s.declared? ≠ some v)
    (hblocks : s.blocks = []) : (c.after s).Links root vs := by
  have hkill : (c.killAll (s.declared?.toList ++ written [s])).Links root vs := by
    refine h.killAll fun v hv hmem => ?_
    rcases mem_append.1 hmem with hmem | hmem
    · exact (hs v hv).2 (Option.mem_toList.1 hmem)
    · rw [mem_written, uses_cons, hblocks] at hmem
      exact (hs v hv).1 (by simpa using hmem)
  unfold Copies.after
  dsimp only
  split
  · rename_i u source hassign
    -- The variable that is assigned is no link of the chain.
    have hwrite : .write u ∈ s.ownUses := by
      rcases eq_of_assignment? hassign with rfl | rfl <;>
        simp [Stmt.ownUses, Stmt.set, Stmt.exprs, Expr.uses, Expr.usesAs]
    by_cases hsource : u = source
    · simpa [Copies.add, hsource] using hkill
    · intro v hv
      refine (mem_add hsource).2 (.inr ⟨hkill v hv, ?_⟩)
      rintro rfl
      exact (hs _ (mem_cons_of_mem root hv)).1 hwrite
  · exact hkill

theorem Links.substitute_ne_none (h : c.Links root vs) (hv : v ∈ vs) : c.substitute v ≠ none :=
  fun hnone => substitute_eq_none.1 hnone root (h v hv)

end Copies

theorem read_notMem_replaceReads (hc : c.WellFormed) (h : c.Links root vs)
    (hv : v ∈ vs) (e : Expr) : .read v ∉ (e.replaceReads c.substitute).val.uses := by
  intro hread
  rw [Expr.uses_replaceReads] at hread
  exact h.substitute_ne_none hv (hc.substitute_of_replaced hread)

theorem links_copyStmt_of_blocks_eq_nil (hs : s.blocks = []) (hc : c.WellFormed)
    (hlinks : c.Links root vs)
    (hleaves : ∀ v ∈ root :: vs, .write v ∉ s.ownUses ∧ s.declared? ≠ some v) :
    (∀ v ∈ vs, .read v ∉ uses [(copyStmt c s).val.1]) ∧ (copyStmt c s).val.2.Links root vs := by
  have hblocks := (blocks_replaceStmtReads c.substitute s).trans hs
  rw [copyStmt_of_blocks_eq_nil hs, Tracked.val_map]
  constructor
  · intro v hv hread
    rw [uses_cons, hblocks] at hread
    exact hlinks.substitute_ne_none hv (read_replaceStmtReads hc s v (by simpa using hread))
  · refine hlinks.after (fun v hv => ?_) hblocks
    rw [write_mem_replaceStmtReads isWriteFree_substitute, declared?_replaceStmtReads]
    exact hleaves v hv

/-- Links that are left alone are not read any more, and stay links. -/
theorem links_copyBlock (b : Block) (hc : c.WellFormed) (hlinks : c.Links root vs)
    (hleaves : Leaves (root :: vs) b)
    (hreached : AllReached b) : (∀ v ∈ vs, .read v ∉ uses (copyBlock c b).val.1) ∧
      (completesList b = true → (copyBlock c b).val.2.Links root vs) := by
  induction b using nestedInduction generalizing c with
  | nil => exact ⟨fun _ _ => by simp [copyBlock], fun _ => hlinks⟩
  | cons s ss ihblocks ihss =>
    obtain ⟨hown, hblocks, hleaves⟩ := leaves_cons.1 hleaves
    obtain ⟨hcompletes, hreachedIn, hreached⟩ := allReached_cons.1 hreached
    have hstmt : (∀ v ∈ vs, .read v ∉ uses [(copyStmt c s).val.1]) ∧
        (s.completes = true → (copyStmt c s).val.2.Links root vs) := by
      cases s with
      | ite cond a b =>
        simp only [blocks, forall_mem_cons] at hblocks hreachedIn ihblocks
        obtain ⟨ha, hlinksA⟩ := ihblocks.1 hc hlinks hblocks.1 hreachedIn.1
        obtain ⟨hb, hlinksB⟩ := ihblocks.2.1 hc hlinks hblocks.2.1 hreachedIn.2.1
        have hexits (a : Block) : completes (copyBlock c a).val.1 = completesList a :=
          (sameExits_copyBlock c a).completes
        constructor
        · intro v hv
          simpa [copyStmt] using ⟨read_notMem_replaceReads hc hlinks hv cond, ha v hv, hb v hv⟩
        · intro hcompletes v hv
          simp only [copyStmt, Tracked.val_bind, Tracked.val_pure, hexits]
          -- An arm that control does not leave has no say in what holds behind the branch.
          cases hca : completesList a <;> cases hcb : completesList b
          · simp [completes_ite, hca, hcb] at hcompletes
          · exact hlinksB hcb v hv
          · exact hlinksA hca v hv
          · exact (Copies.mem_meet (copyBlock_again c b hc).2).2
              ⟨hlinksA hca v hv, hlinksB hcb v hv⟩
      | loop l cond a =>
        have hleaves := hblocks a (by simp)
        have hwf := hc.subset (Copies.killAll_subset c (written a))
        have hkill : (c.killAll (written a)).Links root vs :=
          hlinks.killAll fun v hv hmem => (hleaves v hv).1 (mem_written.1 hmem)
        obtain ⟨ha, -⟩ := ihblocks a (by simp) hwf hkill hleaves (hreachedIn a (by simp))
        refine ⟨fun v hv => ?_, fun _ => hkill⟩
        simpa [copyStmt] using ⟨read_notMem_replaceReads hwf hkill hv cond, ha v hv⟩
      | block a =>
        obtain ⟨ha, hlinksA⟩ :=
          ihblocks a (by simp) hc hlinks (hblocks a (by simp)) (hreachedIn a (by simp))
        exact ⟨fun v hv => by simpa [copyStmt] using ha v hv, hlinksA⟩
      | _ => exact (links_copyStmt_of_blocks_eq_nil rfl hc hlinks hown).imp id fun h _ => h
    obtain ⟨hs, hlinksS⟩ := hstmt
    have happend : uses (copyBlock c (s :: ss)).val.1 =
        uses [(copyStmt c s).val.1] ++ uses (copyBlock (copyStmt c s).val.2 ss).val.1 :=
      uses_append [_] _
    simp only [happend, mem_append, not_or, completesList, Bool.and_eq_true]
    rcases hcompletes with hcompletes | rfl
    · obtain ⟨hss, hlinksSs⟩ :=
        ihss (wellFormed_copyStmt hc s) (hlinksS hcompletes) hleaves hreached
      exact ⟨fun v hv => ⟨hs v hv, hss v hv⟩, fun h => hlinksSs h.2⟩
    · exact ⟨fun v hv => ⟨hs v hv, by simp [copyBlock]⟩, fun h => hlinksS h.1⟩

/-! ## Chains -/

/-- Assigns each variable of a list from the one before it, and the first one from the root. -/
def chain : Var → List Var → Block
  | _, [] => []
  | root, v :: vs => .set v (.var root) :: chain v vs

/-- A copy of the root, or of a link to it, becomes a link to the root itself. -/
theorem copyStmt_link {u : Var} (hc : c.WellFormed) (hlinks : c.Links root vs)
    (hroot : c.substitute root = none) (hu : u ∈ root :: vs) (hv : v ∉ root :: vs) :
    (copyStmt c (.set v (.var u))).val.1 = .set v (.var root) ∧
      (copyStmt c (.set v (.var u))).val.2.Links root (v :: vs) := by
  have hread : ((Expr.var u).replaceReads c.substitute).val = .var root := by
    rcases mem_cons.1 hu with rfl | hu
    · simp [Expr.replaceReads, Expr.replaceAs, hroot]
    · have hsource : c.substitute u = some (.var root) := by
        rw [Copies.substitute, hc.source?.2 (hlinks u hu)]
        rfl
      simp [Expr.replaceReads, Expr.replaceAs, hsource]
  rw [copyStmt_of_blocks_eq_nil rfl, Tracked.val_map, replaceStmtReads_set, hread]
  refine ⟨rfl, fun w hw => ?_⟩
  rcases mem_cons.1 hw with rfl | hw
  · have hne : w ≠ root := fun h => hv (mem_cons.2 (.inl h))
    exact (Copies.mem_add hne).2 (.inl rfl)
  · have hown : ∀ x ∈ root :: vs, .write x ∉ (Stmt.set v (.var root)).ownUses ∧
        (Stmt.set v (.var root)).declared? ≠ some x := by
      refine fun x hx => ⟨fun hwrite => hv ?_, fun h => by cases h⟩
      obtain rfl : x = v := by
        simpa [Stmt.set, Stmt.ownUses, Stmt.exprs, Expr.uses, Expr.usesAs] using hwrite
      exact hx
    exact hlinks.after hown rfl w hw

/-- The invariant along a chain is that the links so far, `us`, are listed as copies of the root. -/
theorem copyBlock_chain (rest : Block) : ∀ (vs us : List Var) {u : Var} {c : Copies}, c.WellFormed →
    c.Links root us → c.substitute root = none → u ∈ root :: us → vs.Nodup →
    (∀ v ∈ vs, v ∉ root :: us) →
    ∃ d : Copies, d.WellFormed ∧ d.Links root (us ++ vs) ∧
      (copyBlock c (chain u vs ++ rest)).val.1 =
        vs.map (fun v => .set v (.var root)) ++ (copyBlock d rest).val.1
  | [], us, u, c, hc, hlinks, _, _, _, _ => ⟨c, hc, by rwa [append_nil], rfl⟩
  | v :: vs, us, u, c, hc, hlinks, hroot, hu, hnodup, hfresh => by
    obtain ⟨hv, hnodup⟩ := nodup_cons.1 hnodup
    obtain ⟨hset, hlinks'⟩ := copyStmt_link hc hlinks hroot hu (hfresh v mem_cons_self)
    have hc' := wellFormed_copyStmt hc (.set v (.var u))
    have hroot' := Copies.substitute_eq_none.2 fun w => hc'.flat (hlinks' v mem_cons_self)
    obtain ⟨d, hd, hlinksD, hval⟩ := copyBlock_chain rest vs (v :: us) hc' hlinks' hroot'
      (mem_cons_of_mem root mem_cons_self) hnodup (by grind)
    refine ⟨d, hd, fun w hw => hlinksD w (by grind), ?_⟩
    rw [chain, cons_append, copyBlock]
    simp only [Tracked.val_bind, Tracked.val_pure, hset, hval, map_cons, cons_append]

/-- One walk over a body leaves nothing to replace. A chain of copies of any length is resolved to
its root: every link is assigned from the root, and where neither it nor the root changes any more,
the root is read in its place, at any depth. Code that control never reaches is left out. -/
theorem propagateCopies_resolves_chains (b : Block) :
    propagateCopies (propagateCopies b).val = pure (propagateCopies b).val ∧
      ∀ (root : Var) (vs : List Var) (rest : Block), (root :: vs).Nodup → Leaves (root :: vs) rest →
        AllReached rest → ∃ rest', (propagateCopies (chain root vs ++ rest)).val =
          vs.map (fun v => .set v (.var root)) ++ rest' ∧
          ∀ v ∈ vs, .read v ∉ uses rest' := by
  constructor
  · simp [propagateCopies, (copyBlock_again [] b Copies.wellFormed_nil).1]
  · intro root vs rest hnodup hleaves hreached
    obtain ⟨hroot, hnodup⟩ := nodup_cons.1 hnodup
    have hfresh : ∀ v ∈ vs, v ∉ [root] := fun v hv h => hroot (mem_singleton.1 h ▸ hv)
    obtain ⟨d, hd, hlinks, hval⟩ :=
      copyBlock_chain rest vs [] Copies.wellFormed_nil (fun _ h => by cases h) rfl
      mem_cons_self hnodup hfresh
    exact ⟨_, hval, (links_copyBlock rest hd hlinks hleaves hreached).1⟩

/-- `b = a; c = b; while (d) { if (c) { return b; } d = c; }` reads `a` in all places in the
loop. -/
theorem propagateCopies_resolves_chains_loop :
    let rest : Block := [.loop none (.var ⟨3⟩)
      [.ifThen (.var ⟨2⟩) [.ret (some (.var ⟨1⟩))], .set ⟨3⟩ (.var ⟨2⟩)]]
    Leaves [⟨0⟩, ⟨1⟩, ⟨2⟩] rest ∧ AllReached rest ∧
      ∃ rest', (propagateCopies (chain ⟨0⟩ [⟨1⟩, ⟨2⟩] ++ rest)).val =
          [.set ⟨1⟩ (.var ⟨0⟩), .set ⟨2⟩ (.var ⟨0⟩)] ++ rest' ∧
        ∀ v ∈ [⟨1⟩, ⟨2⟩], .read v ∉ uses rest' := by
  intro rest
  have hleaves : Leaves [⟨0⟩, ⟨1⟩, ⟨2⟩] rest := by
    unfold Leaves
    decide
  have hreached : AllReached rest := by
    unfold AllReached
    decide
  exact ⟨hleaves, hreached,
    (propagateCopies_resolves_chains rest).2 ⟨0⟩ [⟨1⟩, ⟨2⟩] rest (by decide) hleaves hreached⟩

end ByteLift.Cleanup
