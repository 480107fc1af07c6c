import ByteLift.Proofs.Nested.Build
import ByteLift.Proofs.Semantics.Completion
import ByteLift.Proofs.Semantics.Flat

/-!
# Freshly nested code does what flat code does

A stretch of nested code runs on, jumps to a loop around it, or ends the method. The first two lead
to a position of the flat code, `Lands`, and the nested code takes the state there exactly if the
flat code does. From flat to nested code the steps that are left have to be counted, since each
round of a loop is matched with a later part of the same run.
-/

namespace ByteLift

open Stmt Exit Flat Meaning

/-- What is known of flat code that is nested, with its scopes and their labels. -/
structure Planned (flat : Block) (found : List Scope) (names : ForwardLabels) : Prop where
  laid : Laid flat found
  stmts : ∀ s ∈ flat, s.isFlat = true
  unique : Flat.UniqueLabels flat
  nodup : (found.map (Scope.label names)).Nodup

/-- The position that nested code leads to by how it ends, given where control runs on. -/
inductive Lands {ν : Type} (found : List Scope) (names : ForwardLabels) (hi : Nat) :
    Exit ν → Nat → Prop
  | normal : Lands found names hi .normal hi
  | breaking {s : Scope} (hs : s ∈ found) :
    Lands found names hi (.breaking (some (s.label names))) s.stop
  | continuing {s : Scope} (hs : s ∈ found) :
    Lands found names hi (.continuing (some (s.label names))) s.start

/-- The ways of ending that end the method. -/
def Exit.isFinal {ν : Type} : Exit ν → Bool
  | .returned _ | .thrown _ => true
  | _ => false

section

variable {σ ν : Type} {S : Semantics σ ν} {flat : Block} {found scopes : List Scope}
  {names : ForwardLabels}
  {hi hi' p pos lo n : Nat} {x y : Exit ν} {s t : σ} {l : Label} {r : Exit ν × σ}

/-- Only running on depends on where that leads. -/
theorem Lands.of_ne_normal (h : Lands found names hi x p) (hx : x ≠ .normal) :
    Lands found names hi' x p := by
  cases h with
  | normal => exact absurd rfl hx
  | breaking hs => exact .breaking hs
  | continuing hs => exact .continuing hs

section

variable {s : Scope} (h : Planned flat found names) (hs : s ∈ found)
include h hs

/-- A scope is known by its label. -/
theorem Planned.eq_of_label {t : Scope} (ht : t ∈ found) (heq : s.label names = t.label names) :
    s = t :=
  List.inj_on_of_nodup_map h.nodup hs ht heq

theorem Planned.stop_of_lands
    (hl : Lands found names hi (.breaking (some (s.label names)) : Exit ν) p) : p = s.stop := by
  generalize hx : (.breaking (some (s.label names)) : Exit ν) = x at hl
  cases hl with
  | normal => cases hx
  | continuing => cases hx
  | @breaking t ht =>
    rw [h.eq_of_label ht hs]
    simpa using hx.symm

theorem Planned.start_of_lands
    (hl : Lands found names hi (.continuing (some (s.label names)) : Exit ν) p) : p = s.start := by
  generalize hx : (.continuing (some (s.label names)) : Exit ν) = x at hl
  cases hl with
  | normal => cases hx
  | breaking => cases hx
  | @continuing t ht =>
    rw [h.eq_of_label ht hs]
    simpa using hx.symm

end

/-- What the jump at a position ends in, in nested code. -/
def jumpExit (flat : Block) (names : ForwardLabels) (pos : Nat) (l : Label) : Exit ν :=
  if pos < labelPos flat l then .breaking (some (names.get l)) else .continuing (some l)

section

variable {c : Option Expr} (h : Planned flat found names) (hgoto : flat[pos]? = some (.goto l c))
include h hgoto

/-- A jump leads to its label. -/
theorem Planned.lands_jumpExit (hi p : Nat) :
    Lands found names hi (jumpExit flat names pos l : Exit ν) p ↔ p = labelPos flat l := by
  obtain ⟨s, hs, rfl, _, _, hcase⟩ := h.laid.exists_scope hgoto
  rcases hcase with ⟨hk, hlt, hstop⟩ | ⟨hk, hlt, hstart⟩
  · have hlabel : s.label names = names.get s.target := by rw [Scope.label, hk]
    rw [jumpExit, if_pos hlt, ← hlabel, ← hstop]
    refine ⟨h.stop_of_lands hs, ?_⟩
    rintro rfl
    exact .breaking hs
  · have hlabel : s.label names = s.target := by rw [Scope.label, hk]
    rw [jumpExit, if_neg (by omega), ← hlabel, hlabel, ← hstart]
    nth_rewrite 1 [← hlabel]
    refine ⟨h.start_of_lands hs, ?_⟩
    rintro rfl
    exact .continuing hs

/-- And flat code follows it there. -/
theorem Planned.position?_eq : position? flat l = some (labelPos flat l) := by
  obtain ⟨p, hp⟩ := h.laid.label l pos (mem_gotos.2 ⟨c, hgoto⟩)
  rw [labelPos_of_labelIndex? hp]
  exact position?_eq_some h.unique (getElem?_of_labelIndex? hp)

end

/-! ## One statement -/

/-- How a statement ends in nested code, given how it ends in flat code. -/
def nestExit (flat : Block) (names : ForwardLabels) (pos : Nat) : Exit ν → Exit ν
  | .jumping l => jumpExit flat names pos l
  | x => x

/-- The statements of flat code other than jumps run on or end the method. -/
theorem act_of_isFlat {x : Stmt} (hx : x.isFlat = true) (s : σ) :
    (x.act S s).1 = .normal ∨ (x.act S s).1.isFinal = true ∨ ∃ l c, x = .goto l c ∧
    (x.act S s).1 = .jumping l := by
  cases x with
  | expr e | throw e =>
    simp only [act]
    split <;> simp [isFinal]
  | ret e =>
    cases e with
    | none => simp [act, isFinal]
    | some e =>
      simp only [act]
      split <;> simp [isFinal]
  | goto l c =>
    cases c with
    | none => simp [act]
    | some c =>
      simp only [act]
      split
      · split <;> simp
      · simp [isFinal]
  | label l => simp [act]
  | _ => cases hx

/-- What a statement becomes does what the statement does, with jumps to labels turned into jumps to
loops. -/
theorem meaningList_nestStmt {x : Stmt} (hx : flat[pos]? = some x) (hflat : x.isFlat = true) :
    meaningList S (nestStmt flat names pos) =
      .ofFun fun s => (nestExit flat names pos (x.act S s).1, (x.act S s).2) := by
  have hjump (l : Label) : meaningList S [if pos < labelPos flat l
      then .breakLoop (some (names.get l)) else .continueLoop (some l)] =
        .ofFun fun s => (jumpExit flat names pos l, s) := by
    rw [meaningList_cons, meaningList_nil, seq_skip]
    unfold jumpExit
    split <;> exact meaning_of_blocks_eq_nil S rfl
  have hplain (hgoto : ∀ l c, x ≠ .goto l c) (s : σ) :
      (nestExit flat names pos (x.act S s).1, (x.act S s).2) = x.act S s := by
    rcases act_of_isFlat (S := S) hflat s with hact | hact | ⟨l, c, rfl, _⟩
    · rw [hact]
      exact Prod.ext hact.symm rfl
    · refine Prod.ext ?_ rfl
      revert hact
      cases (x.act S s).1 <;> simp [isFinal, nestExit]
    · exact absurd rfl (hgoto l c)
  unfold nestStmt
  rw [hx]
  cases x with
  | label l =>
    refine ext fun s y t => ?_
    simp [skip, ofFun, act, nestExit, eq_comm]
  | goto l c =>
    cases c with
    | none => exact hjump l
    | some c =>
      simp only
      rw [meaningList_cons, meaningList_nil, seq_skip, ifThen, meaning_ite, hjump l]
      refine ext fun s y t => ?_
      simp only [branch, ofFun, act]
      cases S.test c s with
      | error v u => simp [nestExit, eq_comm]
      | ok p u => cases p <;> simp [nestExit, skip, eq_comm]
  | expr e | ret e | throw e =>
    rw [meaningList_cons, meaningList_nil, seq_skip, meaning_of_blocks_eq_nil S rfl]
    congr 1
    funext s
    exact (hplain (by simp) s).symm
  | _ => cases hflat

/-- Where the statement at a position leads, in flat and in nested code. -/
theorem Planned.follow_cases (h : Planned flat found names) {x : Stmt}
    (hx : flat[pos]? = some x) (s : σ) : (∃ next, follow flat pos (x.act S s).1 = some next ∧
        ∀ p, Lands found names (pos + 1) (nestExit flat names pos (x.act S s).1) p ↔ p = next) ∨
      follow flat pos (x.act S s).1 = none ∧ (x.act S s).1.isFinal = true := by
  rcases act_of_isFlat (S := S) (h.stmts x (List.mem_of_getElem? hx)) s with
    hact | hact | ⟨l, c, rfl, hact⟩
  · refine .inl ⟨pos + 1, by rw [hact]; rfl, fun p => ?_⟩
    rw [hact]
    constructor
    · intro hl
      cases hl
      rfl
    · rintro rfl
      exact .normal
  · refine .inr ⟨?_, hact⟩
    revert hact
    cases (x.act S s).1 <;> simp [isFinal, follow]
  · refine .inl ⟨labelPos flat l, ?_, ?_⟩
    · rw [hact]
      exact h.position?_eq hx
    · rw [hact]
      exact h.lands_jumpExit hx (pos + 1)

/-! ## From nested to flat code -/

/-- What is left to do when a stretch has ended: the flat code goes on where the end leads, or the
method ends. -/
def Resumes (S : Semantics σ ν) (flat : Block) (found : List Scope)
    (names : ForwardLabels) (hi : Nat) (x : Exit ν) (t : σ) (r : Exit ν × σ) : Prop :=
  (∃ p, Lands found names hi x p ∧ Flat.Ends S flat p t r) ∨ x.isFinal = true ∧ r = (x, t)

theorem Resumes.of_ne_normal (h : Resumes S flat found names hi x t r) (hx : x ≠ .normal) :
    Resumes S flat found names hi' x t r := by
  rcases h with ⟨p, hl, hends⟩ | hfinal
  · exact .inl ⟨p, hl.of_ne_normal hx, hends⟩
  · exact .inr hfinal

theorem nestExit_of_isFinal (hx : x.isFinal = true) : nestExit flat names pos x = x := by
  cases x <;> first | rfl | cases hx

/-- If what a statement becomes ends somewhere, the statement gets there too. -/
theorem Planned.ends_of_nestStmt (h : Planned flat found names) (hpos : pos < flat.length)
    (hm : meaningList S (nestStmt flat names pos) s y t)
    (hrest : Resumes S flat found names (pos + 1) y t r) : Flat.Ends S flat pos s r := by
  have hx := List.getElem?_eq_getElem hpos
  rw [meaningList_nestStmt hx (h.stmts _ (List.getElem_mem hpos))] at hm
  cases hm
  rcases h.follow_cases (S := S) hx s with ⟨next, hnext, hlands⟩ | ⟨hnone, hfinal⟩
  · rcases hrest with ⟨p, hl, hends⟩ | ⟨hfinal, _⟩
    · rw [(hlands p).1 hl] at hends
      exact ends_step hx hnext hends
    · -- A statement that leads somewhere does not end the method.
      exfalso
      have hl := (hlands next).2 rfl
      revert hfinal hl
      generalize nestExit flat names pos (flat[pos].act S s).1 = z
      intro hfinal hl
      cases hl <;> cases hfinal
  · rw [nestExit_of_isFinal hfinal] at hrest
    rcases hrest with ⟨p, hl, _⟩ | ⟨_, rfl⟩
    · exfalso
      revert hfinal hl
      generalize (flat[pos].act S s).1 = z
      intro hfinal hl
      cases hl <;> cases hfinal
    · exact ends_stop hx hnone

/-- What becomes of a round of the loop of a scope, by how the code of the scope ended. -/
theorem ofRound_cases (l : Label) (hnormal : x ≠ .normal)
    (hlabel : ∀ kind : LoopJump, x ≠ kind.exit none) :
    x = .breaking (some l) ∧ x.ofRound (some l) = some .normal ∨
      x = .continuing (some l) ∧ x.ofRound (some l) = none ∨ x.ofRound (some l) = some x := by
  cases x with
  | normal => exact absurd rfl hnormal
  | breaking m =>
    cases m with
    | none => exact absurd rfl (hlabel .breaking)
    | some m => by_cases hm : m = l <;> simp [ofRound, hm]
  | continuing m =>
    cases m with
    | none => exact absurd rfl (hlabel .continuing)
    | some m => by_cases hm : m = l <;> simp [ofRound, hm]
  | _ => exact .inr (.inr rfl)

/-- The body of the loop of a scope is the code of the scope and a break. -/
theorem meaningList_scope_body {b : Block} : meaningList S (b ++ [.breakLoop (some l)]) s y t ↔
      meaningList S b s .normal t ∧ y = .breaking (some l) ∨ y ≠ .normal ∧
      meaningList S b s y t := by
  rw [meaningList_append, meaningList_cons, meaningList_nil, seq_skip,
    meaning_of_blocks_eq_nil S rfl]
  constructor
  · rintro (⟨u, hm, hbreak⟩ | h)
    · cases hbreak
      exact .inl ⟨hm, rfl⟩
    · exact .inr h
  · rintro (⟨hm, rfl⟩ | h)
    · exact .inl ⟨t, hm, rfl⟩
    · exact .inr h

section

variable (h : Planned flat found names)
include h

/-- Freshly nested code only jumps to loops by their labels. -/
theorem Planned.ne_exit_none (hlam : Laminar lo hi scopes) (hhi : hi ≤ flat.length)
    (kind : LoopJump) : ¬ meaningList S (nest flat names scopes lo hi) s (kind.exit none) t := by
  induction hlam generalizing s t with
  | done =>
    rw [nest_done]
    rintro ⟨hx, _⟩
    cases kind <;> cases hx
  | @stmt lo hi scopes hrest ih =>
    have hle := hrest.le
    rw [nest_stmt hrest, meaningList_append]
    rintro (⟨u, _, hk⟩ | ⟨_, hm⟩)
    · exact ih hhi hk
    · have hlt : lo < flat.length := by omega
      rw [meaningList_nestStmt (List.getElem?_eq_getElem hlt)
        (h.stmts _ (List.getElem_mem hlt))] at hm
      obtain ⟨hexit, _⟩ := Prod.mk.inj hm
      rcases act_of_isFlat (S := S) (h.stmts _ (List.getElem_mem hlt)) s with
        hact | hact | ⟨l, c, _, hact⟩
      · rw [hact] at hexit
        cases kind <;> cases hexit
      · rw [nestExit_of_isFinal hact] at hexit
        rw [hexit] at hact
        cases kind <;> cases hact
      · rw [hact] at hexit
        simp only [nestExit, jumpExit] at hexit
        split at hexit <;> cases kind <;> cases hexit
  | @scope c hi inside behind hlt hinside hbehind ihin ihbehind =>
    rw [nest_scope hlt hinside hbehind, meaningList_cons, forever, meaning_loop]
    rintro (⟨u, _, hk⟩ | ⟨_, hm⟩)
    · exact ihbehind hhi hk
    · rcases exists_round_of_iter hm with ⟨_, _, _, hy⟩ | ⟨_, _, hy⟩ | ⟨_, _, _, hround⟩
      · cases kind <;> cases hy
      · cases kind <;> cases hy
      · exact absurd (eq_exit_of_ofRound hround).2 (by simp)

/-- If the flat code follows the code of a scope wherever that leads, it follows its loop. -/
theorem Planned.ends_of_iter {c : Scope} (hc : c ∈ found)
    {inside : List Scope} (hinside : Laminar c.start c.stop inside) (hstop : c.stop ≤ flat.length)
    {s t : σ} {y : Exit ν} {r : Exit ν × σ}
    (hbody : ∀ {s t : σ} {x : Exit ν}, meaningList S (nest flat names inside c.start c.stop) s x t →
      Resumes S flat found names c.stop x t r → Flat.Ends S flat c.start s r)
    (hiter : iter (S.test (.boolean true)) (some (c.label names))
      (meaningList S (nest flat names inside c.start c.stop ++ [.breakLoop (some (c.label names))]))
        s y t)
    (hrest : Resumes S flat found names c.stop y t r) : Flat.Ends S flat c.start s r := by
  have hlabel {s t : σ} {x : Exit ν}
      (hm : meaningList S (nest flat names inside c.start c.stop) s x t) (kind : LoopJump) :
      x ≠ kind.exit none := by
    rintro rfl
    exact h.ne_exit_none hinside hstop kind hm
  rw [Expr.boolean, S.test_boolean] at hiter
  induction hiter with
  | throws htest => cases htest
  | done htest => cases htest
  | @leaves s u x t y htest hround hends =>
    cases htest
    rcases meaningList_scope_body.1 hround with ⟨hm, rfl⟩ | ⟨hnormal, hm⟩
    · simp only [ofRound, if_true, Option.some.injEq] at hends
      subst hends
      exact hbody hm hrest
    rcases ofRound_cases (c.label names) hnormal (hlabel hm) with ⟨rfl, heq⟩ | ⟨_, heq⟩ | heq
    · -- Leaving the scope leads where running through it leads.
      rw [heq, Option.some.injEq] at hends
      subst hends
      rcases hrest with ⟨p, hl, hends⟩ | ⟨hfinal, _⟩
      · cases hl
        exact hbody hm (.inl ⟨_, .breaking hc, hends⟩)
      · cases hfinal
    · rw [heq] at hends
      cases hends
    · rw [heq, Option.some.injEq] at hends
      subst hends
      exact hbody hm hrest
  | @again s u x w y t htest hround hends _ ih =>
    cases htest
    rcases meaningList_scope_body.1 hround with ⟨_, rfl⟩ | ⟨hnormal, hm⟩
    · simp [ofRound] at hends
    rcases ofRound_cases (c.label names) hnormal (hlabel hm) with ⟨_, heq⟩ | ⟨rfl, _⟩ | heq
    · rw [heq] at hends
      cases hends
    · exact hbody hm (.inl ⟨_, .continuing hc, ih hrest⟩)
    · rw [heq] at hends
      cases hends

/-- If nested code of a stretch ends somewhere, flat code gets there from the start of the
stretch. -/
theorem Planned.ends_of_nest (hlam : Laminar lo hi scopes) (hhi : hi ≤ flat.length)
    (hsub : scopes ⊆ found) (hm : meaningList S (nest flat names scopes lo hi) s y t)
    (hrest : Resumes S flat found names hi y t r) : Flat.Ends S flat lo s r := by
  induction hlam generalizing s t y r with
  | done =>
    rw [nest_done] at hm
    obtain ⟨rfl, rfl⟩ := hm
    rcases hrest with ⟨p, hl, hends⟩ | ⟨hfinal, _⟩
    · cases hl
      exact hends
    · cases hfinal
  | @stmt lo hi scopes hrest' ih =>
    have hle := hrest'.le
    rw [nest_stmt hrest', meaningList_append] at hm
    rcases hm with ⟨u, hm, hk⟩ | ⟨hy, hm⟩
    · exact h.ends_of_nestStmt (by omega) hm (.inl ⟨_, .normal, ih hhi hsub hk hrest⟩)
    · exact h.ends_of_nestStmt (by omega) hm (hrest.of_ne_normal hy)
  | @scope c hi inside behind hlt hinside hbehind ihin ihbehind =>
    have hle := hbehind.le
    simp only [List.cons_subset, List.append_subset] at hsub
    obtain ⟨hc, hsubIn, hsubBehind⟩ := hsub
    rw [nest_scope hlt hinside hbehind, meaningList_cons, forever, meaning_loop] at hm
    have hbody {s t : σ} {x : Exit ν} (hm : meaningList S
      (nest flat names inside c.start c.stop) s x t)
        (hrest : Resumes S flat found names c.stop x t r) : Flat.Ends S flat c.start s r :=
      ihin (by omega) hsubIn hm hrest
    rcases hm with ⟨u, hiter, hk⟩ | ⟨hy, hiter⟩
    · exact h.ends_of_iter hc hinside (by omega) hbody hiter
        (.inl ⟨_, .normal, ihbehind hhi hsubBehind hk hrest⟩)
    · exact h.ends_of_iter hc hinside (by omega) hbody hiter (hrest.of_ne_normal hy)

end

/-! ## From flat to nested code -/

/-- As `Resumes`, with a bound on the steps that are left. -/
def ResumesWithin (S : Semantics σ ν) (flat : Block) (found : List Scope) (names : ForwardLabels)
    (hi n : Nat) (x : Exit ν) (t : σ) (r : Exit ν × σ) : Prop :=
  (∃ p, Lands found names hi x p ∧ ∃ k < n, run S flat k p t = some r) ∨
    x.isFinal = true ∧ r = (x, t)

theorem ResumesWithin.of_ne_normal (h : ResumesWithin S flat found names hi n x t r)
    (hx : x ≠ .normal) : ResumesWithin S flat found names hi' n x t r := by
  rcases h with ⟨p, hl, hrun⟩ | hfinal
  · exact .inl ⟨p, hl.of_ne_normal hx, hrun⟩
  · exact .inr hfinal

theorem ResumesWithin.mono {m : Nat} (hnm : n ≤ m)
    (h : ResumesWithin S flat found names hi n x t r) :
    ResumesWithin S flat found names hi m x t r := by
  rcases h with ⟨p, hl, k, hk, hrun⟩ | hfinal
  · exact .inl ⟨p, hl, k, by omega, hrun⟩
  · exact .inr hfinal

section

variable (h : Planned flat found names)
include h

/-- A statement that ends a run or leads somewhere does so in nested code too, and takes a step. -/
theorem Planned.nestStmt_of_run (hpos : pos < flat.length) (hrun : run S flat n pos s = some r) :
    ∃ x t, meaningList S (nestStmt flat names pos) s x t ∧
    ResumesWithin S flat found names (pos + 1) n x t r := by
  have hx := List.getElem?_eq_getElem hpos
  obtain ⟨n, rfl⟩ := exists_succ_of_run hrun
  rw [meaningList_nestStmt hx (h.stmts _ (List.getElem_mem hpos))]
  refine ⟨_, _, rfl, ?_⟩
  rcases h.follow_cases (S := S) hx s with ⟨next, hnext, hlands⟩ | ⟨hnone, hfinal⟩
  · rw [run_step hx hnext] at hrun
    exact .inl ⟨next, (hlands next).2 rfl, n, by omega, hrun⟩
  · rw [run_stop hx hnone] at hrun
    cases hrun
    rw [nestExit_of_isFinal hfinal]
    exact .inr ⟨hfinal, rfl⟩

/-- If the code of a scope follows every run from the start of the scope, so does its loop. The
rounds of the loop are parts of the one run, each shorter than the one before. -/
theorem Planned.iter_of_run {c : Scope} (hc : c ∈ found)
    {inside : List Scope} (hinside : Laminar c.start c.stop inside) (hstop : c.stop ≤ flat.length)
    {n : Nat} {s : σ} {r : Exit ν × σ}
    (hbody : ∀ {n : Nat} {s : σ}, run S flat n c.start s = some r →
      ∃ x t, meaningList S (nest flat names inside c.start c.stop) s x t ∧
        ResumesWithin S flat found names c.stop n x t r)
    (hrun : run S flat n c.start s = some r) :
    ∃ y t, iter (S.test (.boolean true)) (some (c.label names))
        (meaningList S (nest flat names inside c.start
          c.stop ++ [.breakLoop (some (c.label names))])) s y t ∧
      ResumesWithin S flat found names c.stop n y t r := by
  have htest (u : σ) : S.test (.boolean true) u = .ok true u := by
    rw [Expr.boolean, S.test_boolean]
    rfl
  induction n using Nat.strongRecOn generalizing s with
  | ind n ih =>
    obtain ⟨x, u, hm, hrest⟩ := hbody hrun
    by_cases hnormal : x = .normal
    · subst hnormal
      refine ⟨.normal, u, .leaves (htest s) (meaningList_scope_body.2 (.inl ⟨hm, rfl⟩)) ?_, hrest⟩
      simp [ofRound]
    have hround := meaningList_scope_body (l := c.label names).2 (.inr ⟨hnormal, hm⟩)
    have hlabel (kind : LoopJump) : x ≠ kind.exit none := by
      rintro rfl
      exact h.ne_exit_none hinside hstop kind hm
    rcases ofRound_cases (c.label names) hnormal hlabel with ⟨rfl, heq⟩ | ⟨rfl, heq⟩ | heq
    · refine ⟨.normal, u, .leaves (htest s) hround heq, ?_⟩
      rcases hrest with ⟨p, hl, hrun⟩ | ⟨hfinal, _⟩
      · rw [h.stop_of_lands hc hl] at hrun
        exact .inl ⟨_, .normal, hrun⟩
      · cases hfinal
    · rcases hrest with ⟨p, hl, k, hk, hrun⟩ | ⟨hfinal, _⟩
      · rw [h.start_of_lands hc hl] at hrun
        obtain ⟨y, t, hiter, hrest⟩ := ih k hk hrun
        exact ⟨y, t, .again (htest s) hround heq hiter, hrest.mono (by omega)⟩
      · cases hfinal
    · exact ⟨x, u, .leaves (htest s) hround heq, hrest⟩

/-- If flat code ends when run from the start of a stretch, the nested code of the stretch gets as
far as a position that the flat code passes, or to the end. -/
theorem Planned.nest_of_run (hlam : Laminar lo hi scopes) (hhi : hi ≤ flat.length)
    (hsub : scopes ⊆ found) (hrun : run S flat n lo s = some r) :
    ∃ x t, meaningList S (nest flat names scopes lo hi) s x t ∧
      ResumesWithin S flat found names hi (if lo < hi then n else n + 1) x t r := by
  induction hlam generalizing n s with
  | done =>
    rw [nest_done]
    refine ⟨.normal, s, ⟨rfl, rfl⟩, .inl ⟨_, .normal, n, ?_, hrun⟩⟩
    simp
  | @stmt lo hi scopes hrest ih =>
    have hle := hrest.le
    rw [nest_stmt hrest, meaningList_append, if_pos (by omega)]
    obtain ⟨x, u, hm, hnext⟩ := h.nestStmt_of_run (by omega) hrun
    by_cases hnormal : x = .normal
    · subst hnormal
      rcases hnext with ⟨p, hl, k, hk, hrun⟩ | ⟨hfinal, _⟩
      · cases hl
        obtain ⟨y, t, hm', hrest⟩ := ih hhi hsub hrun
        exact ⟨y, t, .inl ⟨u, hm, hm'⟩, hrest.mono (by split <;> omega)⟩
      · cases hfinal
    · exact ⟨x, u, .inr ⟨hnormal, hm⟩, hnext.of_ne_normal hnormal⟩
  | @scope c hi inside behind hlt hinside hbehind ihin ihbehind =>
    have hle := hbehind.le
    simp only [List.cons_subset, List.append_subset] at hsub
    obtain ⟨hc, hsubIn, hsubBehind⟩ := hsub
    rw [nest_scope hlt hinside hbehind, meaningList_cons, forever, meaning_loop, if_pos (by omega)]
    obtain ⟨x, u, hm, hnext⟩ := h.iter_of_run hc hinside (by omega)
      (fun hrun => by simpa only [if_pos hlt] using ihin (by omega) hsubIn hrun) hrun
    by_cases hnormal : x = .normal
    · subst hnormal
      rcases hnext with ⟨p, hl, k, hk, hrun⟩ | ⟨hfinal, _⟩
      · cases hl
        obtain ⟨y, t, hm', hrest⟩ := ihbehind hhi hsubBehind hrun
        exact ⟨y, t, .inl ⟨u, hm, hm'⟩, hrest.mono (by split <;> omega)⟩
      · cases hfinal
    · exact ⟨x, u, .inr ⟨hnormal, hm⟩, hnext.of_ne_normal hnormal⟩

end

/-! ## Whole methods -/

/-- The ways that well-formed code can end inside of loops with the given labels. -/
def Exit.StaysIn {ν : Type} (around : List (Option Label)) : Exit ν → Prop
  | .breaking l | .continuing l => around ≠ [] ∧ (l.isSome → l ∈ around)
  | .jumping _ => False
  | _ => True

variable {around : List (Option Label)}

/-- A loop takes up the jumps to it. -/
theorem Exit.StaysIn.ofRound {l : Option Label} (hx : x.StaysIn (l :: around))
    (h : x.ofRound l = some y) : y.StaysIn around := by
  cases x with
  | breaking m | continuing m =>
    cases m with
    | none => cases h <;> trivial
    | some m =>
      simp only [ofRound] at h
      split at h
      · cases h <;> trivial
      · cases h
        rename_i hne
        have hmem : some m ∈ around := by simpa [hne] using hx.2 rfl
        exact ⟨List.ne_nil_of_mem hmem, fun _ => hmem⟩
  | normal => cases h
  | jumping m => exact hx.elim
  | returned v | thrown v =>
    cases h
    trivial

/-- Well-formed code ends in no goto, and only jumps to the loops around it. -/
theorem staysIn_of_meaningList (b : Block) (hb : WellNestedList around b)
    (h : meaningList S b s y t) : y.StaysIn around := by
  refine exit_induction (P := fun b y => ∀ around, WellNestedList around b → y.StaysIn around)
    (fun _ _ => trivial) (fun _ _ _ _ => trivial) ?_ ?_ ?_ ?_ ?_ ?_ b h around hb
  · intro x s y t xs hblocks hact around hx
    rw [wellNestedList_cons] at hx
    cases x with
    | breakLoop | continueLoop =>
      cases hact
      simpa [Exit.StaysIn] using hx.1
    | expr | throw =>
      simp only [act] at hact
      split at hact <;> cases hact <;> trivial
    | declare v e | ret e =>
      cases e with
      | none =>
        cases hact
        trivial
      | some e =>
        simp only [act] at hact
        split at hact <;> cases hact <;> trivial
    | label | goto => simp [Stmt.WellNested] at hx
    | _ => cases hblocks
  · exact fun x xs y ih around hx => ih around (wellNestedList_cons.1 hx).2
  · exact fun c b xs a y ih around hx => ih around (wellNested_ite.1 (wellNestedList_cons.1 hx).1).1
  · exact fun c a xs b y ih around hx => ih around (wellNested_ite.1 (wellNestedList_cons.1 hx).1).2
  · exact fun c xs a ih hround around hx =>
      (ih _ (wellNested_loop.1 (wellNestedList_cons.1 hx).1).2).ofRound hround
  · exact fun xs a y ih around hx => ih around (wellNested_block.1 (wellNestedList_cons.1 hx).1)

/-- Freshly nested code ends as the flat code does. -/
theorem Planned.ends_iff_meaning (h : Planned flat found names)
    (hwell : Block.WellNested (nest flat names found 0 flat.length)) (s : σ) (r : Exit ν × σ) :
    Flat.Ends S flat 0 s r ↔ meaningList S (nest flat names found 0 flat.length) s r.1 r.2 := by
  have hout {t : σ} {n : Nat} : run S flat (n + 1) flat.length t = some (.normal, t) :=
    run_off (by simp)
  constructor
  · rintro ⟨n, hrun⟩
    obtain ⟨x, t, hm, hrest⟩ := h.nest_of_run h.laid.laminar le_rfl (List.Subset.refl _) hrun
    rcases hrest with ⟨p, hl, k, _, hrun⟩ | ⟨_, rfl⟩
    · have hstays := staysIn_of_meaningList _ hwell hm
      cases hl with
      | normal =>
        obtain ⟨k, rfl⟩ := exists_succ_of_run hrun
        rw [hout] at hrun
        cases hrun
        exact hm
      | breaking => exact absurd rfl hstays.1
      | continuing => exact absurd rfl hstays.1
    · exact hm
  · intro hm
    obtain ⟨y, t⟩ := r
    have hstays := staysIn_of_meaningList _ hwell hm
    refine h.ends_of_nest h.laid.laminar le_rfl (List.Subset.refl _) hm ?_
    cases y with
    | normal => exact .inl ⟨_, .normal, 1, hout⟩
    | returned v => exact .inr ⟨rfl, rfl⟩
    | thrown v => exact .inr ⟨rfl, rfl⟩
    | jumping l => exact hstays.elim
    | breaking l => exact absurd rfl hstays.1
    | continuing l => exact absurd rfl hstays.1

end

end ByteLift
