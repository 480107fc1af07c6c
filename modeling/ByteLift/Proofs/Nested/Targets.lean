import ByteLift.Proofs.Nested.SinglePass
import Mathlib.Data.List.Perm.Subperm

/-!
# The loops that jumps go to

A jump goes to the innermost loop around it, or to the innermost one with its label. The jumps of a
block are listed here, each with the loop that it goes to, so that it can be said that a loop is
taken away and every other jump goes where it went.
-/

namespace ByteLift

open List

/-- A loop that jumps go to: one around the code, known by a number, or one of the code, known by
what it is. -/
inductive Target
  | outside (n : Nat)
  | inside (s : Stmt)
deriving DecidableEq

/-- The loops around a place, the innermost first, each with its label. -/
abbrev LoopsAround := List (Option Label × Target)

/-- The loop that a jump with or without a label goes to. -/
def LoopsAround.target? (around : LoopsAround) : Option Label → Option Target
  | none => around.head?.map Prod.snd
  | some l => (around.find? (·.1 = some l)).map Prod.snd

namespace Stmt

mutual

/-- The jumps to loops in a statement, each with the loop that it goes to. -/
def jumps (around : LoopsAround) : Stmt → List (Stmt × Option Target)
  | ite _ a b => jumpsList around a ++ jumpsList around b
  | loop l c a => jumpsList ((l, .inside (loop l c a)) :: around) a
  | block a => jumpsList around a
  | breakLoop l => [(breakLoop l, around.target? l)]
  | continueLoop l => [(continueLoop l, around.target? l)]
  | _ => []

/-- The jumps to loops in a block, each with the loop that it goes to. -/
def jumpsList (around : LoopsAround) : Block → List (Stmt × Option Target)
  | [] => []
  | s :: ss => s.jumps around ++ jumpsList around ss

end

end Stmt

open Stmt

variable {around : LoopsAround} {label : Option Label} {r : Target} {b : Block}

theorem jumpsList_append (a b : Block) :
    jumpsList around (a ++ b) = jumpsList around a ++ jumpsList around b := by
  induction a with
  | nil => simp [jumpsList]
  | cons s ss ih => simp [jumpsList, ih]

/-- A jump that does not go to a loop goes to the same loop without it. -/
theorem target?_remove {inside : LoopsAround} {l : Option Label}
    (hl : l = none ∧ inside ≠ [] ∨ l.isSome ∧ l ≠ label) :
    LoopsAround.target? (inside ++ (label, r) :: around) l =
      LoopsAround.target? (inside ++ around) l := by
  cases l with
  | none =>
    obtain ⟨x, xs, rfl⟩ := exists_cons_of_ne_nil (hl.resolve_right (by simp)).2
    rfl
  | some l =>
    have hne : label ≠ some l := fun h => (hl.resolve_left (by simp)).2 h.symm
    simp [LoopsAround.target?, find?_append, hne]

/-- Code without jumps to one of the loops around it jumps to the same loops without that one. -/
theorem jumpsList_remove (b : Block) (inside : LoopsAround)
    (h : ∀ kind, jumpsToList kind label (!inside.isEmpty) b = false) :
    jumpsList (inside ++ (label, r) :: around) b = jumpsList (inside ++ around) b := by
  induction b using Block.nestedInduction generalizing inside with
  | nil => simp [jumpsList]
  | cons s ss ihblocks ih =>
    simp only [jumpsToList, Bool.or_eq_false_iff] at h
    rw [jumpsList, jumpsList, ih inside fun kind => (h kind).2]
    congr 1
    cases s with
    | ite c a b =>
      simp only [jumpsTo, Bool.or_eq_false_iff] at h
      rw [jumps, jumps, ihblocks a (by simp) inside fun kind => (h kind).1.1,
        ihblocks b (by simp) inside fun kind => (h kind).1.2]
    | loop l c a =>
      simp only [jumpsTo] at h
      exact ihblocks a (by simp) ((l, .inside (loop l c a)) :: inside) fun kind => (h kind).1
    | block a =>
      simp only [jumpsTo] at h
      exact ihblocks a (by simp) inside fun kind => (h kind).1
    | breakLoop l =>
      rw [jumps, jumps, target?_remove]
      cases l <;> simpa [jumpsTo, jumpTarget?] using (h .breaking).1
    | continueLoop l =>
      rw [jumps, jumps, target?_remove]
      cases l <;> simpa [jumpsTo, jumpTarget?] using (h .continuing).1
    | _ => rfl

/-- Jumps go to loops around the code or in it. -/
theorem ne_of_mem_jumpsList (b : Block) (around : LoopsAround) (haround : ∀ e ∈ around, e.2 ≠ r)
    (hb : ∀ s ∈ b.stmts, .inside s ≠ r) : ∀ j ∈ jumpsList around b, j.2 ≠ some r := by
  have htarget (around : LoopsAround) (haround : ∀ e ∈ around, e.2 ≠ r) (l : Option Label) :
      around.target? l ≠ some r := by
    cases l with
    | none =>
      intro h
      obtain ⟨e, he, rfl⟩ := Option.map_eq_some_iff.1 h
      exact haround e (mem_of_head? he) rfl
    | some l =>
      intro h
      obtain ⟨e, he, rfl⟩ := Option.map_eq_some_iff.1 h
      exact haround e (mem_of_find?_eq_some he) rfl
  induction b using Block.nestedInduction generalizing around with
  | nil => simp [jumpsList]
  | cons s ss ihblocks ih =>
    rw [Block.stmts_cons, forall_mem_cons, forall_mem_append] at hb
    obtain ⟨hs, hblocks, hss⟩ := hb
    have hin {a : Block} (ha : a ∈ s.blocks) : ∀ x ∈ a.stmts, .inside x ≠ r :=
      fun x hx => hblocks x (mem_flatMap.2 ⟨a, ha, hx⟩)
    rw [jumpsList, forall_mem_append]
    refine ⟨?_, ih around haround hss⟩
    cases s with
    | ite c a b =>
      rw [jumps, forall_mem_append]
      exact ⟨ihblocks a (by simp) around haround (hin (by simp)),
        ihblocks b (by simp) around haround (hin (by simp))⟩
    | loop l c a =>
      exact ihblocks a (by simp) _ (forall_mem_cons.2 ⟨hs, haround⟩) (hin (by simp))
    | block a => exact ihblocks a (by simp) around haround (hin (by simp))
    | breakLoop l | continueLoop l => exact forall_mem_singleton.2 (htarget around haround l)
    | _ => simp [jumps]

/-! ## Loops that run once -/

/-- The jumps of a block that are left without one of the loops around it: each goes where it went,
and none went to that loop. -/
def JumpsLeft (around : LoopsAround) (label : Option Label) (r : Target) (b out : Block) : Prop :=
  ∀ j, (jumpsList around out).count j ≤ if j.2 =
    some r then 0 else (jumpsList ((label, r) :: around) b).count j

/-- Code that does not continue a loop and does not hold it. -/
def StandsIn (label : Option Label) (r : Target) (b : Block) : Prop :=
  jumpsToList .continuing label false b = false ∧ ∀ s ∈ b.stmts, .inside s ≠ r

variable {a out : Block} {s : Stmt} {c : Expr}

theorem standsIn_append : StandsIn label r (a ++ b) ↔ StandsIn label r a ∧ StandsIn label r b := by
  simp only [StandsIn, ByteLift.jumpsToList_append, Bool.or_eq_false_iff, Block.stmts_append,
    forall_mem_append]
  tauto

theorem StandsIn.cons (h : StandsIn label r (s :: b)) : StandsIn label r [s] ∧ StandsIn label r b :=
  standsIn_append (a := [s]) |>.1 h

theorem StandsIn.ite (h : StandsIn label r [.ite c a b]) :
    StandsIn label r a ∧ StandsIn label r b := by
  simp only [StandsIn, jumpsToList, jumpsTo, Bool.or_eq_false_iff, Block.stmts_cons, blocks,
    forall_mem_cons, forall_mem_append, flatMap_cons] at h
  tauto

/-- A statement without jumps to the loop stays. -/
theorem JumpsLeft.keep {ss ss' : Block} (haround : ∀ e ∈ around, e.2 ≠ r)
    (hbreak : jumpsToList .breaking label false [s] = false) (hs : StandsIn label r [s])
    (hss : JumpsLeft around label r ss ss') : JumpsLeft around label r (s :: ss) (s :: ss') := by
  intro j
  have hsame : jumpsList ((label, r) :: around) [s] = jumpsList around [s] :=
    jumpsList_remove [s] [] fun kind => by cases kind <;> simp [hbreak, hs.1]
  have hne := ne_of_mem_jumpsList [s] around haround hs.2
  have hss := hss j
  rw [← singleton_append, ← singleton_append (l := ss), jumpsList_append,
    jumpsList_append, count_append, count_append, hsame]
  split at hss
  · rename_i hj
    rw [if_pos hj, count_eq_zero.2 fun hmem => hne j hmem hj]
    omega
  · rename_i hj
    rw [if_neg hj]
    omega

/-- What follows a branch goes into one arm at most. -/
theorem JumpsLeft.branch {rest a' b' : Block} (restA restB : Block)
    (hrest : restA = rest ∧ restB = [] ∨ restA = [] ∧ restB = rest ∨ restA = [] ∧ restB = [])
    (ha : JumpsLeft around label r (a ++ restA) a')
    (hb : JumpsLeft around label r (b ++ restB) b') :
    JumpsLeft around label r (.ite c a b :: rest) [.ite c a' b'] := by
  intro j
  have ha := ha j
  have hb := hb j
  have hcount : (jumpsList ((label, r) :: around) restA).count
    j + (jumpsList ((label, r) :: around) restB).count j ≤
      (jumpsList ((label, r) :: around) rest).count j := by
    rcases hrest with ⟨rfl, rfl⟩ | ⟨rfl, rfl⟩ | ⟨rfl, rfl⟩ <;> simp [jumpsList]
  simp only [jumpsList_append, count_append, jumpsList, jumps, append_nil] at ha hb ⊢
  by_cases hj : j.2 = some r
  · simp only [hj, if_true] at ha hb ⊢
    omega
  · simp only [hj, if_false] at ha hb ⊢
    omega

/-- Taking the breaks out of a loop takes away the jumps to it. The others go where they went. -/
theorem jumpsLeft_liftBreaks (h : liftBreaks label b = some out) (haround : ∀ e ∈ around, e.2 ≠ r)
    (hb : StandsIn label r b) : JumpsLeft around label r b out := by
  refine liftBreaks_induction (R := fun b out => StandsIn label r b →
    JumpsLeft around label r b out) h
    (fun _ j => by simp [jumpsList]) (fun _ _ j => by simp [jumpsList])
    (fun {_ a b rest _ _} restA restB hA hB hrest iha ihb hb => ?_)
    (fun {s _ _} hs ih hb => .keep haround (by simp [jumpsToList, hs]) hb.cons.1 (ih hb.cons.2)) hb
  obtain ⟨⟨ha, hb⟩, hrest'⟩ := hb.cons.imp_left StandsIn.ite
  have harm {x y : Block} (hx : StandsIn label r x)
    (hy : y = rest ∨ y = [] ∧ Block.completes x = false) :
      StandsIn label r (x ++ y) := by
    rcases hy with rfl | ⟨rfl, -⟩
    · exact standsIn_append.2 ⟨hx, hrest'⟩
    · rwa [append_nil]
  exact .branch restA restB hrest (iha (harm ha hA)) (ihb (harm hb hB))

theorem size_le_of_mem_stmts (b : Block) : ∀ s ∈ b.stmts, s.size ≤ sizeList b := by
  induction b using Block.nestedInduction with
  | nil => simp [Block.stmts, nestedList]
  | cons s ss ihblocks ih =>
    intro x hx
    rw [Block.stmts_cons, mem_cons, mem_append, mem_flatMap] at hx
    rw [sizeList]
    obtain rfl | ⟨a, ha, hx⟩ | hx := hx
    · omega
    · have := ihblocks a ha x hx
      cases s <;> simp [blocks] at ha <;> simp only [size] <;> grind
    · have := ih x hx
      omega

/-- A loop is not part of its own body. -/
theorem not_mem_stmts_loop (l : Option Label) (c : Expr) (a : Block) :
    Stmt.loop l c a ∉ a.stmts := by
  intro h
  have := size_le_of_mem_stmts a _ h
  simp only [size] at this
  omega

/-- A loop that runs once takes the jumps to it along. -/
theorem jumpsList_singlePass (h : singlePass? s = some out)
    (haround : ∀ e ∈ around, e.2 ≠ .inside s) :
    (jumpsList around out).Subperm ((s.jumps around).filter (·.2 ≠ some (.inside s))) := by
  cases s <;> simp only [singlePass?] at h
  case loop label cond body =>
    split at h
    · rename_i hcond
      simp only [Bool.and_eq_true, Bool.not_eq_true'] at hcond
      have hstands : StandsIn label (.inside (loop label cond body)) body := by
        refine ⟨hcond.1.2, ?_⟩
        rintro _ hs ⟨⟩
        exact not_mem_stmts_loop label cond body hs
      refine subperm_ext_iff.2 fun j _ =>
        Nat.le_trans (jumpsLeft_liftBreaks h haround hstands j) ?_
      split
      · exact Nat.zero_le _
      · rename_i hj
        refine Nat.le_of_eq ?_
        rw [count_filter (by simpa using hj), jumps]
    · cases h
  all_goals cases h

theorem meaning_unwrapSinglePass {σ ν : Type} (S : Semantics σ ν) (b : Block) :
    (unwrapSinglePass b).val.meaning S = b.meaning S := by
  simp only [Block.meaning]
  induction b with
  | nil => rfl
  | cons s ss ih =>
    rw [unwrapSinglePass]
    split
    · rename_i out hout
      simp [meaningList_append, meaningList_cons, meaning_singlePass hout, ih]
    · simp [meaningList_cons, ih]

/-- The loops around the code, by their labels and any numbers. -/
def LoopsAround.outside (loops : List (Option Label × Nat)) : LoopsAround :=
  loops.map (Prod.map id .outside)

/-- Replacing the loops of a block that run once by their bodies changes neither how the block ends
nor the state, from any state and under any interpretation of expressions. The jumps that are left,
at any depth, go to the loops that they went to before, and none of them went to a loop that is
gone. -/
theorem unwrapSinglePass_capture_free (loops : List (Option Label × Nat)) (b : Block) :
    (∀ {σ ν : Type} (S : Semantics σ ν) (s : σ) (x : Exit ν) (t : σ),
      (∃ n, (unwrapSinglePass b).val.exec S n s = some (x, t)) ↔ ∃ n, b.exec S n s = some (x, t)) ∧
    (jumpsList (.outside loops) (unwrapSinglePass b).val).Subperm
      (b.flatMap fun s => (s.jumps (.outside loops)).filter fun j => singlePass? s = none ∨
        j.2 ≠ some (.inside s)) := by
  constructor
  · intro σ ν S s x t
    rw [Block.exec_iff, Block.exec_iff, meaning_unwrapSinglePass]
  · have houtside (s : Stmt) : ∀ e ∈ LoopsAround.outside loops, e.2 ≠ .inside s := by
      intro e he
      obtain ⟨_, _, rfl⟩ := mem_map.1 he
      simp
    induction b with
    | nil => simp [unwrapSinglePass, jumpsList]
    | cons s ss ih =>
      rw [unwrapSinglePass, flatMap_cons]
      split
      · rename_i out hout
        simpa [jumpsList_append, hout] using (jumpsList_singlePass hout (houtside s)).append ih
      · rename_i hnone
        simpa [jumpsList, hnone] using (List.Subperm.refl (s.jumps (.outside loops))).append ih

end ByteLift
