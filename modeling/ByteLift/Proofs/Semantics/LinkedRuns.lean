import ByteLift.Proofs.Semantics.Completion
import ByteLift.Proofs.Semantics.Renaming

/-!
# Linked runs

Code that mirrors other code goes the same way from linked scenes, and leaves linked scenes behind
as long as control stays in the method. Once it does not, variables are of no interest any more:
what counts is what was done, and what was returned or thrown. A run that misreads a raw object is
mirrored by anything.
-/

namespace ByteLift

open Block

open Equiv (Perm)

variable {ν η : Type}

/-- Whether control stays in the method. -/
def Exit.isLocal : Exit ν → Bool
  | normal | breaking _ | continuing _ => true
  | returned _ | thrown _ | jumping _ => false

variable {y z : Exit ν}

/-- A loop passes on the end of a round that control leaves the method with. -/
theorem ofRound_of_isLocal (hy : y.isLocal = false) (l : Option Label) : y.ofRound l = some y := by
  cases y with
  | normal | breaking | continuing => cases hy
  | _ => rfl

theorem isLocal_of_ofRound {l : Option Label} (hy : y.isLocal = true) (h : y.ofRound l = some z) :
    z.isLocal = true := by
  cases y with
  | normal => cases h
  | breaking m | continuing m =>
    cases m with
    | none => cases h <;> rfl
    | some m =>
      simp only [Exit.ofRound] at h
      split at h <;> cases h <;> rfl
  | _ => cases hy

/-- Goes on behind a run, if control runs on behind it. -/
def andThen {σ : Type} (q : Option (Exit ν × σ)) (f : σ → Option (Exit ν × σ)) :
    Option (Exit ν × σ) :=
  match q with
  | some (.normal, s) => f s
  | q => q

variable {σ : Type} (S : Semantics σ ν) (n : ℕ)

/-- One block after another: the second is run if control runs on behind the first. -/
theorem exec_append (a b : Block) (s : σ) :
    exec S n (a ++ b) s = andThen (exec S n a s) (exec S n b) := by
  induction a generalizing s with
  | nil => rfl
  | cons x xs ih =>
    simp only [List.cons_append, exec, execList] at ih ⊢
    cases x.exec S n s with
    | none => rfl
    | some q =>
      obtain ⟨y, t⟩ := q
      cases y with
      | normal => exact ih t
      | _ => rfl

theorem exec_singleton (x : Stmt) (s : σ) : exec S n [x] s = x.exec S n s := by
  simp only [exec, execList]
  split
  · rename_i heq
    exact heq.symm
  · rfl

variable [SMul (Perm ℕ) ν] [SMul (Perm ℕ) η]

omit [SMul (Perm ℕ) η] in
theorem isLocal_rename {w : Naming} (h : ∀ π, w.Agrees π → y.rename π = z) :
    z.isLocal = y.isLocal := by
  rw [← h w.perm w.agrees_perm]
  cases y <;> rfl

/-- Runs that agree, unless the first one misreads a raw object. -/
inductive RunLinked (v : Var) (K : Bond ν) (w : Naming) :
    Option (Exit ν × Scene ν η) → Option (Exit ν × Scene ν η) → Prop
  | none : RunLinked v K w none none
  | inside {w' : Naming} {y : Exit ν} {s t : Scene ν η} (hw : w ≤ w') (hy : y.isLocal = true)
    (hst : Linked v K w' s t) :
    RunLinked v K w (some (y, s)) (some (y, t))
  | ended {w' : Naming} {y z : Exit ν} {s t : Scene ν η} (hw : w ≤ w') (hy : y.isLocal = false)
    (hyz : ∀ π, w'.Agrees π → y.rename π = z) (hst : Shared w' s t) :
    RunLinked v K w (some (y, s)) (some (z, t))
  | misread {x : ν} {s : Scene ν η} {r : Option (Exit ν × Scene ν η)} (h : s.misread = true) :
    RunLinked v K w (some (.thrown x, s)) r

section

variable (O : Objects ν η) (v : Var) (K : Bond ν)

/-- Statements that agree from linked scenes on. -/
def Stmt.Mirrors (x y : Stmt) : Prop :=
  ∀ n ⦃w s t⦄, Linked v K w s t → RunLinked v K w (x.exec O.semantics n s) (y.exec O.semantics n t)

/-- Blocks that agree from linked scenes on. -/
def Block.Mirrors (a b : Block) : Prop :=
  ∀ n ⦃w s t⦄, Linked v K w s t → RunLinked v K w (a.exec O.semantics n s) (b.exec O.semantics n t)

end

variable {O : Objects ν η} {v : Var} {K : Bond ν} {w w' : Naming} {s t : Scene ν η}

namespace RunLinked

variable {q r : Option (Exit ν × Scene ν η)} {x : ν}

theorem trans_le (hw : w ≤ w') (h : RunLinked v K w' q r) : RunLinked v K w q r := by
  cases h with
  | none => exact .none
  | inside hw' hy hst => exact .inside (hw.trans hw') hy hst
  | ended hw' hy hyz hst => exact .ended (hw.trans hw') hy hyz hst
  | misread h => exact .misread h

theorem thrown {y : ν} (hw : w ≤ w') (h : w'.Same x y) (hst : Shared w' s t) :
    RunLinked v K w (some (.thrown x, s)) (some (.thrown y, t)) :=
  .ended hw rfl (fun π hπ => congrArg Exit.thrown (h π hπ)) hst

theorem returned {y : ν} (hw : w ≤ w') (h : w'.Same x y) (hst : Shared w' s t) :
    RunLinked v K w (some (.returned (some x), s)) (some (.returned (some y), t)) :=
  .ended hw rfl (fun π hπ => by rw [Exit.rename, Option.map_some, h π hπ]) hst

/-- Going on behind runs that agree. Another bond may hold behind a jump, and behind what comes next
if control runs on. -/
theorem seq {K' : Bond ν} {f g : Scene ν η → Option (Exit ν × Scene ν η)} (hw : w ≤ w')
    (h : RunLinked v K' w' q r)
    (hnormal : ∀ w'', w' ≤ w'' → ∀ s t, Linked v K' w'' s t → RunLinked v K w (f s) (g t))
    (hjump : ∀ w'' kind l s t, q = some (LoopJump.exit kind l, s) → Linked v K' w'' s t →
      Linked v K w'' s t) :
    RunLinked v K w (andThen q f) (andThen r g) := by
  cases h with
  | none => exact .none
  | misread h => exact .misread h
  | @inside w'' y s t hw' hy hst =>
    cases y with
    | normal => exact hnormal w'' hw' s t hst
    | breaking l => exact .inside (hw.trans hw') hy (hjump w'' .breaking l s t rfl hst)
    | continuing l => exact .inside (hw.trans hw') hy (hjump w'' .continuing l s t rfl hst)
    | _ => cases hy
  | @ended w'' y z s t hw' hy hyz hst =>
    obtain rfl := hyz w''.perm w''.agrees_perm
    cases y with
    | normal | breaking | continuing => cases hy
    | _ => exact .ended (hw.trans hw') hy hyz hst

end RunLinked

/-! ## Statements -/

theorem mirrors_test (hO : O.Blind) {c : Expr} (hc : K.Fits v c) (w : Naming) :
    Mirrors v K (fun _ p q => p = q) w (O.semantics.test c) (O.semantics.test c) :=
  (mirrors_eval hO hc w).map fun _ _ _ _ h _ _ => (hO.truth_eq h).symm

/-- A statement without blocks mirrors itself. -/
theorem Stmt.runLinked_act (hO : O.Blind) {x : Stmt} (hblocks : x.blocks = [])
    (hx : ∀ e, x.evaluated? = some e → K.Fits v e) (hst : Linked v K w s t) :
    RunLinked v K w (some (x.act O.semantics s)) (some (x.act O.semantics t)) := by
  cases he : x.evaluated? with
  | none =>
    rw [act_of_none he, act_of_none he]
    cases x with
    | ret | goto => exact .ended le_rfl rfl (fun _ _ => rfl) hst.toShared
    | throw => cases he
    | _ => exact .inside le_rfl rfl hst
  | some e =>
    have hact := act_of_some (S := O.semantics) hblocks he
    have hlinked : ResultLinked v K Naming.Same w (O.semantics.eval e s) (O.semantics.eval e t) :=
      mirrors_eval hO (hx e he) w le_rfl hst
    generalize hq : O.semantics.eval e s = q at hlinked
    generalize hr : O.semantics.eval e t = r at hlinked
    cases hlinked with
    | @ok w' a b s' t' hw h hst =>
      rw [(hact s).1 a s' hq, (hact t).1 b t' hr]
      cases x with
      | ret => exact .returned hw h hst.toShared
      | throw => exact .thrown hw h hst.toShared
      | goto l c =>
        have htruth : O.semantics.truth b = O.semantics.truth a := hO.truth_eq h
        simp only [exit, Option.all_some, htruth]
        split
        · exact .ended hw rfl (fun _ _ => rfl) hst.toShared
        · exact .inside hw rfl hst
      | _ => exact .inside hw rfl hst
    | error hw h hst =>
      rw [(hact s).2 _ _ hq, (hact t).2 _ _ hr]
      exact .thrown hw h hst
    | misread h =>
      rw [(hact s).2 _ _ hq]
      exact .misread h

namespace Stmt.Mirrors

variable {c : Expr} {a a' : Block}

theorem ite (hO : O.Blind) {b b' : Block} (hc : K.Fits v c) (ha : a.Mirrors O v K a')
    (hb : b.Mirrors O v K b') : Stmt.Mirrors O v K (.ite c a b) (.ite c a' b') := by
  intro n w s t hst
  have htest := mirrors_test hO hc w le_rfl hst
  simp only [Stmt.exec]
  generalize O.semantics.test c s = q at htest ⊢
  generalize O.semantics.test c t = r at htest ⊢
  cases htest with
  | @ok w' p q s t hw h hst =>
    cases h
    cases p with
    | true => exact (ha n hst).trans_le hw
    | false => exact (hb n hst).trans_le hw
  | error hw h hst => exact .thrown hw h hst
  | misread h => exact .misread h

variable {l : Option Label}

/-- The rounds of a loop agree one after another. -/
theorem iterate (hO : O.Blind) (hc : K.Fits v c) (ha : a.Mirrors O v K a') (n m : ℕ)
    (hst : Linked v K w s t) :
    RunLinked v K w (iterate (O.semantics.test c) (execList O.semantics n a) l m s)
      (iterate (O.semantics.test c) (execList O.semantics n a') l m t) := by
  induction m generalizing w s t with
  | zero => exact .none
  | succ m ih =>
    have htest := mirrors_test hO hc w le_rfl hst
    simp only [ByteLift.iterate]
    generalize O.semantics.test c s = q at htest ⊢
    generalize O.semantics.test c t = r at htest ⊢
    cases htest with
    | error hw h hst => exact .thrown hw h hst
    | misread h => exact .misread h
    | @ok w' p q s t hw h hst =>
      cases h
      cases p with
      | false => exact .inside hw rfl hst
      | true =>
        have hbody : RunLinked v K w' (execList O.semantics n a s) (execList O.semantics n a' t) :=
          ha n hst
        dsimp only
        generalize execList O.semantics n a s = q at hbody ⊢
        generalize execList O.semantics n a' t = r at hbody ⊢
        cases hbody with
        | none => exact .none
        | @inside w'' y s t hw' hy hst =>
          dsimp only
          cases hround : y.ofRound l with
          | none => exact (ih hst).trans_le (hw.trans hw')
          | some z => exact .inside (hw.trans hw') (isLocal_of_ofRound hy hround) hst
        | @ended w'' y z s t hw' hy hyz hst =>
          simp only [ofRound_of_isLocal hy l, ofRound_of_isLocal ((isLocal_rename hyz).trans hy) l]
          exact .ended (hw.trans hw') hy hyz hst
        | misread h => exact .misread h

theorem loop (hO : O.Blind) (hc : K.Fits v c) (ha : a.Mirrors O v K a') :
    Stmt.Mirrors O v K (.loop l c a) (.loop l c a') := fun n _ _ _ hst => iterate hO hc ha n n hst

theorem block (ha : a.Mirrors O v K a') : Stmt.Mirrors O v K (.block a) (.block a') :=
  fun n _ _ _ hst => ha n hst

/-- A statement mirrors itself, if what it evaluates fits the bond and its blocks mirror
themselves. -/
theorem refl (hO : O.Blind) {x : Stmt} (hx : ∀ e, x.evaluated? = some e → K.Fits v e)
    (hblocks : ∀ a ∈ x.blocks, Block.Mirrors O v K a a) : Stmt.Mirrors O v K x x := by
  cases x with
  | ite c a b => exact ite hO (hx c rfl) (hblocks a (by simp)) (hblocks b (by simp))
  | loop l c a => exact loop hO (hx c rfl) (hblocks a (by simp))
  | block a => exact block (hblocks a (by simp))
  | _ => exact fun n w s t hst => runLinked_act hO rfl hx hst

end Stmt.Mirrors

/-! ## Blocks -/

namespace Block.Mirrors

theorem nil : Block.Mirrors O v K [] [] := fun _ _ _ _ hst => .inside le_rfl rfl hst

variable {b : Block} {x : Stmt}

/-- One block after another. -/
theorem append {a a' b' : Block} (ha : a.Mirrors O v K a') (hb : b.Mirrors O v K b') :
    Block.Mirrors O v K (a ++ b) (a' ++ b') := by
  intro n w s t hst
  rw [exec_append, exec_append]
  exact .seq le_rfl (ha n hst) (fun _ hw _ _ hst => (hb n hst).trans_le hw)
    fun _ _ _ _ _ _ hst => hst

theorem singleton {y : Stmt} (h : x.Mirrors O v K y) : Block.Mirrors O v K [x] [y] := by
  intro n w s t hst
  rw [exec_singleton, exec_singleton]
  exact h n hst

theorem cons {y : Stmt} {xs ys : Block} (h : x.Mirrors O v K y) (hs : Block.Mirrors O v K xs ys) :
    Block.Mirrors O v K (x :: xs) (y :: ys) := (singleton h).append hs

/-- A block mirrors itself, if all that it evaluates fits the bond. -/
theorem refl (hO : O.Blind) (hb : ∀ x ∈ b.stmts, ∀ e, x.evaluated? = some e → K.Fits v e) :
    Block.Mirrors O v K b b := by
  induction b using nestedInduction with
  | nil => exact nil
  | cons x xs ihblocks ih =>
    rw [stmts_cons, List.forall_mem_cons, List.forall_mem_append] at hb
    obtain ⟨hx, hblocks, hxs⟩ := hb
    refine cons (.refl hO hx fun a ha => ihblocks a ha fun y hy => ?_) (ih hxs)
    exact hblocks y (List.mem_flatMap.2 ⟨a, ha, hy⟩)

end Block.Mirrors

/-! ## Outcomes -/

/-- How a run ends, with the heap that it leaves behind and the operations that were done. -/
def outcome (r : Exit ν × Scene ν η) : Exit ν × η × List (Expr × List ν) :=
  (r.1, r.2.heap, r.2.done)

/-- An outcome with other numbers of objects. -/
def renameOutcome (π : Perm ℕ) (o : Exit ν × η × List (Expr × List ν)) :
    Exit ν × η × List (Expr × List ν) :=
  (o.1.rename π, π • o.2.1, o.2.2.map (renameEvent π))

/-- Runs with the same outcome, but for the numbers of objects that have been allocated in them.
Those that were there before have numbers below the given one. -/
def SameUpTo (i : ℕ) (q r : Option (Exit ν × Scene ν η)) : Prop :=
  ∃ π : Perm ℕ, (∀ k < i, π k = k) ∧ r.map outcome = q.map fun x => renameOutcome π (outcome x)

/-- A run in which no raw object is misread. -/
def Clean (q : Option (Exit ν × Scene ν η)) : Prop := ∀ r ∈ q, r.2.misread = false

/-- A scene in which all is about objects that have been allocated. -/
structure Scene.Grounded (s : Scene ν η) : Prop where
  heap : ∀ π : Perm ℕ, (∀ k < s.next, π k = k) → π • s.heap = s.heap
  vars : ∀ π : Perm ℕ, (∀ k < s.next, π k = k) → ∀ v, π • s.vars v = s.vars v
  done : ∀ π : Perm ℕ, (∀ k < s.next, π k = k) → s.done.map (renameEvent π) = s.done
  unread : s.misread = false

/-- At the beginning every object is its own counterpart. -/
def Naming.start (i : ℕ) : Naming where
  perm := 1
  known := {k | k < i}
  left := i
  right := i
  known_lt _ h := h
  perm_lt _ h := h

theorem Scene.Grounded.linked (hs : s.Grounded) (hK : K.AllowsSame) :
    Linked v K (.start s.next) s s where
  heap := hs.heap
  done := hs.done
  left := rfl
  right := rfl
  unread := hs.unread
  unread' := hs.unread
  others u _ := ⟨fun π hπ => hs.vars π hπ u, id⟩
  self := hK _ _ _ ⟨fun π hπ => hs.vars π hπ v, id⟩

theorem Shared.renameOutcome_eq (h : Shared w s t) (hyz : y.rename w.perm = z) :
    outcome (z, t) = renameOutcome w.perm (outcome (y, s)) := by
  simp only [outcome, renameOutcome, hyz, h.heap w.perm w.agrees_perm, h.done w.perm w.agrees_perm]

/-- Blocks that mirror one another have the same outcome. -/
theorem Block.Mirrors.sameUpTo {a b : Block} (h : a.Mirrors O v K b) (hK : K.AllowsSame)
    (hs : s.Grounded) {n : ℕ} (hclean : Clean (a.exec O.semantics n s)) :
    SameUpTo s.next (a.exec O.semantics n s) (b.exec O.semantics n s) ∧
    Clean (b.exec O.semantics n s) := by
  have hrun := h n (hs.linked hK)
  generalize a.exec O.semantics n s = q at hrun hclean ⊢
  generalize b.exec O.semantics n s = r at hrun ⊢
  cases hrun with
  | none => exact ⟨⟨1, fun _ _ => rfl, rfl⟩, fun _ h => by cases h⟩
  | @inside w y x t hw hy hst =>
    have hrename : y.rename w.perm = y := by
      cases y with
      | normal | breaking | continuing => rfl
      | _ => cases hy
    refine ⟨⟨w.perm, hw.agrees, ?_⟩, ?_⟩
    · simp only [Option.map_some, hst.renameOutcome_eq hrename]
    · rintro _ ⟨⟩
      exact hst.unread'
  | @ended w y z x t hw hy hyz hst =>
    refine ⟨⟨w.perm, hw.agrees, ?_⟩, ?_⟩
    · simp only [Option.map_some, hst.renameOutcome_eq (hyz _ w.agrees_perm)]
    · rintro _ ⟨⟩
      exact hst.unread'
  | @misread x t r h =>
    have := hclean _ rfl
    simp [h] at this

section

variable {ν η : Type} [MulAction (Perm ℕ) ν] [MulAction (Perm ℕ) η]

theorem renameEvent_one : renameEvent (1 : Perm ℕ) = (id : Expr × List ν → Expr × List ν) := by
  funext e
  simp [renameEvent]

variable (ρ π : Perm ℕ) (o : Exit ν × η × List (Expr × List ν))

theorem renameEvent_mul (e : Expr × List ν) :
    renameEvent (ρ * π) e = renameEvent ρ (renameEvent π e) := by
  simp [renameEvent, mul_smul]

theorem renameOutcome_one : renameOutcome 1 o = o := by
  obtain ⟨y, h, es⟩ := o
  cases y <;> simp [renameOutcome, Exit.rename, renameEvent_one]

theorem renameOutcome_mul : renameOutcome (ρ * π) o = renameOutcome ρ (renameOutcome π o) := by
  obtain ⟨y, h, es⟩ := o
  cases y <;> simp [renameOutcome, Exit.rename, renameEvent_mul, mul_smul, Function.comp_def]

namespace SameUpTo

variable {i : ℕ} {p q r : Option (Exit ν × Scene ν η)}

theorem refl (i : ℕ) (q : Option (Exit ν × Scene ν η)) : SameUpTo i q q :=
  ⟨1, fun _ _ => rfl, by simp only [renameOutcome_one]⟩

theorem trans (h : SameUpTo i p q) (h' : SameUpTo i q r) : SameUpTo i p r := by
  obtain ⟨π, hπ, hpq⟩ := h
  obtain ⟨ρ, hρ, hqr⟩ := h'
  refine ⟨ρ * π, fun k hk => ?_, ?_⟩
  · rw [Perm.mul_apply, hπ k hk, hρ k hk]
  · simp only [renameOutcome_mul]
    rw [hqr]
    have := congrArg (Option.map (renameOutcome ρ)) hpq
    simpa [Option.map_map, Function.comp_def] using this

end SameUpTo

end

end ByteLift
