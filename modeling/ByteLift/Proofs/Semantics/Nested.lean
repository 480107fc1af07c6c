import ByteLift.Proofs.Semantics.Condition
import ByteLift.Proofs.Variables.Uses

/-!
# Running nested code

`Block.exec` runs a block with a bound on the rounds of each loop. A run that has no result under
any bound runs forever. Proofs work with `Block.meaning`, the relation between the states before and
behind a block and the way it ends: a rewrite that keeps the meaning of a part keeps that of the
whole. `Block.exec_iff` ties the two together.
-/

namespace ByteLift

/-- How a run of statements ends. -/
inductive Exit (ν : Type)
  /-- Control runs on behind the statements. -/
  | normal
  | breaking (label : Option Label)
  | continuing (label : Option Label)
  | returned (value : Option ν)
  | thrown (value : ν)
  /-- A goto, which only flat code can follow. -/
  | jumping (label : Label)
deriving DecidableEq

/-- What the end of a round means for the loop with the given label: `none` if there is a next
round, otherwise how the loop ends. -/
def Exit.ofRound {ν : Type} (label : Option Label) : Exit ν → Option (Exit ν)
  | normal | continuing none => none
  | continuing (some l) => if some l = label then none else some (continuing (some l))
  | breaking none => some normal
  | breaking (some l) => if some l = label then some normal else some (breaking (some l))
  | x => some x

section Exec

variable {σ ν : Type} (S : Semantics σ ν)

/-- How a statement without blocks ends, and in which state. A declaration with a value is an
assignment. Statements with blocks are not run here. -/
def Stmt.act (x : Stmt) (s : σ) : Exit ν × σ :=
  match x with
  | .expr e =>
    match S.eval e s with
    | .ok _ s' => (.normal, s')
    | .error v s' => (.thrown v, s')
  | .declare v (some e) =>
    match S.eval (.assign (.var v) e) s with
    | .ok _ s' => (.normal, s')
    | .error v s' => (.thrown v, s')
  | .ret (some e) =>
    match S.eval e s with
    | .ok v s' => (.returned (some v), s')
    | .error v s' => (.thrown v, s')
  | .throw e =>
    match S.eval e s with
    | .ok v s' | .error v s' => (.thrown v, s')
  | .goto l (some c) =>
    match S.test c s with
    | .ok p s' => (if p then .jumping l else .normal, s')
    | .error v s' => (.thrown v, s')
  | .goto l none => (.jumping l, s)
  | .ret none => (.returned none, s)
  | .breakLoop l => (.breaking l, s)
  | .continueLoop l => (.continuing l, s)
  | .declare _ none | .label _ | .ite .. | .loop .. | .block _ => (.normal, s)

/-- The expression that a statement evaluates first. -/
def Stmt.evaluated? : Stmt → Option Expr
  | expr e | ret (some e) | throw e | goto _ (some e) | ite e _ _ | loop _ e _ => some e
  | declare v (some e) => some (.assign (.var v) e)
  | _ => none

/-- How a statement without blocks ends, given the value of the expression that it evaluates. -/
def Stmt.exit (x : Stmt) (value : Option ν) : Exit ν :=
  match x with
  | .ret _ => .returned value
  | .throw _ => value.elim .normal .thrown
  | .goto l _ => if value.all S.truth then .jumping l else .normal
  | .breakLoop l => .breaking l
  | .continueLoop l => .continuing l
  | _ => .normal

/-- Runs at most `n` rounds of a loop. -/
def iterate (test : EStateM ν σ Bool) (body : σ → Option (Exit ν × σ)) (label : Option Label) :
    Nat → σ → Option (Exit ν × σ)
  | 0, _ => none
  | n + 1, s =>
    match test s with
    | .error v s' => some (.thrown v, s')
    | .ok false s' => some (.normal, s')
    | .ok true s' =>
      match body s' with
      | none => none
      | some (x, s'') =>
        match x.ofRound label with
        | none => iterate test body label n s''
        | some y => some (y, s'')

mutual

/-- Runs a statement, each loop for at most `n` rounds. -/
def Stmt.exec (n : Nat) : Stmt → σ → Option (Exit ν × σ)
  | .ite c a b, s =>
    match S.test c s with
    | .error v s' => some (.thrown v, s')
    | .ok true s' => execList n a s'
    | .ok false s' => execList n b s'
  | .loop label c a, s => iterate (S.test c) (execList n a) label n s
  | .block a, s => execList n a s
  | x, s => some (x.act S s)

/-- Runs the statements of a block, each loop for at most `n` rounds. -/
def execList (n : Nat) : Block → σ → Option (Exit ν × σ)
  | [], s => some (.normal, s)
  | x :: xs, s =>
    match Stmt.exec n x s with
    | some (.normal, s') => execList n xs s'
    | r => r

end

/-- Runs a block, each loop for at most `n` rounds. -/
def Block.exec (n : Nat) (b : Block) (s : σ) : Option (Exit ν × σ) := execList S n b s

variable {S} {x : Stmt} {e : Expr} {s t : σ}

/-- A statement that evaluates nothing leaves the state as it is. -/
theorem Stmt.act_of_none (hx : x.evaluated? = none) (s : σ) : x.act S s = (x.exit S none, s) := by
  cases x with
  | declare _ o | ret o | goto _ o =>
    cases o with
    | none => rfl
    | some => cases hx
  | breakLoop | continueLoop | label | block => rfl
  | _ => cases hx

/-- A simple statement ends as the expression that it evaluates. -/
theorem Stmt.act_of_some (hblocks : x.blocks = []) (hx : x.evaluated? = some e) (s : σ) :
    (∀ v t, S.eval e s = .ok v t → x.act S s = (x.exit S (some v), t)) ∧
      ∀ v t, S.eval e s = .error v t → x.act S s = (.thrown v, t) := by
  cases x with
  | ite | loop | block => cases hblocks
  | declare _ o | ret o | goto _ o =>
    cases o with
    | none => cases hx
    | some =>
      cases hx
      constructor <;> intro v t h <;> simp [act, exit, Semantics.test, Functor.map, EStateM.map, h]
  | expr | throw =>
    cases hx
    constructor <;> intro v t h <;> simp [act, exit, h]
  | _ => cases hx

/-- A statement without blocks ends as its expression lets it. -/
theorem Stmt.cases_of_act (hblocks : x.blocks = []) {y : Exit ν} (h : x.act S s = (y, t)) :
    (x.evaluated? = none ∧ y = x.exit S none ∧ t = s) ∨ ∃ e v, x.evaluated? = some e ∧
      (S.eval e s = .ok v t ∧ y = x.exit S (some v) ∨ S.eval e s = .error v t ∧ y = .thrown v) := by
  cases hx : x.evaluated? with
  | none =>
    rw [act_of_none hx] at h
    cases h
    exact .inl ⟨rfl, rfl, rfl⟩
  | some e =>
    refine .inr ⟨e, ?_⟩
    cases he : S.eval e s with
    | ok v u =>
      rw [(act_of_some hblocks hx s).1 v u he] at h
      cases h
      exact ⟨v, rfl, .inl ⟨rfl, rfl⟩⟩
    | error v u =>
      rw [(act_of_some hblocks hx s).2 v u he] at h
      cases h
      exact ⟨v, rfl, .inr ⟨rfl, rfl⟩⟩

/-- What an expression statement does is up to the expression. -/
theorem Stmt.exec_expr (S : Semantics σ ν) (e : Expr) (n : Nat) (s : σ) :
    (Stmt.expr e).exec S n s = match S.eval e s with
      | .ok _ t => some (.normal, t)
      | .error a t => some (.thrown a, t) := by
  simp only [Stmt.exec, Stmt.act]
  cases S.eval e s <;> rfl

/-- A declaration with a value runs as an assignment does. -/
theorem Stmt.exec_of_assignment? (S : Semantics σ ν) {v : Var} {value : Expr}
    (hx : x.assignment? = some (v, value)) (n : Nat) (s : σ) :
    x.exec S n s = (Stmt.expr (.assign (.var v) value)).exec S n s := by
  rcases eq_of_assignment? hx with rfl | rfl <;> rfl

end Exec

/-! ## Meanings -/

/-- What can come of running code: from a state, how it ends and in which state. -/
abbrev Meaning (σ ν : Type) := σ → Exit ν → σ → Prop

namespace Meaning

variable {σ ν : Type}

/-- Does nothing. -/
def skip : Meaning σ ν := fun s x s' => x = .normal ∧ s' = s

/-- Ends as a function of the state says. -/
def ofFun (f : σ → Exit ν × σ) : Meaning σ ν := fun s x s' => f s = (x, s')

/-- One after another: the second only if the first runs on. -/
def seq (m k : Meaning σ ν) : Meaning σ ν := fun s x s' =>
  (∃ t, m s .normal t ∧ k t x s') ∨ (x ≠ .normal ∧ m s x s')

/-- One or the other, as a condition says. -/
def branch (test : EStateM ν σ Bool) (m k : Meaning σ ν) : Meaning σ ν := fun s x s' =>
  match test s with
  | .error v t => x = .thrown v ∧ s' = t
  | .ok true t => m t x s'
  | .ok false t => k t x s'

/-- Again and again, until the condition fails or a round ends in a jump out of the loop. -/
inductive iter (test : EStateM ν σ Bool) (label : Option Label) (m : Meaning σ ν) : Meaning σ ν
  | throws {s v t} : test s = .error v t → iter test label m s (.thrown v) t
  | done {s t} : test s = .ok false t → iter test label m s .normal t
  | leaves {s t x u y} : test s = .ok true t → m t x u → x.ofRound label = some y →
      iter test label m s y u
  | again {s t x u y u'} : test s = .ok true t → m t x u → x.ofRound label = none →
      iter test label m u y u' → iter test label m s y u'

end Meaning

section Meaning

variable {σ ν : Type} (S : Semantics σ ν)

mutual

/-- The meaning of a statement. -/
def Stmt.meaning : Stmt → Meaning σ ν
  | .ite c a b => .branch (S.test c) (meaningList a) (meaningList b)
  | .loop label c a => .iter (S.test c) label (meaningList a)
  | .block a => meaningList a
  | x => .ofFun (x.act S)

/-- The meaning of the statements of a block, one after another. -/
def meaningList : Block → Meaning σ ν
  | [] => .skip
  | x :: xs => .seq (Stmt.meaning x) (meaningList xs)

end

/-- The meaning of a block. -/
def Block.meaning (b : Block) : Meaning σ ν := meaningList S b

end Meaning

/-! ## Runs and meanings -/

section Bounds

variable {σ ν : Type} {S : Semantics σ ν} {test : EStateM ν σ Bool} {label : Option Label}
  {n m : Nat} {s t : σ} {body : σ → Option (Exit ν × σ)} {y : Exit ν}

theorem iterate_mono {body' : σ → Option (Exit ν × σ)}
    (hbody : ∀ s r, body s = some r → body' s = some r)
    (hnm : n ≤ m) {r : Exit ν × σ} (h : iterate test body label n s = some r) :
    iterate test body' label m s = some r := by
  induction n generalizing m s with
  | zero => cases h
  | succ n ih =>
    obtain ⟨m, rfl⟩ : ∃ k, m = k + 1 := ⟨m - 1, by omega⟩
    simp only [iterate] at h ⊢
    split at h
    · exact h
    · exact h
    · rename_i t _
      cases hb : body t with
      | none => rw [hb] at h; cases h
      | some q =>
        rw [hbody _ _ hb]
        rw [hb] at h
        simp only at h ⊢
        split at h
        · exact ih (by omega) h
        · exact h

mutual

/-- A run that ends within a bound ends the same way within a larger one. -/
theorem Stmt.exec_mono (hnm : n ≤ m) : ∀ (x : Stmt) {s : σ} {r : Exit ν × σ},
    x.exec S n s = some r → x.exec S m s = some r
  | .ite c a b, s, r, h => by
    simp only [Stmt.exec] at h ⊢
    split at h
    · exact h
    · exact execList_mono hnm a h
    · exact execList_mono hnm b h
  | .loop label c a, s, r, h => by
    simp only [Stmt.exec] at h ⊢
    exact iterate_mono (fun _ _ => execList_mono hnm a) hnm h
  | .block a, s, r, h => by
    simp only [Stmt.exec] at h ⊢
    exact execList_mono hnm a h
  | .expr _, _, _, h | .declare .., _, _, h | .breakLoop _, _, _, h | .continueLoop _, _, _, h
  | .ret _, _, _, h | .throw _, _, _, h | .label _, _, _, h | .goto .., _, _, h => h

theorem execList_mono (hnm : n ≤ m) : ∀ (b : Block) {s : σ} {r : Exit ν × σ},
    execList S n b s = some r → execList S m b s = some r
  | [], _, _, h => h
  | x :: xs, s, r, h => by
    simp only [execList] at h ⊢
    cases hx : x.exec S n s with
    | none => rw [hx] at h; cases h
    | some q =>
      obtain ⟨y, t⟩ := q
      rw [Stmt.exec_mono hnm x hx]
      rw [hx] at h
      cases y with
      | normal => exact execList_mono hnm xs h
      | _ => exact h

end

theorem iter_of_iterate {m : Meaning σ ν} (hbody : ∀ s y t, body s = some (y, t) → m s y t)
    (h : iterate test body label n s = some (y, t)) : Meaning.iter test label m s y t := by
  induction n generalizing s with
  | zero => cases h
  | succ n ih =>
    simp only [iterate] at h
    split at h
    · rename_i htest
      cases h
      exact .throws htest
    · rename_i htest
      cases h
      exact .done htest
    · rename_i u htest
      cases hb : body u with
      | none => rw [hb] at h; cases h
      | some q =>
        obtain ⟨x, w⟩ := q
        rw [hb] at h
        simp only at h
        split at h
        · exact .again htest (hbody _ _ _ hb) ‹_› (ih h)
        · cases h
          exact .leaves htest (hbody _ _ _ hb) ‹_›

/-- A loop that ends does so within some bound, if its body does and a larger bound only helps. -/
theorem iterate_of_iter {body : Nat → σ → Option (Exit ν × σ)} {m : Meaning σ ν}
    (hmono : ∀ {i j}, i ≤ j → ∀ s r, body i s = some r → body j s = some r)
    (hbody : ∀ s y t, m s y t → ∃ n, body n s = some (y, t)) (h : Meaning.iter test label m s y t) :
    ∃ n, iterate test (body n) label n s = some (y, t) := by
  induction h with
  | throws htest => exact ⟨1, by simp [iterate, htest]⟩
  | done htest => exact ⟨1, by simp [iterate, htest]⟩
  | leaves htest hm hx =>
    obtain ⟨n, hn⟩ := hbody _ _ _ hm
    refine ⟨n + 1, ?_⟩
    simp [iterate, htest, hmono (Nat.le_succ n) _ _ hn, hx]
  | again htest hm hx _ ih =>
    obtain ⟨n, hn⟩ := hbody _ _ _ hm
    obtain ⟨k, hk⟩ := ih
    refine ⟨max n k + 1, ?_⟩
    have hrest := iterate_mono (hmono (j := max n k + 1) (by omega)) (Nat.le_max_right n k) hk
    simp [iterate, htest, hmono (j := max n k + 1) (by omega) _ _ hn, hx, hrest]

variable (b : Block)

/-- A run within a bound ends in a way that the meaning allows. -/
theorem meaningList_of_exec (h : execList S n b s = some (y, t)) : meaningList S b s y t := by
  induction b using Block.nestedInduction generalizing s y t with
  | nil =>
    simp only [execList, Option.some.injEq, Prod.mk.injEq] at h
    exact ⟨h.1.symm, h.2.symm⟩
  | cons x xs ihblocks ihxs =>
    have hfirst {y : Exit ν} {t : σ} (h : x.exec S n s = some (y, t)) : x.meaning S s y t := by
      cases x with
      | ite c a b =>
        simp only [Stmt.exec] at h
        simp only [Stmt.meaning, Meaning.branch]
        split at h
        · simpa [eq_comm] using h
        · exact ihblocks a (by simp) h
        · exact ihblocks b (by simp) h
      | loop label c a =>
        simp only [Stmt.exec] at h
        exact iter_of_iterate (fun _ _ _ => ihblocks a (by simp)) h
      | block a =>
        simp only [Stmt.exec] at h
        exact ihblocks a (by simp) h
      | _ => exact Option.some.inj h
    simp only [execList] at h
    cases hx : x.exec S n s with
    | none => rw [hx] at h; cases h
    | some q =>
      obtain ⟨z, u⟩ := q
      rw [hx] at h
      cases z with
      | normal => exact .inl ⟨u, hfirst hx, ihxs h⟩
      | _ => cases h; exact .inr ⟨by simp, hfirst hx⟩

/-- A run that the meaning allows ends within some bound. -/
theorem execList_of_meaning (h : meaningList S b s y t) : ∃ n, execList S n b s = some (y, t) := by
  induction b using Block.nestedInduction generalizing s y t with
  | nil => exact ⟨0, by simp [execList, h.1, h.2]⟩
  | cons x xs ihblocks ihxs =>
    have hfirst {y : Exit ν} {t : σ} (h : x.meaning S s y t) : ∃ n, x.exec S n s = some (y, t) := by
      cases x with
      | ite c a b =>
        simp only [Stmt.meaning, Meaning.branch] at h
        simp only [Stmt.exec]
        split at h
        · exact ⟨0, by simp [h]⟩
        · exact ihblocks a (by simp) h
        · exact ihblocks b (by simp) h
      | loop label c a =>
        simp only [Stmt.meaning] at h
        simp only [Stmt.exec]
        have hmono {i j : Nat} (hij : i ≤ j) (s : σ) (r : Exit ν × σ)
            (h : execList S i a s = some r) : execList S j a s = some r := execList_mono hij a h
        exact iterate_of_iter hmono (fun _ _ _ => ihblocks a (by simp)) h
      | block a =>
        simp only [Stmt.exec]
        exact ihblocks a (by simp) h
      | _ => exact ⟨0, congrArg some h⟩
    rcases h with ⟨u, hx, hxs⟩ | ⟨hy, hx⟩
    · obtain ⟨n, hn⟩ := hfirst hx
      obtain ⟨k, hk⟩ := ihxs hxs
      refine ⟨max n k, ?_⟩
      simp only [execList, Stmt.exec_mono (Nat.le_max_left n k) x hn]
      exact execList_mono (Nat.le_max_right n k) xs hk
    · obtain ⟨n, hn⟩ := hfirst hx
      refine ⟨n, ?_⟩
      simp only [execList, hn]
      cases y with
      | normal => exact absurd rfl hy
      | _ => rfl

/-- A block ends in a way within some bound exactly if its meaning allows that. -/
theorem Block.exec_iff (s : σ) (y : Exit ν) (t : σ) :
    (∃ n, b.exec S n s = some (y, t)) ↔ b.meaning S s y t :=
  ⟨fun ⟨_, h⟩ => meaningList_of_exec b h, execList_of_meaning b⟩

end Bounds

end ByteLift
