import ByteLift.Proofs.Nested.Tidy
import ByteLift.Proofs.Scope.Enumeration

/-!
# Nesting comes to an end

Scopes are widened, and code is tidied, until a round changes nothing. `Repeats` says what such a
loop comes to, and both come to something for every block. All rules of tidying but one make code
smaller, `Shrinks`. That one turns a *hollow* branch round, and a round that keeps the size has
turned all of them (`full_of_tidyRound`), so of two rounds that change something one makes the code
smaller.
-/

namespace ByteLift

open Stmt Tracked

/-! ## Loops without a bound -/

/-- Repeating a step until it fails or changes nothing comes to an outcome. -/
inductive Repeats {ε α : Type} (step : α → Except ε (Tracked α)) : α → Except ε α → Prop
  | fail {a : α} {e : ε} (h : step a = .error e) : Repeats step a (.error e)
  | still {a : α} {t : Tracked α} (h : step a = .ok t) (hstill : t.changed = false) :
    Repeats step a (.ok t.val)
  | again {a : α} {t : Tracked α} {out : Except ε α} (h : step a = .ok t)
    (hchanged : t.changed = true)
    (hrest : Repeats step t.val out) : Repeats step a out

variable {n : Nat}

/-- A step that lowers a measure whenever it changes something settles in fewer rounds than that. -/
theorem repeats_settle {ε α : Type} {step : α → Tracked α} {m : α → Nat}
    (hstep : ∀ a, (step a).changed = true → m (step a).val < m a) {a : α} (hn : m a < n) :
    Repeats (fun a => (.ok (step a) : Except ε (Tracked α))) a (.ok (Tracked.settle step n a)) := by
  induction n generalizing a with
  | zero => omega
  | succ n ih =>
    rw [Tracked.settle]
    split
    · rename_i hchanged
      have hlt := hstep a hchanged
      exact .again rfl hchanged (ih (by omega))
    · rename_i hstill
      exact .still rfl (by simpa using hstill)

/-! ## Rules make code no larger -/

theorem Stmt.one_le_size (s : Stmt) : 1 ≤ s.size := by
  cases s <;> simp only [size] <;> omega

/-- What a rule may make of a block. The block gets no larger, and smaller where a `strict` rule
changes something. -/
structure Shrinks (strict : Bool) (a b : Block) (changed : Bool) : Prop where
  size_le : sizeList b ≤ sizeList a
  same : changed = false → b = a
  size_lt : strict = true → changed = true → sizeList b < sizeList a

namespace Shrinks

variable {k x y : Bool} {a a' b b' c : Block}

theorem refl (k : Bool) (a : Block) : Shrinks k a a false :=
  ⟨Nat.le_refl _, fun _ => rfl, fun _ h => (by cases h)⟩

theorem of_size_lt (h : sizeList b < sizeList a) : Shrinks k a b true :=
  ⟨Nat.le_of_lt h, fun hx => (by cases hx), fun _ _ => h⟩

/-- A strict rule that keeps the size changes nothing. -/
theorem unchanged (h : Shrinks true a b x) (hsize : sizeList b = sizeList a) :
    x = false ∧ b = a := by
  cases x with
  | false => exact ⟨rfl, h.same rfl⟩
  | true =>
    have := h.size_lt rfl rfl
    omega

variable {u v : Block}

/-- Changes to two parts of a block that is as large as its parts, and a little more. -/
theorem of_parts (ha : Shrinks k a a' x) (hb : Shrinks k b b' y)
    (hsize : sizeList v + sizeList a + sizeList b = sizeList u + sizeList a' + sizeList b')
    (hsame : x = false → y = false → v = u) : Shrinks k u v (x || y) := by
  have h₁ := ha.size_le
  have h₂ := hb.size_le
  refine ⟨by omega, fun hxy => ?_, fun hk hxy => ?_⟩
  · rw [Bool.or_eq_false_iff] at hxy
    exact hsame hxy.1 hxy.2
  · have hparts := (Bool.or_eq_true_iff.1 hxy).imp (ha.size_lt hk) (hb.size_lt hk)
    omega

theorem trans (hab : Shrinks k a b x) (hbc : Shrinks k b c y) : Shrinks k a c (x || y) := by
  refine of_parts hab hbc (by omega) fun hx hy => ?_
  rw [hbc.same hy, hab.same hx]

/-- In the only part of a block. -/
theorem part (h : Shrinks k a a' x) (hsize : sizeList v + sizeList a = sizeList u + sizeList a')
    (hsame : a' = a → v = u) : Shrinks k u v x := by
  simpa using of_parts h (refl k []) (by omega) fun hx _ => hsame (h.same hx)

theorem tracking (k : Bool) : Block.Tracking (Shrinks k) where
  refl := refl k
  trans := trans
  tail s _ _ _ h := h.part (by simp only [sizeList]; omega) (· ▸ rfl)
  arms c ss _ _ _ _ _ _ ha hb :=
    of_parts ha hb (by simp only [sizeList, size]; omega) fun hx hy => by
      rw [ha.same hx, hb.same hy]
  body l c ss _ _ _ h := h.part (by simp only [sizeList, size]; omega) (· ▸ rfl)
  inner ss _ _ _ h := h.part (by simp only [sizeList, size]; omega) (· ▸ rfl)

end Shrinks

open Block (Obeys Tidying)

section Rules

variable {k : Bool} (vars : VarTable)

theorem shrinks_stripTail (l : Label) : Obeys (Shrinks k) (stripTail l) :=
  stripTail_induction (.refl k) (Shrinks.tracking k).tail (fun c => (Shrinks.tracking k).arms c [])
    (.of_size_lt (by simp [sizeList, size]))

theorem shrinks_turnTail (l : Label) : Obeys (Shrinks k) (turnTail vars l) := by
  intro body
  rw [turnTail]
  split
  · rename_i last c a before hbody
    split
    · rename_i htail
      simp only [Bool.and_eq_true, decide_eq_true_eq] at htail
      obtain ⟨rfl, hlast⟩ := htail
      rw [← List.reverse_reverse body, hbody, eq_dropLast_append_of_getLast? hlast]
      refine .of_size_lt ?_
      simp [sizeList_append, sizeList, size, Stmt.ifThen]
      omega
    · exact .refl k body
  · exact .refl k body

theorem shrinks_pullCondition (l : Label) (cond : Expr) (body ss : Block) :
    Shrinks k (.loop (some l) cond body :: ss)
      (.loop (some l) (pullCondition vars l cond body).val.1
        (pullCondition vars l cond body).val.2 :: ss)
      (pullCondition vars l cond body).changed := by
  unfold pullCondition
  split
  · split
    · exact .of_size_lt (by simp [sizeList, size])
    · exact .refl k _
  · exact .refl k _

theorem shrinks_tidyLoop (l : Label) (cond : Expr) (body ss : Block) :
    Shrinks k (.loop (some l) cond body :: ss) ((tidyLoop vars l cond body).val :: ss)
      (tidyLoop vars l cond body).changed := by
  have hends := (Shrinks.tracking k).bind (shrinks_stripTail l) (shrinks_turnTail vars l) body
  have hcond :=
    shrinks_pullCondition (k := k) vars l cond (turnTail vars l (stripTail l body).val).val ss
  simpa [tidyLoop, Bool.or_assoc] using ((Shrinks.tracking k).body (some l) cond ss
    hends).trans hcond

variable {b out : Block} {s : Stmt}

/-- Taking breaks out of a block moves code, but into one arm of a branch only. -/
theorem sizeList_liftBreaks {label : Option Label} (h : liftBreaks label b = some out) :
    sizeList out ≤ sizeList b := by
  refine liftBreaks_induction (R := fun b out => sizeList out ≤ sizeList b) h (Nat.le_refl _)
    (fun _ => Nat.zero_le _)
    (fun _ _ _ _ hrest ha hb => ?_) fun _ h => Nat.add_le_add_left h _
  rcases hrest with ⟨rfl, rfl⟩ | ⟨rfl, rfl⟩ | ⟨rfl, rfl⟩ <;>
    simp only [sizeList, size, sizeList_append] at ha hb ⊢ <;>
    omega

theorem shrinks_singlePass (ss : Block) (h : singlePass? s = some out) :
    Shrinks k (s :: ss) (out ++ ss) true := by
  cases s <;> simp only [singlePass?] at h
  case loop label cond body =>
    split at h
    · have hbody := sizeList_liftBreaks h
      refine .of_size_lt ?_
      simp only [sizeList, size, sizeList_append]
      omega
    · cases h
  all_goals cases h

theorem shrinks_cut (ss : Block) : Shrinks k (s :: ss) [s] (!ss.isEmpty) := by
  cases ss with
  | nil => exact .refl k [s]
  | cons t ts =>
    have := one_le_size t
    refine .of_size_lt ?_
    simp only [sizeList]
    omega

theorem shrinks_dropLastIf (s : Stmt) : Obeys (Shrinks k) (dropLastIf s) := by
  intro b
  rw [dropLastIf]
  split
  · rename_i hlast
    have := one_le_size s
    have hsize := congrArg sizeList (eq_dropLast_append_of_getLast? hlast)
    simp only [sizeList_append, sizeList] at hsize
    refine .of_size_lt ?_
    simp only [val_mark]
    omega
  · exact .refl k b

theorem shrinks_dropLast (c : Expr) (a b : Block) {jump : Stmt} (ss : Block)
    (_ : jump.isJump = true) : Shrinks k (.ite c a b :: jump :: ss)
      (.ite c (dropLastIf jump a).val (dropLastIf jump b).val :: jump :: ss)
      ((dropLastIf jump a).changed || (dropLastIf jump b).changed) :=
  (Shrinks.tracking k).arms c _ (shrinks_dropLastIf jump a) (shrinks_dropLastIf jump b)

theorem tidying_shrinks : Tidying vars (Shrinks false) where
  toTracking := Shrinks.tracking false
  unwrap := shrinks_singlePass
  takeThen a b ss _ := .of_size_lt (by simp only [sizeList, size, sizeList_append]; omega)
  turn c a b ss _ :=
    ⟨by simp only [sizeList, size]; omega, fun hx => (by cases hx), fun hk => (by cases hk)⟩
  cut ss _ := shrinks_cut ss
  dropLast := shrinks_dropLast
  loop := shrinks_tidyLoop vars

/-! ## Rounds that keep the size -/

namespace Stmt

mutual

/-- No branch in a statement is hollow. -/
def full : Stmt → Bool
  | ite _ a b => (!a.isEmpty || b.isEmpty) && fullList a && fullList b
  | loop _ _ a | block a => fullList a
  | _ => true

/-- No branch in a block, at any depth, is hollow. -/
def fullList : Block → Bool
  | [] => true
  | s :: ss => s.full && fullList ss

end

/-- No branch inside the arms or the body of a statement is hollow. -/
def fullInside : Stmt → Bool
  | ite _ a b => fullList a && fullList b
  | s => s.full

theorem fullList_append (a b : Block) : fullList (a ++ b) = (fullList a && fullList b) := by
  induction a with
  | nil => simp [fullList]
  | cons s ss ih => simp [fullList, ih, Bool.and_assoc]

end Stmt

/-- Straightening leaves no hollow branch but those inside other statements. -/
theorem fullList_straighten (h : ∀ s ∈ b, s.fullInside = true) :
    fullList (straighten vars b).val = true := by
  fun_induction straighten vars b with
  | case1 => rfl
  | case2 c a b ss behind _ ih =>
    simp only [List.forall_mem_cons, fullInside, Bool.and_eq_true] at h
    simp [behind, fullList_append, h.1, ih h.2]
  | case3 c a b ss behind _ hturn ih =>
    simp only [List.forall_mem_cons, fullInside, Bool.and_eq_true, Bool.not_eq_true'] at h hturn
    simp [behind, fullList, full, h.1, hturn, ih h.2]
  | case4 c a b ss behind _ hturn ih =>
    simp only [List.forall_mem_cons, fullInside, Bool.and_eq_true] at h
    simpa [behind, fullList, full, h.1, ih h.2, Classical.or_iff_not_imp_left] using hturn
  | case5 s ss hs ih =>
    rw [List.forall_mem_cons] at h
    have hinside : s.full = s.fullInside := by
      cases s <;> first | rfl | exact absurd rfl (hs _ _ _)
    simp [fullList, hinside, h.1, ih h.2]

/-- Without hollow branches, straightening that keeps the size changes nothing. -/
theorem changed_straighten (hfull : fullList b = true)
    (hsize : sizeList (straighten vars b).val = sizeList b) :
    (straighten vars b).changed = false := by
  fun_induction straighten vars b with
  | case1 => rfl
  | case2 c a b ss =>
    have hle := ((tidying_shrinks vars).straighten ss).size_le
    change sizeList (a ++ (straighten vars ss).val) = _ at hsize
    simp only [sizeList_append, sizeList, size] at hsize
    omega
  | case3 c a b ss =>
    rename_i hturn _
    simp_all [fullList, full]
  | case4 c a b ss =>
    rename_i behind _ _ ih
    change sizeList (.ite c a b :: (straighten vars ss).val) = _ at hsize
    simp only [fullList, Bool.and_eq_true, sizeList] at hfull hsize
    simpa [behind] using ih hfull.2 (by omega)
  | case5 s ss =>
    rename_i ih
    change sizeList (s :: (straighten vars ss).val) = _ at hsize
    simp only [fullList, Bool.and_eq_true, sizeList] at hfull hsize
    simpa using ih hfull.2 (by omega)

/-- If the end of a round keeps the size, it leaves no hollow branch, and changes nothing if there
was none. -/
theorem full_of_tidyEnds (h : ∀ s ∈ b, s.fullInside = true)
    (hsize : sizeList (tidyEnds vars b).val = sizeList b) : fullList (tidyEnds vars b).val = true ∧
    (fullList b = true → (tidyEnds vars b).changed = false) := by
  -- The rules that would make it smaller do not fire.
  have hR := Shrinks.tracking true
  have hfirst := (hR.unwrapSinglePass shrinks_singlePass b).trans
    ((hR.dropUnreached (fun ss _ => shrinks_cut ss) _).trans
    (hR.dropRepeatedJumps shrinks_dropLast _))
  have hlast :=
    (tidying_shrinks vars).straighten (dropRepeatedJumps
      (dropUnreached (unwrapSinglePass b).val).val).val
  have h₁ := hfirst.size_le
  have h₂ := hlast.size_le
  simp only [tidyEnds, val_bind, changed_bind] at hsize ⊢
  obtain ⟨hchanged, hsame⟩ := hfirst.unchanged (by omega)
  rw [hsame] at hsize ⊢
  refine ⟨fullList_straighten vars h, fun hfull => ?_⟩
  rw [← Bool.or_assoc, ← Bool.or_assoc, Bool.or_assoc _ _ (dropRepeatedJumps _).changed, hchanged,
    changed_straighten vars hfull hsize]
  rfl

mutual

theorem full_of_tidyStmt : (s : Stmt) → (tidyStmt vars s).val.size = s.size →
    (tidyStmt vars s).val.fullInside = true ∧ (s.full = true → (tidyStmt vars s).changed = false)
  | .ite c a b, hsize => by
    have h₁ := ((tidying_shrinks vars).tidyRound a).size_le
    have h₂ := ((tidying_shrinks vars).tidyRound b).size_le
    have heq :
      tidyStmt vars (.ite c a b) = do return .ite c (← tidyRound vars a) (← tidyRound vars b) := by
      simp [tidyStmt, tidyRound]
    simp only [heq, val_bind, val_pure, size] at hsize ⊢
    obtain ⟨ha, hsameA⟩ := full_of_tidyRound a (by omega)
    obtain ⟨hb, hsameB⟩ := full_of_tidyRound b (by omega)
    refine ⟨by simp [fullInside, ha, hb], fun hfull => ?_⟩
    simp only [full, Bool.and_eq_true] at hfull
    simp [hsameA hfull.1.2, hsameB hfull.2]
  | .loop (some l) c a, hsize => by
    have h₁ := ((tidying_shrinks vars).tidyRound a).size_le
    have hloop := shrinks_tidyLoop (k := true) vars l c (tidyRound vars a).val []
    have h₂ := hloop.size_le
    have heq : tidyStmt vars (.loop (some l) c a) = tidyRound vars a >>= tidyLoop vars l c := by
      simp [tidyStmt, tidyRound]
    simp only [heq, val_bind, sizeList, size] at hsize h₂ ⊢
    obtain ⟨hchanged, hsame⟩ := hloop.unchanged (by simp only [sizeList, size]; omega)
    obtain ⟨ha, hsameA⟩ := full_of_tidyRound a (by omega)
    rw [List.singleton_inj.1 hsame]
    exact ⟨ha, fun hfull => by simp [hsameA hfull, hchanged]⟩
  | .loop none c a, hsize => by
    have heq : tidyStmt vars (.loop none c a) = do return .loop none c (← tidyRound vars a) := by
      simp [tidyStmt, tidyRound]
    simp only [heq, val_bind, val_pure, size] at hsize ⊢
    obtain ⟨ha, hsameA⟩ := full_of_tidyRound a (by omega)
    exact ⟨ha, fun hfull => by simp [hsameA hfull]⟩
  | .block a, hsize => by
    have heq : tidyStmt vars (.block a) = do return .block (← tidyRound vars a) := by
      simp [tidyStmt, tidyRound]
    simp only [heq, val_bind, val_pure, size] at hsize ⊢
    obtain ⟨ha, hsameA⟩ := full_of_tidyRound a (by omega)
    exact ⟨ha, fun hfull => by simp [hsameA hfull]⟩
  | .expr _, _ | .declare _ _, _ | .breakLoop _, _ | .continueLoop _, _ | .ret _, _ | .throw _, _
  | .label _, _ | .goto _ _, _ => by
    simp [tidyStmt, fullInside, full]

theorem full_of_tidyStmts : (b : Block) → sizeList (tidyStmts vars b).val = sizeList b →
    (∀ s ∈ (tidyStmts vars b).val, s.fullInside = true) ∧
    (fullList b = true → (tidyStmts vars b).changed = false)
  | [], _ => by simp [tidyStmts]
  | s :: ss, hsize => by
    have h₁ := ((tidying_shrinks vars).tidyStmts [s]).size_le
    have h₂ := ((tidying_shrinks vars).tidyStmts ss).size_le
    simp only [tidyStmts, val_bind, val_pure, sizeList] at hsize h₁ ⊢
    obtain ⟨hs, hsame⟩ := full_of_tidyStmt s (by omega)
    obtain ⟨hss, hsames⟩ := full_of_tidyStmts ss (by omega)
    refine ⟨List.forall_mem_cons.2 ⟨hs, hss⟩, fun hfull => ?_⟩
    simp only [fullList, Bool.and_eq_true] at hfull
    simp [hsame hfull.1, hsames hfull.2]

/-- A round that keeps the size leaves no hollow branch, and changes nothing if there was none. -/
theorem full_of_tidyRound (b : Block) (hsize : sizeList (tidyRound vars b).val = sizeList b) :
    fullList (tidyRound vars b).val = true ∧
    (fullList b = true → (tidyRound vars b).changed = false) := by
  have hstmts := (tidying_shrinks vars).tidyStmts b
  have h₁ := hstmts.size_le
  have h₂ := ((tidying_shrinks vars).tidyEnds (tidyStmts vars b).val).size_le
  simp only [tidyRound, val_bind, changed_bind] at hsize ⊢
  obtain ⟨hinside, hsame⟩ := full_of_tidyStmts b (by omega)
  obtain ⟨hdone, hsameEnds⟩ := full_of_tidyEnds vars hinside (by omega)
  refine ⟨hdone, fun hfull => ?_⟩
  rw [hsame hfull, hsameEnds (by rwa [hstmts.same (hsame hfull)])]
  rfl

end

end Rules

/-! ## Both loops -/

/-- One round of widening, over all pairs of scopes. -/
def widenRound (scopes : List Scope) : Except Label (Tracked (List Scope)) :=
  widenPairs (pairs scopes.length) scopes

/-- With more rounds than there is room left, widening is repeated until nothing changes. -/
theorem repeats_widen {k : Nat} {scopes : List Scope} (hn : ∀ s ∈ scopes, s.stop ≤ n)
    (hk : slack n scopes < k) : Repeats widenRound scopes (widen k scopes) := by
  induction k generalizing scopes with
  | zero => omega
  | succ k ih =>
    simp only [widen, bind, Except.bind]
    cases hround : widenPairs (pairs scopes.length) scopes with
    | error l => exact .fail hround
    | ok r =>
      have hprog := progress_widenPairs hn hround
      have hslack := hprog.slack_le
      cases hc : r.changed with
      | true =>
        simp only [hc, if_true, Bool.toNat_true] at hslack ⊢
        exact .again hround hc (ih hprog.stop_le (by omega))
      | false =>
        simp only [hc]
        exact .still hround hc

/-- A round of tidying that changes something takes a statement away, or it finds hollow branches
and leaves none. -/
theorem repeats_tidy (vars : VarTable) (b : Block) :
    Repeats (fun b => (.ok (tidyRound vars b) : Except Failure (Tracked Block))) b
      (.ok (tidy vars b)) := by
  refine repeats_settle (m := fun b => 2 * sizeList b + (!fullList b).toNat)
    (fun b hchanged => ?_) ?_
  · have hle := ((tidying_shrinks vars).tidyRound b).size_le
    have hnew := Bool.toNat_le (!fullList (tidyRound vars b).val)
    by_cases hsize : sizeList (tidyRound vars b).val = sizeList b
    · obtain ⟨hfull, hsame⟩ := full_of_tidyRound vars b hsize
      have hhollow : fullList b = false := by
        by_contra hfull
        rw [hsame (by simpa using hfull)] at hchanged
        cases hchanged
      simp [hsize, hfull, hhollow]
    · omega
  · have hold := Bool.toNat_le (!fullList b)
    simp only [Block.size]
    omega

/-- Laying scopes over code fails in one way only. -/
theorem scopes_error {flat : Block} {o : Enumeration flat} {labels : LabelTable} {e : Failure}
    (h : scopes flat o labels = .error e) : ∃ name, e = .irreducible name := by
  unfold scopes at h
  split at h
  · cases h
    exact ⟨_, rfl⟩
  · split at h
    · cases h
      exact ⟨_, rfl⟩
    · cases h

/-- Nesting always comes to an end. Widening, in whatever order the scopes are listed, and tidying,
of any code, reach a round that changes nothing, or in the case of widening a failure. What they
come to is what nesting goes on with, and in every order it gives nested code or says that the flow
is irreducible. -/
theorem nest_settles (flat : Block) (labels : LabelTable) (vars : VarTable) :
    (∀ o : Enumeration flat, Repeats widenRound o.scopes o.widened) ∧
      (∀ b, Repeats (fun b => (.ok (tidyRound vars b) : Except Failure (Tracked Block))) b
        (.ok (tidy vars b))) ∧
      ∀ order : ScopeOrder, (∃ nested, flat.nest labels vars order = .ok nested) ∨
        ∃ name, flat.nest labels vars order = .error (.irreducible name) := by
  refine ⟨fun o => repeats_widen (fun s hs => (o.fits hs).stop_le) o.slack_lt, repeats_tidy vars,
    fun order => ?_⟩
  simp only [Block.nest, bind, Except.bind]
  obtain ⟨turned, turnedLabels⟩ := rotateLoops vars flat.length flat labels
  cases hscopes : scopes turned (order turned) turnedLabels with
  | error e =>
    obtain ⟨name, rfl⟩ := scopes_error hscopes
    exact .inr ⟨name, rfl⟩
  | ok found => exact .inl ⟨_, rfl⟩

end ByteLift
