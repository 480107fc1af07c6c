import Mathlib.Algebra.Module.PUnit
import ByteLift.Proofs.Cleanup.Fusion

/-!
# Construction keeps what a body does

Putting allocations together with constructors, and forwarding new objects, changes when objects are
allocated and where they are kept. If the body is guarded and never misreads a raw object, all else
stays: the operations, on the same values but for the numbers of objects, and the way a run ends. A
body that is not guarded may run a constructor on something never allocated.
-/

namespace ByteLift

open Block

open Equiv (Perm)

variable {v : Var} {ν η : Type} {O : Objects ν η} {a b : Block}

namespace Cleanup

open Relation

/-! ## Steps -/

section

variable {s : Stmt} {e : Expr}

theorem inherited_writesWhole : Inherited (·.writesWhole = true) :=
  fun _ _ h => (writesWhole_cons.1 h).2

/-- How often a statement itself uses a variable. -/
def ownUseCount (v : Var) (s : Stmt) : ℕ := s.ownUses.countP (·.var = v)

theorem total_ownUseCount (v : Var) (b : Block) :
    b.total (ownUseCount v) = b.uses.countP (·.var = v) := by
  rw [Block.uses, List.countP_flatMap]
  rfl

theorem countP_var (v : Var) (us : List Use) :
    us.countP (·.var = v) = us.count (.read v) + us.count (.write v) := by
  induction us with
  | nil => rfl
  | cons u us ih =>
    rw [List.countP_cons, List.count_cons, List.count_cons, ih]
    cases u with
    | read w | write w =>
      by_cases h : w = v <;> simp [Use.var, h]
      omega

variable {m : MethodRef} {args : List Expr}

/-- A variable that an object is forwarded from is written and read, and once more for each use in
the arguments. -/
theorem total_ownUseCount_forwarded {t : Stmt} {target : Var}
    (hs : s.assignment? = some (v, .new m args))
    (ht : t.assignment? = some (target, .var v)) (hne : target ≠ v) :
    Block.total (ownUseCount v) [s, t] = 2 + (Expr.new m args).uses.countP (·.var = v) := by
  rw [total_ownUseCount, uses_of_assignment? hs, uses_of_assignment? ht]
  simp [Use.var, Expr.uses, Expr.usesAs, hne]
  omega

theorem constructions_of_evaluated? (hs : s.evaluated? = some e) :
    e.constructions v = s.constructions v := by
  cases s with
  | declare u init =>
    cases init with
    | none => cases hs
    | some value =>
      cases hs
      simp [Stmt.constructions, Stmt.exprs, Expr.constructions, Expr.subexprs,
        Expr.isConstructionOf]
  | expr d | throw d | ite d | loop _ d => cases hs; simp [Stmt.constructions, Stmt.exprs]
  | ret value | goto _ value =>
    cases value with
    | none => cases hs
    | some value =>
      cases hs
      simp [Stmt.constructions, Stmt.exprs]
  | _ => cases hs

/-- An argument that does not read a variable does not mention it, if variables are assigned only as
a whole. -/
theorem mentions_args {before ss : Block}
    (hwhole : Block.writesWhole
      (s :: (before ++ [.expr (.construct (.var v) m args)]) ++ ss) = true)
    (hargs : ∀ e ∈ args, e.reads v = false) : ∀ e ∈ args, e.mentions v = false := by
  intro e he
  have hcall : (Stmt.expr (.construct (.var v) m args)).writesWhole = true := by
    apply List.all_eq_true.1 hwhole
    simp [stmts_cons]
  have hfree : (Expr.construct (.var v) m args).isWriteFree = true := by
    simpa [Stmt.writesWhole, Stmt.exprs] using hcall
  have hwrite : .write v ∉ e.uses := by
    intro h
    apply Expr.isWriteFree_iff.1 hfree v
    exact List.mem_append_right _ (Expr.mem_usesList.2 ⟨e, he, h⟩)
  have hread := hargs e he
  simp only [Expr.reads, Expr.mentions, List.contains_eq_mem, decide_eq_false_iff_not,
    Bool.or_eq_false_iff] at hread ⊢
  exact ⟨hread, hwrite⟩

end

section

variable [SMul (Perm ℕ) ν] [SMul (Perm ℕ) η]

/-- If the constructor in the place that is changed is the only one that is run on the variable, the
variable may hold a raw object everywhere else. -/
theorem mirrors_of_constructions (hO : O.Blind) (hwhole : a.writesWhole = true)
    (hone : a.constructions v ≤ 1) (h : InPlace (Fused v) a b) : a.Mirrors O v .sameOrRaw b := by
  refine .inPlace (f := Stmt.constructions v) (k := 1) hO inherited_writesWhole
    ?_ ?_ ?_ h hwhole hone
  · intro p q ss hcore hp _
    obtain ⟨hs, hbefore, hargs⟩ := hcore
    exact mirrors_fused hO (fun _ _ _ => Or.inl) hs hbefore (mentions_args hp hargs)
      (.inr fun _ _ _ => Or.inr)
  · intro p q hcore
    obtain ⟨hs, hbefore, hargs⟩ := hcore
    simp only [total_cons, total_append, constructions_construct, if_pos]
    omega
  · intro y hy e he
    exact Bond.fits_sameOrRaw ((constructions_of_evaluated? he).trans hy)

/-- If nothing leaves the block between an allocation and its constructor, the variable is the same
everywhere else. -/
theorem mirrors_of_exposes (hO : O.Blind) (hwhole : a.writesWhole = true)
    (hexposes : exposes v a = false) (h : InPlace (Fused v) a b) : a.Mirrors O v .same b := by
  -- No statement counts here: any of them may use the variable.
  refine .inPlace (f := fun _ => 0) (k := 0) (P := fun b => b.writesWhole = true ∧
    exposes v b = false) hO ?_ ?_ ?_ ?_ h
    ⟨hwhole, hexposes⟩ ?_
  · intro y ys hy
    have hwhole := inherited_writesWhole y ys hy.1
    have hexposes := inherited_exposes v y ys hy.2
    exact ⟨fun a ha => ⟨hwhole.1 a ha, hexposes.1 a ha⟩, hwhole.2, hexposes.2⟩
  · intro p q ss hcore hp _
    obtain ⟨hs, hbefore, hargs⟩ := hcore
    have hleaves := leaves_eq_false_of_exposes hs hbefore (by simpa using hp.2)
    exact mirrors_fused hO (fun _ _ _ => id) hs hbefore (mentions_args hp.1 hargs) (.inl hleaves)
  · exact fun _ _ _ => Nat.zero_le _
  · exact fun _ _ _ _ => Bond.fits_same
  · simp [Block.total]

/-- A variable that an object is forwarded from is used nowhere else, so it need not be the same any
more. -/
theorem mirrors_of_uses (hO : O.Blind) {uses : List Use}
    (huses : ∀ u, a.uses.count u ≤ uses.count u)
    (h : InPlace (Forwarded uses v) a b) : a.Mirrors O v .hidden b := by
  refine .inPlace (f := ownUseCount v) (k := 2) (P := fun _ => True) hO
    (fun _ _ _ => ⟨fun _ _ => trivial, trivial⟩)
    ?_ ?_ ?_ h trivial ?_
  · intro p q ss hcore _ hle
    obtain ⟨hs, ht, hne, _, _⟩ := hcore
    rw [total_ownUseCount_forwarded hs ht hne] at hle
    have hzero := Nat.le_zero.1 (Nat.le_of_add_le_add_left hle)
    refine mirrors_forwarded hO hs ht hne (Expr.mentions_eq_false_iff.2 fun u hu => ?_)
    simpa using List.countP_eq_zero.1 hzero u hu
  · intro p q hcore
    obtain ⟨hs, ht, hne, _, _⟩ := hcore
    rw [total_ownUseCount_forwarded hs ht hne]
    omega
  · intro y hy e he
    refine .of_evaluated he fun u hu => ?_
    simpa using List.countP_eq_zero.1 hy u hu
  · obtain ⟨_, _, _, _, _, hread, hwrite⟩ := h.exists_core
    have hle := huses (.read v)
    have hle' := huses (.write v)
    rw [total_ownUseCount, countP_var]
    omega

end

section

variable [MulAction (Perm ℕ) ν] [MulAction (Perm ℕ) η] {n : ℕ} {x : Scene ν η} {c : Block}

variable (O n x) in
/-- The second block does what the first one does, if that one misreads no raw object. -/
def Reenacts (a b : Block) : Prop :=
  Clean (a.exec O.semantics n x) →
    SameUpTo x.next (a.exec O.semantics n x) (b.exec O.semantics n x) ∧
    Clean (b.exec O.semantics n x)

theorem Reenacts.refl (a : Block) : Reenacts O n x a a := fun h => ⟨.refl _ _, h⟩

theorem Reenacts.trans (h : Reenacts O n x a b) (h' : Reenacts O n x b c) : Reenacts O n x a c := by
  intro hclean
  obtain ⟨hab, hclean⟩ := h hclean
  obtain ⟨hbc, hclean⟩ := h' hclean
  exact ⟨hab.trans hbc, hclean⟩

/-- One allocation is put together with its constructor. -/
theorem reenacts_of_fuseStep (hO : O.Blind) (hx : x.Grounded) (hwhole : a.writesWhole = true)
    (hguard : Guarded a) (h : FuseStep a b) : Reenacts O n x a b := by
  obtain ⟨v, h⟩ := h
  rcases hguard v with hone | hexposes
  · exact (mirrors_of_constructions hO hwhole hone h).sameUpTo (fun _ _ _ => Or.inl) hx
  · exact (mirrors_of_exposes hO hwhole hexposes h).sameUpTo (fun _ _ _ => id) hx

variable {uses : List Use}

/-- One new object is forwarded. -/
theorem reenacts_of_forwardStep (hO : O.Blind) (hx : x.Grounded)
    (huses : ∀ u, a.uses.count u ≤ uses.count u)
    (h : ForwardStep uses a b) : Reenacts O n x a b := by
  obtain ⟨v, h⟩ := h
  exact (mirrors_of_uses hO huses h).sameUpTo (fun _ _ _ _ => trivial) hx

/-! ## The pass -/

/-- No step makes uses of variables. -/
theorem congruent_usesLe : Congruent fun a b => ∀ u, b.uses.count u ≤ a.uses.count u := by
  refine .of_hole (fun _ _ => le_rfl) (fun h h' u => (h' u).trans (h u)) fun hK h u => ?_
  obtain ⟨k, hk⟩ := hK.count_uses
  simpa [hk] using h u

theorem usesLe_of_forwardStep (h : ForwardStep uses a b) (u : Use) :
    b.uses.count u ≤ a.uses.count u := by
  obtain ⟨v, h⟩ := h
  refine h.of_congruent congruent_usesLe (fun p q ss hcore u => ?_) u
  obtain ⟨hs, ht, _, _, _⟩ := hcore
  simp only [List.cons_append, List.nil_append, uses_of_assignment? hs, uses_of_assignment? ht,
    uses_of_assignment? (assignment?_withValue ht), List.count_append, List.count_cons]
  omega

theorem writesWhole_of_fuseStep (h : FuseStep a b) (ha : a.writesWhole = true) :
    b.writesWhole = true := by
  obtain ⟨v, h⟩ := h
  refine KeepsWhole.writesWhole (h.of_congruent congruent_keepsWhole fun p q ss hcore => ?_) ha
  obtain ⟨hs, hbefore, hargs⟩ := hcore
  simpa using keepsWhole_fused (constructorSite?_append hbefore hargs ss) _

theorem reenacts_fuseSteps (hO : O.Blind) (hx : x.Grounded) (h : ReflTransGen FuseStep a b)
    (hwhole : a.writesWhole = true) (hguard : Guarded a) : Reenacts O n x a b := by
  induction h using ReflTransGen.head_induction_on with
  | refl => exact .refl b
  | head hstep _ ih =>
    refine (reenacts_of_fuseStep hO hx hwhole hguard hstep).trans (ih ?_ ?_)
    · exact writesWhole_of_fuseStep hstep hwhole
    · exact (keepsGuard_of_fuseStep hstep).guarded hguard

theorem reenacts_forwardSteps (hO : O.Blind) (hx : x.Grounded)
    (h : ReflTransGen (ForwardStep uses) a b)
    (huses : ∀ u, a.uses.count u ≤ uses.count u) : Reenacts O n x a b := by
  induction h using ReflTransGen.head_induction_on with
  | refl => exact .refl b
  | head hstep _ ih =>
    refine (reenacts_of_forwardStep hO hx huses hstep).trans (ih fun u => ?_)
    exact (usesLe_of_forwardStep hstep u).trans (huses u)

/-- Construction is a number of steps, each of which puts an allocation together with its
constructor, over statements that do not mention the variable, or forwards a new object. If a step
can be made for an allocation, a change is reported. A guarded body does the same before and behind
all steps, from every scene, as long as no raw object is misread. -/
theorem construct_reenacts (b : Block) :
    (∃ fused, ReflTransGen FuseStep b fused ∧
      ReflTransGen (ForwardStep fused.uses) fused (construct b).val) ∧
      ((∃ c, FuseStep b c) → (construct b).changed = true) ∧
      ∀ {ν η : Type} [MulAction (Perm ℕ) ν] [MulAction (Perm ℕ) η] (O : Objects ν η) (n : ℕ)
        (x : Scene ν η),
        O.Blind → x.Grounded → b.writesWhole = true → Guarded b → Clean (b.exec O.semantics n x) →
          SameUpTo x.next (b.exec O.semantics n x) ((construct b).val.exec O.semantics n x) ∧
            Clean ((construct b).val.exec O.semantics n x) := by
  have hfuse : ReflTransGen FuseStep b (b.rewrite fuseHere).val :=
    congruent_fuseSteps.rewrite fuseSteps_fuseHere b
  have hforward :
    ReflTransGen (ForwardStep (b.rewrite fuseHere).val.uses) (b.rewrite fuseHere).val
    (construct b).val :=
    (congruent_forwardSteps _).rewrite (forwardSteps_forwardHere _) _
  refine ⟨⟨_, hfuse, hforward⟩, ?_, ?_⟩
  · rintro ⟨c, v, h⟩
    have hchanged := changed_rewrite honest_fuseHere (changed_of_fused h)
    simp [construct, hchanged]
  · intro ν η _ _ O n x hO hx hwhole hguard
    exact (reenacts_fuseSteps hO hx hfuse hwhole hguard).trans
      (reenacts_forwardSteps hO hx hforward fun _ => le_rfl)

end

/-! ## Loops that are left before the constructor -/

/-- Numbers, and objects of a class. -/
inductive Thing
  | number (k : Int)
  | object (cls : String) (i : ℕ)
deriving DecidableEq

namespace Thing

instance : MulAction (Perm ℕ) Thing where
  smul π
    | number k => number k
    | object cls i => object cls (π i)
  one_smul x := by cases x <;> rfl
  mul_smul _ _ x := by cases x <;> rfl

/-- Literals have their values, and all other operations give zero. -/
def plain : Objects Thing Unit where
  truth
    | number k => k ≠ 0
    | object .. => true
  ofBool b := if b then number 1 else number 0
  order _ _ := some .eq
  isNaN _ := false
  truth_ofBool b := by cases b <;> rfl
  isNaN_of_unordered _ _ h := by cases h
  operate op _ :=
    match op with
    | .lit (.int k) => pure (number k.toInt)
    | _ => pure (number 0)
  object := object

theorem blind_plain : plain.Blind where
  object _ _ _ := rfl
  truth π x := by cases x <;> rfl
  ofBool π b := by cases b <;> rfl
  order _ _ _ := rfl
  operate π op xs h := by
    simp only [plain]
    split <;> rfl

/-- All variables have one number as their value, and there are no objects. -/
def scene (k : Int) : Scene Thing Unit := ⟨⟨fun _ => number k, (), []⟩, 0, fun _ => false, false⟩

theorem grounded_scene (k : Int) : (scene k).Grounded :=
  ⟨fun _ _ => rfl, fun _ _ _ => rfl, fun _ _ => rfl, rfl⟩

end Thing

theorem clean_of_map {q : Option (Exit ν × Scene ν η)}
    (h : q.map (fun r => r.2.misread) = some false) : Clean q := by
  rintro r rfl
  exact Option.some.inj h

/-- A constructor of the class `T` with one argument. -/
def makeT : MethodRef := { (default : MethodRef) with owner := "T", name := "<init>" }

/-- `while (true) { t = new T; if (c) { break; } t.<init>(1); } u = new T; u.<init>(2); r = u;
return r;` -/
def anotherObject : Block :=
  [.forever none [.set ⟨1⟩ (.alloc "T"), .ifThen (.var ⟨0⟩) [.breakLoop none],
      .expr (.construct (.var ⟨1⟩) makeT [.int 1])],
    .set ⟨2⟩ (.alloc "T"), .expr (.construct (.var ⟨2⟩) makeT [.int 2]), .set ⟨3⟩ (.var ⟨2⟩),
      .ret (some (.var ⟨3⟩))]

theorem guarded_anotherObject : Guarded anotherObject := by
  intro v
  have hconstructions :
    anotherObject.constructions v = (if ⟨1⟩ = v then 1 else 0) + if ⟨2⟩ = v then 1 else 0 := by
    simp [Block.constructions, anotherObject, Stmt.forever, Stmt.ifThen, Stmt.set,
      total_cons, Stmt.blocks,
      Stmt.constructions, Stmt.exprs, Expr.constructions, Expr.subexprs, Expr.subexprsList,
      Expr.isConstructionOf, Expr.int, Expr.boolean, List.countP_cons]
  left
  rw [hconstructions]
  by_cases h : ⟨1⟩ = v
  · subst h
    decide
  · rw [if_neg h]
    split <;> omega

/-- The object in the loop is never constructed, and not allocated any more behind the pass. So the
object that is returned has another number. -/
theorem construct_reenacts_anotherObject :
    (anotherObject.writesWhole = true ∧ Guarded anotherObject ∧
        Clean (anotherObject.exec Thing.plain.semantics 1 (Thing.scene 1))) ∧
      (construct anotherObject).val =
        [.forever none [.ifThen (.var ⟨0⟩) [.breakLoop none], .set ⟨1⟩ (.new makeT [.int 1])],
          .set ⟨3⟩ (.new makeT [.int 2]), .ret (some (.var ⟨3⟩))] ∧
      SameUpTo 0 (anotherObject.exec Thing.plain.semantics 1 (Thing.scene 1))
        ((construct anotherObject).val.exec Thing.plain.semantics 1 (Thing.scene 1)) ∧
      (anotherObject.exec Thing.plain.semantics 1 (Thing.scene 1)).map Prod.fst =
        some (.returned (some (.object "T" 1))) ∧
      ((construct anotherObject).val.exec Thing.plain.semantics 1 (Thing.scene 1)).map Prod.fst =
        some (.returned (some (.object "T" 0))) := by
  have hclean : Clean (anotherObject.exec Thing.plain.semantics 1 (Thing.scene 1)) :=
    clean_of_map (by decide +kernel)
  have hsame :=
    (construct_reenacts anotherObject).2.2 Thing.plain 1 (Thing.scene 1) Thing.blind_plain
    (Thing.grounded_scene 1) (by decide) guarded_anotherObject hclean
  exact ⟨⟨by decide, guarded_anotherObject, hclean⟩, by decide +kernel, hsame.1, by decide +kernel,
    by decide +kernel⟩

/-- `while (true) { t = new T; if (c) { break; } t.<init>(1); } t.<init>(2); return t;` -/
def sameVariable : Block :=
  [.forever none [.set ⟨1⟩ (.alloc "T"), .ifThen (.var ⟨0⟩) [.breakLoop none],
      .expr (.construct (.var ⟨1⟩) makeT [.int 1])],
    .expr (.construct (.var ⟨1⟩) makeT [.int 2]), .ret (some (.var ⟨1⟩))]

/-- The constructor behind the loop is run on what the variable held before, in place of the object
that was allocated in the loop. -/
theorem construct_loses_allocation :
    sameVariable.writesWhole = true ∧ Clean
      (sameVariable.exec Thing.plain.semantics 1 (Thing.scene 1)) ∧
      ¬ SameUpTo 0 (sameVariable.exec Thing.plain.semantics 1 (Thing.scene 1))
        ((construct sameVariable).val.exec Thing.plain.semantics 1 (Thing.scene 1)) := by
  refine ⟨by decide, clean_of_map (by decide +kernel), ?_⟩
  have hbefore : (sameVariable.exec Thing.plain.semantics 1 (Thing.scene 1)).map Prod.fst =
      some (.returned (some (.object "T" 0))) := by decide +kernel
  have hbehind :
    ((construct sameVariable).val.exec Thing.plain.semantics 1 (Thing.scene 1)).map Prod.fst =
      some (.returned (some (.number 1))) := by decide +kernel
  obtain ⟨q, hq, hexit⟩ := Option.map_eq_some_iff.1 hbefore
  obtain ⟨r, hr, hexit'⟩ := Option.map_eq_some_iff.1 hbehind
  rintro ⟨π, -, h⟩
  -- No renumbering takes an object to a number.
  rw [hq, hr] at h
  have hrename := congrArg Prod.fst (Option.some.inj h)
  simp only [outcome, renameOutcome, hexit, hexit', Exit.rename] at hrename
  cases hrename

end Cleanup

end ByteLift
