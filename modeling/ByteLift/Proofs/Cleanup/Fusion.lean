import Mathlib.Algebra.Order.BigOperators.Group.List
import Mathlib.Algebra.Order.Ring.Nat
import ByteLift.Proofs.Cleanup.FusionGuard
import ByteLift.Proofs.Semantics.LinkedRuns

/-!
# Moving allocations and new objects

Where an allocation has been put together with a constructor, the object is allocated later, or
never. Where a new object has been forwarded, a variable does not hold it any more. In both cases
the two runs are linked all the way, but for one variable.
-/

namespace ByteLift

open Block Stmt

open Equiv (Perm)

namespace Expr

/-- The variable is a part of every place where a constructor is run on the object in it. -/
theorem var_mem_subexprs_of_constructions {v : Var} (e : Expr) (h : e.constructions v ≠ 0) :
    .var v ∈ e.subexprs := by
  obtain ⟨d, hd, hconstruct⟩ := List.countP_pos_iff.1 (Nat.pos_of_ne_zero h)
  rw [subexprs_eq, List.mem_cons, List.mem_flatMap] at hd
  rcases hd with rfl | ⟨c, hc, hd⟩
  · unfold isConstructionOf at hconstruct
    split at hconstruct
    · obtain rfl := of_decide_eq_true hconstruct
      simp [subexprs]
    · cases hconstruct
  · have hpos : 0 < c.constructions v := List.countP_pos_iff.2 ⟨d, hd, hconstruct⟩
    exact (subexprs_sublist_of_mem_children hc).subset
      (var_mem_subexprs_of_constructions c hpos.ne')
termination_by sizeOf e
decreasing_by exact sizeOf_lt_of_mem_children hc

theorem constructions_eq_zero {v : Var} {e : Expr} (he : e.mentions v = false) :
    e.constructions v = 0 := by
  by_contra h
  obtain ⟨u, hu, hv⟩ := (Cleanup.var_mem_subexprs false e).1 (var_mem_subexprs_of_constructions e h)
  exact mentions_eq_false_iff.1 he u hu hv

end Expr

/-! ## Running allocations and constructors -/

section

variable {ν η : Type} {O : Objects ν η} {v : Var} {s : Stmt} {m : MethodRef} {args : List Expr}

/-- Runs a constructor on an object, once the arguments have been evaluated. -/
def Objects.build (O : Objects ν η) (m : MethodRef) (args : List Expr) (x : ν) :
    EStateM ν (Scene ν η) ν :=
  args.mapM O.eval >>= O.initialise m x

theorem eval_construct (x : Scene ν η) : O.eval (.construct (.var v) m args) x =
    match O.build m args (x.vars v) x with
      | .ok y z => .ok y (z.finished v)
      | .error y z => .error y z := by
  rw [Objects.eval]
  simp only [Objects.build, bind, EStateM.bind, Scene.peek]
  cases args.mapM O.eval x with
  | ok vs y =>
    dsimp only
    cases O.initialise m (x.vars v) vs y <;> rfl
  | error y z => rfl

theorem eval_assign_new (x : Scene ν η) : O.eval (.assign (.var v) (.new m args)) x =
    match O.build m args (O.object m.owner x.next) { x with next := x.next + 1 } with
      | .ok _ z => .ok (O.object m.owner x.next) (z.store v (O.object m.owner x.next) false)
      | .error y z => .error y z := by
  rw [Objects.eval, Objects.eval]
  simp only [Objects.build, bind, EStateM.bind, Objects.allocate]
  cases args.mapM O.eval { x with next := x.next + 1 } with
  | ok vs y =>
    dsimp only
    cases O.initialise m (O.object m.owner x.next) vs y <;> rfl
  | error y z => rfl

theorem eval_assign_var (e : Expr) (x : Scene ν η) : O.eval (.assign (.var v) e) x =
    match O.eval e x with
      | .ok y z => .ok y (z.store v y e.isAlloc)
      | .error y z => .error y z := by
  rw [Objects.eval]
  simp only [bind, EStateM.bind]
  cases O.eval e x <;> rfl

theorem exec_alloc_cons {cls : String} (hs : s.assignment? = some (v, .alloc cls))
    (ss : Block) (n : ℕ) (x : Scene ν η) : Block.exec O.semantics n (s :: ss) x =
      Block.exec O.semantics n ss (Scene.store { x with next := x.next + 1 } v
        (O.object cls x.next) true) := by
  have heval : O.eval (.assign (.var v) (.alloc cls)) x =
      .ok (O.object cls x.next) (Scene.store { x with next := x.next + 1 } v
      (O.object cls x.next) true) := by
    rw [Objects.eval, Objects.eval]
    rfl
  simp only [Block.exec, execList, exec_of_assignment? _ hs, exec_expr, Objects.semantics, heval]

end

variable {ν η : Type} [SMul (Perm ℕ) ν] [SMul (Perm ℕ) η]

/-! ## Bonds -/

namespace Bond

/-- The variable has the same value in both runs. -/
def same : Bond ν where
  Holds w a b := w.SameCell a b
  mono hw h := h.mono hw

/-- The variable has the same value in both runs, or it holds a raw object in the first one. -/
def sameOrRaw : Bond ν where
  Holds w a b := w.SameCell a b ∨ a.2 = true
  mono hw h := h.imp_left (·.mono hw)

/-- The variable holds a raw object in the first run. -/
def raw (x : ν) : Bond ν where
  Holds _ a _ := a = (x, true)
  mono _ h := h

/-- Nothing is said about the variable. -/
def hidden : Bond ν where
  Holds _ _ _ := True
  mono _ h := h

variable {v : Var} {e : Expr}

theorem fits_same : (same : Bond ν).Fits v e :=
  ⟨fun _ _ _ _ => .inl, fun _ _ _ _ => id, fun _ _ _ _ => .rfl⟩

theorem Fits.of_mentions {K : Bond ν} (he : e.mentions v = false) : K.Fits v e :=
  fits_of_mentions he (Expr.constructions_eq_zero he)

/-- What a statement evaluates fits any bond, if the statement does not use the variable. -/
theorem Fits.of_evaluated {K : Bond ν} {x : Stmt} (hx : x.evaluated? = some e)
    (h : ∀ u ∈ x.ownUses, u.var ≠ v) : K.Fits v e := by
  rw [ownUses_eq, hx] at h
  exact .of_mentions (Expr.mentions_eq_false_iff.2 h)

theorem fits_sameOrRaw (he : e.constructions v = 0) : (sameOrRaw : Bond ν).Fits v e :=
  ⟨fun _ _ _ _ => id, fun _ _ _ _ => .inl, fun h => absurd he h⟩

end Bond

/-! ## One place -/

section

variable {O : Objects ν η} {v : Var} {K : Bond ν} {core : Block → Block → Prop} {f : Stmt → ℕ}
  {k : ℕ} {a b : Block}

theorem Block.InPlace.le_total (hcore : ∀ p q, core p q → k ≤ p.total f) (h : InPlace core a b) :
    k ≤ a.total f := by
  induction h with
  | here h ss =>
    have := hcore _ _ h
    simp only [total_append]
    omega
  | tail s _ ih =>
    rw [total_cons]
    omega
  | _ =>
    simp only [total_ite, total_loop, total_block]
    omega

/-- A block in which nothing counts mirrors itself. -/
theorem Block.Mirrors.of_total (hO : O.Blind)
    (hf : ∀ x, f x = 0 → ∀ e, x.evaluated? = some e → K.Fits v e)
    (hb : b.total f = 0) : b.Mirrors O v K b :=
  .refl hO fun x hx => hf x (List.sum_eq_zero_iff.1 hb _ (List.mem_map_of_mem hx))

/-- A change in one place of a block, in which all that counts stands, is mirrored by the block if
it is mirrored in that place. -/
theorem Block.Mirrors.inPlace (hO : O.Blind) {P : Block → Prop} (hP : Inherited P)
    (hcore : ∀ p q ss, core p q → P (p ++ ss) → p.total f ≤ k → p.Mirrors O v K q)
    (hle : ∀ p q, core p q → k ≤ p.total f)
    (hf : ∀ x, f x = 0 → ∀ e, x.evaluated? = some e → K.Fits v e)
    (h : InPlace core a b) (ha : P a) (hk : a.total f ≤ k) : a.Mirrors O v K b := by
  induction h with
  | @here p q h ss =>
    have := hle p q h
    rw [total_append] at hk
    exact (hcore p q ss h ha (by omega)).append (.of_total hO hf (by omega))
  | @tail s ss ss' h ih =>
    have := h.le_total hle
    rw [total_cons] at hk
    have hs : Block.total f [s] = 0 := by
      rw [total_cons, total_nil]
      omega
    exact (Block.Mirrors.of_total hO hf hs).append (ih (hP _ _ ha).2 (by omega))
  | @thenArm c a a' h b ss ih =>
    have := h.le_total hle
    rw [total_ite] at hk
    have harm := ih ((hP _ _ ha).1 a (by simp)) (by omega)
    have hc := hf (.ite c a b) (by omega) c rfl
    exact .cons (.ite hO hc harm (.of_total hO hf (by omega))) (.of_total hO hf (by omega))
  | @elseArm c a b b' h ss ih =>
    have := h.le_total hle
    rw [total_ite] at hk
    have harm := ih ((hP _ _ ha).1 b (by simp)) (by omega)
    have hc := hf (.ite c a b) (by omega) c rfl
    exact .cons (.ite hO hc (.of_total hO hf (by omega)) harm) (.of_total hO hf (by omega))
  | @body l c a a' h ss ih =>
    have := h.le_total hle
    rw [total_loop] at hk
    have hbody := ih ((hP _ _ ha).1 a (by simp)) (by omega)
    have hc := hf (.loop l c a) (by omega) c rfl
    exact .cons (.loop hO hc hbody) (.of_total hO hf (by omega))
  | @inner a a' h ss ih =>
    have := h.le_total hle
    rw [total_block] at hk
    have hinner := ih ((hP _ _ ha).1 a (by simp)) (by omega)
    exact .cons (.block hinner) (.of_total hO hf (by omega))

end

/-! ## Allocations and constructors -/

section

variable {O : Objects ν η} {v : Var} {s : Stmt} {m : MethodRef} {args : List Expr}

variable {K : Bond ν} {w : Naming} {x y : Scene ν η}

/-- The arguments are evaluated and the constructor is run on the same object, in scenes that are
the same but for the variable that the object is kept in. -/
theorem mirrors_build (hO : O.Blind) (hargs : ∀ e ∈ args, e.mentions v = false) {x y : ν}
    (hxy : w.Same x y) : Mirrors v K Naming.Same w (O.build m args x) (O.build m args y) := by
  have hfits e (he : e ∈ args) : K.Fits v e := .of_mentions (hargs e he)
  refine (mirrors_mapM (fun e he w => mirrors_eval hO (hfits e he) w) w).bind
    fun w' hw xs ys hxys => ?_
  exact mirrors_perform hO _ (.cons (hxy.mono hw) hxys)

/-- The second run allocates the counterpart of the raw object. -/
theorem Linked.pair {z : ν} (hxy : Linked v (.raw z) w x y) {i : ℕ} (hi : i < w.left)
    (hnew : i ∉ w.known) :
    Linked v (.raw z) (w.pair i hi hnew) x { y with next := y.next + 1 } where
  heap π hπ := hxy.heap π hπ.of_pair
  done π hπ := hxy.done π hπ.of_pair
  left := hxy.left
  right := congrArg (· + 1) hxy.right
  unread := hxy.unread
  unread' := hxy.unread'
  others u hu := ⟨fun π hπ => (hxy.others u hu).1 π hπ.of_pair, (hxy.others u hu).2⟩
  self := hxy.self

/-- The first run has a raw object in the variable, and the second run makes its counterpart just
now. Once the constructor has been run, the variable has the same value in both. -/
theorem runLinked_construct (hO : O.Blind) (hK : K.AllowsSame)
    (hargs : ∀ e ∈ args, e.mentions v = false) {i : ℕ} (hi : i < w.left) (hnew : i ∉ w.known)
    (hxy : Linked v (.raw (O.object m.owner i)) w x y) (n : ℕ) :
    RunLinked v K (w.pair i hi hnew) ((expr (.construct (.var v) m args)).exec O.semantics n x)
      ((expr (.assign (.var v) (.new m args))).exec O.semantics n y) := by
  have hraw {z : Scene ν η} {w' : Naming} {y' : Scene ν η}
    (h : Linked v (.raw (O.object m.owner i)) w' z y') :
      z.vars v = O.object m.owner i := congrArg Prod.fst h.self
  have hsame : (w.pair i hi hnew).Same (O.object m.owner i) (O.object m.owner y.next) := by
    rw [hxy.right, ← Naming.pair_perm_self hi hnew]
    exact hO.same_object (Set.mem_insert i _) _
  have hbuild := mirrors_build (m := m) hO hargs hsame le_rfl (hxy.pair hi hnew)
  rw [exec_expr, exec_expr]
  simp only [Objects.semantics, eval_construct, eval_assign_new, hraw hxy]
  generalize O.build m args (O.object m.owner i) x = q at hbuild ⊢
  generalize O.build m args (O.object m.owner y.next) _ = r at hbuild ⊢
  cases hbuild with
  | error hw h hst => exact .thrown hw h hst
  | misread h => exact .misread h
  | @ok w' _ _ x' y' hw _ hst =>
    refine .inside hw rfl ?_
    rw [Scene.finished, hraw hst]
    exact hst.overwrite (hsame.mono hw) false (hK _ _ _ ⟨hsame.mono hw, id⟩)

/-- The first run allocates an object that is raw as long as the variable is not mentioned. -/
theorem Linked.allocate (hxy : Linked v K w x y) (cls : String) :
    Linked v (.raw (O.object cls w.left)) w.skip
      (Scene.store { x with next := x.next + 1 } v (O.object cls x.next) true) y where
  heap := hxy.heap
  done := hxy.done
  left := congrArg (· + 1) hxy.left
  right := hxy.right
  unread := hxy.unread
  unread' := hxy.unread'
  others u hu := by
    rw [Scene.cell_store_of_ne hu]
    exact hxy.others u hu
  self := by rw [Scene.cell_store_self, hxy.left]; rfl

/-- Moving an allocation to its constructor. What is left to be shown of the bond is that it holds
of a raw object, if control can leave the block on the way. -/
theorem mirrors_fused (hO : O.Blind) (hK : K.AllowsSame)
    (hs : s.assignment? = some (v, .alloc m.owner))
    {before : Block} (hbefore : before.mentions v = false)
    (hargs : ∀ e ∈ args, e.mentions v = false)
    (hleaves : before.leaves = false ∨ ∀ w a b, a.2 = true → K.Holds w a b) :
    Block.Mirrors O v K (s :: (before ++ [.expr (.construct (.var v) m args)]))
      (before ++ [s.withValue (.new m args)]) := by
  intro n w x y hxy
  have hfits z (hz : z ∈ before.stmts) e (he : z.evaluated? = some e) :
    (Bond.raw (O.object m.owner w.left)).Fits v e :=
    .of_evaluated he fun u hu => (mentions_eq_false_iff.1 hbefore).1 u
      (List.mem_flatMap.2 ⟨z, hz, hu⟩)
  have hrun := Block.Mirrors.refl hO hfits n (hxy.allocate (O := O) m.owner)
  rw [exec_alloc_cons hs, exec_append, exec_append]
  refine .seq w.le_skip hrun (fun w' hw x' y' hst => ?_) fun w' kind l x' y' hexit hst => ?_
  · -- The second run makes the counterpart of the object that the first one has had since.
    have hnew := Naming.left_notMem_known hw
    have hle : w ≤ w'.pair w.left hw.left hnew :=
      Naming.le_pair (w.le_skip.trans hw) le_rfl hw.left hnew
    rw [exec_singleton, exec_singleton, exec_of_assignment? _ (Cleanup.assignment?_withValue hs)]
    exact (runLinked_construct hO hK hargs hw.left hnew hst n).trans_le hle
  · -- Behind a jump the first run still has the raw object.
    rcases hleaves with hleaves | hleaves
    · rw [Block.leaves_of_exec hexit] at hleaves
      cases hleaves
    · exact { hst with self := hleaves _ _ _ (congrArg Prod.snd hst.self) }

/-- Assigning a new object directly to the variable that it is copied on to. -/
theorem mirrors_forwarded (hO : O.Blind) {t : Stmt} {target : Var}
    (hs : s.assignment? = some (v, .new m args))
    (ht : t.assignment? = some (target, .var v)) (hne : target ≠ v)
    (hargs : (Expr.new m args).mentions v = false) :
    Block.Mirrors O v Bond.hidden [s, t] [t.withValue (.new m args)] := by
  intro n w x y hxy
  have hnew := mirrors_eval hO (.of_mentions hargs) w le_rfl hxy
  rw [exec_singleton, exec_of_assignment? _ (Cleanup.assignment?_withValue ht),
    ← List.singleton_append, exec_append,
    exec_singleton, exec_of_assignment? _ hs, exec_expr, exec_expr]
  simp only [andThen, exec_singleton, exec_of_assignment? _ ht, exec_expr, Objects.semantics,
    eval_assign_var]
  generalize O.eval (.new m args) x = q at hnew ⊢
  generalize O.eval (.new m args) y = r at hnew ⊢
  cases hnew with
  | error hw h hst => exact .thrown hw h hst
  | misread h => exact .misread h
  | @ok w' a b x' y' hw hab hst =>
    -- The first run reads the object back from the variable that it has just been assigned to.
    have hread : O.eval (.var v) (x'.store v a false) = .ok a (x'.store v a false) := by
      have hcell := Scene.cell_store_self x' v a false
      rw [Scene.cell, Prod.mk.injEq] at hcell
      rw [Objects.eval, Scene.read, hcell.2, hcell.1]
      rfl
    have hst' : Linked v Bond.hidden w' (x'.store v a false) y' := { hst with
        others := fun u hu => by
          rw [Scene.cell_store_of_ne hu]
          exact hst.others u hu
        self := trivial }
    simp only [Expr.isAlloc, hread]
    exact .inside hw rfl (hst'.store hab false fun h => absurd h hne)

end

end ByteLift
