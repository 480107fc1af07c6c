import Mathlib.Algebra.Group.Action.Defs
import Mathlib.Algebra.Group.End
import Mathlib.Data.Finset.Basic
import ByteLift.Proofs.Semantics.Alike
import ByteLift.Proofs.Semantics.Objects

/-!
# Runs that differ in the names of objects

Nothing that a program does depends on the numbers of objects, so two runs may allocate objects in
another order and do the same things. A *naming* is what is settled at some time: which objects of
the first run have a counterpart in the second. Values are the same under a naming if every
renumbering that agrees with it takes the one to the other. Two scenes are *linked* if they are the
same but for one variable, of which a *bond* says what holds.
-/

namespace ByteLift

open Scene

open Equiv (Perm)

variable {w w' : Naming} {α : Type}

/-! ## Namings -/

/-- The objects of a first run that have a counterpart in a second one, with the numbers that these
have. `left` and `right` are the numbers of objects that the runs have allocated. -/
structure Naming where
  perm : Perm ℕ
  known : Set ℕ
  left : ℕ
  right : ℕ
  known_lt : ∀ i ∈ known, i < left
  perm_lt : ∀ i ∈ known, perm i < right

namespace Naming

variable {i : ℕ}

/-- A renumbering that takes objects to their counterparts. -/
def Agrees (w : Naming) (π : Perm ℕ) : Prop := ∀ i ∈ w.known, π i = w.perm i

/-- A naming later in the same runs. Objects that get a counterpart have been allocated since. -/
structure Extends (w w' : Naming) : Prop where
  known : w.known ⊆ w'.known
  agrees : w.Agrees w'.perm
  left : w.left ≤ w'.left
  fresh : ∀ i ∈ w'.known, i ∈ w.known ∨ w.left ≤ i

instance : Preorder Naming where
  le := Extends
  le_refl w := ⟨subset_rfl, fun _ _ => rfl, le_rfl, fun _ => .inl⟩
  le_trans w₁ w₂ w₃ h h' := by
    refine ⟨h.known.trans h'.known, fun i hi => ?_, h.left.trans h'.left, fun i hi => ?_⟩
    · exact (h'.agrees i (h.known hi)).trans (h.agrees i hi)
    · rcases h'.fresh i hi with hi | hi
      · exact h.fresh i hi
      · exact .inr (h.left.trans hi)

variable {π : Perm ℕ}

theorem Agrees.mono (hw : w ≤ w') (h : w'.Agrees π) : w.Agrees π :=
  fun i hi => (h i (hw.known hi)).trans (hw.agrees i hi)

/-- The first run allocates an object that has no counterpart yet. -/
def skip (w : Naming) : Naming where
  perm := w.perm
  known := w.known
  left := w.left + 1
  right := w.right
  known_lt i hi := Nat.lt_succ_of_lt (w.known_lt i hi)
  perm_lt := w.perm_lt

theorem le_skip (w : Naming) : w ≤ w.skip :=
  ⟨subset_rfl, fun _ _ => rfl, Nat.le_succ _, fun _ => .inl⟩

/-- The second run allocates the counterpart of an object. -/
def pair (w : Naming) (i : ℕ) (hi : i < w.left) (hnew : i ∉ w.known) : Naming where
  perm := Equiv.swap (w.perm i) w.right * w.perm
  known := insert i w.known
  left := w.left
  right := w.right + 1
  known_lt := by
    rintro k (rfl | hk)
    · exact hi
    · exact w.known_lt k hk
  perm_lt := by
    rintro k (rfl | hk)
    · simp
    · -- The numbers that are exchanged are those of no known object.
      have hne : w.perm k ≠ w.perm i := fun h => hnew (w.perm.injective h ▸ hk)
      have hlt := w.perm_lt k hk
      rw [Perm.mul_apply, Equiv.swap_apply_of_ne_of_ne hne hlt.ne]
      exact Nat.lt_succ_of_lt hlt

theorem pair_perm_self (hi : i < w.left) (hnew : i ∉ w.known) :
    (w.pair i hi hnew).perm i = w.right := by
  simp [pair]

/-- Other objects keep their counterparts. -/
theorem pair_perm_of_mem (hi : i < w.left) (hnew : i ∉ w.known) {k : ℕ} (hk : k ∈ w.known) :
    (w.pair i hi hnew).perm k = w.perm k := by
  have hne : w.perm k ≠ w.perm i := fun h => hnew (w.perm.injective h ▸ hk)
  rw [pair, Perm.mul_apply, Equiv.swap_apply_of_ne_of_ne hne (w.perm_lt k hk).ne]

theorem Agrees.of_pair {hi : i < w.left} {hnew : i ∉ w.known} (h : (w.pair i hi hnew).Agrees π) :
    w.Agrees π := fun k hk => (h k (Set.mem_insert_of_mem i hk)).trans (pair_perm_of_mem hi hnew hk)

/-- Only objects that have been allocated since get a counterpart. -/
theorem left_notMem_known (hw : w.skip ≤ w') : w.left ∉ w'.known := by
  intro h
  rcases hw.fresh _ h with h | h
  · exact lt_irrefl _ (w.known_lt _ h)
  · exact Nat.not_succ_le_self _ h

theorem le_pair (hw : w ≤ w') (hle : w.left ≤ i) (hi : i < w'.left) (hnew : i ∉ w'.known) :
    w ≤ w'.pair i hi hnew := by
  refine ⟨hw.known.trans (Set.subset_insert i _), fun k hk => ?_, hw.left, ?_⟩
  · rw [pair_perm_of_mem hi hnew (hw.known hk), hw.agrees k hk]
  · rintro k (rfl | hk)
    · exact .inr hle
    · exact hw.fresh k hk

/-! ### The same values -/

section

variable [SMul (Perm ℕ) α] {x y : α} {xs ys : List α}

/-- Every renumbering that agrees with the naming takes one value to the other. -/
def Same (w : Naming) (x y : α) : Prop := ∀ π, w.Agrees π → π • x = y

/-- Lists of the same values. -/
def SameAll (w : Naming) (xs ys : List α) : Prop := ∀ π, w.Agrees π → xs.map (π • ·) = ys

theorem agrees_perm (w : Naming) : w.Agrees w.perm := fun _ _ => rfl

theorem Same.eq (h : w.Same x y) : y = w.perm • x := (h w.perm w.agrees_perm).symm

theorem SameAll.eq (h : w.SameAll xs ys) : ys = xs.map (w.perm • ·) := (h w.perm w.agrees_perm).symm

theorem Same.mono (hw : w ≤ w') (h : w.Same x y) : w'.Same x y := fun π hπ => h π (hπ.mono hw)

theorem SameAll.mono (hw : w ≤ w') (h : w.SameAll xs ys) : w'.SameAll xs ys :=
  fun π hπ => h π (hπ.mono hw)

theorem SameAll.cons (h : w.Same x y) (hs : w.SameAll xs ys) : w.SameAll (x :: xs) (y :: ys) :=
  fun π hπ => by rw [List.map_cons, h π hπ, hs π hπ]

/-- The value of a variable, and whether it is a raw object. A variable that is raw in the second
run is raw in the first. -/
def SameCell (w : Naming) (a b : α × Bool) : Prop := w.Same a.1 b.1 ∧ (b.2 = true → a.2 = true)

theorem SameCell.mono (hw : w ≤ w') {a b : α × Bool} (h : w.SameCell a b) : w'.SameCell a b :=
  ⟨h.1.mono hw, h.2⟩

end

end Naming

/-! ## Operations that do not see numbers -/

variable {ν η β : Type}

/-- A result with other numbers of objects. -/
def renameResult [SMul (Perm ℕ) ν] [SMul (Perm ℕ) η] (π : Perm ℕ) :
    EStateM.Result ν η ν → EStateM.Result ν η ν
  | .ok x h => .ok (π • x) (π • h)
  | .error x h => .error (π • x) (π • h)

/-- An operation that has been done, with other numbers of objects. -/
def renameEvent [SMul (Perm ℕ) ν] (π : Perm ℕ) (e : Expr × List ν) : Expr × List ν :=
  (e.1, e.2.map (π • ·))

/-- The end of a run, with other numbers of objects. -/
def Exit.rename [SMul (Perm ℕ) ν] (π : Perm ℕ) : Exit ν → Exit ν
  | returned x => returned (x.map (π • ·))
  | thrown x => thrown (π • x)
  | normal => normal
  | breaking l => breaking l
  | continuing l => continuing l
  | jumping l => jumping l

/-- Nothing depends on the numbers of objects. -/
structure Objects.Blind [SMul (Perm ℕ) ν] [SMul (Perm ℕ) η] (O : Objects ν η) : Prop where
  object : ∀ (π : Perm ℕ) cls i, π • O.object cls i = O.object cls (π i)
  truth : ∀ (π : Perm ℕ) x, O.truth (π • x) = O.truth x
  ofBool : ∀ (π : Perm ℕ) b, π • O.ofBool b = O.ofBool b
  order : ∀ (π : Perm ℕ) x y, O.order (π • x) (π • y) = O.order x y
  operate : ∀ (π : Perm ℕ) op xs h, O.operate op (xs.map (π • ·)) (π • h) =
    renameResult π (O.operate op xs h)

namespace Objects.Blind

variable [SMul (Perm ℕ) ν] [SMul (Perm ℕ) η] {O : Objects ν η} {x y : ν}

theorem same_object (hO : O.Blind) {i : ℕ} (hi : i ∈ w.known) (cls : String) :
    w.Same (O.object cls i) (O.object cls (w.perm i)) := fun π hπ => by rw [hO.object, hπ i hi]

theorem same_ofBool (hO : O.Blind) (b : Bool) : w.Same (O.ofBool b) (O.ofBool b) :=
  fun π _ => hO.ofBool π b

theorem truth_eq (hO : O.Blind) (h : w.Same x y) : O.truth y = O.truth x := by rw [h.eq, hO.truth]

end Objects.Blind

/-! ## Linked scenes -/

section

variable [SMul (Perm ℕ) ν] [SMul (Perm ℕ) η]

/-- What may be said of a variable that is not the same in two runs. -/
structure Bond (ν : Type) [SMul (Perm ℕ) ν] where
  Holds : Naming → ν × Bool → ν × Bool → Prop
  mono : ∀ {w w' a b}, w ≤ w' → Holds w a b → Holds w' a b

/-- The variable may have the same value in both runs. -/
def Bond.AllowsSame (K : Bond ν) : Prop := ∀ w a b, w.SameCell a b → K.Holds w a b

/-- Two runs that have done the same things. -/
structure Shared (w : Naming) (s t : Scene ν η) : Prop where
  heap : w.Same s.heap t.heap
  done : ∀ π, w.Agrees π → s.done.map (renameEvent π) = t.done
  left : s.next = w.left
  right : t.next = w.right
  unread : s.misread = false
  unread' : t.misread = false

/-- Two runs that have done the same things and have the same values in all variables but one. -/
structure Linked (v : Var) (K : Bond ν) (w : Naming) (s t : Scene ν η) :
    Prop extends Shared w s t where
  others : ∀ u, u ≠ v → w.SameCell (s.cell u) (t.cell u)
  self : K.Holds w (s.cell v) (t.cell v)

/-- Results that agree, unless the first run misreads a raw object. -/
inductive ResultLinked (v : Var) (K : Bond ν) (A : Naming → α → β → Prop) (w : Naming) :
    EStateM.Result ν (Scene ν η) α → EStateM.Result ν (Scene ν η) β → Prop
  | ok {w' : Naming} {a : α} {b : β} {s t : Scene ν η} (hw : w ≤ w') (h : A w' a b)
    (hst : Linked v K w' s t) :
    ResultLinked v K A w (.ok a s) (.ok b t)
  | error {w' : Naming} {x y : ν} {s t : Scene ν η} (hw : w ≤ w') (h : w'.Same x y)
    (hst : Shared w' s t) :
    ResultLinked v K A w (.error x s) (.error y t)
  | misread {x : ν} {s : Scene ν η} {r : EStateM.Result ν (Scene ν η) β} (h : s.misread = true) :
    ResultLinked v K A w (.error x s) r

/-- Computations that agree from linked scenes on, from some time on. -/
def Mirrors (v : Var) (K : Bond ν) (A : Naming → α → β → Prop) (w : Naming)
    (x : EStateM ν (Scene ν η) α) (y : EStateM ν (Scene ν η) β) : Prop :=
  ∀ ⦃w'⦄, w ≤ w' → ∀ ⦃s t⦄, Linked v K w' s t → ResultLinked v K A w' (x s) (y t)

variable {v : Var} {K : Bond ν} {s t : Scene ν η}

theorem ResultLinked.trans_le {A : Naming → α → β → Prop} {q : EStateM.Result ν (Scene ν η) α}
    {r : EStateM.Result ν (Scene ν η) β} (hw : w ≤ w') (h : ResultLinked v K A w' q r) :
    ResultLinked v K A w q r := by
  cases h with
  | ok hw' h hst => exact .ok (hw.trans hw') h hst
  | error hw' h hst => exact .error (hw.trans hw') h hst
  | misread h => exact .misread h

namespace Mirrors

variable {γ δ : Type} {A : Naming → α → β → Prop} {B : Naming → γ → δ → Prop}
  {x : EStateM ν (Scene ν η) α} {y : EStateM ν (Scene ν η) β}

theorem pure {a : α} {b : β} (h : ∀ w', w ≤ w' → A w' a b) :
    Mirrors v K A w (Pure.pure a : EStateM ν (Scene ν η) α) (Pure.pure b) :=
  fun w' hw _ _ hst => .ok le_rfl (h w' hw) hst

theorem bind {f : α → EStateM ν (Scene ν η) γ} {g : β → EStateM ν (Scene ν η) δ}
    (h : Mirrors v K A w x y) (hf : ∀ w', w ≤ w' → ∀ a b, A w' a b → Mirrors v K B w' (f a) (g b)) :
    Mirrors v K B w (x >>= f) (y >>= g) := by
  intro w₁ hw₁ s t hst
  have hxy := h hw₁ hst
  simp only [Bind.bind, EStateM.bind]
  generalize x s = q at hxy
  generalize y t = r at hxy
  cases hxy with
  | ok hw' hab hst' => exact (hf _ (hw₁.trans hw') _ _ hab le_rfl hst').trans_le hw'
  | error hw' hxy hst' => exact .error hw' hxy hst'
  | misread hread => exact .misread hread

theorem map {f : α → γ} {g : β → δ} (h : Mirrors v K A w x y)
    (hf : ∀ w', w ≤ w' → ∀ a b, A w' a b → ∀ w'', w' ≤ w'' → B w'' (f a) (g b)) :
    Mirrors v K B w (f <$> x) (g <$> y) := by
  rw [map_eq_pure_bind, map_eq_pure_bind]
  exact h.bind fun w' hw a b hab => .pure (hf w' hw a b hab)

end Mirrors

/-! ## Operations -/

variable {O : Objects ν η} {u : Var} {x y : ν} {e : Expr}

omit [SMul (Perm ℕ) η] in
theorem Naming.SameCell.store {raw : Bool} (hothers : ∀ u, u ≠ v → w.SameCell (s.cell u) (t.cell u))
    (hxy : w.Same x y) :
    ∀ u', u' ≠ v → w.SameCell ((s.store u x raw).cell u') ((t.store u y raw).cell u') := by
  intro u' hu'
  by_cases h : u' = u
  · subst h
    rw [cell_store_self, cell_store_self]
    exact ⟨hxy, id⟩
  · rw [cell_store_of_ne h, cell_store_of_ne h]
    exact hothers u' hu'

/-- Assigning the same value keeps scenes linked, if the bond allows for the same values. -/
theorem Linked.store (hst : Linked v K w s t) (hxy : w.Same x y) (raw : Bool)
    (hself : u = v → K.Holds w (x, raw) (y, raw)) :
    Linked v K w (s.store u x raw) (t.store u y raw) where
  __ := hst.toShared
  others := Naming.SameCell.store hst.others hxy
  self := by
    by_cases h : v = u
    · subst h
      rw [cell_store_self, cell_store_self]
      exact hself rfl
    · rw [cell_store_of_ne h, cell_store_of_ne h]
      exact hst.self

/-- If the variable that is not the same is assigned the same value, another bond may hold. -/
theorem Linked.overwrite (hst : Linked v K w s t) {K' : Bond ν} (hxy : w.Same x y) (raw : Bool)
    (hself : K'.Holds w (x, raw) (y, raw)) : Linked v K' w (s.store v x raw) (t.store v y raw) where
  __ := hst.toShared
  others := Naming.SameCell.store hst.others hxy
  self := by
    rw [cell_store_self, cell_store_self]
    exact hself

variable {xs ys : List ν} {m : MethodRef} {args : List Expr}

/-- The same operation on the same values. -/
theorem mirrors_perform (hO : O.Blind) (op : Expr) (h : w.SameAll xs ys) :
    Mirrors v K Naming.Same w (Scene.onState (O.perform op xs))
      (Scene.onState (O.perform op ys)) := by
  intro w' hw s t hst
  have hys := h.mono hw
  have hresult π (hπ : w'.Agrees π) :
    O.operate op ys t.heap = renameResult π (O.operate op xs s.heap) := by
    rw [← hO.operate, hys π hπ, hst.heap π hπ]
  have hdone π (hπ : w'.Agrees π) :
    (s.done ++ [(op, xs)]).map (renameEvent π) = t.done ++ [(op, ys)] := by
    rw [List.map_append, hst.done π hπ, List.map_singleton, renameEvent, hys π hπ]
  simp only [Scene.onState, Interpretation.perform]
  rw [hresult w'.perm w'.agrees_perm]
  have hsame π (hπ : w'.Agrees π) := (hresult π hπ).symm.trans (hresult w'.perm w'.agrees_perm)
  generalize O.operate op xs s.heap = r at hsame ⊢
  cases r with
  | ok x h =>
    simp only [renameResult, EStateM.Result.ok.injEq] at hsame ⊢
    exact .ok le_rfl (fun π hπ => (hsame π hπ).1)
      { hst with heap := fun π hπ => (hsame π hπ).2, done := hdone }
  | error x h =>
    simp only [renameResult, EStateM.Result.error.injEq] at hsame ⊢
    exact .error le_rfl (fun π hπ => (hsame π hπ).1)
      { hst with heap := fun π hπ => (hsame π hπ).2, done := hdone }

/-- Both runs allocate an object. -/
theorem mirrors_allocate (hO : O.Blind) (cls : String) :
    Mirrors v K Naming.Same w (O.allocate cls) (O.allocate cls) := by
  intro w' hw s t hst
  have hlt : w'.left < w'.skip.left := Nat.lt_succ_self _
  have hnew : w'.left ∉ w'.skip.known := fun h => lt_irrefl _ (w'.known_lt _ h)
  have hle : w' ≤ w'.skip.pair w'.left hlt hnew := Naming.le_pair w'.le_skip le_rfl hlt hnew
  have hobject := hO.same_object (w := w'.skip.pair w'.left hlt hnew) (Set.mem_insert _ _) cls
  rw [Naming.pair_perm_self] at hobject
  refine .ok hle ?_ ?_
  · rw [hst.left, hst.right]
    exact hobject
  · exact { hst with
        heap := hst.heap.mono hle
        done := fun π hπ => hst.done π (hπ.mono hle)
        left := congrArg (· + 1) hst.left
        right := congrArg (· + 1) hst.right
        others := fun u hu => (hst.others u hu).mono hle
        self := K.mono hle hst.self }

theorem mirrors_read (hu : u = v → ∀ w a b, K.Holds w a b → w.SameCell a b ∨ a.2 = true) :
    Mirrors v K Naming.Same w (Scene.read u) (Scene.read u : EStateM ν (Scene ν η) ν) := by
  intro w' hw s t hst
  have hcell : w'.SameCell (s.cell u) (t.cell u) ∨ (s.cell u).2 = true := by
    by_cases h : u = v
    · subst h
      exact hu rfl _ _ _ hst.self
    · exact .inl (hst.others u h)
  simp only [Scene.read]
  cases hraw : s.raw u with
  | true => exact .misread rfl
  | false =>
    have hsame := hcell.resolve_right (by simp [Scene.cell, hraw])
    have hraw' : t.raw u = false := by
      by_contra h
      have hs : s.raw u = true := hsame.2 (by simpa [Scene.cell] using h)
      simp [hraw] at hs
    rw [hraw']
    exact .ok le_rfl hsame.1 hst

/-! ## Expressions -/

/-- What is done with the same values. -/
theorem mirrors_finish (hO : O.Blind) (he : e.isRegular = true) (h : w.SameAll xs ys) :
    Mirrors v K Naming.Same w (Scene.onState (O.finish e xs)) (Scene.onState (O.finish e ys)) := by
  have hperform op := mirrors_perform (v := v) (K := K) hO op h
  have hbool b :
    Mirrors v K Naming.Same w (pure (O.ofBool b) : EStateM ν (Scene ν η) ν) (pure (O.ofBool b)) :=
    .pure fun _ _ => hO.same_ofBool b
  have hmem {x : ν} (hx : x ∈ xs) : w.Same x (w.perm • x) := fun π hπ => by
    have heq := (h π hπ).trans h.eq
    exact List.map_inj_left.1 heq x hx
  obtain rfl := h.eq
  cases e with
  | lit l =>
    cases l with
    | boolean b => exact hbool b
    | _ => exact hperform _
  | paren e =>
    match xs with
    | [x] => exact .pure fun _ hw => (hmem (by simp)).mono hw
    | [] | _ :: _ :: _ => exact hperform _
  | unary op e t =>
    cases op with
    | neg => exact hperform _
    | not =>
      match xs with
      | [x] =>
        simp only [Interpretation.finish, List.map_cons, List.map_nil, hO.truth]
        exact hbool _
      | [] | _ :: _ :: _ => exact hperform _
  | compare op a b =>
    match xs with
    | [x, y] =>
      simp only [Interpretation.finish, List.map_cons, List.map_nil, hO.order]
      exact hbool _
    | [] | [_] | _ :: _ :: _ :: _ => exact hperform _
  | assign t e =>
    cases t with
    | var => cases he
    | _ => exact hperform _
  | var | alloc | new => cases he
  | _ => exact hperform _

/-- An expression that a bond on a variable holds through. Where the variable is read it is the same
or raw, and where a constructor is run on it, it is the same. -/
structure Bond.Fits (K : Bond ν) (v : Var) (e : Expr) : Prop where
  read : .read v ∈ e.uses → ∀ w a b, K.Holds w a b → w.SameCell a b ∨ a.2 = true
  write : .write v ∈ e.uses → K.AllowsSame
  construct : e.constructions v ≠ 0 → ∀ w a b, K.Holds w a b ↔ w.SameCell a b

theorem Bond.Fits.part {d : Expr} (he : K.Fits v e) (hd : d ∈ e.parts) : K.Fits v d where
  read h := he.read (Expr.uses_parts_subset hd h)
  write h := he.write (Expr.uses_parts_subset hd h)
  construct h :=
    he.construct fun h0 => h (Nat.le_zero.1 (h0 ▸ Expr.constructions_le_of_mem_parts hd v))

/-- An expression that does not mention the variable fits any bond. -/
theorem Bond.fits_of_mentions (he : e.mentions v = false) (hconstruct : e.constructions v = 0) :
    K.Fits v e := by
  have hmem := Expr.mentions_eq_false_iff.1 he
  exact ⟨fun h => absurd rfl (hmem _ h), fun h => absurd rfl (hmem _ h),
    fun h => absurd hconstruct h⟩

theorem mirrors_mapM {ds : List Expr}
    (h : ∀ d ∈ ds, ∀ w, Mirrors v K Naming.Same w (O.eval d) (O.eval d))
    (w : Naming) : Mirrors v K Naming.SameAll w (ds.mapM O.eval) (ds.mapM O.eval) := by
  induction ds generalizing w with
  | nil => exact .pure fun _ _ _ _ => rfl
  | cons d ds ih =>
    rw [List.forall_mem_cons] at h
    simp only [List.mapM_cons]
    refine (h.1 w).bind fun w₁ _ x y hxy => (ih h.2 w₁).bind fun w₂ hw₂ xs ys hxys =>
      .pure fun w₃ hw₃ => ?_
    exact .cons (hxy.mono (hw₂.trans hw₃)) (hxys.mono hw₃)

/-- Running a constructor on the object in a variable. -/
theorem mirrors_construct (hO : O.Blind) (hu : u = v → ∀ w a b, K.Holds w a b ↔ w.SameCell a b)
    (hargs : ∀ d ∈ args, ∀ w, Mirrors v K Naming.Same w (O.eval d) (O.eval d)) :
    Mirrors v K Naming.Same w (O.eval (.construct (.var u) m args))
      (O.eval (.construct (.var u) m args)) := by
  have hcell {w s t} (hst : Linked (η := η) v K w s t) : w.SameCell (s.cell u) (t.cell u) := by
    by_cases h : u = v
    · subst h
      exact (hu rfl _ _ _).1 hst.self
    · exact hst.others u h
  have hpeek : Mirrors (η := η) v K Naming.Same w (Scene.peek u) (Scene.peek u) :=
    fun _ _ _ _ hst => .ok le_rfl (hcell hst).1 hst
  rw [Objects.eval]
  refine hpeek.bind fun w₁ _ x y hxy => (mirrors_mapM hargs w₁).bind fun w₂ hw₂ xs ys hxys => ?_
  refine (mirrors_perform hO _ (.cons (hxy.mono hw₂) hxys)).bind
    fun w₃ _ a b hab w₄ hw₄ s t hst => ?_
  refine .ok le_rfl (hab.mono hw₄) (hst.store (hcell hst).1 false fun h => ?_)
  exact (hu h _ _ _).2 ⟨(hcell hst).1, id⟩

/-- The new object is allocated before the arguments are evaluated. -/
theorem mirrors_new (hO : O.Blind)
    (hargs : ∀ d ∈ args, ∀ w, Mirrors v K Naming.Same w (O.eval d) (O.eval d)) :
    Mirrors v K Naming.Same w (O.eval (.new m args)) (O.eval (.new m args)) := by
  rw [Objects.eval]
  refine (mirrors_allocate hO _).bind fun w₁ _ x y hxy =>
    (mirrors_mapM hargs w₁).bind fun w₂ hw₂ xs ys hxys => ?_
  refine (mirrors_perform hO _ (.cons (hxy.mono hw₂) hxys)).bind fun w₃ hw₃ _ _ _ =>
    .pure fun w₄ hw₄ => ?_
  exact hxy.mono (hw₂.trans (hw₃.trans hw₄))

/-- An expression does the same in linked scenes. -/
theorem mirrors_eval (hO : O.Blind) (he : K.Fits v e) (w : Naming) :
    Mirrors v K Naming.Same w (O.eval e) (O.eval e) := by
  induction e using Expr.partsInduction generalizing w with
  | var u =>
    rw [Objects.eval]
    exact mirrors_read fun h => he.read (by simp [Expr.uses, Expr.usesAs, h])
  | lazy op a b t hop iha ihb =>
    have htruth {w : Naming} {x y : ν} (h : w.Same x y) :
      O.semantics.truth y = O.semantics.truth x := hO.truth_eq h
    rw [show O.eval (.binary op a b t) = _ from O.semantics.eval_lazy hop]
    refine (iha (he.part (by simp [Expr.parts, Expr.children])) w).bind fun w₁ _ x y hxy => ?_
    rw [htruth hxy]
    split
    · refine (ihb (he.part (by simp [Expr.parts, Expr.children])) w₁).map fun _ _ x y hxy _ _ => ?_
      rw [htruth hxy]
      exact hO.same_ofBool _
    · exact .pure fun _ _ => hO.same_ofBool _
  | strict e hstrict ih =>
    have hparts d (hd : d ∈ e.parts) w := ih d hd (he.part hd) w
    cases hregular : e.isRegular with
    | true =>
      rw [Objects.eval_of_isRegular hregular]
      exact (mirrors_mapM hparts w).bind fun _ _ _ _ h => mirrors_finish hO hregular h
    | false =>
      unfold Expr.isRegular at hregular
      split at hregular
      · cases hstrict
      · cases hstrict
      · cases hstrict
      · rename_i u d
        rw [Objects.eval]
        refine (hparts d (by simp [Expr.parts]) w).bind fun w₁ _ x y hxy w₂ hw₂ s t hst => ?_
        refine .ok le_rfl (hxy.mono hw₂) (hst.store (hxy.mono hw₂) _ fun h => ?_)
        exact he.write (by simp [Expr.uses, Expr.usesAs, h]) _ _ _ ⟨hxy.mono hw₂, id⟩
      · rw [Objects.eval]
        exact mirrors_allocate hO _
      · rename_i u m args
        refine mirrors_construct hO (fun h => he.construct ?_) fun d hd =>
          hparts d (List.mem_cons_of_mem _ hd)
        simp [Expr.constructions, Expr.subexprs, Expr.isConstructionOf, h]
      · exact mirrors_new hO hparts
      · cases hregular

end

end ByteLift
