import ByteLift.Proofs.Lift.Run
import ByteLift.Proofs.Variables.Within
import Mathlib.Order.Defs.Unbundled

/-!
# Relations along lifting

Lifting changes the machine in a few ways: the stack is replaced, statements are added, a variable
is added or gets another type, and the tables about labels are filled. A preorder on states that
holds of each such change holds along all of lifting. So the variables that stand anywhere in the
machine are in its table, which only grows.
-/

namespace ByteLift

/-- Everything in the machine uses only the first `n` variables. -/
structure Machine.Within (n : Nat) (m : Machine) : Prop where
  stack : ∀ e ∈ m.stack, e.ReadsBelow n
  out : m.out.Within n
  locals : ∀ k v, (k, Local.var v) ∈ m.locals → v.index < n
  merges : ∀ k v, (k, v) ∈ m.merges → v.index < n

namespace Lift

variable {α β : Type} {c : Lift α} {f : α → Lift β} {env : Env} {R : Machine → Machine → Prop}
  {dest : Label → Prop} {pre : Nat → Prop} {post : Nat → α → Prop}
  {post' : Nat → β → Prop} {e : Expr} {es : List Expr}

/-- Steps that relate the state before them to the one behind. -/
def Relates (R : Machine → Machine → Prop) (c : Lift α) : Prop := ∀ m a m', c m = .ok a m' → R m m'

/-- Steps that only add variables to the table, and that use only variables of it if what they are
given does. -/
def Confined (pre : Nat → Prop) (c : Lift α) (post : Nat → α → Prop) : Prop :=
  ∀ m a m', c m = .ok a m' → m.vars.size ≤ m'.vars.size ∧
    ∀ n, m'.vars.size ≤ n → m.Within n → pre n → m'.Within n ∧ post n a

/-- Steps that do both. -/
def Behaves (R : Machine → Machine → Prop) (pre : Nat → Prop) (c : Lift α)
    (post : Nat → α → Prop) : Prop :=
  Relates R c ∧ Confined pre c post

namespace Relates

theorem modify {g : Machine → Machine} (h : ∀ m, R m (g m)) : Relates R (modify g) := by
  intro m a m' hm
  obtain rfl := modify_eq_ok.1 hm
  exact h m

theorem throw (e : Failure) : Relates R (MonadExcept.throw e : Lift α) :=
  fun _ _ _ h => (throw_eq_ok.1 h).elim

variable [IsPreorder Machine R]

theorem pure (a : α) : Relates R (Pure.pure a : Lift α) := by
  intro m b m' h
  obtain ⟨_, rfl⟩ := pure_eq_ok.1 h
  exact refl_of R _

theorem bind (hc : Relates R c) (hf : ∀ a, Relates R (f a)) : Relates R (c >>= f) := by
  intro m b m' h
  obtain ⟨a, m₁, ha, hb⟩ := bind_eq_ok.1 h
  exact trans_of R (hc m a m₁ ha) (hf a m₁ b m' hb)

theorem get : Relates R get := by
  intro m a m' h
  obtain ⟨_, rfl⟩ := get_eq_ok.1 h
  exact refl_of R _

end Relates

/-- If nothing is known of what is given, all of it is known. -/
theorem unknown {known : Nat → Prop} : ∀ n, (fun _ => False) n → known n := fun _ h => h.elim

namespace Behaves

theorem relates (h : Behaves R (fun _ => False) c post) : Relates R c := h.1

theorem of_forall (h : ∀ m a m', c m = .ok a m' → R m m' ∧ m.vars.size ≤ m'.vars.size ∧
    ∀ n, m'.vars.size ≤ n → m.Within n → pre n → m'.Within n ∧ post n a) : Behaves R pre c post :=
  ⟨fun m a m' hm => (h m a m' hm).1, fun m a m' hm => (h m a m' hm).2⟩

theorem weaken {pre' : Nat → Prop} (hc : Behaves R pre' c post) (h : ∀ n, pre n → pre' n) :
    Behaves R pre c post := by
  refine ⟨hc.1, fun m a m' ha => ?_⟩
  obtain ⟨hsize, hwithin⟩ := hc.2 m a m' ha
  exact ⟨hsize, fun n hn hm hpre => hwithin n hn hm (h n hpre)⟩

theorem modify {g : Machine → Machine} (hR : ∀ m, R m (g m))
    (hsize : ∀ m, m.vars.size ≤ (g m).vars.size) (h : ∀ m n, pre n → m.Within n → (g m).Within n) :
    Behaves R pre (modify g) fun _ _ => True := by
  refine ⟨.modify hR, fun m a m' hm => ?_⟩
  obtain rfl := modify_eq_ok.1 hm
  exact ⟨hsize m, fun n _ hwithin hpre => ⟨h m n hpre hwithin, trivial⟩⟩

theorem throw {failure : Failure} : Behaves R pre (MonadExcept.throw failure : Lift α) post :=
  ⟨.throw failure, fun _ _ _ h => (throw_eq_ok.1 h).elim⟩

variable [IsPreorder Machine R]

theorem pure {a : α} (h : ∀ n, pre n → post n a) : Behaves R pre (Pure.pure a) post := by
  refine ⟨.pure a, fun m b m' hm => ?_⟩
  obtain ⟨rfl, rfl⟩ := pure_eq_ok.1 hm
  exact ⟨Nat.le_refl _, fun n _ hwithin hpre => ⟨hwithin, h n hpre⟩⟩

theorem bind (hc : Behaves R pre c post)
    (hf : ∀ a, Behaves R (fun n => pre n ∧ post n a) (f a) post') :
    Behaves R pre (c >>= f) post' := by
  refine ⟨.bind hc.1 fun a => (hf a).1, fun m b m' h => ?_⟩
  obtain ⟨a, m₁, ha, hb⟩ := bind_eq_ok.1 h
  obtain ⟨hsize, hwithin⟩ := hc.2 m a m₁ ha
  obtain ⟨hsize', hwithin'⟩ := (hf a).2 m₁ b m' hb
  refine ⟨Nat.le_trans hsize hsize', fun n hn hm hpre => ?_⟩
  obtain ⟨hm₁, hpost⟩ := hwithin n (Nat.le_trans hsize' hn) hm hpre
  exact hwithin' n hn hm₁ ⟨hpre, hpost⟩

theorem get : Behaves R pre get fun n m => m.Within n := by
  refine ⟨.get, fun m a m' h => ?_⟩
  obtain ⟨rfl, rfl⟩ := get_eq_ok.1 h
  exact ⟨Nat.le_refl _, fun n _ hm _ => ⟨hm, hm⟩⟩

end Behaves

section Reading

variable [IsPreorder Machine R]

theorem behaves_mismatch (detail : String) :
    Behaves R pre (mismatch detail : Lift α) fun _ _ => True :=
  .bind .get fun _ => .throw

theorem behaves_pureExpr (h : ∀ n, pre n → e.ReadsBelow n) :
    Behaves R pre (pure e : Lift Expr) fun n x => x.ReadsBelow n := .pure h

theorem behaves_typeOf (e : Expr) : Behaves R pre (typeOf env e) fun _ _ => True :=
  .bind .get fun _ => .pure fun _ _ => trivial

theorem behaves_loadLocal (slot : Nat) (kind : LocalKind) :
    Behaves R pre (loadLocal slot kind) fun n e => e.ReadsBelow n := by
  refine .bind .get fun m => ?_
  rcases hk : entered? (slot, kind) m.locals with _ | _ | v
  · exact .throw
  · exact .pure fun n _ => by simp [Expr.readsBelow_node, Expr.children]
  · exact .pure fun n h => Expr.readsBelow_var.2 (h.2.locals _ v (mem_of_entered? hk))

end Reading

/-- The statements that instructions emit: expressions, exits, and jumps to the labels in `dest`. -/
def Emits (dest : Label → Prop) : Stmt → Prop
  | .expr _ | .ret _ | .throw _ => True
  | .goto l _ => dest l
  | _ => False

/-- Preorders that hold when statements are emitted and when a variable is added. -/
structure Spilling (dest : Label → Prop) (R : Machine → Machine → Prop) : Prop where
  out : ∀ (m : Machine) (ss : Block), (∀ s ∈ ss, Emits dest s) → R m { m with out := m.out ++ ss }
  declare : ∀ (m : Machine) (decl : VarDecl) (temps : Nat),
    R m { m with vars := m.vars.push decl, temps }

/-- Preorders that hold of what instructions do, other than to the locals. -/
structure Tracks (env : Env) (dest : Label → Prop) (R : Machine → Machine → Prop) :
    Prop extends Spilling dest R where
  stack : ∀ (m : Machine) (stack : List Expr), R m { m with stack }
  asked : ∀ (m : Machine) (asked : List Query), R m { m with asked }
  flowTo : ∀ l, Relates R (flowTo env l)

/-- Preorders that hold of any change to the tables about labels as well. -/
structure Fills (dest : Label → Prop) (R : Machine → Machine → Prop) :
    Prop extends Spilling dest R where
  stack : ∀ (m : Machine) (stack : List Expr), R m { m with stack }
  asked : ∀ (m : Machine) (asked : List Query), R m { m with asked }
  retype : ∀ (m : Machine) (v : Var) (ty : Ty), R m { m with vars := m.vars.setTy v ty }
  merges : ∀ (m : Machine) (merges : List ((Label × Nat) × Var)), R m { m with merges }
  shapes : ∀ (m : Machine) (shapes : List (Label × List Ty)), R m { m with shapes }

/-- A change to what holds no variables. -/
theorem behaves_modifyTables {g : Machine → Machine} (hR : ∀ m, R m (g m))
    (hstack : ∀ m, (g m).stack = m.stack)
    (hout : ∀ m, (g m).out = m.out) (hlocals : ∀ m, (g m).locals = m.locals)
    (hmerges : ∀ m, (g m).merges = m.merges) (hsize : ∀ m, m.vars.size ≤ (g m).vars.size) :
    Behaves R pre (modify g) fun _ _ => True :=
  .modify hR hsize fun m _ _ hm =>
    ⟨hstack m ▸ hm.stack, hout m ▸ hm.out, hlocals m ▸ hm.locals, hmerges m ▸ hm.merges⟩

theorem behaves_modifyStack {g : Machine → List Expr}
    (hstack : ∀ (m : Machine) stack, R m { m with stack })
    (hg : ∀ m n, pre n → m.Within n → ∀ e ∈ g m, e.ReadsBelow n) :
    Behaves R pre (modify fun m => { m with stack := g m }) fun _ _ => True :=
  .modify (fun m => hstack m _) (fun _ => Nat.le_refl _) fun m n hn hm =>
    ⟨hg m n hn hm, hm.out, hm.locals, hm.merges⟩

theorem mem_enter {κ γ : Type} [DecidableEq κ] {k key : κ} {x y : γ} {entries : List (κ × γ)}
    (h : (k, x) ∈ ByteLift.enter key y entries) : x = y ∨ (k, x) ∈ entries := by
  rcases List.mem_cons.1 h with heq | h
  · cases heq
    exact .inl rfl
  · exact .inr (List.mem_filter.1 h).1

/-! ## Storing values -/

namespace Spilling

variable (h : Spilling dest R)

include h

theorem append {ss : Block} (hss : ∀ s ∈ ss, Emits dest s) (hwithin : ∀ n, pre n → ss.Within n) :
    Behaves R pre (append ss) fun _ _ => True :=
  .modify (fun m => h.out m ss hss) (fun _ => Nat.le_refl _) fun _ n hn hm =>
    ⟨hm.stack, Block.Within.append_iff.2 ⟨hm.out, hwithin n hn⟩, hm.locals, hm.merges⟩

theorem appendOne {s : Stmt} (hs : Emits dest s) (hwithin : ∀ n, pre n → Block.Within n [s]) :
    Behaves R pre (Lift.append [s]) fun _ _ => True :=
  h.append (List.forall_mem_singleton.2 hs) hwithin

theorem newTemp (ty : Ty) : Behaves R pre (newTemp env ty) fun n v => v.index < n := by
  refine .of_forall fun m v m' hv => ?_
  simp only [Lift.newTemp, bind_eq_ok, get_eq_ok, set_eq_ok, pure_eq_ok] at hv
  obtain ⟨_, _, ⟨rfl, rfl⟩, _, _, rfl, rfl, rfl⟩ := hv
  refine ⟨h.declare _ _ _, by simp, fun n hn hm _ => ⟨⟨hm.stack, hm.out, hm.locals, hm.merges⟩, ?_⟩⟩
  simp only [VarTable.size_push] at hn
  simp only [VarTable.index_next]
  omega

variable [IsPreorder Machine R]

theorem spill (he : ∀ n, pre n → e.ReadsBelow n) :
    Behaves R pre (spill env e) fun n x => x.ReadsBelow n :=
  .bind .get fun _ => .bind (h.newTemp _) fun _ =>
    .bind (h.appendOne trivial fun n hn => .set hn.2 (he n hn.1.1)) fun _ => .pure fun _ hn =>
      Expr.readsBelow_var.2 hn.1.2

theorem spillImpure (hes : ∀ n, pre n → ∀ e ∈ es, e.ReadsBelow n) :
    Behaves R pre (spillImpure env es) fun n xs => ∀ x ∈ xs, x.ReadsBelow n := by
  induction es with
  | nil => exact .pure (by simp)
  | cons e es ih =>
    simp only [List.forall_mem_cons] at hes
    refine .bind (ih fun n hn => (hes n hn).2) fun below => ?_
    split
    · exact .pure fun n hn => List.forall_mem_cons.2 ⟨(hes n hn.1).1, hn.2⟩
    · exact .bind (h.spill fun n hn => (hes n hn.1).1) fun x =>
        .pure fun n hn => List.forall_mem_cons.2 ⟨hn.2, hn.1.2⟩

theorem spillChosen (chosen : Nat → Expr → Bool) (hes : ∀ n, pre n → ∀ e ∈ es, e.ReadsBelow n) :
    Behaves R pre (spillChosen env chosen es) fun n xs => ∀ x ∈ xs, x.ReadsBelow n := by
  induction es with
  | nil => exact .pure (by simp)
  | cons e es ih =>
    simp only [List.forall_mem_cons] at hes
    refine .bind (ih fun n hn => (hes n hn).2) fun kept => ?_
    have hspill (kept : List Expr) : Behaves R (fun n => pre n ∧ ∀ x ∈ kept, x.ReadsBelow n)
        (do return (← Lift.spill env e) :: kept) fun n xs => ∀ x ∈ xs, x.ReadsBelow n :=
      .bind (h.spill fun n hn => (hes n hn.1).1) fun x =>
        .pure fun n hn => List.forall_mem_cons.2 ⟨hn.2, hn.1.2⟩
    split
    · split
      · exact .bind (.pure fun n hn => hn.2) fun kept => (hspill kept).weaken fun n hn =>
          ⟨hn.1.1, hn.2⟩
      · exact .bind (h.spillImpure fun n hn => hn.2) fun kept =>
          (hspill kept).weaken fun n hn => ⟨hn.1.1, hn.2⟩
    · exact .pure fun n hn => List.forall_mem_cons.2 ⟨(hes n hn.1).1, hn.2⟩

theorem spillStack (hstack : ∀ (m : Machine) stack, R m { m with stack })
    (chosen : Nat → Expr → Bool) : Behaves R pre (Lift.spillStack env chosen) fun _ _ => True :=
  .bind .get fun _ => .bind (h.spillChosen chosen fun _ hn => hn.2.stack) fun _ =>
    behaves_modifyStack hstack fun _ _ hn _ => hn.2

section

variable (hmerges : ∀ (m : Machine) merges, R m { m with merges }) (l : Label) (slot : Nat)
include hmerges

theorem mergeTemp (ty : Ty) : Behaves R pre (mergeTemp env l slot ty) fun n v => v.index < n := by
  refine .bind .get fun m => ?_
  cases hl : entered? (l, slot) m.merges with
  | some v => exact .pure fun n hn => hn.2.merges _ v (mem_of_entered? hl)
  | none =>
    refine .bind (h.newTemp ty) fun v =>
      .bind (.modify (fun m => hmerges m _) (fun _ => Nat.le_refl _)
      fun m n hn hm => ?_) fun _ => .pure fun n hn => hn.1.2
    refine ⟨hm.stack, hm.out, hm.locals, fun k u hu => ?_⟩
    rcases mem_enter hu with rfl | hu
    · exact hn.2
    · exact hm.merges k u hu

theorem mergeTemps (ts : List Ty) :
    Behaves R pre (mergeTemps env l slot ts) fun n vs => ∀ v ∈ vs, v.index < n := by
  induction ts generalizing slot pre with
  | nil => exact .pure (by simp)
  | cons t ts ih =>
    exact .bind (h.mergeTemp hmerges l slot t) fun v => .bind (ih _) fun vs =>
      .pure fun n hn => List.forall_mem_cons.2 ⟨hn.1.2, hn.2⟩

end

/-- The variable of a slot, for preorders that hold of any change to the locals and types. -/
theorem localForStore (hlocals : ∀ (m : Machine) locals, R m { m with locals })
    (hretype : ∀ (m : Machine) v ty, R m { m with vars := m.vars.setTy v ty }) (slot : Nat)
    (kind : LocalKind)
    (ty : Ty) : Behaves R pre (localForStore slot kind ty) fun n v => v.index < n := by
  refine .of_forall fun m v m' hv => ?_
  simp only [Lift.localForStore, bind_eq_ok, get_eq_ok] at hv
  obtain ⟨_, m, ⟨rfl, rfl⟩, hv⟩ := hv
  -- A slot without a variable gets a new one.
  have hnew (hadded : ∃ d : VarDecl, m' = { m with
        vars := m.vars.push d, locals := ByteLift.enter (slot, kind) (.var m.vars.next) m.locals } ∧
        m.vars.next = v) :
      R m m' ∧ m.vars.size ≤ m'.vars.size ∧ ∀ n, m'.vars.size ≤ n → m.Within n → pre n →
        m'.Within n ∧ v.index < n := by
    obtain ⟨d, rfl, rfl⟩ := hadded
    refine ⟨trans_of R (h.declare m d m.temps) (hlocals _ _), by simp, fun n hn hm _ => ?_⟩
    simp only [VarTable.size_push] at hn
    have hv : m.vars.next.index < n := by
      simp only [VarTable.index_next]
      omega
    refine ⟨⟨hm.stack, hm.out, fun k u hu => ?_, hm.merges⟩, hv⟩
    rcases mem_enter hu with heq | hu
    · cases heq
      exact hv
    · exact hm.locals k u hu
  rcases hk : entered? (slot, kind) m.locals with _ | _ | u
  · simp only [hk, bind_eq_ok, set_eq_ok, pure_eq_ok] at hv
    obtain ⟨_, _, rfl, rfl, rfl⟩ := hv
    exact hnew ⟨_, rfl, rfl⟩
  · simp only [hk, bind_eq_ok, set_eq_ok, pure_eq_ok] at hv
    obtain ⟨_, _, rfl, rfl, rfl⟩ := hv
    exact hnew ⟨_, rfl, rfl⟩
  · simp only [hk] at hv
    split at hv
    · simp only [bind_eq_ok, set_eq_ok, pure_eq_ok] at hv
      obtain ⟨_, _, rfl, rfl, rfl⟩ := hv
      exact ⟨hretype m u ty, by simp, fun n _ hm _ =>
        ⟨⟨hm.stack, hm.out, hm.locals, hm.merges⟩, hm.locals _ u (mem_of_entered? hk)⟩⟩
    · obtain ⟨rfl, rfl⟩ := pure_eq_ok.1 hv
      exact ⟨refl_of R _, Nat.le_refl _, fun n _ hm _ => ⟨hm, hm.locals _ u (mem_of_entered? hk)⟩⟩

end Spilling

/-! ## Going to a label -/

theorem emits_moves (es : List Expr) (temps : List Var) : ∀ s ∈ moves es temps, Emits dest s := by
  intro s hs
  obtain ⟨⟨e, t⟩, _, hs⟩ := List.mem_filterMap.1 hs
  dsimp only at hs
  split at hs
  · cases hs
  · cases hs
    trivial

theorem within_moves {n : Nat} {temps : List Var} (hes : ∀ e ∈ es, e.ReadsBelow n)
    (htemps : ∀ t ∈ temps, t.index < n) : (moves es temps).Within n := by
  refine Block.Within.iff_forall.2 fun s hs => ?_
  obtain ⟨⟨e, t⟩, hmem, hs⟩ := List.mem_filterMap.1 hs
  obtain ⟨he, ht⟩ := List.of_mem_zip hmem
  dsimp only at hs
  split at hs
  · cases hs
  · cases hs
    exact .set (htemps t ht) (hes e he)

theorem behaves_checkShape [IsPreorder Machine R] {l : Label}
    (hrefine : ∀ {pre : Nat → Prop} slot ty, Behaves R pre (refine env l slot ty) fun _ _ => True)
    (slot : Nat)
    (pairs : List (Ty × Ty)) : Behaves R pre (checkShape env l slot pairs) fun _ _ => True := by
  induction pairs generalizing slot pre with
  | nil => exact .pure fun _ _ => trivial
  | cons p pairs ih =>
    obtain ⟨found, want⟩ := p
    have hrest {pre : Nat → Prop} : Behaves R pre (do
        if want = .null && found.isReference && found ≠ .null then refine env l slot found
        checkShape env l (slot + 1) pairs) fun _ _ => True := by
      split
      · exact .bind (hrefine slot found) fun _ => ih _
      · exact ih _
    rw [checkShape]
    split
    · exact .bind (behaves_mismatch _) fun _ => hrest
    · exact hrest

namespace Fills

variable (h : Fills dest R)

include h

theorem setShapes (g : Machine → List (Label × List Ty)) :
    Behaves R pre (modify fun m => { m with shapes := g m }) fun _ _ => True :=
  behaves_modifyTables (fun m => h.shapes m _) (fun _ => rfl) (fun _ => rfl) (fun _ => rfl)
    (fun _ => rfl)
    fun _ => Nat.le_refl _

variable [IsPreorder Machine R] (l : Label) (slot : Nat)

theorem refine (ty : Ty) : Behaves R pre (refine env l slot ty) fun _ _ => True :=
  .bind (h.mergeTemp h.merges l slot _) fun v =>
    behaves_modifyTables (fun m => trans_of R (h.retype m v ty) (h.shapes _ _)) (fun _ => rfl)
      (fun _ => rfl) (fun _ => rfl)
      (fun _ => rfl) fun _ => by simp

theorem checkShape (pairs : List (Ty × Ty)) :
    Behaves R pre (Lift.checkShape env l slot pairs) fun _ _ => True :=
  behaves_checkShape (h.refine l) slot pairs

theorem joinShape (shape : List Ty) : Behaves R pre (joinShape env l shape) fun _ _ => True := by
  refine .bind .get fun m => ?_
  cases entered? l m.shapes with
  | some recorded =>
    dsimp only
    split
    · exact .bind (behaves_mismatch _) fun _ => h.checkShape _ _ _
    · exact h.checkShape _ _ _
  | none => exact h.setShapes _

theorem flowTo : Behaves R pre (flowTo env l) fun _ _ => True :=
  .bind .get fun _ => .bind (h.joinShape l _) fun _ => .bind (h.mergeTemps h.merges l 0 _) fun _ =>
    .bind .get fun _ => .bind (h.spillStack h.stack _) fun _ => .bind .get fun _ =>
      h.append (emits_moves _ _) fun _ hn =>
        within_moves (fun e he => hn.2.stack e (List.mem_reverse.1 he)) hn.1.1.1.2

theorem tracks : Tracks env dest R where
  toSpilling := h.toSpilling
  stack := h.stack
  asked := h.asked
  flowTo l := (h.flowTo l).relates

/-- What stands behind the label itself when it is passed. -/
theorem behindLabel (l : Label) : Behaves R pre (do
    let shape := (entered? l (← get).shapes).getD []
    modify fun m => { m with shapes := ByteLift.enter l shape m.shapes }
    let temps ← Lift.mergeTemps env l 0 shape
    modify fun m => { m with stack := (temps.map Expr.var).reverse }) fun _ _ => True :=
  .bind .get fun _ => .bind (h.setShapes _) fun _ => .bind (h.mergeTemps h.merges l 0 _) fun _ =>
    behaves_modifyStack h.stack fun _ _ hn _ => by simpa using hn.2

theorem passLabel (hlabel : ∀ (m : Machine) l, R m { m with out := m.out ++ [.label l] })
    (l : Label) : Behaves R pre (passLabel env l) fun _ _ => True :=
  .bind (.modify (fun m => hlabel m l) (fun _ => Nat.le_refl _) fun _ _ _ hm => ⟨hm.stack,
    Block.Within.append_iff.2 ⟨hm.out, .of_exprs rfl rfl (by simp [Stmt.exprs])⟩,
    hm.locals, hm.merges⟩) fun _ => h.behindLabel l

end Fills

end Lift

end ByteLift
