import ByteLift.Flat.Step
import ByteLift.Proofs.Lift.Pending
import ByteLift.Proofs.Semantics.Flat

/-!
# The state of the lifting machine

What always holds of the machine that lifts code, and how its state grows. Each local slot and each
slot of a label has a variable of its own. Variables are only added, and none comes to take another
number of words.
-/

namespace ByteLift

/-! ## Tables -/

section Entered

variable {κ α : Type} [DecidableEq κ]

theorem entered?_enter (key k : κ) (a : α) (entries : List (κ × α)) :
    entered? k (enter key a entries) = if k = key then some a else entered? k entries := by
  unfold entered? enter
  rw [List.find?_cons]
  by_cases hk : k = key
  · simp [hk]
  · have hne : decide (key = k) = false := by simpa [eq_comm] using hk
    simp only [hne, if_neg hk, List.find?_filter]
    congr 2
    funext e
    by_cases he : e.1 = k
    · simp [he, hk]
    · simp [he]

theorem mem_of_entered? {k : κ} {a : α} {entries : List (κ × α)}
    (h : entered? k entries = some a) : (k, a) ∈ entries := by
  unfold entered? at h
  obtain ⟨⟨k', a'⟩, hfind, rfl⟩ := Option.map_eq_some_iff.1 h
  have hkey : k' = k := by simpa using List.find?_some hfind
  rw [← hkey]
  exact List.mem_of_find?_eq_some hfind

end Entered

namespace VarTable

variable (t : VarTable) (d : VarDecl) (ty : Ty)

@[simp] theorem size_push : (t.push d).size = t.size + 1 := by
  simp [push, size]

@[simp] theorem size_setTy (v : Var) (ty : Ty) : (t.setTy v ty).size = t.size := by
  simp [setTy, modify, size]

@[simp] theorem index_next : t.next.index = t.size := rfl

variable {v : Var}

theorem ty_push_of_lt (h : v.index < t.size) : (t.push d).ty v = t.ty v := by
  have h' : v.index < t.decls.size := h
  simp [ty, get, push, Array.getElem?_push, Nat.ne_of_lt h']

@[simp] theorem ty_push_next : (t.push d).ty t.next = d.ty := by
  simp [ty, get, push, next]

theorem ty_setTy_of_ne {u : Var} (h : u ≠ v) : (t.setTy v ty).ty u = t.ty u := by
  have hne : v.index ≠ u.index := by
    intro heq
    cases u
    cases v
    cases heq
    exact h rfl
  simp [VarTable.ty, get, setTy, modify, Array.getElem?_modify, hne]

theorem ty_setTy_self (h : v.index < t.size) : (t.setTy v ty).ty v = ty := by
  have h' : v.index < t.decls.size := h
  simp [VarTable.ty, get, setTy, modify, Array.getElem_modify, h']

/-- A table has all variables of another, and they take as many words. -/
structure Extends (t t' : VarTable) : Prop where
  size : t.size ≤ t'.size
  wide : ∀ v : Var, v.index < t.size → (t'.ty v).isWide = (t.ty v).isWide

theorem Extends.refl : t.Extends t := ⟨Nat.le_refl _, fun _ _ => rfl⟩

theorem Extends.trans {t t' t'' : VarTable} (h : t.Extends t') (h' : t'.Extends t'') :
    t.Extends t'' :=
  ⟨Nat.le_trans h.size h'.size, fun v hv =>
    (h'.wide v (Nat.lt_of_lt_of_le hv h.size)).trans (h.wide v hv)⟩

theorem extends_push : t.Extends (t.push d) :=
  ⟨by rw [size_push]; omega, fun v hv => by rw [ty_push_of_lt t d hv]⟩

theorem extends_setTy {ty : Ty} (h : ty.isWide = (t.ty v).isWide) : t.Extends (t.setTy v ty) := by
  refine ⟨Nat.le_of_eq (size_setTy t v ty).symm, fun u hu => ?_⟩
  by_cases huv : u = v
  · subst huv
    rw [ty_setTy_self t ty hu, h]
  · rw [ty_setTy_of_ne t ty huv]

end VarTable

theorem Ty.isWide_of_isReference {t : Ty} (h : t.isReference = true) : t.isWide = false := by
  cases t <;> first | rfl | cases h

variable (t : Ty)

@[simp] theorem Ty.isWide_orObject : t.orObject.isWide = t.isWide := by
  cases t <;> rfl

@[simp] theorem LocalKind.isWide_ofTy : (LocalKind.ofTy t).isWide = t.isWide := by
  cases t <;> rfl

/-! ## Entries of the stack -/

/-- Whether an expression is not one of the forms that conditions are made of. -/
def Expr.isOperand : Expr → Bool
  | .compare .. | .unary .not .. | .binary .condAnd .. | .binary .condOr .. | .paren _
  | .lit (.boolean _) => false
  | _ => true

/-- An expression with a value whose variables are among the first `n`. -/
structure Expr.Known (n : Nat) (e : Expr) : Prop where
  plain : e.isPlain = true
  vars : ∀ x, .read x ∈ e.usesAs false → x.index < n

/-- What stands on the stack. -/
structure Expr.Entry (n : Nat) (e : Expr) : Prop extends Expr.Known n e where
  operand : e.isOperand = true

variable {n : Nat} {e : Expr}

theorem Expr.Known.mono {n' : Nat} (h : e.Known n) (hn : n ≤ n') : e.Known n' :=
  ⟨h.plain, fun x hx => Nat.lt_of_lt_of_le (h.vars x hx) hn⟩

theorem Expr.Entry.mono {n' : Nat} (h : e.Entry n) (hn : n ≤ n') : e.Entry n' :=
  ⟨h.toKnown.mono hn, h.operand⟩

theorem Expr.Known.coerce (h : e.Known n) (t : Ty) : (e.coerce t).Known n :=
  ⟨by rw [isPlain_coerce, h.plain], fun x hx => h.vars x (by rwa [usesAs_coerce] at hx)⟩

theorem Expr.entry_var {v : Var} (h : v.index < n) : (Expr.var v).Entry n := by
  refine ⟨⟨by simp [isPlain], fun x hx => ?_⟩, rfl⟩
  simp only [usesAs, Bool.false_eq_true, if_false, List.mem_singleton, Use.read.injEq] at hx
  rw [hx]
  exact h

/-- Whether an entry takes two words. -/
def Env.isWide (env : Env) (vars : VarTable) (e : Expr) : Bool := (env.typeOf vars e).isWide

theorem Env.isWide_of_extends (env : Env) {t t' : VarTable} (h : t.Extends t')
    (he : e.Entry t.size) : env.isWide t' e = env.isWide t e := by
  unfold isWide
  cases e with
  | var v =>
    simp only [Env.typeOf, Expr.ty]
    exact h.wide v (he.vars v (by simp [Expr.usesAs]))
  | paren e => cases he.operand
  | assign a b => exact absurd he.plain (by simp [Expr.isPlain])
  | _ => rfl

/-! ## Invariants -/

namespace Machine

/-- The entries of the stack are as they should be. -/
def Entries (m : Machine) : Prop := ∀ e ∈ m.stack, e.Entry m.vars.size

/-- The variables of locals and labels are known, apart from each other, and of the right width. -/
structure Coherent (m : Machine) : Prop where
  locals : ∀ k l, entered? k m.locals = some l →
    ∃ v, l = .var v ∧ v.index < m.vars.size ∧ (m.vars.ty v).isWide = k.2.isWide
  locals_inj : ∀ k k' v, entered? k m.locals = some (.var v) →
    entered? k' m.locals = some (.var v) →
    k = k'
  merges : ∀ l j v, entered? (l, j) m.merges = some v → v.index < m.vars.size ∧
    ∃ shape t, entered? l m.shapes = some shape ∧ shape[j]? = some t ∧
    (m.vars.ty v).isWide = t.isWide
  merges_inj : ∀ p q v, entered? p m.merges = some v → entered? q m.merges = some v → p = q
  apart : ∀ k p v, entered? k m.locals = some (.var v) → entered? p m.merges ≠ some v

/-- Each local slot that holds a value has a known variable of its own. -/
structure OwnLocals (m : Machine) : Prop where
  known : ∀ k l, entered? k m.locals = some l → ∃ v, l = .var v ∧ v.index < m.vars.size
  inj : ∀ k k' v, entered? k m.locals = some (.var v) →
    entered? k' m.locals = some (.var v) → k = k'

theorem Coherent.ownLocals {m : Machine} (h : m.Coherent) : m.OwnLocals where
  known k l hk := by
    obtain ⟨v, hl, hv, _⟩ := h.locals k l hk
    exact ⟨v, hl, hv⟩
  inj := h.locals_inj

theorem OwnLocals.index_lt {m : Machine} {k : Nat × LocalKind} {v : Var} (h : m.OwnLocals)
    (hk : entered? k m.locals = some (.var v)) : v.index < m.vars.size := by
  obtain ⟨_, hl, hv⟩ := h.known k _ hk
  cases hl
  exact hv

/-- How the state grows while code with the labels `ls` is emitted. -/
structure Grows (ls : List Label) (m m' : Machine) : Prop where
  vars : m.vars.Extends m'.vars
  out : ∃ ss, m'.out = m.out ++ ss ∧ ss.filterMap Flat.placedLabel? = ls
  locals : ∀ k l, entered? k m.locals = some l → entered? k m'.locals = some l
  new_locals : ∀ k v, entered? k m'.locals = some (.var v) →
    entered? k m.locals = some (.var v) ∨ m.vars.size ≤ v.index
  merges : ∀ p v, entered? p m.merges = some v → entered? p m'.merges = some v
  new_merges : ∀ p v, entered? p m'.merges = some v →
    entered? p m.merges = some v ∨ m.vars.size ≤ v.index
  shapes : ∀ l shape, entered? l m.shapes = some shape →
    ∃ shape', entered? l m'.shapes = some shape' ∧ shape'.map Ty.isWide = shape.map Ty.isWide

variable {ls ls' : List Label} {m m' m'' : Machine}

theorem Grows.trans (h : m.Grows ls m') (h' : m'.Grows ls' m'') : m.Grows (ls ++ ls') m'' where
  vars := h.vars.trans h'.vars
  out := by
    obtain ⟨ss, hss, hl⟩ := h.out
    obtain ⟨ss', hss', hl'⟩ := h'.out
    exact ⟨ss ++ ss', by rw [hss', hss, List.append_assoc], by rw [List.filterMap_append, hl, hl']⟩
  locals k l hk := h'.locals k l (h.locals k l hk)
  new_locals k v hk := by
    rcases h'.new_locals k v hk with hk | hk
    · exact h.new_locals k v hk
    · exact .inr (Nat.le_trans h.vars.size hk)
  merges p v hp := h'.merges p v (h.merges p v hp)
  new_merges p v hp := by
    rcases h'.new_merges p v hp with hp | hp
    · exact h.new_merges p v hp
    · exact .inr (Nat.le_trans h.vars.size hp)
  shapes l shape hl := by
    obtain ⟨shape', hl', heq⟩ := h.shapes l shape hl
    obtain ⟨shape'', hl'', heq'⟩ := h'.shapes l shape' hl'
    exact ⟨shape'', hl'', heq'.trans heq⟩

/-- The tables of two states are the same, apart from variables that one has more, and no label was
emitted. -/
structure Adds (m m' : Machine) : Prop where
  vars : m.vars.Extends m'.vars
  out : ∃ ss, m'.out = m.out ++ ss ∧ ss.filterMap Flat.placedLabel? = []
  locals : m'.locals = m.locals
  merges : m'.merges = m.merges
  shapes : m'.shapes = m.shapes

theorem Adds.of_eq (hvars : m'.vars = m.vars) (hout : m'.out = m.out)
    (hlocals : m'.locals = m.locals)
    (hmerges : m'.merges = m.merges) (hshapes : m'.shapes = m.shapes) : m.Adds m' :=
  ⟨hvars ▸ .refl _, ⟨[], by simp [hout], rfl⟩, hlocals, hmerges, hshapes⟩

theorem Adds.refl (m : Machine) : m.Adds m := .of_eq rfl rfl rfl rfl rfl

theorem Adds.restack (m : Machine) (st : List Expr) : m.Adds { m with stack := st } :=
  .of_eq rfl rfl rfl rfl rfl

theorem Adds.grows (h : m.Adds m') : m.Grows [] m' where
  vars := h.vars
  out := h.out
  locals k l hk := by rw [h.locals, hk]
  new_locals k v hk := .inl (by rw [← h.locals, hk])
  merges p v hp := by rw [h.merges, hp]
  new_merges p v hp := .inl (by rw [← h.merges, hp])
  shapes l shape hl := ⟨shape, by rw [h.shapes, hl], rfl⟩

theorem Grows.refl (m : Machine) : m.Grows [] m := (Adds.refl m).grows

theorem Adds.trans (h : m.Adds m') (h' : m'.Adds m'') : m.Adds m'' :=
  ⟨h.vars.trans h'.vars, (h.grows.trans h'.grows).out, h'.locals.trans h.locals,
    h'.merges.trans h.merges, h'.shapes.trans h.shapes⟩

theorem Adds.coherent (h : m.Adds m') (hm : m.Coherent) : m'.Coherent where
  locals k l hk := by
    rw [h.locals] at hk
    obtain ⟨v, rfl, hv, hwide⟩ := hm.locals k l hk
    exact ⟨v, rfl, Nat.lt_of_lt_of_le hv h.vars.size, (h.vars.wide v hv).trans hwide⟩
  locals_inj k k' v hk hk' := by
    rw [h.locals] at hk hk'
    exact hm.locals_inj k k' v hk hk'
  merges l j v hp := by
    rw [h.merges] at hp
    obtain ⟨hv, shape, t, hl, ht, hwide⟩ := hm.merges l j v hp
    exact ⟨Nat.lt_of_lt_of_le hv h.vars.size, shape, t, by rw [h.shapes, hl], ht,
      (h.vars.wide v hv).trans hwide⟩
  merges_inj p q v hp hq := by
    rw [h.merges] at hp hq
    exact hm.merges_inj p q v hp hq
  apart k p v hk := by
    rw [h.locals] at hk
    rw [h.merges]
    exact hm.apart k p v hk

theorem Entries.of_grows {es : List Expr} (h : m.Grows ls m')
    (hes : ∀ e ∈ es, e.Entry m.vars.size) : ∀ e ∈ es, e.Entry m'.vars.size :=
  fun e he => (hes e he).mono h.vars.size

end Machine

end ByteLift
