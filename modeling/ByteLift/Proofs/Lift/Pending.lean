import ByteLift.Proofs.Semantics.Evaluate
import ByteLift.Proofs.Variables.Uses

/-!
# Evaluating an expression later

An expression on the stack of the lifting machine is evaluated later than the instruction that
pushed it. What it comes to depends on the variables it reads and on the memory, and it changes
nothing but the memory. A pure one does not look at the memory at all.
-/

namespace ByteLift

namespace Eval

variable {ρ η α β : Type} {V : Var → Prop} {c : Eval ρ η α} {f : α → Eval ρ η β}

/-- What a computation comes to depends on the variables in `V` and the memory, and it only changes
the memory. -/
def Stays (V : Var → Prop) (c : Eval ρ η α) : Prop :=
  ∀ (s r : Store ρ η) (a : α) (s' : Store ρ η), c s = .ok a s' → r.memory = s.memory →
    (∀ x, V x → r.vars x = s.vars x) →
    s'.vars = s.vars ∧ c r = .ok a { r with memory := s'.memory }

/-- What a computation comes to depends on the variables in `V`, and it changes nothing. -/
def Still (V : Var → Prop) (c : Eval ρ η α) : Prop :=
  ∀ (s r : Store ρ η) (a : α) (s' : Store ρ η), c s = .ok a s' →
    (∀ x, V x → r.vars x = s.vars x) → s' = s ∧ c r = .ok a r

/-- A computation changes nothing. -/
def Reads (c : Eval ρ η α) : Prop :=
  ∀ (s : Store ρ η) (a : α) (s' : Store ρ η), c s = .ok a s' → s' = s

theorem Stays.mono {V' : Var → Prop} (h : Stays V c) (hV : ∀ x, V x → V' x) : Stays V' c :=
  fun s r a s' hc hm hr => h s r a s' hc hm fun x hx => hr x (hV x hx)

theorem Stays.bind (h : Stays V c) (hf : ∀ a, Stays V (f a)) : Stays V (c >>= f) := by
  intro s r b s' hc hm hr
  obtain ⟨a, t, ha, hb⟩ := bind_eq_ok.1 hc
  obtain ⟨htv, hra⟩ := h s r a t ha hm hr
  obtain ⟨hv, hrb⟩ := hf a t { r with memory := t.memory } b s' hb rfl fun x hx => by
    rw [htv]
    exact hr x hx
  exact ⟨hv.trans htv, by rw [bind_of_ok hra, hrb]⟩

theorem Still.bind (h : Still V c) (hf : ∀ a, Still V (f a)) : Still V (c >>= f) := by
  intro s r b s' hc hr
  obtain ⟨a, t, ha, hb⟩ := bind_eq_ok.1 hc
  obtain ⟨rfl, hra⟩ := h s r a t ha hr
  obtain ⟨rfl, hrb⟩ := hf a t r b s' hb hr
  exact ⟨rfl, by rw [bind_of_ok hra, hrb]⟩

theorem Reads.bind (h : Reads c) (hf : ∀ a, Reads (f a)) : Reads (c >>= f) := by
  intro s b s' hc
  obtain ⟨a, t, ha, hb⟩ := bind_eq_ok.1 hc
  rw [hf a t b s' hb, h s a t ha]

variable (a : α) (g : η → α)

theorem Stays.pure : Stays V (pure a : Eval ρ η α) := by
  intro s r b s' hc hm _
  obtain ⟨rfl, rfl⟩ := pure_eq_ok.1 hc
  exact ⟨rfl, by rw [← hm]; rfl⟩

theorem Still.pure : Still V (pure a : Eval ρ η α) := by
  intro s r b s' hc _
  obtain ⟨rfl, rfl⟩ := pure_eq_ok.1 hc
  exact ⟨rfl, rfl⟩

theorem Reads.pure : Reads (pure a : Eval ρ η α) := by
  intro s b s' hc
  exact (pure_eq_ok.1 hc).2.symm

variable (w : World ρ η)

theorem Stays.look : Stays V (World.look g : Eval ρ η α) := by
  intro s r a s' hc hm _
  cases hc
  refine ⟨rfl, ?_⟩
  rw [← hm]
  rfl

theorem Reads.look : Reads (World.look g : Eval ρ η α) := by
  intro s a s' hc
  cases hc
  rfl

theorem Stays.perform (e : Event ρ) : Stays V (w.perform e) := by
  intro s r a s' hc hm _
  cases hc
  refine ⟨rfl, ?_⟩
  rw [← hm]
  rfl

end Eval

/-! ## Expressions -/

namespace Expr

mutual

/-- Whether an expression has a value and assigns to nothing. -/
def isPlain : Expr → Bool
  | lit _ | var _ | staticField _ => true
  | field e _ | arrayLength e | unary _ e _ | cast _ e | instanceOf e _ | paren e => e.isPlain
  | arrayElement a b _ | binary _ a b _ | compare _ a b | threeWay _ a b => a.isPlain && b.isPlain
  | call _ r _ args => r.isPlain && isPlainList args
  | staticCall _ _ args | newArray _ args => isPlainList args
  | this | super | outerThis _ | alloc _ | construct .. | new .. | assign .. => false

def isPlainList : List Expr → Bool
  | [] => true
  | e :: es => e.isPlain && isPlainList es

end

theorem isPlainList_iff {es : List Expr} : isPlainList es = true ↔ ∀ e ∈ es, e.isPlain = true := by
  induction es with
  | nil => simp [isPlainList]
  | cons e es ih => simp [isPlainList, ih]

variable {d e : Expr}

theorem isPlain_of_mem_children (he : e.isPlain = true) (hd : d ∈ e.children) :
    d.isPlain = true := by
  cases e <;> simp_all [isPlain, children, isPlainList_iff] <;> grind

theorem isAssign_of_isPlain (he : e.isPlain = true) : e.isAssign = false := by
  cases e with
  | assign => cases he
  | _ => rfl

/-- What is done to variables in a part of a plain expression is done in the expression. -/
theorem usesAs_of_mem_children (he : e.isPlain = true) (hd : d ∈ e.children) :
    d.usesAs false ⊆ e.usesAs false := by
  by_cases hvar : ∃ v, e = var v
  · obtain ⟨v, rfl⟩ := hvar
    cases hd
  · rw [usesAs_eq_children (fun v hv => hvar ⟨v, hv⟩) (.inl (isAssign_of_isPlain he))]
    exact fun u hu => List.mem_flatMap.2 ⟨d, hd, hu⟩

end Expr

namespace World

open Expr Eval

variable {ρ η : Type} [DecidableEq ρ] (w : World ρ η)

/-- Operators other than `&&` and `||` evaluate both operands. -/
theorem eval_binary {op : BinOp} {aop : ArithOp} (h : op.arith? = some aop) (a b : Expr) (t : Ty) :
    w.eval (.binary op a b t) = w.eval a >>= fun v => w.eval b >>= fun v' =>
      w.give (w.arith aop v v') := by
  cases op <;> cases h <;> simp only [eval, BinOp.arith?, Option.bind_some]

theorem eval_var (v : Var) (s : Store ρ η) : w.eval (.var v) s = .ok (s.vars v) s := by
  simp only [eval]
  rfl

/-- What is true of computations of some kind: it is kept by sequencing, and true of what the
evaluation of the expressions in `D` is made of. -/
structure Keeps (D : Expr → Prop) (Q : (α : Type) → Eval ρ η α → Prop) : Prop where
  pure : ∀ {α : Type} (a : α), Q α (pure a)
  bind : ∀ {α β : Type} {c : Eval ρ η α} {f : α → Eval ρ η β}, Q α c →
    (∀ a, Q β (f a)) → Q β (c >>= f)
  throw : ∀ x, Q (Value ρ) (throw x)
  plain : ∀ e, D e → e.isPlain = true
  children : ∀ e, D e → ∀ d ∈ e.children, D d
  var : ∀ v, D (.var v) → Q _ (w.eval (.var v))
  look : ∀ {α : Type} e, D e → e.isPure = false → ∀ g : η → α, Q α (World.look g)
  perform : ∀ e, D e → e.isPure = false → e.isEffect = true → ∀ x, Q _ (w.perform x)

namespace Keeps

variable {w} {D : Expr → Prop} {Q : (α : Type) → Eval ρ η α → Prop} (h : w.Keeps D Q)
include h

theorem give (v : Option (Value ρ)) : Q _ (w.give v) := by
  cases v with
  | some v => exact h.pure v
  | none => exact h.throw _

theorem evalList_of {es : List Expr} (hes : ∀ e ∈ es, Q _ (w.eval e)) : Q _ (w.evalList es) := by
  induction es with
  | nil =>
    simp only [World.evalList]
    exact h.pure _
  | cons e es ih =>
    rw [List.forall_mem_cons] at hes
    simp only [World.evalList]
    exact h.bind hes.1 fun _ => h.bind (ih hes.2) fun _ => h.pure _

theorem eval (e : Expr) : D e → Q _ (w.eval e) := by
  induction e using childrenInduction with
  | step e ih =>
  intro hD
  have hparts : ∀ d ∈ e.children, Q _ (w.eval d) := fun d hd => ih d hd (h.children e hD d hd)
  cases e with
  | lit l =>
    simp only [World.eval]
    exact h.pure _
  | var v => exact h.var v hD
  | staticField f =>
    simp only [World.eval]
    exact h.look _ hD rfl _
  | field e _ | arrayLength e | cast _ e | instanceOf e _ =>
    simp only [Expr.children, List.forall_mem_singleton] at hparts
    simp only [World.eval, map_eq_pure_bind]
    refine h.bind hparts fun _ => ?_
    first | exact h.pure _ | exact h.look _ hD rfl _
  | unary op e t =>
    simp only [Expr.children, List.forall_mem_singleton] at hparts
    cases op <;> simp only [World.eval, map_eq_pure_bind] <;> exact h.bind hparts fun _ => h.pure _
  | paren e =>
    simp only [World.eval]
    exact hparts e List.mem_cons_self
  | arrayElement a b _ | compare _ a b | threeWay _ a b =>
    simp only [Expr.children, List.forall_mem_cons] at hparts
    simp only [World.eval]
    refine h.bind hparts.1 fun _ => h.bind hparts.2.1 fun _ => ?_
    first | exact h.pure _ | exact h.give _ | exact h.look _ hD rfl _
  | binary op a b t =>
    simp only [Expr.children, List.forall_mem_cons] at hparts
    cases hop : op.arith? with
    | some aop =>
      rw [w.eval_binary hop]
      exact h.bind hparts.1 fun _ => h.bind hparts.2.1 fun _ => h.give _
    | none =>
      have hsecond (g : Value ρ → Value ρ) : Q _ (g <$> w.eval b) := by
        rw [map_eq_pure_bind]
        exact h.bind hparts.2.1 fun _ => h.pure _
      cases op <;> cases hop <;> simp only [World.eval] <;>
        refine h.bind hparts.1 fun v => ?_ <;> split
      · exact hsecond _
      · exact h.pure _
      · exact h.pure _
      · exact hsecond _
  | call kind r m args =>
    simp only [Expr.children, List.forall_mem_cons] at hparts
    simp only [World.eval]
    exact h.bind hparts.1 fun _ => h.bind (h.evalList_of hparts.2) fun _ => h.perform _ hD rfl rfl _
  | staticCall kind m args =>
    simp only [World.eval]
    exact h.bind (h.evalList_of hparts) fun _ => h.perform _ hD rfl rfl _
  | newArray t dims =>
    simp only [World.eval]
    exact h.bind (h.evalList_of hparts) fun _ => h.look _ hD rfl _
  | _ => cases h.plain _ hD

end Keeps

variable (V : Var → Prop) (e : Expr)

/-- Evaluating plain expressions depends on the variables they read and the memory, and only changes
the memory. -/
theorem keeps_stays :
    w.Keeps (fun e => e.isPlain = true ∧ ∀ x, .read x ∈ e.usesAs false → V x) fun _ => Stays V where
  pure := .pure
  bind := .bind
  throw _ _ _ _ _ hc := by cases hc
  plain _ h := h.1
  children e h d hd :=
    ⟨isPlain_of_mem_children h.1 hd, fun x hx => h.2 x (usesAs_of_mem_children h.1 hd hx)⟩
  var v h := by
    intro s r a s' hc hm hr
    rw [eval_var] at hc ⊢
    cases hc
    rw [hr v (h.2 v (by simp [usesAs])), ← hm]
    exact ⟨rfl, rfl⟩
  look _ _ _ := .look
  perform _ _ _ _ := .perform w

/-- Evaluating pure expressions depends on the variables they read, and changes nothing. -/
theorem keeps_still : w.Keeps
    (fun e => e.isPlain = true ∧ e.isPure = true ∧ ∀ x,
      .read x ∈ e.usesAs false → V x) fun _ => Still V where
  pure := .pure
  bind := .bind
  throw _ _ _ _ _ hc := by cases hc
  plain _ h := h.1
  children e h d hd := ⟨isPlain_of_mem_children h.1 hd, isPure_of_mem_children h.2.1 hd,
    fun x hx => h.2.2 x (usesAs_of_mem_children h.1 hd hx)⟩
  var v h := by
    intro s r a s' hc hr
    rw [eval_var] at hc ⊢
    cases hc
    rw [hr v (h.2.2 v (by simp [usesAs]))]
    exact ⟨rfl, rfl⟩
  look _ h hp := by simp [h.2.1] at hp
  perform _ h hp := by simp [h.2.1] at hp

/-- Evaluating expressions without calls changes nothing. -/
theorem keeps_reads :
    w.Keeps (fun e => e.isPlain = true ∧ e.subexprs.any isEffect = false) fun _ => Reads where
  pure := .pure
  bind := .bind
  throw _ _ _ _ hc := by cases hc
  plain _ h := h.1
  children e h d hd := by
    refine ⟨isPlain_of_mem_children h.1 hd, ?_⟩
    have heffect := h.2
    rw [subexprs_eq, List.any_cons, List.any_flatMap, Bool.or_eq_false_iff,
      List.any_eq_false] at heffect
    simpa using heffect.2 d hd
  var v _ := by
    intro s a s' hc
    simp only [eval] at hc
    cases hc
    rfl
  look _ _ _ := .look
  perform e h _ he := by
    have heffect := h.2
    rw [subexprs_eq, List.any_cons, he] at heffect
    cases heffect

theorem stays_eval (h : e.isPlain = true) : Stays (fun x => .read x ∈ e.usesAs false) (w.eval e) :=
  (w.keeps_stays _).eval e ⟨h, fun _ => id⟩

theorem stays_evalList (es : List Expr) (h : isPlainList es = true) :
    Stays (fun x => .read x ∈ usesList es) (w.evalList es) :=
  (w.keeps_stays _).evalList_of fun e he =>
    (w.keeps_stays _).eval e ⟨isPlainList_iff.1 h e he, fun _ hx => mem_usesList.2 ⟨e, he, hx⟩⟩

theorem still_eval (h : e.isPlain = true) (hp : e.isPure = true) :
    Still (fun x => .read x ∈ e.usesAs false) (w.eval e) :=
  (w.keeps_still _).eval e ⟨h, hp, fun _ => id⟩

theorem reads_eval (h : e.isPlain = true) (he : e.subexprs.any isEffect = false) :
    Reads (w.eval e) :=
  w.keeps_reads.eval e ⟨h, he⟩

end World

/-! ## Coercions -/

namespace Expr

variable (e : Expr) (t : Ty)

theorem coerce_cases :
    e.coerce t = e ∨ ∃ b : Bool, e = lit (.int (if b then 1 else 0)) ∧ e.coerce t = boolean b := by
  unfold coerce
  split
  · split
    · exact .inr ⟨false, by simp_all, rfl⟩
    · split
      · exact .inr ⟨true, by simp_all, rfl⟩
      · exact .inl rfl
  · exact .inl rfl

@[simp] theorem usesAs_coerce : (e.coerce t).usesAs false = e.usesAs false := by
  rcases e.coerce_cases t with h | ⟨b, rfl, h⟩ <;> rw [h]
  simp [boolean, usesAs]

@[simp] theorem isPlain_coerce : (e.coerce t).isPlain = e.isPlain := by
  rcases e.coerce_cases t with h | ⟨b, rfl, h⟩ <;> rw [h]
  simp [boolean, isPlain]

theorem isPure_of_isSimple {e : Expr} (h : e.isSimple = true) : e.isPure = true := by
  cases e <;> first | rfl | cases h

@[simp] theorem isPure_coerce : (e.coerce t).isPure = e.isPure := by
  rcases e.coerce_cases t with h | ⟨b, rfl, h⟩ <;> rw [h]
  rfl

end Expr

/-! ## Stacks -/

namespace World

open Expr Eval

variable {ρ η : Type} [DecidableEq ρ] (w : World ρ η)

/-- A number that is taken for a boolean has the same value. -/
@[simp] theorem eval_coerce (e : Expr) (t : Ty) : w.eval (e.coerce t) = w.eval e := by
  rcases e.coerce_cases t with h | ⟨b, rfl, h⟩ <;> rw [h]
  cases b <;> simp only [boolean, eval] <;> rfl

/-- Evaluates the entries of a stack from the bottom up. -/
def evalStack : List Expr → Eval ρ η (List (Value ρ))
  | [] => pure []
  | e :: below => do
    let vs ← evalStack below
    let v ← w.eval e
    pure (v :: vs)

/-- The variables that the entries of a stack read. -/
def ReadBy (es : List Expr) (x : Var) : Prop := ∃ e ∈ es, .read x ∈ e.usesAs false

variable {es : List Expr} {e : Expr}

theorem Keeps.evalStack {D : Expr → Prop} {Q : (α : Type) → Eval ρ η α → Prop} (h : w.Keeps D Q)
    (hes : ∀ e ∈ es, D e) : Q _ (w.evalStack es) := by
  induction es with
  | nil => exact h.pure _
  | cons e es ih =>
    rw [List.forall_mem_cons] at hes
    exact h.bind (ih hes.2) fun _ => h.bind (h.eval e hes.1) fun _ => h.pure _

theorem stays_evalStack (h : ∀ e ∈ es, e.isPlain = true) : Stays (ReadBy es) (w.evalStack es) :=
  Keeps.evalStack w (w.keeps_stays _) fun e he => ⟨h e he, fun _ hx => ⟨e, he, hx⟩⟩

theorem still_evalStack (h : ∀ e ∈ es, e.isPlain = true) (hp : ∀ e ∈ es, e.isPure = true) :
    Still (ReadBy es) (w.evalStack es) :=
  Keeps.evalStack w (w.keeps_still _) fun e he => ⟨h e he, hp e he, fun _ hx => ⟨e, he, hx⟩⟩

variable {w} {s s' : Store ρ η} {vs : List (Value ρ)}

@[simp] theorem evalStack_nil_eq_ok : w.evalStack [] s = .ok vs s' ↔ vs = [] ∧ s' = s := by
  rw [evalStack, pure_eq_ok, eq_comm, @eq_comm _ s]

theorem evalStack_cons_eq_ok : w.evalStack (e :: es) s = .ok vs s' ↔
      ∃ us v t, w.evalStack es s = .ok us t ∧ w.eval e t = .ok v s' ∧ vs = v :: us := by
  rw [evalStack, bind_eq_ok]
  constructor
  · rintro ⟨us, t, hus, h⟩
    obtain ⟨v, u, hv, h⟩ := bind_eq_ok.1 h
    obtain ⟨rfl, rfl⟩ := pure_eq_ok.1 h
    exact ⟨us, v, t, hus, hv, rfl⟩
  · rintro ⟨us, v, t, hus, hv, rfl⟩
    exact ⟨us, t, hus, bind_eq_ok.2 ⟨v, s', hv, rfl⟩⟩

/-- The lower part of a stack is evaluated first. -/
theorem evalStack_append_eq_ok {top : List Expr} : w.evalStack (top ++ es) s = .ok vs s' ↔
      ∃ us ts t, w.evalStack es s = .ok us t ∧ w.evalStack top t = .ok ts s' ∧ vs = ts ++ us := by
  induction top generalizing vs s' with
  | nil =>
    constructor
    · intro h
      exact ⟨vs, [], s', h, rfl, rfl⟩
    · rintro ⟨us, ts, t, hus, hts, rfl⟩
      obtain ⟨rfl, rfl⟩ := evalStack_nil_eq_ok.1 hts
      exact hus
  | cons e top ih =>
    simp only [List.cons_append, evalStack_cons_eq_ok, ih]
    constructor
    · rintro ⟨_, v, t, ⟨us, ts, r, hus, hts, rfl⟩, hv, rfl⟩
      exact ⟨us, v :: ts, r, hus, ⟨ts, v, t, hts, hv, rfl⟩, rfl⟩
    · rintro ⟨us, _, r, hus, ⟨ts, v, t, hts, hv, rfl⟩, rfl⟩
      exact ⟨ts ++ us, v, t, ⟨us, ts, r, hus, hts, rfl⟩, hv, rfl⟩

theorem length_of_evalStack (h : w.evalStack es s = .ok vs s') : vs.length = es.length := by
  induction es generalizing vs s' with
  | nil =>
    rw [(evalStack_nil_eq_ok.1 h).1]
    rfl
  | cons e es ih =>
    obtain ⟨us, v, t, hus, _, rfl⟩ := evalStack_cons_eq_ok.1 h
    rw [List.length_cons, ih hus, List.length_cons]

theorem evalList_cons_eq_ok : w.evalList (e :: es) s = .ok vs s' ↔
      ∃ v us t, w.eval e s = .ok v t ∧ w.evalList es t = .ok us s' ∧ vs = v :: us := by
  rw [evalList, bind_eq_ok]
  constructor
  · rintro ⟨v, t, hv, h⟩
    obtain ⟨us, u, hus, h⟩ := bind_eq_ok.1 h
    obtain ⟨rfl, rfl⟩ := pure_eq_ok.1 h
    exact ⟨v, us, t, hv, hus, rfl⟩
  · rintro ⟨v, us, t, hv, hus, rfl⟩
    exact ⟨v, t, hv, bind_eq_ok.2 ⟨us, s', hus, rfl⟩⟩

theorem evalList_append {as bs : List Expr} {us ts : List (Value ρ)} {t : Store ρ η}
    (has : w.evalList as s = .ok us t) (hbs : w.evalList bs t = .ok ts s') :
    w.evalList (as ++ bs) s = .ok (us ++ ts) s' := by
  induction as generalizing us s with
  | nil =>
    rw [evalList] at has
    obtain ⟨rfl, rfl⟩ := pure_eq_ok.1 has
    exact hbs
  | cons e as ih =>
    obtain ⟨v, us, r, hv, hus, rfl⟩ := evalList_cons_eq_ok.1 has
    exact evalList_cons_eq_ok.2 ⟨v, us ++ ts, r, hv, ih hus, rfl⟩

/-- Arguments are evaluated in the order in which they were pushed. -/
theorem evalList_reverse_eq_ok (h : w.evalStack es s = .ok vs s') :
    w.evalList es.reverse s = .ok vs.reverse s' := by
  induction es generalizing vs s' with
  | nil =>
    obtain ⟨rfl, rfl⟩ := evalStack_nil_eq_ok.1 h
    rw [List.reverse_nil, evalList]
    rfl
  | cons e es ih =>
    obtain ⟨us, v, t, hus, hv, rfl⟩ := evalStack_cons_eq_ok.1 h
    rw [List.reverse_cons, List.reverse_cons]
    refine evalList_append (ih hus) (evalList_cons_eq_ok.2 ⟨v, [], s', hv, ?_, rfl⟩)
    rw [evalList]
    rfl

end World

end ByteLift
