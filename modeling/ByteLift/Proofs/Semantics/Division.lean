import Mathlib.Logic.Function.Basic
import ByteLift.Proofs.Semantics.Bytecode
import ByteLift.Proofs.Semantics.Evaluate
import ByteLift.Proofs.Semantics.Replacement
import ByteLift.Proofs.Semantics.Unseen

/-!
# Dividing by zero

Division and remainder of whole numbers throw where the divisor is zero: the stack machine when it
comes to the instruction, an expression when it is evaluated. Where there is no heap, an expression
that writes nothing has a value or throws, and no exception is told from another. So all that is
said are equations between optional values.
-/

namespace ByteLift

open Interpretation Expr

variable {ρ η : Type} [DecidableEq ρ]

/-! ## The exception -/

/-- Zero, as a number that no whole number can be divided by. -/
def Value.isZero {ρ : Type} : Value ρ → Bool
  | int v => v = 0
  | long v => v = 0
  | _ => false

/-- Operators that give no whole number where the right operand is zero. -/
def ArithOp.isDivision : ArithOp → Bool
  | div | rem => true
  | _ => false

@[simp] theorem BinOp.isDivision_ofArith (op : ArithOp) :
    (ofArith op).isDivision = op.isDivision := by
  cases op <;> rfl

/-- Whether an instruction divides whole numbers of its kind by zero. -/
def Frame.dividesByZero {ρ η : Type} (f : Frame ρ η) : Instruction → Bool
  | .arith op kind =>
    match f.stack with
    | b :: a :: _ => op.isDivision && b.isZero && a.kind = kind.kind && b.kind = kind.kind
    | _ => false
  | _ => false

theorem Frame.endsFlow_of_dividesByZero {ρ : Type} {f : Frame ρ η} {i : Instruction}
    (h : f.dividesByZero i = true) : i.endsFlow = false := by
  cases i with
  | arith => rfl
  | _ => cases h

namespace World

variable (w : World ρ η) (exception : ρ)

/-- Runs the instruction at the position of a frame, where dividing by zero throws. -/
def stepThrowing (ctx : Context) (code : Code) (f : Frame ρ η) : FrameStep ρ η :=
  match code.instructions[f.pc]? with
  | some i =>
    if f.dividesByZero i.instruction then .stop (some (.thrown (.ref exception), f.memory))
    else w.exec ctx code f i.instruction
  | none => .stop none

/-- Runs code for at most `n` steps, where dividing by zero throws. -/
def runThrowing (ctx : Context) (code : Code) (n : Nat) (f : Frame ρ η) :
    Option (Option (Exit (Value ρ) × Memory ρ η)) :=
  runFor (w.stepThrowing exception ctx code) n f

/-- The code ends in a way within some number of steps, where dividing by zero throws. -/
def EndsThrowing (ctx : Context) (code : Code) (f : Frame ρ η) (r : Exit (Value ρ) × Memory ρ η) :
    Prop :=
  ∃ n, w.runThrowing exception ctx code n f = some (some r)

theorem EndsThrowing.unique {w : World ρ η} {exception : ρ} {ctx : Context} {code : Code}
    {f : Frame ρ η} {r r' : Exit (Value ρ) × Memory ρ η} (h : w.EndsThrowing exception ctx code f r)
    (h' : w.EndsThrowing exception ctx code f r') : r = r' := by
  obtain ⟨n, hn⟩ := h
  obtain ⟨n', hn'⟩ := h'
  exact Option.some.inj (runFor_unique hn hn')

/-- What an operation gives, where dividing by zero throws. Only numbers are computed with; other
operations give `null`, and an operator gives its left operand if the kinds of its operands
differ. -/
def operate (op : Expr) (operands : List (Value ρ)) : EStateM (Value ρ) Unit (Value ρ) :=
  match op, operands with
  | .lit l, [] => pure (w.literal l)
  | .unary .neg _ _, [a] => pure (w.neg a)
  | .binary op _ _ t, [a, b] =>
    if op.isDivision && (t = .int || t = .long) && b.isZero then throw (.ref exception)
    else pure ((op.arith?.bind fun op => w.arith op a b).getD a)
  | .threeWay kind _ _, [a, b] => pure ((w.threeWay kind a b).getD a)
  | .cast t _, [a] => pure (if t.isPrimitive then w.convert t a else a)
  | _, _ => pure (.ref w.null)

/-- The meaning of expressions, where dividing by zero throws. -/
def throwing : Interpretation (Value ρ) Unit where
  truth := Value.truth
  ofBool := Value.ofBool
  order := w.order
  isNaN := w.isNaN
  truth_ofBool := Value.truth_ofBool
  isNaN_of_unordered := w.isNaN_of_unordered
  operate := w.operate exception

/-- Only division fails, and it is not pure. -/
theorem calm_throwing : (w.throwing exception).Calm := by
  rintro op vs ⟨⟩ hop
  show ∃ v, w.operate exception op vs () = .ok v ()
  unfold operate
  split
  case h_3 op _ _ t _ _ =>
    have hdivides : (op.isDivision && (t = .int || t = .long)) = false := by
      simp only [isPure, Bool.and_eq_true, Bool.not_eq_true'] at hop
      exact hop.1.1
    rw [hdivides]
    exact ⟨_, rfl⟩
  all_goals exact ⟨_, rfl⟩

end World

/-! ## Values without a heap -/

namespace Interpretation

variable {ν : Type} (I : Interpretation ν Unit)

/-- The value of an expression, unless it throws. -/
def value? (vals : Var → ν) (e : Expr) : Option ν :=
  match I.eval e ⟨vals, (), []⟩ with
  | .ok v _ => some v
  | .error .. => none

/-- The values of expressions, unless one of them throws. -/
def values? (vals : Var → ν) (es : List Expr) : Option (List ν) := es.mapM (I.value? vals)

/-- What an operation gives, unless it throws. -/
def result? (op : Expr) (vs : List ν) : Option ν :=
  match I.operate op vs () with
  | .ok v _ => some v
  | .error .. => none

/-- The values of variables behind a row of assignments, unless one of them throws. -/
def assign? : List (Var × Expr) → (Var → ν) → Option (Var → ν)
  | [], vals => some vals
  | (v, e) :: row, vals => do
    let x ← I.value? vals e
    assign? row (Function.update vals v x)

variable {I} {vals vals' : Var → ν} {e : Expr} {es : List Expr} {s t : State ν Unit}

/-- Nothing counts but the variables that are read. -/
theorem alike_of_reads (e : Expr) :
    Alike (fun s t => ∀ v, .read v ∈ e.uses → s.vars v = t.vars v) (I.eval e) (I.eval e) := by
  refine alike_eval_self (Q := fun d => d.uses ⊆ e.uses) ?_ ?_ ?_ (List.Subset.refl _)
  · exact fun d c hd hc u hu => hd (uses_parts_subset hc hu)
  · exact fun v hv s t hst => hst v (hv (by simp [Expr.uses, usesAs]))
  · refine fun d _ _ vs => alike_finish (fun op ws s t hst => ?_) fun v _ x s t hst u hu => ?_
    · unfold perform
      cases I.operate op ws s.heap with
      | ok => exact .ok _ hst
      | error => exact .error _ hst
    · by_cases huv : u = v
      · simp [huv]
      · rw [State.put_of_ne x huv, State.put_of_ne x huv, hst u hu]

/-- Of the state that an expression is evaluated in, only the variables count. -/
theorem value?_eq (e : Expr) (s : State ν Unit) :
    I.value? s.vars e = match I.eval e s with | .ok v _ => some v | .error .. => none := by
  unfold value?
  have h := alike_of_reads (I := I) e (s := s) (t := ⟨s.vars, (), []⟩) fun _ _ => rfl
  rcases h.ok_or_error with ⟨v, s', t', hs, ht, _⟩ | ⟨x, s', t', hs, ht, _⟩ <;> rw [hs, ht]

theorem value?_congr (h : ∀ v, .read v ∈ e.uses → vals v = vals' v) :
    I.value? vals e = I.value? vals' e := by
  unfold value?
  have h := alike_of_reads (I := I) e (s := ⟨vals, (), []⟩) (t := ⟨vals', (), []⟩) h
  rcases h.ok_or_error with ⟨v, s', t', hs, ht, _⟩ | ⟨x, s', t', hs, ht, _⟩ <;> rw [hs, ht]

@[simp] theorem value?_var (vals : Var → ν) (v : Var) : I.value? vals (.var v) = some (vals v) := by
  simp only [value?, eval]
  rfl

/-- A pure expression has a value. -/
theorem Calm.exists_value? (hI : I.Calm) (he : e.isPure = true) (vals : Var → ν) :
    ∃ v, I.value? vals e = some v := by
  obtain ⟨v, t, hv, _⟩ := hI.eval (E := fun _ => False) he ⟨vals, (), []⟩
  exact ⟨v, by rw [value?, hv]⟩

theorem values?_congr (h : ∀ e ∈ es, ∀ v, .read v ∈ e.uses → vals v = vals' v) :
    I.values? vals es = I.values? vals' es := by
  induction es with
  | nil => rfl
  | cons e es ih =>
    rw [List.forall_mem_cons] at h
    rw [values?, values?, List.mapM_cons, List.mapM_cons, value?_congr h.1]
    exact congrArg _ (funext fun v => congrArg (· >>= _) (ih h.2))

@[simp] theorem values?_nil (vals : Var → ν) : I.values? vals [] = some [] := rfl

theorem values?_cons (vals : Var → ν) (e : Expr) (es : List Expr) :
    I.values? vals (e :: es) = (I.value? vals e).bind fun v =>
      (I.values? vals es).map (v :: ·) := by
  rw [values?, List.mapM_cons, values?]
  cases I.value? vals e <;> cases es.mapM (I.value? vals) <;> rfl

theorem values?_append (vals : Var → ν) (ds es : List Expr) :
    I.values? vals (ds ++ es) = (I.values? vals ds).bind fun us =>
      (I.values? vals es).map (us ++ ·) := by
  rw [values?, List.mapM_append, values?, values?]
  cases ds.mapM (I.value? vals) <;> cases es.mapM (I.value? vals) <;> rfl

theorem values?_eq_none : I.values? vals es = none ↔ ∃ e ∈ es, I.value? vals e = none := by
  induction es with
  | nil => simp
  | cons e es ih =>
    simp only [values?_cons, List.mem_cons, exists_eq_or_imp, ← ih]
    cases I.value? vals e <;> simp

theorem values?_cons_eq_none :
    I.values? vals (e :: es) = none ↔ I.value? vals e = none ∨ I.values? vals es = none := by
  simp only [values?_eq_none, List.mem_cons, exists_eq_or_imp]

variable {ds : List Expr}

theorem values?_append_eq_none :
    I.values? vals (ds ++ es) = none ↔ I.values? vals ds = none ∨ I.values? vals es = none := by
  simp only [values?_eq_none, List.mem_append, or_and_right, exists_or]

variable {vs : List ν}

theorem values?_cons_eq_some : I.values? vals (e :: es) = some vs ↔
      ∃ v us, I.value? vals e = some v ∧ I.values? vals es = some us ∧ vs = v :: us := by
  rw [values?_cons]
  cases I.value? vals e <;> cases I.values? vals es <;> simp [eq_comm]

theorem values?_one_eq_some :
    I.values? vals [e] = some vs ↔ ∃ v, I.value? vals e = some v ∧ vs = [v] := by
  simp [values?_cons_eq_some]

theorem values?_two_eq_some {d : Expr} :
    I.values? vals [d, e] = some vs ↔ ∃ u v, I.value? vals d = some u ∧ I.value? vals e = some v ∧
    vs = [u, v] := by
  simp only [values?_cons_eq_some (e := d), values?_one_eq_some]
  grind

theorem values?_append_eq_some : I.values? vals (ds ++ es) = some vs ↔
      ∃ us ts, I.values? vals ds = some us ∧ I.values? vals es = some ts ∧ vs = us ++ ts := by
  rw [values?_append]
  cases I.values? vals ds <;> cases I.values? vals es <;> simp [eq_comm]

theorem length_of_values? (h : I.values? vals es = some vs) : vs.length = es.length := by
  induction es generalizing vs with
  | nil =>
    cases h
    rfl
  | cons e es ih =>
    obtain ⟨v, us, _, hus, rfl⟩ := values?_cons_eq_some.1 h
    rw [List.length_cons, List.length_cons, ih hus]

/-- Expressions that write nothing are evaluated one after another to their values. -/
theorem values?_eq (hes : ∀ e ∈ es, e.isWriteFree = true) (s : State ν Unit) :
    I.values? s.vars es = match I.evalList es s with | .ok vs _ => some vs | .error .. => none := by
  induction es generalizing s with
  | nil => rfl
  | cons e es ih =>
    rw [List.forall_mem_cons] at hes
    simp only [evalList, bind, EStateM.bind]
    rw [values?_cons, value?_eq]
    cases heval : I.eval e s with
    | error x t => rfl
    | ok v t =>
      rw [← show t.vars = s.vars from vars_of_eval (I := I) hes.1 heval, Option.bind_some, ih hes.2]
      dsimp only
      cases I.evalList es t <;> rfl

/-- The value of an expression that does an operation with the values of its parts. -/
theorem value?_eq_result? (he : e.isStrict = true) (hparts : ∀ d ∈ e.parts, d.isWriteFree = true)
    (hfinish : ∀ vs, I.finish e vs = I.perform e.head vs) :
    I.value? vals e = (I.values? vals e.parts).bind (I.result? e.head) := by
  rw [value?, I.eval_eq_finish he, show I.values? vals e.parts = _ from
    values?_eq hparts ⟨vals, (), []⟩]
  simp only [bind, EStateM.bind]
  cases I.evalList e.parts ⟨vals, (), []⟩ with
  | error x t => rfl
  | ok vs t =>
    simp only [hfinish, perform, result?, Option.bind_some]
    cases I.operate e.head vs t.heap <;> rfl

/-! ## Assignments without a heap -/

theorem assign?_append (row row' : List (Var × Expr)) (vals : Var → ν) :
    I.assign? (row ++ row') vals = (I.assign? row vals).bind (I.assign? row') := by
  induction row generalizing vals with
  | nil => rfl
  | cons a row ih =>
    rw [List.cons_append, assign?, assign?]
    cases I.value? vals a.2 with
    | none => rfl
    | some x => exact ih _

theorem assign?_singleton (v : Var) (e : Expr) (vals : Var → ν) :
    I.assign? [(v, e)] vals = (I.value? vals e).map (Function.update vals v) := by
  rw [assign?]
  cases I.value? vals e <;> rfl

/-! ## What is thrown -/

/-- A computation throws no value but `x`. -/
def Throws {α : Type} (x : ν) (c : EStateM ν (State ν Unit) α) : Prop :=
  ∀ s y t, c s = .error y t → y = x

namespace Throws

variable {α β : Type} {x : ν} {c : EStateM ν (State ν Unit) α} {f : α → EStateM ν (State ν Unit) β}

theorem pure (x : ν) (a : α) : Throws x (Pure.pure a : EStateM ν (State ν Unit) α) := nofun

theorem bind (h : Throws x c) (hf : ∀ a, Throws x (f a)) : Throws x (c >>= f) := by
  intro s y t hy
  simp only [Bind.bind, EStateM.bind] at hy
  cases hc : c s with
  | ok a s' =>
    rw [hc] at hy
    exact hf a s' y t hy
  | error z s' =>
    rw [hc] at hy
    cases hy
    exact h s y t hc

theorem map (h : Throws x c) (g : α → β) : Throws x (g <$> c) := by
  rw [map_eq_pure_bind]
  exact h.bind fun _ => .pure x _

theorem evalList (hes : ∀ e ∈ es, Throws x (I.eval e)) : Throws x (I.evalList es) := by
  induction es with
  | nil =>
    simp only [Interpretation.evalList]
    exact .pure x _
  | cons e es ih =>
    rw [List.forall_mem_cons] at hes
    simp only [Interpretation.evalList]
    exact hes.1.bind fun _ => (ih hes.2).bind fun _ => .pure x _

end Throws

/-- Where all operations throw one value, nothing else is thrown. -/
theorem throws_eval {x : ν} (hI : ∀ op vs h y h', I.operate op vs h = .error y h' → y = x)
    (e : Expr) : Throws x (I.eval e) := by
  have hperform (op : Expr) (vs : List ν) : Throws x (I.perform op vs) := by
    intro s y t hy
    unfold perform at hy
    split at hy
    · cases hy
    · rename_i hop
      cases hy
      exact hI _ _ _ _ _ hop
  have hfinish (e : Expr) (vs : List ν) : Throws x (I.finish e vs) := by
    unfold finish
    split
    case h_5 => rintro s y t ⟨⟩
    case h_6 | h_7 => exact hperform _ _
    all_goals exact .pure x _
  induction e using partsInduction with
  | var v =>
    simp only [eval]
    rintro s y t ⟨⟩
  | lazy op a b t hop iha ihb =>
    rw [I.eval_lazy hop]
    refine iha.bind fun _ => ?_
    split
    · exact ihb.map _
    · exact .pure x _
  | strict e he ih =>
    rw [I.eval_eq_finish he]
    exact (Throws.evalList ih).bind (hfinish e)

end Interpretation

/-! ## Numbers -/

namespace World

variable {w : World ρ η} {exception : ρ} {vals : Var → Value ρ} {a b : Expr}

theorem operate_eq_error {op : Expr} {vs : List (Value ρ)} {h h' : Unit} {y : Value ρ}
    (herror : (w.throwing exception).operate op vs h = .error y h') : y = .ref exception := by
  have herror : w.operate exception op vs h = .error y h' := herror
  unfold operate at herror
  split at herror
  case h_3 =>
    split at herror <;> cases herror
    rfl
  all_goals cases herror

@[simp] theorem value?_lit (l : Literal) :
    (w.throwing exception).value? vals (.lit l) = some (w.literal l) := by
  cases l <;> simp only [value?, Interpretation.eval] <;> rfl

section

variable (ha : a.isWriteFree = true)
include ha

theorem value?_neg (t : Ty) :
    (w.throwing exception).value? vals (.unary .neg a t) =
      ((w.throwing exception).value? vals a).map w.neg := by
  rw [value?_eq_result? rfl (by simpa [parts, children] using ha) fun _ => rfl]
  simp only [parts, children, values?_cons, values?_nil]
  cases (w.throwing exception).value? vals a <;> rfl

theorem value?_cast (t : Ty) : (w.throwing exception).value? vals (.cast t a) =
      ((w.throwing exception).value? vals a).map fun x =>
        if t.isPrimitive then w.convert t x else x := by
  rw [value?_eq_result? rfl (by simpa [parts, children] using ha) fun _ => rfl]
  simp only [parts, children, values?_cons, values?_nil]
  cases (w.throwing exception).value? vals a <;> rfl

theorem value?_threeWay (hb : b.isWriteFree = true) (kind : ThreeWay) :
    (w.throwing exception).value? vals (.threeWay kind a b) =
      ((w.throwing exception).value? vals a).bind fun x =>
        ((w.throwing exception).value? vals b).map fun y =>
        (w.threeWay kind x y).getD x := by
  rw [value?_eq_result? rfl (by simp [parts, children, ha, hb]) fun _ => rfl]
  simp only [parts, children, values?_cons, values?_nil]
  cases (w.throwing exception).value? vals a <;> cases (w.throwing exception).value? vals b <;> rfl

/-- A division has no value where it would be of a whole number by zero. -/
theorem value?_binary (hb : b.isWriteFree = true) (op : ArithOp) (t : Ty) :
    (w.throwing exception).value? vals (.binary (.ofArith op) a b t) =
      ((w.throwing exception).value? vals a).bind fun x =>
        ((w.throwing exception).value? vals b).bind fun y =>
        if op.isDivision && (t = .int || t = .long) && y.isZero
          then none else some ((w.arith op x y).getD x) := by
  have hstrict : (binary (.ofArith op) a b t).isStrict = true := by cases op <;> rfl
  rw [value?_eq_result? hstrict (by simp [parts, children, ha, hb]) fun _ => rfl]
  simp only [parts, children, values?_cons, values?_nil]
  cases (w.throwing exception).value? vals a with
  | none => rfl
  | some x =>
    cases (w.throwing exception).value? vals b with
    | none => rfl
    | some y =>
      show (w.throwing exception).result? (.binary (.ofArith op) .this .this t) [x, y] = _
      simp only [result?, throwing, operate, BinOp.isDivision_ofArith, BinOp.arith?_ofArith,
        Option.bind_some]
      by_cases hzero : (op.isDivision && (t = .int || t = .long) && y.isZero) = true
      · rw [if_pos hzero, if_pos hzero]
        rfl
      · rw [if_neg hzero, if_neg hzero]
        rfl

end

/-- A number that is taken for a boolean has the same value. -/
@[simp] theorem value?_coerce (e : Expr) (t : Ty) :
    (w.throwing exception).value? vals (e.coerce t) = (w.throwing exception).value? vals e := by
  unfold coerce
  split
  · split
    · rename_i h
      rw [boolean, value?_lit, value?_lit, literal, literal, h]
      rfl
    · split
      · rename_i h
        rw [boolean, value?_lit, value?_lit, literal, literal, h]
        rfl
      · rfl
  · rfl

/-- The value of an increment, with whichever sign it is written. -/
theorem value?_increment {v : Var} {k : Int32} (ty : Ty) (amount : Int16) (h : vals v = .int k) :
    (w.throwing exception).value? vals (Lift.increment v ty amount) =
      some (.int (k + amount.toInt32)) := by
  have hvar : (Expr.var v).isWriteFree = true := rfl
  have hlit (j : Int32) : (Expr.int j).isWriteFree = true := rfl
  unfold Lift.increment
  split
  · rw [show BinOp.sub = .ofArith .sub from rfl, value?_binary hvar (hlit _), value?_var, h,
      Expr.int, value?_lit]
    show some (Value.int (k - -amount.toInt32)) = _
    rw [Int32.sub_eq_add_neg, Int32.neg_neg]
  · rw [show BinOp.add = .ofArith .add from rfl, value?_binary hvar (hlit _), value?_var, h,
      Expr.int, value?_lit]
    rfl

end World

end ByteLift
