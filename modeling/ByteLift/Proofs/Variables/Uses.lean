import ByteLift.Stmt.Uses

/-!
# Variables in expressions and blocks

What a block mentions is what its first statement mentions itself, what the blocks of that statement
mention and what the statements behind it do. A variable is *written as a whole* if no expression
writes it in passing: the write is the whole statement, an assignment or a declaration with a value.
-/

namespace ByteLift

open List

/-- The variable that something is done to. -/
def Use.var : Use → Var
  | read v | write v => v

theorem Use.forall_var_ne {us : List Use} {v : Var} :
    (∀ u ∈ us, u.var ≠ v) ↔ .read v ∉ us ∧ .write v ∉ us := by
  constructor
  · exact fun h => ⟨fun hv => h _ hv rfl, fun hv => h _ hv rfl⟩
  · rintro ⟨hread, hwrite⟩ u hu rfl
    cases u with
    | read v => exact hread hu
    | write v => exact hwrite hu

namespace Expr

/-! ## Expressions -/

/-- Whether no variable is written anywhere in an expression. -/
def isWriteFree (e : Expr) : Bool :=
  e.uses.all fun
    | .read _ => true
    | .write _ => false

variable {e : Expr}

theorem isWriteFree_iff : e.isWriteFree = true ↔ ∀ v, .write v ∉ e.usesAs false := by
  simp only [isWriteFree, all_eq_true, uses]
  constructor
  · intro h v hv
    cases h _ hv
  · intro h u hu
    cases u with
    | read v => rfl
    | write v => exact absurd hu (h v)

theorem isWriteFree_of_subset {a b : Expr} (h : a.uses ⊆ b.uses) (hb : b.isWriteFree = true) :
    a.isWriteFree = true :=
  isWriteFree_iff.2 fun v hv => isWriteFree_iff.1 hb v (h hv)

variable {v : Var} {d : Expr}

theorem mentions_eq_false_iff : e.mentions v = false ↔ ∀ u ∈ e.uses, u.var ≠ v := by
  simp only [mentions, Bool.or_eq_false_iff, contains_eq_mem, decide_eq_false_iff_not,
    Use.forall_var_ne]

theorem mentions_iff : e.mentions v = true ↔ ∃ u ∈ e.uses, u.var = v := by
  have h := mentions_eq_false_iff (e := e) (v := v)
  grind

theorem usesList_eq_flatMap (es : List Expr) : usesList es = es.flatMap uses := by
  induction es with
  | nil => rfl
  | cons e es ih => rw [usesList, ih, flatMap_cons, uses]

theorem mem_usesList {u : Use} {es : List Expr} :
    u ∈ usesList es ↔ ∃ e ∈ es, u ∈ e.usesAs false := by
  rw [usesList_eq_flatMap, mem_flatMap]
  rfl

/-! ## Parts of expressions -/

theorem sizeOf_lt_of_mem_children (h : d ∈ e.children) : sizeOf d < sizeOf e := by
  cases e with
  | lit | var | this | super | outerThis | staticField | alloc => cases h
  | field | arrayLength | paren | unary | cast | instanceOf =>
    rw [mem_singleton.1 h]
    simp only [field.sizeOf_spec, arrayLength.sizeOf_spec, paren.sizeOf_spec, unary.sizeOf_spec,
      cast.sizeOf_spec, instanceOf.sizeOf_spec]
    omega
  | arrayElement | binary | compare | threeWay | assign =>
    simp only [arrayElement.sizeOf_spec, binary.sizeOf_spec, compare.sizeOf_spec,
      threeWay.sizeOf_spec, assign.sizeOf_spec]
    rcases mem_cons.1 h with rfl | h
    · omega
    · rw [mem_singleton.1 h]
      omega
  | call _ r _ args | construct r _ args =>
    simp only [call.sizeOf_spec, construct.sizeOf_spec]
    rcases mem_cons.1 h with rfl | h
    · omega
    · have := sizeOf_lt_of_mem h
      omega
  | staticCall _ _ args | new _ args | newArray _ args =>
    have := sizeOf_lt_of_mem (show d ∈ args from h)
    simp only [staticCall.sizeOf_spec, new.sizeOf_spec, newArray.sizeOf_spec]
    omega

/-- What holds of an expression if it holds of the parts that it is made of holds of every
expression. -/
theorem childrenInduction {P : Expr → Prop} (step : ∀ e, (∀ d ∈ e.children, P d) → P e)
    (e : Expr) : P e :=
  step e fun d hd =>
    have := sizeOf_lt_of_mem_children hd
    childrenInduction step d
termination_by sizeOf e

theorem subexprsList_eq_flatMap (es : List Expr) : subexprsList es = es.flatMap subexprs := by
  induction es with
  | nil => rfl
  | cons e es ih => rw [subexprsList, ih, flatMap_cons]

theorem subexprs_eq (e : Expr) : e.subexprs = e :: e.children.flatMap subexprs := by
  cases e <;> simp [subexprs, children, subexprsList_eq_flatMap]

/-- Assignments. -/
def isAssign : Expr → Bool
  | assign .. => true
  | _ => false

theorem isPure_of_mem_children (he : e.isPure = true) (hd : d ∈ e.children) : d.isPure = true := by
  cases e with
  | paren | unary | instanceOf | cast | binary | compare | threeWay =>
    simp only [isPure, Bool.and_eq_true] at he
    simp only [children, mem_cons, not_mem_nil, or_false] at hd
    grind
  | lit | var | this | super | outerThis => cases hd
  | _ => cases he

/-- What an expression that is no variable does to variables is what its parts do, but for the
variable that it assigns. -/
theorem usesAs_eq_children {target : Bool} (hvar : ∀ v, e ≠ var v)
    (h : e.isAssign = false ∨ target = true) : e.usesAs target = e.children.flatMap uses := by
  cases e with
  | var v => exact absurd rfl (hvar v)
  | _ => simp_all [usesAs, children, isAssign, uses, usesList_eq_flatMap]

end Expr

/-! ## Blocks -/

@[simp] theorem Stmt.blocks_ite (c : Expr) (a b : Block) : (ite c a b).blocks = [a, b] := rfl

@[simp] theorem Stmt.blocks_loop (l : Option Label) (c : Expr) (a : Block) :
    (loop l c a).blocks = [a] := rfl

@[simp] theorem Stmt.blocks_block (a : Block) : (block a).blocks = [a] := rfl

@[simp] theorem Stmt.blocks_expr (e : Expr) : (expr e).blocks = [] := rfl

@[simp] theorem Stmt.blocks_declare (v : Var) (init : Option Expr) :
    (declare v init).blocks = [] := rfl

/-- Whether a statement assigns variables only as a whole: by being an assignment, or a declaration
with a value. -/
def Stmt.writesWhole : Stmt → Bool
  | expr (.assign (.var _) e) => e.isWriteFree
  | x => x.exprs.all Expr.isWriteFree

/-- Whether variables are assigned only by whole statements of a block, at any depth. -/
def Block.writesWhole (b : Block) : Bool := b.stmts.all Stmt.writesWhole

theorem Stmt.writesWhole_cases {x : Stmt} (h : x.writesWhole = true) :
    (∃ v e, x = .set v e ∧ e.isWriteFree = true) ∨ ∀ e ∈ x.exprs, e.isWriteFree = true := by
  unfold writesWhole at h
  split at h
  · exact .inl ⟨_, _, rfl, h⟩
  · exact .inr (all_eq_true.1 h)

variable {s : Stmt}

/-- Expressions that write no variable can stand in any statement. -/
theorem Stmt.writesWhole_of_exprs (h : ∀ e ∈ s.exprs, e.isWriteFree = true) :
    s.writesWhole = true := by
  unfold writesWhole
  split
  · exact Expr.isWriteFree_of_subset (fun u hu => mem_append_right _ hu)
      (h _ mem_cons_self)
  · exact all_eq_true.2 h

variable {e : Expr} {u : Use}

theorem Stmt.writesWhole_expr (h : e.isWriteFree = true) : (Stmt.expr e).writesWhole = true :=
  writesWhole_of_exprs (by simpa [exprs] using h)

namespace Block

section

variable {P : Block → Prop}

mutual

theorem forall_blocks (nil : P []) (cons : ∀ s ss, (∀ a ∈ s.blocks, P a) → P ss → P (s :: ss)) :
    ∀ (s : Stmt), ∀ a ∈ s.blocks, P a
  | .ite _ a b => by simpa using ⟨nestedInduction nil cons a, nestedInduction nil cons b⟩
  | .loop _ _ a | .block a => by simpa using nestedInduction nil cons a
  | .expr _ | .declare .. | .breakLoop _ | .continueLoop _ | .ret _ | .throw _ | .label _
  | .goto .. => by
    simp [Stmt.blocks]

/-- What holds of a block if it holds of the blocks of its first statement and of the statements
behind that one holds of every block. -/
theorem nestedInduction (nil : P []) (cons : ∀ s ss, (∀ a ∈ s.blocks, P a) → P ss → P (s :: ss)) :
    ∀ b : Block, P b
  | [] => nil
  | s :: ss => cons s ss (forall_blocks nil cons s) (nestedInduction nil cons ss)

end

end

variable {ss a b : Block}

theorem stmts_cons (s : Stmt) (ss : Block) :
    stmts (s :: ss) = s :: (s.blocks.flatMap stmts ++ ss.stmts) := by
  cases s <;> simp [stmts, Stmt.nestedList, Stmt.nested, Stmt.blocks]

@[simp] theorem stmts_append (a b : Block) : stmts (a ++ b) = a.stmts ++ b.stmts := by
  induction a with
  | nil => rfl
  | cons s ss ih => simp [stmts_cons, ih]

@[simp] theorem uses_nil : Block.uses [] = [] := rfl

theorem uses_cons (s : Stmt) (ss : Block) :
    Block.uses (s :: ss) = s.ownUses ++ (s.blocks.flatMap Block.uses ++ ss.uses) := by
  simp only [Block.uses, stmts_cons, flatMap_cons, flatMap_append, flatMap_assoc]
  rfl

@[simp] theorem uses_append (a b : Block) : Block.uses (a ++ b) = a.uses ++ b.uses := by
  simp [Block.uses]

@[simp] theorem uses_ite (c : Expr) (a b ss : Block) :
    Block.uses (.ite c a b :: ss) = c.uses ++ (a.uses ++ (b.uses ++ ss.uses)) := by
  simp [uses_cons, Stmt.ownUses, Stmt.exprs]

@[simp] theorem uses_loop (l : Option Label) (c : Expr) (a ss : Block) :
    Block.uses (.loop l c a :: ss) = c.uses ++ (a.uses ++ ss.uses) := by
  simp [uses_cons, Stmt.ownUses, Stmt.exprs]

@[simp] theorem uses_block (a ss : Block) : Block.uses (.block a :: ss) = a.uses ++ ss.uses := by
  simp [uses_cons, Stmt.ownUses, Stmt.exprs]

@[simp] theorem uses_expr (e : Expr) (ss : Block) :
    Block.uses (.expr e :: ss) = e.uses ++ ss.uses := by
  simp [uses_cons, Stmt.ownUses, Stmt.exprs]

@[simp] theorem uses_breakLoop (l : Option Label) (ss : Block) :
    Block.uses (.breakLoop l :: ss) = ss.uses := rfl

@[simp] theorem uses_continueLoop (l : Option Label) (ss : Block) :
    Block.uses (.continueLoop l :: ss) = ss.uses := rfl

@[simp] theorem declared_nil : declared [] = [] := rfl

theorem declared_cons (s : Stmt) (ss : Block) :
    declared (s :: ss) = s.declared?.toList ++ (s.blocks.flatMap declared ++ ss.declared) := by
  simp only [declared, stmts_cons, filterMap_cons, filterMap_append,
    filterMap_flatMap]
  cases s.declared? <;> rfl

@[simp] theorem declared_append (a b : Block) : declared (a ++ b) = a.declared ++ b.declared := by
  simp [declared]

@[simp] theorem declared_ite (c : Expr) (a b ss : Block) :
    declared (.ite c a b :: ss) = a.declared ++ (b.declared ++ ss.declared) := by
  simp [declared_cons, Stmt.declared?]

@[simp] theorem declared_loop (l : Option Label) (c : Expr) (a ss : Block) :
    declared (.loop l c a :: ss) = a.declared ++ ss.declared := by
  simp [declared_cons, Stmt.declared?]

@[simp] theorem declared_block (a ss : Block) :
    declared (.block a :: ss) = a.declared ++ ss.declared := by
  simp [declared_cons, Stmt.declared?]

@[simp] theorem declared_declare (v : Var) (init : Option Expr) (ss : Block) :
    declared (.declare v init :: ss) = v :: ss.declared := rfl

@[simp] theorem declared_expr (e : Expr) (ss : Block) :
    declared (.expr e :: ss) = ss.declared := rfl

@[simp] theorem declared_breakLoop (l : Option Label) (ss : Block) :
    declared (.breakLoop l :: ss) = ss.declared := rfl

@[simp] theorem declared_continueLoop (l : Option Label) (ss : Block) :
    declared (.continueLoop l :: ss) = ss.declared := rfl

@[simp] theorem writesWhole_nil : writesWhole [] = true := rfl

theorem writesWhole_cons : writesWhole (s :: ss) = true ↔
    s.writesWhole = true ∧ (∀ a ∈ s.blocks, writesWhole a = true) ∧ ss.writesWhole = true := by
  simp [writesWhole, stmts_cons, all_flatMap]

variable {c : Expr}

@[simp] theorem writesWhole_ite : writesWhole (.ite c a b :: ss) = true ↔
    c.isWriteFree = true ∧ a.writesWhole = true ∧ b.writesWhole = true ∧ ss.writesWhole = true := by
  simp [writesWhole_cons, Stmt.writesWhole, Stmt.exprs, and_assoc]

variable {l : Option Label} {v : Var}

@[simp] theorem writesWhole_loop : writesWhole (.loop l c a :: ss) = true ↔
    c.isWriteFree = true ∧ a.writesWhole = true ∧ ss.writesWhole = true := by
  simp [writesWhole_cons, Stmt.writesWhole, Stmt.exprs]

@[simp] theorem writesWhole_block :
    writesWhole (.block a :: ss) = true ↔ a.writesWhole = true ∧ ss.writesWhole = true := by
  simp [writesWhole_cons, Stmt.writesWhole, Stmt.exprs]

@[simp] theorem writesWhole_set {e : Expr} :
    writesWhole (.set v e :: ss) = true ↔ e.isWriteFree = true ∧ ss.writesWhole = true := by
  simp [writesWhole_cons, Stmt.set, Stmt.writesWhole]

/-- A block with a place in it for another: the statements behind its first one, or a block of that
one. -/
inductive Hole : (Block → Block) → Prop
  | tail (s : Stmt) : Hole (s :: ·)
  | thenArm (c : Expr) (b ss : Block) : Hole fun a => .ite c a b :: ss
  | elseArm (c : Expr) (a ss : Block) : Hole fun b => .ite c a b :: ss
  | body (l : Option Label) (c : Expr) (ss : Block) : Hole fun a => .loop l c a :: ss
  | inner (ss : Block) : Hole fun a => .block a :: ss

namespace Hole

variable {K : Block → Block}

theorem uses (hK : Hole K) : ∃ us vs, ∀ b, Block.uses (K b) = us ++ (b.uses ++ vs) := by
  cases hK with
  | tail s => exact ⟨s.ownUses ++ s.blocks.flatMap Block.uses, [], fun b => by simp [uses_cons]⟩
  | thenArm c b ss => exact ⟨c.uses, b.uses ++ ss.uses, fun a => by simp⟩
  | elseArm c a ss => exact ⟨c.uses ++ a.uses, ss.uses, fun b => by simp⟩
  | body l c ss => exact ⟨c.uses, ss.uses, fun a => by simp⟩
  | inner ss => exact ⟨[], ss.uses, fun a => by simp⟩

theorem count_uses (hK : Hole K) :
    ∃ k : Use → Nat, ∀ b u, (Block.uses (K b)).count u = k u + b.uses.count u := by
  obtain ⟨us, vs, h⟩ := hK.uses
  refine ⟨fun u => us.count u + vs.count u, fun b u => ?_⟩
  simp only [h, count_append]
  omega

theorem declared (hK : Hole K) : ∃ us vs, ∀ b, declared (K b) = us ++ (b.declared ++ vs) := by
  cases hK with
  | tail s =>
    exact ⟨s.declared?.toList ++ s.blocks.flatMap declared, [], fun b => by simp [declared_cons]⟩
  | thenArm c b ss => exact ⟨[], b.declared ++ ss.declared, fun a => by simp⟩
  | elseArm c a ss => exact ⟨a.declared, ss.declared, fun b => by simp⟩
  | body l c ss => exact ⟨[], ss.declared, fun a => by simp⟩
  | inner ss => exact ⟨[], ss.declared, fun a => by simp⟩

end Hole

theorem mentions_eq_false_iff :
    b.mentions v = false ↔ (∀ u ∈ b.uses, u.var ≠ v) ∧ v ∉ b.declared := by
  simp only [mentions, Bool.or_eq_false_iff, contains_eq_mem, decide_eq_false_iff_not,
    Use.forall_var_ne]

/-- A block does not mention a variable if no part of it does. -/
theorem mentions_cons_eq_false : mentions (s :: ss) v = false ↔
    (∀ u ∈ s.ownUses, u.var ≠ v) ∧ s.declared? ≠ some v ∧ (∀ a ∈ s.blocks, mentions a v = false) ∧
      ss.mentions v = false := by
  simp only [mentions_eq_false_iff, uses_cons, declared_cons, mem_append, mem_flatMap,
    Option.mem_toList]
  grind

theorem mentions_iff : b.mentions v = true ↔ (∃ u ∈ b.uses, u.var = v) ∨ v ∈ b.declared := by
  have h := mentions_eq_false_iff (b := b) (v := v)
  grind

theorem mentions_cons (v : Var) (s : Stmt) (ss : Block) :
    mentions (s :: ss) v = (s.mentions v || ss.mentions v) := by
  rw [← singleton_append, Bool.eq_iff_iff, Bool.or_eq_true, Stmt.mentions]
  simp only [mentions_iff, uses_append, declared_append, mem_append]
  grind

theorem mentions_append (v : Var) (a b : Block) :
    mentions (a ++ b) v = (a.mentions v || b.mentions v) := by
  induction a with
  | nil => rfl
  | cons s ss ih => simp [mentions_cons, ih, Bool.or_assoc]

end Block

namespace Stmt

open Block

theorem mentions_ite (v : Var) (c : Expr) (a b : Block) :
    (ite c a b).mentions v = (c.mentions v || (Block.mentions a v || Block.mentions b v)) := by
  rw [Bool.eq_iff_iff, Bool.or_eq_true, Bool.or_eq_true, Stmt.mentions]
  simp only [mentions_iff, Expr.mentions_iff, uses_ite, declared_ite, uses_nil, declared_nil,
    mem_append]
  grind

theorem mentions_loop (v : Var) (l : Option Label) (c : Expr) (a : Block) :
    (loop l c a).mentions v = (c.mentions v || Block.mentions a v) := by
  rw [Bool.eq_iff_iff, Bool.or_eq_true, Stmt.mentions]
  simp only [mentions_iff, Expr.mentions_iff, uses_loop, declared_loop, uses_nil, declared_nil,
    mem_append]
  grind

theorem mentions_block (v : Var) (a : Block) : (block a).mentions v = Block.mentions a v := by
  rw [Bool.eq_iff_iff, Stmt.mentions]
  simp [mentions_iff]

end Stmt

theorem Stmt.mem_ownUses_of_exprs (he : e ∈ s.exprs) (hu : u ∈ e.uses) : u ∈ s.ownUses := by
  cases s with
  | declare w init =>
    cases init with
    | none => cases he
    | some x =>
      obtain rfl : e = x := by simpa [exprs] using he
      exact mem_cons_of_mem _ hu
  | _ => exact mem_flatMap.2 ⟨e, he, hu⟩

/-- Apart from the declared variable, a statement itself uses what its expressions do. -/
theorem Stmt.mem_ownUses (hu : u ∈ s.ownUses) :
    (∃ v, s.declared? = some v ∧ u = .write v) ∨ ∃ e ∈ s.exprs, u ∈ e.uses := by
  unfold ownUses at hu
  split at hu
  · rename_i v e
    rcases mem_cons.1 hu with rfl | hu
    · exact .inl ⟨v, rfl, rfl⟩
    · exact .inr ⟨e, by simp [exprs], hu⟩
  · exact .inr (mem_flatMap.1 hu)

/-- An assignment is an expression statement or a declaration with a value. -/
theorem Stmt.eq_of_assignment? {s : Stmt} {v : Var} {value : Expr}
    (h : s.assignment? = some (v, value)) : s = .set v value ∨ s = .declare v (some value) := by
  unfold assignment? at h
  split at h
  · cases h
    exact .inl rfl
  · cases h
    exact .inr rfl
  · cases h

end ByteLift
