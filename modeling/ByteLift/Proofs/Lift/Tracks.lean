import ByteLift.Proofs.Lift.Relates

/-!
# Relations along instructions

What relates the states before and behind each change relates them along whole instructions. Every
instruction keeps to the variables of the table.
-/

namespace ByteLift.Lift

variable {α : Type} {c : Lift α} {env : Env} {R : Machine → Machine → Prop} {dest : Label → Prop}
  {pre : Nat → Prop} {post : Nat → α → Prop} {e : Expr} {es : List Expr}

attribute [local simp] Expr.readsBelow_node Expr.children

instance : IsPreorder Machine fun _ _ => True where
  refl _ := trivial
  trans _ _ _ _ _ := trivial

theorem fills_any : Fills (fun _ => True) fun _ _ => True where
  out _ _ _ := trivial
  declare _ _ _ := trivial
  stack _ _ := trivial
  asked _ _ := trivial
  retype _ _ _ := trivial
  merges _ _ := trivial
  shapes _ _ := trivial

/-! ## The parts of expressions -/

section ReadsBelow

variable {n : Nat}

theorem readsBelow_merged {merges : List ((Label × Nat) × Var)} (l : Label)
    (hmerges : ∀ k v, (k, v) ∈ merges → v.index < n) (hes : ∀ e ∈ es, e.ReadsBelow n) :
    ∀ e ∈ merged merges l es, e.ReadsBelow n := by
  induction es with
  | nil => simp [merged]
  | cons e es ih =>
    rw [List.forall_mem_cons] at hes
    rw [merged, List.forall_mem_cons]
    refine ⟨?_, ih hes.2⟩
    split
    · rename_i v hv
      exact Expr.readsBelow_var.2 (hmerges _ v (mem_of_entered? hv))
    · exact hes.1

variable (r : MemberRef)

theorem readsBelow_fieldReceiver (h : e.ReadsBelow n) : (fieldReceiver env r e).ReadsBelow n := by
  unfold fieldReceiver
  split
  · simp
  · exact h

theorem readsBelow_callReceiver (kind : InvokeKind) (r : MemberRef) (h : e.ReadsBelow n) :
    (callReceiver env kind r e).ReadsBelow n := by
  unfold callReceiver
  split
  · simp
  · exact h

theorem readsBelow_constructorCall (method : MethodRef) (h : e.ReadsBelow n)
    (hes : ∀ e ∈ es, e.ReadsBelow n) : (constructorCall env r method es e).ReadsBelow n := by
  unfold constructorCall
  split
  · split <;> simpa using hes
  · simpa using hes
  · simpa using ⟨h, hes⟩

theorem readsBelow_zeroCondition (vars : VarTable) (op : CompareOp) (h : e.ReadsBelow n) :
    (zeroCondition env vars op e).ReadsBelow n := by
  unfold zeroCondition
  split
  · simpa using h
  · split
    · split <;> simpa [Expr.int] using h
    · simpa [Expr.int] using h

theorem readsBelow_increment {v : Var} (ty : Ty) (amount : Int16) (h : v.index < n) :
    (increment v ty amount).ReadsBelow n := by
  unfold increment
  split <;> simpa [Expr.int] using h

end ReadsBelow

theorem map_snd_tableCases (low : Int32) (targets : List Address) :
    (tableCases low targets).map Prod.snd = targets := by
  induction targets generalizing low with
  | nil => rfl
  | cons t ts ih => rw [tableCases, List.map_cons, ih]

/-- Steps that go on with the label of an address. -/
theorem behaves_labelFor_bind {target : Address} {f : Label → Lift α}
    (hf : ∀ l, env.flow.label? target = some l → Behaves R pre (f l) post) :
    Behaves R pre (labelFor env target >>= f) post := by
  refine .of_forall fun m a m' hm => ?_
  obtain ⟨l, m₁, hfor, hrest⟩ := bind_eq_ok.1 hm
  obtain ⟨hl, rfl⟩ := labelFor_eq_ok.1 hfor
  exact ⟨(hf l hl).1 _ _ _ hrest, (hf l hl).2 _ _ _ hrest⟩

namespace Tracks

variable (h : Tracks env dest R)

include h

/-! ## The stack -/

theorem push (he : ∀ n, pre n → e.ReadsBelow n) : Behaves R pre (push e) fun _ _ => True :=
  behaves_modifyStack h.stack fun _ n hn hm => List.forall_mem_cons.2 ⟨he n hn, hm.stack⟩

theorem pushAll (hes : ∀ n, pre n → ∀ e ∈ es, e.ReadsBelow n) :
    Behaves R pre (pushAll es) fun _ _ => True :=
  behaves_modifyStack h.stack fun _ n hn hm => List.forall_mem_append.2 ⟨hes n hn, hm.stack⟩

/-- Steps that take entries off the stack. -/
theorem takes {taken : α → List Expr}
    (hc : ∀ m a m', c m = .ok a m' → ∃ st, m.stack = taken a ++ st ∧ m' = { m with stack := st }) :
    Behaves R pre c fun n a => ∀ e ∈ taken a, e.ReadsBelow n := by
  refine .of_forall fun m a m' hm => ?_
  obtain ⟨st, hst, rfl⟩ := hc m a m' hm
  refine ⟨h.stack m st, Nat.le_refl _, fun n _ hm _ => ?_⟩
  have hstack := hm.stack
  rw [hst, List.forall_mem_append] at hstack
  exact ⟨⟨hstack.2, hm.out, hm.locals, hm.merges⟩, hstack.1⟩

variable (k : Nat) (writes : Option Var) (effects : Bool)

theorem takeWords : Behaves R pre (takeWords env k) fun n es => ∀ e ∈ es, e.ReadsBelow n := by
  refine h.takes fun m es m' hes => ?_
  obtain ⟨st, hst, hm', _⟩ := takeWords_eq_ok hes
  exact ⟨st, hst, hm'⟩

theorem pop : Behaves R pre pop fun n e => e.ReadsBelow n := by
  have htakes : Behaves R pre Lift.pop fun n e => ∀ x ∈ [e], x.ReadsBelow n :=
    h.takes fun m e m' he => pop_eq_ok.1 he
  simpa using htakes

/-- Going to a label, before the jump. -/
theorem leave (l : Label) : Behaves R pre (Lift.flowTo env l) fun _ _ => True :=
  ⟨h.flowTo l, (fills_any.flowTo l).2⟩

theorem jumpIf {l : Label} (hl : dest l) (he : ∀ n, pre n → e.ReadsBelow n) :
    Behaves R pre (append [.goto l (some e)]) fun _ _ => True :=
  h.appendOne hl fun n hn => .of_exprs rfl rfl (by simpa [Stmt.exprs] using he n hn)

variable [IsPreorder Machine R]

theorem popMany : Behaves R pre (popMany k) fun n es => ∀ e ∈ es, e.ReadsBelow n := by
  induction k generalizing pre with
  | zero => exact .pure (by simp)
  | succ k ih =>
    exact .bind h.pop fun e => .bind ih fun es => .pure fun n hn => by
      simpa [or_imp, forall_and] using ⟨hn.2, hn.1.2⟩

theorem popArgs (ts : List Ty) :
    Behaves R pre (popArgs ts) fun n es => ∀ e ∈ es, e.ReadsBelow n := by
  induction ts generalizing pre with
  | nil => exact .pure (by simp)
  | cons t ts ih =>
    exact .bind ih fun later => .bind h.pop fun e => .pure fun n hn => by simpa using ⟨hn.2, hn.1.2⟩

/-! ## Statements -/

theorem spillStack (chosen : Nat → Expr → Bool) :
    Behaves R pre (spillStack env chosen) fun _ _ => True :=
  h.toSpilling.spillStack h.stack chosen

theorem emit (hwithin : ∀ n, pre n → Block.Within n [.expr e]) :
    Behaves R pre (emit env (.expr e) writes effects) fun _ _ => True :=
  .bind (h.spillStack _) fun _ => h.appendOne trivial fun n hn => hwithin n hn.1

/-- An expression that only reads variables, as a statement. -/
theorem emitExpr (he : ∀ n, pre n → e.ReadsBelow n) :
    Behaves R pre (Lift.emit env (.expr e) writes effects) fun _ _ => True :=
  h.emit writes effects fun n hn => .of_exprs rfl rfl (by simpa [Stmt.exprs] using he n hn)

/-- Storing a local, for preorders that hold of any change to the locals and types. -/
theorem storeLocal (hlocals : ∀ (m : Machine) locals, R m { m with locals })
    (hretype : ∀ (m : Machine) v ty, R m { m with vars := m.vars.setTy v ty }) (kind : LocalKind)
    (slot : Nat) : Behaves R pre (storeLocal env kind slot) fun _ _ => True := by
  refine .bind h.pop fun value => .bind .get fun m => ?_
  have hstore {pre : Nat → Prop} (hvalue : ∀ n, pre n → value.ReadsBelow n) : Behaves R pre (do
      let v ← localForStore slot kind (env.typeOf m.vars value)
      let stored := value.coerce ((← get).vars.ty v)
      Lift.emit env (.set v stored) (some v) (!value.isPure)) fun _ _ => True :=
    .bind (h.localForStore hlocals hretype _ _ _) fun v => .bind .get fun _ =>
      h.emit _ _ fun n hn => .set hn.1.2 (Expr.readsBelow_coerce.2 (hvalue n hn.1.1))
  dsimp only
  split
  · refine .bind (.modify (fun m => hlocals m _) (fun _ => Nat.le_refl _) fun m n _ hm => ?_)
      fun _ =>
      hstore fun n hn => hn.1.1.2
    exact ⟨hm.stack, hm.out, fun k v hv => hm.locals k v (List.mem_filter.1 hv).1, hm.merges⟩
  · exact hstore fun n hn => hn.1.2

theorem discard (hes : ∀ n, pre n → ∀ e ∈ es, e.ReadsBelow n) :
    Behaves R pre (discard env es) fun _ _ => True := by
  induction es generalizing pre with
  | nil => exact .pure fun _ _ => trivial
  | cons e es ih =>
    simp only [List.forall_mem_cons] at hes
    rw [Lift.discard]
    split
    · exact .bind (h.emitExpr _ _ fun n hn => (hes n hn).1) fun _ => ih fun n hn => (hes n hn.1).2
    · exact ih fun n hn => (hes n hn).2

/-! ## Passing control -/

theorem goto {target : Address} (hto : ∀ l, env.flow.label? target = some l → dest l) :
    Behaves R pre (goto env target) fun _ _ => True :=
  behaves_labelFor_bind fun l hl => .bind (h.leave l) fun _ =>
    .bind (h.appendOne (hto l hl) fun _ _ => .of_exprs rfl rfl (by simp [Stmt.exprs])) fun _ =>
      behaves_modifyStack h.stack (by simp)

theorem branch {target : Address} (hto : ∀ l, env.flow.label? target = some l → dest l)
    (he : ∀ n, pre n → e.ReadsBelow n) : Behaves R pre (branch env e target) fun _ _ => True := by
  refine behaves_labelFor_bind fun l hl => .bind .get fun m => ?_
  have hjump {pre : Nat → Prop} {cond : Expr} (hcond : ∀ n, pre n → cond.ReadsBelow n) :
    Behaves R pre (do
      Lift.flowTo env l
      append [.goto l (some cond)]
      modify fun m => { m with stack := merged m.merges l m.stack }) fun _ _ => True :=
    .bind (h.leave l) fun _ => .bind (h.jumpIf (hto l hl) fun n hn => hcond n hn.1) fun _ =>
      behaves_modifyStack h.stack fun _ _ _ hm => readsBelow_merged l hm.merges hm.stack
  dsimp only
  split
  · exact .bind (h.spillStack _) fun _ => .bind .get fun _ => .bind (h.newTemp _) fun v =>
      .bind (h.appendOne trivial fun n hn => .set hn.2 (he n hn.1.1.1.1)) fun _ =>
        .bind (behaves_pureExpr fun _ hn => Expr.readsBelow_var.2 hn.1.2) fun _ =>
          hjump fun _ hn => hn.2
  · exact .bind (behaves_pureExpr fun n hn => he n hn.1) fun _ => hjump fun _ hn => hn.2

theorem cases (table : List (Int32 × Address))
    (hto : ∀ t ∈ table.map Prod.snd, ∀ l, env.flow.label? t = some l → dest l)
    (he : ∀ n, pre n → e.ReadsBelow n) : Behaves R pre (cases env e table) fun _ _ => True := by
  induction table generalizing pre with
  | nil => exact .pure fun _ _ => trivial
  | cons entry table ih =>
    rw [List.map_cons, List.forall_mem_cons] at hto
    exact behaves_labelFor_bind fun l hl => .bind (h.leave l) fun _ =>
      .bind (h.jumpIf (hto.1 l hl) fun n hn => by simpa [Expr.int] using he n hn.1) fun _ =>
        ih hto.2 fun n hn => he n hn.1.1

theorem switch {table : List (Int32 × Address)} {default : Address}
    (hto : ∀ t ∈ table.map Prod.snd ++ [default], ∀ l, env.flow.label? t = some l → dest l) :
    Behaves R pre (switch env table default) fun _ _ => True := by
  rw [List.forall_mem_append, List.forall_mem_singleton] at hto
  refine .bind h.pop fun key => .bind (h.spillStack _) fun _ => ?_
  have hcases {pre : Nat → Prop} {key : Expr} (hkey : ∀ n, pre n → key.ReadsBelow n) :
    Behaves R pre (do
      Lift.cases env key table
      Lift.goto env default) fun _ _ => True :=
    .bind (h.cases table hto.1 hkey) fun _ => h.goto hto.2
  split
  · exact .bind (behaves_pureExpr fun _ hn => hn.1.2) fun _ => hcases fun _ hn => hn.2
  · exact .bind (h.spill fun _ hn => hn.1.2) fun _ => hcases fun _ hn => hn.2

/-! ## Members and the stack -/

theorem ask {q : Query} {a : α} : Behaves R pre (do
    modify fun m => { m with asked := m.asked ++ [q] }
    return a) fun _ _ => True :=
  .bind (behaves_modifyTables (fun m => h.asked m _) (fun _ => rfl) (fun _ => rfl) (fun _ => rfl)
    (fun _ => rfl)
    fun _ => Nat.le_refl _) fun _ => .pure fun _ _ => trivial

theorem lookupField (r : MemberRef) (isStatic : Bool) :
    Behaves R pre (lookupField env r isStatic) fun _ _ => True :=
  h.ask

theorem invoke (kind : InvokeKind) (r : MemberRef) :
    Behaves R pre (invoke env kind r) fun _ _ => True := by
  refine .bind h.ask fun method => .bind (h.popArgs _) fun args => ?_
  have hgive {pre : Nat → Prop} {call : Expr} (hcall : ∀ n, pre n → call.ReadsBelow n) :
      Behaves R pre (if method.isVoid then Lift.emit env (.expr call) none true else Lift.push call)
        fun _ _ => True := by
    split
    · exact h.emitExpr _ _ hcall
    · exact h.push hcall
  dsimp only
  split
  · exact .bind h.pop fun _ => h.emitExpr _ _ fun _ hn =>
      readsBelow_constructorCall r method hn.2 hn.1.2
  · split
    · exact .bind (behaves_pureExpr fun _ hn => by simpa using hn.2) fun _ => hgive fun _ hn => hn.2
    · refine .bind h.pop fun _ => .bind (behaves_pureExpr fun _ hn => ?_) fun _ =>
        hgive fun _ hn => hn.2
      simpa using ⟨readsBelow_callReceiver kind r hn.2, hn.1.2⟩

theorem duplicate (group under : Nat) : Behaves R pre (duplicate env group under) fun _ _ => True :=
  .bind (h.takeWords group) fun _ => .bind (h.takeWords under) fun _ =>
    .bind (h.pushAll fun _ hn => List.forall_mem_append.2 ⟨hn.1.2, hn.2⟩) fun _ =>
      .bind .get fun _ =>
      .bind (h.spillStack _) fun _ => .bind (h.takeWords group) fun _ =>
        .bind (h.takeWords under) fun _ => h.pushAll fun _ hn =>
          List.forall_mem_append.2 ⟨List.forall_mem_append.2 ⟨hn.1.2, hn.2⟩, hn.1.2⟩

theorem swap : Behaves R pre (swap env) fun _ _ => True := by
  refine .bind (h.takeWords 2) fun pair => ?_
  have hrest {pre : Nat → Prop} (hpair : ∀ n, pre n → ∀ e ∈ pair, e.ReadsBelow n) :
    Behaves R pre (do
      Lift.pushAll pair
      let depth := (← get).stack.length
      Lift.spillStack env fun slot e => depth - 2 ≤ slot && !e.isPure
      let b ← Lift.pop
      let a ← Lift.pop
      Lift.push b
      Lift.push a) fun _ _ => True :=
    .bind (h.pushAll hpair) fun _ => .bind .get fun _ => .bind (h.spillStack _) fun _ =>
      .bind h.pop fun _ => .bind h.pop fun _ => .bind (h.push fun _ hn => hn.1.2) fun _ =>
        h.push fun _ hn => hn.1.2
  split
  · exact .bind (behaves_mismatch _) fun _ => hrest fun _ hn => hn.1.2
  · exact hrest fun _ hn => hn.2

theorem exit {s : Stmt} (hs : Emits dest s) (hdeclared : s.declared? = none)
    (hblocks : s.blocks = []) (hes : ∀ n, pre n → ∀ e ∈ s.exprs, e.ReadsBelow n) :
    Behaves R pre (do ensureEmpty; append [s]) fun _ _ => True := by
  have hempty : Behaves R pre ensureEmpty fun _ _ => True := by
    refine .bind .get fun m => ?_
    split
    · exact .throw
    · exact .pure fun _ _ => trivial
  exact .bind hempty fun _ => h.appendOne hs fun n hn => .of_exprs hdeclared hblocks (hes n hn.1)

/-! ## Instructions -/

/-- An instruction, of which a store is treated apart. -/
theorem step (i : Instruction) (hto : ∀ t ∈ i.targets, ∀ l, env.flow.label? t = some l → dest l)
    (hstore : ∀ kind slot, i = .store kind slot → Relates R (Lift.storeLocal env kind slot)) :
    Behaves R pre (step env i) fun _ _ => True := by
  cases i with
  | nop => exact .pure fun _ _ => trivial
  | aconstNull | iconst | lconst | fconst | dconst | ldc =>
    exact h.push fun _ _ => Expr.readsBelow_lit _
  | new => exact h.push fun _ _ => by simp
  | load kind slot => exact .bind (behaves_loadLocal slot kind) fun _ => h.push fun _ hn => hn.2
  | store kind slot =>
    exact ⟨hstore kind slot rfl,
      (fills_any.tracks.storeLocal (fun _ _ => trivial) (fun _ _ _ => trivial) kind slot).2⟩
  | iinc slot amount =>
    refine .bind (behaves_loadLocal slot .int) fun e => ?_
    split
    · exact .bind .get fun _ => h.emit _ _ fun _ hn =>
        .set (Expr.readsBelow_var.1 hn.1.2)
          (readsBelow_increment _ amount (Expr.readsBelow_var.1 hn.1.2))
    · exact behaves_mismatch _
  | arrayLoad kind =>
    exact .bind h.pop fun _ => .bind h.pop fun _ => .bind (behaves_typeOf _) fun _ =>
      h.push fun _ hn => by simpa using ⟨hn.1.2, hn.1.1.2⟩
  | arrayStore kind =>
    exact .bind h.pop fun _ => .bind h.pop fun _ => .bind h.pop fun _ =>
      .bind (behaves_typeOf _) fun _ =>
      h.emit _ _ fun _ hn =>
        .assign rfl (by simpa using ⟨hn.1.2, hn.1.1.2⟩) (Expr.readsBelow_coerce.2 hn.1.1.1.2)
  | arrayLength | newArray | anewArray | neg | convert | checkCast | instanceOf =>
    exact .bind h.pop fun _ => h.push fun _ hn => by simpa using hn.2
  | multiNewArray descriptor dimensions =>
    exact .bind (h.popMany dimensions) fun _ => h.push fun _ hn => by simpa using hn.2
  | pop | pop2 => exact .bind (h.takeWords _) fun _ => h.discard fun _ hn => by simpa using hn.2
  | dup | dupX1 | dupX2 | dup2 | dup2X1 | dup2X2 => exact h.duplicate _ _
  | swap => exact h.swap
  | arith op kind =>
    exact .bind h.pop fun _ => .bind h.pop fun _ => .bind (behaves_typeOf _) fun _ =>
      .bind (behaves_typeOf _) fun _ => h.push fun _ hn =>
        Expr.readsBelow_binary.2 ⟨hn.1.1.2, hn.1.1.1.2⟩
  | compare kind =>
    exact .bind h.pop fun _ => .bind h.pop fun _ => h.push fun _ hn => by simpa using ⟨hn.2, hn.1.2⟩
  | ifZero op target =>
    exact .bind h.pop fun _ => .bind .get fun _ =>
      h.branch (hto target List.mem_cons_self) fun _ hn =>
      readsBelow_zeroCondition _ op hn.1.2
  | ifInt op target =>
    exact .bind h.pop fun _ => .bind h.pop fun _ => .bind (behaves_typeOf _) fun _ =>
      .bind (behaves_typeOf _) fun _ => h.branch (hto target List.mem_cons_self) fun _ hn => by
        simpa using ⟨hn.1.1.2, hn.1.1.1.2⟩
  | ifRef op target =>
    exact .bind h.pop fun _ => .bind h.pop fun _ =>
      h.branch (hto target List.mem_cons_self) fun _ hn => by
      simpa using ⟨hn.2, hn.1.2⟩
  | ifNull target | ifNonNull target =>
    exact .bind h.pop fun _ => h.branch (hto target List.mem_cons_self) fun _ hn => by
      simpa [Expr.null] using hn.2
  | goto target => exact h.goto (hto target List.mem_cons_self)
  | tableSwitch default low targets =>
    refine h.switch fun t ht => hto t ?_
    rwa [map_snd_tableCases] at ht
  | lookupSwitch default pairs => exact h.switch hto
  | getField r =>
    refine .bind h.pop fun _ => .bind (h.lookupField r false) fun _ => h.push fun _ hn => ?_
    simpa using readsBelow_fieldReceiver r hn.1.2
  | putField r =>
    refine .bind h.pop fun _ => .bind h.pop fun _ => .bind (h.lookupField r false) fun _ =>
      h.emit _ _ fun _ hn => .assign rfl ?_ (Expr.readsBelow_coerce.2 hn.1.1.2)
    simpa using readsBelow_fieldReceiver r hn.1.2
  | getStatic r => exact .bind (h.lookupField r true) fun _ => h.push fun _ _ => by simp
  | putStatic r =>
    exact .bind h.pop fun _ => .bind (h.lookupField r true) fun _ => h.emit _ _ fun _ hn =>
      .assign rfl (by simp) (Expr.readsBelow_coerce.2 hn.1.2)
  | invoke kind r => exact h.invoke kind r
  | methodReturn kind =>
    cases kind with
    | none => exact h.exit trivial rfl rfl (by simp [Stmt.exprs])
    | some kind =>
      exact .bind h.pop fun _ => h.exit trivial rfl rfl fun _ hn => by simpa [Stmt.exprs] using hn.2
  | athrow =>
    exact .bind h.pop fun _ => h.exit trivial rfl rfl fun _ hn => by simpa [Stmt.exprs] using hn.2
  | invokeDynamic | monitorEnter | monitorExit | jsr | ret => exact .bind .get fun _ => .throw

/-- Coming to an instruction, for preorders that hold of a label that is passed. -/
theorem enter (haddress : ∀ (m : Machine) address, R m { m with address })
    (hpass : ∀ l, Relates R (passLabel env l)) (runsOn : Bool) (i : Addressed) :
    Behaves R pre (enter env runsOn i) fun _ _ => True := by
  have hlabel {pre : Nat → Prop} (l : Label) : Behaves R pre (passLabel env l) fun _ _ => True :=
    ⟨hpass l, (fills_any.passLabel (fun _ _ => trivial) l).2⟩
  refine .bind (behaves_modifyTables (fun m => haddress m _) (fun _ => rfl) (fun _ => rfl)
    (fun _ => rfl)
    (fun _ => rfl) fun _ => Nat.le_refl _) fun _ => ?_
  split
  · rename_i l _
    unfold enterLabel
    split
    · exact .bind (h.leave l) fun _ => hlabel l
    · refine .bind .get fun m => ?_
      split
      · exact .bind (behaves_mismatch _) fun _ => hlabel l
      · exact hlabel l
  · exact .pure fun _ _ => trivial

end Tracks

end ByteLift.Lift
