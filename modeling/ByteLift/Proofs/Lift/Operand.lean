import ByteLift.Proofs.Lift.Stack

/-!
# Expressions that instructions make

An instruction that computes takes entries off the stack and makes an expression of them. The
expression has the value, and the effect, that the instruction has on the values of the entries. It
is put on the stack, or emitted as a statement if the instruction only has an effect.
-/

namespace ByteLift

open Expr List

variable {e : Expr} {n : Nat} {as top : List Expr} {ρ η : Type} {w : World ρ η}
  {vs : List (Value ρ)} {vars : VarTable} {i : Instruction} {gives : Bool}

/-! ## Lists of arguments -/

namespace Expr

/-- Arguments as values of the parameters' types. -/
theorem mem_zipWith_coerce {ts : List Ty} (h : e ∈ List.zipWith coerce as ts) :
    ∃ a ∈ as, ∃ t, e = a.coerce t := by
  induction as generalizing ts with
  | nil => simp at h
  | cons a as ih =>
    cases ts with
    | nil => simp at h
    | cons t ts =>
      rw [zipWith_cons_cons, mem_cons] at h
      rcases h with rfl | h
      · exact ⟨a, by simp, t, rfl⟩
      · obtain ⟨b, hb, u, rfl⟩ := ih h
        exact ⟨b, by simp [hb], u, rfl⟩

theorem Known.zipWith_coerce (h : ∀ a ∈ as, a.Known n) (ts : List Ty) :
    ∀ e ∈ List.zipWith Expr.coerce as ts, e.Known n := by
  intro e he
  obtain ⟨a, ha, t, rfl⟩ := mem_zipWith_coerce he
  exact (h a ha).coerce t

/-- A plain expression that is made of others reads what they read. -/
theorem Known.of_children (hvar : ∀ v, e ≠ var v) (hassign : e.isAssign = false)
    (hplain : (∀ d ∈ e.children, d.isPlain = true) → e.isPlain = true)
    (h : ∀ d ∈ e.children, d.Known n) : e.Known n := by
  refine ⟨hplain fun d hd => (h d hd).plain, fun x hx => ?_⟩
  rw [usesAs_eq_children hvar (.inl hassign), mem_flatMap] at hx
  obtain ⟨d, hd, hx⟩ := hx
  exact (h d hd).vars x hx

end Expr

section

variable [DecidableEq ρ] {s s' : Store ρ η}

namespace World

variable {a : Expr}

theorem evalList_zipWith_coerce (w : World ρ η) {ts : List Ty} (h : as.length = ts.length) :
    w.evalList (List.zipWith coerce as ts) = w.evalList as := by
  induction as generalizing ts with
  | nil => rfl
  | cons a as ih =>
    cases ts with
    | nil => cases h
    | cons t ts =>
      rw [zipWith_cons_cons, evalList, evalList, eval_coerce, ih (Nat.succ.inj h)]

theorem evalStack_one_eq_ok :
    w.evalStack [a] s = .ok vs s' ↔ ∃ v, w.eval a s = .ok v s' ∧ vs = [v] := by
  rw [evalStack_cons_eq_ok]
  constructor
  · rintro ⟨us, v, t, hus, hv, rfl⟩
    obtain ⟨rfl, rfl⟩ := evalStack_nil_eq_ok.1 hus
    exact ⟨v, hv, rfl⟩
  · rintro ⟨v, hv, rfl⟩
    exact ⟨[], v, s, evalStack_nil_eq_ok.2 ⟨rfl, rfl⟩, hv, rfl⟩

theorem evalStack_two_eq_ok {b : Expr} : w.evalStack [b, a] s = .ok vs s' ↔
      ∃ v u t, w.eval a s = .ok v t ∧ w.eval b t = .ok u s' ∧ vs = [u, v] := by
  rw [evalStack_cons_eq_ok]
  constructor
  · rintro ⟨us, u, t, hus, hu, rfl⟩
    obtain ⟨v, hv, rfl⟩ := evalStack_one_eq_ok.1 hus
    exact ⟨v, u, t, hv, hu, rfl⟩
  · rintro ⟨v, u, t, hv, hu, rfl⟩
    exact ⟨[v], u, t, evalStack_one_eq_ok.2 ⟨v, hv, rfl⟩, hu, rfl⟩

theorem evalList_one {v : Value ρ} (h : w.eval a s = .ok v s') : w.evalList [a] s = .ok [v] s' :=
  evalList_cons_eq_ok.2 ⟨v, [], s', h, rfl, rfl⟩

/-- Arguments are evaluated in the order in which they were pushed. -/
theorem evalList_of_evalStack_reverse (h : w.evalStack as.reverse s = .ok vs s') :
    w.evalList as s = .ok vs.reverse s' := by
  have h' := evalList_reverse_eq_ok h
  rwa [reverse_reverse] at h'

end World

omit [DecidableEq ρ] in
theorem Frame.takeArgs_append {params : List Ty} {st : List (Value ρ)}
    (h : vs.length = params.length) : takeArgs params (vs ++ st) =
      if vs.reverse.map Value.kind = params.map LocalKind.ofTy then
        some (vs.reverse, st) else none := by
  rw [takeArgs, ← h, take_left, drop_left]

end

/-! ## What is made -/

/-- The call of a method, made of the arguments and the object it is called on. -/
inductive MakesCall (method : MethodRef) : InvokeKind → List Expr → Expr → Prop
  | static {as : List Expr} : as.length = method.params.length →
      MakesCall method .static as.reverse
      (.staticCall .static method (as.zipWith coerce method.params))
  | on {kind : InvokeKind} {as : List Expr} {o : Expr} : as.length = method.params.length →
      kind ≠ .static →
      MakesCall method kind (as.reverse ++ [o])
      (.call kind o method (as.zipWith coerce method.params))

/-- The expression that an instruction makes of the entries it takes, the topmost first. The flag
says whether the expression is put on the stack. -/
inductive Makes (env : Env) (vars : VarTable) : Instruction → Bool → List Expr → Expr → Prop
  | aconstNull : Makes env vars .aconstNull true [] .null
  | iconst (v : Int32) : Makes env vars (.iconst v) true [] (.int v)
  | lconst (v : Int64) : Makes env vars (.lconst v) true [] (.lit (.long v))
  | fconst (bits : UInt32) : Makes env vars (.fconst bits) true [] (.lit (.float bits))
  | dconst (bits : UInt64) : Makes env vars (.dconst bits) true [] (.lit (.double bits))
  | ldc (c : Constant) : Makes env vars (.ldc c) true [] (.lit (Lift.constant c))
  | arrayLoad (kind : ArrayKind) (i a : Expr) :
      Makes env vars (.arrayLoad kind) true [i, a]
        (.arrayElement a i (Lift.elementTy kind (env.typeOf vars a)))
  | arrayStore (kind : ArrayKind) (e i a : Expr) (t : Ty) :
      Makes env vars (.arrayStore kind) false [e, i, a] (.assign (.arrayElement a i t) (e.coerce t))
  | arrayLength (a : Expr) : Makes env vars .arrayLength true [a] (.arrayLength a)
  | newArray (code : Nat) (n : Expr) :
      Makes env vars (.newArray code) true [n] (.newArray (.array (.ofArrayCode code)) [n])
  | anewArray (element : String) (n : Expr) :
      Makes env vars (.anewArray element) true [n]
      (.newArray (.array (.ofClassOperand element)) [n])
  | multiNewArray (descriptor : String) (dims : List Expr) :
      Makes env vars (.multiNewArray descriptor dims.length) true dims.reverse
        (.newArray ((Ty.parse? descriptor).getD .unknown) dims)
  | arith (op : ArithOp) (kind : NumKind) (b a : Expr) :
      Makes env vars (.arith op kind) true [b, a]
        (.binary (.ofArith op) a b
          (Lift.arithTy (.ofArith op) kind (env.typeOf vars a) (env.typeOf vars b)))
  | neg (kind : NumKind) (a : Expr) : Makes env vars (.neg kind) true [a] (.unary .neg a kind.ty)
  | convert (c : Conversion) (a : Expr) : Makes env vars (.convert c) true [a] (.cast c.target a)
  | compare (kind : ThreeWay) (b a : Expr) :
      Makes env vars (.compare kind) true [b, a] (.threeWay kind a b)
  | getField (r : MemberRef) (o : Expr) :
      Makes env vars (.getField r) true [o] (.field o (env.field r false))
  | putField (r : MemberRef) (e o : Expr) (t : Ty) :
      Makes env vars (.putField r) false [e, o]
      (.assign (.field o (env.field r false)) (e.coerce t))
  | getStatic (r : MemberRef) :
    Makes env vars (.getStatic r) true [] (.staticField (env.field r true))
  | putStatic (r : MemberRef) (e : Expr) (t : Ty) :
      Makes env vars (.putStatic r) false [e]
      (.assign (.staticField (env.field r true)) (e.coerce t))
  | invoke {kind : InvokeKind} {r : MemberRef} {top : List Expr} {e : Expr} :
      MakesCall (env.method r (kind = .static)) kind top e →
      Makes env vars (.invoke kind r) (!(env.method r (kind = .static)).isVoid) top e
  | checkCast (operand : String) (a : Expr) :
      Makes env vars (.checkCast operand) true [a] (.cast (.ofClassOperand operand) a)
  | instanceOf (operand : String) (a : Expr) :
      Makes env vars (.instanceOf operand) true [a] (.instanceOf a (.ofClassOperand operand))

/-! ## What is made is an entry, or is emitted -/

section

variable {env : Env}

theorem MakesCall.known {method : MethodRef} {kind : InvokeKind} (h : MakesCall method kind top e)
    (htop : ∀ a ∈ top, a.Known n) : e.Known n := by
  cases h with
  | static =>
    exact .of_children (by simp) rfl (by simp [isPlain, isPlainList_iff, children])
      (Known.zipWith_coerce (fun a ha => htop a (mem_reverse.2 ha)) method.params)
  | @on _ as o _ _ =>
    exact .of_children (by simp) rfl (by simp [isPlain, isPlainList_iff, children])
      (forall_mem_cons.2
      ⟨htop o (by simp), Known.zipWith_coerce (fun a ha => htop a (by simp [ha])) method.params⟩)

/-- An expression that is put on the stack is as entries should be. -/
theorem Makes.entry (h : Makes env vars i gives top e) (hgives : gives = true)
    (htop : ∀ a ∈ top, a.Entry n) : e.Entry n := by
  cases h with
  | ldc c =>
    exact ⟨.of_children (by simp) rfl (by simp [isPlain]) (by simp [children]), by cases c <;> rfl⟩
  | arith op kind b a =>
    exact ⟨.of_children (by simp) rfl (by simp [isPlain, children])
      fun d hd => (htop d (by grind [children])).toKnown, by cases op <;> rfl⟩
  | multiNewArray descriptor dims =>
    exact ⟨.of_children (by simp) rfl (by simp [isPlain, isPlainList_iff, children])
      fun d hd => (htop d (mem_reverse.2 hd)).toKnown, rfl⟩
  | invoke h => exact ⟨h.known fun a ha => (htop a ha).toKnown, by cases h <;> rfl⟩
  | arrayStore | putField | putStatic => cases hgives
  | _ =>
    exact ⟨.of_children (by simp [null, int]) rfl
      (by simp [null, int, isPlain, isPlainList_iff, children])
      fun d hd => (htop d (by grind [children, null, int])).toKnown, rfl⟩

/-- What an expression comes to that is emitted depends on the variables of the entries, and changes
none. -/
theorem Makes.stays [DecidableEq ρ] (w : World ρ η) (h : Makes env vars i gives top e)
    (htop : ∀ a ∈ top, a.Entry n) : Eval.Stays (fun x => x.index < n) (w.eval e) := by
  have stays {a : Expr} (ha : a.Known n) : Eval.Stays (fun x => x.index < n) (w.eval a) :=
    (w.stays_eval a ha.plain).mono ha.vars
  have hentry := fun hgives => h.entry hgives htop
  cases h with
  | arrayStore kind a j b t =>
    simp only [World.eval, World.eval_coerce]
    exact (stays (htop b (by simp)).toKnown).bind fun _ =>
      (stays (htop j (by simp)).toKnown).bind fun _ =>
      (stays (htop a (by simp)).toKnown).bind fun _ =>
        (Eval.Stays.perform w _).bind fun _ => .pure _
  | putField r a o t =>
    simp only [World.eval, World.eval_coerce]
    exact (stays (htop o (by simp)).toKnown).bind fun _ =>
      (stays (htop a (by simp)).toKnown).bind fun _ =>
        (Eval.Stays.perform w _).bind fun _ => .pure _
  | putStatic r a t =>
    simp only [World.eval, World.eval_coerce]
    exact (stays (htop a (by simp)).toKnown).bind fun _ =>
      (Eval.Stays.perform w _).bind fun _ => .pure _
  | invoke h => exact stays (h.known fun a ha => (htop a ha).toKnown)
  | _ => exact stays (hentry rfl).toKnown

end

/-! ## What is made does what the instruction does -/

/-- The members that an instruction refers to are of the types that the references give. No object
is made: neither allocated nor constructed. -/
def Context.Supports (ctx : Context) : Instruction → Prop
  | .getField r | .putField r => Ty.parse? r.descriptor = some (ctx.field r false).ty
  | .getStatic r | .putStatic r => Ty.parse? r.descriptor = some (ctx.field r true).ty
  | .invoke kind r =>
    Ty.parseMethod? r.descriptor =
        some ((ctx.method r (kind = .static)).params, (ctx.method r (kind = .static)).result) ∧
      (ctx.method r (kind = .static)).isConstructor = false
  | .new _ => False
  | _ => True

/-- References take one word: where an instruction loads a reference from an array, or stores one in
a local, the type that the machine has for it is not one of two words. -/
def Env.fits (env : Env) (vars : VarTable) (stack : List Expr) : Instruction → Bool
  | .arrayLoad .reference =>
    match stack with
    | _ :: array :: _ => !(env.typeOf vars array).element.isWide
    | _ => true
  | .store .reference _ =>
    match stack with
    | value :: _ => !(env.typeOf vars value).isWide
    | _ => true
  | _ => true

variable (operand : String)

theorem Ty.ofClassOperand_cases :
    (∃ name, Ty.ofClassOperand operand = .ref name) ∨ (∃ t, Ty.ofClassOperand operand = .array t) ∨
      Ty.ofClassOperand operand = .unknown := by
  unfold ofClassOperand
  split
  · rename_i rest heq
    rw [parse?, heq, read?]
    cases hread : read? rest with
    | none => simp
    | some read =>
      obtain ⟨t, after⟩ := read
      by_cases hvoid : t = .void
      · simp [hvoid]
      · cases after <;> simp [hvoid]
  · exact .inl ⟨operand, rfl⟩

theorem Ty.ofClassOperand_reference :
    (Ty.ofClassOperand operand).isPrimitive = false ∧
    (Ty.ofClassOperand operand).isWide = false := by
  obtain ⟨name, h⟩ | ⟨t, h⟩ | h := ofClassOperand_cases operand <;> rw [h] <;> exact ⟨rfl, rfl⟩

theorem NumKind.isWide_ty (kind : NumKind) : kind.ty.isWide = kind.kind.isWide := by
  cases kind <;> rfl

theorem Lift.isWide_arithTy (op : BinOp) {kind : NumKind} {left : Ty} (right : Ty)
    (h : left.isWide = kind.kind.isWide) :
    (arithTy op kind left right).isWide = kind.kind.isWide := by
  unfold arithTy
  split
  · rename_i hbool
    simp only [Bool.and_eq_true, decide_eq_true_eq] at hbool
    rw [← h, hbool.1.2]
  · exact kind.isWide_ty

theorem Lift.isWide_elementTy {kind : ArrayKind} {array : Ty}
    (h : kind = .reference → array.element.isWide = false) :
    (elementTy kind array).isWide = kind.kind.isWide := by
  cases kind with
  | byte =>
    rw [elementTy]
    split <;> rfl
  | reference => rw [elementTy, Ty.isWide_orObject, h rfl]; rfl
  | _ => rfl

section

theorem World.perform_eq (w : World ρ η) (ev : Event ρ) (s : Store ρ η) :
    w.perform ev s = .ok (w.result s.memory.heap ev) ⟨s.vars, w.after s.memory ev⟩ := rfl

theorem World.look_eq {α : Type} (f : η → α) (s : Store ρ η) :
    World.look f s = .ok (f s.memory.heap) s :=
  rfl

variable {v : Value ρ}

theorem World.expect_eq_some {kind : LocalKind} {st st' : List (Value ρ)} {m m' : Memory ρ η}
    (h : World.expect kind v st m = some (st', m')) : v.kind = kind ∧ st' = v :: st ∧ m' = m := by
  rw [expect] at h
  split at h
  · cases h
    exact ⟨‹_›, rfl, rfl⟩
  · cases h

theorem World.kind_arith {op : ArithOp} {a b : Value ρ} (h : w.arith op a b = some v) :
    v.kind = a.kind := by
  unfold arith at h
  split at h <;> (try split at h) <;> cases h <;> rfl

theorem World.kind_neg (a : Value ρ) : (w.neg a).kind = a.kind := by
  cases a <;> rfl

end

section

variable [DecidableEq ρ] {ctx : Context} {code : Code} {flow : Flow} {es : List Expr}
  {t t' : Store ρ η} {st st' : List (Value ρ)} {μ : Memory ρ η}

/-- The object and the arguments of a call are evaluated in order, then the call is made. -/
theorem MakesCall.eval {method : MethodRef} {kind : InvokeKind} {args st₁ : List (Value ρ)}
    {receiver : Option (Value ρ)} (h : MakesCall method kind top e)
    (htop : w.evalStack top t = .ok vs t')
    (hargs : Frame.takeArgs method.params (vs ++ st) = some (args, st₁))
    (hreceiver : Frame.takeReceiver kind st₁ = some (receiver, st')) :
    st' = st ∧ w.eval e t = .ok (w.result t'.memory.heap (.call kind method receiver args))
        ⟨t'.vars, w.after t'.memory (.call kind method receiver args)⟩ := by
  cases h with
  | @static as hlen =>
    have hvs : vs.length = method.params.length := by
      rw [World.length_of_evalStack htop, length_reverse, hlen]
    rw [Frame.takeArgs_append hvs] at hargs
    split at hargs <;> cases hargs
    cases hreceiver
    refine ⟨rfl, ?_⟩
    rw [World.eval, w.evalList_zipWith_coerce hlen,
      bind_of_ok (World.evalList_of_evalStack_reverse htop), World.perform_eq]
  | @on _ as o hlen hkind =>
    obtain ⟨us, ts, t₁, ho, has, rfl⟩ := World.evalStack_append_eq_ok.1 htop
    obtain ⟨v, hv, rfl⟩ := World.evalStack_one_eq_ok.1 ho
    have hts : ts.length = method.params.length := by
      rw [World.length_of_evalStack has, length_reverse, hlen]
    rw [append_assoc, Frame.takeArgs_append hts] at hargs
    split at hargs <;> cases hargs
    unfold Frame.takeReceiver at hreceiver
    rw [if_neg hkind] at hreceiver
    cases v with
    | ref r =>
      cases hreceiver
      refine ⟨rfl, ?_⟩
      rw [World.eval, bind_of_ok hv, w.evalList_zipWith_coerce hlen,
        bind_of_ok (World.evalList_of_evalStack_reverse has), World.perform_eq]
    | _ => cases hreceiver

/-- The expression has the value and the effect that the instruction has on the values of the
entries, and takes as many words as the value. -/
theorem Makes.eval (h : Makes (ctx.env code flow) vars i gives top e) (hsupports : ctx.Supports i)
    (hfits : (ctx.env code flow).fits vars (top ++ es) i = true)
    (htop : w.evalStack top t = .ok vs t')
    (hwides : top.map ((ctx.env code flow).isWide vars) = vs.map Value.isWide)
    (hrun : w.compute ctx i (vs ++ st) t'.memory = some (st', μ)) :
    ∃ v, w.eval e t = .ok v ⟨t'.vars, μ⟩ ∧
      if gives then st' = v :: st ∧ (ctx.env code flow).isWide vars e = v.isWide else st' = st := by
  cases h with
  | aconstNull | iconst | lconst | fconst | dconst =>
    obtain ⟨rfl, rfl⟩ := World.evalStack_nil_eq_ok.1 htop
    cases hrun
    exact ⟨_, by simp only [null, int, World.eval]; rfl, rfl, rfl⟩
  | ldc c =>
    obtain ⟨rfl, rfl⟩ := World.evalStack_nil_eq_ok.1 htop
    cases hrun
    cases c <;> exact ⟨_, by simp only [World.eval, Lift.constant]; rfl, rfl, rfl⟩
  | arrayLength a =>
    obtain ⟨v, hv, rfl⟩ := World.evalStack_one_eq_ok.1 htop
    cases v <;> cases hrun
    exact ⟨_, by rw [World.eval, bind_of_ok hv, World.look_eq], rfl, rfl⟩
  | newArray code a | anewArray element a =>
    obtain ⟨v, hv, rfl⟩ := World.evalStack_one_eq_ok.1 htop
    cases v <;> cases hrun
    exact ⟨_, by rw [World.eval, bind_of_ok (World.evalList_one hv), World.look_eq], rfl, rfl⟩
  | multiNewArray descriptor dims =>
    have hlen : vs.length = (List.replicate dims.length Ty.int).length := by
      rw [World.length_of_evalStack htop, length_reverse, length_replicate]
    unfold World.compute at hrun
    simp only [Frame.takeArgs_append hlen] at hrun
    split at hrun
    · rename_i ty args _ hparse hargs
      split at hargs <;> cases hargs
      cases hrun
      refine ⟨_, ?_, rfl, ?_⟩
      · rw [World.eval, bind_of_ok (World.evalList_of_evalStack_reverse htop),
          World.look_eq, hparse]
        rfl
      · simp only [Env.isWide, Env.typeOf, Expr.ty, hparse]
        rfl
    · cases hrun
  | arrayLoad kind j a =>
    obtain ⟨v, u, t₁, hv, hu, rfl⟩ := World.evalStack_two_eq_ok.1 htop
    cases u <;> cases v <;> try cases hrun
    obtain ⟨hkind, rfl, rfl⟩ := World.expect_eq_some hrun
    refine ⟨_, by rw [World.eval, bind_of_ok hv, bind_of_ok hu, World.look_eq], rfl, ?_⟩
    rw [Value.isWide, hkind]
    refine Lift.isWide_elementTy ?_
    rintro rfl
    simpa [Env.fits] using hfits
  | arrayStore kind a j b ty =>
    obtain ⟨us, x, t₁, hus, hx, rfl⟩ := World.evalStack_cons_eq_ok.1 htop
    obtain ⟨v, u, t₂, hv, hu, rfl⟩ := World.evalStack_two_eq_ok.1 hus
    cases u <;> cases v <;> try cases hrun
    unfold World.compute at hrun
    simp only [cons_append, nil_append] at hrun
    split at hrun <;> cases hrun
    exact ⟨_, by
      rw [World.eval, World.eval_coerce, bind_of_ok hv, bind_of_ok hu, bind_of_ok hx,
        bind_of_ok (w.perform_eq _ _)]
      rfl, rfl⟩
  | arith op kind b a =>
    obtain ⟨v, u, t₁, hv, hu, rfl⟩ := World.evalStack_two_eq_ok.1 htop
    unfold World.compute at hrun
    simp only [cons_append, nil_append] at hrun
    split at hrun
    · rename_i hkind
      obtain ⟨x, hx, heq⟩ := Option.map_eq_some_iff.1 hrun
      cases heq
      refine ⟨x, ?_, rfl, ?_⟩
      · rw [w.eval_binary (BinOp.arith?_ofArith op), bind_of_ok hv, bind_of_ok hu, hx]
        rfl
      · rw [Value.isWide, World.kind_arith hx, hkind]
        have hwide : (ctx.env code flow).isWide vars a = v.isWide :=
          (List.cons.inj (List.cons.inj hwides).2).1
        exact Lift.isWide_arithTy _ _ (hwide.trans (congrArg LocalKind.isWide hkind))
    · cases hrun
  | neg kind a =>
    obtain ⟨v, hv, rfl⟩ := World.evalStack_one_eq_ok.1 htop
    unfold World.compute at hrun
    simp only [cons_append, nil_append] at hrun
    split at hrun <;> cases hrun
    rename_i hkind
    refine ⟨_, by rw [World.eval, map_of_ok hv], rfl, ?_⟩
    rw [Value.isWide, World.kind_neg, hkind, ← kind.isWide_ty]
    rfl
  | convert c a =>
    obtain ⟨v, hv, rfl⟩ := World.evalStack_one_eq_ok.1 htop
    unfold World.compute at hrun
    simp only [cons_append, nil_append] at hrun
    split at hrun
    · obtain ⟨hkind, rfl, rfl⟩ := World.expect_eq_some hrun
      have hprim : c.target.isPrimitive = true := by cases c <;> rfl
      refine ⟨_, by rw [World.eval, map_of_ok hv, if_pos hprim], rfl, ?_⟩
      rw [Value.isWide, hkind, LocalKind.isWide_ofTy]
      rfl
    · cases hrun
  | compare kind b a =>
    obtain ⟨v, u, t₁, hv, hu, rfl⟩ := World.evalStack_two_eq_ok.1 htop
    obtain ⟨x, hx, heq⟩ := Option.map_eq_some_iff.1 hrun
    cases heq
    refine ⟨x, by rw [World.eval, bind_of_ok hv, bind_of_ok hu, hx]; rfl, rfl, ?_⟩
    rw [World.threeWay] at hx
    split at hx <;> cases hx
    rfl
  | getField r o =>
    obtain ⟨v, hv, rfl⟩ := World.evalStack_one_eq_ok.1 htop
    have hparse : Ty.parse? r.descriptor = some (ctx.field r false).ty := hsupports
    unfold World.compute at hrun
    simp only [hparse] at hrun
    cases v <;> try cases hrun
    obtain ⟨hkind, rfl, rfl⟩ := World.expect_eq_some hrun
    refine ⟨_, by rw [World.eval, bind_of_ok hv, World.look_eq]; rfl, rfl, ?_⟩
    rw [Value.isWide, hkind, LocalKind.isWide_ofTy]
    rfl
  | putField r a o ty =>
    obtain ⟨v, u, t₁, hv, hu, rfl⟩ := World.evalStack_two_eq_ok.1 htop
    have hparse : Ty.parse? r.descriptor = some (ctx.field r false).ty := hsupports
    unfold World.compute at hrun
    simp only [hparse] at hrun
    cases v <;> try cases hrun
    simp only [cons_append, nil_append] at hrun
    split at hrun <;> cases hrun
    exact ⟨_, by
      rw [World.eval, World.eval_coerce, bind_of_ok hv, bind_of_ok hu,
        bind_of_ok (w.perform_eq _ _)]
      rfl, rfl⟩
  | getStatic r =>
    obtain ⟨rfl, rfl⟩ := World.evalStack_nil_eq_ok.1 htop
    have hparse : Ty.parse? r.descriptor = some (ctx.field r true).ty := hsupports
    unfold World.compute at hrun
    simp only [hparse] at hrun
    obtain ⟨hkind, rfl, rfl⟩ := World.expect_eq_some hrun
    refine ⟨_, by rw [World.eval, World.look_eq]; rfl, rfl, ?_⟩
    rw [Value.isWide, hkind, LocalKind.isWide_ofTy]
    rfl
  | putStatic r a ty =>
    obtain ⟨v, hv, rfl⟩ := World.evalStack_one_eq_ok.1 htop
    have hparse : Ty.parse? r.descriptor = some (ctx.field r true).ty := hsupports
    unfold World.compute at hrun
    simp only [hparse, cons_append, nil_append] at hrun
    split at hrun <;> cases hrun
    exact ⟨_, by
      rw [World.eval, World.eval_coerce, bind_of_ok hv, bind_of_ok (w.perform_eq _ _)]
      rfl, rfl⟩
  | @invoke kind r top e hcall =>
    obtain ⟨hparse, _⟩ := hsupports
    unfold World.compute at hrun
    simp only [World.invoke, hparse, Option.bind_eq_bind, Option.bind_some,
      Option.bind_eq_some_iff] at hrun
    obtain ⟨⟨args, st₁⟩, hargs, ⟨receiver, st₂⟩, hreceiver, hrun⟩ := hrun
    obtain ⟨rfl, heval⟩ := hcall.eval htop hargs hreceiver
    simp only at hrun
    split at hrun
    · rename_i hvoid
      cases hrun
      refine ⟨_, heval, ?_⟩
      have hgives : (!((ctx.env code flow).method r (kind = .static)).isVoid) = false := by
        rw [MethodRef.isVoid, Bool.not_eq_false']
        exact decide_eq_true hvoid
      rw [hgives]
      rfl
    · rename_i hvoid
      obtain ⟨hkind, rfl, rfl⟩ := World.expect_eq_some hrun
      refine ⟨_, heval, ?_⟩
      have hgives : (!((ctx.env code flow).method r (kind = .static)).isVoid) = true := by
        rw [MethodRef.isVoid, Bool.not_eq_true']
        exact decide_eq_false hvoid
      rw [hgives]
      have hwide := congrArg LocalKind.isWide hkind
      rw [LocalKind.isWide_ofTy] at hwide
      refine ⟨rfl, Eq.trans ?_ hwide.symm⟩
      cases hcall <;> rfl
  | checkCast operand a =>
    obtain ⟨v, hv, rfl⟩ := World.evalStack_one_eq_ok.1 htop
    cases v <;> cases hrun
    obtain ⟨hprimitive, hwide⟩ := Ty.ofClassOperand_reference operand
    exact ⟨_, by rw [World.eval, map_of_ok hv, hprimitive]; rfl, rfl, hwide⟩
  | instanceOf operand a =>
    obtain ⟨v, hv, rfl⟩ := World.evalStack_one_eq_ok.1 htop
    cases v <;> cases hrun
    exact ⟨_, by rw [World.eval, map_of_ok hv], rfl, rfl⟩

end

end ByteLift
