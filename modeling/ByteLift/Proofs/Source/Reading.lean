import ByteLift.Source.Printer.Expr
import Mathlib.Tactic.SplitIfs

/-!
# Reading printed operators back

A reader of operator expressions, with the operators of Java and how tightly they bind written out
again: tokens by longest match, and then one walk over the tokens that keeps the operators that wait
for their right operand. What is printed of an expression reads back as the same tree. Only the
types that printing leaves out are lost.
-/

namespace ByteLift.Reading

-- What holds of the characters of a text is decided over the text, not over all characters.
local instance decidableAllChars (p : Char → Prop) [DecidablePred p] (text : List Char) :
    Decidable (∀ c ∈ text, p c) := text.decidableBAll p

local instance decidableFirstChar (p : Char → Prop) [DecidablePred p] (first : Option Char) :
    Decidable (∀ c ∈ first, p c) := Option.decidableForallMem first

/-! ## Tokens -/

/-- The characters that operators are made of, and those that part tokens. -/
def signs : List Char := "()=<>!~?:&|+-*/^%,;".toList

/-- The characters of names, numbers and keywords. The name of a type is one word, with its dots and
brackets. -/
def isWord (c : Char) : Bool := !c.isWhitespace && !signs.contains c

/-- The operators of more than one character. -/
def longOperators : List (List Char) :=
  ["==", "!=", "<=", ">=", "&&", "||", "++", "--", "->", "::", "<<", ">>", ">>>", "+=", "-=", "*=",
    "/=", "%=", "&=", "|=", "^=", "<<=", ">>=", ">>>="].map String.toList

/-- Whether a character goes on with the token before it. -/
def joins : List Char → Char → Bool
  | [], _ => false
  | d :: ds, c => if isWord d then isWord c else longOperators.contains (d :: ds ++ [c])

/-- A token that has come to its end, before others. -/
def emit (token : List Char) (rest : List (List Char)) : List (List Char) :=
  if token = [] then rest else token :: rest

/-- The tokens of a text, behind the start of one. -/
def lexFrom (token : List Char) : List Char → List (List Char)
  | [] => emit token []
  | c :: cs =>
    if joins token c then lexFrom (token ++ [c]) cs
    else emit token (lexFrom (if c.isWhitespace then [] else [c]) cs)

/-- The tokens of a text. -/
def lex (text : List Char) : List (List Char) := lexFrom [] text

/-! ## Trees -/

/-- An operator that waits for its right operand. -/
structure Pending where
  level : Nat
  build : Expr → Expr

/-- An operator between two operands. -/
structure Infix where
  symbol : String
  level : Nat
  build : Expr → Expr → Expr

/-- A binary operator without its type. -/
def binary (symbol : String) (level : Nat) (op : BinOp) : Infix :=
  ⟨symbol, level, (.binary op · · .unknown)⟩

/-- The infix operators with their levels. Assignments have level 1 and the conditional operator
level 2, `instanceof` has level 9, and the prefix operators and casts have level 13. -/
def infixes : List Infix :=
  [binary "||" 3 .condOr, binary "&&" 4 .condAnd, binary "|" 5 .or, binary "^" 6 .xor,
    binary "&" 7 .and, ⟨"==", 8, .compare .eq⟩, ⟨"!=", 8, .compare .ne⟩, ⟨"<", 9, .compare .lt⟩,
    ⟨">=", 9, .compare .ge⟩,
    ⟨">", 9, .compare .gt⟩, ⟨"<=", 9, .compare .le⟩, binary "<<" 10 .shl, binary ">>" 10 .shr,
    binary ">>>" 10 .ushr,
    binary "+" 11 .add, binary "-" 11 .sub, binary "*" 12 .mul, binary "/" 12 .div,
    binary "%" 12 .rem]

/-- The keywords of the primitive types. -/
def primitives : List (String × Ty) :=
  [("int", .int), ("long", .long), ("float", .float), ("double", .double), ("byte", .byte),
    ("char", .char), ("short", .short), ("boolean", .boolean)]

/-- The primitive type of a keyword. -/
def primitive? (word : List Char) : Option Ty := (primitives.find? (·.1.toList = word)).map Prod.snd

/-- Gives an operand to the waiting operators of a level and above. -/
def settle (least : Nat) : Expr → List Pending → Expr × List Pending
  | x, [] => (x, [])
  | x, p :: ps => if least ≤ p.level then settle least (p.build x) ps else (x, p :: ps)

section

variable (atom : List Char → Option Expr)

mutual

/-- Reads on where an operand must come. The waiting operators are those of the innermost open
parentheses, before those around them. -/
def readOperand (ps : List Pending) (outer : List (List Pending)) : List (List Char) → Option Expr
  | [] => none
  | t :: ts =>
    if t = ['('] then readOperand [] (ps :: outer) ts
    else if t = ['-'] then readOperand (⟨13, (.unary .neg · .unknown)⟩ :: ps) outer ts
    else if t = ['!'] then readOperand (⟨13, (.unary .not · .unknown)⟩ :: ps) outer ts
    else match primitive? t with
      -- A primitive type alone in parentheses is a cast.
      | some ty =>
        match ts, ps, outer with
        | close :: ts, [], before :: outer =>
          if close = [')'] then readOperand (⟨13, .cast ty⟩ :: before) outer ts else none
        | _, _, _ => none
      | none => (atom t).bind fun x => readOperator x ps outer ts

/-- Reads on behind an operand. -/
def readOperator (x : Expr) (ps : List Pending) (outer : List (List Pending)) :
    List (List Char) → Option Expr
  | [] => if outer.isEmpty then some (settle 0 x ps).1 else none
  | t :: ts =>
    if t = [')'] then
      match outer with
      | before :: outer => readOperator (settle 0 x ps).1 before outer ts
      | [] => none
    else if t = ['='] then
      -- Only what binds more tightly is given its operand first: assignments associate to the
      -- right.
      match settle 2 x ps with
      | (.var v, ps) => readOperand (⟨1, .assign (.var v)⟩ :: ps) outer ts
      | _ => none
    else if t = "instanceof".toList then
      match ts with
      | ty :: ts =>
        readOperator (.instanceOf (settle 9 x ps).1 (.ref (.ofList ty))) (settle 9 x ps).2 outer ts
      | [] => none
    else match infixes.find? (·.symbol.toList = t) with
      | some op =>
        readOperand (⟨op.level, op.build (settle op.level x ps).1⟩ :: (settle op.level x ps).2)
          outer ts
      | none => none

end

end

/-- What a word stands for as an operand: a variable, or a whole number in decimal digits. -/
def atom (vars : VarTable) (vs : List Var) (word : List Char) : Option Expr :=
  match vs.find? fun v => (vars.name v).toList = word with
  | some v => some (.var v)
  | none =>
    if word.all Char.isDigit then some (.lit (.int (.ofNat (Nat.ofDigitChars 10 word 0)))) else none

/-- Reads the text of an operator expression over the given variables. -/
def read? (vars : VarTable) (vs : List Var) (text : String) : Option Expr :=
  readOperand (atom vars vs) [] [] (lex text.toList)

/-! ## Lexing -/

variable {text : List Char} {d c : Char} {a : Nat}

theorem lexFrom_of_not_joins {token : List Char} (h : ∀ c ∈ text.head?, joins token c = false) :
    lexFrom token text = emit token (lex text) := by
  cases text with
  | nil => rfl
  | cons c cs =>
    rw [lexFrom, if_neg (Bool.not_eq_true _ ▸ h c rfl)]
    rfl

theorem lexFrom_word {ds word : List Char} (hd : isWord d = true)
    (hword : ∀ c ∈ word, isWord c = true)
    (rest : List Char) : lexFrom (d :: ds) (word ++ rest) = lexFrom (d :: ds ++ word) rest := by
  induction word generalizing ds with
  | nil => simp
  | cons c word ih =>
    have hjoin : joins (d :: ds) c = true := by simp [joins, hd, hword c List.mem_cons_self]
    rw [List.cons_append, lexFrom, if_pos hjoin, List.cons_append,
      ih fun x hx => hword x (List.mem_cons_of_mem _ hx)]
    simp

/-- Names, numbers, keywords and names of types. -/
structure IsWord (text : String) : Prop where
  ne_nil : text.toList ≠ []
  all : ∀ c ∈ text.toList, isWord c = true

theorem IsWord.ne_sign {text : String} (h : IsWord text) (hc : isWord c = false) :
    text.toList ≠ [c] := by
  intro heq
  have hword := h.all c (heq ▸ List.mem_cons_self)
  rw [hc] at hword
  cases hword

theorem lex_word {text : String} (h : IsWord text) {rest : List Char}
    (hrest : ∀ c ∈ rest.head?, c = ' ' ∨ c = ')') :
    lex (text.toList ++ rest) = text.toList :: lex rest := by
  obtain ⟨hne, hall⟩ := h
  cases htext : text.toList with
  | nil => exact absurd htext hne
  | cons d ds =>
    rw [htext] at hall
    have hd := hall d List.mem_cons_self
    have hblank : d.isWhitespace = false := by
      rw [isWord, Bool.and_eq_true, Bool.not_eq_true'] at hd
      exact hd.1
    have hstart : lex (d :: ds ++ rest) = lexFrom [d] (ds ++ rest) := by
      simp [lex, lexFrom, joins, emit, hblank]
    rw [hstart, lexFrom_word hd fun c hc => hall c (List.mem_cons_of_mem _ hc),
      lexFrom_of_not_joins]
    · rfl
    · intro c hc
      rcases hrest c hc with rfl | rfl <;> simp [joins, hd] <;> decide

/-- The characters that a printed expression can start with. -/
def opens (c : Char) : Bool := isWord c || c = '(' || c = '!' || c = '-'

theorem lex_sign (hd : isWord d = false) (hblank : d.isWhitespace = false)
    (htext : ∀ c ∈ text.head?, [d, c] ∉ longOperators) : lex (d :: text) = [d] :: lex text := by
  have hstart : lex (d :: text) = lexFrom [d] text := by simp [lex, lexFrom, joins, emit, hblank]
  rw [hstart, lexFrom_of_not_joins fun c hc => by simp [joins, hd, htext c hc]]
  rfl

theorem lex_paren (hd : d = '(' ∨ d = ')') (text : List Char) :
    lex (d :: text) = [d] :: lex text := by
  have hlong : ∀ op ∈ longOperators, op.head? ≠ some '(' ∧ op.head? ≠ some ')' := by decide
  rcases hd with rfl | rfl
  · exact lex_sign (by decide) (by decide) fun c _ hmem => (hlong _ hmem).1 rfl
  · exact lex_sign (by decide) (by decide) fun c _ hmem => (hlong _ hmem).2 rfl

/-- A prefix operator is a token of its own before an expression that does not start with a
minus. -/
theorem lex_unary (op : UnaryOp) {cs : List Char} (hc : opens c = true) (hminus : c ≠ '-') :
    lex (op.symbol.toList ++ c :: cs) = op.symbol.toList :: lex (c :: cs) := by
  have hlong : ∀ op ∈ longOperators, op.head? = some '-' ∨ op.head? = some '!' →
      op[1]?.all (fun c => !opens c || c = '-') = true := by decide
  have hjoins {d : Char} (hd : d = '-' ∨ d = '!') :
    ∀ e ∈ (c :: cs).head?, [d, e] ∉ longOperators := by
    rintro _ ⟨⟩ hmem
    simpa [hc, hminus] using hlong _ hmem (by simpa using hd)
  cases op with
  | neg => exact lex_sign (by decide) (by decide) (hjoins (.inl rfl))
  | not => exact lex_sign (by decide) (by decide) (hjoins (.inr rfl))

theorem lex_binOp (op : BinOp) (text : List Char) :
    lex (' ' :: op.symbol.toList ++ ' ' :: text) = op.symbol.toList :: lex text := by
  cases op <;> rfl

theorem lex_compareOp (op : CompareOp) (text : List Char) :
    lex (' ' :: op.symbol.toList ++ ' ' :: text) = op.symbol.toList :: lex text := by
  cases op <;> rfl

/-! ## Steps of the reader -/

section

variable {atom : List Char → Option Expr} {x y : Expr} {ps qs before : List Pending}
  {outer : List (List Pending)} {t : List Char} (ts : List (List Char))

theorem readOperator_close :
    readOperator atom x ps (before :: outer) ([')'] :: ts) =
      readOperator atom (settle 0 x ps).1 before outer ts := by
  rw [readOperator.eq_def]
  rfl

theorem readOperator_assign {v : Var} (h : settle 2 x ps = (.var v, qs)) :
    readOperator atom x ps outer (['='] :: ts) =
      readOperand atom (⟨1, .assign (.var v)⟩ :: qs) outer ts := by
  rw [readOperator.eq_def]
  simp [h]

theorem readOperator_instanceOf (h : settle 9 x ps = (y, qs)) :
    readOperator atom x ps outer ("instanceof".toList :: t :: ts) =
      readOperator atom (.instanceOf y (.ref (.ofList t))) qs outer ts := by
  rw [readOperator.eq_def]
  simp [h]

theorem readOperator_infixes {op : Infix} (hop : infixes.find? (·.symbol.toList = t) = some op)
    (h : settle op.level x ps = (y, qs)) :
    readOperator atom x ps outer (t :: ts) =
      readOperand atom (⟨op.level, op.build y⟩ :: qs) outer ts := by
  have hother : ∀ i ∈ infixes,
      i.symbol.toList ≠ [')'] ∧ i.symbol.toList ≠ ['='] ∧
      i.symbol.toList ≠ "instanceof".toList := by decide
  obtain ⟨hclose, hassign, hinstance⟩ := hother op (List.mem_of_find?_eq_some hop)
  obtain rfl : op.symbol.toList = t := by simpa using List.find?_some hop
  rw [readOperator.eq_def]
  dsimp only
  rw [if_neg hclose, if_neg hassign, if_neg hinstance, hop]
  dsimp only
  rw [h]

end

/-! ## Waiting operators -/

/-- The next waiting operator is below a level. -/
def Below (level : Nat) (ps : List Pending) : Prop := ∀ p ∈ ps.head?, p.level < level

/-- Operators that wait for an operand, and what they make of it. All are of a level or above. -/
structure Owed (ps : List Pending) (level : Nat) (x y : Expr) : Prop where
  gives : ps.foldl (fun x p => p.build x) x = y
  level : ∀ p ∈ ps, level ≤ p.level

section

variable {ps qs : List Pending} {p : Pending} {level least : Nat} {x y : Expr}

theorem Owed.settle (h : Owed qs level x y) (hleast : least ≤ level) (hps : Below least ps) :
    settle least x (qs ++ ps) = (y, ps) := by
  obtain ⟨hgives, hlevel⟩ := h
  induction qs generalizing x with
  | nil =>
    obtain rfl : x = y := hgives
    cases ps with
    | nil => rfl
    | cons p ps => rw [List.nil_append, Reading.settle, if_neg (Nat.not_le.2 (hps p rfl))]
  | cons q qs ih =>
    rw [List.cons_append, Reading.settle,
      if_pos (Nat.le_trans hleast (hlevel q List.mem_cons_self))]
    exact ih hgives fun p hp => hlevel p (List.mem_cons_of_mem _ hp)

theorem Owed.settle_zero (h : Owed qs level x y) : (Reading.settle 0 x (qs ++ [])).1 = y := by
  rw [h.settle (Nat.zero_le _) (by simp [Below])]

/-- An operator is given what is read behind it. -/
theorem Owed.snoc (h : Owed qs level x y) (hp : least ≤ p.level) (hle : least ≤ level) :
    Owed (qs ++ [p]) least x (p.build y) := by
  refine ⟨by rw [List.foldl_append, h.gives]; rfl, fun q hq => ?_⟩
  rcases List.mem_append.1 hq with hq | hq
  · exact Nat.le_trans hle (h.level q hq)
  · rwa [List.mem_singleton.1 hq]

end

/-- Operators from this level on stay waiting while an expression of a level is read. An assignment
leaves other assignments waiting, and a prefix operator all operators. -/
def bound (level : Nat) : Nat := if level < 2 then 2 else if level < 13 then level else 14

theorem bound_mono {b : Nat} (h : a ≤ b) : bound a ≤ bound b := by
  unfold bound
  split_ifs <;> omega

theorem bound_of_level (h : 2 ≤ a ∧ a < 13) : bound a = a ∧ a < bound (a + 1) := by
  unfold bound
  split_ifs <;> omega

/-! ## Printed texts -/

/-- A text is read as an operand of a level, whatever stands before and behind it. -/
structure Reads (atom : List Char → Option Expr) (text : String) (level : Nat)
    (y : Expr) : Prop where
  starts : ∃ c cs, text.toList = c :: cs ∧ opens c = true
  reads : ∀ ps outer rest, Below (bound level) ps → (∀ c ∈ rest.head?, c = ' ' ∨ c = ')') → ∃ qs x,
    Owed qs level x y ∧
      readOperand atom ps outer (lex (text.toList ++ rest)) =
      readOperator atom x (qs ++ ps) outer (lex rest)

theorem toList_parens (text : String) :
    (parens text).toList = '(' :: (text.toList ++ [')']) := by simp [parens]

section

variable {atom : List Char → Option Expr} {text left right : String}
  {level least : Nat} {x y : Expr}

theorem Reads.mono (h : Reads atom text level y) (hle : least ≤ level) :
    Reads atom text least y := by
  refine ⟨h.starts, fun ps outer rest hps hrest => ?_⟩
  obtain ⟨qs, x, howed, heq⟩ :=
    h.reads ps outer rest (fun p hp => Nat.lt_of_lt_of_le (hps p hp) (bound_mono hle)) hrest
  exact ⟨qs, x, ⟨howed.gives, fun p hp => Nat.le_trans hle (howed.level p hp)⟩, heq⟩

/-- Parentheses make an operand of any level. -/
theorem Reads.parens (h : Reads atom text level y) (least : Nat) :
    Reads atom (parens text) least y := by
  refine ⟨⟨'(', _, toList_parens text, rfl⟩, fun ps outer rest _ _ => ?_⟩
  obtain ⟨qs, x, howed, heq⟩ := h.reads [] (ps :: outer) (')' :: rest) (by simp [Below]) (by simp)
  rw [lex_paren (.inr rfl), readOperator_close, howed.settle_zero] at heq
  refine ⟨[], y, ⟨rfl, by simp⟩, ?_⟩
  rw [toList_parens, List.cons_append, lex_paren (.inl rfl), readOperand, if_pos rfl,
    List.append_assoc, List.singleton_append, heq, List.nil_append]

/-- Words that stand for operands. -/
theorem reads_word (hword : IsWord text) (hprimitive : primitive? text.toList = none)
    (hatom : atom text.toList = some x) (level : Nat) : Reads atom text level x := by
  obtain ⟨d, ds, htext⟩ := List.exists_cons_of_ne_nil hword.ne_nil
  have hd : isWord d = true := hword.all d (htext ▸ List.mem_cons_self)
  refine ⟨⟨d, ds, htext, by simp [opens, hd]⟩,
    fun ps outer rest _ hrest => ⟨[], x, ⟨rfl, by simp⟩, ?_⟩⟩
  rw [lex_word hword hrest, readOperand, if_neg (hword.ne_sign (by decide)),
    if_neg (hword.ne_sign (by decide)), if_neg (hword.ne_sign (by decide)), hprimitive, hatom]
  rfl

/-- A minus or a negation before an operand. A minus before a minus is kept from it by
parentheses. -/
theorem Reads.unary (op : UnaryOp) (h : Reads atom text 13 y) :
    Reads atom (op.symbol ++ unaryOperand text) 13 (.unary op y .unknown) := by
  have hsign {text : String} {c : Char} {cs : List Char} (h : Reads atom text 13 y)
    (hc : text.toList = c :: cs)
      (hopens : opens c = true) (hminus : c ≠ '-') :
      Reads atom (op.symbol ++ text) 13 (.unary op y .unknown) := by
    refine ⟨?_, fun ps outer rest _ hrest => ?_⟩
    · cases op
      · exact ⟨'-', text.toList, by simp [UnaryOp.symbol], rfl⟩
      · exact ⟨'!', text.toList, by simp [UnaryOp.symbol], rfl⟩
    · obtain ⟨qs, x, howed, heq⟩ :=
        h.reads (⟨13, (.unary op · .unknown)⟩ :: ps) outer rest (by simp [Below, bound]) hrest
      refine ⟨qs ++ [⟨13, (.unary op · .unknown)⟩], x,
        howed.snoc (Nat.le_refl _) (Nat.le_refl _), ?_⟩
      rw [hc, List.cons_append] at heq
      rw [List.append_assoc, List.singleton_append, ← heq, String.toList_append, hc,
        List.append_assoc, List.cons_append, lex_unary op hopens hminus]
      cases op <;> rfl
  unfold unaryOperand
  split
  · exact hsign (h.parens 13) (toList_parens text) (by decide) (by decide)
  · rename_i hminus
    obtain ⟨c, cs, hc, hopens⟩ := h.starts
    exact hsign h hc hopens fun heq => hminus cs (heq ▸ hc)

variable {name : String}

theorem Reads.castTo {t : Ty} (ht : (name, t) ∈ primitives) (h : Reads atom text 13 y) :
    Reads atom (ByteLift.parens name ++ " " ++ text) 13 (.cast t y) := by
  have hall : ∀ p ∈ primitives, primitive? p.1.toList = some p.2 ∧ p.1.toList ≠ [] ∧
      ∀ c ∈ p.1.toList, isWord c = true := by decide
  obtain ⟨hprimitive, hne, hchars⟩ := hall _ ht
  have hname : IsWord name := ⟨hne, hchars⟩
  refine ⟨⟨'(', _, by simp [toList_parens]; rfl, rfl⟩, fun ps outer rest _ hrest => ?_⟩
  obtain ⟨qs, x, howed, heq⟩ :=
    h.reads (⟨13, .cast t⟩ :: ps) outer rest (by simp [Below, bound]) hrest
  refine ⟨qs ++ [⟨13, .cast t⟩], x, howed.snoc (Nat.le_refl _) (Nat.le_refl _), ?_⟩
  have htext : (ByteLift.parens name ++ " " ++ text).toList ++ rest =
      '(' :: (name.toList ++ ')' :: ' ' :: (text.toList ++ rest)) := by simp [toList_parens]
  rw [htext, lex_paren (.inl rfl), readOperand, if_pos rfl, lex_word hname (by simp), readOperand,
    if_neg (hname.ne_sign (by decide)), if_neg (hname.ne_sign (by decide)),
    if_neg (hname.ne_sign (by decide)),
    hprimitive, lex_paren (.inr rfl), List.append_assoc, List.singleton_append, ← heq]
  rfl

/-- Behind a left operand of its level, an operator is given what stands before it. -/
theorem Reads.between (op : Infix)
    (hop : infixes.find? (·.symbol.toList = op.symbol.toList) = some op)
    (hlex : ∀ text, lex (' ' :: op.symbol.toList ++ ' ' :: text) = op.symbol.toList :: lex text)
    (hlevel : 2 ≤ op.level ∧ op.level < 13) (hleft : Reads atom left op.level x)
    (hright : Reads atom right (op.level + 1) y) :
    Reads atom (left ++ " " ++ op.symbol ++ " " ++ right) op.level (op.build x y) := by
  obtain ⟨c, cs, hc, hopens⟩ := hleft.starts
  refine ⟨⟨c, _, by simp [hc]; rfl, hopens⟩, fun ps outer rest hps hrest => ?_⟩
  obtain ⟨qs, z, howed, heq⟩ :=
    hleft.reads ps outer (' ' :: op.symbol.toList ++ ' ' :: (right.toList ++ rest)) hps
    (by simp)
  obtain ⟨rs, w, howed', heq'⟩ := hright.reads (⟨op.level, op.build x⟩ :: ps) outer rest
    (by simpa [Below] using (bound_of_level hlevel).2) hrest
  rw [(bound_of_level hlevel).1] at hps
  rw [hlex, readOperator_infixes _ hop (howed.settle (Nat.le_refl _) hps), heq'] at heq
  exact ⟨rs ++ [⟨op.level, op.build x⟩], w, howed'.snoc (Nat.le_refl _) (Nat.le_succ _),
    by simpa using heq⟩

theorem Reads.instanceOf (hname : IsWord name) (h : Reads atom text 9 y) :
    Reads atom (text ++ " instanceof " ++ name) 9 (.instanceOf y (.ref name)) := by
  obtain ⟨c, cs, hc, hopens⟩ := h.starts
  refine ⟨⟨c, _, by simp [hc]; rfl, hopens⟩,
    fun ps outer rest hps hrest => ⟨[], _, ⟨rfl, by simp⟩, ?_⟩⟩
  obtain ⟨qs, x, howed, heq⟩ :=
    h.reads ps outer (" instanceof ".toList ++ (name.toList ++ rest)) hps (by simp)
  have hkeyword (text : List Char) :
    lex (" instanceof ".toList ++ text) = "instanceof".toList :: lex text := rfl
  rw [hkeyword, lex_word hname hrest, readOperator_instanceOf _ (howed.settle (Nat.le_refl _) hps),
    String.ofList_toList] at heq
  simpa using heq

theorem Reads.assign {v : Var} (hv : Reads atom name 15 (.var v)) (h : Reads atom text 1 y) :
    Reads atom (name ++ " = " ++ text) 1 (.assign (.var v) y) := by
  obtain ⟨c, cs, hc, hopens⟩ := hv.starts
  refine ⟨⟨c, _, by simp [hc]; rfl, hopens⟩, fun ps outer rest hps hrest => ?_⟩
  obtain ⟨qs, z, howed, heq⟩ := hv.reads ps outer (" = ".toList ++ (text.toList ++ rest))
    (fun p hp => Nat.lt_trans (hps p hp) (by decide)) (by simp)
  have hsign (text : List Char) : lex (" = ".toList ++ text) = ['='] :: lex text := rfl
  obtain ⟨rs, w, howed', heq'⟩ :=
    h.reads (⟨1, .assign (.var v)⟩ :: ps) outer rest (by simp [Below, bound]) hrest
  rw [hsign, readOperator_assign _ (howed.settle (by decide) hps), heq'] at heq
  exact ⟨rs ++ [⟨1, .assign (.var v)⟩], w, howed'.snoc (Nat.le_refl _) (Nat.le_refl _),
    by simpa using heq⟩

end

/-! ## Expressions -/

theorem find?_binOp (op : BinOp) :
    infixes.find? (·.symbol.toList = op.symbol.toList) =
      some (binary op.symbol op.precedence op) := by
  cases op <;> rfl

theorem find?_compareOp (op : CompareOp) :
    infixes.find? (·.symbol.toList = op.symbol.toList) = some ⟨op.symbol, op.precedence,
      .compare op⟩ := by
  cases op <;> rfl

/-- Expressions of operators over the given variables: whole numbers that are not negative, casts to
primitive types and assignments to variables, with types tested for whose names are words. -/
inductive Operators (style : Style) (vs : List Var) : Expr → Prop
  | var {v : Var} : v ∈ vs → Operators style vs (.var v)
  | int {n : Int32} : 0 ≤ n → Operators style vs (.lit (.int n))
  | unary (op : UnaryOp) {e : Expr} (t : Ty) :
  Operators style vs e → Operators style vs (.unary op e t)
  | binary (op : BinOp) {a b : Expr} (t : Ty) : Operators style vs a → Operators style vs b →
    Operators style vs (.binary op a b t)
  | compare (op : CompareOp) {a b : Expr} : Operators style vs a → Operators style vs b →
    Operators style vs (.compare op a b)
  | cast {t : Ty} {e : Expr} :
    t.isPrimitive = true → Operators style vs e → Operators style vs (.cast t e)
  | instanceOf {e : Expr} {t : Ty} : IsWord (style.ty t) → Operators style vs e →
    Operators style vs (.instanceOf e t)
  | assign {v : Var} {e : Expr} :
    v ∈ vs → Operators style vs e → Operators style vs (.assign (.var v) e)

/-- An expression without what printing leaves out: the types of operators, and of a type that is
tested for all but its name. -/
def bare (style : Style) : Expr → Expr
  | .unary op e _ => .unary op (bare style e) .unknown
  | .binary op a b _ => .binary op (bare style a) (bare style b) .unknown
  | .compare op a b => .compare op (bare style a) (bare style b)
  | .cast t e => .cast t (bare style e)
  | .instanceOf e t => .instanceOf (bare style e) (.ref (style.ty t))
  | .assign a b => .assign (bare style a) (bare style b)
  | e => e

/-- Variables have names that differ, none of which is a number or a primitive type. -/
structure Named (vars : VarTable) (vs : List Var) : Prop where
  word : ∀ v ∈ vs, IsWord (vars.name v)
  digit : ∀ v ∈ vs, ∀ c ∈ (vars.name v).toList.head?, c.isDigit = false
  keyword : ∀ v ∈ vs, primitive? (vars.name v).toList = none
  inj : ∀ v ∈ vs, ∀ w ∈ vs, vars.name v = vars.name w → v = w

section

variable {style : Style} {vars : VarTable} {vs : List Var} {e : Expr} {y : Expr}

theorem Operators.operand (h : Operators style vs e) {atom : List Char → Option Expr}
    {text : String} (hread : Reads atom text e.precedence y) (least : Nat) :
    Reads atom (operandText e least text) least y := by
  have htext : operandText e least text = if e.precedence < least then parens text else text := by
    cases h <;> rfl
  rw [htext]
  split_ifs with hlt
  · exact hread.parens least
  · exact hread.mono (Nat.le_of_not_lt hlt)

theorem Named.reads (h : Named vars vs) {v : Var} (hv : v ∈ vs) (level : Nat) :
    Reads (atom vars vs) (vars.name v) level (.var v) := by
  refine reads_word (h.word v hv) (h.keyword v hv) ?_ level
  unfold atom
  cases hfind : vs.find? fun w => (vars.name w).toList = (vars.name v).toList with
  | none => simpa using List.find?_eq_none.1 hfind v hv
  | some w =>
    have hname : (vars.name w).toList = (vars.name v).toList := by simpa using List.find?_some hfind
    rw [h.inj w (List.mem_of_find?_eq_some hfind) v hv (String.toList_inj.1 hname)]

theorem isWord_of_isDigit (h : c.isDigit = true) : isWord c = true := by
  have hdigits : ∀ n < 10, isWord (.ofNat (48 + n)) = true := by decide
  have hvals : 48 ≤ c.val ∧ c.val ≤ 57 := by simpa [Char.isDigit] using h
  have hrange : 48 ≤ c.toNat ∧ c.toNat ≤ 57 := hvals
  have hword := hdigits (c.toNat - 48) (by omega)
  rwa [Nat.add_sub_cancel' hrange.1, Char.ofNat_toNat] at hword

/-- A whole number that is not negative reads back as its literal. -/
theorem Named.reads_int (h : Named vars vs) {n : Int32} (hn : 0 ≤ n) (level : Nat) :
    Reads (atom vars vs) (toString n) level (.lit (.int n)) := by
  obtain ⟨m, hm⟩ := Int.eq_ofNat_of_zero_le (Int32.le_iff_toInt_le.1 hn)
  have htext : (toString n).toList = Nat.toDigits 10 m := by
    change (toString n.toInt).toList = _
    rw [hm]
    exact Nat.toList_repr
  have hdigits : ∀ c ∈ (toString n).toList, c.isDigit = true := by
    rw [htext]
    exact fun c hc => Nat.isDigit_of_mem_toDigits (by decide) (by decide) hc
  have hne : (toString n).toList ≠ [] := htext ▸ Nat.toDigits_ne_nil
  -- Neither keywords nor the names of variables start with a digit.
  have hother {text : String} (hhead : ∀ c ∈ text.toList.head?, c.isDigit = false) :
      text.toList ≠ (toString n).toList := by
    intro heq
    rw [heq] at hhead
    have hfirst := hhead _ (List.head?_eq_some_head hne)
    rw [hdigits _ (List.head_mem hne)] at hfirst
    cases hfirst
  have hkeywords : ∀ p ∈ primitives, ∀ c ∈ p.1.toList.head?, c.isDigit = false := by decide
  refine reads_word ⟨hne, fun c hc => isWord_of_isDigit (hdigits c hc)⟩ ?_ ?_ level
  · have hfind : primitives.find? (·.1.toList = (toString n).toList) = none :=
      List.find?_eq_none.2 fun p hp => by simpa using hother (hkeywords p hp)
    rw [primitive?, hfind]
    rfl
  · have hfind : vs.find? (fun v => (vars.name v).toList = (toString n).toList) = none :=
      List.find?_eq_none.2 fun v hv => by simpa using hother (h.digit v hv)
    rw [atom, hfind]
    dsimp only
    rw [if_pos (List.all_eq_true.2 hdigits), htext,
      Nat.ofDigitChars_toDigits (by decide) (by decide),
      ← Int32.ofInt_eq_ofNat, ← hm, Int32.ofInt_toInt]

/-- What is printed of an operator expression is read as the same tree. -/
theorem reads_render (hnames : Named vars vs) (he : Operators style vs e) :
    Reads (atom vars vs) (e.render style vars) e.precedence (bare style e) := by
  induction he with
  | var hv => exact hnames.reads hv _
  | int hn => exact hnames.reads_int hn _
  | unary op t he ih => exact (he.operand ih 13).unary op
  | @binary op a b t ha hb iha ihb =>
    refine Reads.between (Reading.binary op.symbol op.precedence op) (find?_binOp op)
      (lex_binOp op) ?_
      (ha.operand iha _) (hb.operand ihb _)
    cases op <;> decide
  | @compare op a b ha hb iha ihb =>
    refine Reads.between ⟨op.symbol, op.precedence,
      .compare op⟩ (find?_compareOp op) (lex_compareOp op) ?_
      (ha.operand iha _) (hb.operand ihb _)
    cases op <;> decide
  | @cast t e ht he ih =>
    refine (he.operand ih 13).castTo ?_
    cases t <;> first | exact Bool.noConfusion ht | simp [primitives, Style.ty, Ty.source]
  | instanceOf ht he ih => exact (he.operand ih 9).instanceOf ht
  | assign hv he ih => exact (hnames.reads hv 15).assign (he.operand ih 1)

/-- The text of an operator expression reads back, by the levels of the language, as the expression
that was printed. -/
theorem read_render_operators (style : Style) (vars : VarTable) (vs : List Var) (e : Expr)
    (hnames : Named vars vs) (he : Operators style vs e) :
    read? vars vs (e.render style vars) = some (bare style e) := by
  obtain ⟨qs, x, howed, heq⟩ := (reads_render hnames he).reads [] [] [] (by simp [Below]) (by simp)
  rw [List.append_nil] at heq
  rw [read?, heq, show lex [] = [] from rfl, readOperator, howed.settle_zero]
  rfl

end

/-- Two variables, `a` and `b`. -/
def twoVars : VarTable :=
  ⟨#[{ (default : VarDecl) with name := "a" }, { (default : VarDecl) with name := "b" }]⟩

/-- A difference of which the right side is a difference with a minus before a minus. -/
def nestedMinus : Expr :=
  .binary .sub (.var ⟨0⟩)
    (.binary .sub (.assign (.var ⟨1⟩) (.lit (.int 1)))
    (.unary .neg (.unary .neg (.var ⟨0⟩) .int) .int) .int) .int

theorem read_render_operators_nestedMinus :
    nestedMinus.render default twoVars = "a - ((b = 1) - -(-a))" ∧
      read? twoVars [⟨0⟩, ⟨1⟩] "a - ((b = 1) - -(-a))" = some (bare default nestedMinus) := by
  have htext : nestedMinus.render default twoVars = "a - ((b = 1) - -(-a))" := by decide +kernel
  have hnames : Named twoVars [⟨0⟩, ⟨1⟩] := by
    refine ⟨fun v hv => ⟨?_, ?_⟩, ?_, ?_, ?_⟩
    · revert v
      decide
    · revert v
      decide
    · decide
    · decide
    · decide
  have he : Operators default [⟨0⟩, ⟨1⟩] nestedMinus :=
    .binary _ _ (.var (by decide)) (.binary _ _ (.assign (by decide) (.int (by decide)))
      (.unary _ _ (.unary _ _ (.var (by decide)))))
  refine ⟨htext, ?_⟩
  have hread := read_render_operators default twoVars [⟨0⟩, ⟨1⟩] nestedMinus hnames he
  rwa [htext] at hread

end ByteLift.Reading
