import ByteLift.Source.Printer.Expr
import ByteLift.Stmt.Basic

/-!
# Printing statements

Each statement takes its own lines, indented by the depth of the blocks around it. Statements are
printed as they stand, so flat code shows its labels and gotos. A label stands one step to the left
of the statements around it; behind a label at the left margin the statements move one step to the
right.
-/

namespace ByteLift

/-- The names of a method's variables and labels. -/
structure NameTables where
  vars : VarTable
  labels : LabelTable

/-- The indentation of a line. -/
def Style.margin (style : Style) (level : Nat) : String :=
  String.join (List.replicate level style.indent)

/-- A line of source. -/
def Style.line (style : Style) (level : Nat) (text : String) : String :=
  style.margin level ++ text ++ "\n"

/-- A jump that may name a label. -/
def jumpText (names : NameTables) (keyword : String) : Option Label → String
  | some l => keyword ++ " " ++ names.labels.name l ++ ";"
  | none => keyword ++ ";"

/-- The depth at which the statements behind a statement are printed. -/
def levelBehind (level : Nat) : Stmt → Nat
  | .label _ => max level 1
  | _ => level

/-- The declaration of a variable, without its value. -/
def declarationText (style : Style) (names : NameTables) (v : Var) : String :=
  let decl := names.vars.get v
  (if decl.isFinal then "final " else "") ++ style.ty decl.ty ++ " " ++ decl.name

mutual

/-- The lines of a statement. -/
def Stmt.render (style : Style) (names : NameTables) (level : Nat) : Stmt → String
  | .expr e => style.line level (e.render style names.vars ++ ";")
  | .declare v none => style.line level (declarationText style names v ++ ";")
  | .declare v (some e) =>
    style.line level (declarationText style names v ++ " = " ++ e.render style names.vars ++ ";")
  | .ite c a b =>
    style.margin level ++ "if (" ++ c.render style names.vars ++ ") \x7b\n"
      ++ Stmt.renderList style names (level + 1) a ++ Stmt.renderElse style names level b
  | .loop l c a =>
    let mark := match l with
      | some l => names.labels.name l ++ ": "
      | none => ""
    style.line level (mark ++ "while (" ++ c.render style names.vars ++ ") \x7b")
      ++ Stmt.renderList style names (level + 1) a ++ style.line level "\x7d"
  | .breakLoop l => style.line level (jumpText names "break" l)
  | .continueLoop l => style.line level (jumpText names "continue" l)
  | .ret none => style.line level "return;"
  | .ret (some e) => style.line level ("return " ++ e.render style names.vars ++ ";")
  | .throw e => style.line level ("throw " ++ e.render style names.vars ++ ";")
  | .block a =>
    style.line level "\x7b" ++ Stmt.renderList style names (level + 1) a ++ style.line level "\x7d"
  | .label l => style.line (level - 1) (names.labels.name l ++ ":")
  | .goto l none => style.line level ("goto " ++ names.labels.name l ++ ";")
  | .goto l (some c) =>
    style.line level
      ("if (" ++ c.render style names.vars ++ ") goto " ++ names.labels.name l ++ ";")

/-- The end of a branch, from behind its first arm on. A branch in the second arm goes on in the
same line. -/
def Stmt.renderElse (style : Style) (names : NameTables) (level : Nat) : Block → String
  | [] => style.line level "\x7d"
  | [.ite c a b] =>
    style.margin level ++ "\x7d else if (" ++ c.render style names.vars ++ ") \x7b\n"
      ++ Stmt.renderList style names (level + 1) a ++ Stmt.renderElse style names level b
  | s :: ss =>
    style.line level "\x7d else \x7b" ++ Stmt.render style names (level + 1) s
      ++ Stmt.renderList style names (levelBehind (level + 1) s) ss ++ style.line level "\x7d"

/-- The lines of a block. -/
def Stmt.renderList (style : Style) (names : NameTables) (level : Nat) : Block → String
  | [] => ""
  | s :: ss =>
    Stmt.render style names level s ++ Stmt.renderList style names (levelBehind level s) ss

end

/-- The lines of a block, from the left margin. -/
def Block.render (style : Style) (names : NameTables) (b : Block) : String :=
  Stmt.renderList style names 0 b

end ByteLift
