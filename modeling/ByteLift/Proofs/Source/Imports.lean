import Mathlib.Data.List.TakeWhile
import Mathlib.Logic.Relation
import ByteLift.Proofs.Source.ClassTree
import ByteLift.Proofs.Variables.Uses
import ByteLift.Source.Imports

/-!
# Imports

A class imports the top-level classes of all classes that it and the classes nested in it name,
`Names`; the top-level class is found by going outwards as long as there is a class around. The
imports are cut out of the names at the first `$` instead. The two agree unless a package or a
top-level class has a `$` in the wrong place.
-/

namespace ByteLift

open List

/-! ## Names in code -/

inductive Ty.Names : Ty → String → Prop
  | ref (n : String) : Names (.ref n) n
  | array {t : Ty} {n : String} : t.Names n → Names (.array t) n

/-- An expression names classes by itself or in its parts. -/
inductive Expr.Names : Expr → String → Prop
  | alloc (n : String) : Names (.alloc n) n
  | outerThis (n : String) : Names (.outerThis n) n
  | new (m : MethodRef) (args : List Expr) : Names (.new m args) m.owner
  | staticCall (k : InvokeKind) (m : MethodRef) (args : List Expr) :
  Names (.staticCall k m args) m.owner
  | staticField (f : FieldRef) : Names (.staticField f) f.owner
  | cast {t : Ty} {n : String} (e : Expr) : t.Names n → Names (.cast t e) n
  | instanceOf {t : Ty} {n : String} (e : Expr) : t.Names n → Names (.instanceOf e t) n
  | newArray {t : Ty} {n : String} (dims : List Expr) : t.Names n → Names (.newArray t dims) n
  | classOf {t : Ty} {n : String} : t.Names n → Names (.lit (.classOf t)) n
  | part {d e : Expr} {n : String} : d ∈ e.children → d.Names n → e.Names n

/-- A class names classes in its head, in the declarations and the code of its members, and in the
classes nested in it. -/
inductive ClassDecl.Names : ClassDecl → String → Prop
  | superClass {c n} : c.superClass = some n → Names c n
  | interface {c n} : n ∈ c.interfaces → Names c n
  | field {c f n} : f ∈ c.fields → f.ty.Names n → Names c n
  | result {c m n} : m ∈ c.methods → m.returnType.Names n → Names c n
  | exception {c m n} : m ∈ c.methods → n ∈ m.exceptions → Names c n
  | variable {c m v n} : m ∈ c.methods → v ∈ m.vars.vars → (m.vars.ty v).Names n → Names c n
  | body {c m body s e n} :
  m ∈ c.methods → m.body = some body → s ∈ body.block.stmts → e ∈ s.exprs → e.Names n →
      Names c n
  | nested {c d n} : d ∈ c.inner → d.Names n → Names c n

variable {n m : String} {xs : List Char}

theorem Ty.mem_classes_iff (t : Ty) : n ∈ t.classes ↔ t.Names n := by
  constructor
  · intro h
    induction t with
    | ref name => exact mem_singleton.1 h ▸ .ref name
    | array t ih => exact .array (ih h)
    | _ => cases h
  · intro h
    induction h with
    | ref n => exact mem_singleton_self n
    | array _ ih => exact ih

/-- An expression names what one of its subexpressions names itself. -/
theorem Expr.names_iff (e : Expr) : e.Names n ↔ ∃ d ∈ e.subexprs, n ∈ d.ownClasses := by
  constructor
  · intro h
    induction h with
    | @part d e n hd _ ih =>
      obtain ⟨x, hx, hn⟩ := ih
      refine ⟨x, ?_, hn⟩
      rw [subexprs_eq]
      exact mem_cons_of_mem _ (mem_flatMap.2 ⟨d, hd, hx⟩)
    | _ =>
      exact ⟨_, by rw [subexprs_eq]; exact mem_cons_self,
        by simp_all [ownClasses, Ty.mem_classes_iff]⟩
  · rintro ⟨d, hd, hn⟩
    induction e using childrenInduction with
    | step e ih =>
      rw [subexprs_eq, mem_cons, mem_flatMap] at hd
      rcases hd with rfl | ⟨x, hx, hd⟩
      · cases d with
        | alloc | outerThis | new | staticCall | staticField =>
          rw [mem_singleton.1 hn]
          constructor
        | cast t e => exact .cast e (t.mem_classes_iff.1 hn)
        | instanceOf e t => exact .instanceOf e (t.mem_classes_iff.1 hn)
        | newArray t dims => exact .newArray dims (t.mem_classes_iff.1 hn)
        | lit l =>
          cases l with
          | classOf t => exact .classOf (t.mem_classes_iff.1 hn)
          | _ => cases hn
        | _ => cases hn
      · exact .part hx (ih x hx hd)

theorem ClassDecl.classesList_eq_flatMap (cs : List ClassDecl) :
    classesList cs = cs.flatMap classes := by
  induction cs with
  | nil => rfl
  | cons c cs ih => rw [classesList, ih, flatMap_cons]

theorem MethodDecl.mem_classes_iff (d : MethodDecl) :
    n ∈ d.classes ↔ d.returnType.Names n ∨ n ∈ d.exceptions ∨
    (∃ v ∈ d.vars.vars, (d.vars.ty v).Names n) ∨
    ∃ body, d.body = some body ∧ ∃ s ∈ body.block.stmts, ∃ e ∈ s.exprs, e.Names n := by
  unfold classes
  cases d.body with
  | none => simp [Ty.mem_classes_iff]
  | some body =>
    simp [Ty.mem_classes_iff, Block.exprs, Expr.names_iff]
    grind

theorem ClassDecl.mem_classes (c : ClassDecl) :
    n ∈ c.classes ↔ c.superClass = some n ∨ n ∈ c.interfaces ∨
    (∃ f ∈ c.fields, f.ty.Names n) ∨ (∃ d ∈ c.methods, n ∈ d.classes) ∨ ∃ d ∈ c.inner,
      n ∈ d.classes := by
  cases c
  simp [classes, classesList_eq_flatMap, Ty.mem_classes_iff]

/-- The classes that are collected are those that are named. -/
theorem ClassDecl.mem_classes_iff (c : ClassDecl) : n ∈ c.classes ↔ c.Names n := by
  constructor
  · induction c using nestedInduction with
    | step c ih =>
      rw [mem_classes]
      rintro (h | h | ⟨f, hf, h⟩ | ⟨d, hd, h⟩ | ⟨d, hd, h⟩)
      · exact .superClass h
      · exact .interface h
      · exact .field hf h
      · rcases d.mem_classes_iff.1 h with h | h | ⟨v, hv, h⟩ | ⟨body, hbody, s, hs, e, he, h⟩
        · exact .result hd h
        · exact .exception hd h
        · exact .variable hd hv h
        · exact .body hd hbody hs he h
      · exact .nested hd (ih d hd h)
  · intro h
    induction h with
    | superClass h => exact (mem_classes _).2 (.inl h)
    | interface h => exact (mem_classes _).2 (.inr (.inl h))
    | field hf h => exact (mem_classes _).2 (.inr (.inr (.inl ⟨_, hf, h⟩)))
    | nested hd _ ih => exact (mem_classes _).2 (.inr (.inr (.inr (.inr ⟨_, hd, ih⟩))))
    | _ =>
      refine (mem_classes _).2 (.inr (.inr
        (.inr (.inl ⟨_, ‹_ ∈ ClassDecl.methods _›, (MethodDecl.mem_classes_iff _).2 ?_⟩))))
      grind

/-! ## Top-level classes -/

namespace ClassName

/-- Going outwards from one class ends at the other. -/
def Outermost (n m : String) : Prop :=
  Relation.ReflTransGen (fun n m => outer? n = some m) n m ∧ outer? m = none

/-- A name without what follows the first `$` that does not start its simple part. -/
def outermost (xs : List Char) : List Char :=
  (splitPackage xs).1 ++ (splitPackage xs).2.take
    1 ++ ((splitPackage xs).2.drop 1).takeWhile (· ≠ '$')

/-- A name is plain if only `$` signs inside its simple part divide it. -/
def Plain (n : String) : Prop :=
  if n.toList.head? = some '$' then '$' ∉ (splitPackage n.toList).2.tail
  else '$' ∉ (splitPackage n.toList).1 ∧ (splitPackage n.toList).2.head? ≠ some '$'

/-- A part without `$` is not cut. -/
theorem ne_dollar (h : '$' ∉ xs) : ∀ x ∈ xs, decide (x ≠ '$') = true :=
  fun _ hx => decide_eq_true (ne_of_mem_of_not_mem hx h)

theorem outermost_eq {pkg s : List Char} (h : splitPackage xs = (pkg, s)) :
    outermost xs = pkg ++ (s.take 1 ++ (s.drop 1).takeWhile (· ≠ '$')) := by
  rw [outermost, h, append_assoc]

theorem outermost_of_none (h : outer? n = none) : outermost n.toList = n.toList := by
  cases hsplit : splitPackage n.toList with
  | mk pkg s =>
    rw [outermost_eq hsplit, (splitPackage_eq.1 hsplit).1]
    cases s with
    | nil => rfl
    | cons x rest =>
      have hrest : '$' ∉ rest := by
        intro hmem
        obtain ⟨parts, hparts⟩ :=
          Option.ne_none_iff_exists'.1 (mt splitLast_eq_none.1 (not_not_intro hmem))
        obtain ⟨rfl, hafter⟩ := splitLast_eq_some.1 hparts
        rw [outer?_eq_some.2 ⟨x, parts.1, parts.2, by rw [hsplit]; rfl, hafter,
          String.toList_ofList⟩] at h
        cases h
      rw [drop_one, tail_cons, takeWhile_eq_self_iff.2 (ne_dollar hrest)]
      rfl

theorem outermost_of_some (h : outer? n = some m) : outermost n.toList = outermost m.toList := by
  obtain ⟨x, rest, after, hsimple, _, hm⟩ := outer?_eq_some.1 h
  cases hsplit : splitPackage n.toList with
  | mk pkg s =>
    simp only [hsplit] at hsimple hm
    obtain ⟨_, hslash, hpkg⟩ := splitPackage_eq.1 hsplit
    have hsplit' : splitPackage m.toList = (pkg, x :: rest) :=
      splitPackage_eq.2 ⟨hm, by grind, hpkg⟩
    rw [outermost_eq hsplit, outermost_eq hsplit', hsimple, cons_append, drop_one,
      drop_one, tail_cons, tail_cons, takeWhile_append]
    split
    · rename_i hlength
      rw [(List.takeWhile_prefix _).eq_of_length hlength, takeWhile_cons_of_neg (by simp),
        append_nil]
      rfl
    · rfl

theorem outermost_iff : Outermost n m ↔ m.toList = outermost n.toList := by
  constructor
  · rintro ⟨hreach, hm⟩
    rw [← outermost_of_none hm]
    induction hreach using Relation.ReflTransGen.head_induction_on with
    | refl => rfl
    | head hstep _ ih => rw [ih, outermost_of_some hstep]
  · intro h
    induction hn : n.length using Nat.strongRecOn generalizing n with
    | ind k ih =>
      cases houter : outer? n with
      | none =>
        obtain rfl : m = n := String.toList_inj.1 (h.trans (outermost_of_none houter))
        exact ⟨.refl, houter⟩
      | some o =>
        have := length_lt_of_outer? houter
        obtain ⟨hreach, hm⟩ := ih o.length (by omega) (h.trans (outermost_of_some houter)) rfl
        exact ⟨hreach.head houter, hm⟩

theorem topLevel_of_dollar (h : n.toList.head? = some '$') : topLevel n = n := by
  obtain ⟨rest, hn⟩ := head?_eq_some_iff.1 h
  rw [topLevel, hn, takeWhile_cons_of_neg (by simp)]

theorem toList_topLevel (h : n.toList.head? ≠ some '$') :
    (topLevel n).toList = n.toList.takeWhile (· ≠ '$') := by
  rw [topLevel]
  split
  · rename_i htake
    cases hn : n.toList with
    | nil => rfl
    | cons x rest =>
      rw [hn, takeWhile_cons_of_pos (by simpa [hn] using h)] at htake
      cases htake
  · exact String.toList_ofList

/-- The cut at the first `$` finds the top-level class of just the plain names. -/
theorem outermost_topLevel : Outermost n (topLevel n) ↔ Plain n := by
  have hcut (xs : List Char) : '$' ∉ xs.takeWhile (· ≠ '$') := fun h => by
    simpa using all_eq_true.1 all_takeWhile _ h
  rw [outermost_iff]
  cases hsplit : splitPackage n.toList with
  | mk pkg s =>
    have hn := (splitPackage_eq.1 hsplit).1
    rw [outermost_eq hsplit, Plain, hsplit]
    by_cases hhead : n.toList.head? = some '$'
    · rw [topLevel_of_dollar hhead, if_pos hhead, hn, append_cancel_left_eq]
      cases s with
      | nil => simp
      | cons x rest =>
        refine ⟨fun h => ?_, fun h => ?_⟩
        · rw [tail_cons, (List.cons.inj h).2]
          exact hcut rest
        · rw [drop_one, tail_cons,
            takeWhile_eq_self_iff.2 (ne_dollar (show '$' ∉ rest from h))]
          rfl
    · rw [toList_topLevel hhead, if_neg hhead, hn]
      by_cases hpkg : '$' ∈ pkg
      · refine ⟨fun h => absurd ?_ (hcut (pkg ++ s)), fun h => absurd hpkg h.1⟩
        rw [h]
        exact mem_append_left _ hpkg
      · rw [takeWhile_append_of_pos (ne_dollar hpkg), append_cancel_left_eq]
        cases s with
        | nil => simpa using hpkg
        | cons x rest =>
          by_cases hx : x = '$'
          · simp [hx]
          · simp [hx, hpkg]

end ClassName

open ClassName

/-- The imports of a class ascend, and they are the cuts of the classes that are named somewhere in
the tree, as far as these belong to a package other than that of the class and `java/lang`. A cut is
the top-level class for plain names and for no others. So with plain names only, the imports are
exactly the top-level classes from outside. -/
theorem ClassDecl.imports_outermost (c : ClassDecl) :
    c.imports.Pairwise (· < ·) ∧
    (∀ m, m ∈ c.imports ↔ (∃ n, c.Names n ∧ topLevel n = m) ∧
      ∃ pkg, package? m = some pkg ∧ package? c.name ≠ some pkg ∧ pkg ≠ "java/lang") ∧
    (∀ n, Outermost n (topLevel n) ↔ Plain n) ∧
    ((∀ n, c.Names n → Plain n) → ∀ m, m ∈ c.imports ↔ (∃ n, c.Names n ∧ Outermost n m) ∧
      ∃ pkg, package? m = some pkg ∧ package? c.name ≠ some pkg ∧ pkg ≠ "java/lang") := by
  have hneeds (m : String) : needsImport (package? c.name) m = true ↔
      ∃ pkg, package? m = some pkg ∧ package? c.name ≠ some pkg ∧ pkg ≠ "java/lang" := by
    unfold needsImport
    cases package? m <;> simp
  have himports (m : String) : m ∈ c.imports ↔ (∃ n, c.Names n ∧ topLevel n = m) ∧
      ∃ pkg, package? m = some pkg ∧ package? c.name ≠ some pkg ∧ pkg ≠ "java/lang" := by
    rw [imports, sortNames, mem_sortAscending, mem_filter, mem_map, hneeds]
    simp only [mem_classes_iff]
  refine ⟨pairwise_sortAscending _, himports, fun n => outermost_topLevel, fun hplain m => ?_⟩
  rw [himports]
  refine and_congr_left' (exists_congr fun n => and_congr_right fun hn => ?_)
  have htop := outermost_topLevel.2 (hplain n hn)
  constructor
  · rintro rfl
    exact htop
  · intro hm
    exact String.toList_inj.1 ((outermost_iff.1 htop).trans (outermost_iff.1 hm).symm)

/-- An interface whose simple name starts with a `$` is not imported; the cut leaves its package. -/
theorem ClassDecl.imports_leading_dollar :
    let c : ClassDecl := ⟨"a/T", none, none, ["b/$Types"], ⟨0x21⟩, none, false, [], [], []⟩
    c.Names "b/$Types" ∧ Outermost "b/$Types" "b/$Types" ∧ c.imports = ["b/"] := by
  refine ⟨.interface (mem_singleton_self _), ⟨.refl, by decide +kernel⟩, by decide +kernel⟩

end ByteLift
