import ByteLift.Source.Tree

/-!
# Class names and class trees

What the parts of a class name say, and the classes of a tree, at any depth. The class around a
class has a shorter name, so following the names outwards ends.
-/

namespace ByteLift

namespace ClassName

variable {c : Char} {n m : String} {xs pkg simple : List Char}

theorem splitLast_eq_none : splitLast c xs = none ↔ c ∉ xs := by
  induction xs with
  | nil => simp [splitLast]
  | cons x xs ih => grind [splitLast]

theorem splitLast_eq_some {before after : List Char} :
    splitLast c xs = some (before, after) ↔ xs = before ++ c :: after ∧ c ∉ after := by
  induction xs generalizing before with
  | nil => simp [splitLast]
  | cons x xs ih => cases before <;> grind [splitLast, splitLast_eq_none]

/-- The package of a name ends with its last `/`. -/
theorem splitPackage_eq : splitPackage xs = (pkg, simple) ↔
    xs = pkg ++ simple ∧ '/' ∉ simple ∧ (pkg = [] ∨ ∃ parts, pkg = parts ++ ['/']) := by
  unfold splitPackage
  constructor
  · intro h
    split at h <;> cases h
    · rename_i parts hsplit
      obtain ⟨rfl, hsimple⟩ := splitLast_eq_some.1 hsplit
      exact ⟨by simp, hsimple, .inr ⟨parts, rfl⟩⟩
    · rename_i hsplit
      exact ⟨rfl, splitLast_eq_none.1 hsplit, .inl rfl⟩
  · rintro ⟨rfl, hsimple, rfl | ⟨parts, rfl⟩⟩
    · rw [List.nil_append, splitLast_eq_none.2 hsimple]
    · rw [splitLast_eq_some.2 ⟨List.append_cons .. |>.symm, hsimple⟩]

/-- The class around a class is cut off at the last `$` that does not start the simple name. -/
theorem outer?_eq_some :
    outer? n = some m ↔ ∃ x rest after, (splitPackage n.toList).2 = x :: rest ++ '$' :: after ∧
    '$' ∉ after ∧ m.toList = (splitPackage n.toList).1 ++ x :: rest := by
  simp only [outer?]
  constructor
  · intro h
    split at h
    · rename_i x rest after hsplit
      obtain ⟨hsimple, hafter⟩ := splitLast_eq_some.1 hsplit
      refine ⟨x, rest, after, hsimple, hafter, ?_⟩
      rw [← Option.some.inj h, String.toList_ofList]
    · cases h
  · rintro ⟨x, rest, after, hsimple, hafter, hm⟩
    rw [splitLast_eq_some.2 ⟨hsimple, hafter⟩]
    simp [← hm]

theorem length_lt_of_outer? (h : outer? n = some m) : m.length < n.length := by
  obtain ⟨x, rest, after, hsimple, _, hm⟩ := outer?_eq_some.1 h
  have hn := (splitPackage_eq.1 (Prod.eta (splitPackage n.toList)).symm).1
  have hmlen := congrArg List.length hm
  have hnlen := congrArg List.length hn
  simp only [hsimple, List.length_append, List.length_cons, String.length_toList] at hmlen hnlen
  omega

end ClassName

namespace ClassDecl

mutual

/-- A class and all classes nested in it, each before those nested in it. -/
def nodes : ClassDecl → List ClassDecl
  | ⟨name, package, superClass, interfaces, access, outer, isStatic, fields, methods, inner⟩ =>
    ⟨name, package, superClass, interfaces, access, outer, isStatic, fields, methods,
      inner⟩ :: nodesList inner

/-- The classes of a list and all classes nested in them. -/
def nodesList : List ClassDecl → List ClassDecl
  | [] => []
  | c :: cs => c.nodes ++ nodesList cs

end

theorem nodesList_eq_flatMap (cs : List ClassDecl) : nodesList cs = cs.flatMap nodes := by
  induction cs with
  | nil => rfl
  | cons c cs ih => rw [nodesList, ih, List.flatMap_cons]

/-- The classes nested in a class, at any depth. -/
def descendants (c : ClassDecl) : List ClassDecl := c.inner.flatMap nodes

theorem nodes_eq (c : ClassDecl) : c.nodes = c :: c.descendants := by
  rw [descendants, ← nodesList_eq_flatMap]
  cases c
  rw [nodes]

theorem self_mem_nodes (c : ClassDecl) : c ∈ c.nodes := by
  rw [nodes_eq]
  exact List.mem_cons_self

/-- What holds of a class if it holds of the classes nested directly in it holds of every class. -/
theorem nestedInduction {P : ClassDecl → Prop} (step : ∀ c, (∀ d ∈ c.inner, P d) → P c)
    (c : ClassDecl) : P c :=
  step c fun d hd =>
    have : sizeOf d < sizeOf c := by
      have := List.sizeOf_lt_of_mem hd
      cases c
      simp only [mk.sizeOf_spec] at this ⊢
      omega
    nestedInduction step d
termination_by sizeOf c

theorem mem_descendants_of_mem_inner {c : ClassDecl} :
    ∀ m ∈ c.nodes, ∀ d ∈ m.inner, d ∈ c.descendants := by
  induction c using nestedInduction with
  | step c ih =>
    intro m hm d hd
    rw [nodes_eq, List.mem_cons] at hm
    rcases hm with rfl | hm
    · exact List.mem_flatMap.2 ⟨d, hd, d.self_mem_nodes⟩
    · obtain ⟨e, he, hm⟩ := List.mem_flatMap.1 hm
      exact List.mem_flatMap.2 ⟨e, he,
        by rw [nodes_eq]; exact List.mem_cons_of_mem _ (ih e he m hm d hd)⟩

end ClassDecl

end ByteLift
