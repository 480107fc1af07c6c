import ByteLift.Proofs.Catalog.Session
import Mathlib.Data.List.Flatten
import Mathlib.Logic.Relation

/-!
# Which member a reference means

Links lead from a class to its superclass and to its interfaces, perhaps in circles or to an unknown
class. A search never follows the links of a class twice, and still misses none: the names it has
looked up are closed under the links of known classes. So it finds a member exactly if some class on
the way declares one, the nearest first, after no more lookups than there are links.
-/

namespace ByteLift

open Relation ClassInfo

/-! ## Links -/

section

variable {α : Type} {find : String → Option ClassInfo} {give : ClassInfo → Option α}
  {u : List String} {name owner : String} {info : ClassInfo} {a : α}

/-- A class that is found has another as its superclass. -/
def SuperLink (find : String → Option ClassInfo) (a b : String) : Prop :=
  ∃ info, find a = some info ∧ info.superName = some b

/-- A class that is found has another among its interfaces. -/
def InterfaceLink (find : String → Option ClassInfo) (a b : String) : Prop :=
  ∃ info, find a = some info ∧ b ∈ info.interfaces

/-- What is found is the class of a name or one of its superclasses. -/
def InChain (find : String → Option ClassInfo) (owner : String) (info : ClassInfo) : Prop :=
  ∃ name, ReflTransGen (SuperLink find) owner name ∧ find name = some info

/-- What is found is an interface of the class of a name, of one of its superclasses, or of such an
interface. -/
def InterfaceAbove (find : String → Option ClassInfo) (owner : String) (info : ClassInfo) : Prop :=
  ∃ name above, ReflTransGen (SuperLink find) owner name ∧
    TransGen (InterfaceLink find) name above ∧
    find above = some info

/-- The class that stands a number of superclasses above the class of a name. -/
def ancestor? (find : String → Option ClassInfo) : Nat → String → Option ClassInfo
  | 0, name => find name
  | n + 1, name => ((find name).bind superName).bind (ancestor? find n)

theorem inChain_of_ancestor? {n : Nat} (h : ancestor? find n name = some info) :
    InChain find name info := by
  induction n generalizing name with
  | zero => exact ⟨name, .refl, h⟩
  | succ n ih =>
    obtain ⟨up, hup, hinfo⟩ := Option.bind_eq_some_iff.1 h
    obtain ⟨below, hbelow, hsuper⟩ := Option.bind_eq_some_iff.1 hup
    obtain ⟨top, hpath, htop⟩ := ih hinfo
    exact ⟨top, .head ⟨below, hbelow, hsuper⟩ hpath, htop⟩

/-! ## The chain of superclasses -/

/-- The classes of a chain are listed from the nearest on. -/
theorem ancestor?_of_superChain {i : Nat} (h : (superChain find u name).answer[i]? = some info) :
    ancestor? find i name = some info := by
  fun_induction superChain find u name generalizing i with
  | case1 => cases h
  | case2 u name found hfind hmem hup =>
    cases i with
    | zero =>
      cases h
      exact hfind
    | succ i => cases h
  | case3 u name found hfind hmem up hup above =>
    rename_i ih
    cases i with
    | zero =>
      cases h
      exact hfind
    | succ i => simpa [ancestor?, hfind, hup] using ih h
  | case4 => cases h

theorem mem_visited_superChain (find : String → Option ClassInfo) (u : List String)
    (name : String) : name ∈ (superChain find u name).visited := by
  fun_cases superChain find u name <;> simp [*]

/-- What was expanded on the way up stands in the answer, and the name above it was looked up. -/
theorem superChain_closed {below : String} (h : below ∈ (superChain find u name).visited)
    (hu : below ∈ u) (hfind : find below = some info) :
    info ∈ (superChain find u name).answer ∧
      ∀ up, info.superName = some up → up ∈ (superChain find u name).visited := by
  fun_induction superChain find u name with
  | case1 u name hnone =>
    obtain rfl := List.mem_singleton.1 h
    rw [hnone] at hfind
    cases hfind
  | case2 u name found hfound hmem hup =>
    obtain rfl := List.mem_singleton.1 h
    cases hfound.symm.trans hfind
    exact ⟨List.mem_cons_self, by simp [hup]⟩
  | case3 u name found hfound hmem up hup above =>
    rename_i ih
    by_cases hbelow : below = name
    · subst hbelow
      cases hfound.symm.trans hfind
      refine ⟨List.mem_cons_self, fun up' hup' => ?_⟩
      cases hup.symm.trans hup'
      exact List.mem_cons_of_mem _ (mem_visited_superChain _ _ _)
    · have hlater :=
        ih ((List.mem_cons.1 h).resolve_left hbelow) (List.mem_filter.2 ⟨hu, by simpa using hbelow⟩)
      exact ⟨List.mem_cons_of_mem _ hlater.1,
        fun up' hup' => List.mem_cons_of_mem _ (hlater.2 up' hup')⟩
  | case4 u name found hfound hmem =>
    obtain rfl := List.mem_singleton.1 h
    exact absurd hu hmem

/-- The chain holds the class of a name and all its superclasses. -/
theorem mem_superChain_iff (hu : ∀ name info, find name = some info → name ∈ u) :
    info ∈ (superChain find u owner).answer ↔ InChain find owner info := by
  constructor
  · intro h
    obtain ⟨i, hi⟩ := List.mem_iff_getElem?.1 h
    exact inChain_of_ancestor? (ancestor?_of_superChain hi)
  · rintro ⟨name, hpath, hname⟩
    have hvisited : name ∈ (superChain find u owner).visited := by
      clear hname
      induction hpath with
      | refl => exact mem_visited_superChain find u owner
      | tail _ hlink ih =>
        obtain ⟨below, hbelow, hup⟩ := hlink
        exact (superChain_closed ih (hu _ _ hbelow) hbelow).2 _ hup
    exact (superChain_closed hvisited (hu _ _ hname) hname).1

/-! ## Interfaces -/

variable {names : List String}

/-- What a search among interfaces answers is given by an interface that links lead to. -/
theorem interface_of_searchInterfaces (h : (searchInterfaces find give u names).answer = some a) :
    ∃ name ∈ names, ∃ above info, ReflTransGen (InterfaceLink find) name above ∧
      find above = some info ∧ give info = some a := by
  fun_induction searchInterfaces find give u names with
  | case1 => cases h
  | case2 u name rest hnone later =>
    rename_i ih
    obtain ⟨next, hnext, hrest⟩ := ih h
    exact ⟨next, List.mem_cons_of_mem _ hnext, hrest⟩
  | case3 u name rest found hfound hmem b hgive =>
    cases h
    exact ⟨name, List.mem_cons_self, name, found, .refl, hfound, hgive⟩
  | case4 u name rest found hfound hmem hgive later =>
    rename_i ih
    obtain ⟨next, hnext, above, info, hpath, hrest⟩ := ih h
    rcases List.mem_append.1 hnext with hnext | hnext
    · exact ⟨name, List.mem_cons_self, above, info, .head ⟨found, hfound, hnext⟩ hpath, hrest⟩
    · exact ⟨next, List.mem_cons_of_mem _ hnext, above, info, hpath, hrest⟩
  | case5 u name rest found hfound hmem ih =>
    obtain ⟨next, hnext, hrest⟩ := ih h
    exact ⟨next, List.mem_cons_of_mem _ hnext, hrest⟩

/-- A name was looked up in a search, or had been visited before it. -/
def Handled (u visited : List String) (name : String) : Prop := name ∈ visited ∨ name ∉ u

theorem Handled.cons {visited : List String} {other : String}
    (h : Handled (without u name) visited other) : Handled u (name :: visited) other := by
  by_cases hother : other = name
  · exact .inl (List.mem_cons.2 (.inl hother))
  · rcases h with h | h
    · exact .inl (List.mem_cons_of_mem _ h)
    · exact .inr fun hu => h (List.mem_filter.2 ⟨hu, by simpa using hother⟩)

/-- A search among interfaces that comes to nothing has handled the names it was given. It has asked
each class that it expanded, and has handled the interfaces of that class. -/
theorem searchInterfaces_closed (h : (searchInterfaces find give u names).answer = none) :
    (∀ name ∈ names, Handled u (searchInterfaces find give u names).visited name) ∧
    ∀ below ∈ (searchInterfaces find give u names).visited, below ∈ u → ∀ info,
      find below = some info →
      give info = none ∧ ∀ above ∈ info.interfaces,
        Handled u (searchInterfaces find give u names).visited above := by
  fun_induction searchInterfaces find give u names with
  | case1 => simp
  | case2 u first rest hnone later =>
    rename_i ih
    obtain ⟨hrest, hclosed⟩ := ih h
    have hcons (name : String) (h : Handled u later.visited name) :
      Handled u (first :: later.visited) name :=
      h.imp_left (List.mem_cons_of_mem _)
    refine ⟨List.forall_mem_cons.2 ⟨.inl List.mem_cons_self,
      fun name hname => hcons name (hrest name hname)⟩,
      List.forall_mem_cons.2 ⟨fun _ _ hfind => ?_, fun below hbelow hu info hfind => ?_⟩⟩
    · cases hnone.symm.trans hfind
    · exact (hclosed below hbelow hu info hfind).imp_right fun habove above h =>
        hcons above (habove above h)
  | case3 => cases h
  | case4 u first rest found hfound hmem hgive later =>
    rename_i ih
    obtain ⟨hnames, hclosed⟩ := ih h
    rw [List.forall_mem_append] at hnames
    refine ⟨List.forall_mem_cons.2 ⟨.inl List.mem_cons_self,
      fun name hname => (hnames.2 name hname).cons⟩, fun below hbelow hu info hfind => ?_⟩
    by_cases hfirst : below = first
    · subst hfirst
      cases hfound.symm.trans hfind
      exact ⟨hgive, fun above habove => (hnames.1 above habove).cons⟩
    · have hlater := hclosed below ((List.mem_cons.1 hbelow).resolve_left hfirst)
        (List.mem_filter.2 ⟨hu, by simpa using hfirst⟩) info hfind
      exact hlater.imp_right fun habove above h => (habove above h).cons
  | case5 u first rest found hfound hmem ih =>
    obtain ⟨hrest, hclosed⟩ := ih h
    exact ⟨List.forall_mem_cons.2 ⟨.inr hmem, hrest⟩, hclosed⟩

/-- If the search comes to nothing, no interface that links lead to gives an answer. -/
theorem give_eq_none_of_searchInterfaces {above : String}
    (hu : ∀ name info, find name = some info → name ∈ u)
    (h : (searchInterfaces find give u names).answer = none) (hname : name ∈ names)
    (hpath : ReflTransGen (InterfaceLink find) name above) (hfind : find above = some info) :
    give info = none := by
  obtain ⟨hnames, hclosed⟩ := searchInterfaces_closed h
  have hhandled : Handled u (searchInterfaces find give u names).visited above := by
    clear hfind
    induction hpath with
    | refl => exact hnames name hname
    | tail _ hlink ih =>
      obtain ⟨below, hbelow, habove⟩ := hlink
      have hvisited := ih.resolve_right (not_not_intro (hu _ _ hbelow))
      exact (hclosed _ hvisited (hu _ _ hbelow) below hbelow).2 _ habove
  have hvisited := hhandled.resolve_right (not_not_intro (hu _ _ hfind))
  exact (hclosed above hvisited (hu _ _ hfind) info hfind).1

/-- What a search in rows of interfaces answers is given by an interface that links lead to. -/
theorem interface_of_searchRows {rows : List (List String)}
    (h : (searchRows find give u rows).answer = some a) :
    ∃ name ∈ rows.flatten, ∃ above info, ReflTransGen (InterfaceLink find) name above ∧
      find above = some info ∧ give info = some a := by
  induction rows with
  | nil => cases h
  | cons row rows ih =>
    rw [searchRows] at h
    cases hrow : (searchInterfaces find give u row).answer with
    | some b =>
      rw [hrow] at h
      cases h
      obtain ⟨name, hname, hrest⟩ := interface_of_searchInterfaces hrow
      exact ⟨name, List.mem_append_left _ hname, hrest⟩
    | none =>
      rw [hrow] at h
      obtain ⟨name, hname, hrest⟩ := ih h
      exact ⟨name, List.mem_append_right _ hname, hrest⟩

/-- If the search comes to nothing, it does so in every row. -/
theorem answer_eq_none_of_searchRows {rows : List (List String)}
    (h : (searchRows find give u rows).answer = none) :
    ∀ row ∈ rows, (searchInterfaces find give u row).answer = none := by
  induction rows with
  | nil => simp
  | cons row rows ih =>
    rw [searchRows] at h
    cases hrow : (searchInterfaces find give u row).answer with
    | some b => simp [hrow] at h
    | none =>
      rw [hrow] at h
      exact List.forall_mem_cons.2 ⟨hrow, ih h⟩

/-! ## How long a search takes -/

/-- The interfaces of the classes that are found under some names, one for each link. -/
def interfacesOf (find : String → Option ClassInfo) (names : List String) : List String :=
  names.flatMap fun name => ((find name).map interfaces).getD []

/-- A class that is taken off takes its links with it. -/
theorem length_interfacesOf_without (hname : name ∈ u) (hfind : find name = some info) :
    (interfacesOf find (without u name)).length + info.interfaces.length ≤
      (interfacesOf find u).length := by
  induction u with
  | nil => cases hname
  | cons first rest ih =>
    by_cases hfirst : first = name
    · subst hfirst
      have hle :
        (interfacesOf find (without rest first)).length ≤ (interfacesOf find rest).length :=
        (List.filter_sublist.flatMap _).length_le
      unfold without interfacesOf at hle ⊢
      rw [List.filter_cons_of_neg (by simp)]
      simp only [List.flatMap_cons, List.length_append, hfind, Option.map_some, Option.getD_some]
      omega
    · have hrest := ih ((List.mem_cons.1 hname).resolve_left fun heq => hfirst heq.symm)
      unfold without interfacesOf at hrest ⊢
      rw [List.filter_cons_of_pos (by simpa using hfirst)]
      simp only [List.flatMap_cons, List.length_append]
      omega

/-- Going up the superclasses looks up each name at most once, and one more, and comes to each link
at most once. -/
theorem length_superChain (find : String → Option ClassInfo) (u : List String) (name : String) :
    (superChain find u name).visited.length ≤ u.length + 1 ∧
      ((superChain find u name).answer.flatMap interfaces).length ≤
        (interfacesOf find u).length := by
  fun_induction superChain find u name with
  | case1 | case4 => simp
  | case2 u name found hfound hmem hup =>
    have hle := length_interfacesOf_without hmem hfound
    simp only [List.flatMap_cons, List.flatMap_nil, List.append_nil, List.length_cons,
      List.length_nil]
    omega
  | case3 u name found hfound hmem up hup above =>
    rename_i ih
    have hlt := length_without_lt hmem
    have hle := length_interfacesOf_without hmem hfound
    simp only [above, List.flatMap_cons, List.length_append, List.length_cons]
    omega

/-- A search among interfaces looks up each name it is given and follows each link at most once. -/
theorem length_visited_searchInterfaces (find : String → Option ClassInfo)
    (give : ClassInfo → Option α) (u names : List String) :
    (searchInterfaces find give u names).visited.length ≤
      names.length + (interfacesOf find u).length := by
  fun_induction searchInterfaces find give u names with
  | case1 => simp
  | case2 u name rest hnone later =>
    rename_i ih
    simp only [later, List.length_cons]
    omega
  | case3 u name rest found hfound hmem b hgive =>
    simp only [List.length_cons, List.length_nil]
    omega
  | case4 u name rest found hfound hmem hgive later =>
    rename_i ih
    have hle := length_interfacesOf_without hmem hfound
    simp only [List.length_append] at ih
    simp only [later, List.length_cons]
    omega
  | case5 u name rest found hfound hmem ih =>
    simp only [List.length_cons]
    omega

/-! ## Members -/

section

variable {rows : List ClassInfo → List (List String)}
  (hu : ∀ name info, find name = some info → name ∈ u)
include hu

/-- The nearest class that gives an answer decides. -/
theorem searchMember_of_nearest {n : Nat} (hn : ancestor? find n owner = some info)
    (hgive : give info = some a)
    (hnearest : ∀ k < n, ∀ below, ancestor? find k owner = some below → give below = none) :
    (searchMember find u give rows owner).answer = some a := by
  have hmem := (mem_superChain_iff hu).2 (inChain_of_ancestor? hn)
  cases hfound : (superChain find u owner).answer.findSome? give with
  | none =>
    rw [List.findSome?_eq_none_iff.1 hfound info hmem] at hgive
    cases hgive
  | some b =>
    simp only [searchMember, hfound]
    obtain ⟨before, first, behind, hchain, hfirst, hbefore⟩ := List.findSome?_eq_some_iff.1 hfound
    have hancestor : ancestor? find before.length owner = some first :=
      ancestor?_of_superChain (u := u) (by simp [hchain])
    -- No other class of the chain can come before it.
    rcases Nat.lt_trichotomy before.length n with hlt | heq | hlt
    · rw [hnearest _ hlt first hancestor] at hfirst
      cases hfirst
    · rw [heq, hn] at hancestor
      cases hancestor
      exact hfirst.symm.trans hgive
    · have hinfo : info ∈ before := by
        have hget : (superChain find u owner).answer[n]? = some before[n] := by
          rw [hchain, List.getElem?_append_left hlt, List.getElem?_eq_getElem hlt]
        have heq := ancestor?_of_superChain hget
        rw [hn] at heq
        cases heq
        exact List.getElem_mem hlt
      rw [hbefore info hinfo] at hgive
      cases hgive

variable (hrows : ∀ chain, (rows chain).flatten = chain.flatMap interfaces)
include hrows

/-- If no class of the chain gives an answer, an interface above it does. -/
theorem exists_interfaceAbove_of_searchMember
    (hchain : ∀ info, InChain find owner info → give info = none)
    (h : (searchMember find u give rows owner).answer = some a) :
    ∃ info, InterfaceAbove find owner info ∧ give info = some a := by
  have hnone : (superChain find u owner).answer.findSome? give = none :=
    List.findSome?_eq_none_iff.2 fun info hinfo => hchain info ((mem_superChain_iff hu).1 hinfo)
  simp only [searchMember, hnone] at h
  obtain ⟨first, hfirst, above, info, hpath, hinfo, hgive⟩ := interface_of_searchRows h
  rw [hrows] at hfirst
  obtain ⟨below, hbelow, hlink⟩ := List.mem_flatMap.1 hfirst
  obtain ⟨name, hname, hfound⟩ := (mem_superChain_iff hu).1 hbelow
  exact ⟨info, ⟨name, above, hname, .head' ⟨below, hfound, hlink⟩ hpath, hinfo⟩, hgive⟩

/-- What a search answers is given by a class or an interface that the member can come from. -/
theorem ancestor_of_searchMember (h : (searchMember find u give rows owner).answer = some a) :
    ∃ info, (InChain find owner info ∨ InterfaceAbove find owner info) ∧ give info = some a := by
  cases hchain : (superChain find u owner).answer.findSome? give with
  | some b =>
    simp only [searchMember, hchain] at h
    cases h
    obtain ⟨info, hinfo, hgive⟩ := List.exists_of_findSome?_eq_some hchain
    exact ⟨info, .inl ((mem_superChain_iff hu).1 hinfo), hgive⟩
  | none =>
    rw [List.findSome?_eq_none_iff] at hchain
    obtain ⟨info, habove, hgive⟩ := exists_interfaceAbove_of_searchMember hu hrows
      (fun info hinfo => hchain info ((mem_superChain_iff hu).2 hinfo)) h
    exact ⟨info, .inr habove, hgive⟩

/-- A search that comes to nothing has missed no class and no interface. -/
theorem give_eq_none_of_searchMember (h : (searchMember find u give rows owner).answer = none)
    (hinfo : InChain find owner info ∨ InterfaceAbove find owner info) : give info = none := by
  cases hchain : (superChain find u owner).answer.findSome? give with
  | some b => simp [searchMember, hchain] at h
  | none =>
    simp only [searchMember, hchain] at h
    rcases hinfo with hinfo | ⟨name, above, hname, hpath, habove⟩
    · exact List.findSome?_eq_none_iff.1 hchain info ((mem_superChain_iff hu).2 hinfo)
    · obtain ⟨first, ⟨below, hbelow, hlink⟩, hpath⟩ := TransGen.head'_iff.1 hpath
      have hfirst : first ∈ (rows (superChain find u owner).answer).flatten := by
        rw [hrows]
        exact List.mem_flatMap.2 ⟨below, (mem_superChain_iff hu).2 ⟨name, hname, hbelow⟩, hlink⟩
      obtain ⟨row, hrow, hfirst⟩ := List.mem_flatten.1 hfirst
      exact give_eq_none_of_searchInterfaces hu (answer_eq_none_of_searchRows h row hrow)
        hfirst hpath habove

end

theorem length_visited_searchMember (find : String → Option ClassInfo) (give : ClassInfo → Option α)
    (u : List String) (owner : String) :
    (searchMember find u give Catalog.together owner).visited.length ≤
      u.length + 1 + 2 * (interfacesOf find u).length := by
  obtain ⟨hchain, hlinks⟩ := length_superChain find u owner
  have habove := length_visited_searchInterfaces find give u
    ((superChain find u owner).answer.flatMap interfaces)
  cases hfound : (superChain find u owner).answer.findSome? give with
  | some b =>
    simp only [searchMember, hfound]
    omega
  | none =>
    simp only [searchMember, hfound, List.length_append, Catalog.together, searchRows]
    split <;> simp only [List.append_nil] <;> omega

end

/-! ## Methods -/

/-- A class itself declares a method with this name and descriptor. -/
def ClassInfo.Declares (info : ClassInfo) (m : MemberRef) : Prop :=
  ∃ d ∈ info.methods, d.name = m.name ∧ d.descriptor = m.descriptor

theorem ClassInfo.declaredMethod?_isSome_iff {info : ClassInfo} {m : MemberRef} :
    (info.declaredMethod? m.name m.descriptor).isSome ↔ info.Declares m := by
  simp [declaredMethod?, Declares, List.find?_isSome]

/-- What a class file says of a method is read off its descriptor. -/
theorem ClassInfo.declaredMethod?_ofDef {cls : ClassDef} {m : MemberRef} {d : MethodRef}
    (h : (ofDef cls).declaredMethod? m.name m.descriptor = some d) :
    d.name = m.name ∧ d.descriptor = m.descriptor ∧
      (d.params, d.result) = MethodRef.signature m.descriptor ∧ d.resolved = true := by
  have hmem := List.mem_of_find?_eq_some h
  have hsame := List.find?_some h
  simp only [Bool.and_eq_true, decide_eq_true_eq] at hsame
  obtain ⟨md, _, rfl⟩ := List.mem_map.1 hmem
  exact ⟨hsame.1, hsame.2, congrArg MethodRef.signature hsame.2, rfl⟩

namespace Catalog

variable {c : Catalog} {m : MemberRef} {isStatic : Bool}

/-- What is found in a catalogue was told by class files. -/
def Told (c : Catalog) : Prop := ∀ name info, c.find? name = some info → ∃ cls, info = ofDef cls

theorem told_ofProvider (defs : List ClassDef) : (ofProvider (defs.map ofDef)).Told := by
  intro name info h
  obtain ⟨e, he, rfl⟩ := Option.map_eq_some_iff.1 (show provide? _ name = some info from h)
  have hmem := List.mem_reverse.1 (List.mem_of_find?_eq_some he)
  simp only [ofProvider, List.map_map, List.mem_map, Function.comp_apply] at hmem
  obtain ⟨cls, _, rfl⟩ := hmem
  exact ⟨cls, rfl⟩

theorem Told.define (h : c.Told) (cls : ClassDef) : (c.define (.ofDef cls)).2.Told := by
  intro name info hfind
  have hprovide : provide? (c.define (.ofDef cls)).2 name = c.provide? name := by
    unfold Catalog.define
    split <;> rfl
  rw [find?, entry?_define, hprovide] at hfind
  split at hfind
  · -- The class that is entered now, or the one that was entered before.
    cases hentry : c.entry? (ofDef cls).name with
    | none => exact ⟨cls, by simpa [hentry] using hfind.symm⟩
    | some found =>
      cases found with
      | none => exact ⟨cls, by simpa [hentry] using hfind.symm⟩
      | some existing =>
        refine h (ofDef cls).name info ?_
        simpa [find?, hentry] using hfind
  · exact h name info hfind

theorem Told.perform (h : c.Told) (call : Call) : (c.perform call).2.Told := by
  cases hcall : call.isDefine with
  | false => rwa [Told, find?_perform hcall]
  | true =>
    cases call with
    | define cls => exact h.define cls
    | _ => cases hcall

theorem Told.session (h : c.Told) (calls : List Call) : (c.session calls).2.Told := by
  induction calls generalizing c with
  | nil => exact h
  | cons call calls ih => exact ih (h.perform call)

/-- One row holds all interfaces. -/
theorem flatten_together (chain : List ClassInfo) :
    (together chain).flatten = chain.flatMap interfaces := by
  simp [together]

/-- The methods that a reference can mean are searched for by name and descriptor. -/
def searchMethod (c : Catalog) (m : MemberRef) : Found (Option MethodRef) :=
  searchMember c.find? c.known (·.declaredMethod? m.name m.descriptor) together m.owner

/-- Methods of a class that is no array are searched for. -/
theorem method_eq (howner : m.owner.toList.head? ≠ some '[') (isStatic : Bool) :
    c.method m isStatic =
      (((c.searchMethod m).answer.map fun method => { method with owner := m.owner }).getD
        (.unresolved m.owner m.name m.descriptor isStatic),
          c.rememberAll (c.searchMethod m).visited) := by
  unfold method searchMethod
  split
  · rename_i rest hrest
    exact absurd (by rw [hrest]; rfl) howner
  · dsimp only
    split
    · rename_i found hfound
      rw [hfound]
      rfl
    · rename_i hnone
      rw [hnone]
      rfl

/-- A description is what a method reference means in a catalogue. -/
structure Resolves (c : Catalog) (m : MemberRef) (isStatic : Bool) (r : MethodRef) : Prop where
  /-- It is resolved exactly if a class or an interface that the owner can have it from declares
  it. -/
  resolved_iff : r.resolved = true ↔
    ∃ info, (InChain c.find? m.owner info ∨ InterfaceAbove c.find? m.owner info) ∧ info.Declares m
  /-- The nearest class that declares it decides. -/
  nearest : ∀ n info d, ancestor? c.find? n m.owner = some info →
    info.declaredMethod? m.name m.descriptor = some d →
    (∀ k < n, ∀ below, ancestor? c.find? k m.owner = some below → ¬ below.Declares m) →
    r = { d with owner := m.owner }
  /-- If no class declares it, an interface decides. -/
  interface : (∀ info, InChain c.find? m.owner info → ¬ info.Declares m) → r.resolved = true →
    ∃ info d, InterfaceAbove c.find? m.owner info ∧
      info.declaredMethod? m.name m.descriptor = some d ∧ r = { d with owner := m.owner }
  unresolved : r.resolved = false → r = .unresolved m.owner m.name m.descriptor isStatic
  owner : r.owner = m.owner
  name : r.name = m.name
  descriptor : r.descriptor = m.descriptor
  signature : (r.params, r.result) = MethodRef.signature m.descriptor

theorem Told.exists_ofDef (h : c.Told) {info : ClassInfo}
    (hinfo : InChain c.find? m.owner info ∨ InterfaceAbove c.find? m.owner info) :
    ∃ cls, info = ofDef cls := by
  rcases hinfo with ⟨name, _, hname⟩ | ⟨_, above, _, _, habove⟩
  · exact h name info hname
  · exact h above info habove

/-- What a catalogue answers for a method is what the reference means. -/
theorem Told.resolves (h : c.Told) (howner : m.owner.toList.head? ≠ some '[') :
    c.Resolves m isStatic (c.method m isStatic).1 := by
  have hu : ∀ name info, c.find? name = some info → name ∈ c.known := fun _ _ => mem_known_of_find?
  have hdeclares {info : ClassInfo} (hinfo : ¬ info.Declares m) :
    info.declaredMethod? m.name m.descriptor = none := by
    rwa [← Option.not_isSome_iff_eq_none, declaredMethod?_isSome_iff]
  rw [method_eq howner]
  cases hanswer : (c.searchMethod m).answer with
  | some d =>
    obtain ⟨info, hinfo, hd⟩ := ancestor_of_searchMember hu flatten_together hanswer
    obtain ⟨cls, rfl⟩ := h.exists_ofDef hinfo
    obtain ⟨hname, hdescriptor, hsignature, hresolved⟩ := declaredMethod?_ofDef hd
    refine ⟨?_, ?_, ?_, ?_, rfl, hname, hdescriptor, hsignature⟩
    · have hsome : (ofDef cls).Declares m := declaredMethod?_isSome_iff.1 (by simp [hd])
      exact iff_of_true hresolved ⟨_, hinfo, hsome⟩
    · intro n near e hnear he hbelow
      have hfirst := hanswer.symm.trans (searchMember_of_nearest hu hnear he fun k hk below hk' =>
        hdeclares (hbelow k hk below hk'))
      cases hfirst
      rfl
    · intro hchain _
      obtain ⟨above, habove, hgive⟩ :=
        exists_interfaceAbove_of_searchMember hu flatten_together
          (fun info hinfo => hdeclares (hchain info hinfo)) hanswer
      exact ⟨above, d, habove, hgive, rfl⟩
    · intro hunresolved
      exact absurd (hresolved.symm.trans hunresolved) (by decide)
  | none =>
    have hmissing {info : ClassInfo} (hinfo : InChain c.find? m.owner info ∨
      InterfaceAbove c.find? m.owner info) :
        info.declaredMethod? m.name m.descriptor = none :=
      give_eq_none_of_searchMember hu flatten_together hanswer hinfo
    refine ⟨?_, ?_, ?_, fun _ => rfl, rfl, rfl, rfl, rfl⟩
    · refine iff_of_false (by simp [MethodRef.unresolved]) ?_
      rintro ⟨info, hinfo, hdecl⟩
      rw [← declaredMethod?_isSome_iff, hmissing hinfo] at hdecl
      cases hdecl
    · intro n near e hnear he _
      rw [hmissing (.inl (inChain_of_ancestor? hnear))] at he
      cases he
    · intro _ hresolved
      exact absurd hresolved (by simp [MethodRef.unresolved])

/-- Resolving a method is a complete search that ends on any hierarchy. In whatever state earlier
calls have left the catalogue, a method reference of a class that is no array gets what it means,
after no more lookups than there are known names and links. -/
theorem method_resolves (defs : List ClassDef) (calls : List Call) (m : MemberRef) (isStatic : Bool)
    (howner : m.owner.toList.head? ≠ some '[') :
    let c := ((ofProvider (defs.map ofDef)).session calls).2
    c.Resolves m isStatic (c.method m isStatic).1 ∧
      ∃ names, (c.method m isStatic).2 = c.rememberAll names ∧
        names.length ≤ c.known.length + 1 + 2 * (interfacesOf c.find? c.known).length := by
  intro c
  refine ⟨((told_ofProvider defs).session calls).resolves howner,
    (c.searchMethod m).visited, ?_, ?_⟩
  · rw [method_eq howner]
  · exact length_visited_searchMember c.find? _ c.known m.owner

/-- A class without members. -/
def plainClass (name : String) (superName : Option String) (interfaces : List String) : ClassDef :=
  ⟨name, superName, interfaces, ⟨0x21⟩, [], []⟩

/-- An interface with a method. -/
def turning : ClassDef :=
  { plainClass "a/Turning" none [] with methods := [⟨"turn", "()V", ⟨0x1⟩, none, []⟩] }

/-- Two classes that extend each other, and two interfaces that do, one of which extends
`a/Turning`. -/
def twoRings : List ClassDef :=
  [plainClass "a/Link" (some "a/Ring") ["a/Gone"], plainClass "a/Ring" (some "a/Link") ["a/Left"],
    plainClass "a/Left" none ["a/Right"],
    plainClass "a/Right" none ["a/Left", "a/Turning"], turning]

/-- The method is found across both rings and past an interface that is not known. -/
theorem method_resolves_twoRings :
    "a/Link".toList.head? ≠ some '[' ∧
      ((ofProvider (twoRings.map ofDef)).method ⟨"a/Link", "turn", "()V"⟩ true).1.resolved =
        true := by
  have howner : "a/Link".toList.head? ≠ some '[' := by decide
  have hring := (method_resolves twoRings [] ⟨"a/Link", "turn", "()V"⟩ true howner).1
  refine ⟨howner, hring.resolved_iff.2 ⟨.ofDef turning,
    .inr ⟨"a/Ring", "a/Turning", ?_, ?_, rfl⟩, ?_⟩⟩
  · exact .single ⟨.ofDef (plainClass "a/Link" (some "a/Ring") ["a/Gone"]), by decide, rfl⟩
  · refine .head ⟨.ofDef (plainClass "a/Ring" (some "a/Link") ["a/Left"]), by decide,
      List.mem_cons_self⟩ ?_
    refine .head ⟨.ofDef (plainClass "a/Left" none ["a/Right"]), by decide, List.mem_cons_self⟩ ?_
    exact .single ⟨.ofDef (plainClass "a/Right" none ["a/Left", "a/Turning"]), by decide, by decide⟩
  · exact ⟨_, List.mem_cons_self, rfl, rfl⟩

end Catalog

end ByteLift
