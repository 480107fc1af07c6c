import ByteLift.Catalog

/-!
# What a catalogue answers

Remembering a name enters what was found under it already, so a catalogue's answers stay those of
its first state. A search is bounded by the list of all known names; those only looked for in vain
make no difference to it.
-/

namespace ByteLift

section

variable {α : Type} {find : String → Option ClassInfo} {give : ClassInfo → Option α}
  {u u' : List String}

/-! ## Searches -/

/-- Two lists of names agree on those under which something is found. -/
def AgreeOn (find : String → Option ClassInfo) (u u' : List String) : Prop :=
  ∀ name info, find name = some info → (name ∈ u ↔ name ∈ u')

section

variable (h : AgreeOn find u u')
include h

theorem AgreeOn.without (name : String) : AgreeOn find (without u name) (without u' name) := by
  intro other info hother
  simp only [ByteLift.without, List.mem_filter, h other info hother]

theorem superChain_congr {name : String} : superChain find u name = superChain find u' name := by
  fun_induction superChain find u name generalizing u' with
  | case1 _ _ hfind => rw [superChain, hfind]
  | case2 _ name info hfind hmem hup =>
    rw [superChain, hfind]
    simp only [if_pos ((h name info hfind).1 hmem), hup]
  | case3 _ name info hfind hmem _ hup =>
    rename_i ih
    rw [superChain, hfind]
    simp only [if_pos ((h name info hfind).1 hmem), hup, ← ih (h.without name)]
    rfl
  | case4 _ name info hfind hmem =>
    rw [superChain, hfind]
    simp only [if_neg (mt (h name info hfind).2 hmem)]

theorem searchInterfaces_congr {names : List String} :
    searchInterfaces find give u names = searchInterfaces find give u' names := by
  fun_induction searchInterfaces find give u names generalizing u' with
  | case1 => rw [searchInterfaces]
  | case2 _ _ _ hfind =>
    rename_i ih
    rw [searchInterfaces, hfind]
    simp only [← ih h]
    rfl
  | case3 _ name _ info hfind hmem _ hgive =>
    rw [searchInterfaces, hfind]
    simp only [if_pos ((h name info hfind).1 hmem), hgive]
  | case4 _ name _ info hfind hmem hgive =>
    rename_i ih
    rw [searchInterfaces, hfind]
    simp only [if_pos ((h name info hfind).1 hmem), hgive, ← ih (h.without name)]
    rfl
  | case5 _ name _ info hfind hmem ih =>
    rw [searchInterfaces, hfind]
    simp only [if_neg (mt (h name info hfind).2 hmem), ← ih h]

theorem searchRows_congr {names : List (List String)} :
    searchRows find give u names = searchRows find give u' names := by
  induction names with
  | nil => rfl
  | cons row rows ih => rw [searchRows, searchRows, searchInterfaces_congr h, ih]

theorem searchMember_congr {rows : List ClassInfo → List (List String)} {owner : String} :
    searchMember find u give rows owner = searchMember find u' give rows owner := by
  simp only [searchMember, superChain_congr h, searchRows_congr h]

end

end

namespace Catalog

variable {c c' : Catalog} {name : String}

/-! ## Remembering -/

/-- Remembering a name changes nothing that can be found. -/
theorem find?_remember (c : Catalog) (name : String) : (c.remember name).find? = c.find? := by
  funext other
  unfold remember
  split
  · rfl
  · simp only [find?, entry?, List.find?_append]
    cases hother : c.entries.find? fun e => e.1 = other with
    | some e => rfl
    | none =>
      -- Only the new entry can be under the other name, and it holds what the provider gives.
      by_cases heq : name = other
      · subst heq
        simp only [List.find?_cons, decide_true, Option.none_or]
        rfl
      · simp [heq]
        rfl

theorem find?_rememberAll (c : Catalog) (names : List String) :
    (c.rememberAll names).find? = c.find? := by
  unfold rememberAll
  induction names generalizing c with
  | nil => rfl
  | cons name names ih => rw [List.foldl_cons, ih, find?_remember]

/-- What is found is found under a known name. -/
theorem mem_known_of_find? {info : ClassInfo} (h : c.find? name = some info) : name ∈ c.known := by
  unfold find? at h
  rw [known, List.mem_append, List.mem_map, List.mem_map]
  cases hentry : c.entry? name with
  | some found =>
    obtain ⟨e, he, _⟩ := Option.map_eq_some_iff.1 hentry
    exact .inl ⟨e, List.mem_of_find?_eq_some he, by simpa using List.find?_some he⟩
  | none =>
    rw [hentry] at h
    obtain ⟨e, he, _⟩ := Option.map_eq_some_iff.1 (show c.provide? name = some info from h)
    exact .inr ⟨e, List.mem_reverse.1 (List.mem_of_find?_eq_some he),
      by simpa using List.find?_some he⟩

theorem agreeOn_known (h : c'.find? = c.find?) : AgreeOn c.find? c'.known c.known := by
  intro name info hfind
  exact ⟨fun _ => mem_known_of_find? hfind, fun _ => mem_known_of_find? (h ▸ hfind)⟩

/-! ## Members -/

/-- Catalogues in which the same can be found mean the same fields. -/
theorem field_congr (h : c'.find? = c.find?) (m : MemberRef) (isStatic : Bool) :
    (c'.field m isStatic).1 = (c.field m isStatic).1 := by
  simp only [field, h, searchMember_congr (agreeOn_known h)]

theorem method_congr (h : c'.find? = c.find?) (m : MemberRef) (isStatic : Bool) :
    (c'.method m isStatic).1 = (c.method m isStatic).1 := by
  unfold method
  simp only [h, searchMember_congr (agreeOn_known h)]
  split
  · rfl
  · split <;> rfl

/-- Looking for a field changes nothing that can be found. -/
theorem find?_field (c : Catalog) (m : MemberRef) (isStatic : Bool) :
    (c.field m isStatic).2.find? = c.find? :=
  c.find?_rememberAll _

theorem find?_method (c : Catalog) (m : MemberRef) (isStatic : Bool) :
    (c.method m isStatic).2.find? = c.find? := by
  unfold method
  dsimp only
  split
  · rfl
  · split <;> exact c.find?_rememberAll _

end Catalog

end ByteLift
