import ByteLift.Proofs.Catalog.Lookup

/-!
# Looking names up one by one

A search could as well look each name up in the catalogue when it comes to it, reading the entries
that earlier lookups left. The answers and the entries are the same, for what a lookup enters is
what could be found before.
-/

namespace ByteLift

namespace Catalog

/-- A computation that looks names up in a catalogue. -/
abbrev Walk := StateM Catalog

/-- Looks up a name. -/
def ask (name : String) : Walk (Option ClassInfo) := fun c => c.lookup name

/-- Looks up a class and its superclasses one by one, up to the first one that is not found or was
passed already. -/
def walkChain (unvisited : List String) (name : String) : Walk (List ClassInfo) := do
  match ← ask name with
  | none => return []
  | some info =>
    if name ∈ unvisited then
      match info.superName with
      | none => return [info]
      | some up => return info :: (← walkChain (without unvisited name) up)
    else return []
termination_by unvisited.length
decreasing_by exact length_without_lt ‹_›

/-- Looks up interfaces and those above them one by one, until one of them gives an answer. -/
def walkInterfaces {α : Type} (give : ClassInfo → Option α) (unvisited : List String) :
    List String → Walk (Option α)
  | [] => return none
  | name :: rest => do
    match ← ask name with
    | none => walkInterfaces give unvisited rest
    | some info =>
      if name ∈ unvisited then
        match give info with
        | some a => return some a
        | none => walkInterfaces give (without unvisited name) (info.interfaces ++ rest)
      else walkInterfaces give unvisited rest
termination_by names => (unvisited.length, names.length)
decreasing_by
  · exact Prod.Lex.right _ (Nat.lt_succ_self _)
  · exact Prod.Lex.left _ _ (length_without_lt ‹_›)
  · exact Prod.Lex.right _ (Nat.lt_succ_self _)

/-- Looks up one row of interfaces after the other, until one gives an answer. -/
def walkRows {α : Type} (give : ClassInfo → Option α) (known : List String) :
    List (List String) → Walk (Option α)
  | [] => return none
  | row :: rows => do
    match ← walkInterfaces give known row with
    | some a => return some a
    | none => walkRows give known rows

/-- Looks up classes one by one until one gives an answer: a class, its superclasses, then the
interfaces of these. -/
def walkMember {α : Type} (known : List String) (give : ClassInfo → Option α)
    (rows : List ClassInfo → List (List String)) (owner : String) : Walk (Option α) := do
  let chain ← walkChain known owner
  match chain.findSome? give with
  | some a => return some a
  | none => walkRows give known (rows chain)

/-! ## Walks and searches -/

section

variable {α β : Type} {c : Catalog} {find : String → Option ClassInfo} {give : ClassInfo → Option α}
  {unvisited : List String}

theorem rememberAll_append (c : Catalog) (names names' : List String) :
    c.rememberAll (names ++ names') = (c.rememberAll names).rememberAll names' := List.foldl_append

/-- Entering a name leaves all other entries as they are, and its own if there is one. -/
theorem entry?_remember (c : Catalog) (name other : String) : entry? (c.remember name) other =
      (c.entry? other).or (if other = name then some (c.provide? name) else none) := by
  unfold remember
  split
  · rename_i entry hentry
    cases hother : c.entry? other with
    | some _ => rfl
    | none =>
      have hne : other ≠ name := by
        rintro rfl
        rw [hentry] at hother
        cases hother
      simp [hne]
  · unfold entry?
    rw [List.find?_append]
    cases c.entries.find? fun e => e.1 = other with
    | some e => rfl
    | none =>
      by_cases hother : other = name
      · simp [hother]
      · simp [hother, Ne.symm hother]

/-- A name that has an entry need not be entered. -/
theorem remember_of_entry {name : String} (h : (c.entry? name).isSome = true) :
    c.remember name = c := by
  obtain ⟨entry, hentry⟩ := Option.isSome_iff_exists.1 h
  simp only [remember, hentry]

theorem walk_bind (x : Walk α) (f : α → Walk β) (c : Catalog) :
    (x >>= f) c = f (x c).1 (x c).2 := rfl

theorem ask_eq (c : Catalog) (name : String) : ask name c = (c.find? name, c.remember name) := rfl

/-- Looking superclasses up one by one finds what a search finds, and enters what it visits. -/
theorem walkChain_eq {name : String} (h : c.find? = find) : walkChain unvisited name c =
      ((superChain find unvisited name).answer,
        c.rememberAll (superChain find unvisited name).visited) := by
  fun_induction superChain find unvisited name generalizing c <;>
    rw [walkChain, walk_bind, ask_eq, h]
  case case1 hfind =>
    simp only [hfind]
    rfl
  case case2 hfind hmem hup =>
    simp only [hfind, if_pos hmem, hup]
    rfl
  case case3 unvisited name _ hfind hmem _ hup _ ih =>
    simp only [hfind, if_pos hmem, hup, walk_bind, ih ((c.find?_remember name).trans h)]
    rfl
  case case4 hfind hmem =>
    simp only [hfind, if_neg hmem]
    rfl

/-- All known names but those on a list have entries. -/
def EnteredBut (c : Catalog) (find : String → Option ClassInfo) (unvisited : List String) : Prop :=
  ∀ name info, find name = some info → name ∉ unvisited → (c.entry? name).isSome = true

theorem EnteredBut.remember (h : c.EnteredBut find unvisited) (name : String) :
    (c.remember name).EnteredBut find unvisited := by
  intro other info hfind hmem
  rw [entry?_remember, Option.isSome_or, h other info hfind hmem]
  rfl

theorem EnteredBut.remember_without (h : c.EnteredBut find unvisited) (name : String) :
    (c.remember name).EnteredBut find (without unvisited name) := by
  intro other info hfind hmem
  rw [entry?_remember, Option.isSome_or]
  by_cases hother : other = name
  · simp [hother]
  · rw [h other info hfind fun hvisited =>
      hmem (List.mem_filter.2 ⟨hvisited, by simpa using hother⟩)]
    rfl

/-- Looking interfaces up one by one finds what a search finds, and enters what it visits. -/
theorem walkInterfaces_eq {names : List String} (h : c.find? = find)
    (hentered : c.EnteredBut find unvisited) :
    walkInterfaces give unvisited names c = ((searchInterfaces find give unvisited names).answer,
        c.rememberAll (searchInterfaces find give unvisited names).visited) := by
  fun_induction searchInterfaces find give unvisited names generalizing c with
  | case1 =>
    rw [walkInterfaces]
    rfl
  | case2 _ name _ hfind =>
    rename_i ih
    rw [walkInterfaces, walk_bind, ask_eq, h]
    simp only [hfind, ih ((c.find?_remember name).trans h) (hentered.remember name)]
    rfl
  | case3 _ _ _ _ hfind hmem _ hgive =>
    rw [walkInterfaces, walk_bind, ask_eq, h]
    simp only [hfind, if_pos hmem, hgive]
    rfl
  | case4 _ name _ _ hfind hmem hgive =>
    rename_i ih
    rw [walkInterfaces, walk_bind, ask_eq, h]
    simp only [hfind, if_pos hmem, hgive,
      ih ((c.find?_remember name).trans h) (hentered.remember_without name)]
    rfl
  | case5 _ name _ info hfind hmem ih =>
    rw [walkInterfaces, walk_bind, ask_eq, h, remember_of_entry (hentered name info hfind hmem)]
    simp only [hfind, if_neg hmem, ih h hentered]

/-- Looking rows of interfaces up one by one finds what a search finds, and enters what it
visits. -/
theorem walkRows_eq {known : List String} {names : List (List String)} (h : c.find? = find)
    (hknown : ∀ name info, find name = some info → name ∈ known) :
    walkRows give known names c = ((searchRows find give known names).answer,
      c.rememberAll (searchRows find give known names).visited) := by
  induction names generalizing c with
  | nil => rfl
  | cons row rows ih =>
    rw [walkRows, walk_bind,
      walkInterfaces_eq h fun name info hfind hmem =>
      absurd (hknown name info hfind) hmem, searchRows]
    cases (searchInterfaces find give known row).answer with
    | some a => rfl
    | none => simp only [ih ((c.find?_rememberAll _).trans h), rememberAll_append]

/-- Looking up classes one by one for a member finds what a search finds, and enters what it
visits. -/
theorem walkMember_eq (c : Catalog) (give : ClassInfo → Option α)
    (rows : List ClassInfo → List (List String)) (owner : String) :
    walkMember c.known give rows owner c =
      ((searchMember c.find? c.known give rows owner).answer,
        c.rememberAll (searchMember c.find? c.known give rows owner).visited) := by
  rw [walkMember, walk_bind, walkChain_eq rfl, searchMember]
  cases (superChain c.find? c.known owner).answer.findSome? give with
  | some a => rfl
  | none =>
    simp only [walkRows_eq (c.find?_rememberAll _) fun _ _ => mem_known_of_find?,
      rememberAll_append]

end

end Catalog

end ByteLift
