import ByteLift.ClassFile
import ByteLift.Member

/-!
# The catalogue of classes

A catalogue asks its provider for a class the first time it is needed and remembers the answer, also
if the class is not known. Members are searched for in the class that a reference names, then in its
superclasses from the nearest on, and then in all interfaces of these.

A search is a pure function of what can be found under a name, and also gives the names it looked
up, which the catalogue then enters. Hierarchies may go round in circles, so each visit takes a name
off the known names that may still be visited.
-/

namespace ByteLift

/-- What is known of one class. -/
structure ClassInfo where
  name : String
  superName : Option String
  interfaces : List String
  access : ClassAccess
  fields : List FieldRef
  methods : List MethodRef
deriving DecidableEq, Inhabited

namespace ClassInfo

/-- What a class file tells of its class. -/
def ofDef (c : ClassDef) : ClassInfo where
  name := c.name
  superName := c.superName
  interfaces := c.interfaces
  access := c.access
  fields := c.fields.map fun f =>
    { FieldRef.unresolved c.name f.name f.descriptor f.access.isStatic with resolved := true }
  methods := c.methods.map fun m =>
    { MethodRef.unresolved c.name m.name m.descriptor m.access.isStatic with resolved := true }

/-- The first field with this name that the class itself declares. -/
def declaredField? (c : ClassInfo) (name : String) : Option FieldRef :=
  c.fields.find? fun f => f.name = name

/-- The first method with this name and descriptor that the class itself declares. -/
def declaredMethod? (c : ClassInfo) (name descriptor : String) : Option MethodRef :=
  c.methods.find? fun m => m.name = name && m.descriptor = descriptor

end ClassInfo

/-! ## Searching a hierarchy -/

/-- Takes a name off a list of names. -/
def without (names : List String) (name : String) : List String := names.filter (· ≠ name)

theorem length_without_lt {names : List String} {name : String} (h : name ∈ names) :
    (without names name).length < names.length :=
  List.length_filter_lt_length_iff_exists.2 ⟨name, h, by simp⟩

/-- A search's answer, with the names it looked up. -/
structure Found (α : Type) where
  answer : α
  visited : List String

/-- The class of a name and its superclasses, nearest first, up to the first one that is not found
or was passed already. -/
def superChain (find : String → Option ClassInfo) (unvisited : List String) (name : String) :
    Found (List ClassInfo) :=
  match find name with
  | none => ⟨[], [name]⟩
  | some info =>
    if name ∈ unvisited then
      match info.superName with
      | none => ⟨[info], [name]⟩
      | some up =>
        let above := superChain find (without unvisited name) up
        ⟨info :: above.answer, name :: above.visited⟩
    else ⟨[], [name]⟩
termination_by unvisited.length
decreasing_by exact length_without_lt ‹_›

/-- The first answer that an interface gives, among the interfaces on a list and those above them.
The interfaces above one come before those behind it, and none is visited twice. -/
def searchInterfaces {α : Type} (find : String → Option ClassInfo) (give : ClassInfo → Option α)
    (unvisited : List String) : List String → Found (Option α)
  | [] => ⟨none, []⟩
  | name :: rest =>
    match find name with
    | none =>
      let later := searchInterfaces find give unvisited rest
      ⟨later.answer, name :: later.visited⟩
    | some info =>
      if name ∈ unvisited then
        match give info with
        | some a => ⟨some a, [name]⟩
        | none =>
          let later :=
            searchInterfaces find give (without unvisited name) (info.interfaces ++ rest)
          ⟨later.answer, name :: later.visited⟩
      else searchInterfaces find give unvisited rest
termination_by names => (unvisited.length, names.length)
decreasing_by
  · exact Prod.Lex.right _ (Nat.lt_succ_self _)
  · exact Prod.Lex.left _ _ (length_without_lt ‹_›)
  · exact Prod.Lex.right _ (Nat.lt_succ_self _)

/-- The first answer among several rows of interfaces. Each row is searched anew. -/
def searchRows {α : Type} (find : String → Option ClassInfo) (give : ClassInfo → Option α)
    (known : List String) : List (List String) → Found (Option α)
  | [] => ⟨none, []⟩
  | row :: rows =>
    let found := searchInterfaces find give known row
    match found.answer with
    | some a => ⟨some a, found.visited⟩
    | none =>
      let later := searchRows find give known rows
      ⟨later.answer, found.visited ++ later.visited⟩

/-- The first answer that a class, one of its superclasses, or an interface of these gives. The
interfaces, put in rows, are only looked at if no class answers. -/
def searchMember {α : Type} (find : String → Option ClassInfo) (known : List String)
    (give : ClassInfo → Option α) (rows : List ClassInfo → List (List String)) (owner : String) :
    Found (Option α) :=
  let chain := superChain find known owner
  match chain.answer.findSome? give with
  | some a => ⟨some a, chain.visited⟩
  | none =>
    let above := searchRows find give known (rows chain.answer)
    ⟨above.answer, chain.visited ++ above.visited⟩

/-! ## The catalogue -/

/-- A catalogue of classes. -/
structure Catalog where
  /-- What the provider gives, each class with the name that it is asked for by. The last one of a
  name is the one it gives. -/
  provided : List (String × ClassInfo)
  /-- What is remembered under each name; `none` for a class that is not known. -/
  entries : List (String × Option ClassInfo)
  /-- The names the provider was asked for, in order. -/
  asked : List String

namespace Catalog

/-- A catalogue that has asked for nothing yet, of a provider that gives classes by their own
names. -/
def ofProvider (classes : List ClassInfo) : Catalog := ⟨classes.map fun i => (i.name, i), [], []⟩

/-- The number of names remembered. -/
def size (c : Catalog) : Nat := c.entries.length

/-- A short description: how many names are remembered. -/
def describe (c : Catalog) : String :=
  "ClassCache \x7b entries: " ++ toString c.size ++ " \x7d"

/-- What is remembered under a name. -/
def entry? (c : Catalog) (name : String) : Option (Option ClassInfo) :=
  (c.entries.find? fun e => e.1 = name).map Prod.snd

/-- What the provider gives for a name. -/
def provide? (c : Catalog) (name : String) : Option ClassInfo :=
  (c.provided.reverse.find? fun e => e.1 = name).map Prod.snd

/-- What can be found under a name: the entry if there is one, else what the provider gives. -/
def find? (c : Catalog) (name : String) : Option ClassInfo :=
  (c.entry? name).getD (c.provide? name)

/-- All names under which something may be found. -/
def known (c : Catalog) : List String := c.entries.map Prod.fst ++ c.provided.map Prod.fst

/-- Enters what the provider gives for a name, unless there is an entry already. -/
def remember (c : Catalog) (name : String) : Catalog :=
  match c.entry? name with
  | some _ => c
  | none =>
    { c with entries := c.entries ++ [(name, c.provide? name)], asked := c.asked ++ [name] }

/-- Enters what the provider gives for each name of a list, in order. -/
def rememberAll (c : Catalog) (names : List String) : Catalog := names.foldl remember c

/-- Enters a class directly. A class that is entered already stays; a remembered miss does not. -/
def define (c : Catalog) (info : ClassInfo) : ClassInfo × Catalog :=
  match c.entry? info.name with
  | some (some existing) => (existing, c)
  | some none =>
    (info, { c with entries := c.entries.map fun e =>
      if e.1 = info.name then (e.1, some info) else e })
  | none => (info, { c with entries := c.entries ++ [(info.name, some info)] })

/-- Looks up a class. -/
def lookup (c : Catalog) (name : String) : Option ClassInfo × Catalog :=
  (c.find? name, c.remember name)

/-- A class and its superclasses, nearest first. -/
def chain (c : Catalog) (name : String) : List ClassInfo × Catalog :=
  let found := superChain c.find? c.known name
  (found.answer, c.rememberAll found.visited)

/-- The interfaces of each class in a row of their own. -/
def apart (chain : List ClassInfo) : List (List String) := chain.map ClassInfo.interfaces

/-- The interfaces of all classes in one row. -/
def together (chain : List ClassInfo) : List (List String) := [chain.flatMap ClassInfo.interfaces]

/-- The field that a reference means. A field that is found keeps the owner that declares it. The
interfaces of each class are searched anew. -/
def field (c : Catalog) (m : MemberRef) (isStatic : Bool) : FieldRef × Catalog :=
  let found := searchMember c.find? c.known (·.declaredField? m.name) apart m.owner
  (found.answer.getD (.unresolved m.owner m.name m.descriptor isStatic),
    c.rememberAll found.visited)

/-- The method that a reference means, always under the owner that the reference names. Methods of
arrays are not searched for. -/
def method (c : Catalog) (m : MemberRef) (isStatic : Bool) : MethodRef × Catalog :=
  let unresolved := MethodRef.unresolved m.owner m.name m.descriptor isStatic
  match m.owner.toList with
  | '[' :: _ => (unresolved, c)
  | _ =>
    let found :=
      searchMember c.find? c.known (·.declaredMethod? m.name m.descriptor) together m.owner
    match found.answer with
    | some method => ({ method with owner := m.owner }, c.rememberAll found.visited)
    | none => (unresolved, c.rememberAll found.visited)

end Catalog

end ByteLift
