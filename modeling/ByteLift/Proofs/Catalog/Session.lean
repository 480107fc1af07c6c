import ByteLift.Proofs.Catalog.Walk

/-!
# Using one catalogue for many calls

What one call looked up, the next need not ask for again, and this must not show. The provider is
asked for a name at most once, a class that is entered stays, and as long as no class is defined,
each call is answered as by a catalogue without entries. A class that is defined takes the place of
a remembered miss, never of another class.
-/

namespace ByteLift.Catalog

/-- The calls that a catalogue answers. -/
inductive Call
  /-- The class of a name. -/
  | lookup (name : String)
  /-- A class and its superclasses. -/
  | chain (name : String)
  | field (member : MemberRef) (isStatic : Bool)
  | method (member : MemberRef) (isStatic : Bool)
  /-- Enters a class directly. -/
  | define (cls : ClassDef)
deriving DecidableEq

/-- The answers to calls. -/
inductive Answer
  | lookup (found : Option ClassInfo)
  | chain (classes : List ClassInfo)
  | field (found : FieldRef)
  | method (found : MethodRef)
  | define (entered : ClassInfo)
deriving DecidableEq

/-- Whether a call defines a class. -/
def Call.isDefine : Call → Bool
  | define _ => true
  | _ => false

/-- Answers a call. -/
def perform (c : Catalog) : Call → Answer × Catalog
  | .lookup name => (c.lookup name).map .lookup id
  | .chain name => (c.chain name).map .chain id
  | .field m isStatic => (c.field m isStatic).map .field id
  | .method m isStatic => (c.method m isStatic).map .method id
  | .define cls => (c.define (.ofDef cls)).map .define id

/-- Answers calls one after another. -/
def session (c : Catalog) : List Call → List Answer × Catalog
  | [] => ([], c)
  | call :: calls =>
    let (answer, c) := c.perform call
    let (answers, c) := c.session calls
    (answer :: answers, c)

/-- Answers a call by looking names up one by one. -/
def performByName (c : Catalog) : Call → Answer × Catalog
  | .lookup name => (ask name c).map .lookup id
  | .chain name => (walkChain c.known name c).map .chain id
  | .field m isStatic =>
    (walkMember c.known (·.declaredField? m.name) apart m.owner c).map
      (fun found => .field (found.getD (.unresolved m.owner m.name m.descriptor isStatic))) id
  | .method m isStatic =>
    let unresolved := MethodRef.unresolved m.owner m.name m.descriptor isStatic
    match m.owner.toList with
    | '[' :: _ => (.method unresolved, c)
    | _ =>
      (walkMember c.known (·.declaredMethod? m.name m.descriptor) together m.owner c).map
        (fun found => .method
        ((found.map fun method => { method with owner := m.owner }).getD unresolved)) id
  | .define cls => (c.define (.ofDef cls)).map .define id

variable {c c' c'' : Catalog} {name : String} {call : Call}

/-- A call looks names up one by one, each in the catalogue that the lookups before it left. -/
theorem perform_eq_performByName (c : Catalog) (call : Call) :
    c.perform call = c.performByName call := by
  cases call with
  | lookup name => rfl
  | chain name =>
    rw [performByName, walkChain_eq rfl]
    rfl
  | field m isStatic =>
    rw [performByName, walkMember_eq]
    rfl
  | method m isStatic =>
    simp only [perform, performByName, method, walkMember_eq]
    generalize (searchMember c.find? c.known (·.declaredMethod? m.name m.descriptor) together
      m.owner).answer = found
    cases m.owner.toList with
    | nil => cases found <;> rfl
    | cons ch tail =>
      by_cases hch : ch = '['
      · subst hch
        rfl
      · cases found <;> simp [hch]
  | define cls => rfl

/-! ## What a call leaves -/

/-- How a catalogue grows. Names get entries, and the names that the provider was asked for are some
of those that had none. An entry that holds a class stays as it is. -/
structure Extends (c c' : Catalog) : Prop where
  entries : ∀ name, (c.entry? name).isSome = true → (c'.entry? name).isSome = true
  classes : ∀ name info, c.entry? name = some (some info) → c'.entry? name = some (some info)
  asked : ∃ names, c'.asked = c.asked ++ names ∧ names.Nodup ∧
    ∀ name ∈ names, c.entry? name = none ∧ (c'.entry? name).isSome = true

theorem Extends.refl (c : Catalog) : c.Extends c := ⟨fun _ h => h, fun _ _ h => h, [], by simp⟩

theorem Extends.trans (h : c.Extends c') (h' : c'.Extends c'') : c.Extends c'' := by
  obtain ⟨names, hasked, hnodup, hnew⟩ := h.asked
  obtain ⟨names', hasked', hnodup', hnew'⟩ := h'.asked
  refine ⟨fun name hname => h'.entries name (h.entries name hname),
    fun name info hname => h'.classes name info (h.classes name info hname),
    names ++ names', ?_, ?_, ?_⟩
  · rw [hasked', hasked, List.append_assoc]
  · -- The names asked for later had no entry yet, those asked for first had one by then.
    refine List.nodup_append.2 ⟨hnodup, hnodup', fun name hname other hother heq => ?_⟩
    have hentered := (hnew name hname).2
    rw [heq, (hnew' other hother).1] at hentered
    cases hentered
  · intro name hname
    rcases List.mem_append.1 hname with hname | hname
    · exact ⟨(hnew name hname).1, h'.entries name (hnew name hname).2⟩
    · refine ⟨?_, (hnew' name hname).2⟩
      cases hentry : c.entry? name with
      | none => rfl
      | some entry =>
        have hentered := h.entries name (by rw [hentry]; rfl)
        rw [(hnew' name hname).1] at hentered
        cases hentered

section

variable (c : Catalog)

theorem extends_remember (name : String) : c.Extends (c.remember name) := by
  refine ⟨fun other hother => ?_, fun other info hother => ?_, ?_⟩
  · rw [entry?_remember, Option.isSome_or, hother]
    rfl
  · rw [entry?_remember, hother]
    rfl
  · cases hentry : c.entry? name with
    | some entry => exact ⟨[], by simp [remember, hentry]⟩
    | none =>
      refine ⟨[name], by simp [remember, hentry], by simp, ?_⟩
      simp [hentry, entry?_remember]

theorem extends_rememberAll (names : List String) : c.Extends (c.rememberAll names) := by
  induction names generalizing c with
  | nil => exact .refl c
  | cons name names ih => exact (c.extends_remember name).trans (ih (c.remember name))

/-- Defining a class enters it if there is no class under its name yet. Other entries stay. -/
theorem entry?_define (info : ClassInfo) (other : String) : entry? (c.define info).2 other =
      if other = info.name then some (some (((c.entry? info.name).getD none).getD info))
        else c.entry? other := by
  unfold define
  split
  · rename_i existing hentry
    by_cases hother : other = info.name
    · simp [hother, hentry]
    · simp [hother]
  · rename_i hentry
    have hreplace : ((c.entries.map fun e => if e.1 = info.name then (e.1, some info) else e).find?
        fun e => e.1 = other) =
          (c.entries.find? fun e => e.1 = other).map fun e =>
          if e.1 = info.name then (e.1, some info) else e := by
      rw [List.find?_map]
      congr 2
      funext e
      by_cases he : e.1 = info.name <;> simp [he]
    unfold entry? at hentry ⊢
    rw [hreplace]
    by_cases hother : other = info.name
    · subst hother
      obtain ⟨e, he, hnone⟩ := Option.map_eq_some_iff.1 hentry
      have hname : e.1 = info.name := by simpa using List.find?_some he
      simp [he, hname, hnone]
    · cases he : c.entries.find? fun e => e.1 = other with
      | none => simp [hother]
      | some e =>
        have hname : e.1 = other := by simpa using List.find?_some he
        simp [hname, hother]
  · rename_i hentry
    unfold entry? at hentry ⊢
    rw [List.find?_append]
    by_cases hother : other = info.name
    · subst hother
      have hnone := Option.map_eq_none_iff.1 hentry
      simp [hnone]
    · simp [hother, Ne.symm hother]

theorem extends_define (info : ClassInfo) : c.Extends (c.define info).2 := by
  have hasked : (c.define info).2.asked = c.asked := by
    unfold define
    split <;> rfl
  refine ⟨fun other hother => ?_, fun other found hother => ?_, [],
    by rw [hasked, List.append_nil], by simp⟩
  · rw [entry?_define]
    split
    · rfl
    · exact hother
  · rw [entry?_define]
    split
    · rename_i heq
      rw [← heq, hother]
      rfl
    · exact hother

theorem extends_perform (call : Call) : c.Extends (c.perform call).2 := by
  cases call with
  | lookup name => exact c.extends_remember name
  | chain name => exact c.extends_rememberAll _
  | field m isStatic => exact c.extends_rememberAll _
  | method m isStatic =>
    show c.Extends (c.method m isStatic).2
    unfold method
    dsimp only
    split
    · exact .refl c
    · split <;> exact c.extends_rememberAll _
  | define cls => exact c.extends_define _

theorem extends_session (calls : List Call) : c.Extends (c.session calls).2 := by
  induction calls generalizing c with
  | nil => exact .refl c
  | cons call calls ih => exact (c.extends_perform call).trans (ih _)

theorem session_append (calls calls' : List Call) :
    (c.session (calls ++ calls')).2 = ((c.session calls).2.session calls').2 := by
  induction calls generalizing c with
  | nil => rfl
  | cons call calls ih => exact ih _

end

/-! ## What can be found -/

/-- Only defining a class changes what can be found. -/
theorem find?_perform (h : call.isDefine = false) : (c.perform call).2.find? = c.find? := by
  cases call with
  | lookup name => exact c.find?_remember name
  | chain name => exact c.find?_rememberAll _
  | field m isStatic => exact c.find?_field m isStatic
  | method m isStatic => exact c.find?_method m isStatic
  | define cls => cases h

/-- Catalogues in which the same can be found answer alike. -/
theorem perform_congr (h : c'.find? = c.find?) (hcall : call.isDefine = false) :
    (c'.perform call).1 = (c.perform call).1 := by
  cases call with
  | lookup name => exact congrArg Answer.lookup (congrFun h name)
  | chain name =>
    refine congrArg Answer.chain ?_
    simp only [h, superChain_congr (agreeOn_known h)]
  | field m isStatic => exact congrArg Answer.field (field_congr h m isStatic)
  | method m isStatic => exact congrArg Answer.method (method_congr h m isStatic)
  | define cls => cases hcall

theorem session_congr {calls : List Call} (h : c'.find? = c.find?)
    (hcalls : ∀ call ∈ calls, call.isDefine = false) :
    (c'.session calls).1 = calls.map fun call => (c.perform call).1 := by
  induction calls generalizing c' with
  | nil => rfl
  | cons call calls ih =>
    rw [List.forall_mem_cons] at hcalls
    have hrest := ih ((find?_perform hcalls.1).trans h) hcalls.2
    rw [List.map_cons, ← perform_congr h hcalls.1, ← hrest]
    rfl

/-! ## Sessions -/

/-- A catalogue without entries, of a provider that gives each class by the name it is listed
with. -/
def fresh (provided : List (String × ClassInfo)) : Catalog := ⟨provided, [], []⟩

/-- A catalogue can be shared by any sequence of calls, each of which reads and fills it as it goes.
The provider is asked for no name twice, and a class that is entered after some of the calls is
still entered after the rest. If no class is defined, each call is answered as by a catalogue
without entries. -/
theorem session_transparent (provided : List (String × ClassInfo)) (calls : List Call) :
    (∀ c call, perform c call = performByName c call) ∧
      ((fresh provided).session calls).2.asked.Nodup ∧
      (∀ before after name info, calls = before ++ after →
        entry? ((fresh provided).session before).2 name = some (some info) →
        entry? ((fresh provided).session calls).2 name = some (some info)) ∧
      ((∀ call ∈ calls, call.isDefine = false) →
        ((fresh provided).session calls).1 = calls.map fun call =>
          ((fresh provided).perform call).1) := by
  refine ⟨perform_eq_performByName, ?_, ?_, session_congr rfl⟩
  · obtain ⟨names, hasked, hnodup, _⟩ := (extends_session (fresh provided) calls).asked
    rw [hasked]
    exact hnodup
  · rintro before after name info rfl hentry
    rw [session_append]
    exact (extends_session _ after).classes name info hentry

/-- A class `a/Base` with a field. -/
def baseClass : ClassDef :=
  { name := "a/Base", superName := some Ty.objectClass, interfaces := ["a/Shape"], access := ⟨0x21⟩
    fields := [⟨"count", "I", ⟨0x4⟩⟩], methods := [⟨"size", "()I", ⟨0x1⟩, none, []⟩] }

/-- A class `a/Derived` that extends `a/Base`. -/
def derivedClass : ClassDef :=
  { name := "a/Derived", superName := some "a/Base", interfaces := [], access := ⟨0x21⟩,
    fields := [], methods := [] }

/-- A field and a method that `a/Derived` inherits, and a method that no class declares. -/
def inheritedCalls : List Call :=
  [.field ⟨"a/Derived", "count", "I"⟩ false, .method ⟨"a/Derived", "size", "()I"⟩ false,
    .method ⟨"a/Derived", "area", "()D"⟩ false, .chain "a/Base"]

/-- The last call needs nothing that was not looked up by the others. -/
theorem session_transparent_inheritedCalls :
    (∀ call ∈ inheritedCalls, call.isDefine = false) ∧
      ((fresh [("a/Base", .ofDef baseClass), ("a/Derived", .ofDef derivedClass)]).session
        inheritedCalls).1 = inheritedCalls.map fun call =>
          ((fresh [("a/Base", .ofDef baseClass),
            ("a/Derived", .ofDef derivedClass)]).perform call).1 := by
  have hcalls : ∀ call ∈ inheritedCalls, call.isDefine = false := by decide
  exact ⟨hcalls, (session_transparent _ inheritedCalls).2.2.2 hcalls⟩

-- A miss that was remembered gives way to a definition, so the session answers otherwise than the
-- provider would.
example : ((fresh []).session [.lookup "a/Base", .define baseClass, .lookup "a/Base"]).1 =
    [.lookup none, .define (.ofDef baseClass), .lookup (some (.ofDef baseClass))] := by cbv

end ByteLift.Catalog
