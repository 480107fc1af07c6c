import Mathlib
import ByteLift.Decompiler
import ByteLift.Proofs.Catalog.Lookup
import ByteLift.Proofs.Lift.Header

/-!
# The methods of a class

The methods of a class share one catalogue, but each only makes it remember what could be found in
it already. So each is what it is by itself: the method that is decompiled alone, or the bare
declaration with the report of the failure that it meets alone.
-/

namespace ByteLift

/-- Entering what was looked up changes nothing that can be found. -/
theorem Catalog.find?_replay (c : Catalog) (queries : List Query) :
    (c.replay queries).find? = c.find? := by
  unfold replay
  induction queries generalizing c with
  | nil => rfl
  | cons q queries ih =>
    rw [List.foldl_cons, ih]
    cases q with
    | field m isStatic => exact c.find?_field m isStatic
    | method m isStatic => exact c.find?_method m isStatic

/-! ## One method -/

namespace MethodDecl

variable {m : MethodDecl} {options : Options} {cls : ClassDef} {code : Code} {c c' : Catalog}

theorem context_congr (h : c'.find? = c.find?) : m.context cls c' = m.context cls c := by
  simp only [context, Catalog.field_congr h, Catalog.method_congr h]

/-- What a method becomes or why it fails, and what is looked up on the way, given what lifting has
to know. -/
def attempt (m : MethodDecl) (options : Options) (ctx : Context) (code : Code) :
    Except Failure MethodDecl × List Query :=
  let lifted := FlatCode.ofCode ctx code m.vars .empty
  (do
    let flat ← lifted.1
    let (nested, labels) ← Block.nest flat.block flat.labels flat.vars options.order
    let block := finishBlock options flat.vars nested
    let vars := { m with vars := flat.vars }.uniqueNames block
    return { m with vars, body := some ⟨block, labels⟩, error := none }, lifted.2)

/-- A method is decompiled with what can be found in the catalogue, which remembers what was looked
up. -/
theorem decompile_eq_attempt : m.decompile options cls code c =
    match m.attempt options (m.context cls c) code with
    | (.ok d, queries) => .ok d (c.replay queries)
    | (.error failure, queries) => .error failure (c.replay queries) := by
  simp only [decompile, lift, attempt, bind, EStateM.bind, get, getThe, MonadStateOf.get,
    EStateM.get, set, EStateM.set, Except.bind]
  cases (FlatCode.ofCode (m.context cls c) code m.vars .empty).1 with
  | error failure => rfl
  | ok flat =>
    simp only [Decompile.ofExcept, pure, EStateM.pure]
    cases Block.nest flat.block flat.labels flat.vars options.order with
    | error failure => rfl
    | ok nested => rfl

/-- A method leaves a catalogue in which the same can be found, and what becomes of it depends on
nothing else of the catalogue. -/
theorem decompile_cases (m : MethodDecl) (options : Options) (cls : ClassDef) (code : Code)
    (h : c'.find? = c.find?) : (∃ d after after', m.decompile options cls code c = .ok d after ∧
      m.decompile options cls code c' = .ok d after' ∧ after'.find? = c.find?) ∨
    ∃ failure after after', m.decompile options cls code c = .error failure after ∧
      m.decompile options cls code c' = .error failure after' ∧ after'.find? = c.find? := by
  rw [decompile_eq_attempt, decompile_eq_attempt, context_congr h]
  rcases m.attempt options (m.context cls c) code with ⟨result, queries⟩
  have hafter : (c'.replay queries).find? = c.find? := (c'.find?_replay queries).trans h
  cases result with
  | ok d => exact .inl ⟨d, _, _, rfl, rfl, hafter⟩
  | error failure => exact .inr ⟨failure, _, _, rfl, rfl, hafter⟩

end MethodDecl

/-! ## All methods -/

/-- The methods of a class that are declared in source. -/
def ClassDef.kept (cls : ClassDef) (includeSynthetic : Bool) : List MethodDef :=
  cls.methods.filter fun m => includeSynthetic || !m.access.isSynthetic

theorem ClassDef.kept_subset (cls : ClassDef) (includeSynthetic : Bool) :
    cls.kept includeSynthetic ⊆ cls.methods := List.filter_subset_self _

theorem ClassDecl.methods_ofDef (cls : ClassDef) (includeSynthetic : Bool) :
    (ClassDecl.ofDef cls includeSynthetic).methods =
      (cls.kept includeSynthetic).map MethodDecl.ofDef :=
  List.filter_map

/-- Methods are told apart by their names and descriptors. -/
def ClassDef.Distinct (cls : ClassDef) : Prop :=
  (cls.methods.map fun m => (m.name, m.descriptor)).Nodup

variable {cls : ClassDef} {m : MethodDef}

theorem ClassDef.Distinct.findMethod? (h : cls.Distinct) (hm : m ∈ cls.methods) :
    cls.findMethod? m.name m.descriptor = some m := by
  have hfound : (cls.findMethod? m.name m.descriptor).isSome := List.find?_isSome.2 ⟨m, hm, by simp⟩
  obtain ⟨m', hm'⟩ := Option.isSome_iff_exists.1 hfound
  have hkey : m'.name = m.name ∧ m'.descriptor = m.descriptor := by simpa using List.find?_some hm'
  rw [hm', List.inj_on_of_nodup_map h (List.mem_of_find?_eq_some hm') hm (Prod.ext hkey.1 hkey.2)]

/-- A declaration in a class against the method alone: the declaration is the method, or it is bare
and reports why the method fails. -/
def Reported (alone : EStateM.Result Failure Catalog MethodDecl) (m : MethodDef)
    (d : MethodDecl) : Prop :=
  match alone with
  | .ok whole _ => d = whole
  | .error failure _ => ∃ code, m.code = some code ∧
      d = { MethodDecl.ofDef m with error := some (failureReport m code failure) }

/-- There is one declaration for each outcome of a method alone. -/
theorem Reported.unique {alone : EStateM.Result Failure Catalog MethodDecl} {d d' : MethodDecl}
    (h : Reported alone m d) (h' : Reported alone m d') : d = d' := by
  unfold Reported at h h'
  split at h
  · exact h.trans h'.symm
  · obtain ⟨code, hcode, rfl⟩ := h
    obtain ⟨code', hcode', rfl⟩ := h'
    cases hcode.symm.trans hcode'
    rfl

section

variable {c start : Catalog}

/-- The catalogue that the methods of a class start with. -/
def Catalog.defining (c : Catalog) (cls : ClassDef) : Catalog := (c.define (ClassInfo.ofDef cls)).2

variable (options : Options)

theorem decompileMethod_eq (hfind : cls.findMethod? m.name m.descriptor = some m) :
    decompileMethod options cls m.name m.descriptor c =
      match m.code with
      | some code => (MethodDecl.ofDef m).decompile options cls code (c.defining cls)
      | none => .ok (MethodDecl.ofDef m) (c.defining cls) := by
  simp only [decompileMethod, hfind]
  cases m.code <;> rfl

/-- A method of a class is what it is alone, whatever was looked up before it. -/
theorem decompileMember_reported (hfind : cls.findMethod? m.name m.descriptor = some m)
    (hstart : start.find? = (c.defining cls).find?) :
    ∃ d after, decompileMember options cls (.ofDef m) start = .ok d after ∧
      after.find? = (c.defining cls).find? ∧
      Reported (decompileMethod options cls m.name m.descriptor c) m d := by
  have hfind' : cls.findMethod? (MethodDecl.ofDef m).name (MethodDecl.ofDef m).descriptor =
    some m := hfind
  rw [decompileMethod_eq options hfind]
  simp only [decompileMember, hfind']
  cases hcode : m.code with
  | none => exact ⟨_, start, rfl, hstart, rfl⟩
  | some code =>
    rcases MethodDecl.decompile_cases (.ofDef m) options cls code hstart with
      ⟨d, _, after, halone, hmember, hafter⟩ | ⟨failure, _, after, halone, hmember, hafter⟩
    · simp only [halone, hmember]
      exact ⟨d, after, rfl, hafter, rfl⟩
    · simp only [halone, hmember]
      exact ⟨_, after, rfl, hafter, code, hcode, rfl⟩

theorem decompileMembers_reported {ms : List MethodDef}
    (hfind : ∀ m ∈ ms, cls.findMethod? m.name m.descriptor = some m)
    (hstart : start.find? = (c.defining cls).find?) :
    ∃ ds after, decompileMembers options cls (ms.map .ofDef) start = .ok ds after ∧
      List.Forall₂ (fun m d => Reported (decompileMethod options cls m.name m.descriptor c) m d) ms
        ds := by
  induction ms generalizing start with
  | nil => exact ⟨[], start, rfl, .nil⟩
  | cons m ms ih =>
    rw [List.forall_mem_cons] at hfind
    obtain ⟨d, next, hmember, hnext, hreported⟩ := decompileMember_reported options hfind.1 hstart
    obtain ⟨ds, after, hmembers, hall⟩ := ih hfind.2 hnext
    refine ⟨d :: ds, after, ?_, .cons hreported hall⟩
    simp only [List.map_cons, decompileMembers, bind, EStateM.bind, hmember, hmembers]
    rfl

theorem decompileClass_reported (c : Catalog) (hcls : cls.Distinct) :
    ∃ decl after, decompileClass options cls c = .ok decl after ∧
      List.Forall₂ (fun m d => Reported (decompileMethod options cls m.name m.descriptor c) m d)
        (cls.kept options.includeSynthetic) decl.methods := by
  have hfind : ∀ m ∈ cls.kept options.includeSynthetic,
    cls.findMethod? m.name m.descriptor = some m :=
    fun m hm => hcls.findMethod? (cls.kept_subset _ hm)
  have hstart : (c.defining cls).find? = (c.defining cls).find? := rfl
  obtain ⟨ds, after, hmembers, hall⟩ := decompileMembers_reported options hfind hstart
  rw [← ClassDecl.methods_ofDef] at hmembers
  refine ⟨{ ClassDecl.ofDef cls options.includeSynthetic with methods := ds }, after, ?_, hall⟩
  have hdefine : Decompile.define cls c = .ok () (c.defining cls) := rfl
  simp only [decompileClass, bind, EStateM.bind, hdefine, hmembers]
  rfl

end

/-! ## The code of the other methods -/

/-- A class in which all methods but one have other code. -/
def ClassDef.recode (cls : ClassDef) (keep : MethodDef) (code : MethodDef → Option Code) :
    ClassDef :=
  { cls with methods := cls.methods.map fun m =>
      if m.name = keep.name ∧ m.descriptor = keep.descriptor then m else { m with code := code m } }

namespace ClassDef

variable (cls : ClassDef) (keep : MethodDef) (code : MethodDef → Option Code)

theorem distinct_recode (h : cls.Distinct) : (cls.recode keep code).Distinct := by
  have hkeys : (cls.recode keep code).methods.map (fun m => (m.name, m.descriptor)) =
      cls.methods.map fun m => (m.name, m.descriptor) := by
    simp only [recode, List.map_map]
    refine List.map_congr_left fun m _ => ?_
    simp only [Function.comp_apply]
    split <;> rfl
  rw [Distinct, hkeys]
  exact h

theorem ofDef_recode : ClassInfo.ofDef (cls.recode keep code) = ClassInfo.ofDef cls := by
  simp only [ClassInfo.ofDef, recode, List.map_map]
  congr 1
  refine List.map_congr_left fun m _ => ?_
  simp only [Function.comp_apply]
  split <;> rfl

theorem kept_recode (includeSynthetic : Bool) :
    (cls.recode keep code).kept includeSynthetic = (cls.kept includeSynthetic).map fun m =>
      if m.name = keep.name ∧ m.descriptor =
        keep.descriptor then m else { m with code := code m } := by
  rw [kept, recode, List.filter_map, kept]
  congr 1
  refine List.filter_congr fun m _ => ?_
  simp only [Function.comp_apply]
  split <;> rfl

end ClassDef

/-- What becomes of a method alone does not depend on the code of the other methods of its class. -/
theorem decompileMethod_recode {options : Options} {c : Catalog} (hcls : cls.Distinct)
    (hm : m ∈ cls.methods) (code : MethodDef → Option Code) :
    decompileMethod options (cls.recode m code) m.name m.descriptor c =
      decompileMethod options cls m.name m.descriptor c := by
  have hm' : m ∈ (cls.recode m code).methods := List.mem_map.2 ⟨m, hm, if_pos ⟨rfl, rfl⟩⟩
  have hdefining : c.defining (cls.recode m code) = c.defining cls := by
    simp only [Catalog.defining, ClassDef.ofDef_recode]
  rw [decompileMethod_eq options (hcls.findMethod? hm),
    decompileMethod_eq options ((cls.distinct_recode m code hcls).findMethod? hm'), hdefining]
  cases m.code with
  | none => rfl
  | some own =>
    -- Lifting sees the class in the context only, and looks at none of its methods there.
    have hlift := FlatCode.ofCode_withMethods ((MethodDecl.ofDef m).context cls (c.defining cls))
      (cls.recode m code).methods own (MethodDecl.ofDef m).vars .empty
    have hattempt : (MethodDecl.ofDef m).attempt options
          ((MethodDecl.ofDef m).context (cls.recode m code) (c.defining cls)) own =
        (MethodDecl.ofDef m).attempt options
          ((MethodDecl.ofDef m).context cls (c.defining cls)) own := by
      simp only [MethodDecl.attempt]
      rw [← hlift]
      rfl
    simp only [MethodDecl.decompile_eq_attempt, hattempt]

/-- Decompiling a class gives, for each method that is declared in source and in the same order, the
method as it is decompiled alone, or the bare declaration with the report of the failure. It does
not change if all other methods of the class are given other code. -/
theorem decompileClass_eq_decompileMethod (options : Options) (cls : ClassDef) (c : Catalog)
    (hdistinct : (cls.methods.map fun m => (m.name, m.descriptor)).Nodup) :
    ∃ decl after, decompileClass options cls c = .ok decl after ∧
      List.Forall₂ (fun m d => Reported (decompileMethod options cls m.name m.descriptor c) m d)
        (cls.kept options.includeSynthetic) decl.methods ∧
      ∀ (i : Nat) (m : MethodDef) (code : MethodDef → Option Code),
        (cls.kept options.includeSynthetic)[i]? = some m →
          ∃ decl' after', decompileClass options (cls.recode m code) c = .ok decl' after' ∧
            decl'.methods[i]? = decl.methods[i]? := by
  obtain ⟨decl, after, hdecl, hall⟩ := decompileClass_reported options c hdistinct
  refine ⟨decl, after, hdecl, hall, fun i m code hi => ?_⟩
  obtain ⟨decl', after', hdecl', hall'⟩ :=
    decompileClass_reported options c (cls.distinct_recode m code hdistinct)
  refine ⟨decl', after', hdecl', ?_⟩
  have hm := cls.kept_subset _ (List.mem_of_getElem? hi)
  have hi' : ((cls.recode m code).kept options.includeSynthetic)[i]? = some m := by
    rw [ClassDef.kept_recode, List.getElem?_map, hi]
    exact congrArg some (if_pos ⟨rfl, rfl⟩)
  -- The method stands at the same place in both lists, and is reported there as it is alone.
  obtain ⟨hlt, hget⟩ := List.getElem?_eq_some_iff.1 hi
  obtain ⟨hlt', hget'⟩ := List.getElem?_eq_some_iff.1 hi'
  have hreported := hall.get hlt (hall.length_eq ▸ hlt)
  have hreported' := hall'.get hlt' (hall'.length_eq ▸ hlt')
  simp only [List.get_eq_getElem, hget] at hreported
  simp only [List.get_eq_getElem, hget', decompileMethod_recode hdistinct hm] at hreported'
  rw [List.getElem?_eq_getElem (hall'.length_eq ▸ hlt'),
    List.getElem?_eq_getElem (hall.length_eq ▸ hlt), hreported.unique hreported']

/-- A class with a method that fails and one that gives back its parameter. -/
def halfBroken : ClassDef :=
  { name := "Half", superName := some Ty.objectClass, interfaces := [],
    access := ⟨0x21⟩, fields := []
    methods := [⟨"broken", "()V", ⟨0x9⟩, some (.sequential 0 [.pop, .methodReturn none]), []⟩,
      ⟨"same", "(I)I", ⟨0x9⟩, some (.sequential 1 [.load .int 0, .methodReturn (some .int)]), []⟩] }

theorem decompileClass_halfBroken :
    (halfBroken.methods.map fun m => (m.name, m.descriptor)).Nodup ∧
      ∃ decl after broken same, decompileClass {} halfBroken (.ofProvider []) = .ok decl after ∧
        decl.methods = [broken, same] ∧ broken.error.isSome = true ∧ broken.body = none ∧
        same.body.isSome = true := by
  have hdistinct : (halfBroken.methods.map fun m => (m.name, m.descriptor)).Nodup := by decide
  have hbroken : (match decompileMethod {} halfBroken "broken" "()V" (.ofProvider []) with
      | .ok .. => false
      | .error .. => true) = true := by cbv
  have hsame : (match decompileMethod {} halfBroken "same" "(I)I" (.ofProvider []) with
      | .ok d _ => d.body.isSome
      | .error .. => false) = true := by cbv
  obtain ⟨decl, after, hdecl, hall, _⟩ :=
    decompileClass_eq_decompileMethod {} halfBroken (.ofProvider []) hdistinct
  obtain ⟨broken, _, hreported, hrest, hmethods⟩ := List.forall₂_cons_left_iff.1 hall
  obtain ⟨same, _, hreported', hnone, rfl⟩ := List.forall₂_cons_left_iff.1 hrest
  rw [List.forall₂_nil_left_iff.1 hnone] at hmethods
  refine ⟨hdistinct, decl, after, broken, same, hdecl, hmethods, ?_⟩
  · dsimp only [Reported] at hreported hreported'
    split at hbroken
    · cases hbroken
    · rename_i heq
      split at hsame
      · rename_i heq'
        simp only [heq, heq'] at hreported hreported'
        obtain ⟨code, _, rfl⟩ := hreported
        exact ⟨rfl, rfl, hreported' ▸ hsame⟩
      · cases hsame

end ByteLift
