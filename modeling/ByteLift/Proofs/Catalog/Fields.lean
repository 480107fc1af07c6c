import ByteLift.Proofs.Catalog.Resolution
import ByteLift.Proofs.Ty.Descriptor

/-!
# Which field a reference means

Fields are searched for by name alone, and the reference's descriptor is looked at only if nothing
declares the name. So a field that is found has another type than the reference says exactly if the
declaration that decides has another descriptor.
-/

namespace ByteLift

open ClassInfo

/-- A descriptor gives the type of one that can be read only if it is the same. -/
theorem Ty.parse?_getD_eq_iff {descriptor other : String} {t : Ty}
    (h : parse? descriptor = some t) : (parse? other).getD .unknown = t ↔ other = descriptor := by
  obtain ⟨hreadable, hdescriptor⟩ := parse?_eq_some_iff.1 h
  refine ⟨fun heq => ?_, fun heq => by rw [heq, h]; rfl⟩
  cases hother : parse? other with
  | none =>
    rw [hother, Option.getD_none] at heq
    rw [← heq] at hreadable
    cases hreadable
  | some u =>
    rw [hother, Option.getD_some] at heq
    rw [(parse?_eq_some_iff.1 hother).2, hdescriptor, heq]

namespace ClassInfo

/-- What a class file says of a field, as its users see it. -/
def fieldOfDef (cls : ClassDef) (f : FieldDef) : FieldRef :=
  { FieldRef.unresolved cls.name f.name f.descriptor f.access.isStatic with resolved := true }

theorem declaredField?_ofDef (cls : ClassDef) (name : String) :
    (ofDef cls).declaredField? name = (cls.fields.find? fun f => f.name = name).map
      (fieldOfDef cls) :=
  List.find?_map ..

end ClassInfo

namespace Catalog

variable {c : Catalog} {m : MemberRef} {isStatic : Bool}

/-- A class or an interface that the owner of a reference can have members from. -/
def OnPath (c : Catalog) (m : MemberRef) (info : ClassInfo) : Prop :=
  InChain c.find? m.owner info ∨ InterfaceAbove c.find? m.owner info

/-- A description is what is found for a field reference with a descriptor of a type. -/
structure ResolvesField (c : Catalog) (m : MemberRef) (isStatic : Bool) (t : Ty)
    (r : FieldRef) : Prop where
  name : r.name = m.name
  /-- It is resolved exactly if a class or an interface on the path declares the name, with any
  type. -/
  resolved_iff : r.resolved = true ↔ ∃ info, c.OnPath m info ∧ ∃ f ∈ info.fields, f.name = m.name
  /-- The nearest class that declares the name decides. -/
  nearest : ∀ n info d, ancestor? c.find? n m.owner = some info →
    info.declaredField? m.name = some d →
    (∀ k < n, ∀ below, ancestor? c.find? k m.owner = some below →
    below.declaredField? m.name = none) → r = d
  /-- If no class declares the name, an interface decides. -/
  interface : (∀ info, InChain c.find? m.owner info → info.declaredField? m.name = none) →
    r.resolved = true →
    ∃ info, InterfaceAbove c.find? m.owner info ∧ info.declaredField? m.name = some r
  /-- The first field of the name in the file that decides gives the description, and its type is
  the one of the reference only if its descriptor is. -/
  declared : r.resolved = true → ∃ cls f, c.OnPath m (.ofDef cls) ∧
    cls.fields.find? (fun f => f.name = m.name) = some f ∧ r = fieldOfDef cls f ∧
    (r.ty = t ↔ f.descriptor = m.descriptor)
  unresolved : r.resolved = false → r = ⟨m.owner, m.name, t, isStatic, false⟩

/-- Where all classes come from class files, the field that decides is found. -/
theorem Told.resolvesField (h : c.Told) {t : Ty} (ht : Ty.parse? m.descriptor = some t) :
    c.ResolvesField m isStatic t (c.field m isStatic).1 := by
  have hu : ∀ name info, c.find? name = some info → name ∈ c.known := fun _ _ => mem_known_of_find?
  have hrows (chain : List ClassInfo) : (apart chain).flatten = chain.flatMap interfaces :=
    List.flatMap_def.symm
  have hnone {info : ClassInfo} :
    info.declaredField? m.name = none ↔ ¬ ∃ f ∈ info.fields, f.name = m.name := by
    simp [declaredField?]
  rw [field]
  dsimp only
  cases hanswer : (searchMember c.find? c.known (·.declaredField? m.name) apart m.owner).answer with
  | some d =>
    obtain ⟨info, hinfo, hd⟩ := ancestor_of_searchMember hu hrows hanswer
    obtain ⟨cls, rfl⟩ := h.exists_ofDef hinfo
    have hsome := hd
    rw [declaredField?_ofDef] at hd
    obtain ⟨f, hf, rfl⟩ := Option.map_eq_some_iff.1 hd
    have hname : f.name = m.name := by simpa using List.find?_some hf
    refine ⟨hname, ?_, ?_, ?_, fun _ => ⟨cls, f, hinfo, hf, rfl, Ty.parse?_getD_eq_iff ht⟩, ?_⟩
    · refine iff_of_true rfl ⟨_, hinfo, not_not.1 fun hno => ?_⟩
      exact Option.some_ne_none _ (hsome.symm.trans (hnone.2 hno))
    · intro n near e hnear he hbelow
      rw [searchMember_of_nearest hu hnear he hbelow] at hanswer
      exact (Option.some.inj hanswer).symm
    · intro hchain _
      exact exists_interfaceAbove_of_searchMember hu hrows hchain hanswer
    · intro hno
      cases hno
  | none =>
    have hmissing {info : ClassInfo} (hinfo : c.OnPath m info) :
      info.declaredField? m.name = none :=
      give_eq_none_of_searchMember hu hrows hanswer hinfo
    refine ⟨rfl, ?_, ?_, ?_, ?_, fun _ => ?_⟩
    · refine iff_of_false (by simp [FieldRef.unresolved]) ?_
      rintro ⟨info, hinfo, hdecl⟩
      exact hnone.1 (hmissing hinfo) hdecl
    · intro n near e hnear he _
      rw [hmissing (.inl (inChain_of_ancestor? hnear))] at he
      cases he
    · intro _ hresolved
      cases hresolved
    · intro hresolved
      cases hresolved
    · rw [Option.getD_none, FieldRef.unresolved, ht, Option.getD_some]

/-- Resolving a field is a complete search by name. In whatever state earlier calls have left the
catalogue, a reference whose descriptor can be read gets the field that decides, with the type of
its own declaration; the type of the reference is right if every declaration of the name on the path
has it, and if there is none. -/
theorem field_resolves_by_name (defs : List ClassDef) (calls : List Call) (m : MemberRef)
    (isStatic : Bool) (t : Ty) (ht : Ty.parse? m.descriptor = some t) :
    let c := ((ofProvider (defs.map ofDef)).session calls).2
    let r := (c.field m isStatic).1
    c.ResolvesField m isStatic t r ∧
      ((∀ cls, c.OnPath m (.ofDef cls) → ∀ f ∈ cls.fields,
        f.name = m.name → f.descriptor = m.descriptor) →
        r.ty = t) := by
  intro c r
  have h : c.ResolvesField m isStatic t r := ((told_ofProvider defs).session calls).resolvesField ht
  refine ⟨h, fun hall => ?_⟩
  cases hresolved : r.resolved with
  | false => exact congrArg FieldRef.ty (h.unresolved hresolved)
  | true =>
    obtain ⟨cls, f, hpath, hf, _, hty⟩ := h.declared hresolved
    exact hty.2 (hall cls hpath f (List.mem_of_find?_eq_some hf)
      (by simpa using List.find?_some hf))

/-- A class with a field of type int, and a subclass whose field of the same name has type long. -/
def twoFields : List ClassDef :=
  [{ plainClass "a/Top" none [] with fields := [⟨"x", "I", ⟨0x1⟩⟩] },
    { plainClass "a/Low" (some "a/Top") [] with fields := [⟨"x", "J", ⟨0x1⟩⟩] }]

theorem field_resolves_by_name_twoFields :
    Ty.parse? "I" = some .int ∧
      ((ofProvider (twoFields.map ofDef)).field ⟨"a/Low", "x", "I"⟩ false).1.resolved = true := by
  have hparse : Ty.parse? "I" = some .int := by decide +kernel
  have hfields := (field_resolves_by_name twoFields [] ⟨"a/Low", "x", "I"⟩ false .int hparse).1
  exact ⟨hparse, hfields.resolved_iff.2 ⟨_, .inl ⟨"a/Low", .refl, rfl⟩, _, List.mem_cons_self, rfl⟩⟩

/-- The reference to the inherited field gets the field of the subclass, and with it the other
type. -/
theorem field_ignores_descriptor :
    Ty.parse? "I" = some .int ∧
      ((ofProvider (twoFields.map ofDef)).field ⟨"a/Low", "x", "I"⟩ false).1 =
        ⟨"a/Low", "x", .long, false, true⟩ := by
  decide +kernel

end Catalog

end ByteLift
