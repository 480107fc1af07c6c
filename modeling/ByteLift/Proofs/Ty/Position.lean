import ByteLift.Proofs.Ty.Descriptor

/-!
# Descriptors at a position

A position of a text is a number of bytes, and characters take one to four of them. A type can be
read at a position only if a character starts there. What is read is then the descriptor of the
type, and reading stops at the position behind it: nothing is skipped before it, and nothing behind
it is looked at.
-/

namespace ByteLift.Ty

/-! ## Counting bytes -/

@[simp] theorem byteCount_nil : byteCount [] = 0 := rfl

@[simp] theorem byteCount_cons (c : Char) (cs : List Char) :
    byteCount (c :: cs) = c.utf8Size + byteCount cs := by
  simp [byteCount]

@[simp] theorem byteCount_append (cs ds : List Char) :
    byteCount (cs ++ ds) = byteCount cs + byteCount ds := by
  simp [byteCount]

theorem byteCount_toList (text : String) : byteCount text.toList = text.utf8ByteSize := by
  have hlist (cs : List Char) : byteCount cs = (String.ofList cs).utf8ByteSize := by
    induction cs with
    | nil => rfl
    | cons c cs ih =>
      rw [byteCount_cons, ih, String.ofList_cons, String.utf8ByteSize_append,
        String.utf8ByteSize_singleton]
  rw [hlist, String.ofList_toList]

/-- What is left behind a number of bytes stands behind characters that take just so many. -/
theorem dropBytes?_eq_some_iff {n : Nat} {cs rest : List Char} :
    dropBytes? n cs = some rest ↔ ∃ before, cs = before ++ rest ∧ byteCount before = n := by
  fun_induction dropBytes? n cs with
  | case1 cs =>
    constructor
    · intro h
      cases h
      exact ⟨[], rfl, rfl⟩
    · rintro ⟨before, rfl, hbytes⟩
      cases before with
      | nil => rfl
      | cons c before =>
        have := c.utf8Size_pos
        rw [byteCount_cons] at hbytes
        omega
  | case2 n => simp [byteCount]
  | case3 n c cs hfits ih =>
    rw [ih]
    clear ih
    constructor
    · rintro ⟨before, rfl, hbytes⟩
      exact ⟨c :: before, rfl, by rw [byteCount_cons]; omega⟩
    · rintro ⟨before, hsplit, hbytes⟩
      cases before with
      | nil => simp at hbytes
      | cons d before =>
        cases hsplit
        rw [byteCount_cons] at hbytes
        exact ⟨before, rfl, by omega⟩
  | case4 n c cs hlong =>
    -- The position is inside the first character.
    simp only [reduceCtorEq, false_iff]
    rintro ⟨before, hsplit, hbytes⟩
    cases before with
    | nil => simp at hbytes
    | cons d before =>
      cases hsplit
      rw [byteCount_cons] at hbytes
      omega

/-! ## Reading at a position -/

variable {text : String} {pos next : Nat} {t : Ty}

theorem parseAt?_eq_some :
    parseAt? text pos = some (t, next) ↔ ∃ start rest, dropBytes? pos text.toList = some start ∧
      read? start = some (t, rest) ∧ next = pos + (byteCount start - byteCount rest) := by
  simp only [parseAt?, Option.bind_eq_bind, Option.bind_eq_some_iff, Option.pure_def,
    Option.some.injEq, Prod.exists, Prod.mk.injEq]
  constructor
  · rintro ⟨start, hstart, _, rest, hread, rfl, rfl⟩
    exact ⟨start, rest, hstart, hread, rfl⟩
  · rintro ⟨start, rest, hstart, hread, rfl⟩
    exact ⟨start, hstart, t, rest, hread, rfl, rfl⟩

/-- A type is read at a position just if its descriptor stands there, and the position behind the
descriptor is where reading stops. -/
theorem parseAt?_eq_some_iff :
    parseAt? text pos = some (t, next) ↔ t.isReadable = true ∧ ∃ before after,
      text = before ++ t.descriptor ++ after ∧ pos = before.utf8ByteSize ∧
        next = (before ++ t.descriptor).utf8ByteSize := by
  rw [parseAt?_eq_some]
  constructor
  · rintro ⟨start, rest, hstart, hread, rfl⟩
    obtain ⟨before, htext, rfl⟩ := dropBytes?_eq_some_iff.1 hstart
    obtain ⟨hreadable, rfl⟩ := eq_append_of_read? hread
    refine ⟨hreadable, String.ofList before, String.ofList rest, String.toList_inj.1 ?_, ?_, ?_⟩
    · simp [htext]
    · rw [← byteCount_toList, String.toList_ofList]
    · rw [← byteCount_toList, String.toList_append, String.toList_ofList, byteCount_append,
        byteCount_append]
      omega
  · rintro ⟨hreadable, before, after, rfl, rfl, rfl⟩
    refine ⟨t.descriptor.toList ++ after.toList, after.toList,
      dropBytes?_eq_some_iff.2 ⟨before.toList, ?_, ?_⟩, read?_descriptor hreadable _, ?_⟩
    · simp
    · rw [byteCount_toList]
    · rw [byteCount_append, Nat.add_sub_cancel, byteCount_toList, String.utf8ByteSize_append]

/-- Types and descriptors go together one to one. A whole text is read as a type just if it is the
descriptor of the type and the type has one of its own: a primitive type, `void`, a class whose name
is not empty and holds no semicolon, or an array of such types other than `void`. At a byte position
of a text, a type is read just if such a descriptor starts there, and reading ends where it does. -/
theorem reads_own_descriptor (text : String) (pos next : Nat) (t : Ty) :
    (parse? text = some t ↔ t.isReadable = true ∧ text = t.descriptor) ∧
      (parseAt? text pos = some (t, next) ↔ t.isReadable = true ∧ ∃ before after,
        text = before ++ t.descriptor ++ after ∧ pos = before.utf8ByteSize ∧
          next = (before ++ t.descriptor).utf8ByteSize) :=
  ⟨parse?_eq_some_iff, parseAt?_eq_some_iff⟩

-- The class name takes nine bytes, and nothing starts inside its first character.
example : parseAt? "I[Lé/世界;J" 1 = some (array (ref "é/世界"), 13) := by cbv

example : parseAt? "é;" 1 = none := by cbv

end ByteLift.Ty
