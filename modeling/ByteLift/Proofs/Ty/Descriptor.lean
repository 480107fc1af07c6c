import Mathlib.Data.List.TakeWhile
import ByteLift.Ty.Descriptor

/-!
# Descriptors that are read back

A type that is read off the front of a text is the type whose descriptor stands there, and a row of
descriptors falls apart in one way only. The bracket behind the parameters of a method is found by
looking for the first one. A class name may hold a bracket itself, and is then taken for the end of
the parameters, although the parameter is read as far as its own end.
-/

namespace ByteLift

open List

section

variable {α : Type} [DecidableEq α] {x y : α} {before after : List α}

/-! ## The first occurrence of an entry -/

/-- A list that holds an entry is cut in two at its first occurrence. -/
theorem eq_append_of_dropWhile_ne {l : List α} (h : l.dropWhile (· ≠ x) = y :: after) :
    y = x ∧ x ∉ l.takeWhile (· ≠ x) ∧ l = l.takeWhile (· ≠ x) ++ x :: after := by
  have hy : y = x := by
    have hstop :=
      head_dropWhile_not (fun z => decide (z ≠ x)) (l := l) (h ▸ cons_ne_nil y after)
    simp only [h, head_cons] at hstop
    simpa using hstop
  have hnot : x ∉ l.takeWhile (· ≠ x) := by
    intro hmem
    simpa using mem_takeWhile_imp hmem
  have hsplit := takeWhile_append_dropWhile (p := fun z => decide (z ≠ x)) (l := l)
  rw [h, hy] at hsplit
  exact ⟨hy, hnot, hsplit.symm⟩

end

namespace Ty

/-! ## One type -/

/-- Whether some text is read as the type: names are not empty and end before the first semicolon,
and there are no arrays of `void`. -/
def isReadable : Ty → Bool
  | ref name => name ≠ "" && !name.toList.contains ';'
  | array t => t ≠ void && t.isReadable
  | null | unknown => false
  | _ => true

variable {t : Ty} {cs rest : List Char} {params : List Ty}

/-- A type is read back from its descriptor, whatever follows it. -/
theorem read?_descriptor (h : t.isReadable = true) (rest : List Char) :
    read? (t.descriptor.toList ++ rest) = some (t, rest) := by
  induction t with
  | ref name =>
    simp only [isReadable, Bool.and_eq_true, decide_eq_true_eq, Bool.not_eq_true',
      contains_eq_mem, decide_eq_false_iff_not] at h
    obtain ⟨hne, hsemi⟩ := h
    have hname : name.toList ≠ [] := by simpa using hne
    obtain ⟨c, cs, hcs⟩ := exists_cons_of_ne_nil hname
    have htext : (ref name).descriptor.toList ++ rest = 'L' :: (name.toList ++ ';' :: rest) := by
      simp [descriptor]
    have hinside : ∀ c ∈ name.toList, decide (c ≠ ';') = true :=
      fun _ hc => decide_eq_true (ne_of_mem_of_not_mem hc hsemi)
    rw [htext, read?, takeWhile_append_of_pos hinside, dropWhile_append_of_pos hinside,
      takeWhile_cons_of_neg (by simp), dropWhile_cons_of_neg (by simp),
      append_nil, hcs]
    simp [← hcs]
  | array t ih =>
    simp only [isReadable, Bool.and_eq_true, decide_eq_true_eq] at h
    have htext : (array t).descriptor.toList ++ rest = '[' :: (t.descriptor.toList ++ rest) := by
      simp [descriptor]
    rw [htext, read?, ih h.2]
    simp [h.1]
  | null | unknown => cases h
  | _ => rfl

/-- What is read as a type is its descriptor. -/
theorem eq_append_of_read? (h : read? cs = some (t, rest)) :
    t.isReadable = true ∧ cs = t.descriptor.toList ++ rest := by
  fun_induction read? cs generalizing t rest with
  | case10 tail c cs sep after hdrop htake =>
    cases h
    -- The name is what stands before the first semicolon.
    obtain ⟨_, hsemi, hsplit⟩ := eq_append_of_dropWhile_ne hdrop
    rw [htake] at hsemi hsplit
    exact ⟨by simpa [isReadable] using hsemi, by simp [descriptor, hsplit]⟩
  | case13 tail t' after hread hvoid ih =>
    cases h
    obtain ⟨hreadable, rfl⟩ := ih hread
    exact ⟨by simp [isReadable, hvoid, hreadable], by simp [descriptor]⟩
  | case11 | case12 | case14 | case15 => simp_all
  | _ =>
    cases h
    exact ⟨rfl, rfl⟩

theorem read?_eq_some_iff :
    read? cs = some (t, rest) ↔ t.isReadable = true ∧ cs = t.descriptor.toList ++ rest := by
  constructor
  · exact eq_append_of_read?
  · rintro ⟨hreadable, rfl⟩
    exact read?_descriptor hreadable rest

theorem descriptor_ne_nil (t : Ty) : t.descriptor.toList ≠ [] := by
  cases t <;> simp [descriptor]

theorem parse?_eq_some_iff {text : String} :
    parse? text = some t ↔ t.isReadable = true ∧ text = t.descriptor := by
  have hparse : parse? text = some t ↔ read? text.toList = some (t, []) := by
    unfold parse?
    split
    · rename_i u hread
      simp [hread]
    · rename_i hother
      constructor
      · intro h
        cases h
      · exact fun h => absurd h (hother t)
  rw [hparse, read?_eq_some_iff, append_nil, String.toList_inj]

theorem isReadable_iff : t.isReadable = true ↔ ∃ text, parse? text = some t := by
  simp only [parse?_eq_some_iff, exists_and_left, exists_eq, and_true]

/-! ## A row of parameters -/

/-- The descriptors of types, one behind the other. -/
def row (ts : List Ty) : List Char := ts.flatMap fun t => t.descriptor.toList

/-- Types that can be parameters. -/
def isParam (t : Ty) : Bool := t.isReadable && t ≠ void

/-- Parameters that are read are those whose descriptors stand there. They reach at least as far as
they should. -/
theorem eq_row_of_readParams? {stop : Nat} (h : readParams? stop cs = some params) :
    (∀ t ∈ params, t.isParam = true) ∧ ∃ rest, cs = row params ++ rest ∧ rest.length ≤ stop := by
  fun_induction readParams? stop cs generalizing params with
  | case1 cs hstop =>
    cases h
    exact ⟨by simp, cs, rfl, hstop⟩
  | case2 => cases h
  | case3 => cases h
  | case4 cs _ t rest hread hvoid ih =>
    obtain ⟨later, hlater, rfl⟩ := Option.map_eq_some_iff.1 h
    obtain ⟨hparams, tail, rfl, htail⟩ := ih hlater
    obtain ⟨hreadable, rfl⟩ := eq_append_of_read? hread
    refine ⟨forall_mem_cons.2 ⟨by simp [isParam, hreadable, hvoid], hparams⟩, tail, ?_, htail⟩
    simp [row]

/-- A row of parameters is read back if it ends just where it should. -/
theorem readParams?_row (h : ∀ t ∈ params, t.isParam = true) (rest : List Char) :
    readParams? rest.length (row params ++ rest) = some params := by
  induction params with
  | nil =>
    rw [readParams?]
    simp [row]
  | cons t params ih =>
    rw [forall_mem_cons, isParam, Bool.and_eq_true, decide_eq_true_eq] at h
    obtain ⟨⟨hreadable, hvoid⟩, hparams⟩ := h
    have hlong : ¬ (row (t :: params) ++ rest).length ≤ rest.length := by
      have := length_pos_iff.2 t.descriptor_ne_nil
      simp only [row, flatMap_cons, length_append]
      omega
    have hread : read? (row (t :: params) ++ rest) = some (t, row params ++ rest) := by
      simpa [row] using read?_descriptor hreadable (row params ++ rest)
    rw [readParams?, if_neg hlong]
    split
    · rename_i hnone
      rw [hread] at hnone
      cases hnone
    · rename_i u tail hsome
      rw [hread] at hsome
      cases hsome
      rw [if_neg hvoid, ih hparams]
      rfl

/-! ## Methods -/

/-- The descriptor of a method. -/
def methodDescriptor (params : List Ty) (result : Ty) : String :=
  "(" ++ String.join (params.map descriptor) ++ ")" ++ result.descriptor

theorem toList_methodDescriptor (params : List Ty) (result : Ty) :
    (methodDescriptor params result).toList =
      '(' :: (row params ++ ')' :: result.descriptor.toList) := by
  simp [methodDescriptor, row, flatMap_map]

/-- A method descriptor is cut at its first closing bracket. -/
theorem parseMethod?_eq_some {text : String} {result : Ty}
    (h : parseMethod? text = some (params, result)) :
    ∃ before after, text.toList = '(' :: (before ++ ')' :: after) ∧ ')' ∉ before ∧
      readParams? (after.length + 1) (before ++ ')' :: after) = some params ∧
      read? after = some (result, []) := by
  unfold parseMethod? at h
  split at h
  · rename_i inside htext
    split at h
    · cases h
    · rename_i close after hdrop
      obtain ⟨rfl, hnot, hsplit⟩ := eq_append_of_dropWhile_ne hdrop
      split at h
      · rename_i hparams hresult
        cases h
        refine ⟨_, after, ?_, hnot, ?_, hresult⟩
        · rw [htext, ← hsplit]
        · rw [← hsplit]
          exact hparams
      · cases h
  · cases h

/-- Without brackets in the names of its parameters, the descriptor of a method is read back. -/
theorem parseMethod?_methodDescriptor {params : List Ty} {result : Ty}
    (hparams : ∀ t ∈ params, t.isParam = true)
    (hresult : result.isReadable = true) (hbracket : ')' ∉ row params) :
    parseMethod? (methodDescriptor params result) = some (params, result) := by
  have hread : read? result.descriptor.toList = some (result, []) := by
    simpa using read?_descriptor hresult []
  have hrow := readParams?_row hparams (')' :: result.descriptor.toList)
  have hinside : ∀ c ∈ row params, decide (c ≠ ')') = true :=
    fun _ hc => decide_eq_true (ne_of_mem_of_not_mem hc hbracket)
  have hrest : (row params ++ ')' :: result.descriptor.toList).dropWhile (· ≠ ')') =
      ')' :: result.descriptor.toList := by
    rw [dropWhile_append_of_pos hinside, dropWhile_cons_of_neg (by simp)]
  simp only [parseMethod?, toList_methodDescriptor, hrest, hrow, hread]

/-- A row of parameters without brackets that reaches as far as the first bracket ends there. -/
theorem eq_row_of_reaches {before after rest : List Char} {params : List Ty}
    (hbracket : ')' ∉ row params) (hsplit : before ++ ')' :: after = row params ++ rest)
    (hreach : rest.length ≤ after.length + 1) : row params = before := by
  have hlength : before.length ≤ (row params).length := by
    have := congrArg List.length hsplit
    simp only [length_append, length_cons] at this
    omega
  obtain ⟨more, hmore⟩ := prefix_of_prefix_length_le (prefix_append before (')' :: after))
    (hsplit ▸ prefix_append (row params) rest) hlength
  -- Were the row longer, the bracket would be its next character.
  cases more with
  | nil => rw [← hmore, append_nil]
  | cons c more =>
    rw [← hmore, append_assoc, append_cancel_left_eq, cons_append,
      List.cons.injEq] at hsplit
    rw [← hmore, ← hsplit.1] at hbracket
    exact absurd (by simp) hbracket

theorem bracket_notMem_row : ')' ∉ row params ↔ ∀ t ∈ params, ')' ∉ t.descriptor.toList := by
  simp [row]

/-- A text is read as the parameters and the result of a method just if it is the descriptor of such
a method, all of them types that can be read and no parameter `void`. This holds for parameters
whose class names hold no closing bracket. With a bracket in a parameter's name, the method's own
descriptor is never read back. -/
theorem parseMethod?_eq_some_iff (text : String) (params : List Ty) (result : Ty) :
    ((∀ t ∈ params, ')' ∉ t.descriptor.toList) →
      (parseMethod? text = some (params, result) ↔
        text = methodDescriptor params result ∧
          (∀ t ∈ result :: params, ∃ s, parse? s = some t) ∧ void ∉ params)) ∧
      ((∃ t ∈ params, ')' ∈ t.descriptor.toList) →
        parseMethod? (methodDescriptor params result) ≠ some (params, result)) := by
  refine ⟨fun hbracket => ⟨fun h => ?_, ?_⟩, ?_⟩
  · rw [← bracket_notMem_row] at hbracket
    obtain ⟨before, after, htext, _, hparams, hresult⟩ := parseMethod?_eq_some h
    obtain ⟨hparam, rest, hsplit, hreach⟩ := eq_row_of_readParams? hparams
    obtain ⟨hreadable, hafter⟩ := eq_append_of_read? hresult
    rw [← eq_row_of_reaches hbracket hsplit hreach, hafter, append_nil,
      ← toList_methodDescriptor] at htext
    refine ⟨String.toList_inj.1 htext, ?_, fun hvoid => ?_⟩
    · rw [forall_mem_cons]
      exact ⟨isReadable_iff.1 hreadable,
        fun t ht => isReadable_iff.1 (Bool.and_eq_true_iff.1 (hparam t ht)).1⟩
    · simpa [isParam] using hparam void hvoid
  · rintro ⟨rfl, hall, hvoid⟩
    rw [forall_mem_cons] at hall
    refine parseMethod?_methodDescriptor (fun t ht => ?_) (isReadable_iff.2 hall.1)
      (bracket_notMem_row.2 hbracket)
    have hne : t ≠ void := by
      rintro rfl
      exact hvoid ht
    simp [isParam, isReadable_iff.2 (hall.2 t ht), hne]
  · rintro ⟨t, ht, hmem⟩ h
    obtain ⟨before, after, htext, hnot, _, hresult⟩ := parseMethod?_eq_some h
    obtain ⟨_, hafter⟩ := eq_append_of_read? hresult
    -- The same result behind both brackets leaves the row as the part before the first one.
    rw [toList_methodDescriptor, hafter, append_nil, List.cons.injEq,
      append_cancel_right_eq] at htext
    rw [← htext.2] at hnot
    exact bracket_notMem_row.1 hnot t ht hmem

/-- The method that copies a part of a string into an array of bytes. -/
theorem parseMethod?_copyBytes :
    (∀ t ∈ [string, long], ')' ∉ t.descriptor.toList) ∧
      parseMethod? "(Ljava/lang/String;J)[B" = some ([string, long], array byte) := by
  have hbracket : ∀ t ∈ [string, long], ')' ∉ t.descriptor.toList := by decide
  refine ⟨hbracket, ((parseMethod?_eq_some_iff _ _ _).1 hbracket).2 ⟨by decide, ?_, by decide⟩⟩
  intro t ht
  exact ⟨t.descriptor, parse?_eq_some_iff.2 ⟨by revert t; decide, rfl⟩⟩

-- A class `a)b` as the only parameter, and a parameter that is read past the bracket into the
-- result.
example : parseMethod? "(La)b;)V" = none := by cbv

example : parseMethod? "(L)La;" = some ([ref ")La"], ref "a") := by cbv

end Ty

end ByteLift
