import ByteLift.Source.StringLiteral
import Mathlib.Data.List.Infix

/-!
# Reading string literals back

A reader of string literals, and what it makes of an escaped text. An octal escape takes the digits
that follow, up to three, so a digit behind a zero character is read as part of its escape. Every
other text is read back as it was, and no text ends its literal early.
-/

namespace ByteLift.StringLiteral

/-! ## Reading -/

/-- Octal digits. -/
def isOctal (c : Char) : Bool := '0' ≤ c && c ≤ '7'

/-- The value of a hexadecimal digit. -/
def hexValue? (c : Char) : Option Nat :=
  if '0' ≤ c ∧ c ≤ '9' then some (c.toNat - 48)
  else if 'a' ≤ c ∧ c ≤ 'f' then some (c.toNat - 87)
  else if 'A' ≤ c ∧ c ≤ 'F' then some (c.toNat - 55)
  else none

/-- The number that hexadecimal digits stand for. -/
def hexCode? (digits : List Char) : Option Nat :=
  (digits.mapM hexValue?).map fun ds => ds.foldl (fun n d => 16 * n + d) 0

/-- The digits of an octal escape: all that follow, up to three, or two if three would go beyond one
byte. -/
def octalDigits (text : List Char) : List Char :=
  (text.take (if text.head?.all (· ≤ '3') then 3 else 2)).takeWhile isOctal

/-- The character that the text behind a backslash stands for, and how many characters of it. -/
def escaped? : List Char → Option (Char × Nat)
  | '\\' :: _ => some ('\\', 1)
  | '"' :: _ => some ('"', 1)
  | 'n' :: _ => some ('\n', 1)
  | 'r' :: _ => some ('\r', 1)
  | 't' :: _ => some ('\t', 1)
  | 'u' :: text =>
    if text.length < 4 then none else (hexCode? (text.take 4)).map fun n => (.ofNat n, 5)
  | text =>
    match octalDigits text with
    | [] => none
    | ds => some (.ofNat (Nat.ofDigitChars 8 ds 0), ds.length)

/-- Reads the inside of a string literal. A quote that is not escaped is not inside. -/
def read? : List Char → Option (List Char)
  | [] => some []
  | '"' :: _ => none
  | '\\' :: text =>
    match escaped? text with
    | some (c, n) => (read? (text.drop n)).map (c :: ·)
    | none => none
  | c :: text => (read? text).map (c :: ·)
termination_by text => text.length
decreasing_by all_goals simp only [List.length_cons, List.length_drop]; omega

/-! ## One character -/

theorem hexCode?_hex4 : ∀ n < 0xA0, (hex4 n).length = 4 ∧ hexCode? (hex4 n) = some n := by
  decide +kernel

variable {c d : Char} {s : List Char}

theorem toNat_lt_of_isControl (h : isControl c = true) : c.toNat < 0xA0 := by
  simp only [isControl, Bool.or_eq_true, Bool.and_eq_true, decide_eq_true_eq] at h
  omega

/-- Every character but the zero character is read back on its own. -/
theorem read?_escapeChar (hc : c ≠ '\x00') (text : List Char) :
    read? (escapeChar c ++ text) = (read? text).map (c :: ·) := by
  unfold escapeChar
  split_ifs with h₁ h₂ h₃ h₄ h₅ hctrl
  · simp [read?, escaped?, h₁]
  · simp [read?, escaped?, h₂]
  · simp [read?, escaped?, h₃]
  · simp [read?, escaped?, h₄]
  · simp [read?, escaped?, h₅]
  · obtain ⟨hlen, hcode⟩ := hexCode?_hex4 _ (toNat_lt_of_isControl hctrl)
    have htake : (hex4 c.toNat ++ text).take 4 = hex4 c.toNat := List.take_left' hlen
    have hdrop : ('u' :: (hex4 c.toNat ++ text)).drop 5 = text := List.drop_left' hlen
    have hlong : ¬ (hex4 c.toNat ++ text).length < 4 := by rw [List.length_append, hlen]; omega
    simp only [List.cons_append, read?, escaped?, if_neg hlong, htake, hcode, Option.map_some,
      hdrop, Char.ofNat_toNat]
  · simp [read?]

theorem escapeChar_zero : escapeChar '\x00' = ['\\', '0'] := by decide

/-- Escaping brings no octal digit to the front. -/
theorem head?_of_escape (h : (s.flatMap escapeChar).head? = some d) (hd : isOctal d = true) :
    s.head? = some d := by
  cases s with
  | nil => cases h
  | cons c s =>
    rw [List.flatMap_cons] at h
    unfold escapeChar at h
    split_ifs at h <;> cases h <;> first | rfl | exact absurd hd (by decide)

theorem escapeChar_of_isOctal (h : isOctal d = true) : escapeChar d = [d] := by
  have hd : '0' ≤ d ∧ d ≤ '7' := by simpa [isOctal] using h
  have hrange : 48 ≤ d.toNat ∧ d.toNat ≤ 55 := hd
  have hne {c : Char} (hc : ¬ (48 ≤ c.toNat ∧ c.toNat ≤ 55)) : d ≠ c := fun heq => hc (heq ▸ hrange)
  have hctrl : isControl d = false := by
    simp only [isControl, Bool.or_eq_false_iff, Bool.and_eq_false_iff, decide_eq_false_iff_not]
    omega
  simp [escapeChar, hctrl, hne]

/-- A zero character takes the octal digits behind it, two at most. -/
theorem read?_zero (text : List Char) : read? ('\\' :: '0' :: text) =
      (read? (text.drop ((text.take 2).takeWhile isOctal).length)).map
        (.ofNat (Nat.ofDigitChars 8 ('0' :: (text.take 2).takeWhile isOctal) 0) :: ·) := by
  have hdigits : octalDigits ('0' :: text) = '0' :: (text.take 2).takeWhile isOctal := by
    simp [octalDigits, isOctal]
  rw [read?, escaped?, hdigits]
  · rfl
  all_goals simp

/-! ## Whole texts -/

/-- A zero character of a text has an octal digit behind it. -/
def ZeroThenOctal (s : List Char) : Prop := ∃ d, isOctal d = true ∧ ['\x00', d] <:+: s

theorem zeroThenOctal_cons :
    ZeroThenOctal (c :: s) ↔ (c = '\x00' ∧ s.head?.any isOctal = true) ∨ ZeroThenOctal s := by
  have hhead {d : Char} : ['\x00', d] <+: c :: s ↔ c = '\x00' ∧ s.head? = some d := by
    cases s <;> simp [eq_comm]
  simp only [ZeroThenOctal, List.infix_cons_iff, hhead, and_or_left, exists_or, Option.any_eq_true]
  refine or_congr_left ⟨?_, ?_⟩
  · rintro ⟨d, hd, hc, hs⟩
    exact ⟨hc, d, hs, hd⟩
  · rintro ⟨hc, d, hs, hd⟩
    exact ⟨d, hd, hc, hs⟩

/-- What is read of an escaped text is the text itself, or a shorter one if digits were taken. -/
def ReadsBack (s : List Char) : Prop :=
  (¬ ZeroThenOctal s ∧ read? (s.flatMap escapeChar) = some s) ∨
    (ZeroThenOctal s ∧ ∃ t, read? (s.flatMap escapeChar) = some t ∧ t.length < s.length)

theorem ReadsBack.exists_read (h : ReadsBack s) :
    ∃ t, read? (s.flatMap escapeChar) = some t ∧ t.length ≤ s.length := by
  rcases h with ⟨_, h⟩ | ⟨_, t, h, ht⟩
  · exact ⟨s, h, Nat.le_refl _⟩
  · exact ⟨t, h, Nat.le_of_lt ht⟩

/-- A character that is read on its own leaves the question to the rest. -/
theorem ReadsBack.cons (h : ReadsBack s) (hc : ¬ (c = '\x00' ∧ s.head?.any isOctal = true))
    (hread : read? ((c :: s).flatMap escapeChar) = (read? (s.flatMap escapeChar)).map (c :: ·)) :
    ReadsBack (c :: s) := by
  rw [ReadsBack, zeroThenOctal_cons, or_iff_right hc, hread]
  rcases h with ⟨hno, hs⟩ | ⟨hyes, t, ht, hlt⟩
  · exact .inl ⟨hno, by rw [hs]; rfl⟩
  · exact .inr ⟨hyes, c :: t, by rw [ht]; rfl, Nat.succ_lt_succ hlt⟩

theorem readsBack_zero (h : ReadsBack s) (hs : s.head?.any isOctal = false) :
    ReadsBack ('\x00' :: s) := by
  refine h.cons (by simp [hs]) ?_
  have hnone : ((s.flatMap escapeChar).take 2).takeWhile isOctal = [] := by
    cases hesc : s.flatMap escapeChar with
    | nil => rfl
    | cons d rest =>
      have hd : isOctal d = false := by
        by_contra hd
        rw [head?_of_escape (by rw [hesc]; rfl) (by simpa using hd)] at hs
        exact hd hs
      simp [hd]
  rw [List.flatMap_cons, escapeChar_zero, List.cons_append, List.cons_append, List.nil_append,
    read?_zero, hnone]
  rfl

/-- Digits behind a zero character are lost: one, or two if there are two. -/
theorem readsBack_zero_octal (hd : isOctal d = true) (hs : ReadsBack s) (htail : ReadsBack s.tail) :
    ReadsBack ('\x00' :: d :: s) := by
  refine .inr ⟨zeroThenOctal_cons.2 (.inl ⟨rfl, hd⟩), ?_⟩
  rw [List.flatMap_cons, List.flatMap_cons, escapeChar_zero, escapeChar_of_isOctal hd,
    List.cons_append, List.cons_append, List.nil_append, List.singleton_append, read?_zero]
  cases hsecond : (s.flatMap escapeChar).head?.any isOctal with
  | false =>
    obtain ⟨t, ht, hlen⟩ := hs.exists_read
    have htaken : ((d :: s.flatMap escapeChar).take 2).takeWhile isOctal = [d] := by
      cases hesc : s.flatMap escapeChar with
      | nil => simp [hd]
      | cons e rest => simp [hd, show isOctal e = false by simpa [hesc] using hsecond]
    rw [htaken]
    rw [List.length_singleton, List.drop_one, List.tail_cons, ht]
    refine ⟨_, rfl, ?_⟩
    simp only [List.length_cons]
    omega
  | true =>
    obtain ⟨e, he, hoct⟩ := (Option.any_eq_true _ _).1 hsecond
    obtain ⟨rest, rfl⟩ : ∃ rest, s = e :: rest := List.head?_eq_some_iff.1 (head?_of_escape he hoct)
    obtain ⟨t, ht : read? (rest.flatMap escapeChar) = some t, hlen⟩ := htail.exists_read
    have hesc : (e :: rest).flatMap escapeChar = e :: rest.flatMap escapeChar := by
      rw [List.flatMap_cons, escapeChar_of_isOctal hoct, List.singleton_append]
    rw [hesc, show ((d :: e :: rest.flatMap escapeChar).take 2).takeWhile isOctal =
      [d, e] by simp [hd, hoct]]
    rw [List.length_cons, List.length_singleton, List.drop_succ_cons, List.drop_one,
      List.tail_cons, ht]
    refine ⟨_, rfl, ?_⟩
    simp only [List.tail_cons, List.length_cons] at hlen ⊢
    omega

theorem readsBack (s : List Char) : ReadsBack s := by
  cases s with
  | nil => exact .inl ⟨by simp [ZeroThenOctal], by simp [read?]⟩
  | cons c s =>
    by_cases hc : c = '\x00'
    · subst hc
      cases s with
      | nil => exact readsBack_zero (readsBack []) rfl
      | cons d s =>
        cases hd : isOctal d with
        | false => exact readsBack_zero (readsBack (d :: s)) hd
        | true => exact readsBack_zero_octal hd (readsBack s) (readsBack s.tail)
    · exact (readsBack s).cons (fun h => hc h.1) (by rw [List.flatMap_cons, read?_escapeChar hc])
termination_by s.length
decreasing_by all_goals simp +arith

theorem not_isControl_escapeChar (c : Char) : ∀ x ∈ escapeChar c, isControl x = false := by
  have hhex : ∀ n < 0xA0, ('\\' :: 'u' :: hex4 n).all (!isControl ·) = true := by decide +kernel
  suffices h : (escapeChar c).all (!isControl ·) = true by simpa using h
  unfold escapeChar
  split_ifs with h₁ h₂ h₃ h₄ h₅ hzero hctrl
  · decide
  · decide
  · decide
  · decide
  · decide
  · decide
  · exact hhex _ (toNat_lt_of_isControl hctrl)
  · simpa using hctrl

/-- An escaped text is always the inside of a literal: reading it meets no bare quote and no unknown
escape, and no control character is left in it. It reads back as the same text exactly if no zero
character of the text has an octal digit behind it. -/
theorem read?_escape (s : String) :
    (read? (escape s).toList).isSome = true ∧ (∀ c ∈ (escape s).toList, isControl c = false) ∧
      (read? (escape s).toList = some s.toList ↔ ¬ ZeroThenOctal s.toList) := by
  have hchars : (escape s).toList = s.toList.flatMap escapeChar := by simp [escape]
  rw [hchars]
  refine ⟨?_, fun c hc => ?_, ?_⟩
  · obtain ⟨t, ht, _⟩ := (readsBack s.toList).exists_read
    rw [ht]
    rfl
  · obtain ⟨d, _, hd⟩ := List.mem_flatMap.1 hc
    exact not_isControl_escapeChar d c hd
  · rcases readsBack s.toList with ⟨hno, h⟩ | ⟨hyes, t, h, hlt⟩
    · exact iff_of_true h hno
    · refine iff_of_false (fun heq => ?_) (not_not_intro hyes)
      rw [Option.some.inj (h.symm.trans heq)] at hlt
      exact Nat.lt_irrefl _ hlt

/-- A zero character and the digit one are read as the single character one. -/
theorem read?_escape_zero_one :
    read? (escape "\x001").toList = some ['\x01'] ∧
      read? (escape "\x001").toList ≠ some "\x001".toList := by
  have hread : read? (escape "\x001").toList = some ['\x01'] := by decide +kernel
  exact ⟨hread, by rw [hread]; decide⟩

end ByteLift.StringLiteral
