import Mathlib.Data.List.Pairwise
import ByteLift.Nested.Scope

/-!
# Scopes before widening

Where the labels and the jumps of flat code stand, and which scopes they give. A forward scope
reaches from the first jump forward to its label, and a loop from its label behind the last jump
back. Both are stated as a property of one scope, `Scope.Fits`, that widening keeps.
-/

namespace ByteLift

/-! ## Positions -/

variable {b flat : Block} {i p : Nat} {l : Label} {s : Scope}

theorem lastIndex?_eq_none_iff {p : Stmt → Bool} :
    lastIndex? p b = none ↔ ∀ (j : Nat) (x : Stmt), b[j]? = some x → p x = false := by
  induction b with
  | nil => simp [lastIndex?]
  | cons s ss ih =>
    rw [lastIndex?]
    constructor
    · intro h j x hj
      cases hss : lastIndex? p ss with
      | some i => simp [hss] at h
      | none =>
        cases j with
        | zero =>
          cases hj
          simpa [hss] using h
        | succ j => exact ih.1 hss j x (by simpa using hj)
    · intro h
      have hs := h 0 s rfl
      rw [ih.2 fun j x hj => h (j + 1) x (by simpa using hj)]
      simp [hs]

/-- The last position of a statement with a property is such a position, and none comes after it. -/
theorem lastIndex?_eq_some_iff {p : Stmt → Bool} : lastIndex? p b = some i ↔
      (∃ x, b[i]? = some x ∧ p x = true) ∧ ∀ j x, b[j]? = some x → p x = true → j ≤ i := by
  induction b generalizing i with
  | nil => simp [lastIndex?]
  | cons s ss ih =>
    rw [lastIndex?]
    cases hss : lastIndex? p ss with
    | some k =>
      obtain ⟨⟨y, hy, hpy⟩, hlast⟩ := ih.1 hss
      simp only [Option.some.injEq]
      constructor
      · rintro rfl
        refine ⟨⟨y, by simpa using hy, hpy⟩, ?_⟩
        intro j x hj hpx
        cases j with
        | zero => exact Nat.zero_le _
        | succ j => exact Nat.succ_le_succ (hlast j x (by simpa using hj) hpx)
      · rintro ⟨⟨x, hx, hpx⟩, hmax⟩
        have hki := hmax (k + 1) y (by simpa using hy) hpy
        cases i with
        | zero => omega
        | succ i =>
          have := hlast i x (by simpa using hx) hpx
          omega
    | none =>
      have hnone := lastIndex?_eq_none_iff.1 hss
      simp only
      constructor
      · intro h
        split at h
        · rename_i hs
          cases h
          refine ⟨⟨s, rfl, hs⟩, ?_⟩
          intro j x hj hpx
          cases j with
          | zero => exact Nat.le_refl _
          | succ j => simp [hnone j x (by simpa using hj)] at hpx
        · cases h
      · rintro ⟨⟨x, hx, hpx⟩, _⟩
        cases i with
        | zero =>
          cases hx
          simp [hpx]
        | succ i => simp [hnone i x (by simpa using hx)] at hpx

/-- A label stands at its position. -/
theorem getElem?_of_labelIndex? (h : labelIndex? b l = some i) : b[i]? = some (.label l) := by
  obtain ⟨⟨x, hx, hl⟩, _⟩ := lastIndex?_eq_some_iff.1 h
  rw [hx, of_decide_eq_true hl]

/-- The position of a label that occurs only once. -/
theorem labelIndex?_eq_some (hi : b[i]? = some (.label l))
    (honly : ∀ j, b[j]? = some (.label l) → j = i) : labelIndex? b l = some i := by
  refine lastIndex?_eq_some_iff.2 ⟨⟨_, hi, by simp⟩, ?_⟩
  intro j x hj hx
  rw [of_decide_eq_true hx] at hj
  exact Nat.le_of_eq (honly j hj)

theorem lt_length_of_labelIndex? (h : labelIndex? b l = some i) : i < b.length :=
  (List.getElem?_eq_some_iff.1 (getElem?_of_labelIndex? h)).1

theorem labelPos_of_labelIndex? (h : labelIndex? b l = some i) : labelPos b l = i := by
  rw [labelPos, h, Option.getD_some]

/-- The jumps of flat code are its gotos. -/
theorem mem_gotos : (l, i) ∈ gotos b ↔ ∃ c, b[i]? = some (.goto l c) := by
  simp only [gotos, List.mem_filterMap, Prod.exists, List.mk_mem_zipIdx_iff_getElem?]
  constructor
  · rintro ⟨x, j, hx, h⟩
    split at h
    · rename_i heq
      cases heq
      cases h
      exact ⟨_, hx⟩
    · cases h
  · rintro ⟨c, hc⟩
    exact ⟨_, i, hc, rfl⟩

theorem pairwise_zipIdx {α : Type} (xs : List α) : xs.zipIdx.Pairwise (·.2 < ·.2) := by
  rw [← List.pairwise_map (f := Prod.snd), List.zipIdx_map_snd]
  exact List.pairwise_lt_range'

/-- The jumps are listed in the order of the code. -/
theorem pairwise_gotos (b : Block) : (gotos b).Pairwise (·.2 < ·.2) := by
  refine List.Pairwise.filterMap _ ?_ (pairwise_zipIdx b)
  rintro ⟨x, i⟩ ⟨y, j⟩ hij p hp q hq
  split at hp <;> split at hq <;> grind

/-- The labels that can be reached are listed with their positions. -/
theorem mem_labelMarks : (l, i) ∈ labelMarks b ↔ labelIndex? b l = some i := by
  simp only [labelMarks, List.mem_filterMap, Prod.exists, List.mk_mem_zipIdx_iff_getElem?]
  constructor
  · rintro ⟨x, j, hx, h⟩
    split at h
    · split at h
      · cases h
        assumption
      · cases h
    · cases h
  · intro h
    exact ⟨_, i, getElem?_of_labelIndex? h, by simp [h]⟩

/-- The labels are listed in the order of the code. -/
theorem pairwise_labelMarks (b : Block) : (labelMarks b).Pairwise (·.2 < ·.2) := by
  refine List.Pairwise.filterMap _ ?_ (pairwise_zipIdx b)
  rintro ⟨x, i⟩ ⟨y, j⟩ hij p hp q hq
  split at hp <;> split at hq <;> grind

/-! ## The scopes of labels -/

/-- A scope that lies over flat code as it should: it is not empty, its label stands at the end that
the jumps go to, and no jump of its kind to that label lies outside it. -/
structure Scope.Fits (flat : Block) (s : Scope) : Prop where
  start_lt_stop : s.start < s.stop
  stop_le : s.stop ≤ flat.length
  /-- The label of a forward scope stands behind it and that of a loop at its start. -/
  label : labelIndex? flat s.target = some (if s.kind = .forward then s.stop else s.start)
  forward_jump : s.kind = .forward → ∀ i, (s.target, i) ∈ gotos flat → i < s.stop → s.start ≤ i
  loop_jump : s.kind = .loop → ∀ i, (s.target, i) ∈ gotos flat → s.start < i → i < s.stop

theorem Scope.Fits.stop_eq (h : s.Fits flat) (hk : s.kind = .forward)
    (hp : labelIndex? flat s.target = some p) : s.stop = p := by
  rw [h.label, if_pos hk] at hp
  exact Option.some.inj hp

theorem Scope.Fits.start_eq (h : s.Fits flat) (hk : s.kind = .loop)
    (hp : labelIndex? flat s.target = some p) : s.start = p := by
  rw [h.label, hk, if_neg (by decide)] at hp
  exact Option.some.inj hp

/-- The forward scope of a label starts at the first of the jumps forward to it. -/
theorem forwardScope?_eq_some (h : forwardScope? flat (l, p) = some s) :
    s = ⟨.forward, l, s.start, p⟩ ∧ (l, s.start) ∈ gotos flat ∧ s.start < p ∧
      ∀ i, (l, i) ∈ gotos flat → i < p → s.start ≤ i := by
  obtain ⟨⟨m, i⟩, hfind, rfl⟩ := Option.map_eq_some_iff.1 h
  obtain ⟨hp, before, behind, hlist, hnone⟩ := List.find?_eq_some_iff_append.1 hfind
  simp only [Bool.and_eq_true, decide_eq_true_eq] at hp
  obtain ⟨rfl, hlt⟩ := hp
  refine ⟨rfl, by simp [hlist], hlt, ?_⟩
  intro j hj hjp
  rw [hlist, List.mem_append, List.mem_cons] at hj
  rcases hj with hj | hj | hj
  · simpa [hjp] using hnone _ hj
  · cases hj
    exact Nat.le_refl _
  · have hsorted := pairwise_gotos flat
    rw [hlist, List.pairwise_append, List.pairwise_cons] at hsorted
    exact Nat.le_of_lt (hsorted.2.1.1 _ hj)

/-- The loop of a label ends behind the last of the jumps back to it. -/
theorem loopScope?_eq_some (h : loopScope? flat (l, p) = some s) :
    ∃ i, s = ⟨.loop, l, p, i + 1⟩ ∧ (l, i) ∈ gotos flat ∧ p < i ∧ ∀ j, (l, j) ∈ gotos flat →
    p < j → j ≤ i := by
  obtain ⟨⟨m, i⟩, hfind, rfl⟩ := Option.map_eq_some_iff.1 h
  obtain ⟨hp, behind, before, hlist, hnone⟩ := List.find?_eq_some_iff_append.1 hfind
  simp only [Bool.and_eq_true, decide_eq_true_eq] at hp
  obtain ⟨rfl, hlt⟩ := hp
  have hmem {x : Label × Nat} : x ∈ gotos flat ↔ x ∈ behind ++ (m, i) :: before := by
    rw [← hlist, List.mem_reverse]
  refine ⟨i, rfl, hmem.2 (by simp), hlt, ?_⟩
  intro j hj hjp
  rw [hmem, List.mem_append, List.mem_cons] at hj
  rcases hj with hj | hj | hj
  · simpa [hjp] using hnone _ hj
  · cases hj
    exact Nat.le_refl _
  · have hsorted := List.pairwise_reverse.2 (pairwise_gotos flat)
    rw [hlist, List.pairwise_append, List.pairwise_cons] at hsorted
    exact Nat.le_of_lt (hsorted.2.1.1 _ hj)

/-- The scopes of all labels, before widening, in the order of the code. -/
def initialScopes (flat : Block) : List Scope := forwardScopes flat ++ loopScopes flat

/-- A label starts out with a forward scope or a loop. -/
theorem mem_initialScopes : s ∈ initialScopes flat ↔
    ∃ l p, labelIndex? flat l = some p ∧
    (forwardScope? flat (l, p) = some s ∨ loopScope? flat (l, p) = some s) := by
  simp only [initialScopes, forwardScopes, loopScopes, List.mem_append,
    List.mem_filterMap, Prod.exists, mem_labelMarks, ← exists_or, ← and_or_left]

/-- The scopes that labels start out with lie over the code as they should. -/
theorem fits_of_mem_initialScopes (h : s ∈ initialScopes flat) : s.Fits flat := by
  obtain ⟨l, p, hmark, hs | hs⟩ := mem_initialScopes.1 h
  · obtain ⟨heq, hjump, hlt, hfirst⟩ := forwardScope?_eq_some hs
    rw [heq]
    exact ⟨hlt, Nat.le_of_lt (lt_length_of_labelIndex? hmark), hmark, fun _ => hfirst, nofun⟩
  · obtain ⟨i, rfl, hjump, hlt, hlast⟩ := loopScope?_eq_some hs
    obtain ⟨c, hc⟩ := mem_gotos.1 hjump
    refine ⟨by simp only; omega, (List.getElem?_eq_some_iff.1 hc).1, hmark, nofun, ?_⟩
    intro _ j hj hpj
    exact Nat.lt_succ_of_le (hlast j hj hpj)

namespace Enumeration

variable (o : Enumeration flat)

/-- The scopes in the order of the code. -/
def ofCode (flat : Block) : Enumeration flat := ⟨_, _, .refl _, .refl _⟩

/-- An enumeration lists the scopes that the labels start out with. -/
theorem perm : o.scopes.Perm (initialScopes flat) := o.forwards_perm.append o.loops_perm

theorem mem_scopes : s ∈ o.scopes ↔ s ∈ initialScopes flat := o.perm.mem_iff

theorem fits {s : Scope} (h : s ∈ o.scopes) : s.Fits flat :=
  fits_of_mem_initialScopes (o.mem_scopes.1 h)

end Enumeration

section

variable (hl : labelIndex? flat l = some p) (hi : (l, i) ∈ gotos flat)
include hl hi

/-- Every jump forward has a forward scope. -/
theorem exists_forward_mem_initialScopes (hip : i < p) :
    ∃ s ∈ initialScopes flat, s.kind = .forward ∧ s.target = l := by
  cases hs : forwardScope? flat (l, p) with
  | none =>
    have := List.find?_eq_none.1 (Option.map_eq_none_iff.1 hs) _ hi
    simp [hip] at this
  | some s =>
    refine ⟨s, mem_initialScopes.2 ⟨l, p, hl, .inl hs⟩, ?_⟩
    rw [(forwardScope?_eq_some hs).1]
    exact ⟨rfl, rfl⟩

/-- Every jump back has a loop. -/
theorem exists_loop_mem_initialScopes (hip : p < i) :
    ∃ s ∈ initialScopes flat, s.kind = .loop ∧ s.target = l := by
  cases hs : loopScope? flat (l, p) with
  | none =>
    have := List.find?_eq_none.1 (Option.map_eq_none_iff.1 hs) _ (List.mem_reverse.2 hi)
    simp [hip] at this
  | some s =>
    refine ⟨s, mem_initialScopes.2 ⟨l, p, hl, .inr hs⟩, ?_⟩
    obtain ⟨j, rfl, _⟩ := loopScope?_eq_some hs
    exact ⟨rfl, rfl⟩

end

end ByteLift
