import Mathlib.Logic.ExistsUnique
import ByteLift.Nested.OfFlat
import ByteLift.Proofs.Rotate
import ByteLift.Proofs.Scope.Widening

/-!
# When flat code can be nested

A jump forward into a loop that starts behind it cannot be nested. Without such jumps the order of
the scopes still matters: a loop pulls a forward scope that it crosses back to its own start, and
the scope may then end in the middle of another loop. `Trapped` says, of the jumps alone, when this
happens in every order. In the order of the code nothing else goes wrong.

The proof follows one round of widening pair by pair. At a loop's turn the earlier loops have their
full extent, `Steady.closed`, and while it grows it has passed the loops before the one it is
compared with, `Steady.swept`.
-/

namespace ByteLift

open Scope

variable {flat : Block}

/-- The statement at one position is a jump to the label at another one. -/
def Jumps (flat : Block) (i p : Nat) : Prop :=
  ∃ l c, flat[i]? = some (.goto l c) ∧ flat[p]? = some (.label l)

/-- The label of every jump stands at one place in the code. -/
def LabelsOnce (flat : Block) : Prop :=
  ∀ l c, Stmt.goto l c ∈ flat → ∃! p : Nat, flat[p]? = some (.label l)

/-- Some jump forward goes into a loop that starts behind the jump. -/
def JumpsIntoLoop (flat : Block) : Prop :=
  ∃ i p j s, Jumps flat i p ∧ Jumps flat j s ∧ i < s ∧ s < p ∧ p ≤ j

/-- Some jump forward, from `i` to `p`, stays inside an inner loop, from `s'` to `j'`, but leaps
over the last of the jumps back to the start `s` of an outer loop: the outer loop's own jumps end
between the jump and its label. -/
def Trapped (flat : Block) : Prop :=
  ∃ i p s s' j', Jumps flat i p ∧ Jumps flat j' s' ∧ s < s' ∧ s' < i ∧ i < p ∧ p ≤ j' ∧
    (∃ j, Jumps flat j s ∧ i < j) ∧ ∀ j, Jumps flat j s → j + 1 < p

variable {i a n b : Nat} {scopes : List Scope} {L M F : Scope} {ps : List (Nat × Nat)}
  {r : Tracked (List Scope)}

theorem Jumps.lt_length {flat : Block} {p : Nat} (h : Jumps flat i p) :
    i < flat.length ∧ p < flat.length := by
  obtain ⟨l, c, hi, hp⟩ := h
  exact ⟨(List.getElem?_eq_some_iff.1 hi).1, (List.getElem?_eq_some_iff.1 hp).1⟩

section Decidable

variable (flat : Block)

instance (i p : Nat) : Decidable (Jumps flat i p) :=
  decidable_of_iff (∃ j ∈ gotos flat, j.2 = i ∧ flat[p]? = some (.label j.1)) <| by
    constructor
    · rintro ⟨⟨l, _⟩, hj, rfl, hp⟩
      obtain ⟨c, hc⟩ := mem_gotos.1 hj
      exact ⟨l, c, hc, hp⟩
    · rintro ⟨l, c, hi, hp⟩
      exact ⟨(l, i), mem_gotos.2 ⟨c, hi⟩, rfl, hp⟩

instance : Decidable (LabelsOnce flat) :=
  decidable_of_iff (∀ j ∈ gotos flat, ∃ p < flat.length, flat[p]? = some (.label j.1) ∧
      ∀ q < flat.length, flat[q]? = some (.label j.1) → q = p) <| by
    constructor
    · intro h l c hgoto
      obtain ⟨i, hi⟩ := List.mem_iff_getElem?.1 hgoto
      obtain ⟨p, _, hp, honly⟩ := h (l, i) (mem_gotos.2 ⟨c, hi⟩)
      exact ⟨p, hp, fun q hq => honly q (List.getElem?_eq_some_iff.1 hq).1 hq⟩
    · rintro h ⟨l, i⟩ hj
      obtain ⟨c, hc⟩ := mem_gotos.1 hj
      obtain ⟨p, hp, honly⟩ := h l c (List.mem_of_getElem? hc)
      exact ⟨p, (List.getElem?_eq_some_iff.1 hp).1, hp, fun q _ => honly q⟩

instance : Decidable (JumpsIntoLoop flat) :=
  decidable_of_iff (∃ i < flat.length, ∃ p < flat.length, Jumps flat i p ∧ i < p ∧
      ∃ j < flat.length, p ≤ j ∧ ∃ s < p, i < s ∧ Jumps flat j s) <| by
    constructor
    · rintro ⟨i, _, p, _, hforward, hip, j, _, hpj, s, hsp, his, hback⟩
      exact ⟨i, p, j, s, hforward, hback, his, hsp, hpj⟩
    · rintro ⟨i, p, j, s, hforward, hback, his, hsp, hpj⟩
      exact ⟨i, hforward.lt_length.1, p, hforward.lt_length.2, hforward, by omega, j,
        hback.lt_length.1, hpj, s, hsp, his, hback⟩

end Decidable

/-! ## One round, pair by pair -/

/-- Loops come in the order of their starts. -/
def LoopsSorted (scopes : List Scope) : Prop :=
  ∀ (i j : Nat) (L M : Scope), scopes[i]? = some L → scopes[j]? = some M →
    L.kind = .loop → M.kind = .loop → i < j → L.start < M.start

theorem LoopsSorted.index_le (h : LoopsSorted scopes) {j : Nat} (hL : scopes[i]? = some L)
    (hM : scopes[j]? = some M)
    (hkL : L.kind = .loop) (hkM : M.kind = .loop) (hle : L.start ≤ M.start) : i ≤ j := by
  by_contra hlt
  have := h j i M L hM hL hkM hkL (by omega)
  omega

/-- What holds of the scopes in a round, before the pair `(a, b)` is looked at. -/
structure Steady (a b : Nat) (scopes : List Scope) : Prop where
  /-- No forward scope ends inside a loop that starts after it. -/
  clean : ∀ F ∈ scopes, ∀ L ∈ scopes, F.kind = .forward → L.kind = .loop → F.crosses L = false
  /-- No loop pulls a forward scope out of another loop that it has yet to grow over. -/
  safe : ∀ L ∈ scopes, ∀ M ∈ scopes, ∀ F ∈ scopes, L.kind = .loop → M.kind = .loop →
    F.kind = .forward → L.crosses M = true → L.crosses F = true → M.stop ≤ F.stop
  /-- The loops whose turn is over cross no loop. -/
  closed : ∀ (i : Nat) (L : Scope), i < a → scopes[i]? = some L → L.kind = .loop →
    ∀ M ∈ scopes, M.kind = .loop → L.crosses M = false
  /-- The loop whose turn it is crosses none of the loops it was compared with. -/
  swept : ∀ (L : Scope), scopes[a]? = some L → L.kind = .loop →
    ∀ (j : Nat) (M : Scope), j < b → scopes[j]? = some M → M.kind = .loop → L.crosses M = false
  sorted : LoopsSorted scopes

namespace Steady

variable {A B : Scope}

section

variable (h : Steady a b scopes) (hA : scopes[a]? = some A) (hkA : A.kind = .loop)
include h hA hkA

/-- A loop that starts before the one whose turn it is has had its turn. -/
theorem index_lt (hL : scopes[i]? = some L) (hkL : L.kind = .loop)
    (hlt : L.start < A.start) : i < a := by
  refine Nat.lt_of_le_of_ne (h.sorted.index_le hL hA hkL hkA (Nat.le_of_lt hlt)) ?_
  rintro rfl
  rw [hL] at hA
  cases hA
  omega

/-- Such a loop crosses no loop. -/
theorem not_crosses_of_start_lt {M : Scope}
    (hL : L ∈ scopes) (hkL : L.kind = .loop) (hlt : L.start < A.start) (hM : M ∈ scopes)
    (hkM : M.kind = .loop) : L.crosses M = false := by
  obtain ⟨i, hi⟩ := List.mem_iff_getElem?.1 hL
  exact h.closed i L (h.index_lt hA hkA hi hkL hlt) hi hkL M hM hkM

end

section Crossing

variable (h : Steady a b scopes) (hA : scopes[a]? = some A) (hB : scopes[b]? = some B)
  (hcross : A.crosses B = true)
include h hA hB hcross

/-- A forward scope that is pulled back to the start of a scope that crosses it still ends inside no
loop that starts after it. -/
theorem clean_start (hkB : B.kind = .forward) (hL : L ∈ scopes) (hkL : L.kind = .loop) :
    ({ B with start := A.start } : Scope).crosses L = false := by
  have hmA := List.mem_of_getElem? hA
  have hmB := List.mem_of_getElem? hB
  have hAB := crosses_iff.1 hcross
  have hnB := crosses_eq_false_iff.1 (h.clean B hmB L hL hkB hkL)
  rw [crosses_eq_false_iff]
  intro hBL
  simp only at hBL
  -- So the loop starts before the end of the first scope, which therefore crosses it.
  have hAL : A.crosses L = true := crosses_iff.2 (by omega)
  cases hkA : A.kind with
  | forward => simp [h.clean A hmA L hL hkA hkL] at hAL
  | loop =>
    have := h.safe A hmA L hL B hmB hkA hkL hkB hAL hcross
    omega

/-- Nor does it get into the way of a loop that has yet to grow. -/
theorem safe_start (hkB : B.kind = .forward) {M : Scope} (hL : L ∈ scopes) (hM : M ∈ scopes)
    (hkL : L.kind = .loop) (hkM : M.kind = .loop) (hLM : L.crosses M = true)
    (hLB : L.crosses { B with start := A.start } = true) : M.stop ≤ B.stop := by
  have hmA := List.mem_of_getElem? hA
  have hmB := List.mem_of_getElem? hB
  have hAB := crosses_iff.1 hcross
  simp only [crosses_iff] at hLB
  rcases Nat.lt_or_ge B.start L.stop with hlt | hge
  · exact h.safe L hL M hM B hmB hkL hkM hkB hLM (crosses_iff.2 (by omega))
  cases hkA : A.kind with
  | forward =>
    have := h.safe L hL M hM A hmA hkL hkM hkA hLM (crosses_iff.2 (by omega))
    omega
  | loop =>
    rw [h.not_crosses_of_start_lt hA hkA hL hkL hLB.1 hM hkM] at hLM
    cases hLM

section

variable (hkA : A.kind = .loop) (hkB : B.kind = .loop)
include hkA hkB

/-- A loop that has had its turn does not cross the one whose turn it is, however far that grows. -/
theorem not_crosses_stop {L : Scope} (hL : L ∈ scopes) (hkL : L.kind = .loop) :
    L.crosses { A with stop := B.stop } = false := by
  have hAB := crosses_iff.1 hcross
  rw [crosses_eq_false_iff]
  intro hLA
  simp only at hLA
  have hnA := h.not_crosses_of_start_lt hA hkA hL hkL hLA.1 (List.mem_of_getElem? hA) hkA
  have hnB := h.not_crosses_of_start_lt hA hkA hL hkL hLA.1 (List.mem_of_getElem? hB) hkB
  rw [crosses_eq_false_iff] at hnA hnB
  omega

/-- A forward scope that ends in no loop that starts after it does not end in one that has grown
over another loop. -/
theorem clean_stop (hF : F ∈ scopes) (hkF : F.kind = .forward) :
    F.crosses { A with stop := B.stop } = false := by
  have hAB := crosses_iff.1 hcross
  have hnA := h.clean F hF A (List.mem_of_getElem? hA) hkF hkA
  have hnB := h.clean F hF B (List.mem_of_getElem? hB) hkF hkB
  rw [crosses_eq_false_iff] at hnA hnB ⊢
  simp only
  omega

/-- A loop that has grown over another one pulls no forward scope out of a third. -/
theorem safe_stop {M : Scope} (hM : M ∈ scopes) (hF : F ∈ scopes) (hkM : M.kind = .loop)
    (hkF : F.kind = .forward) (hAM : ({ A with stop := B.stop } : Scope).crosses M = true)
    (hAF : ({ A with stop := B.stop } : Scope).crosses F = true) : M.stop ≤ F.stop := by
  have hmA := List.mem_of_getElem? hA
  have hmB := List.mem_of_getElem? hB
  have hAB := crosses_iff.1 hcross
  rw [crosses_iff] at hAM hAF
  simp only at hAM hAF
  by_contra hlt
  rcases Nat.lt_or_ge B.start F.start with hBF | hFB
  · rcases Nat.lt_or_ge B.start M.start with hBM | hMB
    · -- The second loop already had the forward scope in its way.
      exact hlt (h.safe B hmB M hM F hF hkB hkM hkF (crosses_iff.2 (by omega))
        (crosses_iff.2 (by omega)))
    · -- The third loop starts before the second, so it was passed already.
      obtain ⟨j, hj⟩ := List.mem_iff_getElem?.1 hM
      rcases Nat.lt_or_eq_of_le (h.sorted.index_le hj hB hkM hkB hMB) with hjb | rfl
      · have := crosses_eq_false_iff.1 (h.swept A hA hkA j M hjb hj hkM)
        omega
      · rw [hj] at hB
        cases hB
        omega
  · have hFM := crosses_eq_false_iff.1 (h.clean F hF M hM hkF hkM)
    exact hlt (h.safe A hmA M hM F hF hkA hkM hkF (crosses_iff.2 (by omega))
      (crosses_iff.2 (by omega)))

end

end Crossing

/-- What a position of a list holds after one entry was replaced. -/
theorem getElem?_set_cases {j : Nat} {s t : Scope} (h : (scopes.set i t)[j]? = some s) :
    j = i ∧ s = t ∨ j ≠ i ∧ scopes[j]? = some s := by
  rw [List.getElem?_set] at h
  split at h
  · split at h
    · cases h
      exact .inl ⟨by omega, rfl⟩
    · cases h
  · exact .inr ⟨by omega, h⟩

/-- After a pair of which the first does not cross the second. -/
theorem step_still (h : Steady a b scopes)
    (hno : ∀ A B, scopes[a]? = some A → scopes[b]? = some B → A.crosses B = false) :
    Steady a (b + 1) scopes where
  clean := h.clean
  safe := h.safe
  closed := h.closed
  swept L hL hkL j M hj hM hkM := by
    rcases Nat.lt_or_eq_of_le (Nat.le_of_lt_succ hj) with hj | rfl
    · exact h.swept L hL hkL j M hj hM hkM
    · exact hno L M hL hM
  sorted := h.sorted

section

variable (h : Steady a b scopes) (hA : scopes[a]? = some A) (hB : scopes[b]? = some B)
  (hcross : A.crosses B = true)
include h hA hB hcross

/-- After a pair of which the second, a forward scope, was pulled back. -/
theorem step_forward (hkB : B.kind = .forward) :
    Steady a (b + 1) (scopes.set b { B with start := A.start }) := by
  have hmem {s : Scope} (hs : s ∈ scopes.set b { B with start := A.start }) :
      s ∈ scopes ∨ s = { B with start := A.start } := List.mem_or_eq_of_mem_set hs
  -- The loops are those of before.
  have hloop {s : Scope} (hs : s ∈ scopes.set b { B with start := A.start }) (hk : s.kind = .loop) :
    s ∈ scopes := by
    rcases hmem hs with hs | rfl
    · exact hs
    · rw [hkB] at hk
      cases hk
  have hloopAt {j : Nat} {s : Scope} (hs : (scopes.set b { B with start := A.start })[j]? = some s)
      (hk : s.kind = .loop) : j ≠ b ∧ scopes[j]? = some s := by
    rcases getElem?_set_cases hs with ⟨_, rfl⟩ | hs
    · rw [hkB] at hk
      cases hk
    · exact hs
  constructor
  · intro F hF L hL hkF hkL
    rcases hmem hF with hF | rfl
    · exact h.clean F hF L (hloop hL hkL) hkF hkL
    · exact h.clean_start hA hB hcross hkB (hloop hL hkL) hkL
  · intro L hL M hM F hF hkL hkM hkF hLM hLF
    rcases hmem hF with hF | rfl
    · exact h.safe L (hloop hL hkL) M (hloop hM hkM) F hF hkL hkM hkF hLM hLF
    · exact h.safe_start hA hB hcross hkB (hloop hL hkL) (hloop hM hkM) hkL hkM hLM hLF
  · intro i L hi hL hkL M hM hkM
    exact h.closed i L hi (hloopAt hL hkL).2 hkL M (hloop hM hkM) hkM
  · intro L hL hkL j M hj hM hkM
    obtain ⟨hjb, hM⟩ := hloopAt hM hkM
    exact h.swept L (hloopAt hL hkL).2 hkL j M (by omega) hM hkM
  · intro i j L M hL hM hkL hkM hij
    exact h.sorted i j L M (hloopAt hL hkL).2 (hloopAt hM hkM).2 hkL hkM hij

/-- After a pair of loops of which the first has grown over the second. -/
theorem step_loop (hkA : A.kind = .loop) (hkB : B.kind = .loop) :
    Steady a (b + 1) (scopes.set a { A with stop := B.stop }) := by
  have hAB := crosses_iff.1 hcross
  have hmem {s : Scope} (hs : s ∈ scopes.set a { A with stop := B.stop }) :
      s ∈ scopes ∨ s = { A with stop := B.stop } := List.mem_or_eq_of_mem_set hs
  have hforward {s : Scope} (hs : s ∈ scopes.set a { A with stop := B.stop })
      (hk : s.kind = .forward) : s ∈ scopes := by
    rcases hmem hs with hs | rfl
    · exact hs
    · rw [hkA] at hk
      cases hk
  -- Widening keeps the starts of loops.
  have hstart {j : Nat} {s : Scope} (hs : (scopes.set a { A with stop := B.stop })[j]? = some s)
      (hk : s.kind = .loop) : ∃ u, scopes[j]? = some u ∧ u.kind = .loop ∧ u.start = s.start := by
    rcases getElem?_set_cases hs with ⟨rfl, rfl⟩ | ⟨_, hs⟩
    · exact ⟨A, hA, hkA, rfl⟩
    · exact ⟨s, hs, hk, rfl⟩
  constructor
  · intro F hF L hL hkF hkL
    rcases hmem hL with hL | rfl
    · exact h.clean F (hforward hF hkF) L hL hkF hkL
    · exact h.clean_stop hA hB hcross hkA hkB (hforward hF hkF) hkF
  · intro L hL M hM F hF hkL hkM hkF hLM hLF
    have hF := hforward hF hkF
    rcases hmem hL with hL | rfl
    · rcases hmem hM with hM | rfl
      · exact h.safe L hL M hM F hF hkL hkM hkF hLM hLF
      · rw [h.not_crosses_stop hA hB hcross hkA hkB hL hkL] at hLM
        cases hLM
    · rcases hmem hM with hM | rfl
      · exact h.safe_stop hA hB hcross hkA hkB hM hF hkM hkF hLM hLF
      · have := crosses_iff.1 hLM
        omega
  · intro i L hi hL hkL M hM hkM
    rcases getElem?_set_cases hL with ⟨rfl, _⟩ | ⟨_, hL⟩
    · omega
    rcases hmem hM with hM | rfl
    · exact h.closed i L hi hL hkL M hM hkM
    · exact h.not_crosses_stop hA hB hcross hkA hkB (List.mem_of_getElem? hL) hkL
  · intro L hL hkL j M hj hM hkM
    obtain rfl : L = { A with stop := B.stop } := by
      rcases getElem?_set_cases hL with ⟨_, hL⟩ | ⟨hne, _⟩
      · exact hL
      · exact absurd rfl hne
    rw [crosses_eq_false_iff]
    rcases getElem?_set_cases hM with ⟨_, rfl⟩ | ⟨_, hM⟩
    · simp
    simp only
    rcases Nat.lt_or_eq_of_le (Nat.le_of_lt_succ hj) with hj | rfl
    · have hMB := h.sorted j b M B hM hB hkM hkB hj
      have hAM := crosses_eq_false_iff.1 (h.swept A hA hkA j M hj hM hkM)
      omega
    · rw [hB] at hM
      cases hM
      omega
  · intro i j L M hL hM hkL hkM hij
    obtain ⟨L', hL', hkL', heL⟩ := hstart hL hkL
    obtain ⟨M', hM', hkM', heM⟩ := hstart hM hkM
    rw [← heL, ← heM]
    exact h.sorted i j L' M' hL' hM' hkL' hkM' hij

end

/-- Widening a pair succeeds and leaves the scopes ready for the next one. -/
theorem widenPair_ok (h : Steady a b scopes) :
    ∃ r, widenPair scopes (a, b) = .ok r ∧ Steady a (b + 1) r.val := by
  have hpair := pairWidened scopes (a, b)
  generalize widenPair scopes (a, b) = x at hpair
  cases hpair with
  | still hno => exact ⟨_, rfl, h.step_still hno⟩
  | pull hA hB hcross hkB => exact ⟨_, rfl, h.step_forward hA hB hcross hkB⟩
  | grow hA hB hcross hkA hkB => exact ⟨_, rfl, h.step_loop hA hB hcross hkA hkB⟩
  | stuck hA hB hcross hkA hkB =>
    rw [h.clean _ (List.mem_of_getElem? hA) _ (List.mem_of_getElem? hB) hkA hkB] at hcross
    cases hcross

/-- When a scope has been compared with all others, it is the turn of the next one. -/
theorem next (h : Steady a scopes.length scopes) : Steady (a + 1) 0 scopes where
  clean := h.clean
  safe := h.safe
  closed i L hi hL hkL M hM hkM := by
    rcases Nat.lt_or_eq_of_le (Nat.le_of_lt_succ hi) with hi | rfl
    · exact h.closed i L hi hL hkL M hM hkM
    · obtain ⟨j, hj⟩ := List.mem_iff_getElem?.1 hM
      exact h.swept L hL hkL j M (List.getElem?_eq_some_iff.1 hj).1 hj hkM
  swept := nofun
  sorted := h.sorted

/-- A round leaves the scopes ready for the next one. -/
theorem restart (h : Steady a b scopes) : Steady 0 0 scopes :=
  ⟨h.clean, h.safe, nofun, nofun, h.sorted⟩

end Steady

theorem widenPairs_append_eq_ok {qs : List (Nat × Nat)} : widenPairs (ps ++ qs) scopes = .ok r ↔
      ∃ f q, widenPairs ps scopes = .ok f ∧ widenPairs qs f.val = .ok q ∧ r = f >>= fun _ => q := by
  induction ps generalizing scopes r with
  | nil =>
    simp only [List.nil_append]
    constructor
    · intro h
      exact ⟨pure scopes, r, rfl, h, by simp⟩
    · rintro ⟨f, q, hf, hq, rfl⟩
      cases hf
      simpa using hq
  | cons p ps ih =>
    simp only [List.cons_append, widenPairs_cons_eq_ok, ih]
    constructor
    · rintro ⟨f, _, hf, ⟨g, q, hg, hq, rfl⟩, rfl⟩
      exact ⟨f >>= fun _ => g, q, ⟨f, g, hf, hg, rfl⟩, hq, by simp [bind_assoc]⟩
    · rintro ⟨_, q, ⟨f, g, hf, hg, rfl⟩, hq, rfl⟩
      exact ⟨f, g >>= fun _ => q, hf, ⟨g, q, hg, hq, rfl⟩, by simp [bind_assoc]⟩

theorem length_widenPair {p : Nat × Nat} (h : widenPair scopes p = .ok r) :
    r.val.length = scopes.length := by
  have hpair := h ▸ pairWidened scopes p
  cases hpair <;> simp

/-- Comparing one scope with the others, from `b` on. -/
theorem Steady.widenRow (m b : Nat) (hn : scopes.length = n) (hm : b + m = n)
    (h : Steady a b scopes) :
    ∃ r, widenPairs ((List.range' b m).map (a, ·)) scopes = .ok r ∧ r.val.length = n ∧
    Steady (a + 1) 0 r.val := by
  induction m generalizing b scopes with
  | zero =>
    obtain rfl : b = scopes.length := by omega
    exact ⟨pure scopes, rfl, hn, h.next⟩
  | succ m ih =>
    obtain ⟨f, hf, hsteady⟩ := h.widenPair_ok
    obtain ⟨r, hr, hlen, hdone⟩ := ih (b + 1) ((length_widenPair hf).trans hn) (by omega) hsteady
    refine ⟨f >>= fun _ => r, ?_, hlen, hdone⟩
    rw [List.range'_succ, List.map_cons, widenPairs_cons_eq_ok]
    exact ⟨f, r, hf, hr, rfl⟩

/-- Comparing all scopes with all others, from `a` on. -/
theorem Steady.widenRows (m a : Nat) (hn : scopes.length = n) (h : Steady a 0 scopes) :
    ∃ r, widenPairs ((List.range' a m).flatMap fun a => (List.range n).map (a, ·)) scopes = .ok r ∧
      r.val.length = n ∧ Steady (a + m) 0 r.val := by
  induction m generalizing a scopes with
  | zero => exact ⟨pure scopes, rfl, hn, h⟩
  | succ m ih =>
    obtain ⟨f, hf, hlen, hrow⟩ := h.widenRow n 0 hn (Nat.zero_add n)
    obtain ⟨r, hr, hlen', hdone⟩ := ih (a + 1) hlen hrow
    refine ⟨f >>= fun _ => r, ?_, hlen', by simpa [Nat.add_assoc, Nat.add_comm 1 m] using hdone⟩
    rw [List.range'_succ, List.flatMap_cons, widenPairs_append_eq_ok, List.range_eq_range']
    rw [List.range_eq_range'] at hr
    exact ⟨f, r, hf, hr, rfl⟩

/-- If no forward scope ends in a loop that starts after it, and no loop is in the way of one that
has yet to grow, widening does not fail. -/
theorem Steady.widen_ok (h : Steady 0 0 scopes) (k : Nat) : ∃ wide, widen k scopes = .ok wide := by
  induction k generalizing scopes with
  | zero => exact ⟨scopes, rfl⟩
  | succ k ih =>
    obtain ⟨r, hr, _, hround⟩ := h.widenRows scopes.length 0 rfl
    have hpairs : widenPairs (pairs scopes.length) scopes = .ok r := by
      rw [pairs, List.range_eq_range'] at *
      exact hr
    have hrest : ∃ wide, (if r.changed then widen k r.val else .ok r.val) = .ok wide := by
      split
      · exact ih hround.restart
      · exact ⟨_, rfl⟩
    obtain ⟨wide, hwide⟩ := hrest
    exact ⟨wide, widen_succ_eq_ok.2 ⟨r, hpairs, hwide⟩⟩

/-! ## Scopes that cannot be mended -/

/-- Comparing a loop with forward scopes alone leaves it as it is. -/
theorem getElem?_widenPairs (hn : ∀ s ∈ scopes, s.stop ≤ n) (h : widenPairs ps scopes = .ok r)
    (hL : scopes[a]? = some L) (hkL : L.kind = .loop)
    (hps : ∀ b B, (a, b) ∈ ps → scopes[b]? = some B → B.kind = .forward) : r.val[a]? = some L := by
  induction ps generalizing scopes r with
  | nil =>
    cases h
    exact hL
  | cons p ps ih =>
    obtain ⟨f, q, hf, hq, rfl⟩ := widenPairs_cons_eq_ok.1 h
    have hprog := progress_widenPair hn hf
    have hLf : f.val[a]? = some L := by
      have hpair := hf ▸ pairWidened scopes p
      cases hpair with
      | still => exact hL
      | pull _ hB _ hkB =>
        have hne : p.2 ≠ a := by
          intro heq
          rw [heq, hL] at hB
          cases hB
          rw [hkL] at hkB
          cases hkB
        rwa [Tracked.val_mark, List.getElem?_set_ne hne]
      | @grow A B _ hB _ _ hkB =>
        have hne : p.1 ≠ a := by
          intro heq
          have := hps p.2 B (by simp [← heq]) hB
          rw [hkB] at this
          cases this
        rwa [Tracked.val_mark, List.getElem?_set_ne hne]
    have hrest : q.val[a]? = some L := by
      refine ih hprog.stop_le hq hLf ?_
      intro b B hb hB
      have hlt : b < scopes.length := hprog.wider.1 ▸ (List.getElem?_eq_some_iff.1 hB).1
      obtain ⟨B', hB', hwide⟩ := hprog.wider.2 b scopes[b] (List.getElem?_eq_getElem hlt)
      rw [hB] at hB'
      cases hB'
      rw [hwide.kind]
      exact hps b _ (List.mem_cons_of_mem _ hb) (List.getElem?_eq_getElem hlt)
    exact hrest

/-- Pairs are looked at row by row. -/
theorem pairwise_pairs (n : Nat) :
    (pairs n).Pairwise fun x y => x.1 < y.1 ∨ x.1 = y.1 ∧ x.2 < y.2 := by
  rw [pairs, List.pairwise_flatMap]
  constructor
  · intro a _
    rw [List.pairwise_map]
    exact List.pairwise_lt_range.imp fun h => .inr ⟨rfl, h⟩
  · refine List.pairwise_lt_range.imp ?_
    intro a b hab x hx y hy
    obtain ⟨_, _, rfl⟩ := List.mem_map.1 hx
    obtain ⟨_, _, rfl⟩ := List.mem_map.1 hy
    exact .inl hab

/-- Loops pull a forward scope back, one after another in the order in which they are listed, until
it starts at `x` or earlier. The loops listed from `c` on are still to come. -/
inductive Pulled (scopes : List Scope) (F : Scope) : Nat → Nat → Prop
  | start {x : Nat} : F.start ≤ x → Pulled scopes F 0 x
  | loop {c x a : Nat} {L : Scope} :
  Pulled scopes F c x → scopes[a]? = some L → L.kind = .loop → c ≤ a →
    x < L.stop → L.stop < F.stop → Pulled scopes F (a + 1) L.start

/-- A forward scope that a loop reaches when its turn comes starts where the loop does, or
before. -/
theorem start_le_of_widenPair {f : List Scope} {F₁ : Scope} (hg : widenPair f (a, b) = .ok r)
    (hLf : f[a]? = some L) (hF₁ : f[b]? = some F₁) (hkF : F₁.kind = .forward)
    (hlt : F₁.start < L.stop) (hstop : L.stop < F₁.stop) (hwider : Wider f r.val) :
    ∃ G, r.val[b]? = some G ∧ G.start ≤ L.start := by
  obtain ⟨G, hG, hwideG⟩ := hwider.2 b F₁ hF₁
  refine ⟨G, hG, ?_⟩
  rcases Nat.lt_or_ge L.start F₁.start with hstart | hstart
  · have hcross : L.crosses F₁ = true := crosses_iff.2 (by omega)
    have hpair := hg ▸ pairWidened f (a, b)
    cases hpair with
    | still hno =>
      rw [hno L F₁ hLf hF₁] at hcross
      cases hcross
    | pull hA =>
      rw [hLf] at hA
      cases hA
      have hb := (List.getElem?_eq_some_iff.1 hF₁).1
      simp only [Tracked.val_mark, List.getElem?_set_self hb, Option.some.injEq] at hG
      exact Nat.le_of_eq (congrArg Scope.start hG).symm
    | grow _ hB _ _ hk =>
      rw [hF₁] at hB
      cases hB
      rw [hkF] at hk
      cases hk
  · exact Nat.le_trans hwideG.start_le hstart

/-- Once the loops that pull a forward scope back have had their turn against it in the first round,
it starts where they pull it to, if the forward scopes are listed before the loops. -/
theorem Pulled.start_le {c x : Nat} {f : Tracked (List Scope)} {qs : List (Nat × Nat)}
    (hpull : Pulled scopes F c x)
    (hn : ∀ s ∈ scopes, s.stop ≤ n) (hF : scopes[b]? = some F) (hkF : F.kind = .forward)
    (hfirst : ∀ j B, j < b → scopes[j]? = some B → B.kind = .forward)
    (hsplit : pairs scopes.length = ps ++ qs)
    (hps : ∀ a, a < c → a < scopes.length → (a, b) ∈ ps) (hf : widenPairs ps scopes = .ok f) :
    ∃ G, f.val[b]? = some G ∧ G.start ≤ x := by
  induction hpull generalizing ps qs f with
  | start hx =>
    obtain ⟨G, hG, hwide⟩ := (progress_widenPairs hn hf).wider.2 b F hF
    exact ⟨G, hG, Nat.le_trans hwide.start_le hx⟩
  | @loop c x a L _ hL hkL hca hlt hstop ih =>
    have ha := (List.getElem?_eq_some_iff.1 hL).1
    obtain ⟨before, behind, rfl⟩ := List.append_of_mem (hps a (Nat.lt_succ_self a) ha)
    have hsorted := pairwise_pairs scopes.length
    rw [hsplit, List.append_assoc, List.pairwise_append, List.cons_append,
      List.pairwise_cons] at hsorted
    rw [widenPairs_append_eq_ok] at hf
    obtain ⟨f, _, hf, h, rfl⟩ := hf
    obtain ⟨g, q, hg, hq, rfl⟩ := widenPairs_cons_eq_ok.1 h
    have hprog := progress_widenPairs hn hf
    -- The loops before this one have had their turn.
    obtain ⟨F₁, hF₁, hle⟩ := ih (by rw [hsplit, List.append_assoc]) (fun d hd hlen => by
      rcases List.mem_append.1 (hps d (by omega) hlen) with hmem | hmem
      · exact hmem
      · rcases List.mem_cons.1 hmem with heq | hmem
        · cases heq
          omega
        · have := hsorted.2.1.1 (d, b) (List.mem_append_left _ hmem)
          simp only at this
          omega) hf
    obtain ⟨_, hF', hwide⟩ := hprog.wider.2 b F hF
    cases hF₁.symm.trans hF'
    -- Until its turn against the forward scope, the loop is as it was.
    have hLf : f.val[a]? = some L := by
      refine getElem?_widenPairs hn hf hL hkL fun j B hj hB => hfirst j B ?_ hB
      have := hsorted.2.2 (a, j) hj (a, b) (by simp)
      simpa using this
    have hprog' := progress_widenPair hprog.stop_le hg
    have hstop' : L.stop < F₁.stop := by
      rw [hwide.stop_eq hkF]
      exact hstop
    obtain ⟨G, hG, hle'⟩ :=
      start_le_of_widenPair hg hLf hF₁ (hwide.kind.trans hkF) (by omega) hstop' hprog'.wider
    obtain ⟨G', hG', hwideG⟩ := (progress_widenPairs hprog'.stop_le hq).wider.2 b G hG
    exact ⟨G', hG', Nat.le_trans hwideG.start_le hle'⟩

/-- A forward scope that ends in a loop and is pulled out of it makes widening fail. -/
theorem Pulled.widen_ne_ok {k c x e : Nat} {wide : List Scope} (hpull : Pulled scopes F c x)
    (hn : ∀ s ∈ scopes, s.stop ≤ n) (hk : slack n scopes < k) (hM : scopes[e]? = some M)
    (hF : scopes[b]? = some F) (hkM : M.kind = .loop) (hkF : F.kind = .forward)
    (hfirst : ∀ j B, j < b → scopes[j]? = some B → B.kind = .forward) (hout : x < M.start)
    (hMF : M.start < F.stop) (hin : F.stop < M.stop) : widen k scopes ≠ .ok wide := by
  intro h
  obtain ⟨hwider, _, hapart⟩ := widen_spec hn hk h
  obtain ⟨k, rfl⟩ : ∃ m, k = m + 1 := ⟨k - 1, by omega⟩
  obtain ⟨r, hround, h⟩ := widen_succ_eq_ok.1 h
  have hprog := progress_widenPairs hn hround
  have hslack := hprog.slack_le
  obtain ⟨G, hG, hle⟩ := hpull.start_le hn hF hkF hfirst (List.append_nil _).symm
    (fun a _ ha => mem_pairs.2 ⟨ha, (List.getElem?_eq_some_iff.1 hF).1⟩) hround
  -- Later rounds only widen, so the scope ends up starting before the loop it ends in.
  have hrest : Wider r.val wide := by
    split at h
    · rename_i hc
      rw [hc, Bool.toNat_true] at hslack
      exact (widen_spec hprog.stop_le (by omega) h).1
    · cases h
      exact .refl _
  obtain ⟨G', hG', hwideG⟩ := hrest.2 b G hG
  obtain ⟨F', hF', hwideF⟩ := hwider.2 b F hF
  rw [hG'] at hF'
  cases hF'
  obtain ⟨M', hM', hwideM⟩ := hwider.2 e M hM
  have hcross := hapart G' (List.mem_of_getElem? hG') M' (List.mem_of_getElem? hM')
  rw [crosses_eq_false_iff] at hcross
  have h₁ := hwideG.start_le
  have h₂ := hwideF.stop_eq hkF
  have h₃ := hwideM.start_eq hkM
  have h₄ := hwideM.le_stop
  omega

/-! ## Jumps and scopes -/

section Jumps

variable {p q j : Nat} {s : Scope}

/-- A jump to a label that stands at one place. -/
theorem jumps_iff (honce : LabelsOnce flat) :
    Jumps flat i p ↔ ∃ l, (l, i) ∈ gotos flat ∧ labelIndex? flat l = some p := by
  constructor
  · rintro ⟨l, c, hi, hp⟩
    obtain ⟨q, _, hq⟩ := honce l c (List.mem_of_getElem? hi)
    refine ⟨l, mem_gotos.2 ⟨c, hi⟩, labelIndex?_eq_some hp ?_⟩
    intro j hj
    rw [hq j hj, hq p hp]
  · rintro ⟨l, hi, hp⟩
    obtain ⟨c, hc⟩ := mem_gotos.1 hi
    exact ⟨l, c, hc, getElem?_of_labelIndex? hp⟩

/-- A jump goes to one place. -/
theorem Jumps.right_unique (honce : LabelsOnce flat) (hp : Jumps flat i p)
    (hq : Jumps flat i q) : p = q := by
  obtain ⟨l, c, hi, hlp⟩ := hp
  obtain ⟨m, d, hi', hmq⟩ := hq
  rw [hi] at hi'
  cases hi'
  obtain ⟨r, _, hr⟩ := honce l c (List.mem_of_getElem? hi)
  rw [hr p hlp, hr q hmq]

/-- A jump and a label do not stand at one place. -/
theorem Jumps.ne (hip : Jumps flat i p) (hjq : Jumps flat j q) : i ≠ q := by
  obtain ⟨l, c, hi, _⟩ := hip
  obtain ⟨m, d, _, hq⟩ := hjq
  rintro rfl
  rw [hi] at hq
  cases hq

/-- A forward scope reaches from a jump to its label. -/
theorem jumps_of_forward (hs : s ∈ initialScopes flat) (hk : s.kind = .forward) :
    Jumps flat s.start s.stop := by
  obtain ⟨l, p, hmark, hs | hs⟩ := mem_initialScopes.1 hs
  · obtain ⟨heq, hjump, _⟩ := forwardScope?_eq_some hs
    obtain ⟨c, hc⟩ := mem_gotos.1 hjump
    rw [heq]
    exact ⟨l, c, hc, getElem?_of_labelIndex? hmark⟩
  · obtain ⟨i, rfl, _⟩ := loopScope?_eq_some hs
    cases hk

/-- A loop reaches from its label behind the last jump back to it. -/
theorem jumps_of_loop (honce : LabelsOnce flat) (hs : s ∈ initialScopes flat)
    (hk : s.kind = .loop) : ∃ j, s.stop = j + 1 ∧ Jumps flat j s.start ∧ s.start < j ∧ ∀ i,
      Jumps flat i s.start → i ≤ j := by
  obtain ⟨l, p, hmark, hs | hs⟩ := mem_initialScopes.1 hs
  · rw [(forwardScope?_eq_some hs).1] at hk
    cases hk
  · obtain ⟨j, rfl, hjump, hlt, hlast⟩ := loopScope?_eq_some hs
    refine ⟨j, rfl, (jumps_iff honce).2 ⟨l, hjump, hmark⟩, hlt, ?_⟩
    rintro i hi
    obtain ⟨m, c, hgoto, hm⟩ := hi
    have hl := getElem?_of_labelIndex? hmark
    rw [hl] at hm
    cases hm
    rcases Nat.lt_or_ge p i with hpi | hpi
    · exact hlast i (mem_gotos.2 ⟨c, hgoto⟩) hpi
    · exact Nat.le_trans hpi (Nat.le_of_lt hlt)

/-- A jump forward lies in the forward scope of its label. -/
theorem exists_forward_of_jumps (honce : LabelsOnce flat) (h : Jumps flat i p) (hip : i < p) :
    ∃ s ∈ initialScopes flat, s.kind = .forward ∧ s.stop = p ∧ s.start ≤ i := by
  obtain ⟨l, hi, hp⟩ := (jumps_iff honce).1 h
  obtain ⟨s, hs, hk, rfl⟩ := exists_forward_mem_initialScopes hp hi hip
  have hfits := fits_of_mem_initialScopes hs
  have hstop := hfits.stop_eq hk hp
  exact ⟨s, hs, hk, hstop, hfits.forward_jump hk i hi (by omega)⟩

/-- A jump back lies in the loop of its label. -/
theorem exists_loop_of_jumps (honce : LabelsOnce flat) (h : Jumps flat j p) (hpj : p < j) :
    ∃ s ∈ initialScopes flat, s.kind = .loop ∧ s.start = p ∧ j < s.stop := by
  obtain ⟨l, hj, hp⟩ := (jumps_iff honce).1 h
  obtain ⟨s, hs, hk, rfl⟩ := exists_loop_mem_initialScopes hp hj hpj
  have hfits := fits_of_mem_initialScopes hs
  have hstart := hfits.start_eq hk hp
  exact ⟨s, hs, hk, hstart, hfits.loop_jump hk j hj (by omega)⟩

theorem kind_of_mem_forward (hs : s ∈ forwardScopes flat) : s.kind = .forward := by
  obtain ⟨⟨l, p⟩, _, hs⟩ := List.mem_filterMap.1 hs
  rw [(forwardScope?_eq_some hs).1]

theorem kind_of_mem_loop (hs : s ∈ loopScopes flat) : s.kind = .loop := by
  obtain ⟨⟨l, p⟩, _, hs⟩ := List.mem_filterMap.1 hs
  obtain ⟨j, rfl, _⟩ := loopScope?_eq_some hs
  rfl

/-- What is listed before a forward scope is one. -/
theorem Enumeration.forward_of_lt (o : Enumeration flat) {a b : Nat} {F A : Scope}
    (hF : o.scopes[b]? = some F)
    (hkF : F.kind = .forward) (hA : o.scopes[a]? = some A) (hab : a < b) : A.kind = .forward := by
  rw [Enumeration.scopes, List.getElem?_append] at hF hA
  split at hF
  · rw [if_pos (by omega)] at hA
    exact kind_of_mem_forward (o.forwards_perm.mem_iff.1 (List.mem_of_getElem? hA))
  · rw [kind_of_mem_loop (o.loops_perm.mem_iff.1 (List.mem_of_getElem? hF))] at hkF
    cases hkF

/-- What holds of the starts of any two loops in the order of an enumeration holds of them in the
list of all scopes. -/
theorem Enumeration.starts_of_lt (o : Enumeration flat) {r : Nat → Nat → Prop}
    (hr : o.loops.Pairwise fun L M => r L.start M.start) {a b : Nat} (hL : o.scopes[a]? = some L)
    (hM : o.scopes[b]? = some M) (hkL : L.kind = .loop) (hab : a < b) : r L.start M.start := by
  rw [Enumeration.scopes, List.getElem?_append] at hL hM
  split at hL
  · rw [kind_of_mem_forward (o.forwards_perm.mem_iff.1 (List.mem_of_getElem? hL))] at hkL
    cases hkL
  · rw [if_neg (by omega)] at hM
    obtain ⟨hi, rfl⟩ := List.getElem?_eq_some_iff.1 hL
    obtain ⟨hj, rfl⟩ := List.getElem?_eq_some_iff.1 hM
    exact List.pairwise_iff_getElem.1 hr _ _ hi hj (by omega)

/-- A forward scope that ends in a loop and is pulled out of it makes widening fail. -/
theorem Enumeration.ne_ok_of_pulled (o : Enumeration flat) {c x : Nat}
    (hpull : Pulled o.scopes F c x)
    (hF : F ∈ initialScopes flat) (hkF : F.kind = .forward) (hM : M ∈ initialScopes flat)
    (hkM : M.kind = .loop)
    (hout : x < M.start) (hMF : M.start < F.stop) (hin : F.stop < M.stop) (wide : List Scope) :
    o.widened ≠ .ok wide := by
  obtain ⟨b, hb⟩ := List.mem_iff_getElem?.1 (o.mem_scopes.2 hF)
  obtain ⟨e, he⟩ := List.mem_iff_getElem?.1 (o.mem_scopes.2 hM)
  exact hpull.widen_ne_ok (fun _ hs => (o.fits hs).stop_le) o.slack_lt he hb hkM hkF
    (fun _ _ hj hB => o.forward_of_lt hb hkF hB hj) hout hMF hin

/-- The loops start one behind the other in the order of the code. -/
theorem pairwise_loopScopes (flat : Block) :
    (loopScopes flat).Pairwise fun L M => L.start < M.start := by
  refine List.Pairwise.filterMap _ ?_ (pairwise_labelMarks flat)
  rintro ⟨l, p⟩ ⟨m, q⟩ hpq L hL M hM
  obtain ⟨_, rfl, _⟩ := loopScope?_eq_some hL
  obtain ⟨_, rfl, _⟩ := loopScope?_eq_some hM
  exact hpq

/-- Loops are listed in the order of the code. -/
theorem loopsSorted_ofCode (flat : Block) : LoopsSorted (Enumeration.ofCode flat).scopes :=
  fun _ _ _ _ hL hM hkL _ hab => (Enumeration.ofCode flat).starts_of_lt
    (pairwise_loopScopes flat) hL hM hkL hab

end Jumps

/-! ## Nesting and widening -/

section Nesting

variable {labels : LabelTable} {vars : VarTable}

/-- Without jumps into loops no loop is entered at its test, so none is turned round. -/
theorem rotateLoops_eq_self (hinto : ¬ JumpsIntoLoop flat) (n : Nat) :
    rotateLoops vars n flat labels = (flat, labels) := by
  have hnone : enteredLoop? flat = none := by
    rw [Option.eq_none_iff_forall_not_mem]
    intro l hl
    obtain ⟨entry, head, cond, hshape⟩ := shape_of_enteredLoop? hl
    exact hinto ⟨l.enters, l.test, l.back, l.enters + 1,
      ⟨entry, none, hshape.enters, getElem?_of_labelIndex? hshape.test⟩,
      ⟨head, cond, hshape.back, hshape.body⟩, Nat.lt_succ_self _, hshape.lt_test,
      Nat.le_of_lt hshape.test_lt⟩
  cases n with
  | zero => rfl
  | succ n => rw [rotateLoops, hnone]

/-- Without jumps into loops and trapped jumps, the first round starts out steady. -/
theorem steady_ofCode (honce : LabelsOnce flat) (hinto : ¬ JumpsIntoLoop flat)
    (htrap : ¬ Trapped flat) : Steady 0 0 (Enumeration.ofCode flat).scopes where
  clean F hF L hL hkF hkL := by
    rw [crosses_eq_false_iff]
    intro hcross
    obtain ⟨j, hstop, hback, _⟩ := jumps_of_loop honce hL hkL
    exact hinto ⟨F.start, F.stop, j, L.start, jumps_of_forward hF hkF, hback, by omega⟩
  safe L hL M hM F hF hkL hkM hkF hLM hLF := by
    rw [crosses_iff] at hLM hLF
    by_contra hout
    obtain ⟨j, hstop, hback, _, hlast⟩ := jumps_of_loop honce hL hkL
    obtain ⟨j', hstop', hback', _⟩ := jumps_of_loop honce hM hkM
    have hforward := jumps_of_forward hF hkF
    -- The jump stands in the inner loop: otherwise it would lead into it.
    have hle : M.start ≤ F.start := by
      by_contra hlt
      exact hinto ⟨F.start, F.stop, j', M.start, hforward, hback', by omega⟩
    have hne : F.start ≠ M.start := hforward.ne hback'
    have hne' : F.start ≠ j := by
      rintro rfl
      have := hforward.right_unique honce hback
      omega
    refine htrap ⟨F.start, F.stop, L.start, M.start, j', hforward, hback', by omega, by omega,
      by omega, by omega, ⟨j, hback, by omega⟩, ?_⟩
    intro i hi
    have := hlast i hi
    omega
  closed i L hi := by omega
  swept L hL hkL j M hj := by omega
  sorted := loopsSorted_ofCode flat

/-- A trapped jump makes widening fail, in whatever order the scopes are listed. -/
theorem widened_ne_ok_of_trapped (honce : LabelsOnce flat) (htrap : Trapped flat)
    (o : Enumeration flat) (wide : List Scope) : o.widened ≠ .ok wide := by
  obtain ⟨i, p, s, s', j', hforward, hback', hss, hsi, hip, hpj, ⟨j, hback, hij⟩, hlast⟩ := htrap
  obtain ⟨F, hF, hkF, hFstop, hFstart⟩ := exists_forward_of_jumps honce hforward hip
  obtain ⟨L, hL, hkL, hLstart, hLstop⟩ := exists_loop_of_jumps honce hback (by omega)
  obtain ⟨M, hM, hkM, hMstart, hMstop⟩ := exists_loop_of_jumps honce hback' (by omega)
  have hLF : L.stop < F.stop := by
    obtain ⟨e, hstop, he, _⟩ := jumps_of_loop honce hL hkL
    have := hlast e (hLstart ▸ he)
    omega
  obtain ⟨a, ha⟩ := List.mem_iff_getElem?.1 (o.mem_scopes.2 hL)
  have hpull : Pulled o.scopes F (a + 1) L.start :=
    .loop (.start hFstart) ha hkL (Nat.zero_le a) (by omega) hLF
  exact o.ne_ok_of_pulled hpull hF hkF hM hkM (by omega) (by omega) (by omega) wide

/-- Where nothing is turned round and no label is missing, nesting fails as widening does. -/
theorem nest_eq_of_widened (labels : LabelTable) (vars : VarTable) (honce : LabelsOnce flat)
    (hinto : ¬ JumpsIntoLoop flat) (order : ScopeOrder) :
    ∃ finish : List Scope → Block × LabelTable, flat.nest labels vars order =
      ((order flat).widened.mapError fun l => .irreducible (labels.name l)).map finish := by
  have hfound : ((gotos flat).find? fun j => (labelIndex? flat j.1).isNone) = none := by
    rw [List.find?_eq_none]
    rintro ⟨l, i⟩ hi
    obtain ⟨c, hc⟩ := mem_gotos.1 hi
    obtain ⟨p, hp, hq⟩ := honce l c (List.mem_of_getElem? hc)
    simp [labelIndex?_eq_some hp hq]
  simp only [Block.nest]
  rw [rotateLoops_eq_self hinto]
  simp only [scopes, hfound]
  cases (order flat).widened with
  | error l => exact ⟨fun _ => default, rfl⟩
  | ok wide => exact ⟨fun _ => _, rfl⟩

theorem nest_ok_iff (honce : LabelsOnce flat) (hinto : ¬ JumpsIntoLoop flat) (order : ScopeOrder) :
    (∃ nested, flat.nest labels vars order = .ok nested) ↔ ∃ wide,
      (order flat).widened = .ok wide := by
  obtain ⟨finish, hnest⟩ := nest_eq_of_widened labels vars honce hinto order
  rw [hnest]
  cases (order flat).widened with
  | error l => refine iff_of_false ?_ ?_ <;> rintro ⟨_, h⟩ <;> cases h
  | ok wide => exact iff_of_true ⟨_, rfl⟩ ⟨wide, rfl⟩

end Nesting

end ByteLift
