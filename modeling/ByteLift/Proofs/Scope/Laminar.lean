import Mathlib.Data.List.TakeWhile
import ByteLift.Nested.Build
import ByteLift.Proofs.Scope.Widening

/-!
# Scopes that nest

The scopes that flat code ends up with are sorted from the outside in and do not cross, `Laid`.
`Laminar` says the same by recursion along the code: a stretch is empty, or starts with a statement
that no scope starts at, or starts with a scope. Nesting follows that recursion.
-/

namespace ByteLift

open List

/-! ## The scopes of flat code -/

namespace Scope

/-- The first scope starts earlier than the second, or where the second does and ends no earlier. -/
def Before (s t : Scope) : Prop := s.start < t.start ∨ s.start = t.start ∧ t.stop ≤ s.stop

theorem before_of_le {s t : Scope} (h : s.le t = true) : s.Before t := by
  simp only [le, Bool.or_eq_true, Bool.and_eq_true, decide_eq_true_eq] at h
  unfold Before
  omega

theorem le_trans (s t u : Scope) (hst : s.le t = true) (htu : t.le u = true) : s.le u = true := by
  simp only [le, Bool.or_eq_true, Bool.and_eq_true, decide_eq_true_eq] at *
  cases hs : s.kind <;> cases ht : t.kind <;> cases hu : u.kind <;> simp_all <;> omega

theorem le_total (s t : Scope) : (s.le t || t.le s) = true := by
  simp only [le, Bool.or_eq_true, Bool.and_eq_true, decide_eq_true_eq]
  cases hs : s.kind <;> cases ht : t.kind <;> simp <;> omega

end Scope

/-- What is known of the scopes of flat code. -/
structure Laid (flat : Block) (found : List Scope) : Prop where
  fits : ∀ s ∈ found, s.Fits flat
  apart : Apart found
  sorted : found.Pairwise Scope.Before
  /-- A label has one scope of each kind. -/
  distinct : found.Pairwise fun s t => ¬ (s.kind = t.kind ∧ s.target = t.target)
  /-- No label is missing. -/
  label : ∀ l i, (l, i) ∈ gotos flat → ∃ p, labelIndex? flat l = some p
  forward : ∀ l i p, (l, i) ∈ gotos flat → labelIndex? flat l = some p → i < p →
    ∃ s ∈ found, s.kind = .forward ∧ s.target = l
  loop : ∀ l i p, (l, i) ∈ gotos flat → labelIndex? flat l = some p → p < i →
    ∃ s ∈ found, s.kind = .loop ∧ s.target = l

/-- A label starts out with one scope of each kind. -/
theorem distinct_initialScopes (flat : Block) :
    (initialScopes flat).Pairwise fun s t => ¬ (s.kind = t.kind ∧ s.target = t.target) := by
  -- Labels are told apart by their positions.
  have hmarks : (labelMarks flat).Pairwise fun x y => x.1 ≠ y.1 := by
    refine (pairwise_labelMarks flat).imp_of_mem ?_
    rintro ⟨l, p⟩ ⟨m, q⟩ hp hq hlt rfl
    rw [mem_labelMarks] at hp hq
    rw [hp, Option.some.injEq] at hq
    omega
  rw [initialScopes, pairwise_append]
  refine ⟨?_, ?_, ?_⟩
  · refine List.Pairwise.filterMap _ ?_ hmarks
    rintro ⟨l, p⟩ ⟨m, q⟩ hlm s hs t ht
    rw [(forwardScope?_eq_some hs).1, (forwardScope?_eq_some ht).1]
    exact fun h => hlm h.2
  · refine List.Pairwise.filterMap _ ?_ hmarks
    rintro ⟨l, p⟩ ⟨m, q⟩ hlm s hs t ht
    obtain ⟨_, rfl, _⟩ := loopScope?_eq_some hs
    obtain ⟨_, rfl, _⟩ := loopScope?_eq_some ht
    exact fun h => hlm h.2
  · intro s hs t ht
    obtain ⟨⟨l, p⟩, _, hs⟩ := mem_filterMap.1 hs
    obtain ⟨⟨m, q⟩, _, ht⟩ := mem_filterMap.1 ht
    obtain ⟨_, rfl, _⟩ := loopScope?_eq_some ht
    rw [(forwardScope?_eq_some hs).1]
    intro h
    cases h.1

/-- Widening keeps the kinds and labels of scopes. -/
theorem Wider.distinct {scopes wide : List Scope} (h : Wider scopes wide)
    (hs : scopes.Pairwise fun s t => ¬ (s.kind = t.kind ∧ s.target = t.target)) :
    wide.Pairwise fun s t => ¬ (s.kind = t.kind ∧ s.target = t.target) := by
  rw [pairwise_iff_getElem] at hs ⊢
  intro i j hi hj hij
  have hi' : i < scopes.length := h.1 ▸ hi
  have hj' : j < scopes.length := h.1 ▸ hj
  obtain ⟨s, hsi, hwi⟩ := h.2 i _ (getElem?_eq_getElem hi')
  obtain ⟨t, htj, hwj⟩ := h.2 j _ (getElem?_eq_getElem hj')
  rw [getElem?_eq_getElem hi, Option.some.injEq] at hsi
  rw [getElem?_eq_getElem hj, Option.some.injEq] at htj
  rw [hsi, htj, hwi.kind, hwj.kind, hwi.target, hwj.target]
  exact hs i j hi' hj' hij

/-- The scopes that come out of widening have different kinds or labels. -/
theorem Enumeration.distinct {flat : Block} (o : Enumeration flat) {wide : List Scope}
    (h : o.widened = .ok wide) :
    wide.Pairwise fun s t => ¬ (s.kind = t.kind ∧ s.target = t.target) := by
  refine (o.widened_spec h).1.distinct ((o.perm.pairwise_iff ?_).2 (distinct_initialScopes flat))
  intro s t hst hts
  exact hst ⟨hts.1.symm, hts.2.symm⟩

/-- The scopes that flat code is given are laid over it, in whatever order they were listed. -/
theorem laid_of_scopes {flat : Block} {o : Enumeration flat} {labels : LabelTable}
    {found : List Scope} (h : scopes flat o labels = .ok found) : Laid flat found := by
  rw [scopes] at h
  split at h
  · cases h
  rename_i hlabels
  split at h
  · cases h
  rename_i wide hwide
  cases h
  obtain ⟨hwider, hstop, hapart⟩ := o.widened_spec hwide
  have hperm := mergeSort_perm wide Scope.le
  have hmem {s : Scope} : s ∈ wide.mergeSort Scope.le ↔ s ∈ wide := hperm.mem_iff
  constructor
  · intro s hs
    obtain ⟨t, ht, hts⟩ := hwider.exists_mem_of_mem (hmem.1 hs)
    exact (o.fits ht).widens hts (hstop s (hmem.1 hs))
  · intro s hs t ht
    exact hapart s (hmem.1 hs) t (hmem.1 ht)
  · exact (pairwise_mergeSort Scope.le_trans Scope.le_total wide).imp Scope.before_of_le
  · refine (hperm.pairwise_iff ?_).2 (o.distinct hwide)
    intro s t hst hts
    exact hst ⟨hts.1.symm, hts.2.symm⟩
  · intro l i hi
    have := find?_eq_none.1 hlabels (l, i) hi
    exact Option.ne_none_iff_exists'.1 (by simpa using this)
  · intro l i p hi hp hip
    obtain ⟨s, hs, hk, htarget⟩ := exists_forward_mem_initialScopes hp hi hip
    obtain ⟨t, ht, hst⟩ := hwider.exists_mem (o.mem_scopes.2 hs)
    exact ⟨t, hmem.2 ht, hst.kind.trans hk, hst.target.trans htarget⟩
  · intro l i p hi hp hip
    obtain ⟨s, hs, hk, htarget⟩ := exists_loop_mem_initialScopes hp hi hip
    obtain ⟨t, ht, hst⟩ := hwider.exists_mem (o.mem_scopes.2 hs)
    exact ⟨t, hmem.2 ht, hst.kind.trans hk, hst.target.trans htarget⟩

/-- Every jump stands in the scope that it needs: jumps forward in the forward scope that ends at
the label, and jumps back in the loop that starts there. -/
theorem Laid.exists_scope {flat : Block} {found : List Scope} (h : Laid flat found) {pos : Nat}
    {l : Label} {c : Option Expr} (hgoto : flat[pos]? = some (.goto l c)) :
    ∃ s ∈ found, s.target = l ∧ s.start ≤ pos ∧ pos < s.stop ∧
      (s.kind = .forward ∧ pos < labelPos flat l ∧ s.stop = labelPos flat l ∨
        s.kind = .loop ∧ labelPos flat l < pos ∧ s.start = labelPos flat l) := by
  have hmem : (l, pos) ∈ gotos flat := mem_gotos.2 ⟨c, hgoto⟩
  obtain ⟨p, hp⟩ := h.label l pos hmem
  rw [labelPos_of_labelIndex? hp]
  rcases Nat.lt_trichotomy pos p with hlt | rfl | hlt
  · obtain ⟨s, hs, hk, rfl⟩ := h.forward l pos p hmem hp hlt
    have hfits := h.fits s hs
    have hstop := hfits.stop_eq hk hp
    have hstart := hfits.forward_jump hk pos hmem (by omega)
    exact ⟨s, hs, rfl, hstart, by omega, .inl ⟨hk, hlt, hstop⟩⟩
  · rw [getElem?_of_labelIndex? hp] at hgoto
    cases hgoto
  · obtain ⟨s, hs, hk, rfl⟩ := h.loop l pos p hmem hp hlt
    have hfits := h.fits s hs
    have hstart := hfits.start_eq hk hp
    have hstop := hfits.loop_jump hk pos hmem (by omega)
    exact ⟨s, hs, rfl, by omega, hstop, .inr ⟨hk, hlt, hstart⟩⟩

/-! ## Stretches of code -/

/-- The scopes lie nested in the stretch of code from one position up to another. -/
inductive Laminar : Nat → Nat → List Scope → Prop
  | done {hi : Nat} : Laminar hi hi []
  /-- The stretch starts with a statement that no scope starts at. -/
  | stmt {lo hi : Nat} {scopes : List Scope} (h : Laminar (lo + 1) hi scopes) : Laminar lo hi scopes
  /-- The stretch starts with a scope, with the scopes in it and those behind it. -/
  | scope {s : Scope} {hi : Nat} {inside behind : List Scope} (hlt : s.start < s.stop)
    (hinside : Laminar s.start s.stop inside) (hbehind : Laminar s.stop hi behind) :
    Laminar s.start hi (s :: (inside ++ behind))

theorem Laminar.le {lo hi : Nat} {scopes : List Scope} (h : Laminar lo hi scopes) : lo ≤ hi := by
  induction h with
  | done => exact Nat.le_refl _
  | stmt _ ih => omega
  | scope hlt _ _ _ ih => omega

/-- All scopes lie in the stretch. -/
theorem Laminar.within {lo hi : Nat} {scopes : List Scope} (h : Laminar lo hi scopes) {s : Scope}
    (hs : s ∈ scopes) : lo ≤ s.start ∧ s.start < s.stop ∧ s.stop ≤ hi := by
  induction h with
  | done => cases hs
  | stmt _ ih =>
    have := ih hs
    omega
  | scope hlt hinside hbehind ihin ihbehind =>
    have hle := hbehind.le
    rcases mem_cons.1 hs with rfl | hs
    · omega
    rcases mem_append.1 hs with hs | hs
    · have := ihin hs
      omega
    · have := ihbehind hs
      omega

/-- Behind the first scope that starts at a position or later, all do. -/
theorem le_start_of_mem_dropWhile {scopes : List Scope} (hsorted : scopes.Pairwise Scope.Before)
    {n : Nat} {t : Scope} (ht : t ∈ scopes.dropWhile (·.start < n)) : n ≤ t.start := by
  induction scopes with
  | nil => simp at ht
  | cons s ss ih =>
    rw [pairwise_cons] at hsorted
    rw [dropWhile_cons] at ht
    split at ht
    · exact ih hsorted.2 ht
    · rename_i hs
      simp only [decide_eq_true_eq, Nat.not_lt] at hs
      rcases mem_cons.1 ht with rfl | ht
      · exact hs
      · have hbefore := hsorted.1 t ht
        unfold Scope.Before at hbefore
        omega

/-- Sorted scopes that do not cross lie nested. -/
theorem laminar_of_sorted {lo hi : Nat} {scopes : List Scope} (hle : lo ≤ hi)
    (hin : ∀ s ∈ scopes, lo ≤ s.start ∧ s.start < s.stop ∧ s.stop ≤ hi) (hapart : Apart scopes)
    (hsorted : scopes.Pairwise Scope.Before) : Laminar lo hi scopes := by
  match scopes with
  | [] =>
    rcases Nat.eq_or_lt_of_le hle with rfl | hlt
    · exact .done
    · exact .stmt (laminar_of_sorted hlt (by simp) hapart hsorted)
  | s :: rest =>
    have hs := hin s (by simp)
    rcases Nat.eq_or_lt_of_le hs.1 with rfl | hlt
    · have hfirst := (pairwise_cons.1 hsorted).1
      have hrest := (pairwise_cons.1 hsorted).2
      have hsub : rest.takeWhile (·.start < s.stop) ++ rest.dropWhile (·.start < s.stop) = rest :=
        takeWhile_append_dropWhile
      have hmemIn {t : Scope} (ht : t ∈ rest.takeWhile (·.start < s.stop)) :
        t ∈ rest ∧ t.start < s.stop :=
        ⟨(takeWhile_subset _) ht, by simpa using mem_takeWhile_imp ht⟩
      have hmemBehind {t : Scope} (ht : t ∈ rest.dropWhile (·.start < s.stop)) : t ∈ rest :=
        (dropWhile_subset _) ht
      rw [← hsub, pairwise_append] at hrest
      have hlenIn :=
        (takeWhile_sublist (fun t : Scope => decide (t.start < s.stop)) (l := rest)).length_le
      have hlenBehind :=
        (dropWhile_sublist (fun t : Scope => decide (t.start < s.stop)) (l := rest)).length_le
      rw [← hsub]
      refine .scope hs.2.1 ?_ ?_
      · refine laminar_of_sorted (Nat.le_of_lt hs.2.1) ?_ ?_ hrest.1
        · -- A scope that starts in the first one ends in it.
          intro t ht
          obtain ⟨ht, hlt⟩ := hmemIn ht
          have hbefore := hfirst t ht
          have hcross := hapart s (by simp) t (by simp [ht])
          rw [Scope.crosses_eq_false_iff] at hcross
          have := hin t (by simp [ht])
          unfold Scope.Before at hbefore
          omega
        · intro t ht u hu
          exact hapart t (by simp [(hmemIn ht).1]) u (by simp [(hmemIn hu).1])
      · refine laminar_of_sorted hs.2.2 ?_ ?_ hrest.2.1
        · intro t ht
          have := hin t (by simp [hmemBehind ht])
          have := le_start_of_mem_dropWhile (pairwise_cons.1 hsorted).2 ht
          omega
        · intro t ht u hu
          exact hapart t (by simp [hmemBehind ht]) u (by simp [hmemBehind hu])
    · refine .stmt (laminar_of_sorted (by omega) ?_ hapart hsorted)
      intro t ht
      have := hin t ht
      rcases mem_cons.1 ht with rfl | ht
      · omega
      · have hbefore := (pairwise_cons.1 hsorted).1 t ht
        unfold Scope.Before at hbefore
        omega
termination_by (scopes.length, hi - lo)
decreasing_by
  · apply Prod.Lex.right
    omega
  · apply Prod.Lex.left
    simp only [length_cons]
    omega
  · apply Prod.Lex.left
    simp only [length_cons]
    omega
  · apply Prod.Lex.right
    omega

/-- The scopes of flat code lie nested in it. -/
theorem Laid.laminar {flat : Block} {found : List Scope} (h : Laid flat found) :
    Laminar 0 flat.length found := by
  refine laminar_of_sorted (Nat.zero_le _) ?_ h.apart h.sorted
  intro s hs
  exact ⟨Nat.zero_le _, (h.fits s hs).start_lt_stop, (h.fits s hs).stop_le⟩

end ByteLift
