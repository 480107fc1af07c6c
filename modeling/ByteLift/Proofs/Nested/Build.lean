import Mathlib.Data.List.Nodup
import ByteLift.Proofs.Nested.WellNested
import ByteLift.Proofs.Rotate
import ByteLift.Proofs.Scope.Laminar

/-!
# Nesting flat code

How nesting unfolds along a stretch of code, the labels that scopes get, and that every jump ends up
in the loop that it names.
-/

namespace ByteLift

open Stmt List

variable {flat : Block} {names : ForwardLabels}

/-! ## Nesting a stretch -/

theorem nest_done (hi : Nat) : nest flat names [] hi hi = [] := by
  rw [nest, if_neg (Nat.lt_irrefl hi)]

variable {hi lo : Nat} {found scopes : List Scope} {labels : LabelTable} {s : Scope} {t n : Label}
  {around : List (Option Label)}

/-- A stretch that starts with a statement. -/
theorem nest_stmt (h : Laminar (lo + 1) hi scopes) : nest flat names scopes lo hi =
      nestStmt flat names lo ++ nest flat names scopes (lo + 1) hi := by
  have hle := h.le
  cases scopes with
  | nil => rw [nest, if_pos (by omega)]
  | cons s rest =>
    have := h.within (mem_cons_self (a := s) (l := rest))
    rw [nest, if_pos (by omega)]
    simp only
    rw [if_neg (by omega)]

/-- A stretch that starts with a scope. -/
theorem nest_scope {inside behind : List Scope} (hlt : s.start < s.stop)
    (hinside : Laminar s.start s.stop inside) (hbehind : Laminar s.stop hi behind) :
    nest flat names (s :: (inside ++ behind)) s.start hi = .forever (some (s.label names))
          (nest flat names inside s.start s.stop ++ [.breakLoop (some (s.label names))])
        :: nest flat names behind s.stop hi := by
  have hle := hbehind.le
  have hin : ∀ t ∈ inside, decide (t.start < s.stop) = true := by
    intro t ht
    have := hinside.within ht
    simp only [decide_eq_true_eq]
    omega
  have hout : ∀ t ∈ behind, ¬ t.start < s.stop := by
    intro t ht
    have := hbehind.within ht
    omega
  have htake : (inside ++ behind).takeWhile (·.start < s.stop) = inside := by
    rw [takeWhile_append_of_pos hin]
    cases behind with
    | nil => simp
    | cons t ts => simp [hout t (by simp)]
  have hdrop : (inside ++ behind).dropWhile (·.start < s.stop) = behind := by
    rw [dropWhile_append_of_pos hin]
    cases behind with
    | nil => rfl
    | cons t ts => simp [hout t (by simp)]
  rw [nest, if_pos (by omega)]
  simp only [htake, hdrop]
  rw [if_pos ⟨trivial, hle⟩]

/-! ## The labels of scopes -/

/-- The labels of forward scopes are new, and each is the label of such a scope. -/
theorem mem_nameForward (h : (t, n) ∈ (nameForward found labels).1) :
    labels.size ≤ n.index ∧ ∃ s ∈ found, s.kind = .forward ∧ s.target = t := by
  induction found generalizing labels with
  | nil => simp [nameForward] at h
  | cons s ss ih =>
    rw [nameForward] at h
    split at h
    · rename_i hk
      rcases mem_cons.1 h with h | h
      · cases h
        exact ⟨Nat.le_refl _, s, by simp, hk, rfl⟩
      · obtain ⟨hle, u, hu, hku⟩ := ih h
        rw [LabelTable.size_grow] at hle
        exact ⟨by omega, u, by simp [hu], hku⟩
    · obtain ⟨hle, u, hu, hku⟩ := ih h
      exact ⟨hle, u, by simp [hu], hku⟩

/-- No new label is given twice. -/
theorem nodup_nameForward (found : List Scope) (labels : LabelTable) :
    ((nameForward found labels).1.map Prod.snd).Nodup := by
  induction found generalizing labels with
  | nil => exact .nil
  | cons s ss ih =>
    rw [nameForward]
    split
    · refine nodup_cons.2 ⟨?_, ih labels.grow⟩
      intro hmem
      obtain ⟨⟨t, n⟩, hn, rfl⟩ := mem_map.1 hmem
      have := (mem_nameForward hn).1
      simp only [LabelTable.size_grow, LabelTable.index_next] at this
      omega
    · exact ih labels

/-- Every forward scope is given a label. -/
theorem exists_mem_nameForward (hs : s ∈ found) (hk : s.kind = .forward) :
    ∃ n, (s.target, n) ∈ (nameForward found labels).1 := by
  induction found generalizing labels with
  | nil => cases hs
  | cons t ts ih =>
    rw [nameForward]
    rcases mem_cons.1 hs with rfl | hs
    · rw [hk]
      exact ⟨_, mem_cons_self⟩
    · split
      · obtain ⟨n, hn⟩ : ∃ n, (s.target, n) ∈ (nameForward ts labels.grow).1 := ih hs
        exact ⟨n, mem_cons_of_mem _ hn⟩
      · exact ih hs

theorem mem_of_get (h : (t, n) ∈ names) : (t, names.get t) ∈ names := by
  rw [ForwardLabels.get]
  cases hfind : names.find? fun e => e.1 = t with
  | none =>
    have := find?_eq_none.1 hfind _ h
    simp at this
  | some e =>
    obtain ⟨u, m⟩ := e
    have hmem := mem_of_find?_eq_some hfind
    have := find?_some hfind
    simp only [decide_eq_true_eq] at this
    rwa [← this]

/-- No two scopes get the same label. -/
theorem nodup_labels (hlaid : Laid flat found) (hlabels : labels.Holds flat) :
    (found.map (Scope.label (nameForward found labels).1)).Nodup := by
  rw [List.Nodup, pairwise_map]
  refine hlaid.distinct.imp_of_mem ?_
  intro s t hs ht hne heq
  have hnew {u : Scope} (hu : u ∈ found) (hk : u.kind = .forward) :
      (u.target, u.label (nameForward found labels).1) ∈ (nameForward found labels).1 := by
    obtain ⟨n, hn⟩ := exists_mem_nameForward hu hk
    rw [Scope.label, hk]
    exact mem_of_get hn
  have hold {u : Scope} (hu : u ∈ found) (hk : u.kind = .loop) :
      (u.label (nameForward found labels).1).index < labels.size := by
    rw [Scope.label, hk]
    exact hlabels _ (mem_of_getElem? (getElem?_of_labelIndex? (hlaid.fits u hu).label))
  cases hks : s.kind with
  | forward =>
    cases hkt : t.kind with
    | forward =>
      -- A new label is given to one scope only.
      have hsmem := hnew hs hks
      have htmem := hnew ht hkt
      rw [heq] at hsmem
      have := inj_on_of_nodup_map (nodup_nameForward found labels) hsmem htmem rfl
      exact hne ⟨by rw [hks, hkt], congrArg Prod.fst this⟩
    | loop =>
      have := (mem_nameForward (hnew hs hks)).1
      have := hold ht hkt
      rw [← heq] at this
      omega
  | loop =>
    cases hkt : t.kind with
    | forward =>
      have := (mem_nameForward (hnew ht hkt)).1
      have := hold hs hks
      rw [heq] at this
      omega
    | loop =>
      rw [Scope.label, Scope.label, hks, hkt] at heq
      exact hne ⟨by rw [hks, hkt], heq⟩

/-! ## Well-formedness -/

/-- The label of the loop that the jump at a position becomes a jump to. -/
def jumpLabel (flat : Block) (names : ForwardLabels) (pos : Nat) (l : Label) : Label :=
  if pos < labelPos flat l then names.get l else l

/-- What a jump becomes names that label. -/
theorem wellNestedList_nestStmt {pos : Nat} (hflat : ∀ s ∈ flat, s.isFlat = true)
    (hjump : ∀ l c, flat[pos]? = some (.goto l c) → some (jumpLabel flat names pos l) ∈ around) :
    WellNestedList around (nestStmt flat names pos) := by
  rw [nestStmt]
  split
  · exact wellNestedList_nil
  · exact wellNestedList_nil
  · rename_i l c hgoto
    have hmem := hjump l c hgoto
    have hne : around ≠ [] := ne_nil_of_mem hmem
    have hone : Stmt.WellNested around (if pos < labelPos flat l
        then .breakLoop (some (names.get l)) else .continueLoop (some l)) := by
      unfold jumpLabel at hmem
      split
      · rename_i hlt
        rw [if_pos hlt] at hmem
        simp [hne, hmem]
      · rename_i hlt
        rw [if_neg hlt] at hmem
        simp [hne, hmem]
    cases c <;> simpa using hone
  · rename_i s hlabel hgoto hs
    have := hflat s (mem_of_getElem? hs)
    cases s <;> simp_all [Stmt.isFlat, Stmt.WellNested]

/-- Nesting puts every jump into the loop that it names: a loop around the stretch, or that of a
scope in the stretch. -/
theorem wellNestedList_nest {lo hi : Nat} {scopes : List Scope} (h : Laminar lo hi scopes)
    (hflat : ∀ s ∈ flat, s.isFlat = true) {around : List (Option Label)}
    (hjump : ∀ pos l c, lo ≤ pos → pos < hi → flat[pos]? = some (.goto l c) →
      some (jumpLabel flat names pos l) ∈ around ∨
        ∃ s ∈ scopes, s.start ≤ pos ∧ pos < s.stop ∧ s.label names = jumpLabel flat names pos l)
    (hnew : ∀ s ∈ scopes, some (s.label names) ∉ around)
    (hnodup : (scopes.map (Scope.label names)).Nodup) :
    WellNestedList around (nest flat names scopes lo hi) := by
  induction h generalizing around with
  | done =>
    rw [nest_done]
    exact wellNestedList_nil
  | @stmt lo hi scopes hrest ih =>
    rw [nest_stmt hrest, wellNestedList_append]
    have hle := hrest.le
    constructor
    · refine wellNestedList_nestStmt hflat ?_
      intro l c hgoto
      rcases hjump lo l c (Nat.le_refl _) hle hgoto with hmem | ⟨s, hs, hstart, _⟩
      · exact hmem
      · have := hrest.within hs
        omega
    · exact ih (fun pos l c hlo => hjump pos l c (by omega)) hnew hnodup
  | @scope s hi inside behind hlt hinside hbehind ihin ihbehind =>
    have hle := hbehind.le
    rw [nest_scope hlt hinside hbehind]
    simp only [map_cons, map_append, nodup_cons, nodup_append, mem_append]
      at hnodup
    simp only [mem_cons, mem_append] at hnew hjump
    have hown := hnew s (.inl rfl)
    simp only [forever, wellNestedList_cons, wellNested_loop, wellNestedList_append,
      wellNested_breakLoop, wellNestedList_nil, and_true]
    refine ⟨⟨fun _ => hown, ?_, by simp, by simp⟩, ?_⟩
    · refine ihin ?_ ?_ hnodup.2.1
      · -- Of the scopes of the stretch, the jump stands in this one or in one inside it.
        intro pos l c hlo hstop hgoto
        rcases hjump pos l c hlo (by omega) hgoto with hmem | ⟨t, ht | ht | ht, hin, hout, hlabel⟩
        · exact .inl (mem_cons_of_mem _ hmem)
        · rw [← hlabel, ht]
          exact .inl mem_cons_self
        · exact .inr ⟨t, ht, hin, hout, hlabel⟩
        · have := hbehind.within ht
          omega
      · intro t ht hmem
        rcases mem_cons.1 hmem with heq | hmem
        · refine hnodup.1 (.inl ?_)
          rw [← Option.some.inj heq]
          exact mem_map_of_mem ht
        · exact hnew t (.inr (.inl ht)) hmem
    · refine ihbehind ?_ (fun t ht => hnew t (.inr (.inr ht))) hnodup.2.2.1
      intro pos l c hlo hstop hgoto
      rcases hjump pos l c (by omega) hstop hgoto with hmem | ⟨t, ht | ht | ht, hin, hout, hlabel⟩
      · exact .inl hmem
      · rw [ht] at hout
        omega
      · have := hinside.within ht
        omega
      · exact .inr ⟨t, ht, hin, hout, hlabel⟩

end ByteLift
