import ByteLift.Proofs.Bytecode.Flow
import Mathlib.Data.List.Sort
import Mathlib.Logic.Relation

/-!
# Exactly the reachable instructions

The search marks what can be reached along the edges of a code and nothing else. So a code is
refused exactly if a jump has no instruction to go to or if control can run past the end.
-/

namespace ByteLift

open Relation

/-! ## Searching marks no more than it must -/

/-- A position that a search marks was marked before, or can be reached from one on its list. -/
theorem reflTransGen_of_explore {next : Nat → List Nat} {marked : List Bool}
    {work : List Nat} {pos : Nat} (h : (explore next marked work)[pos]? = some true) :
    marked[pos]? = some true ∨ ∃ p ∈ work, p < marked.length ∧
        ReflTransGen (fun p q => q ∈ next p ∧ q < marked.length) p pos := by
  fun_induction explore next marked work with
  | case1 => exact .inl h
  | case2 marked p work hp ih =>
    have hlt : p < marked.length := (List.getElem?_eq_some_iff.1 hp).1
    simp only [List.length_set] at ih
    rcases ih h with hmarked | ⟨q, hq, hqlt, hpath⟩
    · by_cases hpos : p = pos
      · exact .inr ⟨p, List.mem_cons_self, hlt, hpos ▸ .refl⟩
      · exact .inl (by rwa [List.getElem?_set_ne hpos] at hmarked)
    · rcases List.mem_append.1 hq with hq | hq
      · exact .inr ⟨q, List.mem_cons_of_mem _ hq, hqlt, hpath⟩
      · -- The position was put on the list behind the one just marked.
        exact .inr ⟨p, List.mem_cons_self, hlt, .head ⟨hq, hqlt⟩ hpath⟩
  | case3 marked p work hp ih =>
    rcases ih h with hmarked | ⟨q, hq, hpath⟩
    · exact .inl hmarked
    · exact .inr ⟨q, List.mem_cons_of_mem _ hq, hpath⟩

namespace Code

variable {c : Code} {a : Address} {p q : Nat}

/-! ## Where control can go -/

/-- The instruction at a position is the last one at an address. -/
def LastAt (c : Code) (a : Address) (p : Nat) : Prop :=
  (∃ i, c.instructions[p]? = some i ∧ i.address = a) ∧
    ∀ q i, c.instructions[q]? = some i → i.address = a → q ≤ p

/-- Control can pass from one position to another. -/
inductive Edge (c : Code) : Nat → Nat → Prop
  | branch {p q : Nat} {i : Addressed} {a : Address} (hi : c.instructions[p]? = some i)
      (ha : a ∈ i.instruction.targets) (hq : c.LastAt a q) : Edge c p q
  | next {p : Nat} {i : Addressed} (hi : c.instructions[p]? = some i)
      (hends : i.instruction.endsFlow = false) (hlt : p + 1 < c.instructions.length) :
      Edge c p (p + 1)

/-- Control can get from the first instruction to the one at a position. -/
def CanReach (c : Code) (p : Nat) : Prop := 0 < c.instructions.length ∧ ReflTransGen c.Edge 0 p

/-- Some instruction branches to an address. -/
def IsTarget (c : Code) (a : Address) : Prop := ∃ i ∈ c.instructions, a ∈ i.instruction.targets

/-- Some instruction, reachable or not, branches to an address without an instruction. -/
def JumpsNowhere (c : Code) : Prop := ∃ a, c.IsTarget a ∧ ∀ j ∈ c.instructions, j.address ≠ a

/-- Control can get to the last instruction, and runs on behind it. -/
def RunsPast (c : Code) : Prop :=
  ∃ last, c.instructions.getLast? = some last ∧ last.instruction.endsFlow = false ∧
    c.CanReach (c.instructions.length - 1)

theorem indexOf?_eq_none_iff : c.indexOf? a = none ↔ ∀ j ∈ c.instructions, j.address ≠ a := by
  rw [indexOf?, Option.map_eq_none_iff, List.find?_eq_none]
  constructor
  · intro h j hj
    obtain ⟨p, hp⟩ := List.mem_iff_getElem?.1 hj
    simpa using h (j, p) (List.mem_reverse.2 (List.mk_mem_zipIdx_iff_getElem?.2 hp))
  · rintro h ⟨j, p⟩ hj
    have hp := List.mk_mem_zipIdx_iff_getElem?.1 (List.mem_reverse.1 hj)
    simpa using h j (List.mem_of_getElem? hp)

/-- The position of an address is that of the last instruction there. -/
theorem lastAt_of_indexOf? (h : c.indexOf? a = some p) : c.LastAt a p := by
  refine ⟨getElem?_of_indexOf? h, fun q j hj ha => ?_⟩
  obtain ⟨⟨i, p⟩, hfind, rfl⟩ := Option.map_eq_some_iff.1 h
  obtain ⟨_, behind, before, hlist, hnone⟩ := List.find?_eq_some_iff_append.1 hfind
  have hmem : (j, q) ∈ behind ++ (i, p) :: before := by
    rw [← hlist, List.mem_reverse, List.mk_mem_zipIdx_iff_getElem?]
    exact hj
  rcases List.mem_append.1 hmem with hmem | hmem
  · simpa [ha] using hnone _ hmem
  rcases List.mem_cons.1 hmem with heq | hmem
  · cases heq
    exact Nat.le_refl _
  · -- Positions fall along the reversed list.
    have hsorted : (c.instructions.zipIdx.reverse).Pairwise fun x y => y.2 < x.2 := by
      rw [List.pairwise_reverse, ← List.pairwise_map (f := Prod.snd), List.zipIdx_map_snd]
      exact List.pairwise_lt_range'
    rw [hlist, List.pairwise_append, List.pairwise_cons] at hsorted
    exact Nat.le_of_lt (hsorted.2.1.1 _ hmem)

theorem indexOf?_eq_some_iff : c.indexOf? a = some p ↔ c.LastAt a p := by
  refine ⟨lastAt_of_indexOf?, ?_⟩
  rintro ⟨⟨i, hi, ha⟩, hlast⟩
  cases hindex : c.indexOf? a with
  | none => exact absurd ha (indexOf?_eq_none_iff.1 hindex i (List.mem_of_getElem? hi))
  | some r =>
    obtain ⟨⟨j, hj, hja⟩, hlast'⟩ := lastAt_of_indexOf? hindex
    rw [Nat.le_antisymm (hlast r j hj hja) (hlast' p i hi ha)]

/-- The edges from a position lead to its successors that are in the code. -/
theorem edge_iff : c.Edge p q ↔ q ∈ c.successors p ∧ q < c.instructions.length := by
  constructor
  · intro h
    cases h with
    | branch hi ha hq =>
      obtain ⟨j, hj, _⟩ := hq.1
      refine ⟨?_, (List.getElem?_eq_some_iff.1 hj).1⟩
      simp only [successors, hi]
      exact List.mem_append_left _ (List.mem_filterMap.2 ⟨_, ha, indexOf?_eq_some_iff.2 hq⟩)
    | next hi hends hlt => exact ⟨by simp [successors, hi, hends], hlt⟩
  · rintro ⟨hq, hlt⟩
    unfold successors at hq
    split at hq
    · cases hq
    · rename_i i hi
      rcases List.mem_append.1 hq with hq | hq
      · obtain ⟨a, ha, hindex⟩ := List.mem_filterMap.1 hq
        exact .branch hi ha (indexOf?_eq_some_iff.1 hindex)
      · split at hq
        · cases hq
        · rename_i hends
          obtain rfl := List.mem_singleton.1 hq
          exact .next hi (by simpa using hends) hlt

/-- The search marks exactly the positions that control can get to. -/
theorem reachable_iff : c.reachable[p]? = some true ↔ c.CanReach p := by
  constructor
  · intro h
    rcases reflTransGen_of_explore h with hmarked | ⟨start, hstart, hlt, hpath⟩
    · rw [List.getElem?_replicate] at hmarked
      split at hmarked <;> cases hmarked
    · obtain rfl := List.mem_singleton.1 hstart
      rw [List.length_replicate] at hlt hpath
      exact ⟨hlt, ReflTransGen.mono (fun _ _ hedge => edge_iff.2 hedge) _ _ hpath⟩
  · rintro ⟨hlt, hpath⟩
    induction hpath with
    | refl => exact reachable_zero hlt
    | tail _ hedge ih => exact reachable_of_successor ih (edge_iff.1 hedge).1 (edge_iff.1 hedge).2

theorem fallsOff_iff : c.fallsOff c.reachable = true ↔ c.RunsPast := by
  rw [RunsPast, ← reachable_iff, ← length_reachable, ← List.getLast?_eq_getElem?, fallsOff]
  cases c.instructions.getLast? with
  | none => simp
  | some last =>
    cases hlast : c.reachable.getLast? with
    | none => simp
    | some marked => cases marked <;> simp

/-! ## Labels -/

theorem mem_jumps {b : Address} : (b, a) ∈ c.jumps ↔
    ∃ i ∈ c.instructions, i.address = b ∧ a ∈ i.instruction.targets := by
  simp only [jumps, List.mem_flatMap, List.mem_map, Prod.mk.injEq]
  grind

/-- A jump without an instruction to go to is found if there is one. -/
theorem find?_jumps_eq_none_iff :
    (c.jumps.find? fun j => (c.indexOf? j.2).isNone) = none ↔ ¬ c.JumpsNowhere := by
  rw [List.find?_eq_none]
  constructor
  · rintro h ⟨a, ⟨i, hi, ha⟩, hnone⟩
    exact h _ (mem_jumps.2 ⟨i, hi, rfl, ha⟩) (by simp [indexOf?_eq_none_iff.2 hnone])
  · rintro h ⟨b, a⟩ hjump hnone
    obtain ⟨i, hi, _, ha⟩ := mem_jumps.1 hjump
    exact h ⟨a, ⟨i, hi, ha⟩, indexOf?_eq_none_iff.1 (by simpa using hnone)⟩

theorem label?_isSome_iff {flow : Flow} :
    (flow.label? a).isSome ↔ a ∈ flow.labels.map Prod.fst := by
  simp [Flow.label?]

/-! ## When a code is refused, and what its flow says -/

/-- Discovering the flow of a code is exact. It fails for a jump without an instruction to go to
exactly if there is one, and for control that runs past the end exactly if there is none and control
can. Otherwise it marks the positions that control can get to, and each target of a branch has one
label. -/
theorem flow_exact (c : Code) (t : LabelTable) :
    ((∃ b a, c.flow t = .error (.unknownJumpTarget b a)) ↔ c.JumpsNowhere) ∧
      (c.flow t = .error .fellOffEnd ↔ ¬ c.JumpsNowhere ∧ c.RunsPast) ∧
      ((∃ flow t', c.flow t = .ok (flow, t')) ↔ ¬ c.JumpsNowhere ∧ ¬ c.RunsPast) ∧
      ∀ flow t', c.flow t = .ok (flow, t') →
        flow.reachable.length = c.instructions.length ∧
          (∀ p, flow.reachable[p]? = some true ↔ c.CanReach p) ∧
          (∀ a, (flow.label? a).isSome ↔ c.IsTarget a) ∧
          (flow.labels.map Prod.fst).Nodup ∧ (flow.labels.map Prod.snd).Nodup := by
  rw [← fallsOff_iff]
  rw [flow_eq]
  cases hjump : c.jumps.find? fun j => (c.indexOf? j.2).isNone with
  | some j =>
    have hnowhere : c.JumpsNowhere := by
      by_contra hno
      rw [find?_jumps_eq_none_iff.2 hno] at hjump
      cases hjump
    simp [hnowhere]
  | none =>
    have hsomewhere := find?_jumps_eq_none_iff.1 hjump
    cases hoff : c.fallsOff c.reachable with
    | true => simp [hsomewhere]
    | false =>
      refine ⟨by simp [hsomewhere], by simp, by simp [hsomewhere], ?_⟩
      intro flow t' h
      cases h
      refine ⟨length_reachable c, fun p => reachable_iff, fun a => ?_, ?_, nodup_labelAll _ _⟩
      · rw [label?_isSome_iff, map_fst_labelAll, mem_targetAddresses, IsTarget]
      · rw [map_fst_labelAll]
        exact (pairwise_sortAscending _).imp ne_of_lt

end Code

end ByteLift
