import ByteLift.Bytecode.Flow
import Mathlib.Data.List.Nodup

/-!
# What the flow of a code says

The positions that are marked as reached contain the first one and are closed under running on and
under jumps. Each address that some jump names has a label, and no two addresses have the same.
-/

namespace ByteLift

/-! ## Searching -/

section

variable {next : Nat → List Nat} {marked : List Bool} {work : List Nat} {pos : Nat}

/-- Marks the positions on a list of work and all that can be reached from them. -/
def explore (next : Nat → List Nat) (marked : List Bool) : List Nat → List Bool
  | [] => marked
  | pos :: work =>
    if marked[pos]? = some false then explore next (marked.set pos true) (work ++ next pos)
    else explore next marked work
termination_by work => (marked.count false, work.length)
decreasing_by
  · exact Prod.Lex.left _ _ (count_set_true_lt ‹_›)
  · exact Prod.Lex.right _ (Nat.lt_succ_self _)

theorem length_explore (next : Nat → List Nat) (marked : List Bool) (work : List Nat) :
    (explore next marked work).length = marked.length := by
  fun_induction explore next marked work with
  | case1 => rfl
  | case2 _ _ _ _ ih => rw [ih, List.length_set]
  | case3 _ _ _ _ ih => exact ih

/-- A position that is marked stays so. -/
theorem explore_of_marked (h : marked[pos]? = some true) :
    (explore next marked work)[pos]? = some true := by
  fun_induction explore next marked work with
  | case1 => exact h
  | case2 marked p work hp ih =>
    refine ih ?_
    have hne : p ≠ pos := by
      rintro rfl
      rw [h] at hp
      cases hp
    rw [List.getElem?_set_ne hne, h]
  | case3 _ _ _ _ ih => exact ih h

/-- All work is done. -/
theorem explore_of_mem_work (h : pos ∈ work) (hpos : pos < marked.length) :
    (explore next marked work)[pos]? = some true := by
  fun_induction explore next marked work with
  | case1 => cases h
  | case2 marked p work hp ih =>
    rcases List.mem_cons.1 h with rfl | h
    · exact explore_of_marked (List.getElem?_set_self hpos)
    · exact ih (List.mem_append_left _ h) (by rwa [List.length_set])
  | case3 marked p work hp ih =>
    rcases List.mem_cons.1 h with rfl | h
    · refine explore_of_marked ?_
      rw [List.getElem?_eq_getElem hpos] at hp ⊢
      simpa using hp
    · exact ih h hpos

/-- Behind a position that is marked, all positions are marked or still to be looked at. -/
def Pending (next : Nat → List Nat) (marked : List Bool) (work : List Nat) : Prop :=
  ∀ p, marked[p]? = some true → ∀ q ∈ next p, q < marked.length → marked[q]? = some true ∨ q ∈ work

/-- When the search ends, nothing is pending. -/
theorem explore_closed (h : Pending next marked work) :
    Pending next (explore next marked work) [] := by
  fun_induction explore next marked work with
  | case1 => exact h
  | case2 marked p work hp ih =>
    refine ih fun q hq r hr hlt => ?_
    rw [List.length_set] at hlt
    by_cases hrp : r = p
    · exact .inl (by rw [hrp, List.getElem?_set_self (hrp ▸ hlt)])
    rw [List.getElem?_set_ne (Ne.symm hrp), List.mem_append]
    by_cases hqp : q = p
    · exact .inr (.inr (hqp ▸ hr))
    · rw [List.getElem?_set_ne (Ne.symm hqp)] at hq
      rcases h q hq r hr hlt with hmarked | hwork
      · exact .inl hmarked
      · exact .inr (.inl ((List.mem_cons.1 hwork).resolve_left hrp))
  | case3 marked p work hp ih =>
    refine ih fun q hq r hr hlt => ?_
    rcases h q hq r hr hlt with hmarked | hwork
    · exact .inl hmarked
    · rcases List.mem_cons.1 hwork with rfl | hwork
      · refine .inl ?_
        rw [List.getElem?_eq_getElem hlt] at hp ⊢
        simpa using hp
      · exact .inr hwork

end

namespace Code

variable {c : Code} {a : Address} {p q : Nat} {i : Addressed}

/-! ## Addresses -/

theorem getElem?_of_indexOf? (h : c.indexOf? a = some p) :
    ∃ i, c.instructions[p]? = some i ∧ i.address = a := by
  obtain ⟨⟨i, q⟩, hfind, rfl⟩ := Option.map_eq_some_iff.1 h
  have hmem := List.mem_reverse.1 (List.mem_of_find?_eq_some hfind)
  exact ⟨i, List.mem_zipIdx_iff_getElem?.1 hmem, by simpa using List.find?_some hfind⟩

/-! ## Reachability -/

/-- For each position, whether control can reach it. -/
def reachable (c : Code) : List Bool :=
  explore c.successors (List.replicate c.instructions.length false) [0]

/-- Whether control can run past the last instruction. -/
def fallsOff (c : Code) (reachable : List Bool) : Bool :=
  match c.instructions.getLast?, reachable.getLast? with
  | some last, some true => !last.instruction.endsFlow
  | _, _ => false

/-- The search is given up exactly if it would go on to mark the last position and control runs off
there; otherwise it marks what it would mark without giving up. -/
theorem discover_eq (c : Code) (marked : List Bool) (work : List Nat) :
    c.discover marked work =
      if marked[c.instructions.length - 1]? = some false ∧
          c.runsOff (c.instructions.length - 1) = true ∧
          (explore c.successors marked work)[c.instructions.length - 1]? = some true
      then none else some (explore c.successors marked work) := by
  have hlast {p : Nat} (hp : c.runsOff p = true) : p = c.instructions.length - 1 := by
    simp only [runsOff, Bool.and_eq_true, decide_eq_true_eq, Option.any_eq_true] at hp
    obtain ⟨hle, i, hi, _⟩ := hp
    have := (List.getElem?_eq_some_iff.1 hi).1
    omega
  fun_induction discover c marked work with
  | case1 marked => simp +contextual [explore]
  | case2 marked p work hp hoff =>
    obtain rfl := hlast hoff
    refine (if_pos ⟨hp, hoff, ?_⟩).symm
    exact explore_of_mem_work List.mem_cons_self (List.getElem?_eq_some_iff.1 hp).1
  | case3 marked p work hp hoff ih =>
    rw [ih, explore, if_pos hp]
    by_cases hpos : p = c.instructions.length - 1
    · simp [← hpos, hoff]
    · rw [List.getElem?_set_ne hpos]
  | case4 marked p work hp ih => rw [ih, explore, if_neg hp]

/-- The search fails exactly if control can run past the end. -/
theorem discover_start (c : Code) : c.discover (List.replicate c.instructions.length false) [0] =
    if c.fallsOff c.reachable = true then none else some c.reachable := by
  rw [discover_eq, ← reachable]
  refine if_congr ?_ rfl rfl
  have hlen : c.reachable.length = c.instructions.length := by
    rw [reachable, length_explore, List.length_replicate]
  rw [fallsOff, List.getLast?_eq_getElem?, List.getLast?_eq_getElem?, hlen, List.getElem?_replicate]
  cases hi : c.instructions[c.instructions.length - 1]? with
  | none => simp [runsOff, hi]
  | some i =>
    have hlt := (List.getElem?_eq_some_iff.1 hi).1
    have hoff : c.runsOff (c.instructions.length - 1) = !i.instruction.endsFlow := by
      rw [runsOff, hi, decide_eq_true (by omega)]
      rfl
    rw [if_pos hlt, hoff]
    cases c.reachable[c.instructions.length - 1]? with
    | none => simp
    | some marked => cases marked <;> simp

/-- The flow of a code, with the two searches for it told apart. -/
theorem flow_eq (c : Code) (labels : LabelTable) : c.flow labels =
    match c.jumps.find? fun j => (c.indexOf? j.2).isNone with
    | some (address, target) => .error (.unknownJumpTarget address target)
    | none =>
      if c.fallsOff c.reachable = true then .error .fellOffEnd
      else .ok (⟨(labelAll c.targetAddresses labels).1, c.reachable⟩,
        (labelAll c.targetAddresses labels).2) := by
  rw [flow, discover_start]
  cases c.jumps.find? fun j => (c.indexOf? j.2).isNone with
  | some j => rfl
  | none => cases c.fallsOff c.reachable <;> rfl

theorem length_reachable (c : Code) : c.reachable.length = c.instructions.length := by
  rw [reachable, length_explore, List.length_replicate]

theorem reachable_zero (h : 0 < c.instructions.length) : c.reachable[0]? = some true :=
  explore_of_mem_work (by simp) (by simpa using h)

section

variable (hp : c.reachable[p]? = some true)
include hp

theorem reachable_of_successor (hq : q ∈ c.successors p)
    (hlt : q < c.instructions.length) : c.reachable[q]? = some true := by
  have hstart : Pending c.successors (List.replicate c.instructions.length false) [0] := by
    intro r hr
    rw [List.getElem?_replicate] at hr
    split at hr <;> cases hr
  have hlt' : q < c.reachable.length := by rwa [length_reachable]
  exact (explore_closed hstart p hp q hq hlt').resolve_right List.not_mem_nil

/-- A jump reaches the position of its target. -/
theorem reachable_of_target (hi : c.instructions[p]? = some i)
    (ha : a ∈ i.instruction.targets) (hq : c.indexOf? a = some q) :
    c.reachable[q]? = some true := by
  obtain ⟨j, hj, _⟩ := getElem?_of_indexOf? hq
  refine reachable_of_successor hp ?_ (List.getElem?_eq_some_iff.1 hj).1
  rw [successors, hi]
  exact List.mem_append_left _ (List.mem_filterMap.2 ⟨a, ha, hq⟩)

/-- Control that runs on reaches the next position. -/
theorem reachable_succ (hi : c.instructions[p]? = some i)
    (hends : i.instruction.endsFlow = false) (hoff : c.fallsOff c.reachable = false) :
    c.reachable[p + 1]? = some true := by
  have hlt := (List.getElem?_eq_some_iff.1 hi).1
  refine reachable_of_successor hp (by simp [successors, hi, hends]) ?_
  -- If the position were the last one, control would run past the end.
  refine Nat.lt_of_le_of_ne hlt fun hlast => ?_
  have hlast' : c.instructions.length - 1 = p := by omega
  rw [fallsOff, List.getLast?_eq_getElem?, List.getLast?_eq_getElem?, length_reachable, hlast',
    hi, hp] at hoff
  simp [hends] at hoff

end

/-! ## Labels -/

variable {as : List Address} {t : LabelTable}

/-- The targets of all instructions are collected. -/
theorem mem_targetAddresses :
    a ∈ c.targetAddresses ↔ ∃ i ∈ c.instructions, a ∈ i.instruction.targets := by
  rw [targetAddresses, mem_sortAscending]
  simp [jumps]

theorem map_fst_labelAll (as : List Address) (t : LabelTable) :
    (labelAll as t).1.map Prod.fst = as := by
  induction as generalizing t with
  | nil => rfl
  | cons a as ih => rw [labelAll, List.map_cons, ih]

/-- Labels are made one after another. -/
theorem index_le_of_mem_labelAll {e : Address × Label} (h : e ∈ (labelAll as t).1) :
    t.size ≤ e.2.index := by
  induction as generalizing t with
  | nil => cases h
  | cons a as ih =>
    rcases List.mem_cons.1 h with rfl | h
    · exact Nat.le_refl _
    · have hle := ih h
      simp only [LabelTable.size, LabelTable.grow, Array.size_push] at hle ⊢
      omega

theorem nodup_labelAll (as : List Address) (t : LabelTable) :
    ((labelAll as t).1.map Prod.snd).Nodup := by
  induction as generalizing t with
  | nil => exact .nil
  | cons a as ih =>
    refine List.nodup_cons.2 ⟨fun hmem => ?_, ih _⟩
    obtain ⟨e, he, heq⟩ := List.mem_map.1 hmem
    have hle := index_le_of_mem_labelAll he
    rw [heq] at hle
    simp only [LabelTable.size, LabelTable.grow, LabelTable.next, Array.size_push] at hle
    omega

/-- What is known of a flow that was found. -/
structure HasFlow (c : Code) (flow : Flow) : Prop where
  reachable : flow.reachable = c.reachable
  fallsOff : c.fallsOff c.reachable = false
  indexOf? : ∀ i ∈ c.instructions, ∀ a ∈ i.instruction.targets, ∃ p, c.indexOf? a = some p
  label? : ∀ i ∈ c.instructions, ∀ a ∈ i.instruction.targets, ∃ l, flow.label? a = some l
  label_inj : ∀ a b l, flow.label? a = some l → flow.label? b = some l → a = b

/-- The flow that is discovered is a flow of the code. -/
theorem hasFlow_of_flow {t' : LabelTable} {flow : Flow} (h : c.flow t = .ok (flow, t')) :
    c.HasFlow flow := by
  rw [flow_eq] at h
  split at h
  · cases h
  · rename_i hjumps
    split at h
    · cases h
    · rename_i hoff
      cases h
      have hmem {a : Address} {l : Label}
          (ha : Flow.label? ⟨(labelAll c.targetAddresses t).1, c.reachable⟩ a = some l) :
          (a, l) ∈ (labelAll c.targetAddresses t).1 := by
        obtain ⟨⟨b, l'⟩, hfind, rfl⟩ := Option.map_eq_some_iff.1 ha
        have hb : b = a := by simpa using List.find?_some hfind
        exact hb ▸ List.mem_of_find?_eq_some hfind
      refine ⟨rfl, by simpa using hoff, fun i hi a ha => ?_, fun i hi a ha => ?_,
        fun a b l ha hb => ?_⟩
      · have hnone := List.find?_eq_none.1 hjumps (i.address, a)
          (List.mem_flatMap.2 ⟨i, hi, List.mem_map.2 ⟨a, ha, rfl⟩⟩)
        exact Option.ne_none_iff_exists'.1 (by simpa using hnone)
      · have hkey : a ∈ (labelAll c.targetAddresses t).1.map Prod.fst := by
          rw [map_fst_labelAll]
          exact mem_targetAddresses.2 ⟨i, hi, ha⟩
        obtain ⟨e, he, rfl⟩ := List.mem_map.1 hkey
        cases hfind : (labelAll c.targetAddresses t).1.find? fun e' => e'.1 = e.1 with
        | none => exact absurd (List.find?_eq_none.1 hfind e he) (by simp)
        | some e' => exact ⟨e'.2, by simp only [Flow.label?, hfind, Option.map_some]⟩
      · have hinj :=
          List.inj_on_of_nodup_map (nodup_labelAll c.targetAddresses t) (hmem ha) (hmem hb) rfl
        exact congrArg Prod.fst hinj

end Code

end ByteLift
