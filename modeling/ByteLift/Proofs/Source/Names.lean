import ByteLift.Source.Names
import Mathlib.Data.List.Induction
import Mathlib.Data.List.Nodup
import Mathlib.Data.List.Perm.Subperm
import Mathlib.Order.Bounds.Basic

/-!
# Names that differ

One variable after the other claims a name. The names that were claimed stay taken, also the name of
a variable that claims a second time and gets another one, so a variable that claims a free name
differs from all that claimed before it. There are fewer names taken than numbers tried, so a free
one is found.
-/

namespace ByteLift

open List

/-! ## Names that are taken -/

namespace NameCounts

variable (c : NameCounts) (name : String)

theorem taken_iff : c.taken name = true ↔ name ∈ c.map Prod.fst := by
  simp [taken]

theorem taken_put (other : String) (n : Nat) :
    (c.put name n).taken other = true ↔ other = name ∨ c.taken other = true := by
  simp only [taken_iff, put, map_cons, mem_cons, mem_map, mem_filter,
    decide_eq_true_eq]
  refine or_congr_right' fun hne => exists_congr fun e => ?_
  exact ⟨fun h => ⟨h.1.1, h.2⟩, fun h => ⟨⟨h.1, fun heq => hne (h.2.symm.trans heq)⟩, h.2⟩⟩

/-- Every name that is taken was wanted. -/
def Counted : Prop := ∀ e ∈ c, 0 < e.2

variable {c}

theorem Counted.put (h : c.Counted) (name : String) {n : Nat} (hn : 0 < n) :
    (c.put name n).Counted := by
  intro e he
  rcases mem_cons.1 he with rfl | he
  · exact hn
  · exact h e (mem_filter.1 he).1

theorem Counted.count_eq_zero_iff (h : c.Counted) (name : String) :
    c.count name = 0 ↔ c.taken name = false := by
  cases hfind : c.find? fun e => e.1 = name with
  | none =>
    have hnone := find?_eq_none.1 hfind
    simpa [count, hfind, taken] using hnone
  | some e =>
    have hpos := h e (mem_of_find?_eq_some hfind)
    have hname := find?_some hfind
    refine iff_of_false (by simp [count, hfind]; omega) (Bool.not_eq_false _ ▸ ?_)
    exact any_eq_true.2 ⟨e, mem_of_find?_eq_some hfind, hname⟩

end NameCounts

/-! ## The first free number -/

theorem numbered_injective (name : String) : Function.Injective (numbered name) := by
  intro m n h
  have hdigits : Nat.toDigits 10 m = Nat.toDigits 10 n := by
    have hlist : (name ++ "_").toList ++ m.repr.toList = (name ++ "_").toList ++ n.repr.toList := by
      rw [← String.toList_append, ← String.toList_append]
      exact congrArg String.toList h
    simpa only [Nat.toList_repr] using append_cancel_left hlist
  simpa using congrArg (Nat.ofDigitChars 10 · 0) hdigits

variable (c : NameCounts) (t : VarTable)

/-- The search stops at the first free number, or after the last try. -/
theorem freeNumber_spec (name : String) (n tries : Nat) : n ≤ freeNumber c name n tries ∧
      (∀ k, n ≤ k → k < freeNumber c name n tries → c.taken (numbered name k) = true) ∧
      (c.taken (numbered name (freeNumber c name n tries)) = true →
        freeNumber c name n tries = n + tries) := by
  induction tries generalizing n with
  | zero => exact ⟨Nat.le_refl n, fun k hk hlt => absurd hlt (Nat.not_lt.2 hk), fun _ => rfl⟩
  | succ tries ih =>
    rw [freeNumber]
    split_ifs with htaken
    · obtain ⟨hle, hbelow, hlast⟩ := ih (n + 1)
      refine ⟨by omega, fun k hk hlt => ?_, fun h => (hlast h).trans (by omega)⟩
      rcases Nat.eq_or_lt_of_le hk with rfl | hk
      · exact htaken
      · exact hbelow k hk hlt
    · exact ⟨Nat.le_refl n, fun k hk hlt => absurd hlt (Nat.not_lt.2 hk), fun h => absurd h htaken⟩

/-- One try more than there are names taken finds the first free number of all. -/
theorem isLeast_freeNumber (name : String) (n : Nat) :
    IsLeast {k | n ≤ k ∧ c.taken (numbered name k) = false}
      (freeNumber c name n (c.length + 1)) := by
  obtain ⟨hle, hbelow, hlast⟩ := freeNumber_spec c name n (c.length + 1)
  refine ⟨⟨hle, ?_⟩, ?_⟩
  · by_contra htaken
    rw [Bool.not_eq_false] at htaken
    -- Otherwise more names than the taken ones are taken.
    have hsub : (List.range' n (c.length + 1)).map (numbered name) ⊆ c.map Prod.fst := by
      intro s hs
      obtain ⟨k, hk, rfl⟩ := mem_map.1 hs
      rw [mem_range'_1, ← hlast htaken] at hk
      exact (c.taken_iff _).1 (hbelow k hk.1 hk.2)
    have hnodup : ((List.range' n (c.length + 1)).map (numbered name)).Nodup :=
      (nodup_range' 1).map (numbered_injective name)
    have hlen := (subperm_of_subset hnodup hsub).length_le
    rw [length_map, length_map, length_range'] at hlen
    omega
  · rintro k ⟨hk, hfree⟩
    by_contra hlt
    rw [hbelow k hk (Nat.lt_of_not_le hlt)] at hfree
    exact Bool.noConfusion hfree

/-! ## Claiming -/

namespace VarTable

variable (t : VarTable) (v w : Var) (name : String)

@[simp] theorem size_setName : (t.setName v name).size = t.size := Array.size_modify

theorem get_setName_of_ne {v w : Var} (h : w ≠ v) : (t.setName v name).get w = t.get w := by
  have hne : v.index ≠ w.index := fun heq => h (congrArg Var.mk heq.symm)
  simp [get, setName, modify, Array.getElem?_modify, hne]

theorem get_setName_self {v : Var} (h : v.index < t.size) :
    (t.setName v name).get v = { t.get v with name } := by
  simp [get, setName, modify, Array.getElem?_modify, Array.getElem?_eq_getElem h]

theorem setName_self : t.setName v (t.name v) = t := by
  unfold setName modify
  congr 1
  refine Array.ext (by simp) fun i hi _ => ?_
  rw [Array.getElem_modify]
  split_ifs with h
  · subst h
    rw [Array.size_modify] at hi
    simp [name, get, Array.getElem?_eq_getElem hi]
  · rfl

/-- A name is all that a new name changes, also of a variable that is not in the table. -/
theorem get_setName :
    (t.setName v name).get w = { t.get w with name := (t.setName v name).name w } := by
  unfold VarTable.name
  by_cases hw : w = v
  · subst hw
    by_cases hlt : w.index < t.size
    · rw [t.get_setName_self name hlt]
    · have hnone : t.decls[w.index]? = none := Array.getElem?_eq_none (Nat.le_of_not_lt hlt)
      simp [get, setName, modify, Array.getElem?_modify, hnone]
  · rw [t.get_setName_of_ne name hw]

end VarTable

/-- A variable that claims a name gets one that was free, its own if it can, and the name is taken
then. -/
theorem exists_claimName {counts : NameCounts} (hcounts : counts.Counted)
    (vars : VarTable) (v : Var) :
    ∃ name, counts.taken name = false ∧ (claimName (counts, vars) v).2 = vars.setName v name ∧
      (counts.taken (vars.name v) = false → name = vars.name v) ∧
      (claimName (counts, vars) v).1.Counted ∧
      (∀ other, (claimName (counts, vars) v).1.taken other = true ↔
        other = vars.name v ∨ other = name ∨ counts.taken other = true) := by
  unfold claimName
  dsimp only
  have hput := hcounts.put (vars.name v) (Nat.succ_pos (counts.count (vars.name v)))
  split_ifs with hfirst
  · have hfree := (hcounts.count_eq_zero_iff (vars.name v)).1 (by omega)
    refine ⟨vars.name v, hfree, (vars.setName_self v).symm, fun _ => rfl, hput, fun other => ?_⟩
    rw [NameCounts.taken_put, or_self_left]
  · obtain ⟨⟨_, hfree⟩, _⟩ :=
      isLeast_freeNumber (counts.put (vars.name v) (counts.count (vars.name v) + 1))
      (vars.name v) (counts.count (vars.name v) + 1 - 1)
    refine ⟨_, ?_, rfl, fun h => ?_, hput.put _ Nat.one_pos, fun other => ?_⟩
    · rw [← Bool.not_eq_true, NameCounts.taken_put, not_or, Bool.not_eq_true] at hfree
      exact hfree.2
    · exact absurd ((hcounts.count_eq_zero_iff _).2 h) (by omega)
    · rw [NameCounts.taken_put, NameCounts.taken_put]
      exact or_left_comm

/-- How names stand when some variables of a table have claimed theirs. -/
structure Claimed (t : VarTable) (done : List Var) (state : NameCounts × VarTable) : Prop where
  counted : state.1.Counted
  size : state.2.size = t.size
  get : ∀ v, state.2.get v = { t.get v with name := state.2.name v }
  other : ∀ v ∉ done, state.2.get v = t.get v
  taken : ∀ v ∈ done, v.index < t.size → state.1.taken (state.2.name v) = true
  distinct : ∀ v ∈ done, ∀ w ∈ done, v ≠ w → v.index < t.size → w.index < t.size →
    state.2.name v ≠ state.2.name w
  unchanged : (done.map t.name).Nodup →
    state.2 = t ∧ ∀ name, state.1.taken name = true → name ∈ done.map t.name

theorem Claimed.nil : Claimed t [] ([], t) where
  counted := by simp [NameCounts.Counted]
  size := rfl
  get _ := rfl
  other _ _ := rfl
  taken := by simp
  distinct := by simp
  unchanged _ := ⟨rfl, by simp [NameCounts.taken]⟩

/-- One more variable gets a name that no earlier one has. -/
theorem Claimed.claimName {t : VarTable} {done : List Var} {state : NameCounts × VarTable}
    (h : Claimed t done state) (v : Var) : Claimed t (done ++ [v]) (claimName state v) := by
  obtain ⟨counts, vars⟩ := state
  obtain ⟨name, hfree, hvars, hown, hcounted, htaken⟩ := exists_claimName h.counted vars v
  have hname {w : Var} (hw : w ≠ v) : (vars.setName v name).name w = vars.name w :=
    congrArg VarDecl.name (vars.get_setName_of_ne name hw)
  have hself (hv : v.index < t.size) : (vars.setName v name).name v = name :=
    congrArg VarDecl.name (vars.get_setName_self name (h.size ▸ hv))
  -- The new name is free, and the names of those who claimed before are taken.
  have hnew {w : Var} (hw : w ∈ done) (hne : w ≠ v) (hlt : w.index < t.size)
    (hv : v.index < t.size) :
      (vars.setName v name).name w ≠ (vars.setName v name).name v := by
    rw [hname hne, hself hv]
    intro heq
    exact absurd (heq ▸ h.taken w hw hlt) (by simp [hfree])
  refine ⟨hcounted, ?_, fun w => ?_, fun w hw => ?_, fun w hw hlt => ?_,
    fun w hw u hu hne hwlt hult => ?_, fun hnodup => ?_⟩
  all_goals rw [hvars]
  · exact (vars.size_setName v name).trans h.size
  · rw [vars.get_setName v w name, h.get w]
  · rw [mem_append, mem_singleton, not_or] at hw
    rw [vars.get_setName_of_ne name hw.2]
    exact h.other w hw.1
  · by_cases hwv : w = v
    · subst hwv
      exact (htaken _).2 (.inr (.inl (hself hlt)))
    · rw [hname hwv]
      have hdone : w ∈ done := by simpa [hwv] using hw
      exact (htaken _).2 (.inr (.inr (h.taken w hdone hlt)))
  · by_cases hwv : w = v
    · subst hwv
      have hdone : u ∈ done := by simpa [hne.symm] using hu
      exact (hnew hdone hne.symm hult hwlt).symm
    · have hdone : w ∈ done := by simpa [hwv] using hw
      by_cases huv : u = v
      · subst huv
        exact hnew hdone hwv hwlt hult
      · rw [hname hwv, hname huv]
        exact h.distinct w hdone u (by simpa [huv] using hu) hne hwlt hult
  · rw [map_append, nodup_append] at hnodup
    obtain ⟨hkept, hall⟩ := h.unchanged hnodup.1
    obtain rfl : vars = t := hkept
    have hfresh : counts.taken (vars.name v) = false := by
      by_contra hno
      exact hnodup.2.2 _ (hall _ (by simpa using hno)) _ (by simp) rfl
    obtain rfl := hown hfresh
    refine ⟨vars.setName_self v, fun other hother => ?_⟩
    rw [htaken, or_self_left] at hother
    simpa [or_comm] using hother.imp_right (hall other)

theorem claimed_foldl (vs : List Var) : Claimed t vs (vs.foldl claimName ([], t)) := by
  induction vs using List.reverseRecOn with
  | nil => exact .nil t
  | append_singleton vs v ih =>
    rw [foldl_append]
    exact ih.claimName v

/-- The parameters and declared variables of a method end up with different names, whatever names
they start with and however often they are declared. Only their names change, and nothing if these
differ already. The search for a number ends at the first one that makes the name free. -/
theorem MethodDecl.uniqueNames_distinct (m : MethodDecl) (body : Block) :
    (∀ v ∈ m.params ++ Block.declared body, ∀ w ∈ m.params ++ Block.declared body, v ≠ w →
      v.index < m.vars.size → w.index < m.vars.size →
      (m.uniqueNames body).name v ≠ (m.uniqueNames body).name w) ∧
    (∀ v ∉ m.params ++ Block.declared body, (m.uniqueNames body).get v = m.vars.get v) ∧
    (∀ v, (m.uniqueNames body).get v = { m.vars.get v with name := (m.uniqueNames body).name v }) ∧
    (((m.params ++ Block.declared body).map m.vars.name).Nodup → m.uniqueNames body = m.vars) ∧
    ∀ (counts : NameCounts) (name : String) (n : Nat),
      IsLeast {k | n ≤ k ∧ counts.taken (numbered name k) = false}
        (freeNumber counts name n (counts.length + 1)) := by
  have h := claimed_foldl m.vars (m.params ++ Block.declared body)
  exact ⟨h.distinct, h.other, h.get, fun hnodup => (h.unchanged hnodup).1, isLeast_freeNumber⟩

/-- Three parameters, of which the last wants the name of the first and the middle one has the first
name made up for it. -/
def alikeParams : MethodDecl :=
  { (default : MethodDecl) with
    params := [⟨0⟩, ⟨1⟩, ⟨2⟩]
    vars := ⟨#[{ (default : VarDecl) with name := "x" }, { (default : VarDecl) with name := "x_1" },
      { (default : VarDecl) with name := "x" }]⟩ }

/-- The last of them gets the second number, and so differs from both. -/
theorem MethodDecl.uniqueNames_distinct_alikeParams :
    alikeParams.params.map (alikeParams.uniqueNames []).name = ["x", "x_1", "x_2"] ∧
      (alikeParams.uniqueNames []).name ⟨2⟩ ≠ (alikeParams.uniqueNames []).name ⟨1⟩ :=
  ⟨by decide +kernel, (alikeParams.uniqueNames_distinct []).1 ⟨2⟩ (by decide) ⟨1⟩
    (by decide) (by decide)
    (by decide) (by decide)⟩

end ByteLift
