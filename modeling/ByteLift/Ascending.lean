/-!
# Ascending lists

Sorting by insertion. An entry that is there already is not put in a second time.
-/

namespace ByteLift

section

variable {α : Type} [LT α] [DecidableLT α] [DecidableEq α]

/-- Puts an entry into an ascending list, unless it is there. -/
def insertAscending (a : α) : List α → List α
  | [] => [a]
  | b :: bs => if a < b then a :: b :: bs else if a = b then b :: bs else b :: insertAscending a bs

/-- The entries of a list, ascending and without repetitions. -/
def sortAscending (as : List α) : List α := as.foldl (fun acc a => insertAscending a acc) []

variable {a b : α} {as : List α}

/-- Insertion adds the entry and loses none. -/
theorem mem_insertAscending : b ∈ insertAscending a as ↔ b = a ∨ b ∈ as := by
  fun_induction insertAscending a as <;> grind

/-- Sorting keeps what is in a list. -/
theorem mem_sortAscending : a ∈ sortAscending as ↔ a ∈ as := by
  have hfold (acc : List α) :
      a ∈ as.foldl (fun acc a => insertAscending a acc) acc ↔ a ∈ acc ∨ a ∈ as := by
    induction as generalizing acc with
    | nil => simp
    | cons b as ih =>
      rw [List.foldl_cons, ih, mem_insertAscending]
      grind
  simpa [sortAscending] using hfold []

variable [Trans (α := α) (· < ·) (· < ·) (· < ·)] [Std.Trichotomous (α := α) (· < ·)]

/-- An ascending list stays so. -/
theorem pairwise_insertAscending (h : as.Pairwise (· < ·)) :
    (insertAscending a as).Pairwise (· < ·) := by
  fun_induction insertAscending a as with
  | case1 => simp
  | case2 b bs hab =>
    refine List.pairwise_cons.2 ⟨List.forall_mem_cons.2 ⟨hab, fun d hd => ?_⟩, h⟩
    exact Trans.trans hab (List.rel_of_pairwise_cons h hd)
  | case3 => exact h
  | case4 b bs hab hne ih =>
    refine List.pairwise_cons.2 ⟨fun d hd => ?_, ih h.of_cons⟩
    rcases mem_insertAscending.1 hd with rfl | hd
    · exact Decidable.not_not.1 fun hba => hne (Std.Trichotomous.trichotomous d b hab hba)
    · exact List.rel_of_pairwise_cons h hd

/-- What sorting gives ascends. -/
theorem pairwise_sortAscending (as : List α) : (sortAscending as).Pairwise (· < ·) := by
  have hfold (acc : List α) (hacc : acc.Pairwise (· < ·)) :
      (as.foldl (fun acc a => insertAscending a acc) acc).Pairwise (· < ·) := by
    induction as generalizing acc with
    | nil => exact hacc
    | cons a as ih => exact ih _ (pairwise_insertAscending hacc)
  exact hfold [] .nil

end

end ByteLift
