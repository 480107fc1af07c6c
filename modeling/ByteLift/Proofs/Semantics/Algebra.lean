import ByteLift.Proofs.Semantics.Nested

/-!
# The algebra of meanings

Laws of sequencing, branching and looping, stated as equations between meanings. Two blocks often
mean the same only inside a loop, where some ways of ending come to the same thing: `Meaning.via`
renames the ways of ending, and a loop only depends on its body up to renamings that do not change
what becomes of a round.
-/

namespace ByteLift

variable {σ ν : Type}

namespace Meaning

variable {m k : Meaning σ ν} {f : Exit ν → Exit ν} {label : Option Label}

theorem ext (h : ∀ s x t, m s x t ↔ k s x t) : m = k := by
  funext s x t
  exact propext (h s x t)

/-! ## Sequences and branches -/

@[simp] theorem skip_seq (m : Meaning σ ν) : seq skip m = m := by
  refine ext fun s x t => ?_
  constructor
  · rintro (⟨u, ⟨_, rfl⟩, hm⟩ | ⟨hx, rfl, _⟩)
    · exact hm
    · exact absurd rfl hx
  · intro hm
    exact .inl ⟨s, ⟨rfl, rfl⟩, hm⟩

@[simp] theorem seq_skip (m : Meaning σ ν) : seq m skip = m := by
  refine ext fun s x t => ?_
  constructor
  · rintro (⟨u, hm, rfl, rfl⟩ | ⟨_, hm⟩)
    · exact hm
    · exact hm
  · intro hm
    by_cases hx : x = .normal
    · subst hx
      exact .inl ⟨t, hm, rfl, rfl⟩
    · exact .inr ⟨hx, hm⟩

theorem seq_assoc (m k j : Meaning σ ν) : seq (seq m k) j = seq m (seq k j) := by
  refine ext fun s x t => ?_
  constructor
  · rintro (⟨u, ⟨w, hm, hk⟩ | ⟨hne, _⟩, hj⟩ | ⟨hx, ⟨w, hm, hk⟩ | ⟨_, hm⟩⟩)
    · exact .inl ⟨w, hm, .inl ⟨u, hk, hj⟩⟩
    · exact absurd rfl hne
    · exact .inl ⟨w, hm, .inr ⟨hx, hk⟩⟩
    · exact .inr ⟨hx, hm⟩
  · rintro (⟨w, hm, ⟨u, hk, hj⟩ | ⟨hx, hk⟩⟩ | ⟨hx, hm⟩)
    · exact .inl ⟨u, .inl ⟨w, hm, hk⟩, hj⟩
    · exact .inr ⟨hx, .inl ⟨w, hm, hk⟩⟩
    · exact .inr ⟨hx, .inr ⟨hx, hm⟩⟩

variable (test : EStateM ν σ Bool)

/-- What follows a branch may as well stand in both of its arms. -/
theorem branch_seq (m k j : Meaning σ ν) :
    seq (branch test m k) j = branch test (seq m j) (seq k j) := by
  refine ext fun s x t => ?_
  simp only [seq, branch]
  cases test s with
  | error v u =>
    constructor
    · rintro (⟨_, ⟨hne, _⟩, _⟩ | ⟨_, h⟩)
      · cases hne
      · exact h
    · rintro ⟨rfl, rfl⟩
      exact .inr ⟨by simp, rfl, rfl⟩
  | ok b u => cases b <;> rfl

/-- Testing for the opposite swaps the arms of a branch. -/
theorem branch_not (m k : Meaning σ ν) : branch (Bool.not <$> test) m k = branch test k m := by
  refine ext fun s x t => ?_
  simp only [branch, Functor.map, EStateM.map]
  cases test s with
  | error v u => rfl
  | ok b u => cases b <;> rfl

@[simp] theorem branch_true (m k : Meaning σ ν) : branch (pure true) m k = m := rfl

/-- Control never runs on behind. -/
def Abrupt (m : Meaning σ ν) : Prop := ∀ s t, ¬ m s .normal t

theorem Abrupt.seq_eq (h : m.Abrupt) (k : Meaning σ ν) : seq m k = m := by
  refine ext fun s x t => ?_
  constructor
  · rintro (⟨u, hm, _⟩ | ⟨_, hm⟩)
    · exact absurd hm (h s u)
    · exact hm
  · intro hm
    refine .inr ⟨?_, hm⟩
    rintro rfl
    exact h s t hm

theorem Abrupt.seq_left (h : m.Abrupt) (k : Meaning σ ν) : (seq m k).Abrupt := by
  rwa [h.seq_eq]

theorem Abrupt.seq_right (h : k.Abrupt) (m : Meaning σ ν) : (seq m k).Abrupt := by
  rintro s t (⟨u, _, hk⟩ | ⟨hne, _⟩)
  · exact h u t hk
  · exact hne rfl

theorem Abrupt.branch (hm : m.Abrupt) (hk : k.Abrupt) (test : EStateM ν σ Bool) :
    (branch test m k).Abrupt := by
  intro s t h
  simp only [Meaning.branch] at h
  split at h
  · cases h.1
  · exact hm _ _ h
  · exact hk _ _ h

/-! ## Renaming how code ends -/

/-- The same code, with the ways of ending renamed. -/
def via (f : Exit ν → Exit ν) (m : Meaning σ ν) : Meaning σ ν := fun s y t =>
  ∃ x, m s x t ∧ f x = y

theorem via_skip (hf : f .normal = .normal) : via f (skip : Meaning σ ν) = skip := by
  refine ext fun s y t => ?_
  constructor
  · rintro ⟨x, ⟨rfl, rfl⟩, rfl⟩
    exact ⟨hf, rfl⟩
  · rintro ⟨rfl, rfl⟩
    exact ⟨_, ⟨rfl, rfl⟩, hf⟩

/-- Behind code that runs on, only what the renaming makes of the rest matters. -/
theorem via_seq_congr {k' : Meaning σ ν} (h : via f k = via f k') (m : Meaning σ ν) :
    via f (seq m k) = via f (seq m k') := by
  have half {k k' : Meaning σ ν} (h : via f k = via f k') (s : σ) (y : Exit ν) (t : σ) :
      via f (seq m k) s y t → via f (seq m k') s y t := by
    rintro ⟨x, ⟨u, hm, hk⟩ | ⟨hx, hm⟩, rfl⟩
    · have hk' : via f k u (f x) t := ⟨x, hk, rfl⟩
      rw [h] at hk'
      obtain ⟨x', hk', hf⟩ := hk'
      exact ⟨x', .inl ⟨u, hm, hk'⟩, hf⟩
    · exact ⟨x, .inr ⟨hx, hm⟩, rfl⟩
  exact ext fun s y t => ⟨half h s y t, half h.symm s y t⟩

/-- A renaming that keeps apart what runs on and what does not can be applied part by part. -/
theorem via_seq (hf : ∀ x, f x = .normal ↔ x = .normal) (m k : Meaning σ ν) :
    via f (seq m k) = seq (via f m) (via f k) := by
  refine ext fun s y t => ?_
  constructor
  · rintro ⟨x, ⟨u, hm, hk⟩ | ⟨hx, hm⟩, rfl⟩
    · exact .inl ⟨u, ⟨_, hm, (hf _).2 rfl⟩, x, hk, rfl⟩
    · exact .inr ⟨fun h => hx ((hf x).1 h), x, hm, rfl⟩
  · rintro (⟨u, ⟨x, hm, hx⟩, z, hk, rfl⟩ | ⟨hy, x, hm, rfl⟩)
    · rw [(hf x).1 hx] at hm
      exact ⟨z, .inl ⟨u, hm, hk⟩, rfl⟩
    · exact ⟨x, .inr ⟨fun h => hy ((hf x).2 h), hm⟩, rfl⟩

theorem via_id (m : Meaning σ ν) : via id m = m := by
  refine ext fun s y t => ?_
  constructor
  · rintro ⟨x, hm, rfl⟩
    exact hm
  · intro hm
    exact ⟨y, hm, rfl⟩

/-- Code whose ways of ending are not renamed can be taken out. -/
theorem via_seq_of_fixed (h : ∀ s x t, m s x t → f x = x) (k : Meaning σ ν) :
    via f (seq m k) = seq m (via f k) := by
  refine ext fun s y t => ?_
  constructor
  · rintro ⟨x, ⟨u, hm, hk⟩ | ⟨hx, hm⟩, rfl⟩
    · exact .inl ⟨u, hm, x, hk, rfl⟩
    · rw [h s x t hm]
      exact .inr ⟨hx, hm⟩
  · rintro (⟨u, hm, x, hk, rfl⟩ | ⟨hy, hm⟩)
    · exact ⟨x, .inl ⟨u, hm, hk⟩, rfl⟩
    · exact ⟨y, .inr ⟨hy, hm⟩, h s y t hm⟩

theorem via_branch (hf : ∀ v, f (.thrown v) = .thrown v) (test : EStateM ν σ Bool)
    (m k : Meaning σ ν) : via f (branch test m k) = branch test (via f m) (via f k) := by
  refine ext fun s y t => ?_
  simp only [via, branch]
  cases test s with
  | error v u =>
    constructor
    · rintro ⟨x, ⟨rfl, rfl⟩, rfl⟩
      exact ⟨hf v, rfl⟩
    · rintro ⟨rfl, rfl⟩
      exact ⟨_, ⟨rfl, rfl⟩, hf v⟩
  | ok b u => cases b <;> rfl

/-! ## Loops -/

theorem iter_mono {test : EStateM ν σ Bool}
    (h : ∀ s x t, m s x t → ∃ x', k s x' t ∧ x'.ofRound label = x.ofRound label) {s : σ}
    {y : Exit ν} {t : σ} (hm : iter test label m s y t) : iter test label k s y t := by
  induction hm with
  | throws htest => exact .throws htest
  | done htest => exact .done htest
  | leaves htest hbody hround =>
    obtain ⟨x', hk, heq⟩ := h _ _ _ hbody
    exact .leaves htest hk (heq.trans hround)
  | again htest hbody hround _ ih =>
    obtain ⟨x', hk, heq⟩ := h _ _ _ hbody
    exact .again htest hk (heq.trans hround) ih

/-- A loop only depends on its body up to a renaming that does not change what becomes of a
round. -/
theorem iter_congr (hf : ∀ x, (f x).ofRound label = x.ofRound label) (h : via f m = via f k)
    (test : EStateM ν σ Bool) : iter test label m = iter test label k := by
  have half {m k : Meaning σ ν} (h : via f m = via f k) (s : σ) (x : Exit ν) (t : σ)
      (hm : m s x t) : ∃ x', k s x' t ∧ x'.ofRound label = x.ofRound label := by
    have hk : via f m s (f x) t := ⟨x, hm, rfl⟩
    rw [h] at hk
    obtain ⟨x', hk, heq⟩ := hk
    exact ⟨x', hk, by rw [← hf x', heq, hf x]⟩
  exact ext fun s y t => ⟨iter_mono (half h), iter_mono (half h.symm)⟩

/-- The label of a loop does not matter if no round ends in a jump to either label. -/
theorem iter_label {label' : Option Label}
    (h : ∀ s x t, m s x t → x.ofRound label = x.ofRound label')
    (test : EStateM ν σ Bool) : iter test label m = iter test label' m := by
  have half {label label' : Option Label}
      (h : ∀ s x t, m s x t → x.ofRound label = x.ofRound label') {s : σ} {y : Exit ν} {t : σ}
      (hm : iter test label m s y t) : iter test label' m s y t := by
    induction hm with
    | throws htest => exact .throws htest
    | done htest => exact .done htest
    | leaves htest hbody hround => exact .leaves htest hbody ((h _ _ _ hbody).symm.trans hround)
    | again htest hbody hround _ ih =>
      exact .again htest hbody ((h _ _ _ hbody).symm.trans hround) ih
  exact ext fun s y t => ⟨half h, half fun s x t hm => (h s x t hm).symm⟩

/-- A loop that starts every round by leaving it under a condition goes on under the opposite
one. -/
theorem iter_guard (l : Label) (m : Meaning σ ν) :
    iter (pure true) (some l) (branch test (ofFun fun s => (.breaking (some l), s)) m) =
      iter (Bool.not <$> test) (some l) m := by
  have hnot {s : σ} {p : Bool} {t : σ} (h : test s = .ok p t) :
    (Bool.not <$> test) s = .ok (!p) t := by
    simp [Functor.map, EStateM.map, h]
  have hthrow {s : σ} {v : ν} {t : σ} (h : test s = .error v t) :
    (Bool.not <$> test) s = .error v t := by
    simp [Functor.map, EStateM.map, h]
  have hbreak : (Exit.breaking (some l) : Exit ν).ofRound (some l) = some .normal := by
    simp [Exit.ofRound]
  refine ext fun s y t => ?_
  constructor
  · intro h
    induction h with
    | throws htest => cases htest
    | done htest => cases htest
    | leaves htest hbody hround =>
      cases htest
      simp only [branch] at hbody
      split at hbody
      · rename_i htest
        obtain ⟨rfl, rfl⟩ := hbody
        cases hround
        exact .throws (hthrow htest)
      · rename_i htest
        cases hbody
        rw [hbreak, Option.some.injEq] at hround
        rw [← hround]
        exact .done (hnot htest)
      · rename_i htest
        exact .leaves (hnot htest) hbody hround
    | again htest hbody hround _ ih =>
      cases htest
      simp only [branch] at hbody
      split at hbody
      · obtain ⟨rfl, rfl⟩ := hbody
        cases hround
      · cases hbody
        rw [hbreak] at hround
        cases hround
      · rename_i htest
        exact .again (hnot htest) hbody hround ih
  · intro h
    -- The opposite test fails or holds as the test itself does.
    have hinv {s : σ} {p : Bool} {t : σ} (h : (Bool.not <$> test) s = .ok p t) :
      test s = .ok (!p) t := by
      simp only [Functor.map, EStateM.map] at h
      split at h
      · rename_i htest
        cases h
        simpa using htest
      · cases h
    induction h with
    | @throws s v t htest =>
      refine .leaves rfl (x := .thrown v) ?_ rfl
      simp only [Functor.map, EStateM.map] at htest
      split at htest
      · cases htest
      · rename_i hthrown
        cases htest
        simp [branch, hthrown]
    | done htest =>
      refine .leaves rfl (x := .breaking (some l)) ?_ hbreak
      simp [branch, hinv htest, ofFun]
    | leaves htest hbody hround =>
      exact .leaves rfl (by simpa [branch, hinv htest] using hbody) hround
    | again htest hbody hround _ ih =>
      exact .again rfl (by simpa [branch, hinv htest] using hbody) hround ih

/-- A loop whose condition always holds and whose rounds all end the loop runs once. -/
theorem iter_once (h : ∀ s x t, m s x t → x.ofRound label ≠ none) (s : σ) (y : Exit ν) (t : σ) :
    iter (pure true) label m s y t ↔ ∃ x, m s x t ∧ x.ofRound label = some y := by
  constructor
  · intro hm
    cases hm with
    | throws htest => cases htest
    | done htest => cases htest
    | leaves htest hbody hround =>
      cases htest
      exact ⟨_, hbody, hround⟩
    | again htest hbody hround =>
      cases htest
      exact absurd hround (h _ _ _ hbody)
  · rintro ⟨x, hbody, hround⟩
    exact .leaves rfl hbody hround

end Meaning

/-! ## The meaning of blocks -/

section

variable (S : Semantics σ ν)

@[simp] theorem meaningList_nil : meaningList S [] = .skip := by
  rw [meaningList]

@[simp] theorem meaningList_cons (x : Stmt) (b : Block) :
    meaningList S (x :: b) = .seq (x.meaning S) (meaningList S b) := by
  rw [meaningList]

variable (a : Block)

theorem meaningList_append (b : Block) :
    meaningList S (a ++ b) = .seq (meaningList S a) (meaningList S b) := by
  induction a with
  | nil => simp
  | cons x xs ih => simp [ih, Meaning.seq_assoc]

@[simp] theorem meaning_ite (c : Expr) (a b : Block) :
    (Stmt.ite c a b).meaning S = .branch (S.test c) (meaningList S a) (meaningList S b) := by
  rw [Stmt.meaning]

@[simp] theorem meaning_loop (l : Option Label) (c : Expr) (a : Block) :
    (Stmt.loop l c a).meaning S = .iter (S.test c) l (meaningList S a) := by
  rw [Stmt.meaning]

@[simp] theorem meaning_block : (Stmt.block a).meaning S = meaningList S a := by
  rw [Stmt.meaning]

/-- Statements without blocks do what they do at once. -/
theorem meaning_of_blocks_eq_nil {x : Stmt} (h : x.blocks = []) :
    x.meaning S = .ofFun (x.act S) := by
  cases x <;> simp_all [Stmt.meaning]

end

end ByteLift
