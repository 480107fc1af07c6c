import ByteLift.Proofs.Semantics.Algebra
import ByteLift.Stmt.Completion

/-!
# Where control goes

What is read off statements about where control can go holds of every run. A statement that ends in
a jump to a loop contains such a jump, and control does not run on behind a statement that is said
not to complete.
-/

namespace ByteLift

open Stmt Exit

variable {σ ν : Type} {S : Semantics σ ν}

/-- How a jump of a kind ends. -/
def LoopJump.exit : LoopJump → Option Label → Exit ν
  | .breaking, l => .breaking l
  | .continuing, l => .continuing l

variable {label l : Option Label} {s t : σ} {kind : LoopJump}

variable {y x : Exit ν}

/-- A loop ends because of its condition or with one of its rounds. -/
theorem exists_round_of_iter {test : EStateM ν σ Bool} {m : Meaning σ ν}
    (h : Meaning.iter test label m s y t) :
    (∃ u v, test u = .error v t ∧ y = .thrown v) ∨ (∃ u, test u = .ok false t ∧ y = .normal) ∨
      ∃ u x, m u x t ∧ x.ofRound label = some y := by
  induction h with
  | throws htest => exact .inl ⟨_, _, htest, rfl⟩
  | done htest => exact .inr (.inl ⟨_, htest, rfl⟩)
  | leaves _ hbody hround => exact .inr (.inr ⟨_, _, hbody, hround⟩)
  | again _ _ _ _ ih => exact ih

/-- A loop only passes on jumps to other loops that these name. -/
theorem eq_exit_of_ofRound (h : x.ofRound label = some (kind.exit l)) :
    x = kind.exit l ∧ l.isSome = true := by
  cases x with
  | breaking m =>
    cases m with
    | none => cases kind <;> simp [ofRound, LoopJump.exit] at h
    | some m =>
      simp only [ofRound] at h
      split at h
      · cases kind <;> cases h
      · cases kind <;> cases h
        exact ⟨rfl, rfl⟩
  | continuing m =>
    cases m with
    | none => cases kind <;> simp [ofRound] at h
    | some m =>
      simp only [ofRound] at h
      split at h
      · cases h
      · cases kind <;> cases h
        exact ⟨rfl, rfl⟩
  | _ => cases kind <;> simp [ofRound, LoopJump.exit] at h

/-- A round that leaves the loop normally was broken off. -/
theorem eq_breaking_of_ofRound (h : x.ofRound label = some .normal) :
    x = .breaking none ∨ x = .breaking label ∧ label.isSome := by
  cases x with
  | breaking m =>
    cases m with
    | none => exact .inl rfl
    | some m =>
      simp only [ofRound] at h
      split at h
      · rename_i heq
        exact .inr ⟨by rw [heq], by simp [← heq]⟩
      · cases h
  | continuing m =>
    cases m with
    | none => cases h
    | some m =>
      simp only [ofRound] at h
      split at h <;> cases h
  | _ => cases h

/-- Of the statements without blocks only jumps end in a jump to a loop. -/
theorem eq_jump_of_act {x : Stmt} (hx : x.blocks = []) (h : x.act S s = (kind.exit l, t)) :
    x.jumpTarget? kind = some l := by
  have hexit {value : Option ν} (h : kind.exit l = x.exit S value) :
    x.jumpTarget? kind = some l := by
    cases x with
    | goto =>
      simp only [Stmt.exit] at h
      split at h <;> cases kind <;> cases h
    | throw => cases value <;> cases kind <;> cases h
    | breakLoop | continueLoop => cases kind <;> cases h <;> rfl
    | _ => cases kind <;> cases h
  rcases cases_of_act hx h with ⟨_, hy, _⟩ | ⟨e, v, _, ⟨_, hy⟩ | ⟨_, hy⟩⟩
  · exact hexit hy
  · exact hexit hy
  · cases kind <;> cases hy

/-- How a block ends is how one of its statements does, at any depth, or what a loop makes of how a
round of it does. -/
theorem exit_induction {P : Block → Exit ν → Prop} (nil : P [] .normal)
    (thrown : ∀ b v, P b (.thrown v))
    (act : ∀ {x : Stmt} {s y t} xs, x.blocks = [] → x.act S s = (y, t) → P (x :: xs) y)
    (later : ∀ x {xs y}, P xs y → P (x :: xs) y)
    (thenArm : ∀ c b xs {a y}, P a y → P (.ite c a b :: xs) y)
    (elseArm : ∀ c a xs {b y}, P b y → P (.ite c a b :: xs) y)
    (round : ∀ {l x y} c xs {a}, P a x → x.ofRound l = some y → P (.loop l c a :: xs) y)
    (inner : ∀ xs {a y}, P a y → P (.block a :: xs) y) (b : Block) (h : meaningList S b s y t) :
    P b y := by
  induction b using Block.nestedInduction generalizing s y t with
  | nil =>
    obtain ⟨rfl, rfl⟩ := h
    exact nil
  | cons x xs ihblocks ihxs =>
    rw [meaningList_cons] at h
    rcases h with ⟨u, _, hxs⟩ | ⟨hne, hx⟩
    · exact later x (ihxs hxs)
    cases x with
    | ite c a b =>
      simp only [meaning_ite, Meaning.branch] at hx
      split at hx
      · rw [hx.1]
        exact thrown _ _
      · exact thenArm c b xs (ihblocks a (by simp) hx)
      · exact elseArm c a xs (ihblocks b (by simp) hx)
    | loop l c a =>
      rw [meaning_loop] at hx
      rcases exists_round_of_iter hx with ⟨_, _, _, rfl⟩ | ⟨_, _, rfl⟩ | ⟨u, x, hbody, hround⟩
      · exact thrown _ _
      · exact absurd rfl hne
      · exact round c xs (ihblocks a (by simp) hbody) hround
    | block a =>
      rw [meaning_block] at hx
      exact inner xs (ihblocks a (by simp) hx)
    | _ =>
      rw [meaning_of_blocks_eq_nil S rfl] at hx
      exact act xs rfl hx

/-- A block that ends in a jump to a loop contains one: without a label, outside of all loops in the
block, or with the label of the loop. -/
theorem jumpsToList_of_meaning (b : Block) (inner : Bool) (h : meaningList S b s (kind.exit l) t)
    (hl : l = none ∧ inner = false ∨ l.isSome ∧ l = label) :
    jumpsToList kind label inner b = true := by
  refine exit_induction (P := fun b y => ∀ inner,
    y = kind.exit l → (l = none ∧ inner = false ∨ l.isSome ∧ l = label) →
    jumpsToList kind label inner b = true) ?_ ?_ ?_ ?_ ?_ ?_ ?_ ?_ b h inner rfl hl
  · intro inner hy
    cases kind <;> cases hy
  · intro b v inner hy
    cases kind <;> cases hy
  · rintro x s _ t xs hx hact inner rfl hl
    have htarget := eq_jump_of_act hx hact
    cases x with
    | ite | loop | block => cases hx
    | _ =>
      simp only [jumpsToList, jumpsTo, htarget]
      rcases hl with ⟨rfl, rfl⟩ | ⟨hsome, rfl⟩
      · rfl
      · cases l with
        | none => cases hsome
        | some l => simp
  · intro x xs y ih inner hy hl
    simp [jumpsToList, ih inner hy hl]
  · intro c b xs a y ih inner hy hl
    simp [jumpsToList, jumpsTo, ih inner hy hl]
  · intro c a xs b y ih inner hy hl
    simp [jumpsToList, jumpsTo, ih inner hy hl]
  · rintro m x _ c xs a ih hround inner rfl hl
    obtain ⟨rfl, hsome⟩ := eq_exit_of_ofRound hround
    have hlabel : l.isSome ∧ l = label := hl.resolve_left fun hnone => by simp [hnone.1] at hsome
    simp [jumpsToList, jumpsTo, ih true rfl (.inr hlabel)]
  · intro xs a y ih inner hy hl
    simp [jumpsToList, jumpsTo, ih inner hy hl]

/-- A block that is said not to jump to a loop does not end in a jump there. -/
theorem not_meaning_exit (kind : LoopJump) {b : Block} (h : jumpsToList kind label false b = false)
    (hl : l = none ∨ l = label) : ¬ meaningList S b s (kind.exit l) t := by
  intro hb
  have hjump : jumpsToList kind label false b = true := by
    refine jumpsToList_of_meaning b false hb ?_
    cases l with
    | none => exact .inl ⟨rfl, rfl⟩
    | some l => exact .inr ⟨rfl, hl.resolve_left (by simp)⟩
  rw [h] at hjump
  cases hjump

/-- Control does not run on behind a block that is said not to complete. -/
theorem abrupt_of_completesList (b : Block) (h : completesList b = false) :
    (meaningList S b).Abrupt := by
  induction b using Block.nestedInduction with
  | nil => simp [completesList] at h
  | cons x xs ihblocks ih =>
    rw [meaningList_cons]
    simp only [completesList, Bool.and_eq_false_iff] at h
    refine h.elim (fun h => .seq_left ?_ _) fun h => (ih h).seq_right _
    cases x with
    | ite c a b =>
      simp only [completes, Bool.or_eq_false_iff] at h
      rw [meaning_ite]
      exact (ihblocks a (by simp) h.1.2).branch (ihblocks b (by simp) h.2) _
    | loop l c a =>
      simp only [completes, Bool.or_eq_false_iff, Bool.not_eq_false'] at h
      rw [meaning_loop, Semantics.test_of_isTrue h.1]
      intro s t hloop
      rcases exists_round_of_iter hloop with ⟨_, _, htest, _⟩ | ⟨_, htest, _⟩ |
        ⟨u, x, hbody, hround⟩
      · cases htest
      · cases htest
      · rcases eq_breaking_of_ofRound hround with rfl | ⟨rfl, hsome⟩
        · exact not_meaning_exit .breaking h.2 (.inl rfl) hbody
        · exact not_meaning_exit .breaking h.2 (.inr rfl) hbody
    | block a =>
      rw [meaning_block]
      exact ihblocks a (by simp) h
    | ret e =>
      rw [meaning_of_blocks_eq_nil S rfl]
      intro s t h
      cases e with
      | none => cases h
      | some e =>
        simp only [Meaning.ofFun, Stmt.act] at h
        split at h <;> cases h
    | throw e =>
      rw [meaning_of_blocks_eq_nil S rfl]
      intro s t h
      simp only [Meaning.ofFun, Stmt.act] at h
      split at h <;> cases h
    | goto l c =>
      cases c with
      | none =>
        rw [meaning_of_blocks_eq_nil S rfl]
        rintro s t ⟨⟩
      | some => cases h
    | breakLoop | continueLoop =>
      rw [meaning_of_blocks_eq_nil S rfl]
      rintro s t ⟨⟩
    | _ => cases h

theorem Stmt.abrupt_of_completes (x : Stmt) (h : x.completes = false) : (x.meaning S).Abrupt := by
  have hlist : (meaningList S [x]).Abrupt :=
    abrupt_of_completesList [x] (by simp [completesList, h])
  rwa [meaningList_cons, meaningList_nil, Meaning.seq_skip] at hlist

/-- What is read off statements about where control can go is true of every run, from any state and
under any interpretation. Control does not run on behind a statement or a block that is said not to
complete, and the body of a loop neither leaves it nor starts its next round by a jump, with or
without its label, if it is said not to. -/
theorem exec_respects_completion {σ ν : Type} (S : Semantics σ ν) (n : Nat) (s t : σ) :
    (∀ x : Stmt, x.completes = false → x.exec S n s ≠ some (.normal, t)) ∧
    (∀ b : Block, b.completes = false → b.exec S n s ≠ some (.normal, t)) ∧
    ∀ (body : Block) (label target : Option Label), target = none ∨ target = label →
      (body.breaksOutOf label = false → body.exec S n s ≠ some (.breaking target, t)) ∧
      (body.continues label = false → body.exec S n s ≠ some (.continuing target, t)) := by
  have hblock (b : Block) (h : b.completes = false) : b.exec S n s ≠ some (.normal, t) :=
    fun hrun => abrupt_of_completesList b h s t (meaningList_of_exec b hrun)
  refine ⟨fun x h hrun => ?_, hblock, fun body label target htarget => ⟨fun h => ?_, fun h => ?_⟩⟩
  · -- A statement is run as the block of it alone.
    refine hblock [x] (by simp [Block.completes, Stmt.completesList, h]) ?_
    simp [Block.exec, execList, hrun]
  · exact fun hrun => not_meaning_exit .breaking h htarget (meaningList_of_exec body hrun)
  · exact fun hrun => not_meaning_exit .continuing h htarget (meaningList_of_exec body hrun)

end ByteLift
