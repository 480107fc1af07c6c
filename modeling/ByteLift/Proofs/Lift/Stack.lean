import ByteLift.Proofs.Lift.Spill
import ByteLift.Proofs.Semantics.Bytecode

/-!
# Taking entries off the stack

What the steps that take entries off the lifting machine's stack, or put some on it, do when they
succeed. Where entries are taken by the words they fill, values that fill as many words are taken
alike.
-/

namespace ByteLift.Lift

variable {env : Env} {m m' : Machine}

variable {e : Expr} {u : Unit} {es : List Expr}

theorem push_eq_ok : push e m = .ok u m' ↔ m' = { m with stack := e :: m.stack } :=
  modify_eq_ok

theorem pushAll_eq_ok : pushAll es m = .ok u m' ↔ m' = { m with stack := es ++ m.stack } :=
  modify_eq_ok

theorem append_eq_ok {ss : Block} : append ss m = .ok u m' ↔ m' = { m with out := m.out ++ ss } :=
  modify_eq_ok

theorem typeOf_eq_ok {t : Ty} : typeOf env e m = .ok t m' ↔ t = env.typeOf m.vars e ∧ m' = m := by
  simp only [typeOf, bind_eq_ok, get_eq_ok, pure_eq_ok]
  constructor
  · rintro ⟨_, _, ⟨rfl, rfl⟩, rfl, rfl⟩
    exact ⟨rfl, rfl⟩
  · rintro ⟨rfl, rfl⟩
    exact ⟨_, _, ⟨rfl, rfl⟩, rfl, rfl⟩

theorem mismatch_eq_ok {α : Type} {detail : String} {a : α} :
    mismatch detail m = .ok a m' ↔ False := by
  simp only [mismatch, bind_eq_ok, get_eq_ok, throw_eq_ok, and_false, exists_false]

/-- The types at a label are checked against a record of as many, or recorded. -/
theorem joinShape_eq_ok {l : Label} {shape : List Ty} (h : joinShape env l shape m = .ok () m') :
    (∃ recorded, entered? l m.shapes = some recorded ∧ recorded.length = shape.length ∧
      checkShape env l 0 (shape.zip recorded) m = .ok () m') ∨
    entered? l m.shapes = none ∧ m' = { m with shapes := enter l shape m.shapes } := by
  simp only [joinShape, bind_eq_ok, get_eq_ok] at h
  obtain ⟨_, m, ⟨rfl, rfl⟩, h⟩ := h
  cases hl : entered? l m.shapes with
  | some recorded =>
    simp only [hl] at h
    split at h
    · simp only [bind_eq_ok, mismatch_eq_ok, false_and, exists_false] at h
    · rename_i hlen
      exact .inl ⟨recorded, rfl, Decidable.not_not.1 hlen, h⟩
  | none =>
    simp only [hl, modify_eq_ok] at h
    exact .inr ⟨rfl, h⟩

theorem pop_eq_ok : pop m = .ok e m' ↔ ∃ st, m.stack = e :: st ∧ m' = { m with stack := st } := by
  simp only [pop, bind_eq_ok, get_eq_ok]
  constructor
  · rintro ⟨_, m, ⟨rfl, rfl⟩, h⟩
    cases hst : m.stack with
    | nil =>
      rw [hst] at h
      cases h
    | cons e' st =>
      simp only [hst, bind_eq_ok, set_eq_ok, pure_eq_ok] at h
      obtain ⟨_, _, rfl, rfl, rfl⟩ := h
      exact ⟨st, rfl, rfl⟩
  · rintro ⟨st, hst, rfl⟩
    refine ⟨m, m, ⟨rfl, rfl⟩, ?_⟩
    rw [hst]
    rfl

theorem popMany_eq_ok {n : Nat} (h : popMany n m = .ok es m') :
    ∃ st, m.stack = es.reverse ++ st ∧ es.length = n ∧ m' = { m with stack := st } := by
  induction n generalizing m es with
  | zero =>
    obtain ⟨rfl, rfl⟩ := pure_eq_ok.1 h
    exact ⟨m.stack, rfl, rfl, rfl⟩
  | succ n ih =>
    simp only [popMany, bind_eq_ok, pop_eq_ok, pure_eq_ok] at h
    obtain ⟨e, _, ⟨st, hst, rfl⟩, es, _, hes, rfl, rfl⟩ := h
    obtain ⟨st', hst', rfl, rfl⟩ := ih hes
    refine ⟨st', ?_, by simp, rfl⟩
    have hst' : st = es.reverse ++ st' := hst'
    rw [hst, hst', List.reverse_append]
    rfl

/-- The arguments of a call stand on the stack in reverse, and are taken as values of the
parameters' types. -/
theorem popArgs_eq_ok {ts : List Ty} (h : popArgs ts m = .ok es m') :
    ∃ as st, m.stack = as.reverse ++ st ∧ as.length = ts.length ∧
      es = List.zipWith Expr.coerce as ts ∧ m' = { m with stack := st } := by
  induction ts generalizing m' es with
  | nil =>
    obtain ⟨rfl, rfl⟩ := pure_eq_ok.1 h
    exact ⟨[], m.stack, rfl, rfl, rfl, rfl⟩
  | cons t ts ih =>
    simp only [popArgs, bind_eq_ok, pop_eq_ok, pure_eq_ok] at h
    obtain ⟨later, _, hlater, e, _, ⟨st', hst', rfl⟩, rfl, rfl⟩ := h
    obtain ⟨as, st, hst, hlen, rfl, rfl⟩ := ih hlater
    have hst' : st = e :: st' := hst'
    exact ⟨e :: as, st', by simp [hst, hst'], by simp [hlen], rfl, rfl⟩

/-- Values that fill the words that the entries fill are taken alike. -/
theorem takeWords_eq_ok {n : Nat} (h : takeWords env n m = .ok es m') :
    ∃ st, m.stack = es ++ st ∧ m' = { m with stack := st } ∧
      ∀ {ρ : Type} (vs us : List (Value ρ)), es.map (env.isWide m.vars) = vs.map Value.isWide →
        Frame.takeWords n (vs ++ us) = some (vs, us) := by
  induction n using Nat.strongRecOn generalizing m es with
  | ind n ih =>
    cases n with
    | zero =>
      obtain ⟨rfl, rfl⟩ := pure_eq_ok.1 h
      refine ⟨m.stack, rfl, rfl, fun vs us hvs => ?_⟩
      rw [List.map_eq_nil_iff.1 hvs.symm]
      rfl
    | succ n =>
      simp only [takeWords, bind_eq_ok, pop_eq_ok, get_eq_ok] at h
      obtain ⟨e, _, ⟨st, hst, rfl⟩, _, _, ⟨rfl, rfl⟩, h⟩ := h
      -- Behind a value of two words, two words less are left to take.
      obtain ⟨k, es', hk, hes', rfl, hwide⟩ : ∃ k es', k ≤ n ∧
          takeWords env k { m with stack := st } = .ok es' m' ∧ es = e :: es' ∧
          ∀ {ρ : Type} (v : Value ρ) (vs : List (Value ρ)), env.isWide m.vars e = v.isWide →
            Frame.takeWords (n + 1) (v :: vs) = (Frame.takeWords k vs).map fun p =>
            (v :: p.1, p.2) := by
        by_cases hwide : (env.typeOf m.vars e).isWide = true
        · rw [if_pos hwide] at h
          cases n with
          | zero => exact (mismatch_eq_ok.1 h).elim
          | succ n =>
            simp only [bind_eq_ok, pure_eq_ok] at h
            obtain ⟨es', _, hes', rfl, rfl⟩ := h
            refine ⟨n, es', by omega, hes', rfl, fun v vs hv => ?_⟩
            rw [Frame.takeWords, if_pos (hv.symm.trans hwide)]
        · rw [if_neg hwide] at h
          simp only [bind_eq_ok, pure_eq_ok] at h
          obtain ⟨es', _, hes', rfl, rfl⟩ := h
          refine ⟨n, es', Nat.le_refl _, hes', rfl, fun v vs hv => ?_⟩
          have hv : ¬ v.isWide = true := fun hw => hwide (hv.trans hw)
          rw [Frame.takeWords.eq_def]
          simp only [if_neg hv]
      obtain ⟨st', hst', rfl, htake⟩ := ih k (by omega) hes'
      have hst' : st = es' ++ st' := hst'
      refine ⟨st', by rw [hst, hst']; rfl, rfl, fun vs us hvs => ?_⟩
      cases vs with
      | nil => cases hvs
      | cons v vs =>
        obtain ⟨hv, hvs⟩ := List.cons.inj hvs
        rw [List.cons_append, hwide v _ hv, htake vs us hvs]
        rfl

end ByteLift.Lift
