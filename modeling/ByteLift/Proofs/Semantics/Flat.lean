import ByteLift.Proofs.Semantics.Nested
import ByteLift.Proofs.Semantics.Steps

/-!
# Running flat code

`Flat.run` runs flat code from a position, for at most a number of steps. A goto goes on at its
label; all other statements do what they do in nested code. As for nested code, a run that has no
result within any number of steps runs forever.
-/

namespace ByteLift.Flat

variable {code : Block} {σ ν : Type} (S : Semantics σ ν)

/-- The position of a label. -/
def position? (code : Block) (l : Label) : Option Nat := code.findIdx? (· = .label l)

/-- Where control goes on after the statement at a position, by how the statement ended. -/
def follow (code : Block) (pos : Nat) : Exit ν → Option Nat
  | .normal => some (pos + 1)
  | .jumping l => position? code l
  | _ => none

/-- Runs the statement at a position. -/
def step (code : Block) (c : Nat × σ) : Step (Nat × σ) (Exit ν × σ) :=
  match code[c.1]? with
  | none => .stop (.normal, c.2)
  | some x =>
    match follow code c.1 (x.act S c.2).1 with
    | some next => .on (next, (x.act S c.2).2)
    | none => .stop (x.act S c.2)

/-- Runs flat code from a position, for at most `n` steps. -/
def run (code : Block) (n pos : Nat) (s : σ) : Option (Exit ν × σ) :=
  runFor (step S code) n (pos, s)

/-- From a position, the code ends in a way within some number of steps. -/
def Ends (code : Block) (pos : Nat) (s : σ) (r : Exit ν × σ) : Prop :=
  ∃ n, run S code n pos s = some r

section

variable {S} {pos next n : Nat} {s : σ} {r : Exit ν × σ} {x : Stmt}

theorem step_on (h : code[pos]? = some x) (hnext : follow code pos (x.act S s).1 = some next) :
    step S code (pos, s) = .on (next, (x.act S s).2) := by
  simp only [step, h, hnext]

/-- Behind the last statement there is nothing left to do. -/
theorem run_off (h : code[pos]? = none) : run S code (n + 1) pos s = some (.normal, s) :=
  runFor_stop (by simp only [step, h])

section

variable (h : code[pos]? = some x)
include h

/-- A statement that control goes on from. -/
theorem run_step (hnext : follow code pos (x.act S s).1 = some next) :
    run S code (n + 1) pos s = run S code n next (x.act S s).2 :=
  runFor_on (step_on h hnext)

/-- A statement that ends the run. -/
theorem run_stop (hnext : follow code pos (x.act S s).1 = none) :
    run S code (n + 1) pos s = some (x.act S s) :=
  runFor_stop (by simp only [step, h, hnext])

theorem ends_step (hnext : follow code pos (x.act S s).1 = some next)
    (hrest : Ends S code next (x.act S s).2 r) : Ends S code pos s r := by
  obtain ⟨n, hn⟩ := hrest
  exact ⟨n + 1, by rw [run_step h hnext, hn]⟩

theorem ends_stop (hnext : follow code pos (x.act S s).1 = none) : Ends S code pos s (x.act S s) :=
  ⟨1, run_stop h hnext⟩

end

/-- A run that ends has a first step. -/
theorem exists_succ_of_run (h : run S code n pos s = some r) : ∃ k, n = k + 1 := by
  cases n with
  | zero => cases h
  | succ n => exact ⟨n, rfl⟩

end

/-! ## Code that control runs through -/

/-- Runs statements one after another, if control runs on behind each. -/
def straight : Block → σ → Option σ
  | [], s => some s
  | x :: xs, s =>
    match x.act S s with
    | (.normal, t) => straight xs t
    | _ => none

section

variable {S} {s t : σ}

theorem straight_cons {x : Stmt} {xs : Block} (h : x.act S s = (.normal, t)) :
    straight S (x :: xs) s = straight S xs t := by
  rw [straight, h]

theorem straight_append {xs ys : Block} {u : σ} (h : straight S xs s = some t)
    (h' : straight S ys t = some u) : straight S (xs ++ ys) s = some u := by
  induction xs generalizing s with
  | nil =>
    cases h
    exact h'
  | cons x xs ih =>
    rw [straight] at h
    split at h
    · rename_i r hact
      rw [List.cons_append, straight_cons hact]
      exact ih h
    · cases h

/-- A run passes code that control runs through. -/
theorem leads_straight {code pre ss : Block} (hcode : pre ++ ss <+: code)
    (h : straight S ss s = some t) :
    Leads (step S code) ss.length (pre.length, s) ((pre ++ ss).length, t) := by
  induction ss generalizing pre s with
  | nil =>
    cases h
    rw [List.append_nil]
    exact .refl _
  | cons x xs ih =>
    rw [straight] at h
    split at h
    · rename_i r hact
      have hx : code[pre.length]? = some x := by
        obtain ⟨post, rfl⟩ := hcode
        simp
      have hon : step S code (pre.length, s) = .on ((pre ++ [x]).length, r) := by
        rw [step_on hx (by rw [hact]; rfl), hact, List.length_append]
        rfl
      have hassoc : pre ++ x :: xs = pre ++ [x] ++ xs := by simp
      rw [hassoc] at hcode ⊢
      exact (Leads.one hon).trans (ih hcode h)
    · cases h

end

/-! ## Labels -/

/-- No label stands at two places. -/
def UniqueLabels (code : Block) : Prop := ∀ l, code.count (.label l) ≤ 1

/-- The label that a statement puts at its position. -/
def placedLabel? : Stmt → Option Label
  | .label l => some l
  | _ => none

/-- It is enough to count the labels that stand somewhere. -/
instance {code : Block} : Decidable (UniqueLabels code) :=
  decidable_of_iff (∀ l ∈ code.filterMap placedLabel?, code.count (.label l) ≤ 1) <| by
    constructor
    · intro h l
      by_cases hmem : .label l ∈ code
      · exact h l (List.mem_filterMap.2 ⟨_, hmem, rfl⟩)
      · rw [List.count_eq_zero.2 hmem]
        exact Nat.zero_le _
    · exact fun h l _ => h l

variable {l : Label}

/-- The position of a label that stands at one place. -/
theorem position?_eq_some (hunique : UniqueLabels code) {p : Nat} (h : code[p]? = some (.label l)) :
    position? code l = some p := by
  have honce := hunique l
  clear hunique
  unfold position?
  induction code generalizing p with
  | nil => simp at h
  | cons y ys ih =>
    cases p with
    | zero =>
      simp only [List.getElem?_cons_zero, Option.some.injEq] at h
      simp [List.findIdx?_cons, h]
    | succ p =>
      rw [List.getElem?_cons_succ] at h
      have hpos : 0 < ys.count (.label l) := List.count_pos_iff.2 (List.mem_of_getElem? h)
      have hne : y ≠ .label l := by
        rintro rfl
        rw [List.count_cons_self] at honce
        omega
      rw [List.count_cons_of_ne hne] at honce
      simp [List.findIdx?_cons, hne, ih h honce]

theorem getElem?_of_position? {p : Nat} (h : position? code l = some p) :
    code[p]? = some (.label l) := by
  obtain ⟨hp, heq, _⟩ := List.findIdx?_eq_some_iff_getElem.1 h
  exact List.getElem?_eq_some_iff.2 ⟨hp, by simpa using heq⟩

theorem position?_eq_none_iff : position? code l = none ↔ .label l ∉ code := by
  rw [position?, List.findIdx?_eq_none_iff]
  constructor
  · intro h hmem
    simpa using h _ hmem
  · intro h x hx
    simp only [decide_eq_false_iff_not]
    rintro rfl
    exact h hx

/-- Only gotos end in a jump to a label. -/
theorem exists_goto_of_act {S : Semantics σ ν} {x : Stmt} {s : σ} (h : (x.act S s).1 = .jumping l) :
    ∃ c, x = .goto l c := by
  unfold Stmt.act at h
  split at h <;> (try split at h) <;> (try split at h) <;> cases h
  · exact ⟨_, rfl⟩
  · exact ⟨_, rfl⟩

/-! ## Code that does the same -/

/-- Each position of one code has a place in another where that does the same: a step is matched by
some number of steps. If that is none, the rank of the position goes down. -/
structure Mirrors (S : Semantics σ ν) (code code' : Block) (place rank : Nat → Nat) : Prop where
  off : ∀ i, code[i]? = none → code'[place i]? = none
  stop : ∀ i x s, code[i]? = some x → follow code i (x.act S s).1 = none →
    Ends S code' (place i) s (x.act S s)
  step : ∀ i x s next, code[i]? = some x → follow code i (x.act S s).1 = some next →
    ∃ k, (∀ n, run S code' (n + k) (place i) s = run S code' n (place next) (x.act S s).2) ∧
      (k = 0 → rank next < rank i)

section

variable {S : Semantics σ ν} {code' : Block} {place rank : Nat → Nat}
  (h : Mirrors S code code' place rank)
include h

theorem Mirrors.simulates :
    Simulates (Flat.step S code) (Flat.step S code') (fun c c' => c' = (place c.1, c.2)) (· = ·)
      (fun c => rank c.1) where
  stop := by
    rintro ⟨i, s⟩ _ r rfl hstep
    simp only [Flat.step] at hstep
    split at hstep
    · rename_i hx
      cases hstep
      exact ⟨1, _, run_off (h.off i hx), rfl⟩
    · rename_i x hx
      split at hstep
      · cases hstep
      · rename_i hnext
        cases hstep
        obtain ⟨n, hn⟩ := h.stop i x s hx hnext
        exact ⟨n, _, hn, rfl⟩
  on := by
    rintro ⟨i, s⟩ _ u rfl hstep
    simp only [Flat.step] at hstep
    split at hstep
    · cases hstep
    · rename_i x hx
      split at hstep
      · rename_i next hnext
        cases hstep
        obtain ⟨k, hk, hdown⟩ := h.step i x s next hx hnext
        exact ⟨k, _, hk, rfl, hdown⟩
      · cases hstep

/-- Code ends as its mirror does. -/
theorem Mirrors.ends_iff (i : Nat) (s : σ) (r : Exit ν × σ) :
    Ends S code i s r ↔ Ends S code' (place i) s r := by
  constructor
  · rintro ⟨n, hrun⟩
    obtain ⟨m, _, hm, rfl⟩ := h.simulates.forward rfl hrun
    exact ⟨m, hm⟩
  · rintro ⟨n, hrun⟩
    obtain ⟨m, _, hm, rfl⟩ := h.simulates.backward (s := (i, s)) rfl hrun
    exact ⟨m, hm⟩

end

end ByteLift.Flat
