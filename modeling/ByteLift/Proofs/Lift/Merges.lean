import ByteLift.Proofs.Lift.Emitted
import ByteLift.Proofs.Variables.Flat

/-!
# The temporaries of labels

A temporary that holds an entry of the stack at a label is made when it is first needed, and serves
one slot of one label ever after. The slots that have one are among those recorded at the label.
This holds in every state that the machine can come to, whatever code it runs.
-/

namespace ByteLift

open Lift (HasDepth)

namespace Machine

variable {m m' m'' : Machine}

/-- Each temporary of a label is in the table and serves one slot of one label, of those recorded
there. -/
structure MergesOnce (m : Machine) : Prop where
  size : ∀ p v, entered? p m.merges = some v → v.index < m.vars.size
  inj : ∀ p q v, entered? p m.merges = some v → entered? q m.merges = some v → p = q
  slots : ∀ l j v, entered? (l, j) m.merges = some v → ∃ depth, HasDepth m l depth ∧ j < depth

section

variable {l : Label} {temps : List Var} (hm : m.MergesOnce)
  (h : ∀ j v, temps[j]? = some v → entered? (l, j) m.merges = some v)
include hm h

theorem MergesOnce.nodup : temps.Nodup := by
  refine List.pairwise_iff_getElem.2 fun i j hi hj hij heq => ?_
  have hp := h i _ (List.getElem?_eq_getElem hi)
  have hq := h j _ (List.getElem?_eq_getElem hj)
  rw [heq] at hp
  have hpair := hm.inj _ _ _ hp hq
  simp only [Prod.mk.injEq, true_and] at hpair
  omega

theorem MergesOnce.index_lt {t : Var} (ht : t ∈ temps) : t.index < m.vars.size := by
  obtain ⟨i, hi⟩ := List.mem_iff_getElem?.1 ht
  exact hm.size _ t (h i t hi)

/-- Temporaries for all slots recorded at a label are all that the label has. -/
theorem MergesOnce.entered?_eq (hdepth : HasDepth m l temps.length) (j : Nat) :
    entered? (l, j) m.merges = temps[j]? := by
  cases hj : temps[j]? with
  | some v => exact h j v hj
  | none =>
    rw [List.getElem?_eq_none_iff] at hj
    refine Option.eq_none_iff_forall_ne_some.2 fun v hv => ?_
    obtain ⟨depth, hdepth', hlt⟩ := hm.slots l j v hv
    have heq := hdepth'.unique hdepth
    omega

end

/-- What running code does to the temporaries of labels: there may be more, all of them new
variables. -/
structure Merging (m m' : Machine) : Prop where
  size : m.vars.size ≤ m'.vars.size
  records : m.Records m'
  kept : ∀ p v, entered? p m.merges = some v → entered? p m'.merges = some v
  added : ∀ p v, entered? p m'.merges = some v → entered? p m.merges = some v ∨
    m.vars.size ≤ v.index
  once : m.MergesOnce → m'.MergesOnce

theorem Merging.of_merges (hmerges : m'.merges = m.merges) (hrecords : m.Records m')
    (hsize : m.vars.size ≤ m'.vars.size) : m.Merging m' := by
  refine ⟨hsize, hrecords, fun p v h => hmerges ▸ h, fun p v h => .inl (hmerges ▸ h),
    fun hm => ⟨?_, ?_, ?_⟩⟩
  · exact fun p v h => Nat.lt_of_lt_of_le (hm.size p v (hmerges ▸ h)) hsize
  · exact fun p q v hp hq => hm.inj p q v (hmerges ▸ hp) (hmerges ▸ hq)
  · intro l j v h
    obtain ⟨depth, hdepth, hj⟩ := hm.slots l j v (hmerges ▸ h)
    exact ⟨depth, hdepth.of_records hrecords, hj⟩

theorem Merging.of_eq (hmerges : m'.merges = m.merges) (hshapes : m'.shapes = m.shapes)
    (hsize : m.vars.size ≤ m'.vars.size) : m.Merging m' :=
  .of_merges hmerges (.of_eq hshapes) hsize

theorem MergesOnce.of_eq (hm : m.MergesOnce) (hmerges : m'.merges = m.merges)
    (hshapes : m'.shapes = m.shapes) (hsize : m.vars.size ≤ m'.vars.size) : m'.MergesOnce :=
  (Merging.of_eq hmerges hshapes hsize).once hm

theorem Merging.refl (m : Machine) : m.Merging m := .of_eq rfl rfl (Nat.le_refl _)

theorem Merging.trans (h : m.Merging m') (h' : m'.Merging m'') : m.Merging m'' where
  size := Nat.le_trans h.size h'.size
  records := h.records.trans h'.records
  kept p v hp := h'.kept p v (h.kept p v hp)
  added p v hp := (h'.added p v hp).elim (h.added p v) fun hv => .inr (Nat.le_trans h.size hv)
  once hm := h'.once (h.once hm)

/-- The temporaries of a label are looked up or made without a change to the stack or to what was
emitted. -/
structure Joins (m m' : Machine) : Prop extends m.Merging m' where
  stack : m'.stack = m.stack
  out : m'.out = m.out

theorem Joins.refl (m : Machine) : m.Joins m := ⟨.refl m, rfl, rfl⟩

theorem Joins.trans (h : m.Joins m') (h' : m'.Joins m'') : m.Joins m'' :=
  ⟨h.toMerging.trans h'.toMerging, h'.stack.trans h.stack, h'.out.trans h.out⟩

end Machine

namespace Lift

variable {α : Type} {c : Lift α} {env : Env} {m m' : Machine} {l : Label}

/-! ## Temporaries of one label -/

variable {slot depth : Nat} {ty : Ty}

/-- A slot of a label gets one temporary, which is entered for it. -/
theorem joins_mergeTemp {v : Var} (h : mergeTemp env l slot ty m = .ok v m')
    (hdepth : HasDepth m l depth)
    (hslot : slot < depth) : m.Joins m' ∧ entered? (l, slot) m'.merges = some v := by
  simp only [mergeTemp, bind_eq_ok, get_eq_ok] at h
  obtain ⟨_, m, ⟨rfl, rfl⟩, h⟩ := h
  cases hl : entered? (l, slot) m.merges with
  | some u =>
    simp only [hl, pure_eq_ok] at h
    obtain ⟨rfl, rfl⟩ := h
    exact ⟨.refl _, hl⟩
  | none =>
    simp only [hl, newTemp, bind_eq_ok, get_eq_ok, set_eq_ok, modify_eq_ok, pure_eq_ok] at h
    obtain ⟨_, _, ⟨_, m, ⟨rfl, rfl⟩, _, _, rfl, rfl, rfl⟩, _, _, rfl, rfl, rfl⟩ := h
    have hentered (p : Label × Nat) : entered? p (ByteLift.enter (l, slot) m.vars.next m.merges) =
        if p = (l, slot) then some m.vars.next else entered? p m.merges := entered?_enter _ _ _ _
    refine ⟨⟨⟨by simp, .of_eq rfl, fun p v hp => ?_, fun p v hp => ?_,
      fun hm => ⟨fun p v hp => ?_, ?_, ?_⟩⟩, rfl, rfl⟩, (hentered _).trans (if_pos rfl)⟩
    · rw [hentered, if_neg]
      · exact hp
      · rintro rfl
        rw [hl] at hp
        cases hp
    · rw [hentered] at hp
      split at hp
      · cases hp
        exact .inr (by simp)
      · exact .inl hp
    · rw [hentered] at hp
      simp only [VarTable.size_push]
      split at hp
      · cases hp
        simp
      · exact Nat.lt_succ_of_lt (hm.size p v hp)
    · -- The new temporary is none of the old ones, for these were in the table before.
      intro p q v hp hq
      rw [hentered] at hp hq
      have hnew {p : Label × Nat} {v : Var} (hv : entered? p m.merges = some v) :
        v ≠ m.vars.next := by
        rintro rfl
        have hlt := hm.size p _ hv
        simp at hlt
      split at hp
      · rename_i heq
        cases hp
        split at hq
        · rename_i heq'
          rw [heq, heq']
        · exact absurd rfl (hnew hq)
      · split at hq
        · cases hq
          exact absurd rfl (hnew hp)
        · exact hm.inj p q v hp hq
    · intro l' j v hp
      rw [hentered] at hp
      split at hp
      · rename_i heq
        cases heq
        exact ⟨depth, hdepth, hslot⟩
      · exact hm.slots l' j v hp

/-- Each slot of a label gets one temporary. -/
theorem joins_mergeTemps {ts : List Ty} {vs : List Var} (h : mergeTemps env l slot ts m = .ok vs m')
    (hdepth : HasDepth m l depth) (hslot : slot + ts.length ≤ depth) :
    m.Joins m' ∧ ∀ i v, vs[i]? = some v → entered? (l, slot + i) m'.merges = some v := by
  induction ts generalizing slot m vs with
  | nil =>
    obtain ⟨rfl, rfl⟩ := pure_eq_ok.1 h
    exact ⟨.refl _, by simp⟩
  | cons t ts ih =>
    simp only [mergeTemps, bind_eq_ok, pure_eq_ok] at h
    obtain ⟨v, m₁, hv, vs, _, hvs, rfl, rfl⟩ := h
    rw [List.length_cons] at hslot
    obtain ⟨hjoins, hmerge⟩ := joins_mergeTemp hv hdepth (by omega)
    obtain ⟨hjoins', hmerges⟩ := ih hvs (hdepth.of_records hjoins.records) (by omega)
    refine ⟨hjoins.trans hjoins', fun i u hu => ?_⟩
    cases i with
    | zero =>
      cases hu
      exact hjoins'.kept _ _ hmerge
    | succ i =>
      rw [Nat.add_comm i, ← Nat.add_assoc]
      exact hmerges i u hu

theorem joins_refine (h : refine env l slot ty m = .ok () m') (hdepth : HasDepth m l depth)
    (hslot : slot < depth) : m.Joins m' := by
  simp only [refine, bind_eq_ok, modify_eq_ok] at h
  obtain ⟨v, m₁, hv, rfl⟩ := h
  obtain ⟨hjoins, _⟩ := joins_mergeTemp hv hdepth hslot
  refine hjoins.trans ⟨.of_merges rfl (Machine.records_enter (fun old hold => ?_) rfl) (by simp),
    rfl, rfl⟩
  rw [hold, List.length_set]
  rfl

theorem joins_checkShape {pairs : List (Ty × Ty)} (h : checkShape env l slot pairs m = .ok () m')
    (hdepth : HasDepth m l depth) (hslot : slot + pairs.length ≤ depth) : m.Joins m' := by
  induction pairs generalizing slot m with
  | nil =>
    obtain ⟨_, rfl⟩ := pure_eq_ok.1 h
    exact .refl _
  | cons p pairs ih =>
    obtain ⟨found, want⟩ := p
    rw [List.length_cons] at hslot
    rw [checkShape] at h
    split at h
    · simp only [bind_eq_ok, mismatch_eq_ok, false_and, exists_false] at h
    · split at h
      · obtain ⟨_, m₁, hrefine, h⟩ := bind_eq_ok.1 h
        have hjoins := joins_refine hrefine hdepth (by omega)
        exact hjoins.trans (ih h (hdepth.of_records hjoins.records) (by omega))
      · exact ih h hdepth (by omega)

theorem joins_joinShape {shape : List Ty} (h : joinShape env l shape m = .ok () m') :
    m.Joins m' := by
  rcases joinShape_eq_ok h with ⟨recorded, hl, hlen, h⟩ | ⟨hl, rfl⟩
  · exact joins_checkShape h ⟨recorded, hl, rfl⟩ (by simp only [List.length_zip]; omega)
  · refine ⟨.of_merges rfl (Machine.records_enter (fun old hold => ?_) rfl) (Nat.le_refl _),
      rfl, rfl⟩
    rw [hl] at hold
    cases hold

/-! ## Steps -/

/-- Steps that treat the temporaries of labels well. -/
def Merges (c : Lift α) : Prop := ∀ m a m', c m = .ok a m' → m.Merging m'

instance : IsPreorder Machine Machine.Merging where
  refl := .refl
  trans _ _ _ := .trans

theorem spilling_merging : Spilling (fun _ => True) Machine.Merging where
  out _ _ _ := .of_eq rfl rfl (Nat.le_refl _)
  declare _ _ _ := .of_eq rfl rfl (by simp)

theorem merges_spillStack (chosen : Nat → Expr → Bool) : Merges (spillStack env chosen) :=
  (spilling_merging.spillStack (fun _ _ => .of_eq rfl rfl (Nat.le_refl _)) chosen).relates

/-! ## Passing control -/

/-- What going to a label does before entries that conflict are spilled and all are stored. -/
theorem flowTo_eq_ok (h : flowTo env l m = .ok () m') :
    ∃ m₁ m₂ temps, m.Joins m₁ ∧ temps.length = m.stack.length ∧
      (∀ i v, temps[i]? = some v → entered? (l, i) m₁.merges = some v) ∧
      HasDepth m₁ l m.stack.length ∧
      spillStack env (conflicts m.stack.reverse temps) m₁ = .ok () m₂ ∧
      m' = { m₂ with out := m₂.out ++ moves m₂.stack.reverse temps } := by
  simp only [flowTo, bind_eq_ok, get_eq_ok, append_eq_ok] at h
  obtain ⟨_, m, ⟨rfl, rfl⟩, _, m₁, hjoin, temps, _, htemps, _, m₂, ⟨rfl, rfl⟩, _, _, hspill, _,
    m₃, ⟨rfl, rfl⟩, rfl⟩ := h
  have hdepth := (level_joinShape hjoin).2
  obtain ⟨hjoins, hmerges⟩ := joins_mergeTemps htemps hdepth (by omega)
  have hboth := (joins_joinShape hjoin).trans hjoins
  rw [List.length_map, List.length_reverse] at hdepth
  refine ⟨m₂, m₃, temps, hboth, ?_, fun i v hv => ?_, hdepth.of_records hjoins.records, ?_, rfl⟩
  · rw [length_mergeTemps htemps, List.length_map, List.length_reverse]
  · have hp := hmerges i v hv
    rwa [Nat.zero_add] at hp
  · rw [← hboth.stack]
    exact hspill

theorem merges_flowTo (l : Label) : Merges (flowTo env l) := by
  intro m a m' h
  obtain ⟨m₁, m₂, temps, hjoins, _, _, _, hspill, rfl⟩ := flowTo_eq_ok h
  exact hjoins.toMerging.trans ((merges_spillStack _ _ _ _ hspill).trans
    (.of_eq rfl rfl (Nat.le_refl _)))

theorem merges_passLabel (l : Label) : Merges (passLabel env l) := by
  intro m a m' h
  simp only [passLabel, bind_eq_ok, append_eq_ok, get_eq_ok, modify_eq_ok] at h
  obtain ⟨_, _, rfl, _, _, ⟨rfl, rfl⟩, _, _, rfl, temps, m₂, htemps, rfl⟩ := h
  generalize hshape : (entered? l m.shapes).getD [] = shape at htemps
  obtain ⟨hjoins, _⟩ := joins_mergeTemps htemps
    ⟨shape, (entered?_enter l l shape m.shapes).trans (if_pos rfl), rfl⟩ (by omega)
  have hlabel :
    m.Merging { m with out := m.out ++ [.label l], shapes := ByteLift.enter l shape m.shapes } :=
    .of_merges rfl (Machine.records_enter (fun old hold => by rw [← hshape, hold]; rfl) rfl)
      (Nat.le_refl _)
  have hstack : m₂.Merging { m₂ with stack := (temps.map Expr.var).reverse } :=
    .of_eq rfl rfl (Nat.le_refl _)
  exact hlabel.trans (hjoins.toMerging.trans hstack)

theorem tracks_merging : Tracks env (fun _ => True) Machine.Merging where
  toSpilling := spilling_merging
  stack _ _ := .of_eq rfl rfl (Nat.le_refl _)
  asked _ _ := .of_eq rfl rfl (Nat.le_refl _)
  flowTo := merges_flowTo

theorem merges_goto (target : Address) : Merges (goto env target) :=
  (tracks_merging.goto fun _ _ => trivial).relates

theorem merges_cases (key : Expr) (table : List (Int32 × Address)) : Merges (cases env key table) :=
  (tracks_merging.cases table (fun _ _ _ _ => trivial) unknown).relates

/-! ## Instructions -/

theorem merges_step (i : Instruction) : Merges (step env i) :=
  (tracks_merging.step i (fun _ _ _ _ => trivial) fun kind slot _ =>
    (tracks_merging.storeLocal (fun _ _ => .of_eq rfl rfl (Nat.le_refl _))
      (fun _ _ _ => .of_eq rfl rfl (by simp))
      kind slot).relates).relates

theorem merges_enter (runsOn : Bool) (i : Addressed) : Merges (enter env runsOn i) :=
  (tracks_merging.enter (fun _ _ => .of_eq rfl rfl (Nat.le_refl _)) merges_passLabel
    runsOn i).relates

/-! ## The states that the machine comes to -/

/-- The states that the machine can come to, whatever code it runs: before each instruction a label
may stand, and any may follow any other. The parameters are in the table at the start. -/
inductive Reached (env : Env) : Machine → Prop
  | start (vars : VarTable) :
  (∀ v ∈ env.params, v.index < vars.size) → Reached env (.start env vars)
  | enter {m m' : Machine} (runsOn : Bool) (i : Addressed) :
      Reached env m → Lift.enter env runsOn i m = .ok () m' → Reached env m'
  | step {m m' : Machine} (i : Instruction) :
    Reached env m → Lift.step env i m = .ok () m' → Reached env m'

/-- Running the instructions of a method comes to such states only. -/
theorem Reached.run {runsOn : Bool} {items : List (Addressed × Bool)} (hm : Reached env m)
    (h : Lift.run env runsOn items m = .ok () m') : Reached env m' := by
  replace h := runs_of_run h
  induction h with
  | done => exact hm
  | skip _ ih => exact ih hm
  | lift henter hstep _ ih => exact ih (.step _ (.enter _ _ hm henter) hstep)

theorem Reached.mergesOnce (h : Reached env m) : m.MergesOnce := by
  induction h with
  | start vars => exact ⟨nofun, nofun, nofun⟩
  | enter runsOn i _ henter ih => exact (merges_enter runsOn i _ _ _ henter).once ih
  | step i _ hstep ih => exact (merges_step i _ _ _ hstep).once ih

/-- All variables that the machine knows of are in its table. -/
theorem Reached.within (h : Reached env m) {n : Nat} (hn : m.vars.size ≤ n) : m.Within n := by
  induction h with
  | start vars hparams =>
    exact Machine.within_start fun v hv => Nat.lt_of_lt_of_le (hparams v hv) hn
  | enter runsOn i _ henter ih =>
    obtain ⟨hsize, hwithin⟩ := (behaves_enter runsOn i).2 _ _ _ henter
    exact (hwithin n hn (ih (Nat.le_trans hsize hn)) trivial).1
  | step i _ hstep ih =>
    obtain ⟨hsize, hwithin⟩ := (behaves_step i).2 _ _ _ hstep
    exact (hwithin n hn (ih (Nat.le_trans hsize hn)) trivial).1

end Lift

end ByteLift
