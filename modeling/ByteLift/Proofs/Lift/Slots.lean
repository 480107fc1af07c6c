import ByteLift.Proofs.Lift.Emitted
import ByteLift.Proofs.Variables.Flat
import Mathlib.Data.Nat.Find

/-!
# The variables of local slots

A local slot has one variable for each kind of values, so what is stored on the paths that lead to a
join is there behind it. There is one exception: a store to the slot of `this` forgets what the slot
held, each time, so two such stores assign two variables, and what the first stores is lost at a
join.
-/

namespace ByteLift

namespace Lift

/-! ## What is done at each instruction -/

/-- The states before and behind an instruction that was lifted. -/
structure Stage where
  before : Machine
  behind : Machine

/-- The last statement that was emitted for an instruction assigns a variable. The statements are
those of the whole block. -/
def Stage.Assigns (stage : Stage) (block : Block) (v : Var) : Prop :=
  ∃ k e, stage.before.out.length ≤ k ∧ k + 1 = stage.behind.out.length ∧ block[k]? = some (.set v e)

/-- Lifting an instruction puts a read of a variable on the stack. -/
def Stage.Reads (stage : Stage) (v : Var) : Prop :=
  stage.behind.stack = .var v :: stage.before.stack

/-- The stages of lifting instructions: one for each of them, if control reaches it. -/
def stages (env : Env) (runsOn : Bool) : List (Addressed × Bool) → Machine → List (Option Stage)
  | [], _ => []
  | (_, false) :: rest, m => none :: stages env false rest m
  | (i, true) :: rest, m =>
    match enter env runsOn i m with
    | .error .. => []
    | .ok _ m₁ =>
      match step env i.instruction m₁ with
      | .error .. => []
      | .ok _ m₂ => some ⟨m₁, m₂⟩ :: stages env (!i.instruction.endsFlow) rest m₂

/-- Control reaches the instruction at a position of a list. -/
def Reaches (items : List (Addressed × Bool)) (p : Nat) (i : Instruction) : Prop :=
  ∃ address, items[p]? = some (⟨address, i⟩, true)

/-- The stage of the instruction at a position is of a kind. -/
def StageAt (stages : List (Option Stage)) (p : Nat) (P : Stage → Prop) : Prop :=
  ∃ stage, stages[p]? = some (some stage) ∧ P stage

/-- All stores to a local assign one variable, and it is what the loads behind any of them read. -/
structure Shared (items : List (Addressed × Bool)) (stages : List (Option Stage))
    (block : Block) (slot : Nat) (kind : LocalKind) (v : Var) : Prop where
  stores : ∀ p, Reaches items p (.store kind slot) → StageAt stages p (·.Assigns block v)
  loads : ∀ p q, p < q → Reaches items p (.store kind slot) → Reaches items q (.load kind slot) →
    StageAt stages q (·.Reads v)

/-- Stores to this local end its being `this`. -/
def EndsThis (env : Env) (slot : Nat) (kind : LocalKind) : Prop :=
  env.isStatic = false ∧ slot = 0 ∧ kind = .reference

variable {env : Env} {runsOn : Bool} {items rest : List (Addressed × Bool)} {i : Addressed}
  {m m₁ m₂ m' final : Machine} {slot p n : Nat} {kind : LocalKind} {u v : Var}
  {j : Instruction} {κ α : Type} {ty : Ty}

theorem reaches_zero : Reaches ((i, true) :: rest) 0 j ↔ i.instruction = j := by
  constructor
  · rintro ⟨address, h⟩
    cases h
    rfl
  · rintro rfl
    exact ⟨i.address, rfl⟩

theorem not_reaches_zero : ¬ Reaches ((i, false) :: rest) 0 j := nofun

theorem reaches_drop : Reaches (items.drop n) p j ↔ Reaches items (n + p) j := by
  simp only [Reaches, List.getElem?_drop]

theorem stageAt_drop {stages : List (Option Stage)} {P : Stage → Prop} :
    StageAt (stages.drop n) p P ↔ StageAt stages (n + p) P := by
  simp only [StageAt, List.getElem?_drop]

/-! ## What leaves the locals alone -/

/-- The locals are the same in two states. -/
def SameLocals (m m' : Machine) : Prop := m'.locals = m.locals

instance : IsPreorder Machine SameLocals where
  refl _ := rfl
  trans _ _ _ h h' := h'.trans h

theorem fills_sameLocals : Fills (fun _ => True) SameLocals where
  out _ _ _ := rfl
  declare _ _ _ := rfl
  stack _ _ := rfl
  asked _ _ := rfl
  retype _ _ _ := rfl
  merges _ _ := rfl
  shapes _ _ := rfl

theorem locals_emit {e : Expr} {writes : Option Var} {effects : Bool}
    (h : emit env (.expr e) writes effects m = .ok () m') :
    m'.locals = m.locals ∧ m.vars.size ≤ m'.vars.size := by
  have hemit :
    Behaves SameLocals (fun _ => False) (emit env (.expr e) writes effects) fun _ _ => True :=
    fills_sameLocals.tracks.emitExpr writes effects unknown
  exact ⟨hemit.1 _ _ _ h, (hemit.2 _ _ _ h).1⟩

theorem locals_enter (h : enter env runsOn i m = .ok () m₁) : m₁.locals = m.locals :=
  (fills_sameLocals.tracks.enter (fun _ _ => rfl)
    (fun l => (fills_sameLocals.passLabel (fun _ _ => rfl) l).relates)
    runsOn i).relates _ _ _ h

theorem locals_step (h : step env j m = .ok () m') (hj : ∀ kind slot, j ≠ .store kind slot) :
    m'.locals = m.locals :=
  (fills_sameLocals.tracks.step j (fun _ _ _ _ => trivial) fun kind slot h =>
    absurd h (hj kind slot)).relates _ _ _ h

/-! ## Stores -/

theorem entered?_filter_of_ne [DecidableEq κ] {key k : κ} {entries : List (κ × α)} (h : k ≠ key) :
    entered? k (entries.filter fun e => e.1 ≠ key) = entered? k entries := by
  unfold entered?
  rw [List.find?_filter]
  congr 2
  funext e
  by_cases he : e.1 = k
  · simp [he, h]
  · simp [he]

theorem entered?_filter_self [DecidableEq κ] (key : κ) (entries : List (κ × α)) :
    entered? key (entries.filter fun e => e.1 ≠ key) = none := by
  unfold entered?
  rw [List.find?_filter, List.find?_eq_none.2, Option.map_none]
  intro e _ he
  simp_all

/-- What choosing the variable of a local does to the locals. -/
structure Chooses (m m' : Machine) (key : Nat × LocalKind) (v : Var) : Prop where
  entered : entered? key m'.locals = some (.var v)
  others : ∀ k, k ≠ key → entered? k m'.locals = entered? k m.locals
  same : ∀ u, entered? key m.locals = some (.var u) → v = u
  fresh : entered? key m.locals = none → m.vars.size = v.index ∧ v.index < m'.vars.size
  size : m.vars.size ≤ m'.vars.size
  out : m'.out = m.out

theorem chooses_localForStore (h : localForStore slot kind ty m = .ok v m') :
    Chooses m m' (slot, kind) v := by
  rcases localForStore_cases h with ⟨hk, hm'⟩ | ⟨hnone, rfl, decl, _, rfl⟩
  · have hsame (u : Var) (hu : entered? (slot, kind) m.locals = some (.var u)) : v = u := by
      simpa [hk] using hu
    rcases hm' with rfl | ⟨_, rfl⟩
    · exact ⟨hk, fun _ _ => rfl, hsame, by simp [hk], Nat.le_refl _, rfl⟩
    · exact ⟨hk, fun _ _ => rfl, hsame, by simp [hk], by simp, rfl⟩
  · refine ⟨?_, fun k hk => ?_, fun u hu => absurd hu (hnone u), fun _ => ?_, ?_, rfl⟩
    · rw [Machine.entered?_withLocal, if_pos rfl]
    · rw [Machine.entered?_withLocal, if_neg hk]
    · simp [Machine.withLocal]
    · simp [Machine.withLocal]

/-- What a store does: it assigns the variable of its local, and no other local has another variable
afterwards. -/
structure Stores (env : Env) (m m' : Machine) (slot : Nat) (kind : LocalKind) (v : Var) : Prop where
  entered : entered? (slot, kind) m'.locals = some (.var v)
  others : ∀ k, k ≠ (slot, kind) → entered? k m'.locals = entered? k m.locals
  /-- A local keeps its variable, unless the store ends its being `this`. -/
  same : ¬ EndsThis env slot kind → ∀ u, entered? (slot, kind) m.locals = some (.var u) → v = u
  /-- A store that ends a local's being `this` makes a variable. -/
  fresh : EndsThis env slot kind → m.vars.size ≤ v.index ∧ v.index < m'.vars.size
  size : m.vars.size ≤ m'.vars.size
  assigns : ∃ ss e, m'.out = m.out ++ ss ++ [.set v e]

/-- Emitting adds to the state that a variable was chosen in, and leaves the locals alone. -/
theorem chooses_and_emits {m₀ : Machine} {ty : Ty} {value : Expr} (h : (do
      let v ← localForStore slot kind ty
      let stored := value.coerce ((← get).vars.ty v)
      emit env (.set v stored) (some v) (!value.isPure)) m₀ = .ok () m') :
    ∃ v m₁, Chooses m₀ m₁ (slot, kind) v ∧ m'.locals = m₁.locals ∧ m₁.vars.size ≤ m'.vars.size ∧
      ∃ ss e, m'.out = m₀.out ++ ss ++ [.set v e] := by
  simp only [bind_eq_ok, get_eq_ok] at h
  obtain ⟨v, _, hv, _, m₁, ⟨rfl, rfl⟩, h⟩ := h
  have hchooses := chooses_localForStore hv
  obtain ⟨hlocals, hsize⟩ := locals_emit h
  obtain ⟨m₂, hspill, rfl⟩ := emit_eq_ok h
  obtain ⟨ss, hss, _⟩ : m₁.Appends (fun _ => True) [] m₂ :=
    (fills_appends.spillStack fills_appends.stack _).relates _ _ _ hspill
  refine ⟨v, m₁, hchooses, hlocals, hsize, ss, value.coerce (m₁.vars.ty v), ?_⟩
  rw [← hchooses.out, hss]

/-- Every store to a slot assigns some variable. -/
theorem exists_stores (h : step env (.store kind slot) m = .ok () m') :
    ∃ v, Stores env m m' slot kind v := by
  simp only [step, storeLocal, bind_eq_ok, pop_eq_ok, get_eq_ok] at h
  obtain ⟨value, _, ⟨st, hst, rfl⟩, _, _, ⟨rfl, rfl⟩, h⟩ := h
  by_cases hends : EndsThis env slot kind
  · obtain ⟨hstatic, rfl, rfl⟩ := hends
    rw [if_pos (by simp [hstatic])] at h
    obtain ⟨_, m₀, hm₀, h⟩ := bind_eq_ok.1 h
    obtain rfl := modify_eq_ok.1 hm₀
    obtain ⟨v, m₁, hchooses, hlocals, hle, hassigns⟩ := chooses_and_emits h
    obtain ⟨hindex, hlt⟩ := hchooses.fresh (entered?_filter_self _ _)
    refine ⟨v, hlocals ▸ hchooses.entered, fun k hk => ?_,
      fun hno => absurd ⟨hstatic, rfl, rfl⟩ hno,
      fun _ => ⟨Nat.le_of_eq hindex, Nat.lt_of_lt_of_le hlt hle⟩,
      Nat.le_trans hchooses.size hle, hassigns⟩
    rw [hlocals, hchooses.others k hk]
    exact entered?_filter_of_ne hk
  · rw [if_neg (by simpa [EndsThis, and_comm, and_left_comm, and_assoc] using hends)] at h
    obtain ⟨v, m₁, hchooses, hlocals, hle, hassigns⟩ := chooses_and_emits h
    refine ⟨v, hlocals ▸ hchooses.entered, fun k hk => ?_, fun _ => hchooses.same,
      fun h => absurd h hends, Nat.le_trans hchooses.size hle, hassigns⟩
    rw [hlocals, hchooses.others k hk]

/-- What a store assigns is found in the whole block. -/
theorem Stores.stage_assigns (h : Stores env m₁ m₂ slot kind v) (hout : m₂.out <+: final.out) :
    Stage.Assigns ⟨m₁, m₂⟩ final.out v := by
  obtain ⟨ss, e, hss⟩ := h.assigns
  obtain ⟨later, hlater⟩ := hout
  refine ⟨(m₁.out ++ ss).length, e, ?_, ?_, ?_⟩
  · simp
  · simp [hss, Nat.add_assoc]
  · rw [← hlater, hss]
    simp

theorem Stage.Assigns.unique {stage : Stage} {block : Block} (h : stage.Assigns block u)
    (h' : stage.Assigns block v) : u = v := by
  obtain ⟨k, e, _, hk, hu⟩ := h
  obtain ⟨k', e', _, hk', hv⟩ := h'
  obtain rfl : k = k' := by omega
  rw [hu] at hv
  cases hv
  rfl

/-! ## Runs -/

theorem stages_cons_reached (henter : enter env runsOn i m = .ok () m₁)
    (hstep : step env i.instruction m₁ = .ok () m₂) :
    stages env runsOn ((i, true) :: rest) m =
      some ⟨m₁, m₂⟩ :: stages env (!i.instruction.endsFlow) rest m₂ := by
  simp only [stages, henter, hstep]

theorem load_reads (h : step env (.load kind slot) m₁ = .ok () m₂)
    (hv : entered? (slot, kind) m₁.locals = some (.var v)) : Stage.Reads ⟨m₁, m₂⟩ v := by
  simp only [step, loadLocal, bind_eq_ok, get_eq_ok, push_eq_ok] at h
  obtain ⟨e, _, ⟨_, m, ⟨rfl, rfl⟩, he⟩, rfl⟩ := h
  simp only [hv, pure_eq_ok] at he
  obtain ⟨rfl, rfl⟩ := he
  rfl

/-- A local that has a variable keeps it behind every instruction, apart from stores that end its
being `this`. -/
theorem entered_step (h : step env j m = .ok () m')
    (hv : entered? (slot, kind) m.locals = some (.var v))
    (hj : EndsThis env slot kind → j ≠ .store kind slot) :
    entered? (slot, kind) m'.locals = some (.var v) := by
  by_cases hstore : ∃ kind' slot', j = .store kind' slot'
  · obtain ⟨kind', slot', rfl⟩ := hstore
    obtain ⟨w, hstores⟩ := exists_stores h
    by_cases hkey : (slot, kind) = (slot', kind')
    · cases hkey
      have hends : ¬ EndsThis env slot kind := fun hends => hj hends rfl
      rw [hstores.entered, hstores.same hends v hv]
    · rw [hstores.others _ hkey, hv]
  · rw [locals_step h fun kind slot h => hstore ⟨kind, slot, h⟩, hv]

section

variable (h : Runs env final runsOn items m)
include h

/-- From a state in which a local has a variable, all stores assign it and all loads read it, unless
a store ends the local's being `this`. -/
theorem shares_of_entered (hv : entered? (slot, kind) m.locals = some (.var v))
    (hkeeps : EndsThis env slot kind → ∀ p, ¬ Reaches items p (.store kind slot)) :
    (∀ p, Reaches items p (.store kind slot) →
      StageAt (stages env runsOn items m) p (·.Assigns final.out v)) ∧
      ∀ p, Reaches items p (.load kind slot) →
      StageAt (stages env runsOn items m) p (·.Reads v) := by
  induction h with
  | done => exact ⟨nofun, nofun⟩
  | skip _ ih =>
    obtain ⟨hstores, hloads⟩ := ih hv fun hends p => hkeeps hends (p + 1)
    constructor <;> rintro (_ | p) hp
    · exact absurd hp not_reaches_zero
    · exact hstores p hp
    · exact absurd hp not_reaches_zero
    · exact hloads p hp
  | @lift _ _ _ _ m₁ m₂ henter hstep hrest ih =>
    have hv₁ : entered? (slot, kind) m₁.locals = some (.var v) := by
      rw [locals_enter henter, hv]
    have hv₂ : entered? (slot, kind) m₂.locals = some (.var v) :=
      entered_step hstep hv₁ fun hends hstore => hkeeps hends 0 (reaches_zero.2 hstore)
    obtain ⟨hstores, hloads⟩ := ih hv₂ fun hends p => hkeeps hends (p + 1)
    rw [stages_cons_reached henter hstep]
    constructor <;> rintro (_ | p) hp
    · rw [reaches_zero.1 hp] at hstep
      obtain ⟨w, hw⟩ := exists_stores hstep
      obtain rfl : w = v := by simpa [hw.entered] using hv₂
      exact ⟨_, rfl, hw.stage_assigns hrest.isPrefix_out⟩
    · exact hstores p hp
    · rw [reaches_zero.1 hp] at hstep
      exact ⟨_, rfl, load_reads hstep hv₁⟩
    · exact hloads p hp

/-- A run comes to each instruction that control reaches, and goes on behind it. -/
theorem Runs.stage (hp : Reaches items p j) :
    ∃ m₁ m₂ b, step env j m₁ = .ok () m₂ ∧ Runs env final b (items.drop (p + 1)) m₂ ∧
      m.vars.size ≤ m₁.vars.size ∧ (stages env runsOn items m)[p]? = some (some ⟨m₁, m₂⟩) ∧
      (stages env runsOn items m).drop (p + 1) = stages env b (items.drop (p + 1)) m₂ := by
  induction h generalizing p with
  | done =>
    obtain ⟨_, hp⟩ := hp
    cases hp
  | skip _ ih =>
    cases p with
    | zero => exact absurd hp not_reaches_zero
    | succ p => exact ih hp
  | lift henter hstep hrest ih =>
    have hsize := ((behaves_enter _ _).2 _ _ _ henter).1
    rw [stages_cons_reached henter hstep]
    cases p with
    | zero => exact ⟨_, _, _, reaches_zero.1 hp ▸ hstep, hrest, hsize, rfl, rfl⟩
    | succ p =>
      obtain ⟨m₃, m₄, b, hstep', hrest', hsize', hstages⟩ := ih hp
      have hsize₁ := ((behaves_step _).2 _ _ _ hstep).1
      exact ⟨m₃, m₄, b, hstep', hrest', Nat.le_trans hsize (Nat.le_trans hsize₁ hsize'), hstages⟩

/-- Whatever a local holds at the start, the stores assign one variable and the loads behind them
read it, unless there are two stores that end the local's being `this`. -/
theorem exists_shared (honce : EndsThis env slot kind →
      ∀ p q, Reaches items p (.store kind slot) → Reaches items q (.store kind slot) → p = q) :
    ∃ v, Shared items (stages env runsOn items m) final.out slot kind v := by
  classical
  by_cases hany : ∃ p, Reaches items p (.store kind slot)
  · -- The first store fixes the variable.
    obtain ⟨p, hp, hfirst⟩ :
      ∃ p, Reaches items p (.store kind slot) ∧ ∀ q < p, ¬ Reaches items q (.store kind slot) :=
      ⟨Nat.find hany, Nat.find_spec hany, fun _ => Nat.find_min hany⟩
    obtain ⟨m₁, m₂, b, hstep, hrest, _, hstage, hlater⟩ := h.stage hp
    obtain ⟨v, hv⟩ := exists_stores hstep
    obtain ⟨hstores, hloads⟩ := shares_of_entered hrest hv.entered fun hends q hq => by
      have heq := honce hends _ _ (reaches_drop.1 hq) hp
      omega
    rw [← hlater] at hstores hloads
    refine ⟨v, fun q hq => ?_, fun q r hlt hq hr => ?_⟩
    · rcases Nat.lt_trichotomy q p with hlt | rfl | hlt
      · exact absurd hq (hfirst q hlt)
      · exact ⟨_, hstage, hv.stage_assigns hrest.isPrefix_out⟩
      · obtain ⟨k, rfl⟩ := Nat.exists_eq_add_of_le hlt
        exact stageAt_drop.1 (hstores k (reaches_drop.2 hq))
    · have hle : p ≤ q := Nat.le_of_not_lt fun hlt => hfirst q hlt hq
      obtain ⟨k, rfl⟩ := Nat.exists_eq_add_of_le (Nat.lt_of_le_of_lt hle hlt)
      exact stageAt_drop.1 (hloads k (reaches_drop.2 hr))
  · exact ⟨⟨0⟩, fun p hp => absurd ⟨p, hp⟩ hany, fun p _ _ hp => absurd ⟨p, hp⟩ hany⟩

/-- A store that ends a local's being `this` assigns a variable that was not there before. -/
theorem assigns_fresh (hends : EndsThis env slot kind) (hp : Reaches items p (.store kind slot)) :
    ∃ v, StageAt (stages env runsOn items m) p (·.Assigns final.out v) ∧ m.vars.size ≤ v.index := by
  obtain ⟨m₁, m₂, b, hstep, hrest, hsize, hstage, _⟩ := h.stage hp
  obtain ⟨v, hv⟩ := exists_stores hstep
  exact ⟨v, ⟨_, hstage, hv.stage_assigns hrest.isPrefix_out⟩, Nat.le_trans hsize (hv.fresh hends).1⟩

/-- Two stores that end a local's being `this` assign two variables. -/
theorem assigns_distinct {q : Nat} (hends : EndsThis env slot kind)
    (hpq : p < q) (hp : Reaches items p (.store kind slot))
    (hq : Reaches items q (.store kind slot)) :
    ¬ ∃ v, StageAt (stages env runsOn items m) p (·.Assigns final.out v) ∧
      StageAt (stages env runsOn items m) q (·.Assigns final.out v) := by
  obtain ⟨m₁, m₂, b, hstep, hrest, _, hstage, hlater⟩ := h.stage hp
  obtain ⟨k, rfl⟩ : ∃ k, q = p + 1 + k := Nat.exists_eq_add_of_le hpq
  rintro ⟨v, ⟨_, hstage', hv⟩, hlast⟩
  rw [← stageAt_drop, hlater] at hlast
  obtain ⟨stage, hstage'', hv'⟩ := hlast
  cases hstage.symm.trans hstage'
  obtain ⟨w, hw⟩ := exists_stores hstep
  obtain rfl := hv.unique (hw.stage_assigns hrest.isPrefix_out)
  obtain ⟨u, ⟨_, hstage, hu⟩, hle⟩ := assigns_fresh hrest hends (reaches_drop.2 hq)
  cases hstage''.symm.trans hstage
  obtain rfl := hv'.unique hu
  exact absurd (hw.fresh hends).2 (Nat.not_lt_of_le hle)

end

end Lift

/-! ## Methods -/

/-- The stages of lifting a method's code. -/
def Context.stages (ctx : Context) (code : Code) (vars : VarTable) (labels : LabelTable) :
    List (Option Lift.Stage) :=
  match code.flow labels with
  | .error _ => []
  | .ok (flow, _) =>
    Lift.stages (ctx.env code flow) true (code.instructions.zip flow.reachable)
      (Machine.start (ctx.env code flow) vars)

/-- In lifted code, the stores of one kind to one slot assign one variable, and the loads behind
them read it. Only where references are stored to the slot of `this` more than once, there is no
such variable. -/
theorem exists_shared_iff {ctx : Context} {code : Code} {vars : VarTable} {labels : LabelTable}
    {flat : FlatCode}
    (h : (FlatCode.ofCode ctx code vars labels).1 = .ok flat) (slot : Nat) (kind : LocalKind) :
    (∃ v, Lift.Shared (code.instructions.zip code.reachable) (ctx.stages code vars labels)
      flat.block slot kind v) ↔
      (ctx.isStatic = false → slot = 0 → kind = .reference →
        ∀ p q, Lift.Reaches (code.instructions.zip code.reachable) p (.store kind slot) →
          Lift.Reaches (code.instructions.zip code.reachable) q (.store kind slot) → p = q) := by
  obtain ⟨flow, table, final, hflow, hrun, rfl⟩ := FlatCode.ofCode_eq_ok h
  have hrun := Lift.runs_of_run hrun
  have hstages : ctx.stages code vars labels =
      Lift.stages (ctx.env code flow) true (code.instructions.zip flow.reachable)
        (Machine.start (ctx.env code flow) vars) := by
    rw [Context.stages, hflow]
  rw [hstages, ← (Code.hasFlow_of_flow hflow).reachable]
  constructor
  · rintro ⟨v, hstores, _⟩ hstatic hslot hkind p q hp hq
    have hends : Lift.EndsThis (ctx.env code flow) slot kind := ⟨hstatic, hslot, hkind⟩
    rcases Nat.lt_trichotomy p q with hlt | heq | hlt
    · exact absurd ⟨v, hstores p hp, hstores q hq⟩ (Lift.assigns_distinct hrun hends hlt hp hq)
    · exact heq
    · exact absurd ⟨v, hstores q hq, hstores p hp⟩ (Lift.assigns_distinct hrun hends hlt hq hp)
  · intro honce
    exact Lift.exists_shared hrun fun hends => honce hends.1 hends.2.1 hends.2.2

/-- An instance method with a `boolean` and a reference, of a class without members. -/
def ofFlagAndObject : Context where
  cls := default
  isStatic := false
  returnType := .object
  params := [⟨0⟩, ⟨1⟩]
  field _ _ := default
  method _ _ := default

/-- `return a ? b : null`, where the result is stored to the slot of `this` on each way. -/
def resultInThis : Code :=
  .sequential 3 [.load .int 1, .ifZero .eq 5, .load .reference 2, .store .reference 0,
    .goto 7, .aconstNull, .store .reference 0, .load .reference 0, .methodReturn (some .reference)]

/-- The variables of a method with two parameters, a `boolean` and a reference. -/
def flagAndObject : VarTable :=
  (VarTable.empty.push
    { ty := .boolean, name := "a", synthetic := false, parameter := true,
      isFinal := false, slot := some 1 }).push
    { ty := .object, name := "b", synthetic := false, parameter := true,
      isFinal := false, slot := some 2 }

/-- The two ways of `resultInThis` assign two variables. What is returned where they join is the
variable of the second one, so a `b` that was stored on the first is lost. -/
theorem not_shared_resultInThis :
    ∃ flat, (FlatCode.ofCode ofFlagAndObject resultInThis flagAndObject .empty).1 = .ok flat ∧
      flat.block = [.goto ⟨0⟩ (some (.not (.var ⟨0⟩))), .set ⟨2⟩ (.var ⟨1⟩),
        .goto ⟨1⟩ none, .label ⟨0⟩, .set ⟨3⟩ .null, .label ⟨1⟩, .ret (some (.var ⟨3⟩))] ∧
      ¬ ∃ v, Lift.Shared (resultInThis.instructions.zip resultInThis.reachable)
        (ofFlagAndObject.stages resultInThis flagAndObject .empty) flat.block 0 .reference v := by
  have hok : ((FlatCode.ofCode ofFlagAndObject resultInThis flagAndObject .empty).1.map
      FlatCode.block) =
      .ok [.goto ⟨0⟩ (some (.not (.var ⟨0⟩))), .set ⟨2⟩ (.var ⟨1⟩), .goto ⟨1⟩ none, .label ⟨0⟩,
        .set ⟨3⟩ .null, .label ⟨1⟩, .ret (some (.var ⟨3⟩))] := by
    cbv
  generalize hflat :
    (FlatCode.ofCode ofFlagAndObject resultInThis flagAndObject .empty).1 = r at hok
  cases r with
  | error => cases hok
  | ok flat =>
    refine ⟨flat, rfl, Except.ok.inj hok, fun hshared => ?_⟩
    have hreached : resultInThis.instructions.zip resultInThis.reachable =
        resultInThis.instructions.map (·, true) := by
      cbv
    have hfirst :
      Lift.Reaches (resultInThis.instructions.zip resultInThis.reachable) 3 (.store .reference 0) :=
      hreached ▸ ⟨3, rfl⟩
    have hsecond :
      Lift.Reaches (resultInThis.instructions.zip resultInThis.reachable) 6 (.store .reference 0) :=
      hreached ▸ ⟨6, rfl⟩
    exact absurd ((exists_shared_iff hflat 0 .reference).1 hshared rfl rfl rfl 3 6 hfirst hsecond)
      (by decide)

end ByteLift
