import ByteLift.Proofs.Lift.Effect
import ByteLift.Proofs.Rotate

/-!
# The statements that lifting emits

Lifting only ever puts statements behind those that are there. What it puts there is flat, a label
stands there for each reached instruction that has one, and a jump goes to the label of one of the
targets of its instruction.
-/

namespace ByteLift

/-- One state comes from another by putting flat statements behind the ones that are there, with the
labels `ls` in this order among them, and with jumps to the labels in `dest` only. -/
def Machine.Appends (dest : Label → Prop) (ls : List Label) (m m' : Machine) : Prop :=
  ∃ ss, m'.out = m.out ++ ss ∧ ss.filterMap Flat.placedLabel? = ls ∧
    (∀ s ∈ ss, s.isFlat = true) ∧ ∀ l c, .goto l c ∈ ss → dest l

namespace Machine.Appends

variable {dest dest' : Label → Prop} {ls ls' : List Label} {m m' m'' : Machine}

theorem of_out (h : m'.out = m.out) : m.Appends dest [] m' := ⟨[], by simp [h], rfl, nofun, nofun⟩

theorem trans (h : m.Appends dest ls m') (h' : m'.Appends dest ls' m'') :
    m.Appends dest (ls ++ ls') m'' := by
  obtain ⟨ss, hout, hls, hflat, hto⟩ := h
  obtain ⟨ss', hout', hls', hflat', hto'⟩ := h'
  refine ⟨ss ++ ss', by rw [hout', hout, List.append_assoc],
    by rw [List.filterMap_append, hls, hls'], ?_, ?_⟩
  · exact List.forall_mem_append.2 ⟨hflat, hflat'⟩
  · exact fun l c hmem => (List.mem_append.1 hmem).elim (hto l c) (hto' l c)

theorem mono (h : m.Appends dest ls m') (hto : ∀ l, dest l → dest' l) : m.Appends dest' ls m' := by
  obtain ⟨ss, hout, hls, hflat, hjumps⟩ := h
  exact ⟨ss, hout, hls, hflat, fun l c hmem => hto l (hjumps l c hmem)⟩

end Machine.Appends

namespace Lift

variable {α : Type} {c : Lift α} {env : Env} {dest : Label → Prop}

/-- Steps that emit no labels, and jumps to the labels in `dest` only. -/
def Appends (dest : Label → Prop) (c : Lift α) : Prop :=
  ∀ m a m', c m = .ok a m' → m.Appends dest [] m'

instance : IsPreorder Machine (Machine.Appends dest []) where
  refl _ := .of_out rfl
  trans _ _ _ := .trans

/-- What is emitted is flat and has no labels. -/
theorem appends_out (m : Machine) (ss : Block) (hss : ∀ s ∈ ss, Emits dest s) :
    m.Appends dest [] { m with out := m.out ++ ss } := by
  refine ⟨ss, rfl, List.filterMap_eq_nil_iff.2 fun s hs => ?_, fun s hs => ?_,
    fun l c hmem => hss _ hmem⟩
  · have hemits := hss s hs
    cases s <;> first | rfl | exact hemits.elim
  · have hemits := hss s hs
    cases s <;> first | rfl | exact hemits.elim

theorem fills_appends : Fills dest (Machine.Appends dest []) where
  out := appends_out
  declare _ _ _ := .of_out rfl
  stack _ _ := .of_out rfl
  asked _ _ := .of_out rfl
  retype _ _ _ := .of_out rfl
  merges _ _ := .of_out rfl
  shapes _ _ := .of_out rfl

theorem appends_goto {target : Address} (hto : ∀ l, env.flow.label? target = some l → dest l) :
    Appends dest (goto env target) := (fills_appends.tracks.goto hto).relates

theorem appends_cases (key : Expr) (table : List (Int32 × Address))
    (hto : ∀ t ∈ table.map Prod.snd, ∀ l, env.flow.label? t = some l → dest l) :
    Appends dest (cases env key table) := (fills_appends.tracks.cases table hto unknown).relates

/-- An instruction emits no labels, and jumps to the labels of its targets only. -/
theorem appends_step (i : Instruction) :
    Appends (fun l => ∃ t ∈ i.targets, env.flow.label? t = some l) (step env i) :=
  (fills_appends.tracks.step i (fun t ht _ hl => ⟨t, ht, hl⟩) fun kind slot _ =>
    (fills_appends.tracks.storeLocal (fun _ _ => .of_out rfl) (fun _ _ _ => .of_out rfl) kind
      slot).relates).relates

/-! ## Whole methods -/

variable {runsOn : Bool} {m m' : Machine}

/-- Coming to an instruction, its label is passed. -/
theorem appends_enter {i : Addressed} (h : enter env runsOn i m = .ok () m') :
    m.Appends dest (env.flow.label? i.address).toList m' := by
  have henter := enter_eq_ok h
  split at henter
  · rename_i hl
    subst henter
    rw [hl]
    exact .of_out rfl
  · rename_i l hl
    rw [hl]
    obtain ⟨m₁, hflow, hpass⟩ := enterLabel_eq_ok henter
    have hbefore : m.Appends dest [] m₁ := by
      cases runsOn with
      | true =>
        obtain ⟨ss, hout, hss⟩ := (fills_appends.flowTo l).relates _ _ _ (if_pos rfl ▸ hflow)
        exact ⟨ss, hout, hss⟩
      | false =>
        subst hflow
        exact .of_out rfl
    obtain ⟨_, m₂, happend, hrest⟩ := bind_eq_ok.1 hpass
    obtain rfl := append_eq_ok.1 happend
    have hlabel : m₁.Appends dest [l] { m₁ with out := m₁.out ++ [.label l] } :=
      ⟨[.label l], rfl, rfl, by simp [Stmt.isFlat], by simp⟩
    exact hbefore.trans (hlabel.trans ((fills_appends.behindLabel l).relates _ _ _ hrest))

/-- The labels that the reached instructions of a method jump to. -/
def JumpedTo (flow : Flow) (items : List (Addressed × Bool)) (l : Label) : Prop :=
  ∃ i, (i, true) ∈ items ∧ ∃ t ∈ i.instruction.targets, flow.label? t = some l

variable {items : List (Addressed × Bool)}

theorem Runs.appends (h : Runs env m' runsOn items m) :
    m.Appends (JumpedTo env.flow items) (passedLabels env.flow items) m' := by
  have hlater (it : Addressed × Bool) (items : List (Addressed × Bool)) (l : Label) :
      JumpedTo env.flow items l → JumpedTo env.flow (it :: items) l :=
    fun ⟨j, hj, ht⟩ => ⟨j, List.mem_cons_of_mem _ hj, ht⟩
  induction h with
  | done => exact .of_out rfl
  | skip _ ih => exact ih.mono (hlater _ _)
  | @lift runsOn i items m m₁ m₂ henter hstep _ ih =>
    have hstep := (appends_step i.instruction _ _ _ hstep).mono fun l ht =>
      (⟨i, List.mem_cons_self, ht⟩ : JumpedTo env.flow ((i, true) :: items) l)
    exact (appends_enter henter).trans (hstep.trans (ih.mono (hlater _ _)))

theorem Runs.isPrefix_out (h : Runs env m' runsOn items m) : m.out <+: m'.out := by
  obtain ⟨ss, hout, _⟩ := h.appends
  exact ⟨ss, hout.symm⟩

end Lift

end ByteLift
