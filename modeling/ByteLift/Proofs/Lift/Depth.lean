import ByteLift.Proofs.Lift.Tracks

/-!
# How many entries are on the stack

Storing entries in temporaries leaves as many entries on the stack as there were. Before control
passes to a label, the number of entries is recorded there, or compared with the number that is.
These numbers never change.
-/

namespace ByteLift

/-! ## Steps that leave the stack as high as it is -/

namespace Machine

variable {m m' m'' : Machine}

/-- The numbers of values recorded at labels stay the same. -/
def Records (m m' : Machine) : Prop :=
  ∀ l shape, entered? l m.shapes = some shape →
    ∃ shape', entered? l m'.shapes = some shape' ∧ shape'.length = shape.length

theorem Records.of_eq (h : m'.shapes = m.shapes) : m.Records m' :=
  fun _ shape hl => ⟨shape, by rw [h, hl], rfl⟩

theorem Records.trans (h : m.Records m') (h' : m'.Records m'') : m.Records m'' := by
  intro l shape hl
  obtain ⟨shape', hl', hlen⟩ := h l shape hl
  obtain ⟨shape'', hl'', hlen'⟩ := h' l shape' hl'
  exact ⟨shape'', hl'', hlen'.trans hlen⟩

/-- Recording types at a label, as many as there were before if there were any. -/
theorem records_enter {l : Label} {shape : List Ty}
    (h : ∀ old, entered? l m.shapes = some old → shape.length = old.length)
    (hm' : m'.shapes = enter l shape m.shapes) : m.Records m' := by
  intro l' old hl'
  rw [hm', entered?_enter]
  split
  · rename_i heq
    exact ⟨shape, rfl, h old (heq ▸ hl')⟩
  · exact ⟨old, hl', rfl⟩

/-- The stack is as high in one state as in another, and labels have what they had. -/
structure Level (m m' : Machine) : Prop where
  depth : m'.stack.length = m.stack.length
  records : m.Records m'

theorem Level.of_eq (hstack : m'.stack = m.stack) (hshapes : m'.shapes = m.shapes) : m.Level m' :=
  ⟨by rw [hstack], .of_eq hshapes⟩

theorem Level.trans (h : m.Level m') (h' : m'.Level m'') : m.Level m'' :=
  ⟨h'.depth.trans h.depth, h.records.trans h'.records⟩

end Machine

namespace Lift

variable {α : Type} {c : Lift α} {env : Env} {m m' : Machine}

/-- Steps that leave the stack as high as it is. -/
def Levels (c : Lift α) : Prop := ∀ m a m', c m = .ok a m' → m.Level m'

instance : IsPreorder Machine Machine.Level where
  refl _ := .of_eq rfl rfl
  trans _ _ _ := .trans

theorem spilling_level : Spilling (fun _ => True) Machine.Level where
  out _ _ _ := .of_eq rfl rfl
  declare _ _ _ := .of_eq rfl rfl

theorem level_merges (m : Machine) (merges : List ((Label × Nat) × Var)) :
    m.Level { m with merges } := .of_eq rfl rfl

theorem levels_spillStack (chosen : Nat → Expr → Bool) : Levels (spillStack env chosen) := by
  intro m a m' h
  simp only [spillStack, bind_eq_ok, get_eq_ok, modify_eq_ok] at h
  obtain ⟨_, _, ⟨rfl, rfl⟩, es, m₁, hes, rfl⟩ := h
  exact ⟨(spillsTo_spillChosen _ hes).spilled.length,
    ((spilling_level.spillChosen chosen unknown).relates _ _ _ hes).records⟩

theorem levels_emit (e : Expr) (writes : Option Var) (effects : Bool) :
    Levels (emit env (.expr e) writes effects) :=
  Relates.bind (levels_spillStack _) fun _ => .modify fun _ => .of_eq rfl rfl

theorem levels_discard (es : List Expr) : Levels (discard env es) := by
  induction es with
  | nil => exact Relates.pure _
  | cons e es ih =>
    rw [discard]
    split
    · exact Relates.bind (levels_emit _ _ _) fun _ => ih
    · exact ih

theorem levels_localForStore (slot : Nat) (kind : LocalKind) (ty : Ty) :
    Levels (localForStore slot kind ty) :=
  (spilling_level.localForStore (fun _ _ => .of_eq rfl rfl) (fun _ _ _ => .of_eq rfl rfl) slot
    kind ty).relates

/-! ## What is recorded at labels -/

variable {l : Label}

theorem length_mergeTemps {slot : Nat} {ts : List Ty} {vs : List Var}
    (h : mergeTemps env l slot ts m = .ok vs m') : vs.length = ts.length := by
  induction ts generalizing slot m vs with
  | nil =>
    obtain ⟨rfl, _⟩ := pure_eq_ok.1 h
    rfl
  | cons t ts ih =>
    simp only [mergeTemps, bind_eq_ok, pure_eq_ok] at h
    obtain ⟨v, m₁, _, vs, _, hvs, rfl, rfl⟩ := h
    rw [List.length_cons, List.length_cons, ih hvs]

theorem levels_checkShape (l : Label) (slot : Nat) (pairs : List (Ty × Ty)) :
    Levels (checkShape env l slot pairs) := by
  have hrefine (slot : Nat) (ty : Ty) : Levels (refine env l slot ty) := by
    refine Relates.bind (spilling_level.mergeTemp level_merges l slot _).relates fun v =>
      .modify fun m => ⟨rfl, ?_⟩
    refine Machine.records_enter (fun old hold => ?_) rfl
    rw [hold, List.length_set]
    rfl
  exact (behaves_checkShape (fun slot ty => ⟨hrefine slot ty, (fills_any.refine l slot ty).2⟩) slot
    pairs).relates

/-- A label has a number of values recorded. -/
def HasDepth (m : Machine) (l : Label) (depth : Nat) : Prop :=
  ∃ shape, entered? l m.shapes = some shape ∧ shape.length = depth

theorem HasDepth.of_records {depth : Nat} (h : HasDepth m l depth) (hrecords : m.Records m') :
    HasDepth m' l depth := by
  obtain ⟨shape, hl, hlen⟩ := h
  obtain ⟨shape', hl', hlen'⟩ := hrecords l shape hl
  exact ⟨shape', hl', hlen'.trans hlen⟩

theorem HasDepth.unique {d d' : Nat} (h : HasDepth m l d) (h' : HasDepth m l d') : d = d' := by
  obtain ⟨shape, hl, rfl⟩ := h
  obtain ⟨shape', hl', rfl⟩ := h'
  rw [Option.some.inj (hl.symm.trans hl')]

theorem level_joinShape {shape : List Ty} (h : joinShape env l shape m = .ok () m') :
    m.Level m' ∧ HasDepth m' l shape.length := by
  rcases joinShape_eq_ok h with ⟨recorded, hl, hlen, h⟩ | ⟨hl, rfl⟩
  · have hlevel := levels_checkShape l 0 _ _ _ _ h
    have hdepth : HasDepth m l shape.length := ⟨recorded, hl, hlen⟩
    exact ⟨hlevel, hdepth.of_records hlevel.records⟩
  · refine ⟨⟨rfl, Machine.records_enter (fun old hold => ?_) rfl⟩, shape, ?_, rfl⟩
    · rw [hl] at hold
      cases hold
    · exact (entered?_enter l l shape m.shapes).trans (if_pos rfl)

end Lift

end ByteLift
