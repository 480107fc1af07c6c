import ByteLift.Proofs.Lift.Locals

/-!
# What is recorded at labels

The types on the stack at a label, and the temporaries that hold it there. Paths that go to the same
label agree on the number of words of each slot: a type is only replaced by one that takes as many.
The temporaries of different slots are different, and each takes the words of its slot.
-/

namespace ByteLift

open VarTable

namespace Machine

variable {m m' m'' : Machine}

/-- A step that changes nothing but what is recorded at labels. -/
structure Settles (m m' : Machine) : Prop where
  advances : m.Advances m'
  stack : m'.stack = m.stack
  out : m'.out = m.out
  locals : m'.locals = m.locals

theorem Settles.refl (hm : m.Coherent) (hes : m.Entries) : m.Settles m :=
  ⟨⟨.refl m, hm, hes⟩, rfl, rfl, rfl⟩

theorem Settles.trans (h : m.Settles m') (h' : m'.Settles m'') : m.Settles m'' :=
  ⟨h.advances.grows.advances h'.advances, h'.stack.trans h.stack, h'.out.trans h.out,
    h'.locals.trans h.locals⟩

/-- A slot of a label takes as many words as a type. -/
def SlotFits (m : Machine) (l : Label) (j : Nat) (t : Ty) : Prop :=
  ∃ shape t', entered? l m.shapes = some shape ∧ shape[j]? = some t' ∧ t'.isWide = t.isWide

theorem SlotFits.of_grows {ls : List Label} {l : Label} {j : Nat} {t : Ty} (h : m.SlotFits l j t)
    (hgrows : m.Grows ls m') : m'.SlotFits l j t := by
  obtain ⟨shape, t', hl, hj, hwide⟩ := h
  obtain ⟨shape', hl', heq⟩ := hgrows.shapes l shape hl
  have hj' : (shape'.map Ty.isWide)[j]? = some t'.isWide := by rw [heq, List.getElem?_map, hj]; rfl
  rw [List.getElem?_map] at hj'
  obtain ⟨u, hu, hwide'⟩ := Option.map_eq_some_iff.1 hj'
  exact ⟨shape', u, hl', hu, hwide'.trans hwide⟩

/-! ## Temporaries -/

/-- The state in which a slot of a label that had no temporary has a new one. -/
def withMerge (m : Machine) (p : Label × Nat) (decl : VarDecl) : Machine :=
  { m with vars := m.vars.push decl, merges := enter p m.vars.next m.merges, temps := m.temps + 1 }

variable {p : Label × Nat} {decl : VarDecl}

theorem entered?_withMerge (q : Label × Nat) : entered? q (m.withMerge p decl).merges =
      if q = p then some m.vars.next else entered? q m.merges :=
  entered?_enter ..

theorem grows_withMerge (hp : entered? p m.merges = none) : m.Grows [] (m.withMerge p decl) where
  vars := extends_push m.vars decl
  out := ⟨[], by simp [withMerge], rfl⟩
  locals _ _ h := h
  new_locals _ _ h := .inl h
  merges q v hq := by
    rw [entered?_withMerge, if_neg, hq]
    rintro rfl
    rw [hp] at hq
    cases hq
  new_merges q v hq := by
    rw [entered?_withMerge] at hq
    split at hq
    · cases hq
      exact .inr (Nat.le_refl _)
    · exact .inl hq
  shapes _ shape h := ⟨shape, h, rfl⟩

theorem Coherent.withMerge (hm : m.Coherent) (hp : m.SlotFits p.1 p.2 decl.ty) :
    (m.withMerge p decl).Coherent := by
  have hext := extends_push m.vars decl
  have hfresh : ∀ q, entered? q m.merges ≠ some m.vars.next := by
    intro q hq
    have hlt := (hm.merges q.1 q.2 _ hq).1
    rw [index_next] at hlt
    omega
  refine ⟨?_, hm.locals_inj, ?_, ?_, ?_⟩
  · intro k l hk
    obtain ⟨v, rfl, hv, hwide⟩ := hm.locals k l hk
    exact ⟨v, rfl, Nat.lt_of_lt_of_le hv hext.size, (hext.wide v hv).trans hwide⟩
  · intro l j v hq
    rw [entered?_withMerge] at hq
    split at hq
    · rename_i heq
      cases hq
      obtain ⟨shape, t, hl, hj, hwide⟩ := hp
      rw [← heq] at hl hj
      refine ⟨?_, shape, t, hl, hj, ?_⟩
      · show m.vars.next.index < (m.vars.push decl).size
        rw [size_push, index_next]
        omega
      · show ((m.vars.push decl).ty m.vars.next).isWide = _
        rw [ty_push_next, hwide]
    · obtain ⟨hv, shape, t, hl, hj, hwide⟩ := hm.merges l j v hq
      exact ⟨Nat.lt_of_lt_of_le hv hext.size, shape, t, hl, hj, (hext.wide v hv).trans hwide⟩
  · intro q q' v hq hq'
    rw [entered?_withMerge] at hq hq'
    split at hq <;> split at hq'
    · exact ‹q = p›.trans ‹q' = p›.symm
    · cases hq
      exact absurd hq' (hfresh q')
    · cases hq'
      exact absurd hq (hfresh q)
    · exact hm.merges_inj q q' v hq hq'
  · intro k q v hk hq
    rw [entered?_withMerge] at hq
    split at hq
    · cases hq
      have hlt := hm.ownLocals.index_lt hk
      rw [index_next] at hlt
      omega
    · exact hm.apart k q v hk hq

theorem settles_withMerge (hm : m.Coherent) (hes : m.Entries) (hp : entered? p m.merges = none)
    (hfits : m.SlotFits p.1 p.2 decl.ty) : m.Settles (m.withMerge p decl) :=
  ⟨⟨grows_withMerge hp, hm.withMerge hfits, Entries.of_grows (grows_withMerge hp) hes⟩,
    rfl, rfl, rfl⟩

/-! ## Types -/

/-- The state in which other types are recorded at a label. -/
def withShape (m : Machine) (l : Label) (shape : List Ty) : Machine :=
  { m with shapes := enter l shape m.shapes }

variable {l : Label} {shape : List Ty}

theorem entered?_withShape (l' : Label) :
    entered? l' (m.withShape l shape).shapes = if l' =
      l then some shape else entered? l' m.shapes :=
  entered?_enter ..

/-- Types may be replaced by others that take as many words. -/
theorem settles_withShape (hm : m.Coherent) (hes : m.Entries)
    (h : ∀ old, entered? l m.shapes = some old → shape.map Ty.isWide = old.map Ty.isWide) :
    m.Settles (m.withShape l shape) := by
  have hgrows : m.Grows [] (m.withShape l shape) := by
    refine ⟨.refl _, ⟨[], by simp [withShape], rfl⟩, fun _ _ h => h, fun _ _ h => .inl h,
      fun _ _ h => h, fun _ _ h => .inl h, fun l' old hl' => ?_⟩
    rw [entered?_withShape]
    split
    · rename_i heq
      exact ⟨shape, rfl, h old (heq ▸ hl')⟩
    · exact ⟨old, hl', rfl⟩
  refine ⟨⟨hgrows, ⟨hm.locals, hm.locals_inj, fun l' j v hp => ?_, hm.merges_inj, hm.apart⟩, hes⟩,
    rfl, rfl, rfl⟩
  obtain ⟨hv, old, t, hl', hj, hwide⟩ := hm.merges l' j v hp
  obtain ⟨new, t', hl'', hj', hwide'⟩ := SlotFits.of_grows ⟨old, t, hl', hj, rfl⟩ hgrows
  exact ⟨hv, new, t', hl'', hj', hwide.trans hwide'.symm⟩

end Machine

theorem Ty.isWide_of_joins {a b : Ty} (h : a.joins b = true) : a.isWide = b.isWide := by
  have hint {t : Ty} (ht : t.isIntLike = true) : t.isWide = false := by
    cases t <;> first | rfl | cases ht
  have href {t : Ty} (ht : t.isReference = true ∨ t = .unknown) : t.isWide = false := by
    rcases ht with ht | rfl
    · exact isWide_of_isReference ht
    · rfl
  simp only [joins, Bool.or_eq_true, Bool.and_eq_true, decide_eq_true_eq] at h
  rcases h with (⟨ha, hb⟩ | ⟨ha, hb⟩) | rfl
  · rw [hint ha, hint hb]
  · rw [href ha, href hb]
  · rfl

namespace Lift

variable {env : Env} {m m' : Machine} {l : Label} {slot : Nat}

theorem mergeTemp_spec {t : Ty} {v : Var} (h : mergeTemp env l slot t m = .ok v m')
    (hm : m.Coherent) (hes : m.Entries) (hfits : m.SlotFits l slot t) :
    m.Settles m' ∧ entered? (l, slot) m'.merges = some v ∧ m'.shapes = m.shapes := by
  simp only [mergeTemp, bind_eq_ok, get_eq_ok] at h
  obtain ⟨_, m, ⟨rfl, rfl⟩, h⟩ := h
  cases hp : entered? (l, slot) m.merges with
  | some u =>
    simp only [hp, pure_eq_ok] at h
    obtain ⟨rfl, rfl⟩ := h
    exact ⟨.refl hm hes, hp, rfl⟩
  | none =>
    simp only [hp, newTemp, bind_eq_ok, get_eq_ok, set_eq_ok, modify_eq_ok, pure_eq_ok] at h
    obtain ⟨_, _, ⟨_, _, ⟨rfl, rfl⟩, _, _, rfl, rfl, rfl⟩, _, _, rfl, rfl, rfl⟩ := h
    exact ⟨Machine.settles_withMerge hm hes hp hfits,
      (Machine.entered?_withMerge _).trans (if_pos rfl), rfl⟩

/-- Each slot gets a temporary. -/
theorem mergeTemps_spec {ts : List Ty} {vs : List Var} (h : mergeTemps env l slot ts m = .ok vs m')
    (hm : m.Coherent) (hes : m.Entries)
    (hfits : ∀ i t, ts[i]? = some t → m.SlotFits l (slot + i) t) :
    m.Settles m' ∧ vs.length = ts.length ∧ m'.shapes = m.shapes ∧
      ∀ i v, vs[i]? = some v → entered? (l, slot + i) m'.merges = some v := by
  induction ts generalizing slot m vs with
  | nil =>
    obtain ⟨rfl, rfl⟩ := pure_eq_ok.1 h
    exact ⟨.refl hm hes, rfl, rfl, by simp⟩
  | cons t ts ih =>
    simp only [mergeTemps, bind_eq_ok, pure_eq_ok] at h
    obtain ⟨v, m₁, hv, vs, _, hvs, rfl, rfl⟩ := h
    obtain ⟨hsettles, hp, hshapes⟩ := mergeTemp_spec hv hm hes (hfits 0 t rfl)
    obtain ⟨hsettles', hlen, hshapes', hps⟩ :=
      ih hvs hsettles.advances.coherent hsettles.advances.entries
      fun i u hu => by
        rw [Nat.add_assoc, Nat.add_comm 1]
        exact (hfits (i + 1) u hu).of_grows hsettles.advances.grows
    refine ⟨hsettles.trans hsettles', by simp [hlen], hshapes'.trans hshapes, fun i u hu => ?_⟩
    cases i with
    | zero =>
      cases hu
      exact hsettles'.advances.grows.merges _ _ hp
    | succ i =>
      rw [Nat.add_comm i, ← Nat.add_assoc]
      exact hps i u hu

/-- A slot that held `null` gets the type of a reference. -/
theorem refine_spec {t : Ty} (h : refine env l slot t m = .ok () m') (hm : m.Coherent)
    (hes : m.Entries) (hfits : m.SlotFits l slot .null) (ht : t.isWide = false) : m.Settles m' := by
  simp only [refine, bind_eq_ok, modify_eq_ok] at h
  obtain ⟨v, m₁, hv, rfl⟩ := h
  obtain ⟨hsettles, hp, _⟩ := mergeTemp_spec hv hm hes hfits
  have hm₁ := hsettles.advances.coherent
  obtain ⟨_, shape, u, hl, hu, hwide⟩ := hm₁.merges l slot v hp
  obtain ⟨shape', u', hl', hu', hwide'⟩ := hfits.of_grows hsettles.advances.grows
  obtain rfl : shape = shape' := Option.some.inj (hl.symm.trans hl')
  obtain rfl : u = u' := Option.some.inj (hu.symm.trans hu')
  have hset : ∀ old, entered? l m₁.shapes = some old →
    (shape.set slot t).map Ty.isWide = old.map Ty.isWide := by
    intro old hold
    obtain rfl : shape = old := Option.some.inj (hl.symm.trans hold)
    have hself : u.isWide = t.isWide := hwide'.trans ht.symm
    obtain ⟨hlt, rfl⟩ := List.getElem?_eq_some_iff.1 hu
    rw [List.map_set, ← hself]
    have hlt' : slot < (shape.map Ty.isWide).length := by simpa using hlt
    have hget : shape[slot].isWide = (shape.map Ty.isWide)[slot] := by rw [List.getElem_map]
    rw [hget, List.set_getElem_self]
  have hsettles' := Machine.settles_withShape hm₁ hsettles.advances.entries hset
  have hvar :=
    Machine.advances_setTy (v := v) hsettles'.advances.coherent hsettles'.advances.entries
    (ht.trans (hwide.trans hwide').symm)
  have heq : (entered? l m₁.shapes).getD [] = shape := by rw [hl]; rfl
  simp only [heq]
  exact (hsettles.trans hsettles').trans ⟨hvar, rfl, rfl, rfl⟩

/-- Types that pass the check take as many words as those recorded. -/
theorem checkShape_spec {pairs : List (Ty × Ty)} (h : checkShape env l slot pairs m = .ok () m')
    (hm : m.Coherent) (hes : m.Entries)
    (hfits : ∀ i p, pairs[i]? = some p → m.SlotFits l (slot + i) p.2) :
    m.Settles m' ∧ ∀ p ∈ pairs, p.1.isWide = p.2.isWide := by
  induction pairs generalizing slot m with
  | nil =>
    obtain ⟨_, rfl⟩ := pure_eq_ok.1 h
    exact ⟨.refl hm hes, by simp⟩
  | cons p pairs ih =>
    obtain ⟨found, want⟩ := p
    rw [checkShape] at h
    split at h
    · simp only [bind_eq_ok, mismatch_eq_ok, false_and, exists_false] at h
    · rename_i hjoins
      have hwide : found.isWide = want.isWide := Ty.isWide_of_joins (by simpa using hjoins)
      have hslot : m.SlotFits l slot want := hfits 0 _ rfl
      obtain ⟨m₁, hsettles, h⟩ :
        ∃ m₁, m.Settles m₁ ∧ checkShape env l (slot + 1) pairs m₁ = .ok () m' := by
        split at h
        · rename_i hrefine
          simp only [Bool.and_eq_true, decide_eq_true_eq] at hrefine
          obtain ⟨⟨rfl, href⟩, _⟩ := hrefine
          obtain ⟨_, m₁, hm₁, h⟩ := bind_eq_ok.1 h
          exact ⟨m₁, refine_spec hm₁ hm hes hslot (Ty.isWide_of_isReference href), h⟩
        · exact ⟨m, .refl hm hes, h⟩
      obtain ⟨hsettles', hwides⟩ :=
        ih h hsettles.advances.coherent hsettles.advances.entries fun i p hp => by
          rw [Nat.add_assoc, Nat.add_comm 1]
          exact (hfits (i + 1) p hp).of_grows hsettles.advances.grows
      simp only [List.forall_mem_cons]
      exact ⟨hsettles.trans hsettles', hwide, hwides⟩

/-- A path that goes to a label takes on the stack the words that are recorded there. -/
theorem joinShape_spec {shape : List Ty} (h : joinShape env l shape m = .ok () m') (hm : m.Coherent)
    (hes : m.Entries) : m.Settles m' ∧ ∃ shape', entered? l m'.shapes = some shape' ∧
    shape'.map Ty.isWide = shape.map Ty.isWide := by
  rcases joinShape_eq_ok h with ⟨recorded, hl, hlen, h⟩ | ⟨hl, rfl⟩
  · have hfits : ∀ i p, (shape.zip recorded)[i]? = some p → m.SlotFits l (0 + i) p.2 := by
      intro i p hp
      obtain ⟨_, hi⟩ := List.getElem?_zip_eq_some.1 hp
      exact ⟨recorded, p.2, hl, by rwa [Nat.zero_add], rfl⟩
    obtain ⟨hsettles, hwides⟩ := checkShape_spec h hm hes hfits
    obtain ⟨shape', hl', heq⟩ := hsettles.advances.grows.shapes l recorded hl
    refine ⟨hsettles, shape', hl', heq.trans ?_⟩
    have hmap :
      (shape.zip recorded).map (fun p => p.2.isWide) =
      (shape.zip recorded).map fun p => p.1.isWide :=
      List.map_congr_left fun p hp => (hwides p hp).symm
    have hfst : (shape.zip recorded).map Prod.fst = shape := List.map_fst_zip (by omega)
    have hsnd : (shape.zip recorded).map Prod.snd = recorded := List.map_snd_zip (by omega)
    replace hfst := congrArg (List.map Ty.isWide) hfst
    replace hsnd := congrArg (List.map Ty.isWide) hsnd
    rw [List.map_map] at hfst hsnd
    exact hsnd.symm.trans (hmap.trans hfst)
  · have hsettles : m.Settles (m.withShape l shape) :=
      Machine.settles_withShape hm hes fun old hold => by
        rw [hl] at hold
        cases hold
    exact ⟨hsettles, shape, (Machine.entered?_withShape l).trans (if_pos rfl), rfl⟩

end Lift

end ByteLift
