import ByteLift.Proofs.Lift.Shapes

/-!
# Going to a label with values on the stack

A path that goes to a label stores its stack in the temporaries of the label. The stores are made
one after another, from the bottom of the stack up, and have the effect of one parallel assignment:
an entry that reads a temporary which is assigned before the entry is stored is spilled before the
first store.
-/

namespace ByteLift

open Expr

variable {ρ η : Type} [DecidableEq ρ] {w : World ρ η} {env : Env} {l : Label}
  {m m₁ m₂ m' final : Machine} {temps : List Var} {ls : List Label}

/-! ## A parallel assignment -/

/-- How the entry in a slot changes when entries are spilled. -/
def SpilledTo (chosen : Nat → Expr → Bool) (n slot : Nat) (e e' : Expr) : Prop :=
  e' = e ∧ chosen slot e = false ∨
    ∃ t : Var, e' = .var t ∧ n ≤ t.index ∧ (chosen slot e = true ∨ e.isPure = false)

/-- The slots of a stack, from the bottom up. -/
theorem getElem?_reverse_cons {α : Type} (x : α) (xs : List α) (j : Nat) :
    (x :: xs).reverse[j]? = if j = xs.length then some x else xs.reverse[j]? := by
  rw [List.reverse_cons]
  split
  · rename_i hj
    rw [hj, ← List.length_reverse, List.getElem?_concat_length]
  · rename_i hj
    rcases Nat.lt_or_ge j xs.length with hlt | hge
    · rw [List.getElem?_append_left (by simpa using hlt)]
    · rw [List.getElem?_eq_none (by simp; omega), List.getElem?_eq_none (by simpa using hge)]

variable {es : List Expr}

theorem Spilled.getElem?_reverse {chosen : Nat → Expr → Bool} {n j : Nat}
    {es' : List Expr} {e' : Expr} (h : Spilled chosen n es es') (he' : es'.reverse[j]? = some e') :
    ∃ e, es.reverse[j]? = some e ∧ SpilledTo chosen n j e e' := by
  induction h with
  | nil => simp at he'
  | kept hrest hc ih =>
    rw [getElem?_reverse_cons, hrest.length] at he'
    rw [getElem?_reverse_cons]
    split at he'
    · rename_i hj
      cases he'
      exact ⟨_, if_pos hj, .inl ⟨rfl, hj ▸ hc⟩⟩
    · rename_i hj
      rw [if_neg hj]
      exact ih he'
  | spilled hrest ht hc ih =>
    rw [getElem?_reverse_cons, hrest.length] at he'
    rw [getElem?_reverse_cons]
    split at he'
    · rename_i hj
      cases he'
      exact ⟨_, if_pos hj, .inr ⟨_, rfl, ht, hj ▸ hc⟩⟩
    · rename_i hj
      rw [if_neg hj]
      exact ih he'

namespace Lift

/-- An entry can be stored behind another if it does not read the temporary that the other is stored
in. -/
def StoredBehind (p q : Expr × Var) : Prop := p.1 = .var p.2 ∨ .read p.2 ∉ q.1.usesAs false

variable {e : Expr}

theorem reads_eq_false_iff {v : Var} : e.reads v = false ↔ .read v ∉ e.usesAs false := by
  simp [Expr.reads, Expr.uses]

/-- An entry that does not conflict can be stored behind those below it. -/
theorem storedBehind_of_conflicts {entries : List Expr} {i j : Nat} {below : Expr} {t : Var}
    (h : conflicts entries temps j e = false) (hij : i < j) (hbelow : entries[i]? = some below)
    (ht : temps[i]? = some t) : below = .var t ∨ .read t ∉ e.usesAs false := by
  have hmem : (below, t) ∈ (entries.zip temps).take j := by
    refine List.mem_of_getElem? ((List.getElem?_take_of_lt hij).trans ?_)
    exact List.getElem?_zip_eq_some.2 ⟨hbelow, ht⟩
  simp only [conflicts, List.any_eq_false, Bool.and_eq_true, decide_eq_true_eq, not_and] at h
  by_cases hown : below = .var t
  · exact .inl hown
  · exact .inr (reads_eq_false_iff.1 (by simpa using h _ hmem hown))

/-- Once those that conflict are spilled, the entries can be stored one after another. -/
theorem pairwise_storedBehind {n : Nat} {es es' : List Expr}
    (h : Spilled (conflicts es.reverse temps) n es es')
    (hnodup : temps.Nodup) (hold : ∀ t ∈ temps, t.index < n) :
    (es'.reverse.zip temps).Pairwise StoredBehind := by
  rw [List.pairwise_iff_getElem]
  intro i j hi hj hij
  rw [List.length_zip] at hi hj
  rw [List.getElem_zip, List.getElem_zip]
  have hi₁ : i < es'.reverse.length := by omega
  have hi₂ : i < temps.length := by omega
  have hj₁ : j < es'.reverse.length := by omega
  obtain ⟨e, he, hcases⟩ := h.getElem?_reverse (List.getElem?_eq_getElem hj₁)
  obtain ⟨d, hd, hcases'⟩ := h.getElem?_reverse (List.getElem?_eq_getElem hi₁)
  rcases hcases with ⟨heq, hc⟩ | ⟨u, hu, hn, _⟩
  · rcases storedBehind_of_conflicts hc hij hd (List.getElem?_eq_getElem hi₂) with hown | hread
    · -- An entry that is its temporary already is never spilled.
      refine .inl ?_
      rcases hcases' with ⟨heq', _⟩ | ⟨_, _, _, hc' | hp⟩
      · exact heq'.trans hown
      · rw [hown] at hc'
        simp only [conflicts, List.any_eq_true, Bool.and_eq_true, decide_eq_true_eq] at hc'
        obtain ⟨⟨below, t⟩, hmem, _, hreads⟩ := hc'
        have htemp : t = temps[i] := by simpa [Expr.reads, Expr.uses, usesAs] using hreads
        obtain ⟨k, hk, hget⟩ := List.mem_iff_getElem.1 hmem
        rw [List.length_take, List.length_zip] at hk
        rw [List.getElem_take, List.getElem_zip, Prod.mk.injEq] at hget
        have hki : k = i := (List.getElem?_inj (by omega) hnodup).1 (by
          rw [List.getElem?_eq_getElem (by omega), List.getElem?_eq_getElem hi₂, hget.2, htemp])
        omega
      · rw [hown] at hp
        cases hp
    · exact .inr (by rw [heq]; exact hread)
  · refine .inr ?_
    rw [hu]
    simp only [usesAs, Bool.false_eq_true, if_false, List.mem_singleton, Use.read.injEq]
    rintro rfl
    have hlt := hold _ (List.getElem_mem hi₂)
    omega

theorem moves_cons (e : Expr) (es : List Expr) (t : Var) (ts : List Var) :
    moves (e :: es) (t :: ts) = if e = .var t then moves es ts else .set t e :: moves es ts := by
  simp only [moves, List.zip_cons_cons, List.filterMap_cons]
  by_cases h : e = .var t <;> simp [h]

/-- Stores to temporaries contain no labels. -/
theorem placedLabel?_moves (es : List Expr) (temps : List Var) :
    (moves es temps).filterMap Flat.placedLabel? = [] := by
  rw [List.filterMap_eq_nil_iff]
  intro x hx
  simp only [moves, List.mem_filterMap] at hx
  obtain ⟨⟨e, t⟩, _, hx⟩ := hx
  split at hx <;> cases hx
  rfl

end Lift

/-- Entries that are stored one after another end up in their temporaries with the values they had
at the start. -/
theorem moves_run {vs : List (Value ρ)} {s t t' : Store ρ η} (hlen : temps.length = es.length)
    (hnodup : temps.Nodup)
    (hpair : (es.zip temps).Pairwise Lift.StoredBehind) (hplain : ∀ e ∈ es, e.isPlain = true)
    (hvs : w.evalList es t = .ok vs t') (hmem : s.memory = t.memory)
    (hreads : ∀ e ∈ es, ∀ x, .read x ∈ e.usesAs false → s.vars x = t.vars x) :
    ∃ s', Flat.straight w.semantics (Lift.moves es temps) s = some s' ∧ s'.memory = t'.memory ∧
      temps.map s'.vars = vs ∧ ∀ x, x ∉ temps → s'.vars x = s.vars x := by
  induction es generalizing temps vs s t with
  | nil =>
    obtain rfl := List.eq_nil_of_length_eq_zero hlen
    obtain ⟨rfl, rfl⟩ := pure_eq_ok.1 hvs
    exact ⟨s, rfl, hmem, rfl, fun _ _ => rfl⟩
  | cons e es ih =>
    cases temps with
    | nil => cases hlen
    | cons u temps =>
      obtain ⟨v, vs, t₁, hv, hrest, rfl⟩ := World.evalList_cons_eq_ok.1 hvs
      simp only [List.forall_mem_cons] at hplain hreads
      rw [List.zip_cons_cons, List.pairwise_cons] at hpair
      obtain ⟨hu, hnodup⟩ := List.nodup_cons.1 hnodup
      obtain ⟨ht₁, hv'⟩ := w.stays_eval e hplain.1 t s v t₁ hv hmem hreads.1
      rw [Lift.moves_cons]
      by_cases hown : e = .var u
      · subst hown
        rw [World.eval_var] at hv hv'
        cases hv
        obtain ⟨s', hs', hmem', hvs', hother⟩ :=
          ih (Nat.succ.inj hlen) hnodup hpair.2 hplain.2 hrest hmem hreads.2
        refine ⟨s', by rw [if_pos rfl, hs'], hmem', ?_, fun x hx => hother x ?_⟩
        · rw [List.map_cons, hvs', hother u hu, hreads.1 u (by simp [usesAs])]
        · exact fun hmem => hx (List.mem_cons_of_mem _ hmem)
      · have hagree : ∀ d ∈ es, ∀ x, .read x ∈ d.usesAs false →
            (Store.put ⟨s.vars, t₁.memory⟩ u v).vars x = t₁.vars x := by
          intro d hd x hx
          obtain ⟨j, hj⟩ := List.mem_iff_getElem?.1 hd
          obtain ⟨u', hu'⟩ : ∃ u', temps[j]? = some u' := by
            have hlt := (List.getElem?_eq_some_iff.1 hj).1
            exact ⟨_, List.getElem?_eq_getElem (by simp only [List.length_cons] at hlen; omega)⟩
          have hmem : (d, u') ∈ es.zip temps :=
            List.mem_of_getElem? (List.getElem?_zip_eq_some.2 ⟨hj, hu'⟩)
          have hne : x ≠ u := by
            rintro rfl
            exact (hpair.1 _ hmem).elim hown fun h => h hx
          rw [Store.put_of_ne _ _ hne, ht₁]
          exact hreads.2 d hd x hx
        obtain ⟨s', hs', hmem', hvs', hother⟩ := ih (s := Store.put ⟨s.vars, t₁.memory⟩ u v)
          (Nat.succ.inj hlen) hnodup hpair.2 hplain.2 hrest rfl hagree
        refine ⟨s', ?_, hmem', ?_, fun x hx => ?_⟩
        · rw [if_neg hown, Flat.straight_cons (act_set hv'), hs']
        · rw [List.map_cons, hvs', hother u hu, Store.put_self]
        · rw [List.mem_cons, not_or] at hx
          rw [hother x hx.2, Store.put_of_ne _ _ hx.1]

/-! ## Storing the stack -/

namespace Lift

/-- What is done to go to a label: the temporaries are looked up, entries that conflict are spilled,
and all are stored. -/
structure Flows (env : Env) (l : Label) (m m₁ m₂ m' : Machine) (temps : List Var) : Prop where
  settles : m.Settles m₁
  length : temps.length = m.stack.length
  merges : ∀ i v, temps[i]? = some v → entered? (l, i) m₁.merges = some v
  shape : ∃ shape, entered? l m₁.shapes = some shape ∧
    shape.map Ty.isWide = (m.stack.map (env.isWide m.vars)).reverse
  spill : spillStack env (conflicts m₁.stack.reverse temps) m₁ = .ok () m₂
  out : m' = { m₂ with out := m₂.out ++ moves m₂.stack.reverse temps }

/-- Going to a label is made of the steps that `Flows` lists. -/
theorem exists_flows (h : flowTo env l m = .ok () m') (hm : m.Coherent) (hes : m.Entries) :
    ∃ m₁ m₂ temps, Flows env l m m₁ m₂ m' temps := by
  simp only [flowTo, bind_eq_ok, get_eq_ok, append_eq_ok] at h
  obtain ⟨_, m, ⟨rfl, rfl⟩, _, m₁, hjoin, temps, _, htemps, _, m₂, ⟨rfl, rfl⟩, _, _, hspill, _,
    m₃, ⟨rfl, rfl⟩, rfl⟩ := h
  obtain ⟨hsettles, shape, hl, hshape⟩ := joinShape_spec hjoin hm hes
  have hfits : ∀ i t, (m.stack.reverse.map (env.typeOf m.vars))[i]? = some t →
    m₁.SlotFits l (0 + i) t := by
    intro i t ht
    have hi := congrArg (·[i]?) hshape
    simp only [List.getElem?_map] at hi ht
    rw [ht] at hi
    obtain ⟨u, hu, hwide⟩ := Option.map_eq_some_iff.1 hi
    exact ⟨shape, u, hl, by rwa [Nat.zero_add], hwide⟩
  obtain ⟨hsettles', hlen, hshapes, hmerges⟩ :=
    mergeTemps_spec htemps hsettles.advances.coherent hsettles.advances.entries hfits
  refine ⟨m₂, m₃, temps, hsettles.trans hsettles', by simpa using hlen, fun i v hv => ?_,
    ⟨shape, by rw [hshapes, hl], ?_⟩, hspill, rfl⟩
  · have hp := hmerges i v hv
    rwa [Nat.zero_add] at hp
  · rw [hshape, List.map_map, ← List.map_reverse]
    rfl

namespace Flows

variable (h : Flows env l m m₁ m₂ m' temps)

include h

theorem index_lt {t : Var} (ht : t ∈ temps) : t.index < m₁.vars.size := by
  obtain ⟨i, hi⟩ := List.mem_iff_getElem?.1 ht
  exact (h.settles.advances.coherent.merges l i t (h.merges i t hi)).1

theorem nodup : temps.Nodup := by
  refine List.pairwise_iff_getElem.2 fun i j hi hj hij heq => ?_
  have hp := h.merges i _ (List.getElem?_eq_getElem hi)
  have hq := h.merges j _ (List.getElem?_eq_getElem hj)
  rw [heq] at hp
  have hpair := h.settles.advances.coherent.merges_inj _ _ _ hp hq
  simp only [Prod.mk.injEq, true_and] at hpair
  omega

theorem adds : m₁.Adds m' := by
  obtain ⟨hadds, _⟩ := spillStack_spec h.spill h.settles.advances.entries
  rw [h.out]
  exact hadds.trans ⟨.refl _, ⟨_, rfl, placedLabel?_moves _ _⟩, rfl, rfl, rfl⟩

theorem advances : m.Advances m' := by
  obtain ⟨_, hes, _⟩ := spillStack_spec h.spill h.settles.advances.entries
  refine h.settles.advances.grows.advances (h.adds.advances h.settles.advances.coherent ?_)
  rw [h.out]
  exact hes

variable (hfinal : m'.Grows ls final)

include hfinal

theorem merges_final (i : Nat) (v : Var) (hv : temps[i]? = some v) :
    entered? (l, i) final.merges = some v :=
  hfinal.merges _ _ (h.adds.grows.merges _ _ (h.merges i v hv))

theorem shape_final : ∃ shape, entered? l final.shapes = some shape ∧
    shape.map Ty.isWide = (m.stack.map (env.isWide m.vars)).reverse := by
  obtain ⟨shape, hl, hshape⟩ := h.shape
  obtain ⟨shape', hl', hshape'⟩ := hfinal.shapes l shape (by rw [h.adds.shapes, hl])
  exact ⟨shape', hl', hshape'.trans hshape⟩

variable {v : Var}

/-- The label has no temporaries but these. -/
theorem getElem?_temps (hcoherent : final.Coherent) {j : Nat}
    (hv : entered? (l, j) final.merges = some v) : temps[j]? = some v := by
  obtain ⟨shape, hl, hshape⟩ := h.shape_final hfinal
  obtain ⟨_, shape', t, hl', ht, _⟩ := hcoherent.merges l j v hv
  obtain rfl : shape = shape' := Option.some.inj (hl.symm.trans hl')
  have hj : j < temps.length := by
    have hlt := (List.getElem?_eq_some_iff.1 ht).1
    have heq := congrArg List.length hshape
    rw [List.length_map, List.length_reverse, List.length_map] at heq
    rw [h.length]
    omega
  have htemp := List.getElem?_eq_getElem hj
  have huv := h.merges_final hfinal j _ htemp
  rw [hv] at huv
  rw [htemp, Option.some.inj huv]

theorem not_mem_of_local (hcoherent : final.Coherent) {k : Nat × LocalKind}
    (hk : entered? k final.locals = some (.var v)) : v ∉ temps := by
  intro hmem
  obtain ⟨i, hi⟩ := List.mem_iff_getElem?.1 hmem
  exact hcoherent.apart k (l, i) v hk (h.merges_final hfinal i v hi)

end Flows

end Lift

/-- Control comes to a label with a frame: the temporaries of the label hold the frame's stack. -/
structure Arrives {ρ η : Type} (final : Machine) (l : Label) (f : Frame ρ η)
    (s : Store ρ η) : Prop where
  shape : ∃ shape, entered? l final.shapes = some shape ∧
    shape.map Ty.isWide = (f.stack.map Value.isWide).reverse
  temps : ∀ j v, entered? (l, j) final.merges = some v → f.stack.reverse[j]? = some (s.vars v)
  memory : s.memory = f.memory
  locals : HoldsLocals final f.locals s

section

variable {f : Frame ρ η} {s : Store ρ η}

/-- Going to a label stores the frame's stack in the temporaries of the label, and assigns no other
variable that was there before. -/
theorem Matches.flows (hmatch : Matches w env final m f s) (h : Lift.Flows env l m m₁ m₂ m' temps)
    (hfinal : m'.Grows ls final) (hcoherent : final.Coherent) :
    ∃ s', m.Passes w.semantics m' s s' ∧ Arrives final l f s' ∧
      ∀ x : Var, x.index < m.vars.size → x ∉ temps → s'.vars x = s.vars x := by
  have hes₁ := h.settles.advances.entries
  obtain ⟨hadds, hes₂, hspilled, _, hkeep⟩ := spillStack_spec h.spill hes₁
  obtain ⟨s₂, ⟨ss, hss, hrun⟩, hstack, hvars⟩ := hkeep w s _ _ (h.settles.stack ▸ hmatch.stack)
  have hout : m'.out = m.out ++ (ss ++ Lift.moves m₂.stack.reverse temps) := by
    rw [h.out]
    show m₂.out ++ _ = _
    rw [hss, h.settles.out, List.append_assoc]
  have hlen : temps.length = m₂.stack.reverse.length := by
    rw [List.length_reverse, hspilled.length, h.settles.stack, h.length]
  obtain ⟨s', hs', hmem, htemps, hother⟩ := moves_run hlen h.nodup
    (Lift.pairwise_storedBehind hspilled h.nodup fun t ht => h.index_lt ht)
    (fun e he => (hes₂ e (List.mem_reverse.1 he)).plain)
    (World.evalList_reverse_eq_ok hstack) rfl fun _ _ _ _ => rfl
  have hsize : m.vars.size ≤ m₁.vars.size := h.settles.advances.grows.vars.size
  have hfinal₂ : m₂.Grows ([] ++ ls) final := by
    have hadds' : m₂.Adds m' := by
      rw [h.out]
      exact ⟨.refl _, ⟨_, rfl, Lift.placedLabel?_moves _ _⟩, rfl, rfl, rfl⟩
    exact hadds'.grows.trans hfinal
  refine ⟨s', ⟨_, hout, Flat.straight_append hrun hs'⟩, ⟨?_, ?_, hmem, ?_⟩, ?_⟩
  · obtain ⟨shape, hl, hshape⟩ := h.shape_final hfinal
    exact ⟨shape, hl, by rw [hshape, hmatch.wides]⟩
  · intro j v hv
    rw [← htemps, List.getElem?_map, h.getElem?_temps hfinal hcoherent hv]
    rfl
  · refine hmatch.locals.of_vars fun k v hk => ?_
    rw [hother v (h.not_mem_of_local hfinal hcoherent hk)]
    exact hvars v (hadds.old_or_later h.settles.advances.coherent hfinal₂ hk)
  · intro x hx hnot
    rw [hother x hnot]
    exact hvars x (.inl (by omega))

/-! ## Behind a label -/

theorem World.evalStack_vars (w : World ρ η) (vs : List Var) (s : Store ρ η) :
    w.evalStack (vs.map Expr.var) s = .ok (vs.map s.vars) s := by
  induction vs with
  | nil => rfl
  | cons v vs ih => exact evalStack_cons_eq_ok.2 ⟨_, _, s, ih, w.eval_var v s, rfl⟩

/-- The state in which a label was emitted. -/
def Machine.withLabel (m : Machine) (l : Label) : Machine := { m with out := m.out ++ [.label l] }

theorem Machine.grows_withLabel (m : Machine) (l : Label) : m.Grows [l] (m.withLabel l) :=
  ⟨.refl _, ⟨_, rfl, rfl⟩, fun _ _ h => h, fun _ _ h => .inl h, fun _ _ h => h, fun _ _ h => .inl h,
    fun _ shape h => ⟨shape, h, rfl⟩⟩

theorem Machine.Coherent.withLabel (hm : m.Coherent) : (m.withLabel l).Coherent :=
  ⟨hm.locals, hm.locals_inj, hm.merges, hm.merges_inj, hm.apart⟩

/-- The stack consists of reads of the temporaries of a label. -/
structure Machine.Merged (m : Machine) (l : Label) (temps : List Var) : Prop where
  stack : m.stack = (temps.map Expr.var).reverse
  merges : ∀ i v, temps[i]? = some v → entered? (l, i) m.merges = some v
  shape : ∃ shape, entered? l m.shapes = some shape ∧ shape.length = temps.length

theorem Machine.Merged.entries (h : m.Merged l temps) (hm : m.Coherent) : m.Entries := by
  intro e he
  rw [h.stack, List.mem_reverse] at he
  obtain ⟨v, hv, rfl⟩ := List.mem_map.1 he
  obtain ⟨i, hi⟩ := List.mem_iff_getElem?.1 hv
  exact entry_var (hm.merges l i v (h.merges i v hi)).1

/-- A frame that comes to a label is matched there. -/
theorem Arrives.matches (h : Arrives final l f s) (hmerged : m.Merged l temps) (hm : m.Coherent)
    (hfinal : m.Grows ls final) : Matches w env final m f s := by
  obtain ⟨shape, hl, hlen⟩ := hmerged.shape
  obtain ⟨shape', hl', hshape⟩ := hfinal.shapes l shape hl
  obtain ⟨shape'', hl'', hwides⟩ := h.shape
  obtain rfl : shape' = shape'' := Option.some.inj (hl'.symm.trans hl'')
  have hwides' : shape.map Ty.isWide = (f.stack.map Value.isWide).reverse :=
    hshape.symm.trans hwides
  have hdepth : f.stack.reverse.length = temps.length := by
    have heq := congrArg List.length hwides'
    simp only [List.length_map, List.length_reverse] at heq ⊢
    omega
  have hvalues : f.stack.reverse = temps.map s.vars := by
    refine List.ext_getElem? fun i => ?_
    rw [List.getElem?_map]
    cases hi : temps[i]? with
    | none => exact List.getElem?_eq_none (by rw [hdepth]; exact List.getElem?_eq_none_iff.1 hi)
    | some v => exact h.temps i v (hfinal.merges _ _ (hmerged.merges i v hi))
  have hstack : f.stack = (temps.map s.vars).reverse := by rw [← hvalues, List.reverse_reverse]
  refine ⟨?_, ?_, h.locals⟩
  · rw [hmerged.stack, hstack, ← List.map_reverse, ← List.map_reverse,
      World.evalStack_vars, ← h.memory]
  · have htys : temps.map (fun v => (m.vars.ty v).isWide) = shape.map Ty.isWide := by
      refine List.ext_getElem? fun i => ?_
      rw [List.getElem?_map, List.getElem?_map]
      cases hi : temps[i]? with
      | none => rw [List.getElem?_eq_none (by rw [hlen]; exact List.getElem?_eq_none_iff.1 hi)]; rfl
      | some v =>
        obtain ⟨_, shape₁, t, hl₁, ht, hwide⟩ := hm.merges l i v (hmerged.merges i v hi)
        obtain rfl : shape = shape₁ := Option.some.inj (hl.symm.trans hl₁)
        rw [ht, Option.map_some, Option.map_some, hwide]
    rw [hmerged.stack, List.map_reverse, List.map_map,
      ← List.reverse_reverse (f.stack.map Value.isWide), ← hwides', ← htys]
    rfl

end

namespace Lift

/-- Emits a label and goes on with what is recorded there on the stack. -/
def passLabel (env : Env) (l : Label) : Lift Unit := do
  append [.label l]
  let shape := (entered? l (← get).shapes).getD []
  modify fun m => { m with shapes := enter l shape m.shapes }
  let temps ← mergeTemps env l 0 shape
  modify fun m => { m with stack := (temps.map Expr.var).reverse }

theorem enterLabel_eq_ok {runsOn : Bool} (h : enterLabel env l runsOn m = .ok () m') :
    ∃ m₁, (if runsOn then flowTo env l m = .ok () m₁ else m₁ = m) ∧
    passLabel env l m₁ = .ok () m' := by
  unfold enterLabel at h
  cases runsOn with
  | true =>
    simp only [if_true] at h
    obtain ⟨_, m₁, hflow, h⟩ := bind_eq_ok.1 h
    exact ⟨m₁, hflow, h⟩
  | false =>
    simp only [Bool.false_eq_true, if_false] at h
    obtain ⟨_, m₁, hget, hrest⟩ := bind_eq_ok.1 h
    obtain ⟨rfl, rfl⟩ := get_eq_ok.1 hget
    split at hrest
    · simp only [bind_eq_ok, mismatch_eq_ok, false_and, exists_false] at hrest
    · exact ⟨m₁, rfl, hrest⟩

/-- Behind a label the stack consists of reads of its temporaries. -/
theorem passLabel_spec (h : passLabel env l m = .ok () m') (hm : m.Coherent) (hes : m.Entries) :
    m.Grows [l] m' ∧ m'.Coherent ∧ m'.out = m.out ++ [.label l] ∧ ∃ temps, m'.Merged l temps := by
  simp only [passLabel, bind_eq_ok, append_eq_ok, get_eq_ok, modify_eq_ok] at h
  obtain ⟨_, _, rfl, _, _, ⟨rfl, rfl⟩, _, _, rfl, temps, m₂, htemps, rfl⟩ := h
  generalize hshape : (entered? l m.shapes).getD [] = shape at htemps
  replace htemps : mergeTemps env l 0 shape ((m.withLabel l).withShape l shape) = .ok temps m₂ :=
    htemps
  have hsettles : (m.withLabel l).Settles ((m.withLabel l).withShape l shape) :=
    Machine.settles_withShape hm.withLabel hes fun old hold => by
      rw [← hshape, show entered? l m.shapes = some old from hold]
      rfl
  have hl : entered? l ((m.withLabel l).withShape l shape).shapes = some shape :=
    (Machine.entered?_withShape l).trans (if_pos rfl)
  obtain ⟨hsettles', hlen, hshapes, hmerges⟩ := mergeTemps_spec htemps hsettles.advances.coherent
    hsettles.advances.entries fun i t ht => ⟨shape, t, hl, by rwa [Nat.zero_add], rfl⟩
  obtain ⟨hadv, _, hout, _⟩ := hsettles.trans hsettles'
  have hadds := Machine.Adds.restack m₂ (temps.map Expr.var).reverse
  refine ⟨(Machine.grows_withLabel m l).trans (hadv.grows.trans hadds.grows),
    hadds.coherent hadv.coherent,
    hout, temps, rfl, fun i v hv => ?_, shape, hshapes ▸ hl, hlen.symm⟩
  have hp := hmerges i v hv
  rwa [Nat.zero_add] at hp

end Lift

end ByteLift
