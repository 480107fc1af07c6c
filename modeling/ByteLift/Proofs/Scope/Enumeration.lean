import Mathlib.Data.List.Permutation
import ByteLift.Proofs.Scope.Laminar
import ByteLift.Proofs.Scope.Totality

/-!
# The order in which scopes are listed

The outcome of widening depends on the order of the scopes in one way: a loop that has yet to grow
past the end of a forward scope pulls the scope back to its own start, if it gets to do so in time.
The loops that come out do not depend on it, and the order of the code succeeds if any order does.
All of this rests on one comparison: widening stays inside scopes that do not cross and hold those
being widened.
-/

namespace ByteLift

open Scope

/-- Some loop ended before a forward scope that starts behind its start, and was widened past the
end of it. -/
def Overgrown (flat : Block) (wide : List Scope) : Prop :=
  ∃ l ∈ initialScopes flat, ∃ t ∈ wide, ∃ f ∈ initialScopes flat, l.kind = .loop ∧ t.kind = .loop ∧
    t.target = l.target ∧ f.kind = .forward ∧ l.start < f.start ∧ l.stop < f.stop ∧ f.stop ≤ t.stop

/-! ## Scopes held by others -/

/-- What holds of the result, or of failing. -/
def Outcome {α : Type} (P : α → Prop) (Q : Prop) : Except Label α → Prop
  | .ok a => P a
  | .error _ => Q

theorem Outcome.bind {α β : Type} {P : α → Prop} {R : β → Prop} {Q : Prop} {x : Except Label α}
    {f : α → Except Label β}
    (hx : Outcome P Q x) (hf : ∀ a, P a → Outcome R Q (f a)) : Outcome R Q (x >>= f) := by
  cases x with
  | ok a => exact hf a hx
  | error l => exact hx

/-- What every pair keeps, widening keeps; it fails only if some pair does. -/
theorem outcome_widen {P : List Scope → Prop} {Q : Prop}
    (hpair : ∀ scopes p, P scopes → Outcome (P ·.val) Q (widenPair scopes p)) (k : Nat)
    {scopes : List Scope} (h : P scopes) : Outcome P Q (widen k scopes) := by
  have hpairs (ps : List (Nat × Nat)) {scopes : List Scope} (h : P scopes) :
      Outcome (P ·.val) Q (widenPairs ps scopes) := by
    induction ps generalizing scopes with
    | nil => exact h
    | cons p ps ih =>
      exact (hpair scopes p h).bind fun first hfirst => (ih hfirst).bind fun _ hlater => hlater
  induction k generalizing scopes with
  | zero => exact h
  | succ k ih =>
    refine (hpairs (pairs scopes.length) h).bind fun r hr => ?_
    split
    · exact ih hr
    · exact hr

section

variable {A t B u : Scope} (hAt : A.Widens t) (hBu : B.Widens u)
include hAt hBu

/-- A loop that grows over another one stays in a loop around it that does not cross the one around
the other. -/
theorem Scope.Widens.grow (hkA : A.kind = .loop) (hkB : B.kind = .loop)
    (hcross : A.crosses B = true)
    (hno : t.crosses u = false) : Widens { A with stop := B.stop } t := by
  rw [crosses_iff] at hcross
  rw [crosses_eq_false_iff] at hno
  have h₁ := hAt.start_eq hkA
  have h₂ := hAt.le_stop
  have h₃ := hBu.start_eq hkB
  have h₄ := hBu.le_stop
  refine ⟨hAt.kind, hAt.target, hAt.start_le, ?_, ?_, fun _ => h₁⟩
  · show B.stop ≤ t.stop
    omega
  · simp [hkA]

/-- A forward scope that is pulled back to the start of another scope stays in one around it, unless
the one around the other scope ends behind it. -/
theorem Scope.Widens.pull (hkB : B.kind = .forward) (hcross : A.crosses B = true)
    (hno : t.crosses u = false)
    (hstop : t.stop < B.stop) : Widens { B with start := A.start } u := by
  rw [crosses_iff] at hcross
  rw [crosses_eq_false_iff] at hno
  have h₁ := hAt.start_le
  have h₂ := hAt.le_stop
  have h₃ := hBu.start_le
  have h₄ := hBu.stop_eq hkB
  refine ⟨hBu.kind, hBu.target, ?_, hBu.le_stop, hBu.stop_eq, ?_⟩
  · show u.start ≤ A.start
    omega
  · simp [hkB]

end

/-- The loops, or all scopes, lie between those that their labels started out with and outer
ones. -/
def Held (flat : Block) (all : Bool) (outer scopes : List Scope) : Prop :=
  ∀ s ∈ scopes, all = true ∨ s.kind = .loop → (∃ l ∈ initialScopes flat, l.Widens s) ∧
    ∃ t ∈ outer, s.Widens t

/-- Widening stays inside scopes that do not cross: the loops do in any case, and forward scopes do
unless a loop is overgrown. Then widening does not fail either. -/
theorem outcome_held {flat : Block} {all : Bool} {outer scopes : List Scope} {p : Nat × Nat}
    (hapart : Apart outer)
    (hgrown : all = true → ¬ Overgrown flat outer) (h : Held flat all outer scopes) :
    Outcome (Held flat all outer ·.val) (all = false) (widenPair scopes p) := by
  have hpair := pairWidened scopes p
  generalize widenPair scopes p = x at hpair ⊢
  cases hpair with
  | still => exact h
  | @pull A B hA hB hcross hkB =>
    have hlt := crosses_iff.1 hcross
    intro s hs hall
    rcases List.mem_or_eq_of_mem_set hs with hs | rfl
    · exact h s hs hall
    have hall : all = true := hall.resolve_right (by simp [hkB])
    obtain ⟨⟨a, ha, haA⟩, t, ht, hAt⟩ := h A (List.mem_of_getElem? hA) (.inl hall)
    obtain ⟨⟨b, hb, hbB⟩, u, hu, hBu⟩ := h B (List.mem_of_getElem? hB) (.inl hall)
    have hstop : t.stop < B.stop := by
      cases hkA : A.kind with
      | forward =>
        rw [hAt.stop_eq hkA]
        exact hlt.2.2
      | loop =>
        -- Otherwise the loop has grown past the end of the forward scope.
        by_contra hpast
        have hka := haA.kind.symm.trans hkA
        have hkb := hbB.kind.symm.trans hkB
        have h₁ := haA.start_eq hka
        have h₂ := haA.le_stop
        have h₃ := hbB.start_le
        have h₄ := hbB.stop_eq hkb
        exact hgrown hall ⟨a, ha, t, ht, b, hb, hka, hAt.kind.trans hkA,
          hAt.target.trans haA.target, hkb, by omega⟩
    exact ⟨⟨b, hb, hbB.trans (widens_start hcross hkB)⟩, u, hu,
      hAt.pull hBu hkB hcross (hapart t ht u hu) hstop⟩
  | @grow A B hA hB hcross hkA hkB =>
    intro s hs hall
    rcases List.mem_or_eq_of_mem_set hs with hs | rfl
    · exact h s hs hall
    obtain ⟨⟨a, ha, haA⟩, t, ht, hAt⟩ := h A (List.mem_of_getElem? hA) (.inr hkA)
    obtain ⟨_, u, hu, hBu⟩ := h B (List.mem_of_getElem? hB) (.inr hkB)
    exact ⟨⟨a, ha, haA.trans (widens_stop hcross hkA)⟩, t, ht,
      hAt.grow hBu hkA hkB hcross (hapart t ht u hu)⟩
  | @stuck A B hA hB hcross hkA hkB =>
    have hlt := crosses_iff.1 hcross
    cases all with
    | false => rfl
    | true =>
      -- The scopes around would cross as well.
      obtain ⟨_, t, ht, hAt⟩ := h A (List.mem_of_getElem? hA) (.inl rfl)
      obtain ⟨_, u, hu, hBu⟩ := h B (List.mem_of_getElem? hB) (.inl rfl)
      have hno := crosses_eq_false_iff.1 (hapart t ht u hu)
      have h₁ := hAt.start_le
      have h₂ := hAt.stop_eq hkA
      have h₃ := hBu.start_eq hkB
      have h₄ := hBu.le_stop
      omega

theorem Scope.Widens.antisymm {s t : Scope} (h : s.Widens t) (k : t.Widens s) : s = t := by
  have hstart := Nat.le_antisymm k.start_le h.start_le
  have hstop := Nat.le_antisymm h.le_stop k.le_stop
  have hkind := k.kind
  have htarget := k.target
  cases s
  cases t
  simp_all

/-- A scope that lies in a scope which lies in one of its own list is that scope. -/
theorem eq_of_widens {scopes : List Scope}
    (hdistinct : scopes.Pairwise fun s t => ¬ (s.kind = t.kind ∧ s.target = t.target))
    {s t u : Scope}
    (hs : s ∈ scopes) (hu : u ∈ scopes) (hst : s.Widens t) (htu : t.Widens u) : s = t := by
  have hsymm : Std.Symm fun s t : Scope => ¬ (s.kind = t.kind ∧ s.target = t.target) :=
    ⟨fun _ _ h k => h ⟨k.1.symm, k.2.symm⟩⟩
  have hsu : s = u := by
    by_contra hne
    exact hdistinct.forall hs hu hne ⟨(htu.kind.trans hst.kind).symm,
      (htu.target.trans hst.target).symm⟩
  exact hst.antisymm (hsu ▸ htu)

theorem Scope.le_antisymm (s t : Scope) (hst : s.le t = true) (hts : t.le s = true) : s = t := by
  obtain ⟨kind, ⟨target⟩, start, stop⟩ := s
  obtain ⟨kind', ⟨target'⟩, start', stop'⟩ := t
  simp only [le, Bool.or_eq_true, Bool.and_eq_true, decide_eq_true_eq] at hst hts
  have hstart : start = start' := by omega
  have hstop : stop = stop' := by omega
  subst hstart hstop
  cases kind <;> cases kind' <;> simp at hst hts <;> grind

/-! ## Orders -/

namespace Enumeration

variable {flat : Block} {o o' : Enumeration flat} {wide wide' : List Scope}

/-- Every scope at the outset lies in one that comes out. -/
theorem exists_widens (h : o.widened = .ok wide) {s : Scope} (hs : s ∈ initialScopes flat) :
    ∃ t ∈ wide, s.Widens t :=
  (o.widened_spec h).1.exists_mem (o.mem_scopes.2 hs)

/-- What one order gives holds what any other order gives. -/
theorem outcome_widened (all : Bool) (o' : Enumeration flat) (h : o.widened = .ok wide)
    (hgrown : all = true → ¬ Overgrown flat wide) :
    Outcome (Held flat all wide) (all = false) o'.widened := by
  refine outcome_widen (fun _ _ => outcome_held (o.widened_spec h).2.2 hgrown) _ ?_
  intro s hs _
  have hs := o'.mem_scopes.1 hs
  exact ⟨⟨s, hs, .refl s⟩, exists_widens h hs⟩

theorem mem_of_held {all : Bool} (h : o.widened = .ok wide) (hheld : Held flat all wide' wide)
    (hheld' : Held flat all wide wide') {s : Scope} (hs : s ∈ wide)
    (hall : all = true ∨ s.kind = .loop) : s ∈ wide' := by
  obtain ⟨_, t, ht, hst⟩ := hheld s hs hall
  obtain ⟨_, u, hu, htu⟩ := hheld' t ht (hall.imp_right hst.kind.trans)
  rwa [eq_of_widens (o.distinct h) hs hu hst htu]

/-- The loops that come out are the same in any two orders that succeed. -/
theorem mem_of_loop (h : o.widened = .ok wide) (h' : o'.widened = .ok wide') {s : Scope}
    (hs : s ∈ wide) (hk : s.kind = .loop) : s ∈ wide' := by
  have hheld := outcome_widened false o h' fun hall => (by cases hall)
  have hheld' := outcome_widened false o' h fun hall => (by cases hall)
  rw [h] at hheld
  rw [h'] at hheld'
  exact mem_of_held h hheld hheld' hs (.inr hk)

/-- An order without overgrown loops gives what any other order gives. -/
theorem exists_same (o' : Enumeration flat) (h : o.widened = .ok wide)
    (hgrown : ¬ Overgrown flat wide) :
    ∃ wide', o'.widened = .ok wide' ∧ ∀ s, s ∈ wide' ↔ s ∈ wide := by
  have hheld' := outcome_widened true o' h fun _ => hgrown
  cases h' : o'.widened with
  | error l =>
    rw [h'] at hheld'
    cases hheld'
  | ok wide' =>
    have hgrown' : ¬ Overgrown flat wide' := by
      rintro ⟨l, hl, t, ht, f, hf, hkl, hkt, hrest⟩
      exact hgrown ⟨l, hl, t, mem_of_loop h' h ht hkt, f, hf, hkl, hkt, hrest⟩
    have hheld := outcome_widened true o h' fun _ => hgrown'
    rw [h'] at hheld'
    rw [h] at hheld
    exact ⟨wide', rfl, fun s => ⟨fun hs => mem_of_held h' hheld' hheld hs (.inl rfl),
      fun hs => mem_of_held h hheld hheld' hs (.inl rfl)⟩⟩

/-- If any order succeeds, then there is nothing at the outset that makes the order of the code
fail. -/
theorem steady_of_widened (h : o.widened = .ok wide) : Steady 0 0 (ofCode flat).scopes where
  clean F hF L hL hkF hkL := by
    rw [mem_scopes] at hF hL
    obtain ⟨F', hF', hFF⟩ := exists_widens h hF
    obtain ⟨L', hL', hLL⟩ := exists_widens h hL
    have hno := (o.widened_spec h).2.2 F' hF' L' hL'
    rw [crosses_eq_false_iff] at hno ⊢
    have h₁ := hFF.start_le
    have h₂ := hFF.stop_eq hkF
    have h₃ := hLL.start_eq hkL
    have h₄ := hLL.le_stop
    omega
  safe L hL M hM F hF hkL hkM hkF hLM hLF := by
    rw [mem_scopes] at hL hM hF
    rw [crosses_iff] at hLM hLF
    by_contra hout
    obtain ⟨a, ha⟩ := List.mem_iff_getElem?.1 (o.mem_scopes.2 hL)
    have hpull : Pulled o.scopes F (a + 1) L.start :=
      .loop (.start (Nat.le_refl _)) ha hkL (Nat.zero_le a) hLF.2.1 hLF.2.2
    exact o.ne_ok_of_pulled hpull hF hkF hM hkM hLM.1 (by omega) (by omega) wide h
  closed i L hi := by omega
  swept L hL hkL j M hj := by omega
  sorted := loopsSorted_ofCode flat

/-- Lists of the same widened scopes are sorted into the same list. -/
theorem mergeSort_eq (h : o.widened = .ok wide) (h' : o'.widened = .ok wide')
    (hsame : ∀ s, s ∈ wide' ↔ s ∈ wide) : wide'.mergeSort le = wide.mergeSort le := by
  have hnodup {o : Enumeration flat} {wide : List Scope} (h : o.widened = .ok wide) :
    wide.Nodup := by
    refine (o.distinct h).imp ?_
    rintro s _ hne rfl
    exact hne ⟨rfl, rfl⟩
  have hperm : wide'.Perm wide := (List.perm_ext_iff_of_nodup (hnodup h') (hnodup h)).2 hsame
  refine List.Perm.eq_of_pairwise (fun s t _ _ => le_antisymm s t)
    (List.pairwise_mergeSort le_trans le_total _)
    (List.pairwise_mergeSort le_trans le_total _) ?_
  exact (List.mergeSort_perm _ _).trans (hperm.trans (List.mergeSort_perm _ _).symm)

/-- If any order of the scopes succeeds, then so does the order of the code. Orders that succeed
give the same loops. And if no loop has grown past the end of a forward scope, then all other orders
succeed as well and give the same scopes, and code is nested in the same ones. -/
theorem outcome_of_order (o o' : Enumeration flat) :
    ((∃ wide, o.widened = .ok wide) → ∃ wide, (ofCode flat).widened = .ok wide) ∧
      (∀ wide wide', o.widened = .ok wide → o'.widened = .ok wide' →
        ∀ s, s.kind = .loop → (s ∈ wide ↔ s ∈ wide')) ∧
      (∀ wide, o.widened = .ok wide → ¬ Overgrown flat wide →
        (∃ wide', o'.widened = .ok wide' ∧ ∀ s, s ∈ wide' ↔ s ∈ wide) ∧
          ∀ labels, ByteLift.scopes flat o' labels = ByteLift.scopes flat o labels) := by
  refine ⟨?_, fun wide wide' h h' s hk => ?_, fun wide h hgrown => ?_⟩
  · rintro ⟨wide, h⟩
    exact (steady_of_widened h).widen_ok _
  · exact ⟨fun hs => mem_of_loop h h' hs hk, fun hs => mem_of_loop h' h hs hk⟩
  · obtain ⟨wide', h', hsame⟩ := exists_same o' h hgrown
    refine ⟨⟨wide', h', hsame⟩, fun labels => ?_⟩
    simp only [ByteLift.scopes, h, h', mergeSort_eq h h' hsame]

/-- `A: B: if (v) goto C; if (v) goto D; if (v) goto B; C: if (v) goto A; D:` is two nested loops
with jumps out of both of them. -/
def jumpsOut (v : Expr) : Block :=
  [.label ⟨0⟩, .label ⟨1⟩, .goto ⟨2⟩ (some v), .goto ⟨3⟩ (some v), .goto ⟨1⟩ (some v), .label ⟨2⟩,
    .goto ⟨0⟩ (some v), .label ⟨3⟩]

/-- Both forward scopes and both loops are listed the other way round there. -/
theorem outcome_of_order_jumpsOut :
    let o : Enumeration (jumpsOut (.boolean true)) :=
  ⟨[⟨.forward, ⟨3⟩, 3, 7⟩, ⟨.forward, ⟨2⟩, 2, 5⟩],
      [⟨.loop, ⟨1⟩, 1, 5⟩, ⟨.loop, ⟨0⟩, 0, 7⟩], by decide, by decide⟩
    ∃ wide, o.widened = .ok wide ∧ ∀ s, s ∈ wide ↔ s ∈
      [⟨.forward, ⟨2⟩, 2, 5⟩, ⟨.forward, ⟨3⟩, 1, 7⟩, ⟨.loop, ⟨0⟩, 0, 7⟩, ⟨.loop, ⟨1⟩, 1, 5⟩] := by
  intro o
  refine ((outcome_of_order (ofCode _) o).2.2 _ (by rfl) ?_).1
  unfold Overgrown
  decide

/-- `A: B: C: if (v) goto A; if (v) goto D; if (v) goto C; v; D: if (v) goto B; return;` is three
loops, of which the first crosses the second, which lies around the third. -/
def crossedLoops (a b c d : Label) (v : Expr) : Block :=
  [.label a, .label b, .label c, .goto a (some v), .goto d (some v), .goto c (some v), .expr v,
    .label d, .goto b (some v), .ret none]

/-- There the order decides, and with it the numbers of the labels. If the third loop comes first,
it pulls the forward scope into the reach of the first one, which then pulls it out of the
second. -/
theorem order_matters_crossedLoops :
    LabelsOnce (crossedLoops ⟨2⟩ ⟨1⟩ ⟨0⟩ ⟨3⟩ (.var ⟨0⟩)) ∧
      (∃ nested, (crossedLoops ⟨0⟩ ⟨1⟩ ⟨2⟩ ⟨3⟩ (.var ⟨0⟩)).nest ⟨#["A", "B", "C", "D"]⟩ .empty =
        .ok nested) ∧
      (crossedLoops ⟨2⟩ ⟨1⟩ ⟨0⟩ ⟨3⟩ (.var ⟨0⟩)).nest ⟨#["C", "B", "A", "D"]⟩ .empty =
        .error (.irreducible "D") := by
  have honce : LabelsOnce (crossedLoops ⟨2⟩ ⟨1⟩ ⟨0⟩ ⟨3⟩ (.var ⟨0⟩)) := by decide +kernel
  have hwide : (ofTables (crossedLoops ⟨0⟩ ⟨1⟩ ⟨2⟩ ⟨3⟩ (.var ⟨0⟩))).widened.isOk = true := by cbv
  have hfails : (ofTables (crossedLoops ⟨2⟩ ⟨1⟩ ⟨0⟩ ⟨3⟩ (.var ⟨0⟩))).widened = .error ⟨3⟩ := by cbv
  refine ⟨honce, (nest_ok_iff (by decide +kernel) (by decide +kernel) _).2 ?_, ?_⟩
  · cases h : (ofTables (crossedLoops ⟨0⟩ ⟨1⟩ ⟨2⟩ ⟨3⟩ (.var ⟨0⟩))).widened with
    | error l =>
      rw [h] at hwide
      cases hwide
    | ok wide => exact ⟨wide, rfl⟩
  · obtain ⟨finish, hnest⟩ := nest_eq_of_widened _ _ honce (by decide +kernel) ofTables
    rw [hnest, hfails]
    rfl

end Enumeration

end ByteLift
