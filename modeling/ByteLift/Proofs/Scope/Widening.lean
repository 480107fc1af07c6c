import Mathlib.Algebra.GroupWithZero.Nat
import ByteLift.Proofs.Scope.Initial

/-!
# Widening scopes

Widening only ever moves the start of a forward scope back and the end of a loop on, `Scope.Widens`.
Each change uses up some of the room that is left in the code, `slack`, and there are more rounds
than room. So the scopes that widening gives do not cross: `widen_apart`.
-/

namespace ByteLift

open Tracked

variable {s t : Scope} {wide : List Scope}

namespace Scope

variable {a b : Scope}

@[simp] theorem crosses_iff :
    a.crosses b = true ↔ a.start < b.start ∧ b.start < a.stop ∧ a.stop < b.stop := by
  simp [crosses, and_assoc]

theorem crosses_eq_false_iff :
    a.crosses b = false ↔ ¬ (a.start < b.start ∧ b.start < a.stop ∧ a.stop < b.stop) := by
  rw [Bool.eq_false_iff, ne_eq, crosses_iff]

/-- The second scope is the first one widened: a forward scope may start earlier and a loop may end
later. -/
structure Widens (s t : Scope) : Prop where
  kind : t.kind = s.kind
  target : t.target = s.target
  start_le : t.start ≤ s.start
  le_stop : s.stop ≤ t.stop
  stop_eq : s.kind = .forward → t.stop = s.stop
  start_eq : s.kind = .loop → t.start = s.start

theorem Widens.refl (s : Scope) : s.Widens s :=
  ⟨rfl, rfl, Nat.le_refl _, Nat.le_refl _, fun _ => rfl, fun _ => rfl⟩

theorem Widens.trans {u : Scope} (h : s.Widens t) (k : t.Widens u) : s.Widens u where
  kind := k.kind.trans h.kind
  target := k.target.trans h.target
  start_le := Nat.le_trans k.start_le h.start_le
  le_stop := Nat.le_trans h.le_stop k.le_stop
  stop_eq hs := (k.stop_eq (h.kind.trans hs)).trans (h.stop_eq hs)
  start_eq hs := (k.start_eq (h.kind.trans hs)).trans (h.start_eq hs)

theorem ne_forward : s.kind ≠ .forward ↔ s.kind = .loop := by
  cases s.kind <;> simp

/-- A scope that lies over the code as it should still does when it is widened. -/
theorem Fits.widens {flat : Block} (hs : s.Fits flat) (h : s.Widens t) (ht : t.stop ≤ flat.length) :
    t.Fits flat where
  start_lt_stop := Nat.lt_of_le_of_lt h.start_le (Nat.lt_of_lt_of_le hs.start_lt_stop h.le_stop)
  stop_le := ht
  label := by
    rw [h.target, hs.label, h.kind]
    split
    · rw [h.stop_eq ‹_›]
    · rw [h.start_eq (ne_forward.1 ‹_›)]
  forward_jump hk i hi hlt := by
    rw [h.kind] at hk
    rw [h.target] at hi
    rw [h.stop_eq hk] at hlt
    exact Nat.le_trans h.start_le (hs.forward_jump hk i hi hlt)
  loop_jump hk i hi hlt := by
    rw [h.kind] at hk
    rw [h.target] at hi
    rw [h.start_eq hk] at hlt
    exact Nat.lt_of_lt_of_le (hs.loop_jump hk i hi hlt) h.le_stop

theorem widens_start (hcross : a.crosses b = true) (hb : b.kind = .forward) :
    b.Widens { b with start := a.start } :=
  ⟨rfl, rfl, Nat.le_of_lt (crosses_iff.1 hcross).1, Nat.le_refl _, fun _ => rfl, by simp [hb]⟩

theorem widens_stop (hcross : a.crosses b = true) (ha : a.kind = .loop) :
    a.Widens { a with stop := b.stop } :=
  ⟨rfl, rfl, Nat.le_refl _, Nat.le_of_lt (crosses_iff.1 hcross).2.2, by simp [ha], fun _ => rfl⟩

end Scope

/-! ## One pair -/

/-- What widening a pair of scopes comes to. If the first does not cross the second, nothing
changes; otherwise the second starts earlier, the first ends later, or the two cannot be mended. -/
inductive PairWidened (scopes : List Scope) (a b : Nat) : Except Label (Tracked (List Scope)) → Prop
  | still (h : ∀ A B, scopes[a]? = some A → scopes[b]? = some B → A.crosses B = false) :
    PairWidened scopes a b (.ok (pure scopes))
  | pull {A B : Scope} (hA : scopes[a]? = some A) (hB : scopes[b]? = some B)
    (hcross : A.crosses B = true)
    (hk : B.kind = .forward) :
    PairWidened scopes a b (.ok (.mark (scopes.set b { B with start := A.start })))
  | grow {A B : Scope} (hA : scopes[a]? = some A) (hB : scopes[b]? = some B)
    (hcross : A.crosses B = true)
    (hkA : A.kind = .loop) (hkB : B.kind = .loop) :
    PairWidened scopes a b (.ok (.mark (scopes.set a { A with stop := B.stop })))
  | stuck {A B : Scope} (hA : scopes[a]? = some A) (hB : scopes[b]? = some B)
    (hcross : A.crosses B = true)
    (hkA : A.kind = .forward) (hkB : B.kind = .loop) : PairWidened scopes a b (.error A.target)

theorem pairWidened (scopes : List Scope) (p : Nat × Nat) :
    PairWidened scopes p.1 p.2 (widenPair scopes p) := by
  unfold widenPair
  split
  · rename_i A B hA hB
    split
    · rename_i hcross
      split
      · exact .pull hA hB hcross ‹_›
      · have hkB := Scope.ne_forward.1 ‹_›
        split
        · exact .grow hA hB hcross ‹_› hkB
        · exact .stuck hA hB hcross (Decidable.not_not.1 (Scope.ne_forward.not.2 ‹_›)) hkB
    · rename_i hcross
      refine .still fun A' B' hA' hB' => ?_
      cases hA.symm.trans hA'
      cases hB.symm.trans hB'
      exact Bool.eq_false_iff.2 hcross
  · rename_i hnone
    exact .still fun A B hA hB => (hnone A B hA hB).elim

/-- The room that scopes have left in code of length `n`: before their start and behind their
end. -/
def slack (n : Nat) (scopes : List Scope) : Nat :=
  (scopes.map fun s => s.start + (n - s.stop)).sum

variable {n : Nat} {scopes : List Scope} {r : Tracked (List Scope)} {ps : List (Nat × Nat)}

theorem slack_le (h : ∀ s ∈ scopes, s.start < s.stop ∧ s.stop ≤ n) :
    slack n scopes ≤ scopes.length * (2 * n) := by
  induction scopes with
  | nil => simp [slack]
  | cons s ss ih =>
    have hs := h s (by simp)
    have hss := ih fun t ht => h t (by simp [ht])
    simp only [slack, List.map_cons, List.sum_cons, List.length_cons, Nat.add_mul] at hss ⊢
    omega

/-- Replacing one scope changes the room left by what it changes for that scope. -/
theorem slack_set {i : Nat} (hs : scopes[i]? = some s) :
    slack n (scopes.set i t) + (s.start + (n - s.stop)) =
      slack n scopes + (t.start + (n - t.stop)) := by
  induction scopes generalizing i with
  | nil => simp at hs
  | cons u us ih =>
    cases i with
    | zero =>
      simp only [List.getElem?_cons_zero, Option.some.injEq] at hs
      simp only [slack, List.set_cons_zero, List.map_cons, List.sum_cons, hs]
      omega
    | succ i =>
      have := ih (by simpa using hs)
      simp only [slack, List.set_cons_succ, List.map_cons, List.sum_cons] at this ⊢
      omega

/-- The second list holds the scopes of the first one, widened. -/
def Wider (scopes wide : List Scope) : Prop :=
  wide.length = scopes.length ∧
    ∀ (i : Nat) (s : Scope), scopes[i]? = some s → ∃ t, wide[i]? = some t ∧ s.Widens t

namespace Wider

theorem refl (scopes : List Scope) : Wider scopes scopes :=
  ⟨rfl, fun _ s hs => ⟨s, hs, .refl s⟩⟩

theorem trans {wider : List Scope} (h : Wider scopes wide) (k : Wider wide wider) :
    Wider scopes wider := by
  refine ⟨k.1.trans h.1, ?_⟩
  intro i s hs
  obtain ⟨t, ht, hst⟩ := h.2 i s hs
  obtain ⟨u, hu, htu⟩ := k.2 i t ht
  exact ⟨u, hu, hst.trans htu⟩

theorem set {i : Nat} (hs : scopes[i]? = some s) (h : s.Widens t) :
    Wider scopes (scopes.set i t) := by
  refine ⟨List.length_set, ?_⟩
  intro j u hu
  rw [List.getElem?_set]
  split
  · rename_i hij
    subst hij
    rw [hs] at hu
    cases hu
    exact ⟨t, by simp [(List.getElem?_eq_some_iff.1 hs).1], h⟩
  · exact ⟨u, hu, .refl u⟩

theorem exists_mem (h : Wider scopes wide) (hs : s ∈ scopes) : ∃ t ∈ wide, s.Widens t := by
  obtain ⟨i, hi⟩ := List.mem_iff_getElem?.1 hs
  obtain ⟨t, ht, hst⟩ := h.2 i s hi
  exact ⟨t, List.mem_of_getElem? ht, hst⟩

theorem exists_mem_of_mem (h : Wider scopes wide) (ht : t ∈ wide) : ∃ s ∈ scopes, s.Widens t := by
  obtain ⟨i, hi⟩ := List.mem_iff_getElem?.1 ht
  have hlt : i < scopes.length := h.1 ▸ (List.getElem?_eq_some_iff.1 hi).1
  obtain ⟨u, hu, hsu⟩ := h.2 i scopes[i] (List.getElem?_eq_getElem hlt)
  rw [hi] at hu
  cases hu
  exact ⟨scopes[i], List.getElem_mem hlt, hsu⟩

end Wider

/-- What a number of widenings does to scopes over code of length `n`. -/
structure Progress (n : Nat) (scopes : List Scope) (r : Tracked (List Scope)) : Prop where
  wider : Wider scopes r.val
  stop_le : ∀ s ∈ r.val, s.stop ≤ n
  /-- A change uses up some room. -/
  slack_le : slack n r.val + r.changed.toNat ≤ slack n scopes
  unchanged : r.changed = false → r.val = scopes

theorem Progress.pure (h : ∀ s ∈ scopes, s.stop ≤ n) : Progress n scopes (pure scopes) :=
  ⟨.refl scopes, h, Nat.le_refl _, fun _ => rfl⟩

theorem Progress.bind {q : Tracked (List Scope)} (hr : Progress n scopes r)
    (hq : Progress n r.val q) : Progress n scopes (r >>= fun _ => q) where
  wider := hr.wider.trans hq.wider
  stop_le := hq.stop_le
  slack_le := by
    have h₁ := hr.slack_le
    have h₂ := hq.slack_le
    have h₃ : (r.changed || q.changed).toNat ≤ r.changed.toNat + q.changed.toNat := by
      cases r.changed <;> cases q.changed <;> decide
    rw [val_bind, changed_bind]
    omega
  unchanged h := by
    simp only [changed_bind, Bool.or_eq_false_iff] at h
    rw [val_bind, hq.unchanged h.2, hr.unchanged h.1]

variable {p : Nat × Nat} {a b k : Nat}

/-- Widening a pair changes nothing or uses up room. -/
theorem progress_widenPair (hn : ∀ s ∈ scopes, s.stop ≤ n) (h : widenPair scopes p = .ok r) :
    Progress n scopes r := by
  have hset {i : Nat} {t : Scope} (ht : t.stop ≤ n) : ∀ s ∈ scopes.set i t, s.stop ≤ n := by
    intro s hs
    rcases List.mem_or_eq_of_mem_set hs with hs | rfl
    · exact hn s hs
    · exact ht
  have hpair := h ▸ pairWidened scopes p
  cases hpair with
  | still => exact .pure hn
  | @pull A B hA hB hcross hk =>
    have hlt := Scope.crosses_iff.1 hcross
    refine ⟨.set hB (Scope.widens_start hcross hk),
      hset (hn B (List.mem_of_getElem? hB)), ?_, nofun⟩
    have := slack_set (n := n) (t := { B with start := A.start }) hB
    simp only [val_mark, changed_mark, Bool.toNat_true] at this ⊢
    omega
  | @grow A B hA hB hcross hk =>
    have hlt := Scope.crosses_iff.1 hcross
    have hbound := hn B (List.mem_of_getElem? hB)
    refine ⟨.set hA (Scope.widens_stop hcross hk), hset hbound, ?_, nofun⟩
    have := slack_set (n := n) (t := { A with stop := B.stop }) hA
    simp only [val_mark, changed_mark, Bool.toNat_true] at this ⊢
    omega

/-! ## Rounds -/

/-- Widening pair by pair succeeds if the first pair does, and then the others. -/
theorem widenPairs_cons_eq_ok : widenPairs (p :: ps) scopes = .ok r ↔
      ∃ f q, widenPair scopes p = .ok f ∧ widenPairs ps f.val = .ok q ∧ r = f >>= fun _ => q := by
  simp only [widenPairs, bind, Except.bind]
  cases widenPair scopes p with
  | error l => simp
  | ok f =>
    cases hq : widenPairs ps f.val with
    | error l => simp [hq]
    | ok q => simp [hq, pure, Except.pure, eq_comm]

section

variable (hn : ∀ s ∈ scopes, s.stop ≤ n) (h : widenPairs ps scopes = .ok r)
include hn h

theorem progress_widenPairs :
    Progress n scopes r := by
  induction ps generalizing scopes r with
  | nil =>
    cases h
    exact .pure hn
  | cons p ps ih =>
    obtain ⟨f, q, hf, hq, rfl⟩ := widenPairs_cons_eq_ok.1 h
    have hfirst := progress_widenPair hn hf
    exact hfirst.bind (ih hfirst.stop_le hq)

/-- A round that changes nothing has met no pair that crosses. -/
theorem not_crosses_of_unchanged
    (hr : r.changed = false) (hab : (a, b) ∈ ps) {A B : Scope} (hA : scopes[a]? = some A)
    (hB : scopes[b]? = some B) : A.crosses B = false := by
  induction ps generalizing scopes r with
  | nil => cases hab
  | cons p ps ih =>
    obtain ⟨f, q, hf, hq, rfl⟩ := widenPairs_cons_eq_ok.1 h
    have hfirst := progress_widenPair hn hf
    simp only [changed_bind, Bool.or_eq_false_iff] at hr
    rcases List.mem_cons.1 hab with rfl | hab
    · -- A pair that crosses is either changed or a failure.
      have hpair := hf ▸ pairWidened scopes (a, b)
      cases hpair with
      | still hno => exact hno A B hA hB
      | pull => cases hr.1
      | grow => cases hr.1
    · rw [hfirst.unchanged hr.1] at hq
      exact ih hn hq hr.2 hab hA hB

end

theorem mem_pairs : (a, b) ∈ pairs n ↔ a < n ∧ b < n := by
  simp [pairs]

/-- Scopes of which none crosses another. -/
def Apart (scopes : List Scope) : Prop := ∀ a ∈ scopes, ∀ b ∈ scopes, a.crosses b = false

/-- Widening goes through one round, and through the others if that one changed something. -/
theorem widen_succ_eq_ok :
    widen (k + 1) scopes = .ok wide ↔ ∃ r, widenPairs (pairs scopes.length) scopes = .ok r ∧
      (if r.changed then widen k r.val else .ok r.val) = .ok wide := by
  rw [widen]
  cases widenPairs (pairs scopes.length) scopes with
  | error l => simp [bind, Except.bind]
  | ok r => simp [bind, Except.bind, pure, Except.pure]

/-- With more rounds than there is room left, widening ends in a round that changes nothing, and the
scopes it gives do not cross. -/
theorem widen_spec (hn : ∀ s ∈ scopes, s.stop ≤ n) (hk : slack n scopes < k)
    (h : widen k scopes = .ok wide) :
    Wider scopes wide ∧ (∀ s ∈ wide, s.stop ≤ n) ∧ Apart wide := by
  induction k generalizing scopes with
  | zero => omega
  | succ k ih =>
    obtain ⟨r, hround, h⟩ := widen_succ_eq_ok.1 h
    have hprog := progress_widenPairs hn hround
    have hslack := hprog.slack_le
    cases hc : r.changed with
    | true =>
      simp only [hc, if_true, Bool.toNat_true] at h hslack
      obtain ⟨hwide, hstop, hapart⟩ := ih hprog.stop_le (by omega) h
      exact ⟨hprog.wider.trans hwide, hstop, hapart⟩
    | false =>
      simp only [hc] at h
      cases h
      refine ⟨hprog.wider, hprog.stop_le, ?_⟩
      rw [hprog.unchanged hc]
      intro A hA B hB
      obtain ⟨a, ha⟩ := List.mem_iff_getElem?.1 hA
      obtain ⟨b, hb⟩ := List.mem_iff_getElem?.1 hB
      have hab : (a, b) ∈ pairs scopes.length :=
        mem_pairs.2 ⟨(List.getElem?_eq_some_iff.1 ha).1, (List.getElem?_eq_some_iff.1 hb).1⟩
      exact not_crosses_of_unchanged hn hround hc hab ha hb

namespace Enumeration

variable {flat : Block} (o : Enumeration flat)

/-- The rounds that widening is given are more than there is room. -/
theorem slack_lt : slack flat.length o.scopes < widenBound flat o.scopes := by
  have := slack_le fun s hs => ⟨(o.fits hs).start_lt_stop, (o.fits hs).stop_le⟩
  rw [widenBound, Nat.mul_add, Nat.mul_add]
  omega

/-- The scopes of flat code are widened, stay in the code and end up crossing no other. -/
theorem widened_spec (h : o.widened = .ok wide) :
    Wider o.scopes wide ∧ (∀ s ∈ wide, s.stop ≤ flat.length) ∧ Apart wide :=
  widen_spec (fun _ hs => (o.fits hs).stop_le) o.slack_lt h

end Enumeration

end ByteLift
