import ByteLift.Proofs.Scope.Enumeration
import Mathlib.Logic.Relation

/-!
# Nesting in every order

Code in which no jump forward goes into a loop can still fail to nest, and whether it does can
depend on the order in which the scopes are listed. Two conditions on the jumps say how much.

* `Trapped`: one loop pulls a forward scope out of another loop in which the scope ends. Then
  nesting fails in every order, and otherwise it succeeds in the order of the code.
* `Dragged`: several loops, one after another, pull the scope there. Then nesting fails if the loops
  are listed backwards, and otherwise it succeeds in every order.
-/

namespace ByteLift

open Relation

variable {flat : Block} {p q x y s e : Nat}

/-- The loop at `s` pulls a scope that starts at `x` and ends at `p` back to its own start: it
reaches from before `x` to behind `x`, and its last jump back comes before the end of the scope. -/
def Draws (flat : Block) (p x s : Nat) : Prop :=
  s < x ∧ (∃ j, Jumps flat j s ∧ x ≤ j) ∧ ∀ j, Jumps flat j s → j + 1 < p

/-- A scope that starts at `x` and ends at `p` ends in a loop that starts behind `x`. -/
def Enters (flat : Block) (p x : Nat) : Prop :=
  ∃ s j, Jumps flat j s ∧ x < s ∧ s < p ∧ p ≤ j

/-- Some jump forward has a scope that loops can pull, one after another, out of a loop in which
it ends. -/
def Dragged (flat : Block) : Prop :=
  ∃ p i x, Jumps flat i p ∧ i < p ∧ ReflTransGen (Draws flat p) i x ∧ Enters flat p x

/-! ## Without dragged jumps every order succeeds -/

/-- No matter where loops pull a scope that starts at `x` and ends at `p`, it stays clear of the
loops in which it would end. -/
def Safe (flat : Block) (p x : Nat) : Prop :=
  ∀ y, ReflTransGen (Draws flat p) x y → ¬ Enters flat p y

/-- A loop that starts at `s` can grow until it ends at `e`. -/
inductive Grown (flat : Block) : Nat → Nat → Prop
  | loop {s j : Nat} : Jumps flat j s → (∀ i, Jumps flat i s → i ≤ j) → Grown flat s (j + 1)
  | grow {s e s' e' : Nat} : Grown flat s e → Grown flat s' e' → s < s' → s' < e → e < e' →
    Grown flat s e'

/-- Where a grown loop pulls a scope, loops as they stand in the code pull it too. -/
theorem Grown.draws (h : Grown flat s e) (hsx : s < x) (hxe : x < e) (hep : e < p) :
    ReflTransGen (Draws flat p) x s := by
  induction h generalizing x with
  | loop hjump hlast =>
    refine .single ⟨hsx, ⟨_, hjump, by omega⟩, fun i hi => ?_⟩
    have := hlast i hi
    omega
  | @grow s e s' e' _ _ hss hse hee ih ih' =>
    rcases Nat.lt_or_ge x e with hx | hx
    · exact ih hsx hx (by omega)
    · exact (ih' (by omega) hxe hep).trans (ih hss hse (by omega))

/-- What ends in a grown loop ends in a loop of the code. -/
theorem Grown.enters (h : Grown flat s e) (hxs : x < s) (hsp : s < p) (hpe : p < e) :
    Enters flat p x := by
  induction h with
  | @loop s j hjump _ => exact ⟨s, j, hjump, hxs, hsp, by omega⟩
  | @grow s e s' e' _ _ hss hse _ ih ih' =>
    rcases Nat.lt_or_ge p e with hp | hp
    · exact ih hxs hsp hp
    · exact ih' (by omega) (by omega) hpe

/-- A loop that pulls the later of two scopes on from where the earlier one starts either pulls the
earlier one as well or pulls the later one from where it was. -/
theorem draws_of_pulled {z : Nat} (hxy : x < y) (hyp : y < p)
    (h : ReflTransGen (Draws flat q) x z) :
    (z ≤ x ∧ ReflTransGen (Draws flat p) x z) ∨ ReflTransGen (Draws flat q) y z := by
  induction h with
  | refl => exact .inl ⟨Nat.le_refl x, .refl⟩
  | @tail z w _ hzw ih =>
    rcases ih with ⟨hzx, hleft⟩ | hright
    · obtain ⟨hwz, hjump, hlast⟩ := hzw
      by_cases hp : ∀ j, Jumps flat j w → j + 1 < p
      · exact .inl ⟨by omega, hleft.tail ⟨hwz, hjump, hp⟩⟩
      · -- The loop reaches to the end of the earlier scope, so the later one starts in it.
        obtain ⟨j, hj⟩ := Classical.not_forall.1 hp
        obtain ⟨hj, hjp⟩ := Classical.not_imp.1 hj
        exact .inr (.single ⟨by omega, ⟨j, hj, by omega⟩, hlast⟩)
    · exact .inr (hright.tail hzw)

/-- A scope that another one pulls back to its own start stays safe. -/
theorem Safe.pull (hx : Safe flat p x) (hy : Safe flat q y) (hxy : x < y) (hyp : y < p)
    (hpq : p < q) : Safe flat q x := by
  intro z hz hbad
  rcases draws_of_pulled hxy hyp hz with ⟨_, hleft⟩ | hright
  · obtain ⟨s, j, hjump, hzs, hsq, hqj⟩ := hbad
    rcases Nat.lt_or_ge s p with hsp | hsp
    · exact hx z hleft ⟨s, j, hjump, hzs, hsp, by omega⟩
    · exact hy y .refl ⟨s, j, hjump, by omega, hsq, hqj⟩
  · exact hy z hright hbad

/-- Every forward scope is safe, and every loop has grown out of loops of the code. -/
def Sound (flat : Block) (scopes : List Scope) : Prop :=
  ∀ s ∈ scopes, match s.kind with
    | .forward => Safe flat s.stop s.start
    | .loop => Grown flat s.start s.stop

namespace Sound

variable {scopes : List Scope} {F L : Scope}

theorem safe (h : Sound flat scopes) (hF : F ∈ scopes) (hk : F.kind = .forward) :
    Safe flat F.stop F.start := by
  have := h F hF
  rwa [hk] at this

theorem grown (h : Sound flat scopes) (hL : L ∈ scopes) (hk : L.kind = .loop) :
    Grown flat L.start L.stop := by
  have := h L hL
  rwa [hk] at this

/-- Scopes stay sound if one of them is replaced by a sound one. -/
theorem set {b : Nat} (h : Sound flat scopes) (hF : Sound flat [F]) :
    Sound flat (scopes.set b F) := by
  intro s hs
  rcases List.mem_or_eq_of_mem_set hs with hs | rfl
  · exact h s hs
  · exact hF s List.mem_cons_self

/-- One pair keeps scopes sound, and among sound scopes it does not fail. -/
theorem widenPair (h : Sound flat scopes) (pair : Nat × Nat) :
    Outcome (Sound flat ·.val) False (widenPair scopes pair) := by
  have hpair := pairWidened scopes pair
  generalize ByteLift.widenPair scopes pair = r at hpair ⊢
  cases hpair with
  | still => exact h
  | @pull A B hA hB hcross hkB =>
    rw [Scope.crosses_iff] at hcross
    have hsafe := h.safe (List.mem_of_getElem? hB) hkB
    refine h.set (List.forall_mem_singleton.2 ?_)
    simp only [hkB]
    cases hkA : A.kind with
    | forward =>
      exact (h.safe (List.mem_of_getElem? hA) hkA).pull hsafe (by omega) (by omega) (by omega)
    | loop =>
      have hdraws := (h.grown (List.mem_of_getElem? hA) hkA).draws hcross.1 hcross.2.1 hcross.2.2
      exact fun y hy => hsafe y (hdraws.trans hy)
  | @grow A B hA hB hcross hkA hkB =>
    rw [Scope.crosses_iff] at hcross
    refine h.set (List.forall_mem_singleton.2 ?_)
    simp only [hkA]
    exact .grow (h.grown (List.mem_of_getElem? hA) hkA) (h.grown (List.mem_of_getElem? hB) hkB)
      hcross.1 hcross.2.1 hcross.2.2
  | @stuck A B hA hB hcross hkA hkB =>
    rw [Scope.crosses_iff] at hcross
    exact h.safe (List.mem_of_getElem? hA) hkA _ .refl
      ((h.grown (List.mem_of_getElem? hB) hkB).enters hcross.1 hcross.2.1 hcross.2.2)

end Sound

namespace Enumeration

/-- Without dragged jumps, the scopes that code starts out with are sound. -/
theorem sound (honce : LabelsOnce flat) (hdrag : ¬ Dragged flat) (o : Enumeration flat) :
    Sound flat o.scopes := by
  intro s hs
  have hmem := o.mem_scopes.1 hs
  cases hk : s.kind with
  | forward =>
    intro y hy hbad
    exact hdrag ⟨s.stop, s.start, y, jumps_of_forward hmem hk, (o.fits hs).start_lt_stop, hy, hbad⟩
  | loop =>
    obtain ⟨j, hstop, hjump, _, hlast⟩ := jumps_of_loop honce hmem hk
    exact hstop ▸ .loop hjump hlast

theorem exists_widened (honce : LabelsOnce flat) (hdrag : ¬ Dragged flat) (o : Enumeration flat) :
    ∃ wide, o.widened = .ok wide := by
  have h := outcome_widen (fun _ pair h => Sound.widenPair h pair) (widenBound flat o.scopes)
    (o.sound honce hdrag)
  rw [← widened] at h
  cases hwide : o.widened with
  | ok wide => exact ⟨wide, rfl⟩
  | error l =>
    rw [hwide] at h
    exact h.elim

/-! ## With dragged jumps the backwards order fails -/

/-- The loops listed backwards, so that a scope can be pulled by one loop after another in a single
round. -/
def backwards (flat : Block) : Enumeration flat :=
  { ofCode flat with
    loops := (loopScopes flat).reverse
    loops_perm := List.reverse_perm _ }

/-- Of two loops, the one that starts first is listed last. -/
theorem lt_of_backwards {a b : Nat} {L M : Scope} (hL : (backwards flat).scopes[a]? = some L)
    (hM : (backwards flat).scopes[b]? = some M) (hkM : M.kind = .loop) (h : M.start < L.start) :
    a < b := by
  by_contra hba
  rcases Nat.eq_or_lt_of_le (Nat.le_of_not_lt hba) with rfl | hlt
  · rw [hL] at hM
    cases hM
    exact Nat.lt_irrefl _ h
  · have hpairwise : (backwards flat).loops.Pairwise fun L M => M.start < L.start :=
      List.pairwise_reverse.2 (pairwise_loopScopes flat)
    have := (backwards flat).starts_of_lt (r := fun x y => y < x) hpairwise hM hL hkM hlt
    omega

/-- The loops that draw a forward scope have their turns in the order in which they draw it. -/
theorem pulled_backwards {i : Nat} {F : Scope} (honce : LabelsOnce flat) (hstart : F.start ≤ i)
    (h : ReflTransGen (Draws flat F.stop) i x) :
    ∃ c, Pulled (backwards flat).scopes F c x ∧
      ∀ a L, (backwards flat).scopes[a]? = some L → L.kind = .loop → L.start < x → c ≤ a := by
  induction h with
  | refl => exact ⟨0, .start hstart, fun a _ _ _ _ => Nat.zero_le a⟩
  | @tail x s _ hdraws ih =>
    obtain ⟨hsx, ⟨j, hjump, hxj⟩, hlast⟩ := hdraws
    obtain ⟨L, hL, hkL, rfl, hstop⟩ := exists_loop_of_jumps honce hjump (by omega)
    obtain ⟨c, hpulled, hlater⟩ := ih
    obtain ⟨a, ha⟩ := List.mem_iff_getElem?.1 ((backwards flat).mem_scopes.2 hL)
    have hLF : L.stop < F.stop := by
      obtain ⟨e, hstop, he, _⟩ := jumps_of_loop honce hL hkL
      exact hstop ▸ hlast e he
    refine ⟨a + 1, .loop hpulled ha hkL (hlater a L ha hkL hsx) (by omega) hLF, ?_⟩
    exact fun b M hM hkM hlt => lt_of_backwards ha hM hkM hlt

theorem widened_backwards_ne_ok (honce : LabelsOnce flat) (hdrag : Dragged flat)
    (wide : List Scope) : (backwards flat).widened ≠ .ok wide := by
  obtain ⟨p, i, x, hforward, hip, hdraws, s, j, hjump, hxs, hsp, hpj⟩ := hdrag
  obtain ⟨F, hF, hkF, rfl, hstart⟩ := exists_forward_of_jumps honce hforward hip
  obtain ⟨M, hM, hkM, rfl, hstop⟩ := exists_loop_of_jumps honce hjump (by omega)
  obtain ⟨c, hpulled, _⟩ := pulled_backwards honce hstart hdraws
  exact (backwards flat).ne_ok_of_pulled hpulled hF hkF hM hkM hxs hsp (by omega) wide

end Enumeration

/-! ## When code nests -/

/-- If the label of every jump stands at one place and no jump forward goes into a loop, then code
nests in some order exactly if no jump is trapped, and in every order exactly if none is dragged. -/
theorem nest_ok_in_orders (labels : LabelTable) (vars : VarTable) (honce : LabelsOnce flat)
    (hinto : ¬ JumpsIntoLoop flat) :
    ((∃ order nested, flat.nest labels vars order = .ok nested) ↔ ¬ Trapped flat) ∧
      ((∀ order, ∃ nested, flat.nest labels vars order = .ok nested) ↔ ¬ Dragged flat) := by
  simp only [nest_ok_iff honce hinto]
  refine ⟨⟨?_, fun htrap => ?_⟩, ⟨fun h hdrag => ?_, fun hdrag order => ?_⟩⟩
  · rintro ⟨order, wide, h⟩ htrap
    exact widened_ne_ok_of_trapped honce htrap _ wide h
  · exact ⟨Enumeration.ofCode, (steady_ofCode honce hinto htrap).widen_ok _⟩
  · obtain ⟨wide, h⟩ := h Enumeration.backwards
    exact Enumeration.widened_backwards_ne_ok honce hdrag wide h
  · exact (order flat).exists_widened honce hdrag

/-- `A: B: if (v) goto C; if (v) goto A; v; C: if (v) goto B;` is two loops that start together, and
the jump forward stays in the longer one but leaps over the end of the other. -/
def leapingJump (v : Expr) : Block :=
  [.label ⟨0⟩, .label ⟨1⟩, .goto ⟨2⟩ (some v), .goto ⟨0⟩ (some v), .expr v, .label ⟨2⟩,
    .goto ⟨1⟩ (some v)]

/-- No jump goes into a loop there, and still it cannot be nested in any order. -/
theorem leapingJump_not_nested :
    LabelsOnce (leapingJump (.boolean true)) ∧ ¬ JumpsIntoLoop (leapingJump (.boolean true)) ∧
      ¬ ∃ order nested,
        (leapingJump (.boolean true)).nest ⟨#["A", "B", "C"]⟩ .empty order = .ok nested := by
  have honce : LabelsOnce (leapingJump (.boolean true)) := by decide +kernel
  have hinto : ¬ JumpsIntoLoop (leapingJump (.boolean true)) := by decide +kernel
  have htrap : Trapped (leapingJump (.boolean true)) := by
    refine ⟨2, 5, 0, 1, 6, by decide, by decide, by decide, by decide, by decide, by decide,
      ⟨3, by decide, by decide⟩, ?_⟩
    have hlast : ∀ j < 7, Jumps (leapingJump (.boolean true)) j 0 → j + 1 < 5 := by decide +kernel
    intro j hj
    exact hlast j hj.lt_length.1 hj
  exact ⟨honce, hinto, fun h => (nest_ok_in_orders _ _ honce hinto).1.1 h htrap⟩

end ByteLift
