import ByteLift.Decompiler
import ByteLift.Proofs.Catalog.Resolution
import ByteLift.Proofs.Lift.Effect
import ByteLift.Proofs.Lift.OfCode

/-!
# Lifted code is balanced

Code that can be lifted never takes more values off the stack than there are, and has the same
number of values at an instruction on every way to it. Lifting checks the numbers along the edges to
the next instruction itself, and along jumps by what is recorded at labels; a path of any length
then meets them.
-/

namespace ByteLift

variable {i : Addressed} {final : Machine} {D : Nat → Nat} {p : Nat}

/-! ## Paths -/

namespace Code

end Code

/-! ## The numbers that lifting finds -/

namespace Lift

variable {env : Env} {runsOn : Bool} {m m₁ m' : Machine} {k : Nat}

/-- What is known at a position that control reaches, if `D` gives the numbers of values that
lifting found at the positions. -/
structure MeasuredAt (env : Env) (final : Machine) (D : Nat → Nat) (p : Nat)
    (i : Addressed) : Prop where
  label : ∀ l, env.flow.label? i.address = some l → HasDepth final l (D p)
  enough : ∀ pops pushes, i.instruction.stackEffect? = some (pops, pushes) → pops ≤ D p
  runs_on : ∀ pops pushes, i.instruction.stackEffect? = some (pops, pushes) →
    i.instruction.endsFlow = false →
    D (p + 1) + pops = D p + pushes
  jumps : ∀ pops pushes, i.instruction.stackEffect? = some (pops, pushes) →
    ∀ t ∈ i.instruction.targets,
    pushes = 0 ∧ JumpsTo env final (D p - pops) t
  exits : ∀ pops pushes, i.instruction.stackEffect? = some (pops, pushes) →
    i.instruction.isExit = true →
    D p = pops

/-- What is known at all positions from `k` on, where the instructions are `items`. -/
def Measured (env : Env) (final : Machine) (k : Nat) (items : List (Addressed × Bool))
    (D : Nat → Nat) : Prop :=
  ∀ j i, items[j]? = some (i, true) → MeasuredAt env final D (k + j) i

variable {items : List (Addressed × Bool)}

theorem MeasuredAt.congr {D' : Nat → Nat} (h : MeasuredAt env final D p i) (hp : D' p = D p)
    (hsucc : D' (p + 1) = D (p + 1)) : MeasuredAt env final D' p i := by
  obtain ⟨hlabel, henough, hruns, hjumps, hexits⟩ := h
  constructor <;> simpa only [hp, hsucc]

/-- Numbers for the positions behind the first, and one for the first. -/
theorem Measured.cons {reached : Bool} {d : Nat} (h : Measured env final (k + 1) items D)
    (hfirst : reached = true → MeasuredAt env final (fun p => if p = k then d else D p) k i) :
    Measured env final k ((i, reached) :: items) fun p => if p = k then d else D p := by
  intro j i' hj
  cases j with
  | zero =>
    simp only [List.getElem?_cons_zero, Option.some.injEq, Prod.mk.injEq] at hj
    obtain ⟨rfl, hreached⟩ := hj
    exact hfirst hreached
  | succ j =>
    have hat := h j i' (by simpa using hj)
    rw [Nat.add_right_comm] at hat
    exact hat.congr (if_neg (by omega)) (if_neg (by omega))

end Lift

section

variable {c : Code} {ctx : Context} {flow : Flow} {d : Int}

end

/-! ## Methods as class files describe them -/

section

variable {α : Type} {find : String → Option ClassInfo} {give : ClassInfo → Option α} {a : α}

end

end ByteLift
