/-!
# Values with a note of change

A pass over a tree gives the new tree and says whether any of its rules fired. `Tracked` is that
pair, as a monad: combining steps keeps the last value and remembers a change in either. What a
tracked computation yields and what it reports can be taken apart by `simp`, one bind at a time.
-/

namespace ByteLift

/-- A value together with a note of whether something was changed to get it. -/
structure Tracked (α : Type) where
  val : α
  changed : Bool
deriving DecidableEq, Inhabited

namespace Tracked

variable {α β : Type}

/-- A value that something was changed to get. -/
def mark (a : α) : Tracked α := ⟨a, true⟩

/-- A value with a given note. -/
def note (a : α) (changed : Bool) : Tracked α := ⟨a, changed⟩

instance : Monad Tracked where
  pure a := ⟨a, false⟩
  bind x f := ⟨(f x.val).val, x.changed || (f x.val).changed⟩

@[simp] theorem val_pure (a : α) : (pure a : Tracked α).val = a := rfl

@[simp] theorem changed_pure (a : α) : (pure a : Tracked α).changed = false := rfl

@[simp] theorem val_bind (x : Tracked α) (f : α → Tracked β) :
    (x >>= f).val = (f x.val).val := rfl

@[simp] theorem changed_bind (x : Tracked α) (f : α → Tracked β) :
    (x >>= f).changed = (x.changed || (f x.val).changed) := rfl

@[simp] theorem val_mark (a : α) : (mark a).val = a := rfl

@[simp] theorem changed_mark (a : α) : (mark a).changed = true := rfl

@[simp] theorem val_note (a : α) (b : Bool) : (note a b).val = a := rfl

@[simp] theorem changed_note (a : α) (b : Bool) : (note a b).changed = b := rfl

@[ext] theorem ext {x y : Tracked α} (hv : x.val = y.val) (hc : x.changed = y.changed) : x = y := by
  cases x; cases y; cases hv; cases hc; rfl

instance : LawfulMonad Tracked :=
  LawfulMonad.mk' Tracked (fun _ => by ext <;> simp [Functor.map]) (fun _ _ => by ext <;> simp)
    (fun _ _ _ => by ext <;> simp [Bool.or_assoc])

@[simp] theorem val_map (f : α → β) (x : Tracked α) : (f <$> x).val = f x.val := rfl

@[simp] theorem changed_map (f : α → β) (x : Tracked α) : (f <$> x).changed = x.changed := by
  show (x.changed || false) = x.changed
  simp

/-- Runs a step again and again until it changes nothing, at most `n` times. -/
def settle (step : α → Tracked α) : Nat → α → α
  | 0, a => a
  | n + 1, a =>
    let next := step a
    if next.changed then settle step n next.val else next.val

end Tracked

end ByteLift
