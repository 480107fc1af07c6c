import ByteLift.Proofs.Lift.OfCode
import ByteLift.Proofs.Lift.Tracks

/-!
# Variables of flat code

Every instruction uses only variables of the method's table, and so does the whole code of a method.
It assigns only by whole statements.
-/

namespace ByteLift

namespace Lift

variable {env : Env}

theorem behaves_enter (runsOn : Bool) (i : Addressed) :
    Behaves (fun _ _ => True) (fun _ => True) (enter env runsOn i) fun _ _ => True :=
  fills_any.tracks.enter (fun _ _ => trivial) (fun _ _ _ _ _ => trivial) runsOn i

theorem behaves_step (i : Instruction) :
    Behaves (fun _ _ => True) (fun _ => True) (step env i) fun _ _ => True :=
  fills_any.tracks.step i (fun _ _ _ _ => trivial) fun _ _ _ _ _ _ _ => trivial

theorem behaves_run (runsOn : Bool) (items : List (Addressed × Bool)) :
    Behaves (fun _ _ => True) (fun _ => True) (run env runsOn items) fun _ _ => True := by
  induction items generalizing runsOn with
  | nil => exact .pure fun _ _ => trivial
  | cons it items ih =>
    obtain ⟨i, reached⟩ := it
    cases reached with
    | false => exact ih _
    | true =>
      rw [run_reached]
      refine .bind (behaves_enter runsOn i) fun _ => .weaken ?_ fun _ _ => trivial
      exact .bind (behaves_step i.instruction) fun _ => (ih _).weaken fun _ _ => trivial

end Lift

variable {vars : VarTable}

theorem Machine.mem_paramLocals {slot : Nat} {params : List Var} {k : Nat × LocalKind} {v : Var}
    (h : (k, Local.var v) ∈ paramLocals vars slot params) : v ∈ params := by
  induction params generalizing slot with
  | nil => simp [paramLocals] at h
  | cons u params ih =>
    rw [paramLocals, List.mem_cons] at h
    rcases h with heq | h
    · cases heq
      exact List.mem_cons_self
    · exact List.mem_cons_of_mem u (ih h)

theorem Machine.within_start {env : Env} {n : Nat} (h : ∀ v ∈ env.params, v.index < n) :
    (Machine.start env vars).Within n := by
  refine ⟨by simp [Machine.start], .nil, fun k v hv => h v ?_, by simp [Machine.start]⟩
  simp only [Machine.start] at hv
  split at hv
  · exact mem_paramLocals hv
  · rcases List.mem_cons.1 hv with heq | hv
    · cases heq
    · exact mem_paramLocals hv

/-- Lifting adds to the table. Lifted code declares nothing, assigns only by whole statements and
uses only the parameters and variables of its own table. -/
theorem FlatCode.within_of_ofCode {ctx : Context} {code : Code} {labels : LabelTable}
    {flat : FlatCode} (h : (FlatCode.ofCode ctx code vars labels).1 = .ok flat) :
    vars.size ≤ flat.vars.size ∧ ∀ n, flat.vars.size ≤ n → (∀ v ∈ ctx.params, v.index < n) →
    flat.block.Within n := by
  obtain ⟨flow, table, final, _, hrun, rfl⟩ := FlatCode.ofCode_eq_ok h
  obtain ⟨hsize, hwithin⟩ := (Lift.behaves_run true _).2 _ _ _ hrun
  have hfinish : final.vars.finish.size = final.vars.size := by
    simp [VarTable.finish, VarTable.size]
  dsimp only
  rw [hfinish]
  exact ⟨hsize, fun n hn hparams => (hwithin n hn (Machine.within_start hparams) trivial).1.out⟩

end ByteLift
