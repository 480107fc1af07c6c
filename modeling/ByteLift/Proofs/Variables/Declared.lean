import ByteLift.Decompiler
import ByteLift.Proofs.Variables.Flat
import ByteLift.Proofs.Variables.Inline
import ByteLift.Proofs.Variables.Nest
import ByteLift.Proofs.Variables.Placement

/-!
# Every local is declared once

Lifted and nested code declares no variable. Declarations are placed in the middle of each round of
cleaning up, or once if there is none, and the rest of a round keeps their scopes. So the body that
is left has one declaration for each local that it uses, with all uses in its scope.
-/

namespace ByteLift

open MethodDecl

variable {v : Var} {b : Block}

/-! ## Rounds of cleaning up -/

namespace Cleanup

open Block

variable {vars : VarTable} {D : Discipline}

theorem keepsWhole_of_mem_passes {p : Pass} (hp : p ∈ passes) (vars : VarTable) (b : Block) :
    KeepsWhole D b (p.run vars b).val := by
  have hrewrite {f : Block → Tracked Block} := (congruent_keepsWhole (D := D)).rewrite (f := f)
  simp only [passes, List.mem_cons, List.not_mem_nil, or_false] at hp
  rcases hp with rfl | rfl | rfl | rfl | rfl | rfl | rfl
  · exact hrewrite keepsWhole_dropNoOpsHere b
  · exact congruent_keepsWhole.trans (hrewrite keepsWhole_fuseHere b)
      (hrewrite (keepsWhole_forwardHere _) _)
  · exact keepsWhole_copyBlock [] b
  · exact hrewrite (keepsWhole_sweep _) b
  · exact keepsWhole_placeDeclarations vars b
  · exact hrewrite (keepsWhole_inlineHere _) b
  · exact (Reshapes.straightenBranches b).follows

theorem keepsWhole_runPasses {ps : List Pass} (hps : ∀ p ∈ ps, p ∈ passes)
    (vars : VarTable) (b : Block) : KeepsWhole D b (runPasses vars ps b).val :=
  runPasses_induction fun p hp => keepsWhole_of_mem_passes (hps p hp) vars

theorem val_runPasses_append (vars : VarTable) (ps qs : List Pass) (b : Block) :
    (runPasses vars (ps ++ qs) b).val = (runPasses vars qs (runPasses vars ps b).val).val := by
  induction ps generalizing b with
  | nil => rfl
  | cons p ps ih => exact ih _

/-- A round ends with the three passes from the placing of declarations on. -/
theorem val_round (vars : VarTable) (b : Block) : (round vars b).val =
    (straightenBranches vars (inlineOnce (placeDeclarations vars
      (runPasses vars (passes.take 4) b).val).val).val).val := by
  have hsplit : round vars b = runPasses vars (passes.take 4 ++ passes.drop 4) b := by
    rw [List.take_append_drop, round]
  rw [hsplit, val_runPasses_append]
  -- The passes before that stay closed, or unfolding them would take too long.
  generalize (runPasses vars (passes.take 4) b).val = before
  simp only [passes, List.drop_succ_cons, List.drop_zero, runPasses, Tracked.val_bind,
    Tracked.val_pure]

/-- After a round every local is in scope, and none has two declarations. -/
theorem scoped_round (hwhole : b.writesWhole = true) (hv : (vars.get v).parameter = false) :
    (round vars b).val.Scoped v ∧ (round vars b).val.declared.count v ≤ 1 := by
  have hbefore :=
    (keepsWhole_runPasses (fun p (hp : p ∈ passes.take 4) => List.mem_of_mem_take hp) vars
      b).writesWhole hwhole
  rw [val_round]
  generalize (runPasses vars (passes.take 4) b).val = before at hbefore ⊢
  have hscoped := scoped_placeDeclarations hbefore hv
  have honce := count_declared_placeDeclarations vars before v
  have hinlines := inlines_inlineOnce v (placeDeclarations vars before).val
  generalize (placeDeclarations vars before).val = placed at hscoped honce hinlines ⊢
  have hreshapes : Reshapes vars (inlineOnce placed).val _ := Reshapes.straightenBranches _
  constructor
  · exact hreshapes.scoped_of_scoped (hinlines.scoped_of_scoped hscoped)
  · exact Nat.le_trans (hreshapes.count_declared_le v)
      (Nat.le_trans hinlines.count_declared_le honce)

/-- What is left after some rounds is what the last one of them leaves. -/
theorem exists_rounds_eq_round (vars : VarTable) (hwhole : b.writesWhole = true) (n : Nat) :
    ∃ c : Block, c.writesWhole = true ∧ (rounds vars (n + 1) b).2 = (round vars c).val := by
  induction n generalizing b with
  | zero =>
    refine ⟨b, hwhole, ?_⟩
    simp only [rounds]
    split <;> rfl
  | succ n ih =>
    rw [rounds]
    split
    · exact ih ((keepsWhole_runPasses (fun _ => id) vars b).writesWhole hwhole)
    · exact ⟨b, hwhole, rfl⟩

end Cleanup

/-! ## Declarations at the start -/

variable {cls : ClassDef} {code : Code} {catalog catalog' : Catalog} {flat : FlatCode}
  {options : Options}

theorem VarTable.mem_vars {t : VarTable} : v ∈ t.vars ↔ v.index < t.size := by
  simp only [VarTable.vars, List.mem_map, List.mem_range]
  exact ⟨fun ⟨i, hi, hv⟩ => hv ▸ hi, fun h => ⟨v.index, h, rfl⟩⟩

theorem VarTable.nodup_vars (t : VarTable) : t.vars.Nodup :=
  List.Nodup.map (fun _ _ h => congrArg Var.index h) List.nodup_range

namespace Block

theorem scoped_declare_append {vs : List Var} (hv : v ∈ vs) (b : Block) :
    Scoped v (vs.map (.declare · none) ++ b) := by
  induction vs with
  | nil => simp at hv
  | cons w vs ih =>
    rcases List.mem_cons.1 hv with rfl | hv
    · exact .declare nofun
    · exact .cons (by simp [Stmt.exprs]) (by simp) (ih hv)

theorem declared_declare_append (vs : List Var) (b : Block) :
    Block.declared (vs.map (.declare · none) ++ b) = vs ++ b.declared := by
  induction vs with
  | nil => rfl
  | cons w vs ih => exact congrArg (w :: ·) ih

theorem uses_declare_append (vs : List Var) (b : Block) :
    Block.uses (vs.map (.declare · none) ++ b) = b.uses := by
  induction vs with
  | nil => rfl
  | cons w vs ih => exact ih

/-- A body that declares its locals at its start has each of them in scope, and none declared
twice. -/
theorem Within.scoped_declareAtEntry {vars : VarTable} (hb : b.Within vars.size)
    (hv : (vars.get v).parameter = false) :
    (declareAtEntry vars b).Scoped v ∧ (declareAtEntry vars b).declared.count v ≤ 1 := by
  unfold declareAtEntry
  constructor
  · by_cases hused : ∃ u ∈ b.uses, u.var = v
    · obtain ⟨u, hu, rfl⟩ := hused
      refine scoped_declare_append (List.mem_filter.2 ⟨VarTable.mem_vars.2 (hb.known u hu), ?_⟩) b
      have hmentions : b.mentions u.var ≠ false := fun h => (mentions_eq_false_iff.1 h).1 u hu rfl
      simpa [hv] using hmentions
    · refine scoped_of_unused fun u hu huv => hused ⟨u, ?_, huv⟩
      rwa [uses_declare_append] at hu
  · rw [declared_declare_append, hb.declared, List.append_nil]
    exact List.nodup_iff_count.1 (vars.nodup_vars.filter _) v

end Block

/-! ## Methods -/

theorem VarTable.parameter_setName (t : VarTable) (v w : Var) (name : String) :
    ((t.setName v name).get w).parameter = (t.get w).parameter := by
  simp only [get, setName, modify, Array.getElem?_modify]
  split
  · cases t.decls[w.index]? <;> rfl
  · rfl

theorem parameter_claimName (state : NameCounts × VarTable) (v w : Var) :
    ((claimName state w).2.get v).parameter = (state.2.get v).parameter := by
  unfold claimName
  simp only
  split
  · rfl
  · exact state.2.parameter_setName w v _

/-- A variable that gets a name stays a parameter or a local. -/
theorem MethodDecl.parameter_uniqueNames (m : MethodDecl) (b : Block) (v : Var) :
    ((m.uniqueNames b).get v).parameter = (m.vars.get v).parameter := by
  have hfold (vs : List Var) (state : NameCounts × VarTable) :
      ((vs.foldl claimName state).2.get v).parameter = (state.2.get v).parameter := by
    induction vs generalizing state with
    | nil => rfl
    | cons w vs ih => exact (ih _).trans (parameter_claimName state v w)
  exact hfold _ _

/-- The code of a method declares no variable when it is lifted. -/
theorem MethodDecl.within_of_lift {method : MethodDef}
    (h : (ofDef method).lift cls code catalog = .ok flat catalog') :
    flat.block.Within flat.vars.size := by
  have hflat : (FlatCode.ofCode ((ofDef method).context cls catalog) code (ofDef method).vars
      .empty).1 = .ok flat := by
    simp only [lift, bind, EStateM.bind, get, getThe, MonadStateOf.get, EStateM.get, set,
      EStateM.set] at h
    generalize FlatCode.ofCode .. = lifted at h ⊢
    obtain ⟨result, queries⟩ := lifted
    cases result with
    | error failure => cases h
    | ok flat =>
      cases h
      rfl
  obtain ⟨hsize, hwithin⟩ := FlatCode.within_of_ofCode hflat
  exact hwithin _ (Nat.le_refl _) fun v hv => Nat.lt_of_lt_of_le (VarTable.mem_vars.1 hv) hsize

/-- A nested body without declarations has one for each local when it is finished. -/
theorem Block.Within.scoped_finishBlock {vars : VarTable}
    (hoptions : options.cleanUp = false ∨ 1 ≤ options.maxRounds)
    (hb : b.Within vars.size) (hv : (vars.get v).parameter = false) :
    (finishBlock options vars b).Scoped v ∧
      (finishBlock options vars b).declared.count v ≤ 1 := by
  unfold finishBlock
  split
  · rename_i hclean
    have hrounds := hoptions.resolve_left (by simp [hclean])
    have hwhole := writesWhole_of_assignsWhole hb.whole
    obtain ⟨c, hc, heq⟩ := Cleanup.exists_rounds_eq_round vars hwhole (options.maxRounds - 1)
    rw [Nat.sub_add_cancel hrounds] at heq
    rw [heq]
    exact Cleanup.scoped_round hc hv
  · exact hb.scoped_declareAtEntry hv

/-- A method whose code can be lifted and nested gets the finished block as its body. -/
theorem MethodDecl.decompile_eq_ok {m : MethodDecl} {nested : Block} {labels : LabelTable}
    (hlift : m.lift cls code catalog = .ok flat catalog')
    (hnest : flat.block.nest flat.labels flat.vars options.order = .ok (nested, labels)) :
    m.decompile options cls code catalog =
      let block := finishBlock options flat.vars nested
      let vars := { m with vars := flat.vars }.uniqueNames block
      .ok { m with vars, body := some ⟨block, labels⟩, error := none } catalog' := by
  simp only [decompile, bind, EStateM.bind, hlift, Decompile.ofExcept, hnest]
  rfl

/-- If the code of a method can be lifted and nested, the method gets a body in which every local
that is used has exactly one declaration, with everything else that mentions it in its scope. This
holds without cleaning up and after any number of rounds of it. -/
theorem MethodDecl.exists_decompile_declaredOnce {method : MethodDef} {options : Options}
    {cls : ClassDef} {code : Code} {catalog catalog' : Catalog} {flat : FlatCode} {nested : Block}
    {labels : LabelTable} (hoptions : options.cleanUp = false ∨ 1 ≤ options.maxRounds)
    (hlift : (ofDef method).lift cls code catalog = .ok flat catalog')
    (hnest : flat.block.nest flat.labels flat.vars options.order = .ok (nested, labels)) :
    ∃ m body, (ofDef method).decompile options cls code catalog = .ok m catalog' ∧
      m.body = some body ∧
      ∀ v, (m.vars.get v).parameter = false → (∃ u ∈ body.block.uses, u.var = v) →
        body.block.declared.count v = 1 ∧ body.block.DeclaredOnce v := by
  refine ⟨_, _, decompile_eq_ok hlift hnest, rfl, fun v hv hused => ?_⟩
  have hnested := within_of_nest (within_of_lift hlift) hnest
  rw [parameter_uniqueNames] at hv
  obtain ⟨hscoped, honce⟩ := hnested.scoped_finishBlock hoptions hv
  have hdeclared := hscoped.declaredOnce honce hused
  exact ⟨Nat.le_antisymm honce (List.one_le_count_iff.2 hdeclared.mem_declared), hdeclared⟩

/-- Code that calls a method with the value of a local twice, unless the parameter is zero. -/
def showTwice : Code :=
  .sequential 2 [.load .int 0, .ifZero .eq 9, .load .int 0, .iconst 1, .arith .add .int,
    .store .int 1,
    .load .int 1, .load .int 1, .invoke .static ⟨"Show", "show", "(II)V"⟩, .methodReturn none]

/-- A method that has the code `showTwice`. -/
def showTwiceMethod : MethodDef := ⟨"showTwice", "(I)V", ⟨0x9⟩, some showTwice, []⟩

/-- The class of `showTwiceMethod`. -/
def showClass : ClassDef :=
  { name := "Show", superName := some Ty.objectClass, interfaces := [],
    access := ⟨0x21⟩, fields := []
    methods := [showTwiceMethod, ⟨"show", "(II)V", ⟨0x9⟩, none, []⟩] }

theorem MethodDecl.exists_decompile_declaredOnce_showTwice :
    ∃ m body catalog', (ofDef showTwiceMethod).decompile { maxRounds := 1 } showClass showTwice
        (.ofProvider [.ofDef showClass]) = .ok m catalog' ∧
      m.body = some body ∧ body.block.declared.count ⟨1⟩ = 1 ∧ body.block.DeclaredOnce ⟨1⟩ := by
  have hcheck : (match (ofDef showTwiceMethod).lift showClass showTwice
        (.ofProvider [.ofDef showClass]) with
      | .ok flat _ =>
        match flat.block.nest flat.labels flat.vars ({ maxRounds := 1 } : Options).order with
        | .ok (nested, _) => !(flat.vars.get ⟨1⟩).parameter &&
          (Block.uses (finishBlock { maxRounds := 1 } flat.vars nested)).contains (.read ⟨1⟩)
        | .error _ => false
      | .error .. => false) = true := by cbv
  split at hcheck
  · rename_i flat catalog' hlift
    split at hcheck
    · rename_i nested labels hnest
      rw [Bool.and_eq_true, Bool.not_eq_true', List.contains_iff_mem] at hcheck
      have hoptions : ({ maxRounds := 1 } : Options).cleanUp = false ∨
        1 ≤ ({ maxRounds := 1 } : Options).maxRounds :=
        .inr (Nat.le_refl 1)
      obtain ⟨m, body, hdone, hbody, hdeclared⟩ :=
        exists_decompile_declaredOnce hoptions hlift hnest
      refine ⟨m, body, catalog', hdone, hbody, hdeclared ⟨1⟩ ?_ ?_⟩
      · rw [decompile_eq_ok hlift hnest] at hdone
        cases hdone
        exact (parameter_uniqueNames _ _ ⟨1⟩).trans hcheck.1
      · rw [decompile_eq_ok hlift hnest] at hdone
        cases hdone
        cases hbody
        exact ⟨_, hcheck.2, rfl⟩
    · cases hcheck
  · cases hcheck

end ByteLift
