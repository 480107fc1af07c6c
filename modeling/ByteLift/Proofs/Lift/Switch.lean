import ByteLift.Proofs.Lift.Branch

/-!
# Lifting switches

A switch becomes one conditional jump per case, tried in order, and a jump to the default. The key
is a literal or a variable by then, so trying a case changes nothing.
-/

namespace ByteLift

open Expr Lift

variable {env : Env} {m m' : Machine} {key : Expr} {table : List (Int32 × Address)}
  {default : Address}

/-- The cases of a switch over consecutive keys give the address that the key selects. -/
theorem Lift.find?_tableCases (low key : Int32) (targets : List Address) :
    ((tableCases low targets).find? (·.1 = key)).map Prod.snd =
      targets[(key - low).toUInt32.toNat]? := by
  induction targets generalizing low with
  | nil => rfl
  | cons t ts ih =>
    rw [tableCases, List.find?_cons]
    by_cases h : low = key
    · subst h
      rw [Int32.sub_self]
      simp only [decide_true, Option.map_some]
      rfl
    · simp only [h, decide_false]
      rw [ih]
      -- The distance from the next key on is less by one, for it was not zero.
      have hne : (key - low).toUInt32.toNat ≠ 0 := by
        intro hzero
        have hzero' : key - low = 0 :=
          congrArg UInt32.toInt32 (UInt32.toNat_inj.1 hzero : (key - low).toUInt32 = 0)
        rw [← Int32.sub_add_cancel key low, hzero', Int32.zero_add] at h
        exact h rfl
      have hpred : (key - (low + 1)).toUInt32.toNat + 1 = (key - low).toUInt32.toNat := by
        have hsub : key - (low + 1) = key - low - 1 := by
          rw [Int32.sub_eq_add_neg, Int32.sub_eq_add_neg, Int32.sub_eq_add_neg, Int32.neg_add,
            Int32.sub_eq_add_neg, Int32.add_assoc]
        rw [hsub, Int32.toUInt32_sub, UInt32.toNat_sub_of_le]
        · show (key - low).toUInt32.toNat - 1 + 1 = _
          omega
        · rw [UInt32.le_iff_toNat_le]
          show 1 ≤ _
          omega
      rw [← hpred, List.getElem?_cons_succ]

namespace Lift

variable {m₁ m₂ : Machine} {l : Label} {temps : List Var}

/-! ## What is emitted -/

theorem spillStack_of_empty (chosen : Nat → Expr → Bool) (hempty : m.stack = []) :
    spillStack env chosen m = .ok () m := by
  simp only [spillStack, bind_eq_ok, get_eq_ok, modify_eq_ok]
  refine ⟨m, m, ⟨rfl, rfl⟩, [], m, by rw [hempty]; rfl, by rw [← hempty]⟩

theorem Flows.stack_eq_nil (h : Flows env l m m₁ m₂ m' temps) (hempty : m.stack = []) :
    m'.stack = [] := by
  have hempty₁ : m₁.stack = [] := h.settles.stack.trans hempty
  have hspill := h.spill
  rw [spillStack_of_empty _ hempty₁] at hspill
  cases hspill
  rw [h.out]
  exact hempty₁

theorem cases_cons_eq_ok {value : Int32} {target : Address}
    (h : Lift.cases env key ((value, target) :: table) m = .ok () m') :
    ∃ l m₁, env.flow.label? target = some l ∧ flowTo env l m = .ok () m₁ ∧ Lift.cases env key table
        { m₁ with out := m₁.out ++ [.goto l (some (.compare .eq key (.int value)))] } =
          .ok () m' := by
  simp only [Lift.cases, bind_eq_ok, labelFor_eq_ok, append_eq_ok] at h
  obtain ⟨l, _, ⟨hl, rfl⟩, _, m₁, hflow, _, _, rfl, hrest⟩ := h
  exact ⟨l, m₁, hl, hflow, hrest⟩

theorem advances_cases (h : Lift.cases env key table m = .ok () m') (hm : m.Coherent)
    (hes : m.Entries) : m.Advances m' := by
  induction table generalizing m with
  | nil =>
    obtain ⟨_, rfl⟩ := pure_eq_ok.1 h
    exact ⟨.refl m, hm, hes⟩
  | cons c table ih =>
    obtain ⟨l, m₁, _, hflow, hrest⟩ := cases_cons_eq_ok h
    obtain ⟨_, _, _, hflows⟩ := exists_flows hflow hm hes
    have hadv := hflows.advances
    have hadds := m₁.adds_goto l (some (.compare .eq key (.int c.1))) m₁.stack
    exact (hadv.grows.trans hadds.grows).advances
      (ih hrest (hadds.coherent hadv.coherent) hadv.entries)

/-- What is done with the key: it is kept if it is a literal or a variable, and stored otherwise. -/
inductive Keeps (key : Expr) (m : Machine) : Machine → Expr → Prop
  | simple : key.isSimple = true → Keeps key m m key
  | stored {decl : VarDecl} :
  key.isSimple = false → Keeps key m (stored m decl key) (.var m.vars.next)

theorem switch_eq_ok (h : switch env table default m = .ok () m') :
    ∃ key st m₁ m₂ key' m₃, m.stack = key :: st ∧
      spillStack env (fun _ e => !e.isSimple) { m with stack := st } = .ok () m₁ ∧
      Keeps key m₁ m₂ key' ∧ Lift.cases env key' table m₂ = .ok () m₃ ∧
      goto env default m₃ = .ok () m' := by
  simp only [switch, bind_eq_ok, pop_eq_ok] at h
  obtain ⟨key, _, ⟨st, hst, rfl⟩, _, m₁, hspill, h⟩ := h
  split at h
  · rename_i hsimple
    simp only [bind_eq_ok, pure_eq_ok] at h
    obtain ⟨_, _, ⟨rfl, rfl⟩, _, m₃, hcases, hgoto⟩ := h
    exact ⟨key, st, m₁, m₁, key, m₃, hst, hspill, .simple hsimple, hcases, hgoto⟩
  · rename_i hsimple
    simp only [bind_eq_ok] at h
    obtain ⟨_, _, hkey, _, m₃, hcases, hgoto⟩ := h
    cases hkey
    exact ⟨key, st, m₁, _, _, m₃, hst, hspill, .stored (by simpa using hsimple), hcases, hgoto⟩

theorem Keeps.advances {key' : Expr} (h : Keeps key m m' key') (hm : m.Coherent) (hes : m.Entries) :
    m.Advances m' := by
  cases h with
  | simple => exact ⟨.refl m, hm, hes⟩
  | @stored decl =>
    have hadds : m.Adds (Lift.stored m decl key) :=
      ⟨VarTable.extends_push _ _, ⟨_, rfl, rfl⟩, rfl, rfl, rfl⟩
    exact hadds.advances hm (Machine.Entries.of_grows hadds.grows hes)

theorem advances_switch (h : switch env table default m = .ok () m') (hm : m.Coherent)
    (hes : m.Entries) : m.Advances m' := by
  obtain ⟨key, st, m₁, m₂, key', m₃, hst, hspill, hkeeps, hcases, hgoto⟩ := switch_eq_ok h
  have hadds := Machine.Adds.restack m st
  obtain ⟨hadds₁, hes₁, _⟩ :=
    spillStack_spec hspill (entries_below hes (show m.stack = [key] ++ st from hst))
  have hadv₂ := hkeeps.advances (hadds₁.coherent (hadds.coherent hm)) hes₁
  have hadv₃ := advances_cases hcases hadv₂.coherent hadv₂.entries
  exact ((hadds.trans hadds₁).grows.trans (hadv₂.grows.trans hadv₃.grows)).advances
    (advances_goto hgoto hadv₃.coherent hadv₃.entries)

end Lift

/-! ## What it does -/

section

variable {ρ η : Type} [DecidableEq ρ] {w : World ρ η} {final : Machine} {ls : List Label}
  {f : Frame ρ η} {s : Store ρ η} {k : Int32}

/-- With nothing on the stack, nothing is pending. -/
theorem Matches.of_empty (hmatch : Matches w env final m f s) (hempty : m.stack = []) :
    f.stack = [] ∧ s.memory = f.memory := by
  have hstack := hmatch.stack
  rw [hempty] at hstack
  obtain ⟨hf, hs⟩ := World.evalStack_nil_eq_ok.1 hstack
  exact ⟨by simpa using hf, by rw [← hs]⟩

theorem matches_empty (hempty : m.stack = []) (hf : f.stack = []) (hmem : s.memory = f.memory)
    (hlocals : HoldsLocals final f.locals s) : Matches w env final m f s := by
  refine ⟨?_, by rw [hempty, hf]; rfl, hlocals⟩
  rw [hempty, hf, ← hmem]
  rfl

/-- The first case that has the value of the key is taken, if there is one. -/
theorem Matches.cases (hmatch : Matches w env final m f s) (hempty : m.stack = []) (hm : m.Coherent)
    (hes : m.Entries) (hkey : key.Known m.vars.size) (hpure : key.isPure = true)
    (heval : w.eval key s = .ok (.int k) s) (h : Lift.cases env key table m = .ok () m')
    (hfinal : m'.Grows ls final) (hcoherent : final.Coherent) :
    ∃ s', match (table.find? (·.1 = k)).map Prod.snd with
      | some target =>
          ∃ l, env.flow.label? target = some l ∧ m.Leaves w.semantics m' (.jumping l) s s' ∧
          Arrives final l f s'
      | none => m.Passes w.semantics m' s s' ∧ Matches w env final m' f s' := by
  induction table generalizing m s with
  | nil =>
    obtain ⟨_, rfl⟩ := pure_eq_ok.1 h
    exact ⟨s, .of_out rfl, hmatch⟩
  | cons c table ih =>
    obtain ⟨value, target⟩ := c
    obtain ⟨l, m₁, hl, hflow, hrest⟩ := cases_cons_eq_ok h
    obtain ⟨_, _, temps, hflows⟩ := exists_flows hflow hm hes
    have hadv := hflows.advances
    have hadds := m₁.adds_goto l (some (.compare .eq key (.int value))) m₁.stack
    have hadv' := advances_cases hrest (hadds.coherent hadv.coherent) hadv.entries
    obtain ⟨s₁, hemitted, harrives, hvars⟩ :=
      hmatch.flows hflows (hadds.grows.trans (hadv'.grows.trans hfinal)) hcoherent
    have heval₁ : w.eval key s₁ = .ok (.int k) s₁ :=
      (hkey.eval_pure hpure heval fun x hx => hvars x hx (hflows.not_mem hx (.inl hempty))).2
    have hcompare : w.eval (.compare .eq key (.int value)) s₁ = _ :=
      World.eval_compare heval₁ (w.eval_int value s₁)
    have hact := act_goto (l := l) hcompare
    rw [Value.truth_ofBool] at hact
    by_cases hk : k = value
    · -- The case is taken, whatever is emitted behind it.
      subst hk
      have hholds : CompareOp.eq.decides (w.order (.int k) (.int k)) = true := by
        show (compare k k == .eq) = true
        simp
      rw [hholds, if_pos rfl] at hact
      simp only [List.find?_cons, decide_true, Option.map_some]
      obtain ⟨ss, hss, _⟩ := hadv'.grows.out
      exact ⟨s₁, l, hl, (hemitted.leaves (.one rfl hact)).mono ⟨ss, hss.symm⟩, harrives⟩
    · have hholds : CompareOp.eq.decides (w.order (.int k) (.int value)) = false := by
        show (compare k value == .eq) = false
        simpa using hk
      rw [hholds, if_neg Bool.false_ne_true] at hact
      obtain ⟨m₂, hm₂⟩ : ∃ m₂ : Machine,
          { m₁ with out := m₁.out ++ [.goto l (some (.compare .eq key (.int value)))] } = m₂ :=
        ⟨_, rfl⟩
      rw [hm₂] at hrest hadds
      have hout : m₂.out = m₁.out ++ [.goto l (some (.compare .eq key (.int value)))] := hm₂ ▸ rfl
      have hempty₂ : m₂.stack = [] := hm₂ ▸ hflows.stack_eq_nil hempty
      have hemitted₂ : m.Passes w.semantics m₂ s s₁ := hemitted.trans (.one hout hact)
      obtain ⟨s', hs'⟩ :=
        ih (matches_empty hempty₂ (hmatch.of_empty hempty).1 harrives.memory harrives.locals)
          hempty₂
        (hadds.coherent hadv.coherent) (hm₂ ▸ hadv.entries)
        (hkey.mono (hadv.grows.trans hadds.grows).vars.size) heval₁ hrest
      have hne : ¬ value = k := fun heq => hk heq.symm
      refine ⟨s', ?_⟩
      simp only [List.find?_cons, hne, decide_false]
      split at hs'
      · rename_i heq
        rw [heq]
        obtain ⟨l', hl', hexit, harrives'⟩ := hs'
        exact ⟨l', hl', hemitted₂.leaves hexit, harrives'⟩
      · rename_i heq
        rw [heq]
        exact ⟨hemitted₂.trans hs'.1, hs'.2⟩

section

variable {key' : Expr} (h : Lift.Keeps key m m' key')
include h

/-- With nothing below it, the key is prepared as a condition would be. -/
theorem Lift.Keeps.prepares (hempty : m.stack = []) (l : Label) :
    Lift.Prepares env l m key m' key' := by
  cases h with
  | simple => exact .later (.inl hempty)
  | stored => exact .now (spillStack_of_empty _ hempty)

theorem Lift.Keeps.isPure : key'.isPure = true := by
  cases h with
  | simple hsimple => exact isPure_of_isSimple hsimple
  | stored => rfl

theorem Lift.Keeps.known (hkey : key.Known m.vars.size) : key'.Known m'.vars.size := by
  cases h with
  | simple => exact hkey
  | @stored decl =>
    refine (entry_var ?_).toKnown
    show m.vars.next.index < (m.vars.push decl).size
    rw [VarTable.size_push, VarTable.index_next]
    omega

end

/-- A switch with nothing on the stack below the key goes where the key says. -/
theorem Matches.switch (hmatch : Matches w env final m f s) (hm : m.Coherent) (hes : m.Entries)
    (h : Lift.switch env table default m = .ok () m') (hfinal : m'.Grows ls final)
    (hcoherent : final.Coherent) (hf : f.stack = [.int k]) :
    ∃ l s', env.flow.label? (((table.find? (·.1 = k)).map Prod.snd).getD default) = some l ∧
      m.Leaves w.semantics m' (.jumping l) s s' ∧ Arrives final l { f with stack := [] } s' := by
  obtain ⟨key, st, m₁, m₂, key', m₃, hst, hspill, hkeeps, hcases, hgoto⟩ := switch_eq_ok h
  obtain ⟨us, ts, t, hus, _, hts, hf', _, _⟩ :=
    hmatch.split hes (show m.stack = [key] ++ st from hst)
  obtain ⟨x, hx, rfl⟩ := World.evalStack_one_eq_ok.1 hts
  obtain ⟨rfl, rfl⟩ : .int k = x ∧ [] = us := by
    rw [hf] at hf'
    exact ⟨(List.cons.inj hf').1, (List.cons.inj hf').2⟩
  obtain rfl : st = [] := List.eq_nil_of_length_eq_zero (World.length_of_evalStack hus).symm
  obtain ⟨_, ht⟩ := World.evalStack_nil_eq_ok.1 hus
  rw [ht] at hx
  rw [spillStack_of_empty _ rfl] at hspill
  cases hspill
  -- Before the key is evaluated, the memory is the one that the emitted statements run in.
  have hadds := Machine.Adds.restack m []
  have hmatch₁ :
    Matches w env final { m with stack := [] } { f with stack := [], memory := s.memory } s :=
    matches_empty rfl rfl rfl hmatch.locals
  have hkey : key.Known m.vars.size := (hes key (by simp [hst])).toKnown
  have hadv₂ :=
    hkeeps.advances (hadds.coherent hm) (entries_below hes (show m.stack = [key] ++ [] from hst))
  have hadv₃ := advances_cases hcases hadv₂.coherent hadv₂.entries
  have hfinal₃ := (advances_goto hgoto hadv₃.coherent hadv₃.entries).grows.trans hfinal
  obtain ⟨s₁, μ₁, hemitted, hmatch₂, heval⟩ :=
    (hkeeps.prepares rfl ⟨0⟩).runs hmatch₁ (hadds.coherent hm)
    (entries_below hes (show m.stack = [key] ++ [] from hst)) (hadv₃.grows.trans hfinal₃) hkey hx
  have hempty₂ : m₂.stack = [] := by
    cases hkeeps <;> rfl
  have hmem := (hmatch₂.of_empty hempty₂).2
  have heval₁ := heval s₁ hmem fun _ _ _ => rfl
  obtain ⟨hsame, heval₂⟩ :=
    (hkeeps.known hkey).eval_pure hkeeps.isPure heval₁ (r := s₁) fun _ _ => rfl
  obtain rfl : f.memory = μ₁ := (congrArg Store.memory hsame).trans hmem
  obtain ⟨s₂, hs₂⟩ :=
    hmatch₂.cases hempty₂ hadv₂.coherent hadv₂.entries (hkeeps.known hkey) hkeeps.isPure
    heval₂ hcases hfinal₃ hcoherent
  split at hs₂
  · rename_i target heq
    obtain ⟨l, hl, hexit, harrives⟩ := hs₂
    obtain ⟨ss, hss, _⟩ := (advances_goto hgoto hadv₃.coherent hadv₃.entries).grows.out
    refine ⟨l, s₂, by rw [heq]; exact hl, ?_, harrives⟩
    exact (hemitted.leaves hexit).mono ⟨ss, hss.symm⟩
  · rename_i heq
    obtain ⟨hemitted₂, hmatch₃⟩ := hs₂
    obtain ⟨l, s', hl, hexit, harrives⟩ :=
      hmatch₃.goto hadv₃.coherent hadv₃.entries hgoto hfinal hcoherent
    exact ⟨l, s', by rw [heq]; exact hl, hemitted.leaves (hemitted₂.leaves hexit), harrives⟩

end

end ByteLift
