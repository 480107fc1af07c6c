import ByteLift.Proofs.Lift.Compute

/-!
# Lifting loads and stores

A local slot has one variable for each kind of value, made at the first store. Loading puts a read
of the variable on the stack; it may stay pending there. So a store first spills the entries that
read the variable, and then assigns it.
-/

namespace ByteLift

open Expr VarTable Lift

variable {m m' : Machine} {slot : Nat} {kind : LocalKind}

/-! ## The variable of a local -/

namespace Lift

theorem loadLocal_eq_ok {e : Expr} (h : loadLocal slot kind m = .ok e m') (hm : m.OwnLocals) :
    ∃ v, e = .var v ∧ entered? (slot, kind) m.locals = some (.var v) ∧ m' = m := by
  simp only [loadLocal, bind_eq_ok, get_eq_ok] at h
  obtain ⟨_, m, ⟨rfl, rfl⟩, h⟩ := h
  cases hk : entered? (slot, kind) m.locals with
  | none =>
    rw [hk] at h
    cases h
  | some l =>
    obtain ⟨v, rfl, _⟩ := hm.known _ l hk
    simp only [hk, pure_eq_ok] at h
    obtain ⟨rfl, rfl⟩ := h
    exact ⟨v, rfl, rfl, rfl⟩

theorem isWide_localTy {ty : Ty} (h : kind = .reference → ty.isWide = false) :
    (localTy kind ty).isWide = kind.isWide := by
  cases kind with
  | int =>
    rw [localTy]
    split
    · rename_i hint
      cases ty <;> first | rfl | cases hint
    · rfl
  | reference => rw [localTy, Ty.isWide_orObject, h rfl]; rfl
  | _ => rfl

end Lift

namespace Machine

/-- A type can be replaced by one that takes as many words. -/
theorem advances_setTy (hm : m.Coherent) (hes : m.Entries) {v : Var} {ty : Ty}
    (h : ty.isWide = (m.vars.ty v).isWide) : m.Advances { m with vars := m.vars.setTy v ty } := by
  have hadds : m.Adds { m with vars := m.vars.setTy v ty } :=
    ⟨extends_setTy _ h, ⟨[], by simp, rfl⟩, rfl, rfl, rfl⟩
  exact hadds.advances hm (Entries.of_grows hadds.grows hes)

/-- The state in which a local that had no variable has a new one. -/
def withLocal (m : Machine) (key : Nat × LocalKind) (decl : VarDecl) : Machine :=
  { m with vars := m.vars.push decl, locals := enter key (.var m.vars.next) m.locals }

variable {key : Nat × LocalKind} {decl : VarDecl}

theorem entered?_withLocal (k : Nat × LocalKind) : entered? k (m.withLocal key decl).locals =
      if k = key then some (.var m.vars.next) else entered? k m.locals :=
  entered?_enter ..

theorem grows_withLocal (hkey : entered? key m.locals = none) :
    m.Grows [] (m.withLocal key decl) where
  vars := extends_push m.vars decl
  out := ⟨[], by simp [withLocal], rfl⟩
  locals k l hk := by
    rw [entered?_withLocal, if_neg, hk]
    rintro rfl
    rw [hkey] at hk
    cases hk
  new_locals k v hk := by
    rw [entered?_withLocal] at hk
    split at hk
    · cases hk
      exact .inr (Nat.le_refl _)
    · exact .inl hk
  merges _ _ h := h
  new_merges _ _ h := .inl h
  shapes _ shape h := ⟨shape, h, rfl⟩

theorem OwnLocals.withLocal (hm : m.OwnLocals) : (m.withLocal key decl).OwnLocals := by
  have hfresh : ∀ k, entered? k m.locals ≠ some (.var m.vars.next) := by
    intro k hk
    have hlt := hm.index_lt hk
    rw [index_next] at hlt
    omega
  refine ⟨fun k l hk => ?_, fun k k' v hk hk' => ?_⟩
  · rw [entered?_withLocal] at hk
    split at hk
    · cases hk
      exact ⟨_, rfl, by simp [Machine.withLocal]⟩
    · obtain ⟨v, rfl, hv⟩ := hm.known k l hk
      exact ⟨v, rfl, Nat.lt_of_lt_of_le hv (extends_push m.vars decl).size⟩
  · rw [entered?_withLocal] at hk hk'
    split at hk <;> split at hk'
    · exact ‹k = key›.trans ‹k' = key›.symm
    · cases hk
      exact absurd hk' (hfresh k')
    · cases hk'
      exact absurd hk (hfresh k)
    · exact hm.inj k k' v hk hk'

theorem Coherent.withLocal (hm : m.Coherent) (hdecl : decl.ty.isWide = key.2.isWide) :
    (m.withLocal key decl).Coherent := by
  have hext := extends_push m.vars decl
  have hown : (m.withLocal key decl).OwnLocals := hm.ownLocals.withLocal
  refine ⟨fun k l hk => ?_, hown.inj, ?_, hm.merges_inj, ?_⟩
  · obtain ⟨v, rfl, hv⟩ := hown.known k l hk
    refine ⟨v, rfl, hv, ?_⟩
    rw [entered?_withLocal] at hk
    split at hk
    · rename_i heq
      cases hk
      show ((m.vars.push decl).ty m.vars.next).isWide = _
      rw [ty_push_next, hdecl, heq]
    · obtain ⟨_, hu, hv, hwide⟩ := hm.locals k _ hk
      cases hu
      exact (hext.wide v hv).trans hwide
  · intro l j v hp
    obtain ⟨hv, shape, t, hl, ht, hwide⟩ := hm.merges l j v hp
    exact ⟨Nat.lt_of_lt_of_le hv hext.size, shape, t, hl, ht, (hext.wide v hv).trans hwide⟩
  · intro k p v hk hp
    rw [entered?_withLocal] at hk
    split at hk
    · cases hk
      have hlt := (hm.merges p.1 p.2 _ hp).1
      rw [index_next] at hlt
      omega
    · exact hm.apart k p v hk hp

end Machine

variable {ty : Ty} {v : Var}

/-- A store finds the variable of its local, which may only get the type of a reference for that of
`null`, or makes one. -/
theorem Lift.localForStore_cases (h : localForStore slot kind ty m = .ok v m') :
    (entered? (slot, kind) m.locals = some (.var v) ∧
      (m' = m ∨ ty.isWide = (m.vars.ty v).isWide ∧ m' = { m with vars := m.vars.setTy v ty })) ∨
    ((∀ u, entered? (slot, kind) m.locals ≠ some (.var u)) ∧ v = m.vars.next ∧
      ∃ decl : VarDecl, decl.ty = localTy kind ty ∧ m' = m.withLocal (slot, kind) decl) := by
  simp only [localForStore, bind_eq_ok, get_eq_ok] at h
  obtain ⟨_, m, ⟨rfl, rfl⟩, h⟩ := h
  rcases hk : entered? (slot, kind) m.locals with _ | _ | u
  · simp only [hk, bind_eq_ok, set_eq_ok, pure_eq_ok] at h
    obtain ⟨_, _, rfl, rfl, rfl⟩ := h
    exact .inr ⟨by simp, rfl, _, rfl, rfl⟩
  · simp only [hk, bind_eq_ok, set_eq_ok, pure_eq_ok] at h
    obtain ⟨_, _, rfl, rfl, rfl⟩ := h
    exact .inr ⟨by simp, rfl, _, rfl, rfl⟩
  · simp only [hk] at h
    split at h
    · rename_i hnull
      simp only [Bool.and_eq_true, decide_eq_true_eq] at hnull
      simp only [bind_eq_ok, set_eq_ok, pure_eq_ok] at h
      obtain ⟨_, _, rfl, rfl, rfl⟩ := h
      refine .inl ⟨rfl, .inr ⟨?_, rfl⟩⟩
      rw [hnull.1, Ty.isWide_of_isReference hnull.2]
      rfl
    · obtain ⟨rfl, rfl⟩ := pure_eq_ok.1 h
      exact .inl ⟨rfl, .inl rfl⟩

/-- The variable that stores to a local write stands for the local from then on. -/
theorem Lift.localForStore_spec (h : localForStore slot kind ty m = .ok v m') (hm : m.Coherent)
    (hes : m.Entries) (hty : kind = .reference → ty.isWide = false) :
    m.Advances m' ∧ entered? (slot, kind) m'.locals = some (.var v) ∧ m'.stack = m.stack ∧
    m'.out = m.out := by
  rcases localForStore_cases h with ⟨hk, rfl | ⟨hwide, rfl⟩⟩ | ⟨hnone, rfl, decl, hdecl, rfl⟩
  · exact ⟨⟨.refl _, hm, hes⟩, hk, rfl, rfl⟩
  · exact ⟨Machine.advances_setTy hm hes hwide, hk, rfl, rfl⟩
  · have hkey : entered? (slot, kind) m.locals = none := by
      cases hk : entered? (slot, kind) m.locals with
      | none => rfl
      | some l =>
        obtain ⟨u, rfl, _⟩ := hm.locals _ l hk
        exact absurd hk (hnone u)
    have hgrows : m.Grows [] (m.withLocal (slot, kind) decl) := Machine.grows_withLocal hkey
    refine ⟨⟨hgrows, hm.withLocal ?_, Machine.Entries.of_grows hgrows hes⟩, ?_, rfl, rfl⟩
    · rw [hdecl]
      exact isWide_localTy hty
    · exact (Machine.entered?_withLocal _).trans (if_pos rfl)

/-! ## Loads -/

section

variable {ρ η : Type} [DecidableEq ρ] {w : World ρ η} {env : Env} {final : Machine}
  {ls : List Label} {f : Frame ρ η} {s : Store ρ η}

theorem Lift.load_eq_ok (h : step env (.load kind slot) m = .ok () m') (hm : m.OwnLocals) :
    ∃ v, entered? (slot, kind) m.locals = some (.var v) ∧
    m' = { m with stack := .var v :: m.stack } := by
  simp only [step, bind_eq_ok, push_eq_ok] at h
  obtain ⟨e, _, he, rfl⟩ := h
  obtain ⟨v, rfl, hk, rfl⟩ := loadLocal_eq_ok he hm
  exact ⟨v, hk, rfl⟩

theorem Lift.advances_load (h : step env (.load kind slot) m = .ok () m') (hm : m.Coherent)
    (hes : m.Entries) : m.Advances m' := by
  obtain ⟨v, hk, rfl⟩ := load_eq_ok h hm.ownLocals
  have hv := hm.ownLocals.index_lt hk
  refine (Machine.Adds.restack m _).advances hm ?_
  intro e he
  rcases List.mem_cons.1 he with rfl | he
  · exact entry_var hv
  · exact hes e he

variable {x : Value ρ} {pc : Nat} {amount : Int16}

theorem Matches.load (hmatch : Matches w env final m f s) (hm : m.Coherent)
    (h : step env (.load kind slot) m = .ok () m') (hfinal : m'.Grows ls final)
    (hx : f.locals (slot, kind) = some x) :
    MatchesAfter w env final m m' { f with pc, stack := x :: f.stack } s := by
  obtain ⟨v, hk, rfl⟩ := load_eq_ok h hm.ownLocals
  have hv : s.vars v = x := hmatch.locals.value _ v x (hfinal.locals _ _ hk) hx
  obtain ⟨_, hu, _, hwide⟩ := hm.locals _ _ hk
  cases hu
  refine ⟨s, .of_out rfl, ?_, ?_, hmatch.locals⟩
  · refine World.evalStack_cons_eq_ok.2 ⟨f.stack, x, _, hmatch.stack, ?_, rfl⟩
    rw [World.eval_var, ← hv]
  · show (Expr.var v :: m.stack).map (env.isWide m.vars) = (x :: f.stack).map Value.isWide
    rw [List.map_cons, List.map_cons, hmatch.wides, Value.isWide, hmatch.locals.kind _ x hx]
    exact congrArg (· :: _) hwide

/-! ## Stores -/

variable {t : Store ρ η} {a : Int32}

/-- A variable is assigned in place of the local it stands for. -/
theorem HoldsLocals.emit_set {key : Nat × LocalKind} {e : Expr} {us : List (Value ρ)} (pc : Nat)
    (h : HoldsLocals final f.locals s) (hm : m.Coherent) (hes : m.Entries)
    (hemit : emit env (.set v e) (some v) (!e.isPure) m = .ok () m') (hfinal : m'.Grows ls final)
    (hcoherent : final.Coherent) (hk : entered? key m.locals = some (.var v))
    (he : e.Known m.vars.size)
    (hus : w.evalStack m.stack s = .ok us t) (hx : w.eval e t = .ok x ⟨s.vars, f.memory⟩)
    (hkind : x.kind = key.2) (hwides : m.stack.map (env.isWide m.vars) = us.map Value.isWide) :
    MatchesAfter w env final m m'
      { f with pc, stack := us, locals := fun k => if k = key then some x else f.locals k } s := by
  have hv := hm.ownLocals.index_lt hk
  obtain ⟨s', hemitted, hstack, hset, hvars⟩ := emit_set_runs hemit hes he hv hus hx
  obtain ⟨hadds, _, hwides'⟩ := emit_spec hemit hes rfl
  have hfinal' := hfinal.locals key _ (hadds.grows.locals _ _ hk)
  refine ⟨s', hemitted, hstack, hwides'.trans hwides, fun k u y hu hy => ?_, fun k y hy => ?_⟩
  · simp only at hy
    split at hy
    · rename_i heq
      cases hy
      rw [heq, hfinal'] at hu
      cases hu
      exact hset
    · rename_i hne
      have huv : u ≠ v := by
        rintro rfl
        exact hne (hcoherent.locals_inj k key u hu hfinal')
      rw [hvars u huv (hadds.old_or_later hm hfinal hu)]
      exact h.value k u y hu hy
  · simp only at hy
    split at hy
    · rename_i heq
      cases hy
      rw [hkind, heq]
    · exact h.kind k y hy

section

variable (h : step env (.store kind slot) m = .ok () m') (hstatic : env.isStatic = true)

include h hstatic

theorem Lift.store_eq_ok : ∃ value st v m₁, m.stack = value :: st ∧
      localForStore slot kind (env.typeOf m.vars value) { m with stack := st } = .ok v m₁ ∧
      emit env (.set v (value.coerce (m₁.vars.ty v))) (some v)
        (!(value.coerce (m₁.vars.ty v)).isPure) m₁ = .ok () m' := by
  simp only [step, storeLocal, hstatic, Bool.not_true, Bool.and_false, Bool.false_eq_true, if_false,
    bind_eq_ok, pop_eq_ok, get_eq_ok] at h
  obtain ⟨value, _, ⟨st, hst, rfl⟩, _, _, ⟨rfl, rfl⟩, v, _, hv, _, m₁, ⟨rfl, rfl⟩, h⟩ := h
  rw [← isPure_coerce value (m₁.vars.ty v)] at h
  exact ⟨value, st, v, m₁, hst, hv, h⟩

variable (hm : m.Coherent) (hes : m.Entries)
  (hfits : env.fits m.vars m.stack (.store kind slot) = true)

include hm hes hfits

/-- What happens before the assignment of a store. -/
theorem Lift.store_spec :
    ∃ value st v m₁, m.stack = value :: st ∧ m.Advances m₁ ∧ m₁.stack = st ∧ m₁.out = m.out ∧
      entered? (slot, kind) m₁.locals = some (.var v) ∧
      emit env (.set v (value.coerce (m₁.vars.ty v))) (some v)
        (!(value.coerce (m₁.vars.ty v)).isPure) m₁ = .ok () m' := by
  obtain ⟨value, st, v, m₁, hst, hv, hemit⟩ := store_eq_ok h hstatic
  have hadds := Machine.Adds.restack m st
  have hty : kind = .reference → (env.typeOf m.vars value).isWide = false := by
    rintro rfl
    simpa [Env.fits, hst] using hfits
  obtain ⟨hadv, hk, hstack, hout⟩ := localForStore_spec hv (hadds.coherent hm)
    (fun e he => hes e (by simp [hst, show e ∈ st from he])) hty
  exact ⟨value, st, v, m₁, hst, hadds.grows.advances hadv, hstack, hout, hk, hemit⟩

theorem Lift.advances_store : m.Advances m' := by
  obtain ⟨value, st, v, m₁, _, hadv, _, _, _, hemit⟩ := store_spec h hstatic hm hes hfits
  obtain ⟨hadds, hes', _⟩ := emit_spec hemit hadv.entries rfl
  exact hadv.grows.advances (hadds.advances hadv.coherent hes')

/-- Storing an entry in a local does what storing its value does. -/
theorem Matches.store {vs : List (Value ρ)} (hmatch : Matches w env final m f s)
    (hfinal : m'.Grows ls final)
    (hcoherent : final.Coherent) (hf : f.stack = x :: vs) (hkind : x.kind = kind) :
    MatchesAfter w env final m m' { f with
        pc, stack := vs
        locals := fun key => if key = (slot, kind) then some x else f.locals key } s := by
  obtain ⟨value, st, v, m₁, hst, hadv, hst₁, hout, hk, hemit⟩ := store_spec h hstatic hm hes hfits
  obtain ⟨us, ts, t, hus, _, hts, hf', _, hbelow⟩ :=
    hmatch.split hes (show m.stack = [value] ++ st from hst)
  obtain ⟨y, hy, rfl⟩ := World.evalStack_one_eq_ok.1 hts
  rw [hf] at hf'
  cases hf'
  have hvalue : value.Known m₁.vars.size :=
    (hes value (by simp [hst])).toKnown.mono hadv.grows.vars.size
  have hwides : m₁.stack.map (env.isWide m₁.vars) = us.map Value.isWide := by
    rw [← hbelow, hst₁]
    exact List.map_congr_left fun e he =>
      env.isWide_of_extends hadv.grows.vars (hes e (by simp [hst, he]))
  obtain ⟨s', hemitted, hmatch'⟩ :=
    hmatch.locals.emit_set pc hadv.coherent hadv.entries hemit hfinal
    hcoherent hk (hvalue.coerce _) (hst₁ ▸ hus) (by rw [World.eval_coerce, hy]) hkind hwides
  obtain ⟨ss, hss, hrun⟩ := hemitted
  exact ⟨s', ⟨ss, by rw [hss, hout], hrun⟩, hmatch'⟩

end

/-! ## Increments -/

/-- The value of an increment, with whichever sign it is written. -/
theorem World.eval_increment (w : World ρ η) (ty : Ty) (amount : Int16) (h : t.vars v = .int a) :
    w.eval (increment v ty amount) t = .ok (.int (a + amount.toInt32)) t := by
  have hlit (b : Int32) : w.eval (.int b) t = .ok (.int b) t := by
    simp only [Expr.int, World.eval]
    rfl
  unfold increment
  split
  · rw [w.eval_binary (show BinOp.sub.arith? = some .sub from rfl), bind_of_ok (w.eval_var v t),
      bind_of_ok (hlit _), h]
    show EStateM.Result.ok (Value.int (a - -amount.toInt32)) t = _
    rw [Int32.sub_eq_add_neg, Int32.neg_neg]
  · rw [w.eval_binary (show BinOp.add.arith? = some .add from rfl), bind_of_ok (w.eval_var v t),
      bind_of_ok (hlit _), h]
    rfl

theorem Lift.known_increment {n : Nat} (ty : Ty) (amount : Int16) (hv : v.index < n) :
    (increment v ty amount).Known n ∧ (increment v ty amount).isPure = true := by
  unfold increment
  split <;>
    exact ⟨⟨by simp [isPlain, Expr.int], by simp [usesAs, Expr.int, hv]⟩,
      by simp [isPure, Expr.int, BinOp.isDivision]⟩

theorem Lift.iinc_eq_ok (h : step env (.iinc slot amount) m = .ok () m') (hm : m.OwnLocals) :
    ∃ v e, entered? (slot, .int) m.locals = some (.var v) ∧ e = increment v (m.vars.ty v) amount ∧
      e.Known m.vars.size ∧ emit env (.set v e) (some v) (!e.isPure) m = .ok () m' := by
  simp only [step, bind_eq_ok] at h
  obtain ⟨e, _, he, h⟩ := h
  obtain ⟨v, rfl, hk, rfl⟩ := loadLocal_eq_ok he hm
  simp only [bind_eq_ok, get_eq_ok] at h
  obtain ⟨_, m, ⟨rfl, rfl⟩, h⟩ := h
  have hv := hm.index_lt hk
  obtain ⟨hknown, hpure⟩ := known_increment (m.vars.ty v) amount hv
  exact ⟨v, _, hk, rfl, hknown, by rw [hpure]; exact h⟩

theorem Lift.advances_iinc (h : step env (.iinc slot amount) m = .ok () m') (hm : m.Coherent)
    (hes : m.Entries) : m.Advances m' := by
  obtain ⟨v, e, _, _, _, hemit⟩ := iinc_eq_ok h hm.ownLocals
  obtain ⟨hadds, hes', _⟩ := emit_spec hemit hes rfl
  exact hadds.advances hm hes'

theorem Matches.iinc (hmatch : Matches w env final m f s) (hm : m.Coherent) (hes : m.Entries)
    (h : step env (.iinc slot amount) m = .ok () m') (hfinal : m'.Grows ls final)
    (hcoherent : final.Coherent) (ha : f.locals (slot, .int) = some (.int a)) :
    MatchesAfter w env final m m' { f with
        pc
        locals := fun key =>
          if key = (slot, .int) then some (.int (a + amount.toInt32)) else f.locals key } s := by
  obtain ⟨v, e, hk, rfl, hknown, hemit⟩ := iinc_eq_ok h hm.ownLocals
  have hadds := (emit_spec hemit hes rfl).1
  have hv : s.vars v = .int a :=
    hmatch.locals.value _ v _ (hfinal.locals _ _ (hadds.grows.locals _ _ hk)) ha
  exact hmatch.locals.emit_set pc hm hes hemit hfinal hcoherent hk hknown hmatch.stack
    (w.eval_increment _ amount hv) rfl hmatch.wides

end

end ByteLift
