import ByteLift.Proofs.Lift.Compute

/-!
# Lifting instructions that rearrange the stack

Values are dropped, repeated and exchanged by the words they fill. An entry that is dropped is
emitted if it has effects. One that is repeated must be a literal or a variable, and one that is
exchanged must be pure; others are spilled first.
-/

namespace ByteLift

open Expr World List

/-! ## The entries on top -/

/-- What holds of all entries from a slot on that are not chosen, and of new variables, holds of
what is left from that slot on. -/
theorem Spilled.forall_mem_take {chosen : Nat → Expr → Bool} {n k : Nat} {es es' : List Expr}
    {P : Expr → Prop} (h : Spilled chosen n es es')
    (hkept : ∀ slot e, es.length - k ≤ slot → chosen slot e = false → P e)
    (hvar : ∀ t : Var, P (.var t)) : ∀ e ∈ es'.take k, P e := by
  induction h generalizing k with
  | nil => simp
  | @kept e es es' _ hc ih =>
    cases k with
    | zero => simp
    | succ k =>
      rw [length_cons, Nat.add_sub_add_right] at hkept
      simp only [take_succ_cons, forall_mem_cons]
      exact ⟨hkept _ e (Nat.sub_le _ _) hc, ih hkept⟩
  | @spilled e es es' t _ _ _ ih =>
    cases k with
    | zero => simp
    | succ k =>
      rw [length_cons, Nat.add_sub_add_right] at hkept
      simp only [take_succ_cons, forall_mem_cons]
      exact ⟨hvar t, ih hkept⟩

/-! ## Dropping -/

section

variable {ρ η : Type} [DecidableEq ρ] {w : World ρ η} {env : Env} {final m m' : Machine}
  {ls : List Label} {f : Frame ρ η} {s : Store ρ η}

variable {es top below : List Expr} {vs : List (Value ρ)}

theorem Lift.advances_discard (h : discard env es m = .ok () m') (hm : m.Coherent)
    (hes : m.Entries) : m.Advances m' := by
  induction es generalizing m with
  | nil =>
    obtain ⟨_, rfl⟩ := pure_eq_ok.1 h
    exact ⟨.refl _, hm, hes⟩
  | cons e es ih =>
    rw [discard] at h
    split at h
    · obtain ⟨_, m₁, hemit, h⟩ := bind_eq_ok.1 h
      obtain ⟨hadds, hes₁, _⟩ := emit_spec hemit hes rfl
      exact hadds.grows.advances (ih h (hadds.coherent hm) hes₁)
    · exact ih h hm hes

variable {us : List (Value ρ)} {pc n group under : Nat}

/-- Entries are dropped from the lowest to the topmost, keeping their effects. -/
theorem HoldsLocals.discard {t : Store ρ η} {μ : Memory ρ η} (h : HoldsLocals final f.locals s)
    (hm : m.Coherent)
    (hstack : m.Entries) (hdiscard : Lift.discard env es m = .ok () m') (hfinal : m'.Grows ls final)
    (hes : ∀ e ∈ es, e.Entry m.vars.size) (hus : w.evalStack m.stack s = .ok us t)
    (hvs : w.evalList es t = .ok vs ⟨s.vars, μ⟩)
    (hwides : m.stack.map (env.isWide m.vars) = us.map Value.isWide) :
    MatchesAfter w env final m m' { f with pc, stack := us, memory := μ } s := by
  induction es generalizing m s t vs with
  | nil =>
    obtain ⟨_, rfl⟩ := pure_eq_ok.1 hdiscard
    obtain ⟨_, rfl⟩ := pure_eq_ok.1 hvs
    exact ⟨s, .of_out rfl, hus, hwides, h⟩
  | cons e es ih =>
    simp only [forall_mem_cons] at hes
    obtain ⟨v, vs, t₁, hv, hrest, rfl⟩ := evalList_cons_eq_ok.1 hvs
    rw [Lift.discard] at hdiscard
    split at hdiscard
    · obtain ⟨_, m₁, hemit, hdiscard⟩ := bind_eq_ok.1 hdiscard
      obtain ⟨hadds, hes₁, hwides₁⟩ := emit_spec hemit hstack rfl
      have ht₁ : t₁.vars = s.vars := by
        rw [(w.stays_eval e hes.1.plain t t v t₁ hv rfl fun _ _ => rfl).1,
          vars_of_evalStack hstack hus]
      have hv₁ : w.eval e t = .ok v ⟨s.vars, t₁.memory⟩ := by rw [hv, ← ht₁]
      obtain ⟨s₁, hemitted, hmatch, hvars⟩ := h.emit_expr pc hm hemit
        ((Lift.advances_discard hdiscard (hadds.coherent hm) hes₁).grows.trans hfinal) hstack
        ((w.stays_eval e hes.1.plain).mono hes.1.vars) hus hv₁ hwides
      have hrest' : w.evalList es ⟨s₁.vars, t₁.memory⟩ = .ok vs ⟨s₁.vars, μ⟩ := by
        have hplain := isPlainList_iff.2 fun a ha => (hes.2 a ha).plain
        refine (w.stays_evalList es hplain t₁ ⟨s₁.vars, t₁.memory⟩ vs _ hrest rfl ?_).2
        intro x hx
        obtain ⟨a, ha, hx⟩ := mem_usesList.1 hx
        rw [ht₁]
        exact hvars x ((hes.2 a ha).vars x hx)
      obtain ⟨s', hemitted', hmatch'⟩ := ih hmatch.locals (hadds.coherent hm) hes₁ hdiscard
        (fun a ha => (hes.2 a ha).mono hadds.vars.size) hmatch.stack hrest' hmatch.wides
      exact ⟨s', hemitted.trans hemitted', hmatch'⟩
    · rename_i heff
      obtain rfl := w.reads_eval e hes.1.plain (by simpa [hasEffects] using heff) t v t₁ hv
      exact ih h hm hstack hdiscard hes.2 hus hrest hwides

section

variable (h : (Lift.takeWords env n >>= fun es => Lift.discard env es.reverse) m = .ok () m')
include h

/-- Takes words off the stack and drops them. -/
theorem Lift.drop_eq_ok :
    ∃ top st, m.stack = top ++ st ∧ discard env top.reverse { m with stack := st } = .ok () m' ∧
      ∀ {ρ : Type} (vs us : List (Value ρ)), top.map (env.isWide m.vars) = vs.map Value.isWide →
        Frame.takeWords n (vs ++ us) = some (vs, us) := by
  obtain ⟨top, _, htop, h⟩ := bind_eq_ok.1 h
  obtain ⟨st, hst, rfl, htake⟩ := takeWords_eq_ok htop
  exact ⟨top, st, hst, h, htake⟩

theorem Lift.advances_drop (hm : m.Coherent) (hes : m.Entries) : m.Advances m' := by
  obtain ⟨top, st, hst, h, _⟩ := drop_eq_ok h
  have hadds := Machine.Adds.restack m st
  exact hadds.grows.advances (advances_discard h (hadds.coherent hm) (entries_below hes hst))

theorem Matches.drop {taken : List (Value ρ)} (hmatch : Matches w env final m f s) (hm : m.Coherent)
    (hes : m.Entries)
    (hfinal : m'.Grows ls final) (hrun : Frame.takeWords n f.stack = some (taken, us)) :
    MatchesAfter w env final m m' { f with pc, stack := us } s := by
  obtain ⟨top, st, hst, h, htake⟩ := Lift.drop_eq_ok h
  obtain ⟨us', ts, t, hus, _, hts, hf, htop, hbelow⟩ := hmatch.split hes hst
  rw [hf, htake ts us' htop] at hrun
  cases hrun
  have hadds := Machine.Adds.restack m st
  exact hmatch.locals.discard (m := { m with stack := st }) (hadds.coherent hm)
    (Lift.entries_below hes hst) h hfinal
    (fun e he => hes e (by simp [hst, mem_reverse.1 he])) hus
    (evalList_reverse_eq_ok hts) hbelow

end

/-! ## Repeating -/

/-- A stack falls into entries that fill a number of words, entries below them that fill another,
and the rest. -/
structure Lift.Groups (env : Env) (group under : Nat) (m : Machine) (top below st : List Expr) :
    Prop where
  stack : m.stack = top ++ (below ++ st)
  take : ∀ {ρ : Type} (vs us : List (Value ρ)), top.map (env.isWide m.vars) = vs.map Value.isWide →
    Frame.takeWords group (vs ++ us) = some (vs, us)
  take_below : ∀ {ρ : Type} (vs us : List (Value ρ)),
    below.map (env.isWide m.vars) = vs.map Value.isWide →
    Frame.takeWords under (vs ++ us) = some (vs, us)

theorem Lift.groups_of_takeWords {m₁ : Machine} (h : takeWords env group m = .ok top m₁)
    (h' : takeWords env under m₁ = .ok below m') :
    ∃ st, Groups env group under m top below st ∧ m' = { m with stack := st } := by
  obtain ⟨_, hst, rfl, htake⟩ := takeWords_eq_ok h
  obtain ⟨st, hst', rfl, htake'⟩ := takeWords_eq_ok h'
  exact ⟨st, ⟨by rw [hst]; exact congrArg _ hst', htake, htake'⟩, rfl⟩

/-- The values of a stack that falls into groups fall into groups. -/
theorem Matches.groups {st : List Expr} (hmatch : Matches w env final m f s) (hes : m.Entries)
    (h : Lift.Groups env group under m top below st) :
    ∃ us bs ts t t', w.evalStack st s = .ok us t ∧ w.evalStack below t = .ok bs t' ∧
      w.evalStack top t' = .ok ts ⟨s.vars, f.memory⟩ ∧ t.vars = s.vars ∧ t'.vars = s.vars ∧
      f.stack = ts ++ (bs ++ us) ∧ Frame.takeWords group f.stack = some (ts, bs ++ us) ∧
      Frame.takeWords under (bs ++ us) = some (bs, us) ∧
      top.map (env.isWide m.vars) = ts.map Value.isWide ∧
      below.map (env.isWide m.vars) = bs.map Value.isWide ∧
      st.map (env.isWide m.vars) = us.map Value.isWide := by
  obtain ⟨bus, ts, t', hbus, ht', hts, hf, htop, hwides⟩ := hmatch.split hes h.stack
  obtain ⟨us, bs, t, hus, hbs, rfl⟩ := evalStack_append_eq_ok.1 hbus
  rw [map_append, map_append] at hwides
  have hlen : (below.map (env.isWide m.vars)).length = (bs.map Value.isWide).length := by
    rw [length_map, length_map, length_of_evalStack hbs]
  obtain ⟨hbelow, hst⟩ := append_inj hwides hlen
  have ht := vars_of_evalStack (fun e he => hes e (by simp [h.stack, he])) hus
  exact ⟨us, bs, ts, t, t', hus, hbs, hts, ht, ht', hf, hf ▸ h.take ts _ htop,
    h.take_below bs us hbelow, htop, hbelow, hst⟩

theorem Lift.duplicate_eq_ok (h : duplicate env group under m = .ok () m') :
    ∃ top below st m₁ top' below' st', Groups env group under m top below st ∧
      spillStack env (fun slot e => decide (m.stack.length - top.length ≤ slot) && !e.isSimple)
        m = .ok () m₁ ∧
      Groups env group under m₁ top' below' st' ∧
      m' = { m₁ with stack := top' ++ below' ++ top' ++ st' } := by
  simp only [duplicate, bind_eq_ok, pushAll_eq_ok, get_eq_ok] at h
  obtain ⟨top, m₁, htop, below, m₂, hbelow, _, _, rfl, _, _, ⟨rfl, rfl⟩, _, m₃, hspill,
    top', m₄, htop', below', m₅, hbelow', rfl⟩ := h
  obtain ⟨st, hgroups, rfl⟩ := groups_of_takeWords htop hbelow
  obtain ⟨st', hgroups', rfl⟩ := groups_of_takeWords htop' hbelow'
  have hm : { m with stack := top ++ below ++ st } = m := by rw [append_assoc, ← hgroups.stack]
  have hspill' :
    spillStack env (fun slot e => decide
    ((top ++ below ++ st).length - top.length ≤ slot) && !e.isSimple)
      { m with stack := top ++ below ++ st } = .ok () m₃ := hspill
  rw [hm, append_assoc, ← hgroups.stack] at hspill'
  exact ⟨top, below, st, m₃, top', below', st', hgroups, hspill', hgroups', rfl⟩

theorem Lift.advances_duplicate (h : duplicate env group under m = .ok () m') (hm : m.Coherent)
    (hes : m.Entries) : m.Advances m' := by
  obtain ⟨top, below, st, m₁, top', below', st', _, hspill, hgroups, rfl⟩ := duplicate_eq_ok h
  obtain ⟨hadds, hes₁, _⟩ := spillStack_spec hspill hes
  refine (hadds.trans (.restack m₁ _)).advances hm fun e he => hes₁ e ?_
  rw [hgroups.stack]
  simp only [mem_append] at he ⊢
  rcases he with ((he | he) | he) | he <;> simp [he]

/-- Duplicating entries does what duplicating values does. -/
theorem Matches.duplicate (hmatch : Matches w env final m f s) (hm : m.Coherent) (hes : m.Entries)
    (h : Lift.duplicate env group under m = .ok () m') (hfinal : m'.Grows ls final)
    (hrun : Frame.duplicate group under f.stack = some vs) :
    MatchesAfter w env final m m' { f with pc, stack := vs } s := by
  obtain ⟨top, below, st, m₁, top', below', st', hgroups, hspill, hgroups', rfl⟩ :=
    Lift.duplicate_eq_ok h
  obtain ⟨hadds, hes₁, hspilled, _⟩ := spillStack_spec hspill hes
  have hadds₁ := Machine.Adds.restack m₁ (top' ++ below' ++ top' ++ st')
  obtain ⟨s₁, hemitted, hmatch₁, _⟩ := hmatch.spillStack hm hes hspill (hadds₁.grows.trans hfinal)
  -- The values of the groups are the same before and after spilling.
  obtain ⟨us₀, bs₀, ts₀, _, _, _, _, hts₀, _, _, _, htake₀, _⟩ := hmatch.groups hes hgroups
  obtain ⟨us, bs, ts, t, t', hus, hbs, hts, ht, ht', _, htake, htake', htop, hbelow, hst⟩ :=
    hmatch₁.groups hes₁ hgroups'
  have hlen : top'.length = top.length := by
    have heq : ts = ts₀ := congrArg Prod.fst (Option.some.inj (htake.symm.trans htake₀))
    rw [← length_of_evalStack hts, ← length_of_evalStack hts₀, heq]
  have hpure : ∀ e ∈ top', e.isPure = true := by
    have hmem := hspilled.forall_mem_take (P := fun e => e.isPure = true) (k := top.length)
      (fun slot e hslot hc => isPure_of_isSimple (by simpa [hslot] using hc)) fun _ => rfl
    rw [hgroups'.stack, ← hlen, take_left] at hmem
    exact hmem
  have hentries : ∀ e ∈ top', e.Entry m₁.vars.size :=
    fun e he => hes₁ e (by simp [hgroups'.stack, he])
  obtain ⟨_, hts'⟩ := evalStack_pure hentries hpure hts (r := t) fun x _ => by rw [ht, ht']
  simp only [Frame.duplicate, htake, htake', Option.bind_eq_bind, Option.bind_some,
    Option.some.injEq] at hrun
  subst hrun
  refine ⟨s₁, hemitted.trans (.of_out rfl), ?_, ?_, hmatch₁.locals⟩
  · exact evalStack_append_eq_ok.2 ⟨us, ts ++ bs ++ ts, t, hus, evalStack_append_eq_ok.2
      ⟨ts, ts ++ bs, t, hts', evalStack_append_eq_ok.2 ⟨bs, ts, t', hbs, hts, rfl⟩, rfl⟩, rfl⟩
  · show (top' ++ below' ++ top' ++ st').map (env.isWide m₁.vars) =
      (ts ++ bs ++ ts ++ us).map Value.isWide
    simp only [map_append, htop, hbelow, hst]

/-! ## Exchanging -/

theorem Lift.swap_eq_ok (h : swap env m = .ok () m') :
    ∃ a b st m₁ a' b' st', m.stack = [b, a] ++ st ∧
      (∀ {ρ : Type} (vs us : List (Value ρ)), [b, a].map (env.isWide m.vars) = vs.map Value.isWide →
        Frame.takeWords 2 (vs ++ us) = some (vs, us)) ∧
      spillStack env (fun slot e => decide (m.stack.length - 2 ≤ slot) && !e.isPure) m = .ok () m₁ ∧
      m₁.stack = b' :: a' :: st' ∧ m' = { m₁ with stack := a' :: b' :: st' } := by
  simp only [swap, bind_eq_ok] at h
  obtain ⟨pair, m₁, hpair, h⟩ := h
  obtain ⟨st, hst, rfl, htake⟩ := takeWords_eq_ok hpair
  split at h
  · obtain ⟨_, _, h, _⟩ := bind_eq_ok.1 h
    exact (mismatch_eq_ok.1 h).elim
  · rename_i htwo
    rw [Decidable.not_not] at htwo
    obtain ⟨b, a, rfl⟩ : ∃ b a, pair = [b, a] := by
      match pair, htwo with
      | [b, a], _ => exact ⟨b, a, rfl⟩
    simp only [bind_eq_ok, pushAll_eq_ok, get_eq_ok, pop_eq_ok, push_eq_ok] at h
    obtain ⟨_, _, rfl, _, _, ⟨rfl, rfl⟩, _, m₂, hspill, b', _, ⟨_, hb, rfl⟩, a', _,
      ⟨st', ha, rfl⟩, _, _, rfl, rfl⟩ := h
    subst ha
    have hm : { m with stack := [b, a] ++ st } = m := by rw [← hst]
    have hspill' :
      spillStack env (fun slot e => decide (([b, a] ++ st).length - 2 ≤ slot) && !e.isPure)
        { m with stack := [b, a] ++ st } = .ok () m₂ := hspill
    rw [hm, ← hst] at hspill'
    exact ⟨a, b, st, m₂, a', b', st', hst, htake, hspill', hb, rfl⟩

theorem Lift.advances_swap (h : swap env m = .ok () m') (hm : m.Coherent) (hes : m.Entries) :
    m.Advances m' := by
  obtain ⟨a, b, st, m₁, a', b', st', _, _, hspill, hst', rfl⟩ := swap_eq_ok h
  obtain ⟨hadds, hes₁, _⟩ := spillStack_spec hspill hes
  refine (hadds.trans (.restack m₁ _)).advances hm fun e he => hes₁ e ?_
  rw [hst']
  simp only [mem_cons] at he ⊢
  rcases he with he | he | he <;> simp [he]

/-- Swapping two entries does what swapping two values does. -/
theorem Matches.swap {x y : Value ρ} (hmatch : Matches w env final m f s) (hm : m.Coherent)
    (hes : m.Entries) (h : Lift.swap env m = .ok () m') (hfinal : m'.Grows ls final)
    (hrun : Frame.takeWords 2 f.stack = some ([y, x], us)) :
    MatchesAfter w env final m m' { f with pc, stack := x :: y :: us } s := by
  obtain ⟨a, b, st, m₁, a', b', st', hst, htake, hspill, hst', rfl⟩ := Lift.swap_eq_ok h
  obtain ⟨hadds, hes₁, hspilled, _⟩ := spillStack_spec hspill hes
  have hadds₁ := Machine.Adds.restack m₁ (a' :: b' :: st')
  obtain ⟨s₁, hemitted, hmatch₁, _⟩ := hmatch.spillStack hm hes hspill (hadds₁.grows.trans hfinal)
  obtain ⟨us₀, ts, _, _, _, _, hf, htop, _⟩ := hmatch.split hes hst
  rw [hf, htake ts us₀ htop] at hrun
  cases hrun
  have hst₁ : m₁.stack = [b', a'] ++ st' := hst'
  obtain ⟨us₁, ts₁, t, hus, ht, hts, hf₁, htop₁, hbelow⟩ := hmatch₁.split hes₁ hst₁
  obtain ⟨x₁, y₁, t', hx, hy, rfl⟩ := evalStack_two_eq_ok.1 hts
  rw [hf] at hf₁
  cases hf₁
  have hpure : ∀ e ∈ m₁.stack.take 2, e.isPure = true :=
    hspilled.forall_mem_take (fun slot e hslot hc => by simpa [hslot] using hc) fun _ => rfl
  rw [hst'] at hpure
  -- Both are pure, so they can be evaluated in either order.
  have ha' := (hes₁ a' (by simp [hst'])).toKnown
  have hb' := (hes₁ b' (by simp [hst'])).toKnown
  obtain ⟨ht', _⟩ := ha'.eval_pure (hpure a' (by simp)) hx (r := t) fun _ _ => rfl
  rw [ht'] at hx hy
  obtain ⟨hmem, hy'⟩ := hb'.eval_pure (hpure b' (by simp)) hy (r := t) fun _ _ => rfl
  rw [← hmem] at hx hy' hus
  refine ⟨s₁, hemitted.trans (.of_out rfl), ?_, ?_, hmatch₁.locals⟩
  · exact evalStack_append_eq_ok.2 ⟨us, [x, y], _, hus,
      evalStack_two_eq_ok.2 ⟨y, x, _, hy', hx, rfl⟩, rfl⟩
  · obtain ⟨hb, htop₁⟩ := List.cons.inj htop₁
    obtain ⟨ha, _⟩ := List.cons.inj htop₁
    show (a' :: b' :: st').map (env.isWide m₁.vars) = (x :: y :: us).map Value.isWide
    simp only [map_cons, ha, hb, hbelow]

end

end ByteLift
