import ByteLift.Proofs.Lift.SimpleEntries

/-!
# Switches with values on the stack

Each case of a switch first stores the stack in the temporaries of its label, and then tests the
key. When the switch goes back to a label, a temporary that is stored may be the key itself or an
entry still needed. As long as each case *spares* both (`Machine.Spares`), the switch goes to the
right label with the values of the stack in its temporaries (`switch_arrives`).
-/

namespace ByteLift

variable {ν η : Type} {I : Interpretation ν η} {constant : Expr → ν} {env : Env}
  {m₀ m m₁ m₂ m' m'' : Machine}
  {key : Expr} {k : Int32} {vs : List ν} {s s' : State ν η} {l : Label} {temps : List Var}

/-- The key of a switch and the entries below it, counted from the bottom, outlast storing them for
a label: a temporary of the label that is assigned is neither the key nor an entry in a slot below
its own. -/
def Machine.Spares (m : Machine) (key : Expr) (entries : List Expr) (l : Label) : Prop :=
  ∀ p ∈ m.merges, p.1.1 = l → entries[p.1.2]? ≠ some (.var p.2) →
    key ≠ .var p.2 ∧ ∀ i < p.1.2, entries[i]? ≠ some (.var p.2)

instance (m : Machine) (key : Expr) (entries : List Expr) (l : Label) :
    Decidable (m.Spares key entries l) :=
  inferInstanceAs (Decidable (∀ p ∈ m.merges, p.1.1 = l → entries[p.1.2]? ≠ some (.var p.2) →
    key ≠ .var p.2 ∧ ∀ i < p.1.2, entries[i]? ≠ some (.var p.2)))

/-- The emitted statements jump to a label, with the given heap, and with the given values in its
temporaries. -/
def Machine.Arrives (I : Interpretation ν η) (m m' : Machine) (l : Label) (s : State ν η) (heap : η)
    (vs : List ν) : Prop :=
  ∃ s', m.Leaves I.semantics m' (.jumping l) s s' ∧ s'.heap = heap ∧
    ∀ j : Nat, (entered? (l, j) m'.merges).map s'.vars = vs[j]?

theorem Machine.Passes.arrives {s₁ : State ν η} {heap : η} (h : m.Passes I.semantics m₁ s s₁)
    (h' : m₁.Arrives I m' l s₁ heap vs) : m.Arrives I m' l s heap vs := by
  obtain ⟨s', hleaves, hrest⟩ := h'
  exact ⟨s', h.leaves hleaves, hrest⟩

theorem Machine.merging_out (m : Machine) (out : Block) : m.Merging { m with out := out } :=
  .of_eq rfl rfl (Nat.le_refl _)

namespace Flowed

/-- A temporary that was there at the start was entered at the start. -/
theorem entered (h : Flowed I constant l m m' temps) (hm : m₀.Merging m) {i : Nat} {x : Var}
    (hx : temps[i]? = some x) (hold : x.index < m₀.vars.size) :
    entered? (l, i) m₀.merges = some x :=
  ((hm.trans h.merging).added _ x (h.merges i x hx)).resolve_right (by omega)

/-- The temporaries that the entries were stored in are all the temporaries that the label will ever
have. -/
theorem merges_eq (h : Flowed I constant l m m' temps) (hm : m'.Merging m'')
    (honce : m''.MergesOnce) (j : Nat) : entered? (l, j) m''.merges = temps[j]? :=
  honce.entered?_eq (fun j v hv => hm.kept _ v (h.merges j v hv)) (h.depth.of_records hm.records) j

theorem arrives (h : Flowed I constant l m m₁ temps) (hm : m₁.Merging m') (honce : m'.MergesOnce)
    (hleaves : m₁.Leaves I.semantics m' (.jumping l) s s') (htemps : temps.map s'.vars = vs) :
    m₁.Arrives I m' l s s'.heap vs := by
  refine ⟨s', hleaves, rfl, fun j => ?_⟩
  rw [h.merges_eq hm honce, ← htemps, List.getElem?_map]

end Flowed

/-! ## Case after case -/

/-- The state of a switch between two cases. Each entry of the stack is still there, or a new
variable that is no temporary of a label. The key, the entries and the temporaries that are the
entries in their own slots have the values they had at the start. -/
structure Dispatching (I : Interpretation ν η) (constant : Expr → ν) (m₀ : Machine)
    (key : Expr) (k : Int32) (vs : List ν) (m : Machine) (s : State ν η) : Prop where
  merging : m₀.Merging m
  simple : m.Simple
  slots : ∀ (j : Nat) e, m.stack.reverse[j]? = some e → m₀.stack.reverse[j]? = some e ∨
    ∃ t : Var, e = .var t ∧ m₀.vars.size ≤ t.index ∧ ∀ p, entered? p m.merges ≠ some t
  key : I.valueOf constant s.vars key = constant (.int k)
  values : m.stack.reverse.map (I.valueOf constant s.vars) = vs
  own : ∀ l (j : Nat) x, entered? (l, j) m₀.merges = some x → m₀.stack.reverse[j]? = some (.var x) →
    vs[j]? = some (s.vars x)

namespace Dispatching

section

variable (h : Dispatching I constant m₀ key k vs m s) (hflow : Flowed I constant l m m' temps)
include h hflow

variable {i j : Nat} {x : Var}

/-- An entry that is a temporary of a label was there at the start. -/
theorem entry_eq (hx : temps[i]? = some x) (he : m.stack.reverse[j]? = some (.var x)) :
    m₀.stack.reverse[j]? = some (.var x) := by
  refine (h.slots j _ he).resolve_right ?_
  rintro ⟨_, ⟨⟩, _, hnot⟩
  exact hnot _ (hflow.entered (.refl m) hx (h.simple.index_lt he))

/-- An entry that stays and is a temporary of the label is so in the temporary's own slot, too. -/
theorem own_of_stays (hsimple : m₀.Simple) (hspares : m₀.Spares key m₀.stack.reverse l)
    (hx : temps[i]? = some x) (he' : m'.stack.reverse[j]? = some (.var x)) :
    m.stack.reverse[j]? = some (.var x) ∧ m₀.stack.reverse[i]? = some (.var x) := by
  rcases hflow.slots j _ he' with ⟨he, hc⟩ | ⟨_, ⟨⟩, _, hnot⟩
  · have he₀ := h.entry_eq hflow hx he
    have hentered := hflow.entered h.merging hx (hsimple.index_lt he₀)
    refine ⟨he, by_contra fun hne => ?_⟩
    rcases Nat.lt_trichotomy j i with hji | rfl | hij
    · exact (hspares _ (mem_of_entered? hentered) rfl hne).2 j hji he₀
    · exact hne he₀
    · -- The slot is above the temporary's, so the entry would have been spilled.
      have hi : i < m.stack.reverse.length := by
        rw [List.length_reverse, ← hflow.length]
        exact (List.getElem?_eq_some_iff.1 hx).1
      rcases Lift.storedBehind_of_conflicts hc hij (List.getElem?_eq_getElem hi) hx
        with hown | hread
      · exact hne (h.entry_eq hflow hx (by rw [List.getElem?_eq_getElem hi, hown]))
      · simp [Expr.usesAs] at hread
  · exact absurd (hflow.merges i x hx) (hnot _)

/-- A temporary that is the entry in its own slot is assigned the value it has. -/
theorem vars_eq (htemps : temps.map s'.vars = vs)
    (hother : ∀ x : Var, x.index < m.vars.size → x ∉ temps → s'.vars x = s.vars x)
    (hx : x.index < m₀.vars.size)
    (hown : ∀ i : Nat, temps[i]? = some x → m₀.stack.reverse[i]? = some (.var x)) :
    s'.vars x = s.vars x := by
  by_cases hmem : x ∈ temps
  · obtain ⟨i, hi⟩ := List.mem_iff_getElem?.1 hmem
    have hstored : vs[i]? = some (s'.vars x) := by
      rw [← htemps, List.getElem?_map, hi, Option.map_some]
    exact Option.some.inj (hstored.symm.trans
      (h.own l i x (hflow.entered h.merging hi hx) (hown i hi)))
  · exact hother x (Nat.lt_of_lt_of_le hx h.merging.size) hmem

/-- Storing the stack for the label of a case leaves the switch ready for the next case. -/
theorem flow (honce : m₀.MergesOnce) (hsimple : m₀.Simple) (hkey : key.ReadsBelow m₀.vars.size)
    (hspares : m₀.Spares key m₀.stack.reverse l) :
    ∃ s', m.Passes I.semantics m' s s' ∧ s'.heap = s.heap ∧ temps.map s'.vars = vs ∧
      Dispatching I constant m₀ key k vs m' s' := by
  obtain ⟨s', hpass, hheap, htemps, hkept, hother⟩ := hflow.runs s
  rw [h.values] at htemps hkept
  refine ⟨s', hpass, hheap, htemps, h.merging.trans hflow.merging, hflow.simple, ?slots, ?key,
    ?values, ?own⟩
  case slots =>
    intro j e' he'
    rcases hflow.slots j e' he' with ⟨he, _⟩ | ⟨t, rfl, ht, hnot⟩
    · refine (h.slots j e' he).imp_right ?_
      rintro ⟨t, rfl, ht, hnot⟩
      refine ⟨t, rfl, ht, fun p hp => ?_⟩
      have hlt := h.simple.index_lt he
      exact hnot p ((hflow.merging.added p t hp).resolve_right (by omega))
    · exact .inr ⟨t, rfl, Nat.le_trans h.merging.size ht, hnot⟩
  case key =>
    rw [← h.key]
    refine Interpretation.valueOf_eq fun x hx => ?_
    have hlt : x.index < m₀.vars.size := Expr.readsBelow_var.1 (hx ▸ hkey)
    refine h.vars_eq hflow htemps hother hlt fun i hi => by_contra fun hne => ?_
    exact (hspares _ (mem_of_entered? (hflow.entered h.merging hi hlt)) rfl hne).1 hx
  case values =>
    refine List.ext_getElem? fun j => ?_
    rw [List.getElem?_map]
    cases he' : m'.stack.reverse[j]? with
    | none =>
      have hlen : vs.length = m'.stack.reverse.length := by simp [← h.values, hflow.height]
      rw [List.getElem?_eq_none_iff, ← hlen] at he'
      rw [Option.map_none, List.getElem?_eq_none he']
    | some e' =>
      by_cases htemp : ∀ t ∈ temps, e' ≠ .var t
      · exact (hkept j e' he' htemp).symm
      · simp only [not_forall, not_not] at htemp
        obtain ⟨x, hmem, rfl⟩ := htemp
        have hstays {i : Nat} (hi : temps[i]? = some x) :=
          h.own_of_stays hflow hsimple hspares hi he'
        obtain ⟨i, hi⟩ := List.mem_iff_getElem?.1 hmem
        have hsame :=
          h.vars_eq hflow htemps hother (hsimple.index_lt (hstays hi).2) fun _ hi => (hstays hi).2
        rw [← h.values, List.getElem?_map, (hstays hi).1]
        exact congrArg some hsame
  case own =>
    intro l' j x hp he
    have hlt := hsimple.index_lt he
    rw [h.own l' j x hp he, h.vars_eq hflow htemps hother hlt fun i hi => ?_]
    cases honce.inj _ _ _ hp (hflow.entered h.merging hi hlt)
    exact he

end

theorem emit (h : Dispatching I constant m₀ key k vs m s) (out : Block) (hs' : s.vars = s'.vars) :
    Dispatching I constant m₀ key k vs { m with out := out } s' :=
  ⟨h.merging.trans (m.merging_out out), h.simple, h.slots, hs' ▸ h.key, hs' ▸ h.values, hs' ▸ h.own⟩

end Dispatching

variable {table : List (Int32 × Address)} {target : Address}

/-- The tests of a switch are put behind what was emitted before. -/
theorem Lift.out_cases (h : Lift.cases env key table m = .ok () m') : m.out <+: m'.out := by
  have happends : Appends (fun _ => True) (Lift.cases env key table) :=
    appends_cases key table fun _ _ _ _ => trivial
  obtain ⟨ss, hss, _⟩ := happends _ _ _ h
  exact ⟨ss, hss.symm⟩

theorem Lift.out_goto (h : Lift.goto env target m = .ok () m') : m.out <+: m'.out := by
  have happends : Appends (fun _ => True) (Lift.goto env target) := appends_goto fun _ _ => trivial
  obtain ⟨ss, hss, _⟩ := happends _ _ _ h
  exact ⟨ss, hss.symm⟩

/-- The first case with the value of the key is taken. If there is none, control runs through all
cases. -/
theorem dispatching_cases (hI : I.Fixes constant) {final : Machine}
    (h : Lift.cases env key table m = .ok () m')
    (hd : Dispatching I constant m₀ key k vs m s) (honce : m₀.MergesOnce) (hsimple : m₀.Simple)
    (hkey : key.isSimple = true ∧ key.ReadsBelow m₀.vars.size)
    (hspares : ∀ c ∈ table, ∀ l, env.flow.label? c.2 = some l → m₀.Spares key m₀.stack.reverse l)
    (hfinal : m'.Merging final) (hout : m'.out <+: final.out) :
    (∃ c l, table.find? (·.1 = k) = some c ∧ env.flow.label? c.2 = some l ∧
      m.Arrives I final l s s.heap vs) ∨
      table.find? (·.1 = k) = none ∧ ∃ s', m.Passes I.semantics m' s s' ∧ s'.heap = s.heap ∧
        Dispatching I constant m₀ key k vs m' s' := by
  induction table generalizing m s with
  | nil =>
    obtain ⟨_, rfl⟩ := pure_eq_ok.1 h
    exact .inr ⟨rfl, s, .of_out rfl, rfl, hd⟩
  | cons c table ih =>
    obtain ⟨value, target⟩ := c
    rw [List.forall_mem_cons] at hspares
    obtain ⟨l, m₁, hl, hflow, hrest⟩ := Lift.cases_cons_eq_ok h
    obtain ⟨temps, hflowed⟩ := flowed_flowTo hI hflow (hd.merging.once honce) hd.simple
    obtain ⟨s₁, hpass, hheap, htemps, hd₁⟩ := hd.flow hflowed honce hsimple hkey.2 (hspares.1 l hl)
    obtain ⟨s₂, htest, hs₂⟩ := hI.test_eq hkey.1 value hd₁.key
    have hvars : s₁.vars = s₂.vars := funext fun v => hs₂.vars v id
    have hact : (Stmt.goto l (some (.compare .eq key (.int value)))).act I.semantics s₁ =
        (if k = value then .jumping l else .normal, s₂) := by
      simp [Stmt.act, htest]
    rw [hs₂.heap] at hheap
    by_cases hk : k = value
    · rw [if_pos hk] at hact
      have hmerging : m₁.Merging final :=
        (m₁.merging_out _).trans ((Lift.merges_cases key table _ _ _ hrest).trans hfinal)
      have hleaves : m₁.Leaves I.semantics final (.jumping l) s₁ s₂ :=
        .mono (.one rfl hact) ((Lift.out_cases hrest).trans hout)
      have harrives :=
        hflowed.arrives hmerging (hmerging.once (hd₁.merging.once honce)) hleaves (hvars ▸ htemps)
      exact .inl ⟨(value, target), l, by simp [hk], hl, hheap ▸ hpass.arrives harrives⟩
    · rw [if_neg hk] at hact
      rw [List.find?_cons_of_neg (by simpa using Ne.symm hk)]
      rcases ih hrest (hd₁.emit _ hvars) hspares.2 with
        ⟨c, l, hc, hl, harrives⟩ | ⟨hnone, s', hpass', hheap', hd'⟩
      · exact .inl ⟨c, l, hc, hl, hheap ▸ (hpass.trans (.one rfl hact)).arrives harrives⟩
      · exact .inr ⟨hnone, s', (hpass.trans (.one rfl hact)).trans hpass', hheap'.trans hheap, hd'⟩

/-- If no case fits, the switch goes to the default label. -/
theorem Dispatching.arrives_goto (h : Dispatching I constant m₀ key k vs m s)
    (hI : I.Fixes constant) (honce : m₀.MergesOnce) (hgoto : Lift.goto env target m = .ok () m') :
    ∃ l, env.flow.label? target = some l ∧ m.Arrives I m' l s s.heap vs := by
  obtain ⟨l, m₁, hl, hflow, rfl⟩ := Lift.goto_eq_ok hgoto
  have honce' := h.merging.once honce
  obtain ⟨temps, hflowed⟩ := flowed_flowTo hI hflow honce' h.simple
  obtain ⟨s₁, hpass, hheap, htemps, _⟩ := hflowed.runs s
  have hmerging : m₁.Merging { m₁ with out := m₁.out ++ [.goto l none], stack := [] } :=
    .of_eq rfl rfl (Nat.le_refl _)
  have hleaves :
    m₁.Leaves I.semantics { m₁ with out := m₁.out ++ [.goto l none], stack := [] }
    (.jumping l) s₁ s₁ :=
    .one rfl rfl
  have harrives := hflowed.arrives hmerging (hmerging.once (hflowed.merging.once honce')) hleaves
    (htemps.trans h.values)
  exact ⟨l, hl, hheap ▸ hpass.arrives harrives⟩

/-! ## The whole switch -/

section

variable {st : List Expr} {key' : Expr}

/-- Before the first case, the key and the entries below it are made simple. -/
theorem spills_keeps (hI : I.Fixes constant)
    (hspill : Lift.spillStack env (fun _ e => !e.isSimple) { m with stack := st } = .ok () m₁)
    (hkeeps : Lift.Keeps key m₁ m₂ key') (hreads : ∀ e ∈ key :: st, e.ReadsBelow m.vars.size) :
    Spills I constant (fun _ e => !e.isSimple) m m₂ (key :: st) (key' :: m₂.stack) := by
  have hboth := List.forall_mem_cons.1 hreads
  obtain ⟨hkept, hspilled, hsimple, hsize, hmerges, _⟩ :=
    spills_spillStack hI hspill hboth.2 (by simp)
  replace hkept : KeepsEvaluation I m m₁ st m₁.stack := hkept
  cases hkeeps with
  | simple hkey =>
    exact (hkept.keep hboth.1).spills hI (.kept hspilled (by simp [hkey]))
      (List.forall_mem_cons.2 ⟨⟨hkey, hboth.1.mono hsize⟩, hsimple⟩) hsize hmerges hreads
  | @stored decl hkey =>
    have hsize' : (Lift.stored m₁ decl key).vars.size = m₁.vars.size + 1 := VarTable.size_push _ _
    refine (hkept.store (.inr fun d hd => hI.quiet (hsimple d hd).1) hboth.1
      (fun d hd => (hsimple d hd).2) hsize hsize'
      rfl).spills hI (.spilled hspilled hsize (.inl (by simp [hkey])))
      (List.forall_mem_cons.2 ⟨⟨rfl, ?_⟩, ?_⟩) (Nat.le_trans hsize (by omega)) hmerges hreads
    · rw [Expr.readsBelow_var, hsize', VarTable.index_next]
      omega
    · exact fun d hd => ⟨(hsimple d hd).1, (hsimple d hd).2.mono (by omega)⟩

theorem Lift.Keeps.merging (h : Lift.Keeps key m m' key') : m.Merging m' := by
  cases h with
  | simple => exact .refl m
  | stored => exact .of_eq rfl rfl (by simp [Lift.stored])

/-- Entries that are old variables stay where they are, and no others get there. -/
theorem Spilled.getElem?_eq_var_iff {n : Nat} {es es' : List Expr}
    (h : Spilled (fun _ e => !e.isSimple) n es es') {x : Var} (hx : x.index < n) (j : Nat) :
    es'.reverse[j]? = some (.var x) ↔ es.reverse[j]? = some (.var x) := by
  constructor
  · intro he'
    obtain ⟨e, he, ⟨rfl, _⟩ | ⟨t, ⟨⟩, ht, _⟩⟩ := h.getElem?_reverse he'
    · exact he
    · omega
  · intro he
    have hj : j < es'.reverse.length := by
      rw [List.length_reverse, h.length, ← List.length_reverse]
      exact (List.getElem?_eq_some_iff.1 he).1
    obtain ⟨e, he₁, hcases⟩ := h.getElem?_reverse (List.getElem?_eq_getElem hj)
    cases he.symm.trans he₁
    rw [List.getElem?_eq_getElem hj]
    rcases hcases with ⟨heq, _⟩ | ⟨_, _, _, hc | hp⟩
    · rw [heq]
    · cases hc
    · cases hp

theorem Machine.Spares.of_spilled (h : m.Spares key st.reverse l)
    (hspilled : Spilled (fun _ e => !e.isSimple) m.vars.size (key :: st) (key' :: m'.stack))
    (hmerges : m'.merges = m.merges) (hold : ∀ p v, (p, v) ∈ m.merges → v.index < m.vars.size) :
    m'.Spares key' m'.stack.reverse l := by
  have hkey {x : Var} (hx : x.index < m.vars.size) (hk : key' = .var x) : key = .var x := by
    cases hspilled with
    | kept => exact hk
    | spilled _ ht =>
      cases hk
      omega
  have hbelow : Spilled (fun _ e => !e.isSimple) m.vars.size st m'.stack := by
    cases hspilled <;> assumption
  rintro ⟨⟨_, slot⟩, x⟩ hp rfl hne
  rw [hmerges] at hp
  have hx := hold _ x hp
  rw [Ne, hbelow.getElem?_eq_var_iff hx] at hne
  obtain ⟨hnot, hslots⟩ := h _ hp rfl hne
  exact ⟨fun hk => hnot (hkey hx hk), fun i hi he =>
    hslots i hi ((hbelow.getElem?_eq_var_iff hx i).1 he)⟩

/-- A switch jumps to the label of the first case with the value of the key, or else to the default
label, and the temporaries of the label hold the values of the stack below the key. Storing the
stack for the labels of the cases must spare the key, and what is on the stack. -/
theorem switch_arrives (hI : I.Fixes constant) (hm : Lift.Reached env m) (hst : m.stack = key :: st)
    {table : List (Int32 × Address)} {default : Address}
    (h : Lift.switch env table default m = .ok () m')
    (hspares : ∀ c ∈ table, ∀ l, env.flow.label? c.2 = some l → m.Spares key st.reverse l)
    {t : State ν η} (heval : I.evalList m.stack.reverse s = .ok (vs ++ [constant (.int k)]) t) :
    ∃ l, env.flow.label? (((table.find? (·.1 = k)).map Prod.snd).getD default) = some l ∧
      m.Arrives I m' l s t.heap vs := by
  obtain ⟨_, _, m₁, m₂, key', m₃, hst', hspill, hkeeps, hcases, hgoto⟩ := Lift.switch_eq_ok h
  cases hst.symm.trans hst'
  have hwithin := hm.within (Nat.le_refl _)
  rw [hst] at heval
  have hspills := spills_keeps hI hspill hkeeps (hst ▸ hwithin.stack)
  obtain ⟨s₂, hpass, hheap, hvalues, _⟩ := hspills.runs s _ t heval
  rw [List.reverse_cons, List.map_append] at hvalues
  obtain ⟨hvalues, hkey⟩ := List.append_inj' hvalues rfl
  have hsimple := List.forall_mem_cons.1 hspills.simple
  have honce : m₂.MergesOnce := by
    refine Machine.Merging.once ?_ hm.mergesOnce
    have hmerging : m.Merging { m with stack := st } := .of_eq rfl rfl (Nat.le_refl _)
    exact hmerging.trans ((Lift.merges_spillStack _ _ _ _ hspill).trans hkeeps.merging)
  have hd : Dispatching I constant m₂ key' k vs m₂ s₂ := by
    refine ⟨.refl _, hsimple.2, fun _ _ => .inl, List.singleton_inj.1 hkey, hvalues,
      fun l j x _ he => ?_⟩
    rw [← hvalues, List.getElem?_map, he]
    rfl
  have hmerging' := Lift.merges_goto default _ _ _ hgoto
  have hspares' :
    ∀ c ∈ table, ∀ l, env.flow.label? c.2 = some l → m₂.Spares key' m₂.stack.reverse l :=
    fun c hc l hl => (hspares c hc l hl).of_spilled hspills.spilled hspills.merges hwithin.merges
  rcases dispatching_cases hI hcases hd honce hsimple.2 hsimple.1 hspares' hmerging'
    (Lift.out_goto hgoto) with
    ⟨c, l, hc, hl, harrives⟩ | ⟨hnone, s₃, hpass', hheap', hd'⟩
  · exact ⟨l, by rw [hc]; exact hl, hheap ▸ hpass.arrives harrives⟩
  · obtain ⟨l, hl, harrives⟩ := hd'.arrives_goto hI honce hgoto
    rw [hheap', hheap] at harrives
    exact ⟨l, by rw [hnone]; exact hl, hpass.arrives (hpass'.arrives harrives)⟩

end

/-- A static method without parameters, of a class without members, with labels at the addresses 2
and 9. -/
def looping : Env where
  cls := default
  isStatic := true
  returnType := .void
  params := []
  maxLocals := 0
  flow := ⟨[(2, ⟨0⟩), (9, ⟨1⟩)], []⟩
  field _ _ := default
  method _ _ := default

/-- The value of a literal number. -/
def intOf : Expr → Int32
  | .lit (.int v) => v
  | _ => 0

/-- Values are numbers, literals have their values, and all other operations give zero. -/
def wholeInts : Interpretation Int32 Unit where
  truth v := v ≠ 0
  ofBool b := if b then 1 else 0
  order v w := some (compare v w)
  isNaN _ := false
  truth_ofBool b := by cases b <;> rfl
  isNaN_of_unordered _ _ h := by cases h
  operate op _ := pure (intOf op)

theorem fixes_wholeInts : wholeInts.Fixes intOf := ⟨fun _ _ _ _ => rfl, fun _ _ => rfl⟩

/-- A table of temporaries that hold numbers. -/
def tempInts (names : List String) : VarTable :=
  ⟨(names.map fun name =>
    { ty := .int, name, synthetic := true, parameter := false, isFinal := false,
      slot := none }).toArray⟩

/-- The machine behind `5; 1; L: dup`, with two numbers on the stack below a copy of the upper
one. -/
def twoKept : Machine where
  vars := tempInts ["var0", "var1"]
  locals := []
  stack := [.var ⟨1⟩, .var ⟨1⟩, .var ⟨0⟩]
  out := [.set ⟨0⟩ (.int 5), .set ⟨1⟩ (.int 1), .label ⟨0⟩]
  shapes := [(⟨0⟩, [.int, .int])]
  merges := [((⟨0⟩, 1), ⟨1⟩), ((⟨0⟩, 0), ⟨0⟩)]
  temps := 2
  address := 2
  asked := []

theorem reached_twoKept : Lift.Reached looping twoKept := by
  have hrun : Lift.run looping true [(⟨0, .iconst 5⟩, true), (⟨1, .iconst 1⟩, true),
    (⟨2, .dup⟩, true)]
      (.start looping .empty) = .ok () twoKept := by cbv
  exact .run (.start .empty (by simp [looping])) hrun

/-- A switch on the copy that goes back to `L` has nothing to store there, so it spares the key.
With 5 and 1 in the temporaries of `L`, it goes back with 5 and 1. -/
theorem switch_arrives_twoKept :
    ∃ m', Lift.switch looping [(1, 2)] 9 twoKept = .ok () m' ∧
      m'.out = twoKept.out ++ [.goto ⟨0⟩ (some (.compare .eq (.var ⟨1⟩) (.int 1))),
        .set ⟨2⟩ (.var ⟨0⟩), .set ⟨3⟩ (.var ⟨1⟩), .goto ⟨1⟩ none] ∧
      twoKept.Arrives wholeInts m' ⟨0⟩ ⟨fun v => if v = ⟨0⟩ then 5 else 1, (), []⟩ () [5, 1] := by
  have hok : Lift.switch looping [(1, 2)] 9 twoKept = .ok ()
      { twoKept with
        vars := tempInts ["var0", "var1", "var2", "var3"]
        stack := []
        out := twoKept.out ++ [.goto ⟨0⟩ (some (.compare .eq (.var ⟨1⟩) (.int 1))),
        .set ⟨2⟩ (.var ⟨0⟩),
          .set ⟨3⟩ (.var ⟨1⟩), .goto ⟨1⟩ none]
        shapes := (⟨1⟩, [.int, .int]) :: twoKept.shapes
        merges := ((⟨1⟩, 1), ⟨3⟩) :: ((⟨1⟩, 0), ⟨2⟩) :: twoKept.merges
        temps := 4 } := by cbv
  have hspares : ∀ c ∈ [((1 : Int32), (2 : Address))], ∀ l, looping.flow.label? c.2 = some l →
      twoKept.Spares (.var ⟨1⟩) [.var ⟨0⟩, .var ⟨1⟩] l := by
    simp only [List.mem_singleton, forall_eq]
    rintro l ⟨⟩
    decide
  have heval :
    wholeInts.evalList twoKept.stack.reverse ⟨fun v => if v = ⟨0⟩ then 5 else 1, (), []⟩ =
      .ok ([5, 1] ++ [intOf (.int 1)]) ⟨fun v => if v = ⟨0⟩ then 5 else 1, (), []⟩ := by cbv
  obtain ⟨_, ⟨⟩, harrives⟩ := switch_arrives fixes_wholeInts reached_twoKept rfl hok hspares heval
  exact ⟨_, hok, rfl, harrives⟩

/-- The machine behind `1; L: 5; swap`, with a key that is the temporary of `L`. -/
def keyKept : Machine where
  vars := tempInts ["var0"]
  locals := []
  stack := [.var ⟨0⟩, .int 5]
  out := [.set ⟨0⟩ (.int 1), .label ⟨0⟩]
  shapes := [(⟨0⟩, [.int])]
  merges := [((⟨0⟩, 0), ⟨0⟩)]
  temps := 1
  address := 3
  asked := []

/-- Here a case that goes back to `L` stores 5 in the key before it tests the key. So the switch
does not go back to `L`, though the key is 1 and this is the case for 1. -/
theorem switch_overwrites_key :
    Lift.Reached looping keyKept ∧
      (∃ t, wholeInts.evalList keyKept.stack.reverse ⟨fun _ => 1, (), []⟩ =
        .ok ([5] ++ [intOf (.int 1)]) t) ∧
      looping.flow.label? 2 = some ⟨0⟩ ∧
      ∃ m', Lift.switch looping [(1, 2)] 9 keyKept = .ok () m' ∧
        ∀ heap vs, ¬ keyKept.Arrives wholeInts m' ⟨0⟩ ⟨fun _ => 1, (), []⟩ heap vs := by
  have hrun : Lift.run looping true [(⟨0, .iconst 1⟩, true), (⟨2, .iconst 5⟩, true),
    (⟨3, .swap⟩, true)]
      (.start looping .empty) = .ok () keyKept := by cbv
  have hok : Lift.switch looping [(1, 2)] 9 keyKept = .ok ()
      { keyKept with
        vars := tempInts ["var0", "var1"]
        stack := []
        out := keyKept.out ++ [.set ⟨0⟩ (.int 5),
        .goto ⟨0⟩ (some (.compare .eq (.var ⟨0⟩) (.int 1))),
          .set ⟨1⟩ (.int 5), .goto ⟨1⟩ none]
        shapes := (⟨1⟩, [.int]) :: keyKept.shapes
        merges := ((⟨1⟩, 0), ⟨1⟩) :: keyKept.merges
        temps := 2 } := by cbv
  refine ⟨.run (.start .empty (by simp [looping])) hrun, ⟨_, rfl⟩, rfl, _, hok,
    fun heap vs harrives => ?_⟩
  obtain ⟨s', hleaves, _⟩ := harrives
  have hdefault :=
    hleaves.unique ⟨[_, _, _], .goto ⟨1⟩ none, [], _, rfl, rfl, rfl⟩ (fun h => by cases h)
    fun h => by cases h
  cases hdefault

end ByteLift
