import Mathlib
import ByteLift.Decompiler
import ByteLift.Proofs.Semantics.Condition
import ByteLift.Proofs.Source.ClassTree

/-!
# Nested classes

The classes of a unit come in one list, in any order. Each goes into the class that its name says is
around it, and every class of the tree looks for its own in the whole list. What is found is longer
than the name it is found for, so the search ends, and no class is found twice.
-/

namespace ByteLift

open ClassName ClassDecl List

variable {options : Options} {all : List ClassDef} {outer : String} {c d : ClassDecl}
  {s t : Catalog}

/-! ## Names -/

theorem ClassDecl.name_of_enclose (h : c.enclose outer = .ok d) : d.name = c.name := by
  unfold enclose at h
  dsimp only at h
  split at h
  · cases h
    rfl
  · split at h
    · cases h
    · cases hmethods : hideOuterParams c.name _ outer c.methods with
      | error => rw [hmethods] at h; cases h
      | ok methods =>
        rw [hmethods] at h
        cases h
        rfl

/-- A class of a tree is made of one definition, as nested in the class around it. -/
def MadeOf (options : Options) (outer : String) (cls : ClassDef) (c : ClassDecl) : Prop :=
  ∃ start mid after decl bare, decompileClass options cls start = .ok decl mid ∧
    encloseAs options decl outer mid = .ok bare after ∧ c = { bare with inner := c.inner }

variable {cls : ClassDef} {depth : Nat} {cs : List ClassDef} {ds : List ClassDecl}

theorem name_of_decompileClass (h : decompileClass options cls s = .ok c t) :
    c.name = cls.name := by
  obtain ⟨_, _, _, h⟩ := bind_eq_ok.1 h
  obtain ⟨methods, _, _, h⟩ := bind_eq_ok.1 h
  rw [← (pure_eq_ok.1 h).1]
  rfl

theorem name_of_encloseAs (h : encloseAs options c outer s = .ok d t) : d.name = c.name := by
  unfold encloseAs at h
  split at h
  · cases hbare : c.enclose outer with
    | error => rw [hbare] at h; cases h
    | ok bare =>
      rw [hbare] at h
      rw [← (pure_eq_ok.1 h).1, name_of_enclose hbare]
  · rw [← (pure_eq_ok.1 h).1]

theorem MadeOf.name_eq (h : MadeOf options outer cls c) : c.name = cls.name := by
  obtain ⟨_, _, _, decl, bare, hdecl, hbare, hc⟩ := h
  rw [hc, ← name_of_decompileClass hdecl, ← name_of_encloseAs hbare]

/-- The classes of a list that are nested directly in the class with a name. -/
def nestedDirectly (all : List ClassDef) (outer : String) : List ClassDef :=
  all.filter fun c => outer? c.name = some outer

/-! ## The search -/

/-- How many names of a list are longer than a name. -/
def longerNames (all : List ClassDef) (outer : String) : Nat :=
  (all.filter fun c => outer.length < c.name.length).length

theorem longerNames_lt (h : cls ∈ nestedDirectly all outer) :
    longerNames all cls.name < longerNames all outer := by
  obtain ⟨hmem, houter⟩ := mem_filter.1 h
  have hlt := length_lt_of_outer? (of_decide_eq_true houter)
  have hfilter : (all.filter fun c => cls.name.length < c.name.length) =
      (all.filter fun c => outer.length < c.name.length).filter fun c =>
      cls.name.length < c.name.length := by
    rw [filter_filter]
    exact filter_congr fun c _ => by simp; omega
  rw [longerNames, hfilter]
  exact length_filter_lt_length_iff_exists.2 ⟨cls,
    mem_filter.2 ⟨hmem, by simpa using hlt⟩, by simp⟩

theorem nestedDirectly_eq_nil (h : longerNames all outer ≤ 0) : nestedDirectly all outer = [] := by
  refine eq_nil_iff_forall_not_mem.2 fun cls hcls => ?_
  have := longerNames_lt hcls
  omega

theorem nestedEach_congr {depth' : Nat}
    (h : ∀ c ∈ cs, nestedIn options all depth c.name = nestedIn options all depth' c.name) :
    nestedEach options all depth outer cs = nestedEach options all depth' outer cs := by
  induction cs with
  | nil => simp only [nestedEach]
  | cons cls cs ih =>
    rw [forall_mem_cons] at h
    simp only [nestedEach]
    funext s
    refine bind_congr_of_ok fun decl _ hdecl => bind_congr_of_ok fun bare _ hbare => ?_
    rw [name_of_encloseAs hbare, name_of_decompileClass hdecl, h.1, ih h.2]

/-- More levels than there are longer names make no difference. -/
theorem nestedIn_add (h : longerNames all outer ≤ depth) (k : Nat) :
    nestedIn options all (depth + k) outer = nestedIn options all depth outer := by
  induction depth generalizing outer with
  | zero =>
    cases k with
    | zero => rfl
    | succ k =>
      rw [← Nat.add_assoc, nestedIn, nestedIn, ← nestedDirectly,
        nestedDirectly_eq_nil h, nestedEach]
  | succ depth ih =>
    rw [Nat.add_right_comm, nestedIn, nestedIn]
    exact nestedEach_congr fun cls hcls => ih (by have := longerNames_lt hcls; omega)

/-- Every class of a tree holds the classes of a list that are nested directly in it, in the order
of the list. -/
def Attached (options : Options) (all : List ClassDef) (c : ClassDecl) : Prop :=
  ∀ m ∈ c.nodes, List.Forall₂ (MadeOf options m.name) (nestedDirectly all m.name) m.inner

theorem attached_iff : Attached options all c ↔
    List.Forall₂ (MadeOf options c.name) (nestedDirectly all c.name) c.inner ∧ ∀ d ∈ c.inner,
      Attached options all d := by
  simp only [Attached, nodes_eq c, forall_mem_cons, descendants, mem_flatMap]
  grind

theorem nestedEach_attached {depth : Nat} {cs : List ClassDef} {ds : List ClassDecl}
    (hin : ∀ cls ∈ cs, ∀ {s t ds}, nestedIn options all depth cls.name s = .ok ds t →
      List.Forall₂ (MadeOf options cls.name)
      (nestedDirectly all cls.name) ds ∧ ∀ d ∈ ds, Attached options all d)
    (h : nestedEach options all depth outer cs s = .ok ds t) :
    List.Forall₂ (MadeOf options outer) cs ds ∧ ∀ d ∈ ds, Attached options all d := by
  induction cs generalizing s t ds with
  | nil =>
    rw [nestedEach] at h
    rw [← (pure_eq_ok.1 h).1]
    exact ⟨.nil, by simp⟩
  | cons cls cs ih =>
    rw [forall_mem_cons] at hin
    rw [nestedEach] at h
    obtain ⟨decl, mid, hdecl, h⟩ := bind_eq_ok.1 h
    obtain ⟨bare, after, hbare, h⟩ := bind_eq_ok.1 h
    obtain ⟨inner, _, hinner, h⟩ := bind_eq_ok.1 h
    obtain ⟨rest, _, hrest, h⟩ := bind_eq_ok.1 h
    rw [← (pure_eq_ok.1 h).1]
    have hname : bare.name = cls.name := by
      rw [name_of_encloseAs hbare, name_of_decompileClass hdecl]
    obtain ⟨hmade, hall⟩ := ih hin.2 hrest
    rw [← hname] at hin
    refine ⟨.cons ⟨s, mid, after, decl, bare, hdecl, hbare, rfl⟩ hmade,
      forall_mem_cons.2 ⟨?_, hall⟩⟩
    exact attached_iff.2 (hin.1 hinner)

theorem nestedIn_attached (hdepth : longerNames all outer ≤ depth)
    (h : nestedIn options all depth outer s = .ok ds t) :
    List.Forall₂ (MadeOf options outer) (nestedDirectly all outer) ds ∧ ∀ d ∈ ds,
      Attached options all d := by
  induction depth generalizing outer s t ds with
  | zero =>
    rw [nestedIn] at h
    rw [← (pure_eq_ok.1 h).1, nestedDirectly_eq_nil hdepth]
    exact ⟨.nil, by simp⟩
  | succ depth ih =>
    rw [nestedIn] at h
    exact nestedEach_attached (fun cls hcls => ih (by have := longerNames_lt hcls; omega)) h

/-! ## The tree -/

/-- One name outwards, from a class of the list. -/
def Outwards (all : List ClassDef) (n outer : String) : Prop :=
  n ∈ all.map ClassDef.name ∧ outer? n = some outer

section

variable (h : Attached options all c)
include h

variable {m : ClassDecl}

theorem Attached.map_name (hm : m ∈ c.nodes) :
    m.inner.map name = (nestedDirectly all m.name).map ClassDef.name := by
  rw [← List.forall₂_eq_eq_eq, List.forall₂_map_left_iff, List.forall₂_map_right_iff]
  exact ((h m hm).imp fun _ _ h => h.name_eq).flip

/-- The classes directly in a class are those from which one step leads out to it. -/
theorem Attached.mem_inner_iff (hm : m ∈ c.nodes) (n : String) :
    n ∈ m.inner.map name ↔ Outwards all n m.name := by
  simp only [h.map_name hm, Outwards, nestedDirectly, mem_map, mem_filter]
  grind

/-- The classes nested in a class are those from which the names lead out to it. -/
theorem mem_descendants_iff (n : String) :
    n ∈ c.descendants.map name ↔ Relation.TransGen (Outwards all) n c.name := by
  constructor
  · intro hn
    induction c using nestedInduction with
    | step c ih =>
      obtain ⟨m, hm, rfl⟩ := mem_map.1 hn
      obtain ⟨d, hd, hm⟩ := mem_flatMap.1 hm
      have hout : Outwards all d.name c.name :=
        (h.mem_inner_iff c.self_mem_nodes _).1 (mem_map_of_mem hd)
      rw [nodes_eq, mem_cons] at hm
      rcases hm with rfl | hm
      · exact .single hout
      · exact (ih d hd ((attached_iff.1 h).2 d hd) (mem_map_of_mem hm)).tail hout
  · intro hn
    have hinner {m : ClassDecl} (hm : m ∈ c.nodes) {n : String} (hn : Outwards all n m.name) :
        n ∈ c.descendants.map name := by
      obtain ⟨d, hd, rfl⟩ := mem_map.1 ((h.mem_inner_iff hm n).2 hn)
      exact mem_map_of_mem (mem_descendants_of_mem_inner m hm d hd)
    induction hn using Relation.TransGen.head_induction_on with
    | single hout => exact hinner c.self_mem_nodes hout
    | head hout _ ih =>
      obtain ⟨m, hm, rfl⟩ := mem_map.1 ih
      exact hinner (by rw [nodes_eq]; exact mem_cons_of_mem _ hm) hout

theorem reaches_of_mem_nodes {n : String} (hn : n ∈ c.nodes.map name) :
    Relation.ReflTransGen (Outwards all) n c.name := by
  rw [nodes_eq, map_cons, mem_cons, mem_descendants_iff h] at hn
  rcases hn with rfl | hn
  · exact .refl
  · exact hn.to_reflTransGen

end

theorem length_lt_of_outwards {n m : String} (h : Relation.TransGen (Outwards all) n m) :
    m.length < n.length := by
  induction h with
  | single hout => exact length_lt_of_outer? hout.2
  | tail _ hout ih => exact Nat.lt_trans (length_lt_of_outer? hout.2) ih

/-- Names lead out one way only, so a class is not found in two places. -/
theorem nodup_nodes (hdistinct : (all.map ClassDef.name).Nodup) (h : Attached options all c) :
    (c.nodes.map name).Nodup := by
  have hunique : Relator.RightUnique (Outwards all) :=
    fun _ _ _ h h' => Option.some.inj (h.2.symm.trans h'.2)
  induction c using nestedInduction with
  | step c ih =>
    obtain ⟨hmade, hinner⟩ := attached_iff.1 h
    have hout {d : ClassDecl} (hd : d ∈ c.inner) : Outwards all d.name c.name :=
      (h.mem_inner_iff c.self_mem_nodes _).1 (mem_map_of_mem hd)
    rw [nodes_eq, map_cons, nodup_cons, mem_descendants_iff h]
    refine ⟨fun hself => absurd (length_lt_of_outwards hself) (Nat.lt_irrefl _), ?_⟩
    rw [descendants, map_flatMap, nodup_flatMap]
    refine ⟨fun d hd => ih d hd (hinner d hd), ?_⟩
    -- A class in the trees of two different classes would lead from one of these to the other, past
    -- the class around.
    have hpast {d e : ClassDecl} (hd : d ∈ c.inner) (he : e ∈ c.inner) (hne : d.name ≠ e.name) :
        ¬ Relation.ReflTransGen (Outwards all) d.name e.name := by
      intro hreach
      obtain ⟨x, hx, hreach⟩ := Relation.TransGen.head'_iff.1
        ((Relation.reflTransGen_iff_eq_or_transGen.1 hreach).resolve_left (Ne.symm hne))
      obtain rfl := hunique hx (hout hd)
      exact Nat.lt_irrefl _ (length_lt_of_outwards (.head' (hout he) hreach))
    have hnames : (c.inner.map name).Nodup := by
      rw [h.map_name c.self_mem_nodes]
      exact hdistinct.sublist (filter_sublist.map _)
    refine (pairwise_map.1 hnames).imp_of_mem fun {d e} hd he hne n hn hn' => ?_
    rcases (reaches_of_mem_nodes (hinner d hd) hn).total_of_right_unique hunique
      (reaches_of_mem_nodes (hinner e he) hn') with hreach | hreach
    · exact hpast hd he hne hreach
    · exact hpast he hd (Ne.symm hne) hreach

/-- The classes of a unit are nested where their names say. The search for them ends: the levels
that it may go down are more than it needs. If it succeeds, every class of the tree holds just the
classes of the list whose names say that it is directly around them, in the order of the list. No
class is in the tree twice, and those in it are the ones from which the names lead out to the top
through the list. -/
theorem decompileUnit_nests_by_name (options : Options) (cls : ClassDef) (inner : List ClassDef)
    (start : Catalog) (hdistinct : (inner.map ClassDef.name).Nodup) :
    (∀ k outer, nestedIn options inner (inner.length + k) outer =
      nestedIn options inner inner.length outer) ∧
    ∀ unit after, decompileUnit options cls inner start = .ok unit after → ∃ top,
      unit.classes = [top] ∧ top.name = cls.name ∧
      (∀ c ∈ top.nodes, List.Forall₂ (MadeOf options c.name)
        (inner.filter fun d => outer? d.name = some c.name) c.inner) ∧
      (top.nodes.map name).Nodup ∧
      ∀ n, n ∈ top.descendants.map name ↔
        Relation.TransGen (fun n outer => n ∈ inner.map ClassDef.name ∧ outer? n = some outer) n
          cls.name := by
  have hdepth (outer : String) : longerNames inner outer ≤ inner.length := length_filter_le ..
  refine ⟨fun k outer => nestedIn_add (hdepth outer) k, fun unit after h => ?_⟩
  obtain ⟨_, _, _, h⟩ := bind_eq_ok.1 h
  obtain ⟨bare, _, hbare, h⟩ := bind_eq_ok.1 h
  obtain ⟨nested, _, hnested, h⟩ := bind_eq_ok.1 h
  rw [← (pure_eq_ok.1 h).1]
  obtain ⟨hmade, hall⟩ := nestedIn_attached (hdepth _) hnested
  have hattached : Attached options inner { bare with inner := nested } :=
    attached_iff.2 ⟨hmade, hall⟩
  have hname := name_of_decompileClass hbare
  exact ⟨_, rfl, hname, hattached, nodup_nodes hdistinct hattached,
    fun n => hname ▸ mem_descendants_iff hattached n⟩

/-- A class file without members. -/
def ClassDef.empty (name : String) : ClassDef :=
  { name, superName := some Ty.objectClass, interfaces := [], access := ⟨0x21⟩, fields := [],
    methods := [] }

/-- Inner classes given from the inside out, among them one that belongs elsewhere. -/
theorem decompileUnit_nests_by_name_insideOut :
    ∃ unit after top, decompileUnit {} (.empty "p/T") (["p/T$B$C", "p/U$A", "p/T$B"].map .empty)
      (.ofProvider []) =
      .ok unit after ∧ unit.classes = [top] ∧ "p/T$B$C" ∈ top.descendants.map name ∧
      "p/U$A" ∉ top.descendants.map name := by
  obtain ⟨unit, after, h⟩ :
    ∃ unit after, decompileUnit {} (.empty "p/T") (["p/T$B$C", "p/U$A", "p/T$B"].map .empty)
      (.ofProvider []) = .ok unit after := ⟨_, _, by cbv⟩
  obtain ⟨top, hclasses, _, _, _, hmem⟩ := (decompileUnit_nests_by_name _ _ _ _ (by decide)).2 _ _ h
  have houter : outer? "p/T$B$C" = some "p/T$B" ∧ outer? "p/T$B" = some "p/T" ∧
    outer? "p/U$A" = some "p/U" := by
    decide +kernel
  refine ⟨unit, after, top, h, hclasses, (hmem _).2 ?_, fun hn => ?_⟩
  · exact .tail (.single ⟨by decide, houter.1⟩) ⟨by decide, houter.2.1⟩
  · obtain ⟨x, ⟨_, hx⟩, hreach⟩ := Relation.TransGen.head'_iff.1 ((hmem _).1 hn)
    obtain rfl : "p/U" = x := Option.some.inj (houter.2.2.symm.trans hx)
    obtain ⟨y, hy, _⟩ := Relation.TransGen.head'_iff.1
      ((Relation.reflTransGen_iff_eq_or_transGen.1 hreach).resolve_left (by decide))
    exact absurd hy.1 (by decide)

end ByteLift
