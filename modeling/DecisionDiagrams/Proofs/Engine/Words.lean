import DecisionDiagrams.Proofs.Engine.Fixpoint
import DecisionDiagrams.Proofs.Engine.Mirroring

/-! Words, which are the labels on the way from the root to a node. Each of them means a state, which is what its
labels lead to one by one. A node is uniform if all words which lead to it mean the same; then its state is
what they mean as soon as it is at the fixpoint. What a propagation does to a diagram which is built only takes words
away or shares them out, so a node which is uniform stays so. -/

namespace DecisionDiagrams

open Cascade

/-- The labels on the way from the root to a node, the last one first. -/
def Graph.Spells (g : Graph) : NodeId → List Int → Prop
  | n, [] => g.isActive n = true ∧ g.layerOf n = 0
  | n, v :: vs => ∃ a, g.arcIsActive a = true ∧ (g.arc a).child = n ∧ (g.arc a).value = v ∧ g.Spells (g.arc a).parent vs

/-- The state to which labels lead, the last one first. -/
def Model.Means (m : Model) : List Int → State → Prop
  | [], s => ∀ i, m.Alike .down i (m.fresh .down) s
  | v :: vs, s => ∃ t, m.Means vs t ∧ ∀ i, m.Yields .down vs.length t v i s

namespace Model.Means

variable {m : Model} {vs : List Int} {s t : State}

theorem of_alike (h : m.Means vs s) (ha : ∀ i, m.Alike .down i s t) : m.Means vs t := by
  cases vs with
  | nil => exact fun i => (h i).trans (ha i)
  | cons v vs =>
    obtain ⟨r, hr, hy⟩ := h
    exact ⟨r, hr, fun i => (hy i).of_alike (ha i)⟩

theorem unique (hm : m.Declared .down) (h : m.Means vs s) (h' : m.Means vs t) (i : Nat) : m.Alike .down i s t := by
  induction vs generalizing s t i with
  | nil => exact (h i).symm.trans (h' i)
  | cons v vs ih =>
    obtain ⟨r, hr, hy⟩ := h
    obtain ⟨r', hr', hy'⟩ := h'
    exact hm.yields_unique (hm.yields_congr (fun j _ => ih hr hr' j) (hy i)) (hy' i)

end Model.Means

namespace Graph

variable {g g' : Graph} {m : Model} {n : NodeId} {vs : List Int}

theorem Spells.length_eq (hw : g.Wf) (h : g.Spells n vs) : vs.length = g.layerOf n := by
  induction vs generalizing n with
  | nil => exact h.2.symm
  | cons v vs ih =>
    obtain ⟨a, ha, rfl, -, hp⟩ := h
    rw [List.length_cons, ih hp, hw.adjacent a ha]

theorem Spells.lt_size (hw : g.Wf) (h : g.Spells n vs) : n < g.nodes.size := by
  cases vs with
  | nil => exact Graph.lt_of_isActive _ h.1
  | cons v vs =>
    obtain ⟨a, ha, rfl, -⟩ := h
    exact hw.child_lt ha

/-- A word of a node below the root ends with the label of an arc to it. -/
theorem Spells.exists_arc (h : g.Spells n vs) (pos : 0 < g.layerOf n) : ∃ a us, g.arcIsActive a = true ∧
    (g.arc a).child = n ∧ vs = (g.arc a).value :: us ∧ g.Spells (g.arc a).parent us := by
  cases vs with
  | nil => exact absurd h.2 (Nat.ne_of_gt pos)
  | cons v vs =>
    obtain ⟨a, ha, hc, rfl, hp⟩ := h
    exact ⟨a, vs, ha, hc, rfl, hp⟩

/-- Words are folded onto words. -/
theorem Folds.spells {f : NodeId → NodeId} (h : Folds f g g') (hs : g'.Spells n vs) : g.Spells (f n) vs := by
  induction vs generalizing n with
  | nil =>
    obtain ⟨on, hl⟩ := h.node n hs.1
    exact ⟨on, hl.trans hs.2⟩
  | cons v vs ih =>
    obtain ⟨a, ha, rfl, rfl, hp⟩ := hs
    obtain ⟨b, hb, hpar, hch, hv⟩ := h.arc a ha
    exact ⟨b, hb, hch, hv, hpar ▸ ih hp⟩

/-- All words of a node mean the same. -/
def Uniform (g : Graph) (m : Model) (n : NodeId) : Prop := ∃ s, ∀ vs, g.Spells n vs → m.Means vs s

/-- The state of a node is what its words mean. -/
def Precise (g : Graph) (m : Model) (n : NodeId) : Prop := ∀ vs, g.Spells n vs → m.Means vs (g.state n .down)

theorem Uniform.fold {f : NodeId → NodeId} (h : g.Uniform m (f n)) (hf : Folds f g g') : g'.Uniform m n := by
  obtain ⟨s, hs⟩ := h
  exact ⟨s, fun vs hvs => hs vs (hf.spells hvs)⟩

theorem Precise.fold {f : NodeId → NodeId} (h : g.Precise m (f n)) (hf : Folds f g g')
    (hs : g'.state n .down = g.state (f n) .down) : g'.Precise m n := fun vs hvs => hs ▸ h vs (hf.spells hvs)

/-- If all arcs to a node lead to one state from parents whose states are what their words mean, then the words of the
node mean this state. -/
theorem means_of_yields (hw : g.Wf) {l : Nat} (hl : g.layerOf n = l + 1) {s : State}
    (precise : ∀ a, g.arcIsActive a = true → (g.arc a).child = n → g.Precise m (g.arc a).parent)
    (yields : ∀ a, g.arcIsActive a = true → (g.arc a).child = n →
      ∀ i, m.Yields .down l (g.state (g.arc a).parent .down) (g.arc a).value i s)
    (h : g.Spells n vs) : m.Means vs s := by
  obtain ⟨a, us, ha, hc, rfl, hp⟩ := h.exists_arc (Nat.lt_of_lt_of_eq (Nat.succ_pos l) hl.symm)
  have hlay : us.length = l := by
    have := hw.adjacent a ha
    rw [hc, hl] at this
    exact (hp.length_eq hw).trans (Nat.succ.inj this).symm
  exact ⟨_, precise a ha hc us hp, hlay ▸ yields a ha hc⟩

end Graph

theorem Deterministic.eq_of_spells {w : Workspace} (h : Deterministic w) {n k : NodeId} {vs : List Int}
    (hn : w.graph.Spells n vs) (hk : w.graph.Spells k vs) : n = k := by
  induction vs generalizing n k with
  | nil => exact h.roots n k hn.1 hk.1 hn.2 hk.2
  | cons v vs ih =>
    obtain ⟨a, ha, rfl, hv, hp⟩ := hn
    obtain ⟨b, hb, rfl, hv', hp'⟩ := hk
    rw [h.single a b ha hb (ih hp hp') (hv.trans hv'.symm)]

section

variable {p : Plan} {stale : Nat → Prop} {L : Law p .down} {w : Workspace} {n : NodeId}

/-- Every node is on a way from the root. -/
theorem Lawful.exists_spells (h : Lawful L p.model.depth {} ([], w)) (ht : Tidy p stale [] w)
    (on : w.graph.isActive n = true) : ∃ vs, w.graph.Spells n vs := by
  induction hl : w.graph.layerOf n generalizing n with
  | zero => exact ⟨[], on, hl⟩
  | succ l ih =>
    have fed := (h.fed .down n on (Nat.lt_of_lt_of_eq (Nat.succ_pos l) hl.symm)).resolve_right fun h =>
      h.elim (fun h => by cases h) id
    obtain ⟨a, ha⟩ := Array.isEmpty_eq_false_iff_exists_mem.1 fed
    obtain ⟨ona, hch⟩ := (mem_arcsOn ht.wf).1 ha
    have hadj := ht.wf.adjacent a ona
    rw [show (w.graph.arc a).child = n from hch, hl] at hadj
    obtain ⟨vs, hvs⟩ := ih (ht.parent_active ona) (Nat.succ.inj hadj).symm
    exact ⟨(w.graph.arc a).value :: vs, a, ona, hch, rfl, hvs⟩

theorem Lawful.precise_root (h : Lawful L p.model.depth {} ([], w)) (ht : Tidy p stale [] w)
    (on : w.graph.isActive n = true) (hl : w.graph.layerOf n = 0) : w.graph.Precise p.model n := by
  intro vs hvs
  obtain rfl : vs = [] := List.length_eq_zero_iff.1 ((hvs.length_eq ht.wf).trans hl)
  exact fun i => h.seed n on hl ▸ .refl _ _ _ _

/-- If the states of a layer are what their words mean, so is the state of a uniform node on the next layer which is
the least one above what the arcs lead to. -/
theorem precise_of_least (hm : p.model.Declared .down) (h : Lawful L p.model.depth {} ([], w)) (ht : Tidy p stale [] w)
    {l : Nat} (hl : w.graph.layerOf n = l + 1)
    (least : ∀ i, p.model.Least .down l (w.enters .down n) (fun q => w.graph.state q .down) (w.graph.state n .down) i)
    (uniform : w.graph.Uniform p.model n)
    (precise : ∀ q, w.graph.isActive q = true → w.graph.layerOf q = l → w.graph.Precise p.model q) :
    w.graph.Precise p.model n := by
  obtain ⟨s, hs⟩ := uniform
  -- every arc to the node leads to what the words of the node mean
  have leads : ∀ q v, w.enters .down n q v → ∀ i, p.model.Yields .down l (w.graph.state q .down) v i s := by
    rintro q v ⟨a, ha, hc, rfl, rfl⟩ i
    have hadj := ht.wf.adjacent a ha
    rw [show (w.graph.arc a).child = n from hc, hl] at hadj
    have hpl : w.graph.layerOf (w.graph.arc a).parent = l := (Nat.succ.inj hadj).symm
    have hpar := ht.parent_active ha
    obtain ⟨us, hus⟩ := h.exists_spells ht hpar
    obtain ⟨t, hmeans, hy⟩ := hs ((w.graph.arc a).value :: us) ⟨a, ha, hc, rfl, hus⟩
    rw [hus.length_eq ht.wf, hpl] at hy
    exact hm.yields_congr (fun j _ => hmeans.unique hm (precise _ hpar hpl us hus) j) (hy i)
  intro vs hvs
  have nonempty : ∃ q v, w.enters .down n q v := by
    obtain ⟨a, us, ha, hc, -⟩ := hvs.exists_arc (Nat.lt_of_lt_of_eq (Nat.succ_pos l) hl.symm)
    exact ⟨_, _, a, ha, hc, rfl, rfl⟩
  exact (hs vs hvs).of_alike fun i => ((least i).alike hm nonempty fun q v hq => leads q v hq i).symm

/-- At the fixpoint, the states of uniform nodes are what their words mean. -/
theorem precise_of_uniform (hm : p.model.Declared .down) (h : Lawful L p.model.depth {} ([], w)) (ht : Tidy p stale [] w)
    {top : Nat}
    (least : ∀ n l, w.graph.isActive n = true → w.graph.layerOf n = l + 1 → ∀ i,
      p.model.Least .down l (w.enters .down n) (fun q => w.graph.state q .down) (w.graph.state n .down) i)
    (uniform : ∀ n, w.graph.isActive n = true → w.graph.layerOf n < top → w.graph.Uniform p.model n)
    (on : w.graph.isActive n = true) (hl : w.graph.layerOf n < top) : w.graph.Precise p.model n := by
  induction k : w.graph.layerOf n generalizing n with
  | zero => exact h.precise_root ht on k
  | succ l ih =>
    exact precise_of_least hm h ht k (least n l on k) (uniform n on hl) fun q onq hq => ih onq (by omega) hq

end

end DecisionDiagrams
