import DecisionDiagrams.Proofs.Engine.Drafts
import DecisionDiagrams.Proofs.Engine.Threads

/-! Adding a layer to a diagram. The drafts become nodes in their order, with the arcs they hold, and
nothing else changes; then the parents without an arc are deleted. -/

namespace DecisionDiagrams

open Work Cascade

namespace Graph

/-- The ends and labels of the arcs from number `start` on, as parent, label and child. -/
def arcsFrom (g : Graph) (start : Nat) : List (NodeId × Int × NodeId) :=
  (List.range' start (g.arcs.size - start)).map fun a =>
    ((g.arc a).parent, (g.arc a).value, (g.arc a).child)

theorem arcsFrom_connect (g : Graph) {start : Nat} (h : start ≤ g.arcs.size) (q c : NodeId)
    (v : Int) : (g.connect q c v).arcsFrom start = g.arcsFrom start ++ [(q, v, c)] := by
  unfold arcsFrom
  have hs : g.arcs.size + 1 - start = g.arcs.size - start + 1 := by omega
  have he : start + (g.arcs.size - start) = g.arcs.size := by omega
  rw [arcs_size_connect, hs, List.range'_concat, List.map_append]
  simp only [Nat.one_mul, he, List.map_cons, List.map_nil, arc_connect_self]
  congr 1
  refine List.map_congr_left fun a ha => ?_
  have hlt := (List.mem_range'_1.1 ha).2
  rw [arc_connect_of_ne g q c v (Nat.ne_of_lt (Nat.lt_of_lt_of_eq hlt he))]

theorem mem_arcsFrom {g : Graph} {start : Nat} {t : NodeId × Int × NodeId} :
    t ∈ g.arcsFrom start ↔ ∃ a, start ≤ a ∧ a < g.arcs.size ∧
      (g.arc a).parent = t.1 ∧ (g.arc a).value = t.2.1 ∧ (g.arc a).child = t.2.2 := by
  unfold arcsFrom
  rw [List.mem_map]
  constructor
  · rintro ⟨a, ha, rfl⟩
    have := List.mem_range'_1.1 ha
    exact ⟨a, this.1, by omega, rfl, rfl, rfl⟩
  · rintro ⟨a, h1, h2, h3, h4, h5⟩
    refine ⟨a, List.mem_range'_1.2 ⟨h1, by omega⟩, ?_⟩
    rw [h3, h4, h5]

end Graph

/-- `w'` is `w` with the drafts as nodes of the next layer and with the listed arcs. -/
structure Laid (p : Plan) (layer : Nat) (w w' : Workspace) (ds : List Draft)
    (arcs : List (NodeId × Int × NodeId)) : Prop where
  nodes : w'.graph.nodes.size = w.graph.nodes.size + ds.length
  sizes : w.graph.arcs.size ≤ w'.graph.arcs.size
  oldNode : ∀ n < w.graph.nodes.size,
    ∃ out, w'.graph.node n = { w.graph.node n with outgoing := out }
  oldArc : ∀ a < w.graph.arcs.size, w'.graph.arc a = w.graph.arc a
  newNode : ∀ i d, ds[i]? = some d → w'.graph.layerOf (w.graph.nodes.size + i) = layer + 1 ∧
    w'.graph.isActive (w.graph.nodes.size + i) = true ∧
    w.statesWith p.model d.down (p.model.fresh .up) =
      .ok (w'.graph.node (w.graph.nodes.size + i)).states
  newArcs : w'.graph.arcsFrom w.graph.arcs.size = arcs
  newActive : ∀ a, w.graph.arcs.size ≤ a → a < w'.graph.arcs.size → w'.graph.arcIsActive a = true
  domains : w'.domains = w.domains
  agenda : w'.agenda = w.agenda
  upKnown : w'.upKnown = w.upKnown
  built : w'.built = w.built
  budget : w'.budget = w.budget

namespace Laid

variable {p : Plan} {stale : Nat → Prop} {layer : Nat} {w w' : Workspace} {ds : List Draft}
  {arcs : List (NodeId × Int × NodeId)}

theorem refl (w : Workspace) : Laid p layer w w [] [] := by
  refine ⟨rfl, Nat.le_refl _, fun n _ => ⟨_, rfl⟩, fun _ _ => rfl, by simp, ?_, ?_, rfl, rfl, rfl,
    rfl, rfl⟩
  · rw [Graph.arcsFrom, Nat.sub_self]
    rfl
  · intro a h1 h2
    omega

/-- Counters and the cache do not matter. -/
theorem of_quiet {a b : Workspace} (h : Laid p layer a b ds arcs) (ha : Quiet p w a)
    (hb : Quiet p b w') : Laid p layer w w' ds arcs := by
  constructor
  case newNode =>
    intro i d hd
    have := h.newNode i d hd
    rw [ha.graph] at this
    rw [hb.graph]
    refine ⟨this.1, this.2.1, ?_⟩
    rw [← this.2.2]
    unfold Workspace.statesWith Workspace.combinedKnown
    rw [ha.upKnown]
  case nodes => rw [hb.graph, ← ha.graph]; exact h.nodes
  case sizes => rw [hb.graph, ← ha.graph]; exact h.sizes
  case oldNode => rw [hb.graph, ← ha.graph]; exact h.oldNode
  case oldArc => rw [hb.graph, ← ha.graph]; exact h.oldArc
  case newArcs => rw [hb.graph, ← ha.graph]; exact h.newArcs
  case newActive => rw [hb.graph, ← ha.graph]; exact h.newActive
  case domains => exact hb.domains.trans (h.domains.trans ha.domains)
  case agenda => exact hb.agenda.trans (h.agenda.trans ha.agenda)
  case upKnown => exact hb.upKnown.trans (h.upKnown.trans ha.upKnown)
  case built => exact hb.built.trans (h.built.trans ha.built)
  case budget => exact hb.budget.trans (h.budget.trans ha.budget)

theorem layerOf (h : Laid p layer w w' ds arcs) {n : NodeId} (hn : n < w.graph.nodes.size) :
    w'.graph.layerOf n = w.graph.layerOf n := by
  obtain ⟨out, e⟩ := h.oldNode n hn
  rw [Graph.layerOf, e]
  rfl

theorem isActive (h : Laid p layer w w' ds arcs) {n : NodeId} (hn : n < w.graph.nodes.size) :
    w'.graph.isActive n = w.graph.isActive n := by
  obtain ⟨out, e⟩ := h.oldNode n hn
  rw [Graph.isActive, e]
  rfl

theorem state (h : Laid p layer w w' ds arcs) {n : NodeId} (hn : n < w.graph.nodes.size)
    (side : Side) : w'.graph.state n side = w.graph.state n side := by
  obtain ⟨out, e⟩ := h.oldNode n hn
  rw [Graph.state, e]
  rfl

theorem statesWith (h : Laid p layer w w' ds arcs) (down up : State) :
    w'.statesWith p.model down up = w.statesWith p.model down up := by
  unfold Workspace.statesWith Workspace.combinedKnown
  rw [h.upKnown]

theorem evolves (h : Laid p layer w w' ds arcs) : Adds w w' where
  nodes := by rw [h.nodes]; omega
  arcs := h.sizes
  layerOf n hn := h.layerOf hn
  active n hn ha := by rwa [h.isActive hn] at ha
  value a ha := by rw [h.oldArc a ha]
  parent a ha := by rw [h.oldArc a ha]
  child a ha := by rw [h.oldArc a ha]
  arcActive a ha hx := by rwa [Graph.arcIsActive, h.oldArc a ha] at hx
  domains := by rw [h.domains]; exact .refl _
  upKnown hu := by rwa [h.upKnown]
  built hb := by rwa [h.built]
  active_of n ha := by rwa [h.isActive (Graph.lt_of_isActive _ ha)]
  arcActive_of a ha := by
    rw [Graph.arcIsActive, h.oldArc a (Graph.lt_of_arcIsActive _ ha)]
    exact ha
  domains_eq := h.domains

theorem addNode (h : Laid p layer w w' ds arcs) (d : Draft) {states : BySide State}
    (hs : w.statesWith p.model d.down (p.model.fresh .up) = .ok states) :
    Laid p layer w (w'.addNode (layer + 1) states).2 (ds ++ [d]) arcs := by
  have hg : (w'.addNode (layer + 1) states).2.graph = (w'.graph.appendNode (layer + 1) states).2 := rfl
  have en : ∀ n < w'.graph.nodes.size,
      (w'.graph.appendNode (layer + 1) states).2.node n = w'.graph.node n :=
    fun n hn => Graph.node_appendNode_of_ne _ _ _ (Nat.ne_of_lt hn)
  refine ⟨?_, h.sizes, fun n hn => ?_, h.oldArc, fun i e he => ?_, h.newArcs, h.newActive, h.domains,
    h.agenda, h.upKnown, h.built, h.budget⟩
  · rw [hg, Graph.size_appendNode, h.nodes, List.length_append]
    rfl
  · obtain ⟨out, e⟩ := h.oldNode n hn
    refine ⟨out, ?_⟩
    rw [hg, en n (by rw [h.nodes]; omega), e]
  · rw [List.getElem?_append] at he
    rw [hg]
    split_ifs at he with hi
    · have hlt : w.graph.nodes.size + i < w'.graph.nodes.size := by rw [h.nodes]; omega
      rw [Graph.layerOf, Graph.isActive, en _ hlt]
      exact h.newNode i e he
    · have hi0 : i = ds.length := by
        have hlt := (List.getElem?_eq_some_iff.1 he).1
        rw [List.length_singleton] at hlt
        exact Nat.le_antisymm (Nat.sub_eq_zero_iff_le.1 (Nat.lt_one_iff.1 hlt)) (Nat.not_lt.1 hi)
      subst hi0
      have hd : e = d := by simpa using he.symm
      subst hd
      rw [← h.nodes, Graph.layerOf, Graph.isActive, Graph.node_appendNode_self]
      exact ⟨rfl, rfl, hs⟩

theorem connect (h : Laid p layer w w' ds arcs) {q n : NodeId} (hq : q < w.graph.nodes.size)
    (h1 : w.graph.nodes.size ≤ n) (h2 : n < w'.graph.nodes.size) (v : Int) :
    Laid p layer w (w'.connect q n v) ds (arcs ++ [(q, v, n)]) := by
  have hg : (w'.connect q n v).graph = w'.graph.connect q n v := rfl
  have hq' : q < w'.graph.nodes.size := Nat.lt_of_lt_of_le hq (Nat.le_of_lt (Nat.lt_of_le_of_lt h1 h2))
  have en := Graph.node_connect w'.graph q n v hq' h2
  constructor
  case nodes => rw [hg, Graph.size_connect, h.nodes]
  case sizes => rw [hg, Graph.arcs_size_connect]; exact Nat.le_succ_of_le h.sizes
  case oldNode =>
    intro m hm
    obtain ⟨out, e⟩ := h.oldNode m hm
    have hne : m ≠ n := Nat.ne_of_lt (Nat.lt_of_lt_of_le hm h1)
    rw [hg, en, if_neg hne, Graph.incoming, e]
    exact ⟨_, rfl⟩
  case oldArc =>
    intro a ha
    rw [hg, Graph.arc_connect_of_ne _ _ _ _ (Nat.ne_of_lt (Nat.lt_of_lt_of_le ha h.sizes))]
    exact h.oldArc a ha
  case newNode =>
    intro i d hd
    rw [hg, Graph.layerOf, Graph.isActive, en]
    exact h.newNode i d hd
  case newArcs => rw [hg, Graph.arcsFrom_connect _ h.sizes, h.newArcs]
  case newActive =>
    intro a ha hlt
    rw [hg, Graph.arcs_size_connect] at hlt
    rw [hg]
    by_cases e : a = w'.graph.arcs.size
    · subst e
      rw [Graph.arcIsActive, Graph.arc_connect_self]
    · rw [Graph.arcIsActive, Graph.arc_connect_of_ne _ _ _ _ e]
      exact h.newActive a ha (by omega)
  all_goals unfold Workspace.connect
  · exact h.domains
  · exact h.agenda
  · exact h.upKnown
  · exact h.built
  · exact h.budget

end Laid

/-- The arcs of drafts which become nodes from number `start` on. -/
def draftArcs (start : Nat) (ds : List Draft) : List (NodeId × Int × NodeId) :=
  (ds.zipIdx start).flatMap fun d => d.1.arcs.toList.map fun b => (b.1, b.2, d.2)

theorem draftArcs_append (start : Nat) (ds : List Draft) (d : Draft) :
    draftArcs start (ds ++ [d]) =
      draftArcs start ds ++ d.arcs.toList.map fun b => (b.1, b.2, start + ds.length) := by
  simp [draftArcs, List.zipIdx_append]

theorem mem_draftArcs {start : Nat} {ds : List Draft} {t : NodeId × Int × NodeId} :
    t ∈ draftArcs start ds ↔
      ∃ i d, ds[i]? = some d ∧ (t.1, t.2.1) ∈ d.arcs ∧ t.2.2 = start + i := by
  obtain ⟨q, v, c⟩ := t
  unfold draftArcs
  rw [List.mem_flatMap]
  constructor
  · rintro ⟨⟨d, n⟩, hd, hb⟩
    obtain ⟨b, hmem, e⟩ := List.mem_map.1 hb
    obtain ⟨i, hi, e'⟩ := List.getElem_of_mem hd
    rw [List.getElem_zipIdx] at e'
    obtain ⟨rfl, rfl⟩ := Prod.mk.inj e'
    rw [List.length_zipIdx] at hi
    simp only [Prod.mk.injEq] at e
    obtain ⟨rfl, rfl, rfl⟩ := e
    exact ⟨i, _, List.getElem?_eq_getElem hi, Array.mem_toList_iff.1 hmem, rfl⟩
  · rintro ⟨i, d, hd, hb, e⟩
    obtain ⟨hi, rfl⟩ := List.getElem?_eq_some_iff.1 hd
    refine ⟨(ds[i], start + i), ?_, List.mem_map.2 ⟨(q, v), Array.mem_toList_iff.2 hb, by rw [← e]⟩⟩
    have hlt : i < (ds.zipIdx start).length := by rwa [List.length_zipIdx]
    have := List.getElem_mem hlt
    rwa [List.getElem_zipIdx] at this

section

variable {p : Plan} {stale : Nat → Prop} {layer : Nat} {w w' : Workspace} {ds : List Draft}

/-- The branches of a draft lead from nodes of the layer, with values of its domain. -/
def Draft.Fits (p : Plan) (stale : Nat → Prop) (layer : Nat) (w : Workspace) (d : Draft) : Prop :=
  ∀ b ∈ d.arcs, w.graph.isActive b.1 = true ∧ w.graph.layerOf b.1 = layer ∧
    (¬ stale layer → w.domains.contains (p.model.var layer) b.2 = true)

theorem wp_addDraft (hl : layer + 1 ≤ p.model.depth) (ht : Tidy p stale [] w')
    (h : Laid p layer w w' ds (draftArcs w.graph.nodes.size ds)) {d : Draft}
    (hd : d.Fits p stale layer w) :
    wp (addDraft p (layer + 1) d)
      (fun _ w'' => Tidy p stale [] w'' ∧
        Laid p layer w w'' (ds ++ [d]) (draftArcs w.graph.nodes.size (ds ++ [d])))
      (fun e _ => ∃ f, e = .fault f) w' := by
  unfold addDraft
  rw [wp_bind, wp_get]
  rw [wp_bind, wp_monadLift]
  refine ⟨fun states hs => ?_, fun f _ => ⟨f, rfl⟩⟩
  rw [h.statesWith] at hs
  rw [wp_bind, wp_modifyGet]
  have hlaid := h.addNode d hs
  have htidy := ht.addNode (p := p) hl states
  have hn : (w'.addNode (layer + 1) states).1 = w.graph.nodes.size + ds.length := h.nodes
  rw [hn, draftArcs_append]
  generalize (w'.addNode (layer + 1) states).2 = w₁ at hlaid htidy
  refine wp_forM (fun bs w₂ => ∃ done, done ++ bs = d.arcs.toList ∧ Tidy p stale [] w₂ ∧
    Laid p layer w w₂ (ds ++ [d]) (draftArcs w.graph.nodes.size ds ++
      done.map fun b => (b.1, b.2, w.graph.nodes.size + ds.length))) _
    ⟨[], rfl, htidy, by simpa using hlaid⟩ (fun b bs w₂ hi => ?_) fun w₂ hi => ?_
  · obtain ⟨done, hdone, ht₂, hl₂⟩ := hi
    have hb : b ∈ d.arcs := by
      rw [← Array.mem_toList_iff, ← hdone]
      exact List.mem_append_right _ List.mem_cons_self
    obtain ⟨hact, hlay, hval⟩ := hd b hb
    have hq := Graph.lt_of_isActive _ hact
    obtain ⟨hnl, hna, -⟩ := hl₂.newNode ds.length d (by simp)
    have hnlt := Graph.lt_of_isActive _ hna
    rw [wp_modify]
    refine ⟨done ++ [b], by rw [List.append_assoc]; exact hdone, ht₂.connect ?_ hnlt ?_ ?_, ?_⟩
    · rwa [hl₂.isActive hq]
    · rw [hnl, hl₂.layerOf hq, hlay]
    · rw [hl₂.layerOf hq, hlay, hl₂.domains]
      exact hval
    · rw [List.map_append, ← List.append_assoc]
      exact hl₂.connect hq (Nat.le_add_right _ _) hnlt b.2
  · obtain ⟨done, hdone, ht₂, hl₂⟩ := hi
    rw [List.append_nil] at hdone
    rw [← hdone]
    exact ⟨ht₂, hl₂⟩

theorem wp_addDrafts (hl : layer + 1 ≤ p.model.depth) (ht : Tidy p stale [] w)
    (hd : ∀ d ∈ ds, d.Fits p stale layer w) :
    wp (ds.forM (addDraft p (layer + 1)))
      (fun _ w' => Tidy p stale [] w' ∧ Laid p layer w w' ds (draftArcs w.graph.nodes.size ds))
      (fun e _ => ∃ f, e = .fault f) w := by
  refine wp_forM (fun rest w' => ∃ done, done ++ rest = ds ∧ Tidy p stale [] w' ∧
    Laid p layer w w' done (draftArcs w.graph.nodes.size done)) _
    ⟨[], rfl, ht, .refl w⟩ (fun d rest w' hi => ?_) fun w' hi => ?_
  · obtain ⟨done, hdone, ht', hl'⟩ := hi
    refine wp.mono (wp_addDraft hl ht' hl' (hd d ?_)) (fun _ w'' h => ?_) fun _ _ h => h
    · rw [← hdone]
      exact List.mem_append_right _ List.mem_cons_self
    · exact ⟨done ++ [d], by rw [List.append_assoc]; exact hdone, h⟩
  · obtain ⟨done, hdone, h⟩ := hi
    rw [List.append_nil] at hdone
    rwa [← hdone]

/-- No node is exempt from having arcs. -/
def nobody : Direction → NodeId → Prop := fun _ _ => False

/-- Deletes the nodes which have no arc to the next layer; afterwards the others have one. -/
theorem wp_dropBare (ht : Census p w) (hl : layer < p.model.depth) (begun : Begun w layer)
    {parents : List NodeId}
    (hn : ∀ n ∈ parents, n < w.graph.nodes.size ∧ w.graph.layerOf n = layer) :
    wp (parents.forM fun n => do
        let node := (← get).graph.node n
        if node.active && node.outgoing.isEmpty then dropNode p n)
      (fun _ w' => Steps p ([], w) ([], w') ∧
        ∀ top, Fed top (fun e n => e = .up ∧ n ∈ parents) ([], w) → Fed top nobody ([], w'))
      (Fails p ([], w)) w := by
  refine wp_forM (fun rest w' => (∀ n ∈ rest, n ∈ parents) ∧ Steps p ([], w) ([], w') ∧
    ∀ top, Fed top (fun e n => e = .up ∧ n ∈ parents) ([], w) →
      Fed top (fun e n => e = .up ∧ n ∈ rest) ([], w')) _
    ⟨fun _ h => h, .refl, fun _ hf => hf⟩ (fun n rest w₁ hi => ?_)
    fun w₁ hi => ⟨hi.2.1, fun top hf e m hm hi' => ?_⟩
  · obtain ⟨hrest, hs, hfed⟩ := hi
    have hc := Steps.census hs ht
    have hsh := Steps.shrinks hs ht
    obtain ⟨hlt, hlay⟩ := hn n (hrest n List.mem_cons_self)
    rw [← hsh.layerOf] at hlay
    have hkeep : ∀ m ∈ rest, m ∈ parents := fun m hm => hrest m (List.mem_cons_of_mem _ hm)
    rw [wp_bind, wp_get, wp_ite]
    refine ⟨fun hcond => ?_, fun hcond => ⟨hkeep, hs, fun top hf e m hm hi => ?_⟩⟩
    · rw [Bool.and_eq_true] at hcond
      obtain ⟨on, bare⟩ := hcond
      have hbegun : Begun w₁ (w₁.graph.layerOf n) := by
        obtain ⟨m, hm, e⟩ := begun
        refine ⟨m, by rwa [hsh.nodes], ?_⟩
        rw [hlay, hsh.layerOf, e]
      have hvisit : Step p ([], w₁) ([.settle .up n], w₁) := .visit (by rw [hlay]; exact hl) hbegun
      by_cases root : w₁.graph.layerOf n = 0
      · refine wp_dropNode_of_end on (Or.inl root) ?_
        exact ⟨_, hs.tail hvisit, .noPath on bare (Or.inl root)⟩
      · have sink : w₁.graph.layerOf n ≠ p.model.depth := by rw [hlay]; exact Nat.ne_of_lt hl
        have hretire : Step p ([.settle .up n], w₁) ([.drain n], w₁.retire n) :=
          .retire on bare root sink
        have hdrop : Steps p ([.settle .up n], w₁) ([.drain n], w₁.retire n) := .single hretire
        refine wp.mono (pays_dropNode hc on root sink []) (fun _ w₂ h => ⟨hkeep, ?_, fun top hf => ?_⟩)
          fun _ _ h => h.after ((hs.tail hvisit).tail hretire)
        · exact ((hs.tail hvisit).tail hretire).trans h
        · -- instead of being exempt the node has to be settled
          refine Steps.fed (hdrop.trans h) hc fun e m hm hi => ?_
          refine (hfed top hf e m hm hi).imp id fun hx => ?_
          rcases hx with hx | ⟨rfl, hx⟩
          · cases hx
          · rcases List.mem_cons.1 hx with rfl | hx
            · exact Or.inl List.mem_cons_self
            · exact Or.inr ⟨rfl, hx⟩
    · rcases hfed top hf e m hm hi with h | h | ⟨rfl, h⟩
      · exact Or.inl h
      · cases h
      · rcases List.mem_cons.1 h with rfl | h
        · refine Or.inl ?_
          by_contra bare
          rw [Bool.not_eq_false] at bare
          exact hcond (by rw [Bool.and_eq_true]; exact ⟨hm, bare⟩)
        · exact Or.inr (Or.inr ⟨rfl, h⟩)
  · rcases hi.2.2 top hf e m hm hi' with h | h | ⟨-, h⟩
    · exact Or.inl h
    · cases h
    · cases h

/-- The branches from a layer which the tests accept. -/
def acceptedBranches (p : Plan) (layer : Nat) (w : Workspace) : List Branch :=
  (allBranches (w.graph.layer layer).toList (w.domains.values (p.model.var layer))).filter
    (w.accepted p layer)

theorem mem_acceptedBranches {b : Branch} : b ∈ acceptedBranches p layer w ↔
    b.1 ∈ w.graph.layer layer ∧ w.domains.contains (p.model.var layer) b.2 = true ∧
      w.accepts p layer b = .ok true := by
  rw [acceptedBranches, List.mem_filter, mem_allBranches, Array.mem_toList_iff, Domains.mem_values,
    Workspace.accepted_iff, and_assoc]

/-- `w'` is `w` with the next layer, which holds the accepted branches. Without a width only the
sink stands for several states. -/
structure Layered (p : Plan) (width : Option Nat) (layer : Nat) (w w' : Workspace)
    (ds : List Draft) : Prop where
  drafted : Drafted p.model (w.follows p layer) (acceptedBranches p layer w) ds
  laid : Laid p layer w w' ds (draftArcs w.graph.nodes.size ds)
  single : width = none → layer + 1 ≠ p.model.depth →
    ∀ d ∈ ds, ∀ b ∈ d.arcs, w.follows p layer b = .ok d.down
  sink : layer + 1 = p.model.depth → ds.length ≤ 1

/-- How a layer is built: the drafts become nodes, and the parents which got no arc are deleted. -/
def Grows (p : Plan) (stale : Nat → Prop) (width : Option Nat) (layer : Nat) (w w' : Workspace) :
    Prop :=
  ∃ w₁ ds, Tidy p stale [] w₁ ∧ Layered p width layer w w₁ ds ∧ Steps p ([], w₁) ([], w') ∧
    ∀ top, Fed top (fun e n => e = .up ∧ n ∈ w.graph.layer layer) ([], w₁) →
      Fed top nobody ([], w')

/-- How a layer fails to be built: a rule cannot go on, no branch is accepted, or the deletion of
parents does not come to an end. -/
def GrowthFails (p : Plan) (stale : Nat → Prop) (width : Option Nat) (layer : Nat) (w : Workspace)
    (e : Stop) (w' : Workspace) : Prop :=
  (∃ f, e = .fault f) ∨ (e = .noPath ∧ acceptedBranches p layer w = [] ∧ Quiet p w w') ∨
    ∃ w₁ ds, Tidy p stale [] w₁ ∧ Layered p width layer w w₁ ds ∧ Fails p ([], w₁) e w'

theorem eq_nil_iff_of_holds {f : Frontier} {bs : List Branch} {lead : Branch → Checked State}
    (h : f.Holds lead bs) : bs = [] ↔ f.drafts.isEmpty = true := by
  rw [Array.isEmpty_iff]
  have hp := h.perm
  constructor
  · rintro rfl
    refine Array.eq_empty_of_size_eq_zero ?_
    by_contra hne
    have hm := Array.getElem_mem (Nat.pos_of_ne_zero hne)
    obtain ⟨b, hb⟩ := List.exists_mem_of_ne_nil _ (h.leads _ hm).1
    have := hp.subset (List.mem_flatMap.2 ⟨_, Array.mem_toList_iff.2 hm, hb⟩)
    cases this
  · intro he
    rw [he] at hp
    exact (List.Perm.nil_eq hp).symm

theorem Drafted.ne_nil {m : Model} {lead : Branch → Checked State} {bs : List Branch}
    (h : Drafted m lead bs ds) (hb : bs ≠ []) : ds ≠ [] := by
  rintro rfl
  exact hb (List.Perm.nil_eq h.perm).symm

theorem Layered.begun {width : Option Nat} (h : Layered p width layer w w' ds) (hd : ds ≠ []) :
    Begun w' layer := by
  obtain ⟨d, rest, rfl⟩ := List.exists_cons_of_ne_nil hd
  obtain ⟨hl, on, -⟩ := h.laid.newNode 0 d rfl
  exact ⟨_, Graph.lt_of_isActive _ on, hl⟩

theorem drafts_single {f : Frontier} {lead : Branch → Checked State} {bs : List Branch}
    (h : f.Holds lead bs) : ∀ d ∈ f.drafts.toList, ∀ b ∈ d.arcs, lead b = .ok d.down :=
  fun d hd => (h.leads d (Array.mem_toList_iff.1 hd)).2

theorem fits_of_drafted {lead : Branch → Checked State} (ht : Tidy p stale [] w)
    (h : Drafted p.model lead (acceptedBranches p layer w) ds) :
    ∀ d ∈ ds, d.Fits p stale layer w := by
  intro d hd b hb
  have hm : b ∈ acceptedBranches p layer w :=
    h.perm.subset (List.mem_flatMap.2 ⟨d, hd, Array.mem_toList_iff.2 hb⟩)
  obtain ⟨hq, hv, -⟩ := mem_acceptedBranches.1 hm
  obtain ⟨hact, hlay⟩ := ht.wf.mem_layer.1 hq
  exact ⟨hact, hlay, fun _ => hv⟩

/-- The drafts become nodes, and the parents which got no arc are deleted. -/
def layDrafts (p : Plan) (layer : Nat) (parents : List NodeId) (r : List Draft × Nat) : Work PUnit := do
  modify (Workspace.tally fun c => { c with nodesMerged := c.nodesMerged + r.2 })
  r.1.forM (addDraft p (layer + 1))
  parents.forM fun n => do
    let node := (← get).graph.node n
    if node.active && node.outgoing.isEmpty then dropNode p n

theorem wp_layDrafts {width : Option Nat} {merged : Nat} (hl : layer < p.model.depth) (ht : Tidy p stale [] w)
    (hq : Quiet p w w') (some : acceptedBranches p layer w ≠ [])
    (hd : Drafted p.model (w.follows p layer) (acceptedBranches p layer w) ds)
    (single : width = none → layer + 1 ≠ p.model.depth →
      ∀ d ∈ ds, ∀ b ∈ d.arcs, w.follows p layer b = .ok d.down)
    (sink : layer + 1 = p.model.depth → ds.length ≤ 1) :
    wp (layDrafts p layer (w.graph.layer layer).toList (ds, merged)) (fun _ w'' => Grows p stale width layer w w'')
      (GrowthFails p stale width layer w) w' := by
  unfold layDrafts
  rw [wp_bind, wp_modify, wp_bind]
  have hq' := hq.trans (.tally (fun c => { c with nodesMerged := c.nodesMerged + merged }) w')
  generalize w'.tally (fun c => { c with nodesMerged := c.nodesMerged + merged }) = v at hq' ⊢
  have hfits : ∀ d ∈ ds, d.Fits p stale layer v := by
    intro d hm b hb
    have := fits_of_drafted ht hd d hm b hb
    rwa [hq'.graph, hq'.domains]
  refine wp.mono (wp_addDrafts hl (hq'.tidy ht) hfits) (fun _ w₁ h₁ => ?_)
    fun e w₁ hf => Or.inl hf
  obtain ⟨ht₁, hlaid⟩ := h₁
  have hlaid' : Laid p layer w w₁ ds (draftArcs w.graph.nodes.size ds) := by
    rw [← hq'.graph]
    exact hlaid.of_quiet hq' (.refl p w₁)
  have hlayered : Layered p width layer w w₁ ds := ⟨hd, hlaid', single, sink⟩
  have hbegun := hlayered.begun (hd.ne_nil some)
  refine wp.mono (wp_dropBare ht₁.toCensus hl hbegun fun n hn => ?_)
    (fun _ w₂ hs => ⟨w₁, ds, ht₁, hlayered, hs.1, fun top hf => hs.2 top ?_⟩)
    fun e w₂ hf => Or.inr (Or.inr ⟨w₁, ds, ht₁, hlayered, hf⟩)
  · obtain ⟨hact, hlay⟩ := ht.wf.mem_layer.1 (Array.mem_toList_iff.1 hn)
    have hlt := Graph.lt_of_isActive _ hact
    refine ⟨by rw [hlaid'.nodes]; exact Nat.lt_of_lt_of_le hlt (Nat.le_add_right _ _), ?_⟩
    rw [hlaid'.layerOf hlt, hlay]
  · simpa only [Array.mem_toList_iff] using hf

/-- The drafts of a layer which are left when they are merged until there is room for them. -/
def Plan.reduce (p : Plan) (width : Option Nat) (layer : Nat) (ds : List Draft) : Checked (List Draft × Nat) :=
  if layer + 1 = p.model.depth then p.model.mergeDrafts 1 ds
  else
    match width with
    | some width => p.model.mergeDrafts width ds
    | none => .ok (ds, 0)

theorem drafted_reduce {width : Option Nat} {lead : Branch → Checked State} {bs : List Branch}
    {r : List Draft × Nat} (h : p.reduce width layer ds = .ok r) (hw : width ≠ some 0) (hd : Drafted p.model lead bs ds) :
    Drafted p.model lead bs r.1 ∧ (layer + 1 = p.model.depth → r.1.length ≤ 1) ∧
      (width = none → layer + 1 ≠ p.model.depth → r.1 = ds) := by
  unfold Plan.reduce at h
  split_ifs at h with last
  · obtain ⟨hd, hlen⟩ := drafted_mergeDrafts h Nat.one_pos hd
    exact ⟨hd, fun _ => hlen, fun _ inner => absurd last inner⟩
  · cases width with
    | some k =>
      have room : 0 < k := Nat.pos_of_ne_zero fun e => hw (congrArg some e)
      exact ⟨(drafted_mergeDrafts h room hd).1, fun h => absurd h last, nofun⟩
    | none =>
      obtain rfl := Except.ok.inj h
      exact ⟨hd, fun h => absurd h last, fun _ _ => rfl⟩

/-- The children of a layer. -/
def Workspace.collected (w : Workspace) (p : Plan) (layer : Nat) : Checked Frontier :=
  (w.graph.layer layer).toList.foldlM (fun f q =>
    (w.domains.values (p.model.var layer)).foldlM (w.collect p layer q) f) {}

/-- The children of a layer are collected, merged until there is room for them, and laid. -/
theorem wp_growLayer_of {width : Option Nat} {Q : Workspace → Prop} {E : Stop → Workspace → Prop}
    (sound : w.cache.Sound p.model) (faults : ∀ w' f, Quiet p w w' → E (.fault f) w')
    (barren : ∀ w' f, Quiet p w w' → w.collected p layer = .ok f → f.drafts.isEmpty = true → E .noPath w')
    (laid : ∀ w' f r, Quiet p w w' → w.collected p layer = .ok f → ¬ f.drafts.isEmpty = true →
      p.reduce width layer f.drafts.toList = .ok r →
      wp (layDrafts p layer (w.graph.layer layer).toList r) (fun _ => Q) E w') :
    wp (growLayer p width layer) (fun _ => Q) E w := by
  unfold growLayer
  rw [wp_bind, wp_get]
  dsimp only
  rw [wp_bind]
  refine wp.mono (computes_collect sound layer _ _) (fun f w₁ h₁ => ?_) fun e w₁ h₁ => ?_
  · obtain ⟨hq, hf⟩ := h₁
    have lay := fun r => laid w₁ f r hq hf
    rw [wp_ite]
    refine ⟨barren w₁ f hq hf, fun some => ?_⟩
    unfold Plan.reduce at lay
    split_ifs at lay ⊢ with last
    · rw [wp_bind, wp_lift]
      exact ⟨fun r hr => lay r some hr, fun f _ => faults w₁ f hq⟩
    · cases width with
      | some k =>
        rw [wp_bind, wp_lift]
        exact ⟨fun r hr => lay r some hr, fun f _ => faults w₁ f hq⟩
      | none => exact lay _ some rfl
  · obtain ⟨hq, f, rfl, -⟩ := h₁
    exact faults w₁ f hq

theorem wp_growLayer {width : Option Nat} (hw : width ≠ some 0) (hl : layer < p.model.depth)
    (ht : Tidy p stale [] w) :
    wp (growLayer p width layer) (fun _ w' => Grows p stale width layer w w')
      (GrowthFails p stale width layer w) w := by
  have holds : ∀ {f}, w.collected p layer = .ok f → f.Holds (w.follows p layer) (acceptedBranches p layer w) :=
    fun hf => holds_collect_parents _ _ (Frontier.holds_empty _) hf
  refine wp_growLayer_of ht.cached (fun _ f _ => Or.inl ⟨f, rfl⟩) (fun w₁ f hq hf none => ?_)
    fun w₁ f r hq hf some hr => ?_
  · exact Or.inr (Or.inl ⟨rfl, (eq_nil_iff_of_holds (holds hf)).2 none, hq⟩)
  · obtain ⟨hd, sink, same⟩ := drafted_reduce hr hw (holds hf).drafted
    refine wp_layDrafts hl ht hq (fun h => some ((eq_nil_iff_of_holds (holds hf)).1 h)) hd (fun hwidth inner => ?_) sink
    rw [same hwidth inner]
    exact drafts_single (holds hf)

end

end DecisionDiagrams
