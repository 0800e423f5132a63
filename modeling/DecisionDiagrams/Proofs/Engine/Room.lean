import DecisionDiagrams.Proofs.Engine.Abreast
import DecisionDiagrams.Proofs.Engine.Drafts
import DecisionDiagrams.Proofs.Engine.Upkeep

/-! The steps of a propagation which create nodes, made in two workspaces at once. A layer is built from
at most as many drafts as it may hold, and nodes are split off only while there is room and a part of the
budget left; every node is added where there is room for it. -/

namespace DecisionDiagrams

open Work

/-! ### How many drafts are left -/

theorem length_absorb {m : Model} {kept r : List Draft} {d : Draft} (h : m.absorb kept d = .ok r) :
    r.length = kept.length := by
  unfold Model.absorb at h
  obtain ⟨i, -, h⟩ := Checked.bind_eq_ok.1 h
  cases i with
  | none => rw [← Except.ok.inj h]
  | some i =>
    cases hk : kept[i]? with
    | none =>
      simp only [hk] at h
      rw [← Except.ok.inj h]
    | some k =>
      simp only [hk] at h
      obtain ⟨merged, -, h⟩ := Checked.bind_eq_ok.1 h
      rw [← Except.ok.inj h, List.length_set]

theorem length_absorbs {m : Model} : ∀ {excess kept r : List Draft},
    excess.foldlM m.absorb kept = .ok r → r.length = kept.length
  | [], kept, r, h => by rw [← Except.ok.inj h]
  | d :: excess, kept, r, h => by
    rw [List.foldlM_cons] at h
    obtain ⟨kept', hk, h⟩ := Checked.bind_eq_ok.1 h
    rw [length_absorbs h, length_absorb hk]

theorem length_mergeDrafts {m : Model} {width merged : Nat} {ds r : List Draft}
    (h : m.mergeDrafts width ds = .ok (r, merged)) : r.length ≤ width := by
  unfold Model.mergeDrafts at h
  split at h
  · rename_i hle
    obtain ⟨rfl, -⟩ := Prod.mk.inj (Except.ok.inj h)
    exact hle
  · obtain ⟨kept, hk, h⟩ := Checked.bind_eq_ok.1 h
    obtain ⟨rfl, -⟩ := Prod.mk.inj (Except.ok.inj h)
    rw [length_absorbs hk, List.length_take]
    exact Nat.min_le_left _ _

/-- From a layer on, nothing is built yet. -/
def Workspace.Bare (layer : Nat) (w : Workspace) : Prop := ∀ l, layer ≤ l → w.graph.width l = 0

theorem Workspace.Bare.subsides {layer : Nat} {w u : Workspace} (k : Subsides w u)
    (h : w.Bare layer) : u.Bare layer :=
  fun l hl => Nat.le_zero.1 (h l hl ▸ k.width l)

theorem Workspace.Bare.addNode {layer : Nat} {w : Workspace} (h : w.Bare (layer + 1))
    (states : BySide State) : (w.addNode layer states).2.Bare (layer + 1) := by
  intro l hl
  have := w.graph.width_appendNode layer states l
  rw [if_neg (by omega), h l hl] at this
  exact Nat.le_zero.1 this

/-- A branch leads from a node of a layer with a value of its domain. -/
structure Workspace.Sprouts (p : Plan) (layer : Nat) (w : Workspace) (b : Branch) : Prop where
  parent : b.1 < w.graph.nodes.size
  layerOf : w.graph.layerOf b.1 = layer
  value : w.domains.contains (p.model.var layer) b.2 = true

theorem Workspace.Sprouts.adds {p : Plan} {layer : Nat} {w u : Workspace} {b : Branch}
    (h : w.Sprouts p layer b) (k : Adds w u) : u.Sprouts p layer b where
  parent := Nat.lt_of_lt_of_le h.parent k.nodes
  layerOf := (k.layerOf b.1 h.parent).trans h.layerOf
  value := k.domains_eq ▸ h.value

section

variable {p : Plan} {b : Bool} {R : Workspace → Workspace → Prop} {w w' : Workspace}

/-! ### Building -/

theorem lockstep_collectChildren (B : Bond p b R) (layer : Nat) (values : List Int) (f : Frontier)
    (parent : NodeId) : Lockstep R (collectChildren p layer values f parent)
      (collectChildren (p.caching b) layer values f parent) w w' := by
  refine .foldlM (fun f v _ _ => B.get_bind fun _ _ _ _ => .lift_bind fun passes _ => ?_) _
  refine .ite (fun _ => ?_) fun _ => .pure _
  exact .bind (B.along .down layer parent _) fun _ _ _ _ => .pure _

/-- The arcs of a new node are added one after another. -/
theorem rwp_connects (B : Bond p b R) {layer : Nat} {n : NodeId} {as : List Branch} (h : R w w')
    (hn : n < w.graph.nodes.size) (hl : w.graph.layerOf n = layer + 1)
    (has : ∀ a ∈ as, w.Sprouts p layer a) :
    rwp (as.forM fun a => modify (Workspace.connect a.1 n a.2) : Work PUnit)
      (as.forM fun a => modify (Workspace.connect a.1 n a.2)) (fun _ u u' => R u u' ∧ Adds w u) R w w' := by
  refine rwp_forM (fun as u u' => (R u u' ∧ Adds w u) ∧ ∀ a ∈ as, w.Sprouts p layer a) _
    ⟨⟨h, .refl w⟩, has⟩ (fun a as u u' k => ⟨rfl, ?_⟩) fun u u' k => k.1
  obtain ⟨⟨hR, adds⟩, has⟩ := k
  have parent := (has a List.mem_cons_self).adds adds
  have child := Nat.lt_of_lt_of_le hn adds.nodes
  have fits : (Edit.connect a.1 n a.2).Fits p u :=
    ⟨parent.parent, child, by rw [adds.layerOf n hn, hl, parent.layerOf],
      Or.inl (parent.layerOf.symm ▸ parent.value)⟩
  exact ⟨⟨B.calm _ rfl fits hR, adds.trans (.connect parent.parent child a.2)⟩,
    fun c hc => has c (List.mem_cons_of_mem _ hc)⟩

/-- A draft takes one of the places of its layer. -/
theorem rwp_addDraft (F : Bond.Also p b .building R) {layer count : Nat} (hl : layer < p.model.depth)
    (d : Draft) (h : R w w') (hr : w.Room p (layer + 1) (count + 1)) (hb : w.Bare (layer + 2))
    (hd : ∀ a ∈ d.arcs, w.Sprouts p layer a) :
    rwp (addDraft p (layer + 1) d) (addDraft (p.caching b) (layer + 1) d)
      (fun _ u u' => (R u u' ∧ u.Room p (layer + 1) count ∧ u.Bare (layer + 2)) ∧ Adds w u) R w w' := by
  have B := F.toBond.and (J := fun u => u.Room p (layer + 1) count ∧ u.Bare (layer + 2))
    fun _ _ k hj => ⟨hj.1.subsides k, hj.2.subsides k⟩
  obtain ⟨cache, hits, misses, rfl⟩ := F.alike h
  refine rwp_get_bind (rwp_lift_bind (fun states _ => rwp_modifyGet_bind rfl ?_) h)
  have h' := F.edit (.addNode (layer + 1) states) rfl ⟨hl, hr.fewer (Nat.le_add_left 1 count)⟩ h
  have new : (w.addNode (layer + 1) states).2.graph.node w.graph.nodes.size = _ :=
    Graph.node_appendNode_self w.graph (layer + 1) states
  refine (rwp_connects B ⟨h', hr.addNode states, hb.addNode states⟩ ?_ ?_ fun a ha =>
    (hd a (Array.mem_toList_iff.1 ha)).adds (.addNode _ states w)).mono
    (fun _ _ _ k => ⟨k.1, (Adds.addNode _ states w).trans k.2⟩) fun _ _ k => k.1
  · exact Nat.lt_of_lt_of_eq (Nat.lt_succ_self _) (Graph.size_appendNode w.graph (layer + 1) states).symm
  · exact congrArg Node.layer new

/-- The width of the first diagram is one the plan allows. -/
def Plan.Allows (p : Plan) (width : Option Nat) : Prop :=
  ∀ k, p.options.maxWidth = some k → ∃ j, width = some j ∧ j ≤ max 1 k

/-- Adding the drafts of a layer, and deleting the parents which got no arc. -/
theorem rwp_addDrafts (F : Bond.Also p b .building R) {layer : Nat} (hl : layer < p.model.depth)
    {drafts : List Draft} (merged : Nat) (parents : List NodeId) (h : R w w') (hb : w.Bare (layer + 1))
    (room : w.Room p (layer + 1) drafts.length) (hd : ∀ a ∈ branches drafts, w.Sprouts p layer a) :
    rwp (do
        modify (Workspace.tally fun c => { c with nodesMerged := c.nodesMerged + merged })
        drafts.forM (addDraft p (layer + 1))
        parents.forM fun n => do
          let node := (← get).graph.node n
          if node.active && node.outgoing.isEmpty then dropNode p n)
      (do
        modify (Workspace.tally fun c => { c with nodesMerged := c.nodesMerged + merged })
        drafts.forM (addDraft (p.caching b) (layer + 1))
        parents.forM fun n => do
          let node := (← get).graph.node n
          if node.active && node.outgoing.isEmpty then dropNode (p.caching b) n)
      (fun _ u u' => R u u' ∧ u.Bare (layer + 2)) R w w' := by
  have B := F.toBond.and (J := Workspace.Bare (layer + 2)) fun _ _ => Workspace.Bare.subsides
  have plain : (Edit.tally fun c => { c with nodesMerged := c.nodesMerged + merged }).Fits p w :=
    ⟨fun _ _ _ => rfl, fun _ => ⟨rfl, rfl, rfl, rfl, rfl, Nat.le_refl _⟩⟩
  have tally := F.calm _ rfl plain h
  have quiet := Edit.subsides rfl plain
  refine rwp_modify_bind (rwp_bind (S := fun _ u u' => R u u' ∧ u.Bare (layer + 2)) ?_ ?_)
  · refine rwp_forM (fun ds u u' => (R u u' ∧ u.Room p (layer + 1) ds.length ∧ u.Bare (layer + 2)) ∧
      ∀ a ∈ branches ds, u.Sprouts p layer a) _
      ⟨⟨tally, room.subsides quiet, fun l hl => hb.subsides quiet l (by omega)⟩, fun a ha => ?_⟩ ?_
      fun _ _ k => ⟨k.1.1, k.1.2.2⟩
    · exact ⟨(hd a ha).parent, (hd a ha).layerOf, (hd a ha).value⟩
    · refine fun d ds u u' k => (rwp_addDraft F hl d k.1.1 k.1.2.1 k.1.2.2 fun a ha => k.2 a ?_).mono
        (fun _ _ _ k' => ⟨k'.1, fun a ha => (k.2 a ?_).adds k'.2⟩) fun _ _ k => k
      · exact List.mem_flatMap.2 ⟨d, List.mem_cons_self, Array.mem_toList_iff.2 ha⟩
      · exact List.mem_append_right _ ha
  · refine fun _ u u' k => (Lockstep.keeps (.forM _ fun n _ _ _ _ => ?_) k.1 k.2).mono (fun _ _ _ k => k.1)
      fun _ _ k => k
    exact B.get_bind fun _ _ _ _ => .ite (fun _ => lockstep_dropNode B n) fun _ => .pure _

/-- What the collected branches have in common. -/
theorem sprouts_of_collect (h : Census p w) {layer : Nat} {f : Frontier} {u : Workspace} (hq : Quiet p w u)
    (hf : (w.graph.layer layer).toList.foldlM (fun f q =>
      (w.domains.values (p.model.var layer)).foldlM (w.collect p layer q) f) {} = .ok f) :
    ∀ a ∈ branches f.drafts.toList, u.Sprouts p layer a := by
  intro a ha
  have holds := holds_collect_parents _ _ (Frontier.holds_empty _) hf
  obtain ⟨hn, hv⟩ := mem_allBranches.1 (List.mem_filter.1 (holds.perm.subset ha)).1
  obtain ⟨on, hl⟩ := h.wf.mem_layer.1 (Array.mem_toList_iff.1 hn)
  refine ⟨?_, ?_, ?_⟩
  · rw [hq.graph]
    exact Graph.lt_of_isActive _ on
  · rw [hq.graph, hl]
  · rw [hq.domains]
    exact Domains.mem_values.1 hv

theorem rwp_growLayer (F : Bond.Also p b .building R) {width : Option Nat} (hw : p.Allows width)
    {layer : Nat} (hl : layer < p.model.depth) (h : R w w') (hb : w.Bare (layer + 1)) :
    rwp (growLayer p width layer) (growLayer (p.caching b) width layer)
      (fun _ u u' => R u u' ∧ u.Bare (layer + 2)) R w w' := by
  have B := F.toBond.and (J := Workspace.Bare (layer + 1)) fun _ _ => Workspace.Bare.subsides
  obtain ⟨cache, hits, misses, rfl⟩ := F.alike h
  have collects : Lockstep _ _ _ w (w.recalling cache hits misses) := Lockstep.foldlM
    (fun f n _ _ => lockstep_collectChildren B layer (w.domains.values (p.model.var layer)) f n)
    (w.graph.layer layer).toList (b := {})
  refine rwp_get_bind (rwp_bind (((collects.keeps h hb).and_wp (F := fun _ => True)
    (wp.mono (computes_collect (F.cached h) layer _ _) (fun _ _ k => k) fun _ _ _ => trivial)).mono
    (fun _ _ _ k => k) fun _ _ k => k.1) fun frontier u u' hu => ?_)
  obtain ⟨⟨⟨hu, hbare⟩, -⟩, quiet, collected⟩ := hu
  have sprouts := sprouts_of_collect (F.orderly h).toCensus quiet collected
  refine rwp_ite (fun _ => rwp_bind (S := fun _ _ _ => False) (rwp_throw _ hu) nofun) fun _ => ?_
  have empty := hbare (layer + 1) (Nat.le_refl _)
  refine rwp_ite (fun last => rwp_lift_bind (fun r hr => ?_) hu) fun inner => ?_
  · have := length_mergeDrafts hr
    exact rwp_addDrafts F hl _ _ hu hbare ⟨fun _ => by omega, fun k _ => by omega⟩
      fun a ha => sprouts a (branches_mergeDrafts hr ha)
  · cases width with
    | some j =>
      refine rwp_lift_bind (fun r hr => ?_) hu
      have := length_mergeDrafts hr
      refine rwp_addDrafts F hl _ _ hu hbare ⟨fun e => absurd e inner, fun k hk => ?_⟩
        fun a ha => sprouts a (branches_mergeDrafts hr ha)
      obtain ⟨_, hj, hle⟩ := hw k hk
      cases hj
      omega
    | none =>
      refine rwp_addDrafts F hl _ _ hu hbare ⟨fun e => absurd e inner, fun k hk => ?_⟩ sprouts
      obtain ⟨_, hj, _⟩ := hw k hk
      cases hj

/-- The relation need not hold before the diagram is marked as built. -/
theorem rwp_grow (F : Bond.Also p b .building R) {width : Option Nat} (hw : p.Allows width)
    (h : R (Edit.markBuilt.apply w) (Edit.markBuilt.apply w')) (hb : w.Bare 0) :
    rwp (grow p width) (grow (p.caching b) width) (fun _ => R) R w w' := by
  have B := F.toBond.and (J := Workspace.Bare 0) fun _ _ => Workspace.Bare.subsides
  refine rwp_modify_bind (rwp_bind (Lockstep.keeps (B.tally _ ?_) h hb) fun _ u u' hu => ?_)
  · exact ⟨fun _ _ _ => rfl, fun _ => ⟨rfl, rfl, rfl, rfl, rfl, Nat.le_refl _⟩⟩
  obtain ⟨⟨hu, hbare⟩, -⟩ := hu
  obtain ⟨cache, hits, misses, rfl⟩ := F.alike hu
  refine rwp_get_bind (rwp_lift_bind (fun states _ => rwp_modifyGet_bind rfl ?_) hu)
  have empty := congrArg (· + 1) (hbare 0 (Nat.le_refl 0))
  have hroot := F.edit (.addNode 0 states) rfl ⟨Nat.zero_le _, fun _ => Nat.le_of_eq empty,
    fun k _ => Nat.le_trans (Nat.le_of_eq empty) (Nat.le_max_left 1 k)⟩ hu
  refine rwp_bind (S := fun _ => R) (rwp_forM_range (fun l u u' => R u u' ∧ u.Bare (l + 1))
    ⟨hroot, Workspace.Bare.addNode (fun l _ => hbare l (Nat.zero_le l)) states⟩
    (fun l hl u u' k => rwp_growLayer F hw hl k.1 k.2) fun _ _ k => k.1) fun _ u u' hu => ?_
  refine (F.get_bind fun _ _ _ _ => ?_ : Lockstep R _ _ u u').drop hu
  refine .ite (fun _ => .bind (lockstep_testNodes F.toBond) fun _ _ _ _ => ?_) fun _ => ?_
  all_goals exact lockstep_enforceSupports F.toBond

end

end DecisionDiagrams
