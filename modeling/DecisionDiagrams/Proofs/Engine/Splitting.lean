import DecisionDiagrams.Proofs.Engine.Rerouting

/-! Splitting a node of the trail. The copies of its arcs and the arcs which are moved to the new node
are looked at one after another: as long as the arc of the trail still waits to be moved, the new node
offers a detour, and when it is moved the trail takes the detour. -/

namespace DecisionDiagrams

open Work Cascade

variable {p : Plan} {stale : Nat → Prop} {σ : Nat → Int} {ρ : Var → Option Int} {K : Certificate p.model σ}
  {t old : Trail} {w w' : Workspace} {n new : NodeId} {layer size : Nat} {as : List ArcId}

/-! ### Copies of outgoing arcs -/

/-- While the arcs of `n` are copied to a node with the states `states`: the arc of the trail is among the arcs which
are not copied yet, or it has a copy. -/
structure Copying (K : Certificate p.model σ) (ρ : Var → Option Int) (stale : Nat → Prop) (t : Trail)
    (n new : NodeId) (layer size : Nat) (states : BySide State) (as : List ArcId) (w : Workspace) : Prop where
  tidy : Tidy p stale [] w
  covered : Covered K ρ p.model.depth 0 t w
  state : ∀ side, w.graph.state new side = states.get side
  up : t.node layer = n → w.upKnown = true → K.Covers true .up layer (states.get .up)
  copy : t.node layer = n → K.Covers true .down layer (states.get .down) →
    t.arc layer ∈ as ∨ t.Rejoined σ size layer new w

namespace Copying

variable {states : BySide State}

theorem start (ht : Tidy p stale [] w) (h : Covered K ρ p.model.depth 0 t w) (h0 : 0 < layer) (hd : layer < p.model.depth)
    {c : Candidate} (hc : c.Enters layer n w) (hs : K.Covers false .down layer c.down)
    (hstates : w.statesWith p.model c.down (w.graph.state n .up) = .ok states) :
    Copying K ρ stale t n w.graph.nodes.size layer size states (w.graph.outgoing n).toList
      (w.splitNode layer states) := by
  obtain ⟨down, up⟩ := w.statesWith_down_up hstates
  have tidy := ht.addNode (Nat.le_of_lt hd) states
  refine ⟨tidy.congr rfl rfl rfl tidy.cached, h.splitNode h0 hd (down ▸ hs) ?_,
    fun side => Workspace.state_splitNode_self side, fun htn hu => ?_, fun htn _ => Or.inl ?_⟩
  · rw [up, ← hc.layerOf]
    exact h.sound n hc.lt .up
  · show K.Covers true .up layer states.up
    rw [up, ← htn]
    exact h.up layer (Nat.le_of_lt hd) (Or.inr ⟨hu, Nat.zero_le _⟩)
  · obtain ⟨on, parent, -⟩ := h.guided.arc layer hd
    exact Array.mem_toList_iff.2 (ht.wf.mem_outgoing.2 ⟨on, parent.trans htn⟩)

/-- An arc which is rejected is not the one of the trail, because the trail passes the tests. -/
theorem rejected (hd : layer < p.model.depth) (hl : w.graph.layerOf new = layer) {a : ArcId}
    (h : Copying K ρ stale t n new layer size states (a :: as) w)
    (fails : w.keepsArc p.model (w.graph.arc a).value new (w.graph.arc a).child = .ok false) :
    Copying K ρ stale t n new layer size states as w := by
  refine { h with copy := fun htn down => (h.copy htn down).imp_left fun hm => ?_ }
  refine (List.mem_cons.1 hm).resolve_left fun e => ?_
  obtain ⟨-, -, child, value⟩ := h.covered.guided.arc layer hd
  change (w.graph.arc (t.arc layer)).child = _ at child
  change (w.graph.arc (t.arc layer)).value = _ at value
  rw [e] at child value
  unfold Workspace.keepsArc at fails
  rw [hl, value, child] at fails
  refine absurd fails (K.admits hd ?_ fun up hup => h.covered.up?_covers hd (Nat.zero_le _) hup)
  rw [h.state]
  exact down

theorem accepted (hd : layer < p.model.depth) (on : w.graph.isActive new = true) (hl : w.graph.layerOf new = layer)
    {a : ArcId} (ha : w.graph.arcIsActive a = true) (hla : w.graph.layerOf (w.graph.arc a).parent = layer)
    (hs : size ≤ w.graph.arcs.size) (h : Copying K ρ stale t n new layer size states (a :: as) w) :
    Copying K ρ stale t n new layer size states as (w.copying p new a) := by
  have links := Workspace.links_copying p (Graph.lt_of_isActive _ on) (h.tidy.wf.child_lt ha)
  refine ⟨h.tidy.copying on ha (hl.trans hla.symm), h.covered.link links, fun side => (links.state _ _).trans (h.state side),
    fun htn hu => h.up htn (links.upKnown ▸ hu), fun htn down => ?_⟩
  rcases h.copy htn down with hm | old
  · refine (List.mem_cons.1 hm).symm.imp_right fun e => ?_
    obtain ⟨-, -, child, value⟩ := h.covered.guided.arc layer hd
    obtain ⟨bon, parent, bchild, bvalue⟩ := links.arc_new
    exact ⟨_, hs, bon, parent, bchild.trans (e ▸ child), bvalue.trans (e ▸ value)⟩
  · exact Or.inr (old.adds links.adds)

/-- After the copies were made, the new node offers a detour for the trail. -/
theorem detour (on : w.graph.isActive new = true) (hl : w.graph.layerOf new = layer)
    (h : Copying K ρ stale t n new layer size states [] w) (htn : t.node layer = n)
    (down : K.Covers true .down layer (states.get .down)) : Detour K t w size layer new where
  active := on
  layerOf := hl
  down := (h.state .down).symm ▸ down
  up hu := (h.state .up).symm ▸ h.up htn hu
  arc := (h.copy htn down).resolve_left List.not_mem_nil

end Copying

/-! ### Moved arcs -/

namespace Detour

theorem link (h : Detour K t w size layer new) {q c : NodeId} {v : Int} (k : Links q c v w w') :
    Detour K t w' size layer new where
  active := (k.isActive _).trans h.active
  layerOf := (k.layerOf _).trans h.layerOf
  down := (k.state _ _).symm ▸ h.down
  up hu := (k.state _ _).symm ▸ h.up (k.upKnown ▸ hu)
  arc := h.arc.adds k.adds

/-- An arc which was there before is taken out. -/
theorem unhook (h : Detour K t w size layer new) (hw : w.graph.Wf) {a : ArcId} (ha : a < size)
    (hg : w'.graph = (w.unhook a).graph) (hu : w'.upKnown = w.upKnown) :
    Detour K t w' size layer new := by
  have hl := hw.listed a
  obtain ⟨b, hb, bon, bpar, bch, bval⟩ := h.arc
  change w'.graph = w.graph.detach a at hg
  refine ⟨?_, ?_, ?_, fun hk => ?_, b, hb, ?_, ?_, ?_, ?_⟩
  · rw [hg, Graph.isActive_detach hl]
    exact h.active
  · rw [hg, Graph.layerOf_detach hl]
    exact h.layerOf
  · rw [hg, Graph.state_detach hl]
    exact h.down
  · rw [hg, Graph.state_detach hl]
    exact h.up (hu ▸ hk)
  · rw [hg, Graph.arcIsActive_detach hl]
    exact ⟨Nat.ne_of_gt (Nat.lt_of_lt_of_le ha hb), bon⟩
  · rw [hg, Graph.parent_detach hl]
    exact bpar
  · rw [hg, Graph.child_detach hl]
    exact bch
  · rw [hg, Graph.value_detach hl]
    exact bval

end Detour

/-- While arcs of a bundle are moved from `n` to `new`: there is a trail, all of whose arcs are old or new, and if
one of its arcs still waits, then the new node offers a detour. -/
structure Moving (K : Certificate p.model σ) (ρ : Var → Option Int) (stale : Nat → Prop) (old : Trail)
    (size : Nat) (new : NodeId) (layer : Nat) (c : Candidate) (as : List ArcId) (w : Workspace) : Prop where
  tidy : Tidy p stale [] w
  size_le : size ≤ w.graph.arcs.size
  listed : ∀ a ∈ as, a ∈ c.arcs
  trail : ∃ t, Covered K ρ p.model.depth 0 t w ∧
    (∀ l < p.model.depth, t.arc l = old.arc l ∨ size ≤ t.arc l) ∧
    ∀ l < p.model.depth, t.arc l ∈ as → Detour K t w size layer new

namespace Moving

variable {c : Candidate} {a : ArcId}

theorem skip (h : Moving K ρ stale old size new layer c (a :: as) w) : Moving K ρ stale old size new layer c as w := by
  obtain ⟨t, hc, hold, hdetour⟩ := h.trail
  exact ⟨h.tidy, h.size_le, fun b hb => h.listed b (List.mem_cons_of_mem _ hb), t, hc, hold,
    fun l hl hm => hdetour l hl (List.mem_cons_of_mem _ hm)⟩

/-- An arc of the trail which leads to the node is the one above its layer. -/
theorem succ_eq (hc : c.Enters layer n w) (h : Covered K ρ p.model.depth 0 t w) {l : Nat} (hl : l < p.model.depth)
    (ha : t.arc l ∈ c.arcs) : l + 1 = layer := by
  obtain ⟨-, -, child, -⟩ := h.guided.arc l hl
  have hk := (h.guided.node (l + 1) hl).2
  change w.graph.layerOf (t.node (l + 1)) = l + 1 at hk
  change (w.graph.arc (t.arc l)).child = _ at child
  rw [← child, (hc.arcs _ ha).2, hc.layerOf] at hk
  exact hk.symm

section

variable (hp : p.Distinct) (small : ∀ a ∈ c.arcs, a < size) (hc : c.Enters layer n w) (new_lt : new < w.graph.nodes.size)
  (hl : w.graph.layerOf new = layer) (on : w.graph.arcIsActive a = true)
  (h : Moving K ρ stale old size new layer c (a :: as) w) (hc' : Covered K ρ p.model.depth 0 t w)
  (hold : ∀ l < p.model.depth, t.arc l = old.arc l ∨ size ≤ t.arc l)

include hc new_lt hl on h in
theorem redirecting : Tidy p stale [] (w.redirecting p new a) :=
  h.tidy.redirecting on (hc.arcs a (h.listed a List.mem_cons_self)).2 new_lt (hl.trans hc.layerOf.symm)

include hp hc new_lt hl on h in
/-- No arc of the trail is among those which are moved. -/
theorem settle (hc' : Covered K ρ p.model.depth 0 t (w.redirecting p new a))
    (hold : ∀ l < p.model.depth, t.arc l = old.arc l ∨ size ≤ t.arc l)
    (clear : ∀ l < p.model.depth, t.arc l ∉ a :: as) :
    wp (cutArc p a) (fun _ w' => Moving K ρ stale old size new layer c as w' ∧ Evolves w w')
      (fun e _ => e.isConflict = false) (w.redirecting p new a) := by
  have links := Workspace.links_redirecting p (h.tidy.wf.parent_lt on) new_lt
  refine wp.mono (Covered.keeps_cutArc hp (links.adds.arcActive_of a on) (fun l hl e => clear l hl ?_)
    (h.redirecting hc new_lt hl on) hc') (fun _ w' k => ?_) fun _ _ k => k
  · rw [e]
    exact List.mem_cons_self
  · have he := links.adds.toEvolves.trans k.2.1
    exact ⟨⟨k.1, Nat.le_trans h.size_le he.arcs, h.skip.listed, t, k.2.2, hold,
      fun l hl hm => absurd (List.mem_cons_of_mem _ hm) (clear l hl)⟩, he⟩

include hp small hc new_lt hl on h hc' hold in
/-- The arc of the trail is moved, and the trail takes the detour. -/
theorem turn (hd : layer < p.model.depth) {l : Nat} (hlt : l < p.model.depth) (e : t.arc l = a)
    (hdetour : Detour K t w size layer new) :
    wp (cutArc p a) (fun _ w' => Moving K ρ stale old size new layer c as w' ∧ Evolves w w')
      (fun e _ => e.isConflict = false) (w.redirecting p new a) := by
  have links := Workspace.links_redirecting p (h.tidy.wf.parent_lt on) new_lt
  obtain rfl : l + 1 = layer := succ_eq hc hc' hlt (e ▸ h.listed a List.mem_cons_self)
  obtain ⟨-, parent, -, value⟩ := hc'.guided.arc l hlt
  rw [e] at parent value
  obtain ⟨bon, bparent, bchild, bvalue⟩ := links.arc_new
  obtain ⟨b, hsize, hrerouted⟩ := (hc'.link links).reroute hd (hdetour.link links) bon (bparent.trans parent) bchild
    (bvalue.trans value)
  have hsmall : ∀ x ∈ a :: as, x < size := fun x hx => small x (h.listed x hx)
  -- the arcs of the new trail are new or were on the trail, on another layer
  have cases : ∀ k, (t.reroute l w.graph.arcs.size new b).arc k = t.arc k ∧ k ≠ l ∨
      size ≤ (t.reroute l w.graph.arcs.size new b).arc k := by
    intro k
    show (if k = l then _ else if k = l + 1 then b else t.arc k) = _ ∧ _ ∨
      _ ≤ (if k = l then _ else if k = l + 1 then b else t.arc k)
    split_ifs with e₁
    · exact Or.inr h.size_le
    · exact Or.inr hsize
    · exact Or.inl ⟨rfl, e₁⟩
  refine h.settle hp hc new_lt hl on hrerouted (fun k hk => ?_) fun k hk hm => ?_
  · rcases cases k with ⟨same, -⟩ | hge
    · rw [same]
      exact hold k hk
    · exact Or.inr hge
  · rcases cases k with ⟨same, hne⟩ | hge
    · rw [same] at hm
      exact hne (Nat.succ.inj (succ_eq hc hc' hk (h.listed _ hm)))
    · exact absurd (hsmall _ hm) (Nat.not_lt.2 hge)

include hp small hc new_lt hl on h hc' hold in
/-- The arc of the trail still waits, so the old node keeps it and nothing is set off. -/
theorem wait (off : ∀ l < p.model.depth, t.arc l ≠ a) {l : Nat} (hlt : l < p.model.depth) (hm : t.arc l ∈ as)
    (hdetour : Detour K t w size layer new) :
    wp (cutArc p a) (fun _ w' => Moving K ρ stale old size new layer c as w' ∧ Evolves w w')
      (fun e _ => e.isConflict = false) (w.redirecting p new a) := by
  have links := Workspace.links_redirecting p (h.tidy.wf.parent_lt on) new_lt
  have tidy := h.redirecting hc new_lt hl on
  have ha := h.listed a List.mem_cons_self
  have only := wp_cutArc_redirecting (E := fun e _ => e.isConflict = false) h.tidy.toCensus tidy.toCensus new_lt on
    (hc'.guided.arc l hlt).1 (off l hlt)
    ((hc.arcs _ (h.skip.listed _ hm)).2.trans (hc.arcs a ha).2.symm)
  refine wp.mono (wp.and (Covered.keeps_cutArc hp (links.adds.arcActive_of a on) off tidy (hc'.link links)) only)
    (fun _ w' k => ?_) fun _ _ k => k.1
  obtain ⟨⟨tidy', he, hcov⟩, hg, -, hu⟩ := k
  have he' := links.adds.toEvolves.trans he
  refine ⟨⟨tidy', Nat.le_trans h.size_le he'.arcs, h.skip.listed, t, hcov, hold, fun _ _ _ => ?_⟩, he'⟩
  exact (hdetour.link links).unhook tidy.wf (small a ha) hg (hu.trans links.upKnown.symm)

include hp small hc new_lt hl h in
theorem step (hd : layer < p.model.depth) :
    wp (moveArc p new a) (fun _ w' => Moving K ρ stale old size new layer c as w' ∧ Evolves w w')
      (fun e _ => e.isConflict = false) w := by
  refine wp_moveArc (fun _ => ⟨h.skip, .refl w⟩) fun on => ?_
  obtain ⟨t, hc', hold, hdetour⟩ := h.trail
  have links := Workspace.links_redirecting p (h.tidy.wf.parent_lt on) new_lt
  by_cases here : ∃ l < p.model.depth, t.arc l = a
  · obtain ⟨l, hlt, e⟩ := here
    exact h.turn hp small hc new_lt hl on hc' hold hd hlt e (hdetour l hlt (e ▸ List.mem_cons_self))
  · have off : ∀ l < p.model.depth, t.arc l ≠ a := fun l hlt e => here ⟨l, hlt, e⟩
    by_cases later : ∃ l < p.model.depth, t.arc l ∈ as
    · obtain ⟨l, hlt, hm⟩ := later
      exact h.wait hp small hc new_lt hl on hc' hold off hlt hm (hdetour l hlt (List.mem_cons_of_mem _ hm))
    · refine h.settle hp hc new_lt hl on (hc'.link links) hold fun l hlt hm => ?_
      exact (List.mem_cons.1 hm).elim (off l hlt) fun hm => later ⟨l, hlt, hm⟩

end

end Moving

/-! ### New nodes -/

/-- There is a trail, all of whose arcs are old or were added since. -/
def Rerouted (K : Certificate p.model σ) (ρ : Var → Option Int) (old : Trail) (size : Nat) (w : Workspace) :
    Prop :=
  ∃ t, Covered K ρ p.model.depth 0 t w ∧ ∀ l < p.model.depth, t.arc l = old.arc l ∨ size ≤ t.arc l

/-- A node without arcs on one side is not on the trail. -/
theorem keeps_dropUseless (hp : p.Distinct) (hm : p.model.Plain) (h0 : 0 < layer)
    (hd : layer < p.model.depth) (hl : w.graph.layerOf new = layer) :
    Keeps p stale (Rerouted K ρ old size) (dropUseless p new) w := by
  intro tidy ⟨t, hc, ho⟩
  have same : Onward p stale (Rerouted K ρ old size) w w := ⟨tidy, .refl w, t, hc, ho⟩
  refine wp_dropUseless (fun _ => rfl) (fun _ => same) (fun useless => ?_) fun _ _ _ => same
  refine wp.mono (Covered.keeps_dropNode hp (fun _ => ?_) tidy hc)
    (fun _ w' k => ⟨k.1, k.2.1, t, k.2.2, ho⟩) fun _ _ h => h
  rcases useless with bare | bare | fails
  · have inner : Inner p.model.depth w .up new := show w.graph.layerOf new < _ from hl ▸ hd
    exact hc.guided.node_ne tidy.wf inner bare
  · have inner : Inner p.model.depth w .down new := show 0 < w.graph.layerOf new from hl ▸ h0
    exact hc.guided.node_ne tidy.wf inner bare
  · rw [keepsNode_of_nil hm.nodeChecks] at fails
    cases fails

theorem keeps_splitOff (hp : p.Distinct) (hm : p.model.Plain) (h0 : 0 < layer)
    (hd : layer < p.model.depth) {c : Candidate} (hc : c.Enters layer n w) (hfit : c.Fits K old layer)
    (small : ∀ a ∈ c.arcs, a < size) (hs : size ≤ w.graph.arcs.size) :
    Keeps p stale (Rerouted K ρ old size) (splitOff p n layer c) w := by
  intro tidy ⟨t, hcov, hold⟩
  refine wp_splitOff (fun as w' => ∃ states, states.down = c.down ∧
      Copying K ρ stale t n w.graph.nodes.size layer size states as w')
    (Moving K ρ stale old size w.graph.nodes.size layer c) tidy.wf hc (fun _ => rfl)
    (fun states hstates => ⟨states, (w.statesWith_down_up hstates).1, .start tidy hcov h0 hd hc hfit.sound hstates⟩)
    (fun a as w' hst ha hk => ?_) (fun w' hst hk => ?_)
    (fun a as w' hsp hc' _ h => h.step hp small hc' hsp.new_lt hsp.layerOf_new hd) fun w' hsp h => ?_
  · obtain ⟨states, down, hk⟩ := hk
    obtain ⟨on, parent, -, -⟩ := hst.source tidy.wf hc.layerOf ha
    refine wp_copyArc (fun _ => rfl) (fun fails => ⟨states, down, hk.rejected hd hst.layerOf_new fails⟩) fun _ =>
      ⟨states, down, hk.accepted hd hst.isActive_new hst.layerOf_new on ?_ (Nat.le_trans hs hst.arcs)⟩
    rw [parent, hst.layerOf n hc.lt, hc.layerOf]
  · obtain ⟨states, down, hk⟩ := hk
    refine ⟨hk.tidy, Nat.le_trans hs hst.arcs, fun _ h => h, t, hk.covered, hold, fun l hl ha => ?_⟩
    have hc' := hc.evolves hst.toEvolves
    obtain rfl := Moving.succ_eq hc' hk.covered hl ha
    refine hk.detour hst.isActive_new hst.layerOf_new ?_ (?_ : K.Covers true .down (l + 1) states.down)
    · obtain ⟨-, -, child, -⟩ := hk.covered.guided.arc l hl
      exact child.symm.trans (hc'.arcs _ ha).2
    · rw [down]
      refine hfit.covers l hl ?_
      rwa [← (hold l hl).resolve_right (Nat.not_le.2 (small _ ha))]
  · obtain ⟨t', hcov', hold', -⟩ := h.trail
    refine (keeps_dropUseless hp hm h0 hd ?_).goesOn ⟨h.tidy.schedule _ _ _, hsp.toEvolves.trans (.schedule p _ _ _ w'),
      t', hcov'.schedule _ _ _, hold'⟩
    rw [Workspace.graph_schedule]
    exact hsp.layerOf_new

/-! ### Layers -/

/-- There is a trail whose states stand for the labels. -/
def Kept (K : Certificate p.model σ) (ρ : Var → Option Int) (w : Workspace) : Prop := ∃ t, Covered K ρ p.model.depth 0 t w

/-- A step which keeps every trail. -/
theorem Keeps.of_trail {α : Type} {x : Work α} (h : ∀ t, Keeps p stale (Covered K ρ p.model.depth 0 t) x w) :
    Keeps p stale (Kept K ρ) x w := fun ht ⟨t, hc⟩ =>
  wp.mono (h t ht hc) (fun _ _ k => ⟨k.1, k.2.1, t, k.2.2⟩) fun _ _ k => k

/-- A node whose incoming arcs form one bundle may get the state they lead to. -/
theorem keeps_adoptBundle (hp : p.Distinct) (hm : p.model.Plain) (hd : layer < p.model.depth) {c : Candidate}
    (hb : Bundled p layer n [c] w) : Keeps p stale (Kept K ρ) (adoptState p .down n c.down) w := by
  refine .of_trail fun t tidy hcov => ?_
  have hfit := hcov.fits hm tidy.wf hd hb List.mem_cons_self
  refine Covered.keeps_adoptState hp hm hb.lt (hb.layerOf ▸ hfit.sound) (fun l hl e => ?_) tidy hcov
  obtain rfl : l = layer := by
    rw [← hb.layerOf, ← e]
    exact (hcov.guided.node l hl).2.symm
  obtain ⟨k, rfl⟩ := Nat.exists_eq_succ_of_ne_zero (Nat.ne_of_gt hb.pos)
  obtain ⟨on, -, child, -⟩ := hcov.guided.arc k hl
  obtain ⟨c', hc', ha⟩ := hb.exists_mem tidy.wf on (child.trans e)
  obtain rfl := List.mem_singleton.1 hc'
  exact hfit.covers k hl ha

/-- Some bundles of a node become nodes of their own. -/
theorem keeps_splitOffs (hp : p.Distinct) (hm : p.model.Plain) (hd : layer < p.model.depth) {cs ds : List Candidate}
    (hb : Bundled p layer n cs w) (sub : ds ⊆ cs) : Keeps p stale (Kept K ρ) (ds.forM (splitOff p n layer)) w := by
  rintro tidy ⟨t, hcov⟩
  have fit := fun c hc => hcov.fits hm tidy.wf hd hb (sub hc) (c := c)
  refine wp.mono (hb.wp_splitOffs (I := Onward p stale (Rerouted K ρ t w.graph.arcs.size) w) tidy.wf sub
    ⟨tidy, .refl w, t, hcov, fun _ _ => Or.inl rfl⟩ fun c hc w' he henters k => ?_)
    (fun _ _ k => ⟨k.1, k.2.1, k.2.2.imp fun _ h => h.1⟩) fun _ _ k => k
  have small : ∀ a ∈ c.arcs, a < w.graph.arcs.size := fun a ha => ((hb.enters tidy.wf (sub hc)).arcs a ha).1
  exact wp.mono (keeps_splitOff hp hm hb.pos hd henters (fit c hc) small he.arcs k.1 k.2.2)
    (fun _ _ l => ⟨⟨l.1, k.2.1.trans l.2.1, l.2.2⟩, l.2.1⟩) fun _ _ l => l

theorem keeps_splitNodes (hp : p.Distinct) (hm : p.model.Plain) (hd : layer < p.model.depth)
    (maxWidth fuel : Nat) (tried : List NodeId) :
    Keeps p stale (Kept K ρ) (splitNodes p layer maxWidth fuel tried) w := by
  intro tidy kept
  let I : List NodeId → Workspace → Prop := fun _ => Onward p stale (Kept K ρ) w
  have quiet : ∀ {w₁ w₂}, Quiet p w₁ w₂ → Onward p stale (Kept K ρ) w w₁ → Onward p stale (Kept K ρ) w w₂ :=
    fun hq h => ⟨hq.tidy h.1, h.2.1.trans (.of_quiet hq), h.2.2.imp fun _ hc => hc.quiet hq⟩
  have splitter : Splitter p layer maxWidth I (fun _ => I []) fun e _ => e.isConflict = false :=
    { sound := fun h => ⟨h.1.wf, h.1.cached⟩
      quiet := quiet
      faults := fun _ _ => rfl
      exhausted := fun _ => rfl
      full := fun h _ => h
      done := fun h _ => h
      kept := fun _ _ h => h
      adopt := fun hb h => (keeps_adoptBundle hp hm hd hb).goesOn h
      discard := fun hb h => wp.mono (Keeps.goesOn (.of_trail fun _ => Covered.keeps_discardDead hp hm hd hb) h)
        (fun _ _ h _ => quiet (.tally _ _) h) fun _ _ h => h
      split := fun hb hd' _ h => (keeps_splitOffs hp hm hd hb fun _ hc => hd'.subset (List.mem_of_mem_take hc)).goesOn h }
  exact splitter.wp_splitNodes fuel ⟨tidy, .refl w, kept⟩

end DecisionDiagrams
