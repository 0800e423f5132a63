import DecisionDiagrams.Proofs.Engine.Covered

/-! A trail through a node which is split. The bundle with the arc of the trail leads to a state which
stands for the labels, so it is not removed, and the node it becomes gets a copy of the next arc of the
trail. When the arc is moved to the new node, the trail goes on through it. -/

namespace DecisionDiagrams

open Work Cascade

/-! ### Removals which set nothing off -/

theorem wp_settle_of_fed {p : Plan} {w : Workspace} {delete : NodeId → Work PUnit} {d : Direction}
    {n : NodeId} {E : Stop → Workspace → Prop} (fed : (w.arcsOn d n).isEmpty = false) :
    wp (settle p delete d n) (fun _ w' => w'.graph = w.graph ∧ w'.domains = w.domains ∧
      w'.upKnown = w.upKnown) E w := by
  unfold settle
  rw [wp_bind, wp_get, wp_ite]
  refine ⟨fun _ => ?_, fun _ => ⟨rfl, rfl, rfl⟩⟩
  rw [wp_ite]
  refine ⟨fun bare => absurd bare ?_, fun _ => ?_⟩
  · rw [Bool.eq_false_iff] at fed
    cases d <;> exact fed
  · rw [wp_set]
    exact ⟨Workspace.graph_schedule, Workspace.domains_schedule, Workspace.upKnown_schedule⟩

/-- If the ends of an arc have other arcs and its label has another one, it is only taken out. -/
theorem wp_cutArc_of_fed {p : Plan} {w : Workspace} {a : ArcId} {E : Stop → Workspace → Prop}
    (supported : (w.unhook a).support (w.graph.layerOf (w.graph.arc a).parent) (w.graph.arc a).value ≠ 0)
    (parent : ((w.unhook a).graph.outgoing (w.graph.arc a).parent).isEmpty = false)
    (child : ((w.unhook a).graph.incoming (w.graph.arc a).child).isEmpty = false) :
    wp (cutArc p a) (fun _ w' => w'.graph = (w.unhook a).graph ∧ w'.domains = w.domains ∧
      w'.upKnown = w.upKnown) E w := by
  have hd : (w.unhook a).domains = w.domains := by unfold Workspace.unhook; rfl
  have hu : (w.unhook a).upKnown = w.upKnown := by unfold Workspace.unhook; rfl
  unfold cutArc
  rw [wp_bind, wp_get]
  generalize hdel : dropNodeWith p (cutArcWithin p w.graph.nodes.size) = delete
  have hcut : cutArcWithin p (cascadeDepth w) a = cutArcWith p delete a := by rw [← hdel]; rfl
  rw [hcut]
  unfold cutArcWith
  rw [wp_bind, wp_get]
  show wp (set (w.unhook a) >>= _) _ _ _
  rw [wp_bind, wp_set]
  generalize w.unhook a = v at *
  rw [wp_bind]
  have hquiet : wp (dropUnsupported p.model (w.graph.layerOf (w.graph.arc a).parent)
      (w.graph.arc a).value) (fun _ u => u.graph = v.graph ∧ u.domains = w.domains ∧
        u.upKnown = w.upKnown) E v := by
    unfold dropUnsupported
    rw [wp_bind, wp_get, wp_ite]
    refine ⟨fun h => ?_, fun _ => ⟨rfl, hd, hu⟩⟩
    rw [Bool.and_eq_true, beq_iff_eq] at h
    exact absurd h.1 supported
  refine wp.mono hquiet (fun _ u hu => ?_) fun _ _ h => h
  rw [wp_bind]
  refine wp.mono (wp_settle_of_fed (d := .up) ?_) (fun _ x hx => ?_) fun _ _ h => h
  · show (u.graph.outgoing _).isEmpty = false
    rw [hu.1]
    exact parent
  · refine wp.mono (wp_settle_of_fed (d := .down) ?_) (fun _ y hy => ?_) fun _ _ h => h
    · show (x.graph.incoming _).isEmpty = false
      rw [hx.1, hu.1]
      exact child
    · exact ⟨hy.1.trans (hx.1.trans hu.1), hy.2.1.trans (hx.2.1.trans hu.2.1),
        hy.2.2.trans (hx.2.2.trans hu.2.2)⟩

/-- When an arc was redirected while another one leads to the same child, it is only taken out. -/
theorem wp_cutArc_redirecting {p : Plan} {w : Workspace} {new : NodeId} {a z : ArcId} {E : Stop → Workspace → Prop}
    (hw : Census p w) (hr : Census p (w.redirecting p new a)) (hn : new < w.graph.nodes.size)
    (on : w.graph.arcIsActive a = true) (hz : w.graph.arcIsActive z = true) (hza : z ≠ a)
    (child : (w.graph.arc z).child = (w.graph.arc a).child) :
    wp (cutArc p a) (fun _ w' => w'.graph = ((w.redirecting p new a).unhook a).graph ∧
      w'.domains = w.domains ∧ w'.upKnown = w.upKnown) E (w.redirecting p new a) := by
  have links := Workspace.links_redirecting p (hw.wf.parent_lt on) hn
  generalize w.redirecting p new a = v at hr links ⊢
  have on' := links.adds.arcActive_of a on
  have hl := hr.wf.listed a
  have hwf := hr.wf.detach on'
  obtain ⟨bon, bpar, -, bval⟩ := links.arc_new
  have hb : (v.graph.detach a).arcIsActive w.graph.arcs.size = true :=
    (Graph.arcIsActive_detach hl _).2 ⟨Nat.ne_of_gt (Graph.lt_of_arcIsActive _ on), bon⟩
  refine wp.mono (wp_cutArc_of_fed ?_ ?_ ?_) (fun _ w' k => ⟨k.1, k.2.1.trans links.domains, k.2.2.trans links.upKnown⟩)
    fun _ _ k => k
  · rw [(hr.unhook on').supports]
    refine Nat.ne_of_gt (Graph.labelled_pos_iff.2 ⟨w.graph.arcs.size, hb, ?_, ?_⟩)
    · show (v.graph.detach a).layerOf ((v.graph.detach a).arc _).parent = _
      rw [Graph.parent_detach hl, Graph.layerOf_detach hl, bpar, links.arc_old on]
    · show ((v.graph.detach a).arc _).value = _
      rw [Graph.value_detach hl, bval, links.arc_old on]
  · refine Array.isEmpty_eq_false_iff_exists_mem.2 ⟨w.graph.arcs.size, hwf.mem_outgoing.2 ⟨hb, ?_⟩⟩
    rw [Graph.parent_detach hl, bpar, links.arc_old on]
  · refine Array.isEmpty_eq_false_iff_exists_mem.2 ⟨z, hwf.mem_incoming.2 ⟨?_, ?_⟩⟩
    · exact (Graph.arcIsActive_detach hl _).2 ⟨hza, links.adds.arcActive_of z hz⟩
    · rw [Graph.child_detach hl, links.arc_old hz, links.arc_old on, child]

/-! ### Additions -/

theorem Guided.link {p : Plan} {σ : Nat → Int} {top : Nat} {t : Trail} {q c : NodeId} {v : Int} {w w' : Workspace}
    (h : Guided p σ top t ([], w)) (k : Links q c v w w') : Guided p σ top t ([], w') where
  node l hl := ⟨(k.isActive _).trans (h.node l hl).1, (k.layerOf _).trans (h.node l hl).2⟩
  arc l hl := by
    obtain ⟨on, ends⟩ := h.arc l hl
    refine ⟨k.adds.arcActive_of _ on, ?_⟩
    show (w'.graph.arc _).parent = _ ∧ (w'.graph.arc _).child = _ ∧ (w'.graph.arc _).value = _
    rw [k.arc_old on]
    exact ends
  within l hl := k.domains ▸ h.within l hl
  low m hm := (k.layerOf m).symm ▸ h.low m (Nat.lt_of_lt_of_eq hm k.size)
  root m hm hl := h.root m ((k.isActive m).symm.trans hm) ((k.layerOf m).symm.trans hl)
  sink m hm hl := h.sink m ((k.isActive m).symm.trans hm) ((k.layerOf m).symm.trans hl)
  owing _ _ hm := absurd hm List.not_mem_nil

namespace Covered

variable {p : Plan} {stale : Nat → Prop} {σ : Nat → Int} {ρ : Var → Option Int} {K : Certificate p.model σ}
  {top floor : Nat} {t : Trail} {w w' : Workspace}

theorem link {q c : NodeId} {v : Int} (h : Covered K ρ top floor t w) (k : Links q c v w w') :
    Covered K ρ top floor t w' where
  guided := h.guided.link k
  down l hl := (k.state _ _).symm ▸ h.down l hl
  up l hl hk := (k.state _ _).symm ▸ h.up l hl (k.upKnown ▸ hk)
  sound m hm d := by
    rw [k.state, k.layerOf]
    exact h.sound m (Nat.lt_of_lt_of_eq hm k.size) d
  others := k.domains.symm ▸ h.others

/-- A node is split off between the root and the sink. -/
theorem splitNode (h : Covered K ρ p.model.depth floor t w) {layer : Nat} (h0 : 0 < layer)
    (hd : layer < p.model.depth) {states : BySide State}
    (down : K.Covers false .down layer states.down) (up : K.Covers false .up layer states.up) :
    Covered K ρ p.model.depth floor t (w.splitNode layer states) := by
  have old : ∀ m < w.graph.nodes.size, (w.splitNode layer states).graph.node m = w.graph.node m :=
    fun m hm => Workspace.node_splitNode_of_ne (Nat.ne_of_lt hm)
  have trail : ∀ l ≤ p.model.depth, t.node l < w.graph.nodes.size :=
    fun l hl => Graph.lt_of_isActive _ (h.guided.node l hl).1
  have cases : ∀ m < (w.splitNode layer states).graph.nodes.size,
      m < w.graph.nodes.size ∨ m = w.graph.nodes.size := by
    intro m hm
    rw [Workspace.size_splitNode] at hm
    omega
  -- the new node is neither a root nor a sink
  have inner : ∀ m, (w.splitNode layer states).graph.isActive m = true →
      (w.splitNode layer states).graph.layerOf m ≠ layer → m < w.graph.nodes.size := by
    intro m hm hl
    refine (cases m (Graph.lt_of_isActive _ hm)).resolve_right fun e => hl ?_
    rw [e, Workspace.layerOf_splitNode_self]
  refine ⟨⟨fun l hl => ?_, h.guided.arc, h.guided.within, fun m hm => ?_, fun m hm hl => ?_,
    fun m hm hl => ?_, fun _ _ h => absurd h List.not_mem_nil⟩,
    fun l hl => ?_, fun l hl hk => ?_, fun m hm d => ?_, h.others⟩
  · show ((w.splitNode layer states).graph.node (t.node l)).active = true ∧
      ((w.splitNode layer states).graph.node (t.node l)).layer = l
    rw [old _ (trail l hl)]
    exact h.guided.node l hl
  · show ((w.splitNode layer states).graph.node m).layer ≤ _
    rcases cases m hm with hlt | rfl
    · rw [old m hlt]
      exact h.guided.low m hlt
    · rw [Workspace.node_splitNode_self]
      exact Nat.le_of_lt hd
  · have hlt := inner m hm (by rw [hl]; exact Nat.ne_of_lt h0)
    rw [Graph.isActive, old m hlt] at hm
    rw [Graph.layerOf, old m hlt] at hl
    exact h.guided.root m hm hl
  · have hlt := inner m hm (by rw [hl]; exact Nat.ne_of_gt hd)
    rw [Graph.isActive, old m hlt] at hm
    rw [Graph.layerOf, old m hlt] at hl
    exact h.guided.sink m hm hl
  · rw [Graph.state, old _ (trail l hl)]
    exact h.down l hl
  · rw [Graph.state, old _ (trail l hl)]
    exact h.up l hl hk
  · rcases cases m hm with hlt | rfl
    · rw [Graph.state, Graph.layerOf, old m hlt]
      exact h.sound m hlt d
    · rw [Workspace.state_splitNode_self, Workspace.layerOf_splitNode_self]
      cases d with
      | down => exact down
      | up => exact up

end Covered

/-- The trail with another node below layer `l`. -/
def Trail.reroute (t : Trail) (l : Nat) (a : ArcId) (n : NodeId) (b : ArcId) : Trail where
  node k := if k = l + 1 then n else t.node k
  arc k := if k = l then a else if k = l + 1 then b else t.arc k

/-- A node has an arc from number `size` on which carries the label of the layer and leads on to the trail. -/
def Trail.Rejoined (t : Trail) (σ : Nat → Int) (size layer : Nat) (n : NodeId) (w : Workspace) : Prop :=
  ∃ a, size ≤ a ∧ w.graph.arcIsActive a = true ∧ (w.graph.arc a).parent = n ∧
    (w.graph.arc a).child = t.node (layer + 1) ∧ (w.graph.arc a).value = σ layer

theorem Trail.Rejoined.adds {t : Trail} {σ : Nat → Int} {size layer : Nat} {n : NodeId} {w w' : Workspace}
    (h : t.Rejoined σ size layer n w) (k : Adds w w') : t.Rejoined σ size layer n w' := by
  obtain ⟨b, hb, on, parent, child, value⟩ := h
  have hlt := Graph.lt_of_arcIsActive _ on
  exact ⟨b, hb, k.arcActive_of b on, (k.parent b hlt).trans parent, (k.child b hlt).trans child,
    (k.value b hlt).trans value⟩

/-- A node through which the trail may be led instead of another one of its layer. -/
structure Detour {p : Plan} {σ : Nat → Int} (K : Certificate p.model σ) (t : Trail) (w : Workspace)
    (size : Nat) (layer : Nat) (n : NodeId) : Prop where
  active : w.graph.isActive n = true
  layerOf : w.graph.layerOf n = layer
  down : K.Covers true .down layer (w.graph.state n .down)
  up : w.upKnown = true → K.Covers true .up layer (w.graph.state n .up)
  arc : t.Rejoined σ size layer n w

namespace Covered

variable {p : Plan} {stale : Nat → Prop} {σ : Nat → Int} {ρ : Var → Option Int} {K : Certificate p.model σ}
  {top floor : Nat} {t : Trail} {w w' : Workspace}

theorem reroute (h : Covered K ρ p.model.depth floor t w) {l size : Nat} (hl : l + 1 < p.model.depth)
    {n : NodeId} (hd : Detour K t w size (l + 1) n) {a : ArcId} (on : w.graph.arcIsActive a = true)
    (parent : (w.graph.arc a).parent = t.node l) (child : (w.graph.arc a).child = n)
    (value : (w.graph.arc a).value = σ l) :
    ∃ b, size ≤ b ∧ Covered K ρ p.model.depth floor (t.reroute l a n b) w := by
  obtain ⟨b, hb, bon, bpar, bch, bval⟩ := hd.arc
  refine ⟨b, hb, ⟨fun k hk => ?_, fun k hk => ?_, h.guided.within, h.guided.low, fun m hm hm' => ?_,
    fun m hm hm' => ?_, nofun⟩, fun k hk => ?_, fun k hk hu => ?_, h.sound, h.others⟩
  · show w.graph.isActive (if k = l + 1 then n else t.node k) = true ∧
      w.graph.layerOf (if k = l + 1 then n else t.node k) = k
    split_ifs with e
    · exact ⟨hd.active, hd.layerOf.trans e.symm⟩
    · exact h.guided.node k hk
  · show w.graph.arcIsActive (if k = l then a else if k = l + 1 then b else t.arc k) = true ∧
      (w.graph.arc (if k = l then a else if k = l + 1 then b else t.arc k)).parent =
        (if k = l + 1 then n else t.node k) ∧
      (w.graph.arc (if k = l then a else if k = l + 1 then b else t.arc k)).child =
        (if k + 1 = l + 1 then n else t.node (k + 1)) ∧
      (w.graph.arc (if k = l then a else if k = l + 1 then b else t.arc k)).value = σ k
    by_cases e : k = l
    · subst e
      simp only [if_true, if_neg (Nat.ne_of_lt (Nat.lt_succ_self k))]
      exact ⟨on, parent, child, value⟩
    · by_cases e' : k = l + 1
      · subst e'
        simp only [if_true, if_neg e, if_neg (Nat.ne_of_gt (Nat.lt_succ_self (l + 1)))]
        exact ⟨bon, bpar, bch, bval⟩
      · simp only [if_neg e, if_neg e', if_neg (fun h => e (Nat.succ.inj h) : ¬ k + 1 = l + 1)]
        exact h.guided.arc k hk
  · show m = if 0 = l + 1 then n else t.node 0
    rw [if_neg (Nat.succ_ne_zero l).symm]
    exact h.guided.root m hm hm'
  · show m = if p.model.depth = l + 1 then n else t.node p.model.depth
    rw [if_neg (Nat.ne_of_gt hl)]
    exact h.guided.sink m hm hm'
  · show K.Covers true .down k (w.graph.state (if k = l + 1 then n else t.node k) .down)
    split_ifs with e
    · exact e ▸ hd.down
    · exact h.down k hk
  · show K.Covers true .up k (w.graph.state (if k = l + 1 then n else t.node k) .up)
    split_ifs with e
    · refine e ▸ hd.up (hu.resolve_left fun hk => ?_).1
      omega
    · exact h.up k hk hu

/-! ### Bundles -/

end Covered

theorem Checked.ite_bind {α β : Type} {c : Prop} [Decidable c] {x y : Checked α}
    {f : α → Checked β} : (if c then x >>= f else y >>= f) = (if c then x else y) >>= f := by
  split_ifs <;> rfl

/-- A test of a list which fails made every test fail. -/
theorem Checked.anyM_eq_false {α : Type} {f : α → Checked Bool} : ∀ {l : List α},
    l.anyM f = .ok false → ∀ a ∈ l, f a = .ok false
  | [], _, _, ha => by cases ha
  | b :: l, h, a, ha => by
    unfold List.anyM at h
    obtain ⟨r, hr, h⟩ := Checked.bind_eq_ok.1 h
    cases r with
    | true => cases h
    | false =>
      rcases List.mem_cons.1 ha with rfl | ha
      · exact hr
      · exact anyM_eq_false h a ha

/-- A bundle leads to a state which fits the layer, and which stands for the labels if an arc of the
trail is among its arcs. -/
structure Candidate.Fits {p : Plan} {σ : Nat → Int} (K : Certificate p.model σ) (t : Trail)
    (layer : Nat) (c : Candidate) : Prop where
  sound : K.Covers false .down layer c.down
  covers : ∀ l < p.model.depth, t.arc l ∈ c.arcs → K.Covers true .down layer c.down

namespace Covered

variable {p : Plan} {stale : Nat → Prop} {σ : Nat → Int} {ρ : Var → Option Int} {K : Certificate p.model σ}
  {top floor : Nat} {t : Trail} {w w' : Workspace} {n : NodeId} {layer : Nat} {c : Candidate}

theorem fits (h : Covered K ρ p.model.depth floor t w) (hm : p.model.Plain) (hw : w.graph.Wf)
    (hd : layer < p.model.depth) {cs : List Candidate} (hb : Bundled p layer n cs w) (hc : c ∈ cs) :
    c.Fits K t layer := by
  have target : Direction.down.target (layer - 1) = layer := Nat.succ_pred_eq_of_pos hb.pos
  have hlt : layer - 1 < p.model.depth := by omega
  have parent : ∀ a ∈ c.arcs, w.graph.layerOf (w.graph.arc a).parent = layer - 1 ∧
      (w.graph.arc a).parent < w.graph.nodes.size := by
    intro a ha
    obtain ⟨on, hch⟩ := hb.arcs hw hc a ha
    have hadj := hw.adjacent a on
    rw [hch, hb.layerOf] at hadj
    exact ⟨by omega, hw.parent_lt on⟩
  have reaches := hb.sorted.reaches c hc
  obtain ⟨hsound, hcovers⟩ := Certificate.covers_reaches (K := K) (l := layer) hm reaches
    fun a ha s hs => by
      obtain ⟨hpl, hplt⟩ := parent a ha
      refine target ▸ Certificate.covers_step (b := false) hm hlt nofun hs ?_
      exact hpl ▸ h.sound _ hplt .down
  refine ⟨hsound, fun l hl' ha => hcovers ⟨_, ha, fun s hs => ?_⟩⟩
  obtain ⟨hpl, -⟩ := parent _ ha
  obtain ⟨-, hpar, -, hval⟩ := h.guided.arc l hl'
  change (w.graph.arc (t.arc l)).parent = _ at hpar
  rw [hpar, (h.guided.node l (Nat.le_of_lt hl')).2] at hpl
  subst hpl
  refine target ▸ Certificate.covers_step (b := true) hm hlt (fun _ => ?_) hs ?_
  · rw [hval]
    exact IntSet.mem_singleton.2 rfl
  · rw [hpar]
    exact h.down _ (Nat.le_of_lt hl')

/-- A bundle with an arc of the trail leads on. -/
theorem canContinue (h : Covered K ρ p.model.depth 0 t w) (hm : p.model.Plain) (hw : w.graph.Wf)
    (hd : layer < p.model.depth) (htn : t.node layer = n) {down : State}
    (hc : K.Covers true .down layer down) : canContinue p w n layer down ≠ .ok false := by
  intro hfalse
  unfold Work.canContinue at hfalse
  dsimp only at hfalse
  rw [Checked.ite_bind] at hfalse
  obtain ⟨combined, -, hfalse⟩ := Checked.bind_eq_ok.1 hfalse
  rw [Checked.ite_bind] at hfalse
  obtain ⟨passes, hpasses, hfalse⟩ := Checked.bind_eq_ok.1 hfalse
  have hpass : passes = true := by
    split_ifs at hpasses
    · unfold Model.nodePasses at hpasses
      rw [hm.nodeChecks] at hpasses
      exact (Except.ok.inj hpasses).symm
    · exact (Except.ok.inj hpasses).symm
  subst hpass
  obtain ⟨on, hpar, hch, hval⟩ := h.guided.arc layer hd
  have hmem : t.arc layer ∈ (w.graph.outgoing n).toList :=
    Array.mem_toList_iff.2 (hw.mem_outgoing.2 ⟨on, hpar.trans htn⟩)
  have := Checked.anyM_eq_false hfalse _ hmem
  change p.model.arcPasses layer (w.graph.arc (t.arc layer)).value _ _
    (w.up? p.model (w.graph.arc (t.arc layer)).child) _ = _ at this
  rw [show (w.graph.arc (t.arc layer)).value = σ layer from hval,
    show (w.graph.arc (t.arc layer)).child = t.node (layer + 1) from hch] at this
  exact K.admits hd hc (fun up hup => h.up?_covers hd (Nat.zero_le _) hup) this

theorem keeps_discard (hp : p.Distinct) (hc : ∀ l < p.model.depth, t.arc l ∉ c.arcs) :
    Keeps p stale (Covered K ρ p.model.depth floor t) (discard p c) w := by
  refine .update_bind (fun h => h.congr rfl rfl rfl h.cached) (.of_quiet (p := p) (.tally _ w))
    (fun h => h.congr rfl rfl rfl) ?_
  exact .forM _ fun a ha w₁ _ => keeps_retestArc hp fun _ l hl e => absurd (e ▸ ha) (hc l hl)

theorem keeps_discardDead (hp : p.Distinct) (hm : p.model.Plain) (hd : layer < p.model.depth)
    {cs : List Candidate} (hb : Bundled p layer n cs w) :
    Keeps p stale (Covered K ρ p.model.depth 0 t) (discardDead p n layer cs) w := by
  intro ht₀ h₀
  refine Keeps.foldlM _ (fun discarded c hc w₁ he => .get_bind fun ht h => ?_) ht₀ h₀
  refine .lift_bind fun continues hcont => .ite (fun _ => .pure _) fun hno => ?_
  obtain rfl : continues = false := by simpa using hno
  refine .bind (keeps_discard hp fun l hl ha => ?_) fun _ _ _ _ _ => .pure _
  obtain ⟨on, hch⟩ := hb.arcs ht₀.wf hc _ ha
  -- the arc leads to the node, which therefore is on the trail
  have hnode : t.node (l + 1) = n := by
    obtain ⟨-, -, hch', -⟩ := h₀.guided.arc l hl
    exact hch'.symm.trans hch
  have hlayer : l + 1 = layer := by
    rw [← hb.layerOf, ← hnode]
    exact (h₀.guided.node (l + 1) hl).2.symm
  subst hlayer
  exact h.canContinue hm ht.wf hd hnode ((h₀.fits hm ht₀.wf hd hb hc).covers l hl ha) hcont

end Covered
end DecisionDiagrams
