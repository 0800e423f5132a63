import DecisionDiagrams.Proofs.Engine.Splitting
import DecisionDiagrams.Proofs.Engine.Agreement

/-! A whole propagation keeps a trail whose states stand for the labels. The passes compute and split
nodes one after another; the first up states are computed from the sink towards the root, so the trail
gets its up states layer by layer; and while the diagram is built the trail goes on to every layer,
because the tests accept its labels. -/

namespace DecisionDiagrams

open Work Cascade

variable {p : Plan} {stale : Nat → Prop} {σ : Nat → Int} {ρ : Var → Option Int} {K : Certificate p.model σ}
  {t : Trail} {w w' : Workspace}

/-! ### Passes -/

theorem keeps_recomputeLayer (hp : p.Distinct) (hm : p.model.Plain) {d : Direction} (layer : Nat)
    (hu : d = .up → w.upKnown = true) :
    Keeps p stale (Kept K ρ) (recomputeLayer p d layer) w :=
  .of_trail fun _ => Covered.keeps_recomputeLayer hp hm layer hu

theorem keeps_passes (hp : p.Distinct) (hm : p.model.Plain) (fuel rounds done : Nat)
    (hu : p.model.hasUp = true → w.upKnown = true) : Keeps p stale (Kept K ρ) (passes p fuel rounds done) w := by
  intro tidy kept
  have sweeper : Sweeper p fuel (Onward p stale (Kept K ρ) w) fun e _ => e.isConflict = false :=
    { tally := fun f h => ⟨h.1.congr rfl rfl rfl h.1.cached, h.2.1.trans (.of_quiet (p := p) (.tally f _)),
        h.2.2.imp fun _ hc => hc.congr rfl rfl rfl⟩
      exhausted := fun _ => rfl
      up := fun hup _ layer h =>
        (keeps_recomputeLayer hp hm layer fun _ => h.2.1.upKnown (hu hup)).goesOn h
      down := fun layer h => (keeps_recomputeLayer hp hm (d := .down) layer nofun).goesOn h
      split := fun hd h => (keeps_splitNodes hp hm hd _ _ _).goesOn h }
  exact wp.mono (sweeper.passes rounds done ⟨tidy, .refl w, kept⟩) (fun _ _ k => k.1) fun _ _ k => k

/-! ### The first up states -/

namespace Covered

variable {top floor : Nat}

theorem mono_floor (h : Covered K ρ top floor t w) {floor' : Nat} (hf : floor ≤ floor') :
    Covered K ρ top floor' t w :=
  { h with up := fun l hl hk => h.up l hl (hk.imp id fun hk => ⟨hk.1, Nat.le_trans hf hk.2⟩) }

/-- The up state of one more layer is known to stand for the labels. -/
theorem lower (h : Covered K ρ top (floor + 1) t w)
    (hu : K.Covers true .up floor (w.graph.state (t.node floor) .up)) : Covered K ρ top floor t w where
  guided := h.guided
  down := h.down
  sound := h.sound
  others := h.others
  up l hl hk := by
    rcases hk with hk | ⟨hk, hle⟩
    · exact h.up l hl (Or.inl hk)
    · rcases Nat.lt_or_eq_of_le hle with hlt | rfl
      · exact h.up l hl (Or.inr ⟨hk, hlt⟩)
      · exact hu

end Covered

theorem Graph.state_putState_self {g : Graph} {n : NodeId} (hn : n < g.nodes.size) (side : Side)
    (s : State) : (g.putState n side s).state n side = s := by
  rw [Graph.state, Graph.node_putState g n side s hn]
  cases side <;> simp [BySide.get, BySide.set, BySide.modify]

/-- The first up state of a node stands for the labels if the node is on the trail. -/
theorem Covered.rise {layer floor : Nat} {n : NodeId} (h : Covered K ρ p.model.depth floor t w) (hm : p.model.Plain)
    (ht : Tidy p stale [] w) (hn : n < w.graph.nodes.size) (hl : w.graph.layerOf n = layer) (hf : floor ≤ layer + 1)
    (hlt : layer < p.model.depth) (hu : w.upKnown = true) (hq : Quiet p w w') {up : State}
    (hup : w.arrived p .up layer (w.bundles p .up n) (w.graph.state n .up) .full = .ok up) :
    Covered K ρ p.model.depth (if t.node layer = n then layer else floor) t (w'.putState n .up up) := by
  subst hl
  obtain ⟨sound, trail⟩ := h.arrived hm ht.wf ht.layers hn (d := .up) (r := .full) hup
  have covers : ∀ l ≤ p.model.depth, t.node l = n → K.Covers true .up l up := by
    intro l hl e
    obtain rfl : w.graph.layerOf n = l := by
      rw [← e]
      exact (h.guided.node l hl).2
    refine trail _ hl e (fun _ _ => ⟨hu, hf⟩) (Or.inl ⟨rfl, fun none => ?_⟩)
    obtain ⟨-, has⟩ := w.bundles_spec p .up n
    have feed := (h.feed ht.wf (d := .up) hlt).1
    rw [show t.node (Direction.up.target (w.graph.layerOf n)) = n from e] at feed
    obtain ⟨b, hb, -⟩ := has _ feed
    rw [none] at hb
    cases hb
  have hn' : n < w'.graph.nodes.size := hq.graph ▸ hn
  have sound' : K.Covers false .up (w'.graph.layerOf n) up := hq.graph ▸ sound
  split_ifs with e
  · refine (((h.mono_floor hf).quiet hq).putState (d := .up) hn' sound' covers).lower ?_
    rw [e]
    show K.Covers true .up _ ((w'.graph.putState n .up up).state n .up)
    rw [Graph.state_putState_self hn']
    exact covers _ (Nat.le_of_lt hlt) e
  · exact (h.quiet hq).putState (d := .up) hn' sound' covers

/-- When the node of the trail is completed, its layer is no longer left out. -/
theorem wp_completeNode_covered (hp : p.Distinct) (hm : p.model.Plain) {layer floor : Nat} {n : NodeId}
    (hn : n < w.graph.nodes.size) (hl : w.graph.layerOf n = layer) (hf : floor ≤ layer + 1)
    (hd : layer ≤ p.model.depth) (hu : w.upKnown = true) (ht : Tidy p stale [] w)
    (h : Covered K ρ p.model.depth floor t w) :
    wp (completeNode p layer n) (fun _ =>
      Onward p stale (Covered K ρ p.model.depth (if t.node layer = n then layer else floor) t) w)
      (fun e _ => e.isConflict = false) w := by
  have later : (if t.node layer = n then layer else floor) ≤ layer + 1 := by
    split_ifs
    · exact Nat.le_succ layer
    · exact hf
  let I : Workspace → Prop := Onward p stale (Covered K ρ p.model.depth (if t.node layer = n then layer else floor) t) w
  have lt : ∀ {w'}, I w' → n < w'.graph.nodes.size := fun k => Nat.lt_of_lt_of_le hn k.2.1.nodes
  refine wp_completeNode I I ht.cached (fun off => ⟨ht, .refl w, ?_⟩) (fun _ _ _ => rfl)
    (fun _ last => ⟨ht, .refl w, ?_⟩) (fun _ inner up w' hq hup => ?_) (fun _ _ _ => rfl) (fun _ _ k => k)
    (fun _ _ both k _ => ?_) (fun _ _ _ => rfl) (fun w' _ fails => ?_) fun w' k => wp_when ?_ k
  · rw [if_neg fun e : t.node layer = n => ?_]
    · exact h
    · have on := (h.guided.node layer hd).1
      rw [e] at on
      exact absurd (off.symm.trans on) nofun
  · split_ifs with e
    · refine (h.mono_floor hf).lower (h.up layer hd (Or.inl ?_))
      omega
    · exact h
  · have hn' : n < w'.graph.nodes.size := hq.graph ▸ hn
    exact ⟨(hq.tidy ht).putState hn' _ _, (Evolves.of_quiet hq).trans (.putState hn' _ _),
      h.rise hm ht hn hl hf inner hu hq hup⟩
  · exact ⟨k.1.putState (lt k) _ _, k.2.1.trans (.putState (lt k) _ _), k.2.2.putCombined (lt k) _⟩
  · rw [keepsNode_of_nil hm.nodeChecks] at fails
    cases fails
  · refine (Covered.keeps_retestOutgoing hp ?_).goesOn k
    rwa [k.2.1.layerOf n hn, hl]

/-- Once all up states were computed, those on the trail stand for the labels. -/
theorem keeps_completeNodes (hp : p.Distinct) (hm : p.model.Plain) :
    Keeps p stale (Kept K ρ) (completeNodes p) w := by
  rintro ht ⟨t, h⟩
  let U : Workspace → Prop := fun w' => Tidy p stale [] w' ∧ Evolves w w' ∧ w'.upKnown = true
  -- the layers from number `floor` on have their up states; then the nodes of the layer above get theirs
  let I : List Nat → Workspace → Prop := fun rest w' => U w' ∧ ∃ floor ≤ p.model.depth + 1,
    rest = (List.range floor).reverse ∧ Covered K ρ p.model.depth floor t w'
  let J : Nat → List Nat → List NodeId → Workspace → Prop := fun layer rest ns w' => U w' ∧
    layer ≤ p.model.depth ∧ rest = (List.range layer).reverse ∧
    (∀ n ∈ ns, n < w'.graph.nodes.size ∧ w'.graph.layerOf n = layer) ∧
    (Covered K ρ p.model.depth layer t w' ∨ t.node layer ∈ ns ∧ Covered K ρ p.model.depth (layer + 1) t w')
  refine wp_completeNodes I J ⟨⟨ht.congr rfl rfl rfl ht.cached, .of_graph rfl (.refl _) (fun _ => rfl) id, rfl⟩,
    _, Nat.le_refl _, rfl, h.guided.congr rfl h.guided.within, h.down, fun l hl hk => ?_, h.sound, h.others⟩
    (fun layer rest w' hi => ?_) (fun layer rest n ns w' hj => ?_) (fun layer rest w' hj => ?_) fun w' hi => ?_
  · exact h.up l hl (Or.inl (hk.resolve_right fun hk => by omega))
  · obtain ⟨hu, floor, hle, e, hc⟩ := hi
    cases floor with
    | zero => cases e
    | succ floor =>
      rw [List.range_succ, List.reverse_append] at e
      obtain ⟨rfl, rfl⟩ := List.cons.inj e
      refine ⟨hu, Nat.le_of_succ_le_succ hle, rfl, fun n hn => ?_, Or.inr ⟨?_, hc⟩⟩
      · obtain ⟨on, hl⟩ := hu.1.wf.mem_layer.1 (Array.mem_toList_iff.1 hn)
        exact ⟨Graph.lt_of_isActive _ on, hl⟩
      · exact Array.mem_toList_iff.2 (hu.1.wf.mem_layer.2 (hc.guided.node _ (Nat.le_of_succ_le_succ hle)))
  · obtain ⟨⟨tidy, he, hu⟩, hd, hrest, hns, hc⟩ := hj
    obtain ⟨hn, hl⟩ := hns n List.mem_cons_self
    have later : ∀ {w₃}, Evolves w' w₃ → ∀ m ∈ ns, m < w₃.graph.nodes.size ∧ w₃.graph.layerOf m = layer :=
      fun he m hm =>
        have ⟨hm', hl'⟩ := hns m (List.mem_cons_of_mem _ hm)
        ⟨Nat.lt_of_lt_of_le hm' he.nodes, (he.layerOf m hm').trans hl'⟩
    have next : ∀ {w₃} {floor}, Onward p stale (Covered K ρ p.model.depth floor t) w' w₃ →
        (Covered K ρ p.model.depth floor t w₃ → Covered K ρ p.model.depth layer t w₃ ∨
          t.node layer ∈ ns ∧ Covered K ρ p.model.depth (layer + 1) t w₃) → J layer rest ns w₃ := fun k hk =>
      ⟨⟨k.1, he.trans k.2.1, k.2.1.upKnown hu⟩, hd, hrest, later k.2.1, hk k.2.2⟩
    rcases hc with hc | ⟨hm', hc⟩
    · refine wp.mono (wp_completeNode_covered hp hm hn hl (Nat.le_succ _) hd hu tidy hc)
        (fun _ _ k => next k fun hc => Or.inl ?_) fun _ _ k => k
      simpa using hc
    · refine wp.mono (wp_completeNode_covered hp hm hn hl (Nat.le_refl _) hd hu tidy hc)
        (fun _ _ k => next k fun hc => ?_) fun _ _ k => k
      split_ifs at hc with e
      · exact Or.inl hc
      · exact Or.inr ⟨(List.mem_cons.1 hm').resolve_left e, hc⟩
  · obtain ⟨hu, hd, hrest, -, hc⟩ := hj
    exact ⟨hu, layer, Nat.le_succ_of_le hd, hrest, hc.resolve_right fun k => nomatch k.1⟩
  · obtain ⟨⟨tidy, he, -⟩, floor, -, e, hc⟩ := hi
    obtain rfl : floor = 0 := by simpa using e.symm
    exact ⟨tidy, he, t, hc⟩

/-! ### Construction -/

/-- A computation over a list which succeeds made every step succeed. -/
theorem Checked.exists_of_foldlM {α β : Type} {f : β → α → Checked β} : ∀ {l : List α} {b c : β},
    l.foldlM f b = .ok c → ∀ a ∈ l, ∃ d e, f d a = .ok e
  | [], _, _, _, _, ha => by cases ha
  | x :: l, b, c, h, a, ha => by
    rw [List.foldlM_cons] at h
    obtain ⟨d, hd, h⟩ := Checked.bind_eq_ok.1 h
    rcases List.mem_cons.1 ha with rfl | ha
    · exact ⟨b, d, hd⟩
    · exact exists_of_foldlM h a ha

/-- All tests of a layer which is built could be made, unless the construction stopped at one which
could not. -/
def Decided (p : Plan) (layer : Nat) (w : Workspace) : Prop :=
  ∀ n ∈ w.graph.layer layer, ∀ v, w.domains.contains (p.model.var layer) v = true →
    ∃ r, w.accepts p layer (n, v) = .ok r

theorem wp_of_fact {α : Type} {x : Work α} {P : Prop} (h : P) :
    wp x (fun _ _ => P) (fun _ _ => P) w := by
  unfold wp
  split <;> exact h

theorem wp_growLayer_decided {width : Option Nat} {layer : Nat} (ht : Tidy p stale [] w) :
    wp (growLayer p width layer) (fun _ _ => Decided p layer w)
      (fun e _ => e.isConflict = true → Decided p layer w) w := by
  have decided : ∀ {f}, w.collected p layer = .ok f → Decided p layer w := by
    intro f hf n hn v hv
    obtain ⟨d, e, he⟩ := Checked.exists_of_foldlM hf n (Array.mem_toList_iff.2 hn)
    obtain ⟨d, e, he⟩ := Checked.exists_of_foldlM he v (Domains.mem_values.2 hv)
    unfold Workspace.collect at he
    obtain ⟨kept, hk, -⟩ := Checked.bind_eq_ok.1 he
    exact ⟨kept, hk⟩
  refine wp_growLayer_of ht.cached (fun _ f _ he => by cases he) (fun _ _ _ hf _ _ => decided hf)
    fun _ _ _ _ hf _ _ => ?_
  exact wp.mono (wp_of_fact (decided hf)) (fun _ _ h => h) fun _ _ h _ => h

namespace Covered

variable {layer : Nat}

/-- The tests accept the next label of the trail. -/
theorem mem_acceptedBranches (h : Covered K ρ layer 0 t w) (hw : w.graph.Wf) (hl : layer < p.model.depth)
    (hdec : Decided p layer w) : (t.node layer, σ layer) ∈ acceptedBranches p layer w := by
  have hn := h.guided.node layer (Nat.le_refl _)
  have hmem := hw.mem_layer.2 hn
  obtain ⟨r, hr⟩ := hdec _ hmem _ (h.guided.within layer hl)
  refine DecisionDiagrams.mem_acceptedBranches.2 ⟨hmem, h.guided.within layer hl, ?_⟩
  cases r with
  | true => exact hr
  | false =>
    refine absurd hr (K.admits hl (h.down layer (Nat.le_refl _)) fun up hup => ?_)
    split_ifs at hup with hlast
    · obtain rfl := Option.some.inj hup
      rw [hlast]
      exact K.sink

/-- The state of a new node stands for the labels if the trail enters it. -/
theorem covers_draft (h : Covered K ρ layer 0 t w) (hm : p.model.Plain) (hw : w.graph.Wf)
    (hl : layer < p.model.depth) {width : Option Nat} {ds : List Draft} (hlay : Layered p width layer w w' ds)
    {d : Draft} (hd : d ∈ ds) : K.Covers false .down (layer + 1) d.down ∧
      ((t.node layer, σ layer) ∈ d.arcs → K.Covers true .down (layer + 1) d.down) := by
  have any : ∀ b ∈ d.arcs.toList, ∀ s, w.follows p layer b = .ok s → K.Covers false .down (layer + 1) s := by
    intro b hb s hs
    have accepted : b ∈ acceptedBranches p layer w :=
      hlay.drafted.perm.subset (List.mem_flatMap.2 ⟨d, hd, hb⟩)
    obtain ⟨on, hlayer⟩ := hw.mem_layer.1 (DecisionDiagrams.mem_acceptedBranches.1 accepted).1
    have parent := h.sound b.1 (Graph.lt_of_isActive _ on) .down
    rw [hlayer] at parent
    exact Certificate.covers_step (d := .down) (b := false) hm hl nofun hs parent
  obtain ⟨every, some⟩ := Certificate.covers_reaches (K := K) (l := layer + 1) hm (hlay.drafted.reaches d hd) any
  refine ⟨every, fun hb => some ⟨_, Array.mem_toList_iff.2 hb, fun s hs => ?_⟩⟩
  exact Certificate.covers_step (d := .down) (b := true) hm hl (fun _ => IntSet.mem_singleton.2 rfl) hs
    (h.down layer (Nat.le_refl _))

/-- The trail goes on to a new layer. -/
theorem grow (h : Covered K ρ layer 0 t w) (hm : p.model.Plain) (hw : w.graph.Wf)
    (hu : w.upKnown = !p.model.hasUp) (hl : layer < p.model.depth) {width : Option Nat}
    {ds : List Draft} (hlay : Layered p width layer w w' ds) (hdec : Decided p layer w) :
    ∃ t', Covered K ρ (layer + 1) 0 t' w' := by
  obtain ⟨i, d, a, hd, hb, -, on, hpar, hval, hch⟩ :=
    hlay.arc_of_branch (h.mem_acceptedBranches hw hl hdec)
  have hg := h.guided.grow hlay hd on hpar hval hch
  have old : ∀ l ≤ layer, t.node l < w.graph.nodes.size :=
    fun l hl => Graph.lt_of_isActive _ (h.guided.node l hl).1
  have states : ∀ {i d}, ds[i]? = some d →
      w'.graph.state (w.graph.nodes.size + i) .down = d.down ∧
      w'.graph.state (w.graph.nodes.size + i) .up = p.model.fresh .up := by
    intro i d hd
    obtain ⟨-, -, hs⟩ := hlay.laid.newNode i d hd
    obtain ⟨h1, h2⟩ := w.statesWith_down_up hs
    exact ⟨h1, h2⟩
  have fresh : ∀ l, l = p.model.depth ∨ w'.upKnown = true ∧ 0 ≤ l →
      K.Covers true .up l (p.model.fresh .up) := by
    rintro l (rfl | ⟨hk, -⟩)
    · exact K.sink
    · rw [hlay.laid.upKnown, hu] at hk
      exact K.idle (by simpa using hk) l
  refine ⟨_, hg, fun l hl' => ?_, fun l hl' hk => ?_, fun n hn e => ?_, hlay.laid.domains ▸ h.others⟩
  · rcases Nat.lt_or_eq_of_le hl' with hlt | rfl
    · have hle := Nat.le_of_lt_succ hlt
      rw [t.node_extend_of_le _ _ hle, hlay.laid.state (old l hle)]
      exact h.down l hle
    · rw [t.node_extend_self, (states hd).1]
      exact (h.covers_draft hm hw hl hlay (List.mem_of_getElem? hd)).2 hb
  · rcases Nat.lt_or_eq_of_le hl' with hlt | rfl
    · have hle := Nat.le_of_lt_succ hlt
      rw [t.node_extend_of_le _ _ hle, hlay.laid.state (old l hle)]
      exact h.up l hle (hlay.laid.upKnown ▸ hk)
    · rw [t.node_extend_self, (states hd).2]
      exact fresh _ hk
  · rcases hlay.node_cases hn with hlt | ⟨j, d', hd', rfl⟩
    · rw [hlay.laid.state hlt, hlay.laid.layerOf hlt]
      exact h.sound n hlt e
    · rw [(hlay.laid.newNode j d' hd').1]
      cases e with
      | down =>
        rw [show Direction.down.side = Side.down from rfl, (states hd').1]
        exact (h.covers_draft hm hw hl hlay (List.mem_of_getElem? hd')).1
      | up =>
        rw [show Direction.up.side = Side.up from rfl, (states hd').2]
        exact fun k => K.blank _ k

theorem wp_growLayer (hp : p.Distinct) (hm : p.model.Plain) (ht : Tidy p stale [] w)
    (h : Covered K ρ layer 0 t w) (hu : w.upKnown = !p.model.hasUp) (hl : layer < p.model.depth)
    {width : Option Nat} (hw : width ≠ some 0) :
    wp (growLayer p width layer) (fun _ w' => Tidy p stale [] w' ∧ w'.upKnown = w.upKnown ∧
      ∃ t', Covered K ρ (layer + 1) 0 t' w') (fun e _ => e.isConflict = false) w := by
  refine wp.mono (wp.and (DecisionDiagrams.wp_growLayer hw hl ht) (wp_growLayer_decided ht))
    (fun _ w' hg => ?_) fun e w' hf => ?_
  · obtain ⟨⟨w₁, ds, ht₁, hlay, hs, -⟩, hdec⟩ := hg
    obtain ⟨t', h'⟩ := h.grow hm ht.wf hu hl hlay hdec
    have hshrinks := Steps.shrinks hs ht₁.toCensus
    exact ⟨Steps.tidy hp hs ht₁, hshrinks.upKnown.trans hlay.laid.upKnown, t',
      h'.shrink hshrinks (Steps.leavesOthers hs) (h'.guided.steps hp hs ht₁.toCensus)⟩
  · obtain ⟨hf, hdec⟩ := hf
    rcases hf with ⟨f, rfl⟩ | ⟨rfl, hnil, -⟩ | ⟨w₁, ds, ht₁, hlay, hf⟩
    · rfl
    · have := h.mem_acceptedBranches ht.wf hl (hdec rfl)
      rw [hnil] at this
      cases this
    · obtain ⟨t', h'⟩ := h.grow hm ht.wf hu hl hlay (hdec hf.isConflict)
      exact (h'.guided.not_fails hp ht₁.toCensus hf).elim

end Covered

/-- The root alone. -/
theorem Covered.start {k : Nat} (hg : w.graph = Graph.withLayers k) (hu : w.upKnown = !p.model.hasUp)
    (hv : ∀ l < p.model.depth, w.domains.contains (p.model.var l) (σ l) = true)
    (ho : Others p ρ w.domains)
    {states : BySide State}
    (hs : w.statesWith p.model (p.model.fresh .down) (p.model.fresh .up) = .ok states) :
    Covered K ρ 0 0 ⟨fun _ => 0, fun _ => 0⟩ (w.addNode 0 states).2 := by
  have hsole := Graph.Sole.addNode hg states
  obtain ⟨hdown, hup⟩ := w.statesWith_down_up hs
  have hdown' : (w.addNode 0 states).2.graph.state 0 .down = p.model.fresh .down := by
    rw [Graph.state, hsole.states]
    exact hdown
  have hup' : (w.addNode 0 states).2.graph.state 0 .up = p.model.fresh .up := by
    rw [Graph.state, hsole.states]
    exact hup
  refine ⟨⟨fun l hl => ?_, fun l hl => absurd hl (Nat.not_lt_zero l), hv, hsole.low,
    fun n hn _ => hsole.only_active hn, fun n hn _ => hsole.only_active hn,
    fun _ _ h => absurd h List.not_mem_nil⟩, fun l hl => ?_, fun l hl hk => ?_, fun n hn d => ?_, ho⟩
  · obtain rfl := Nat.le_zero.1 hl
    exact ⟨hsole.isActive, hsole.layerOf⟩
  · obtain rfl := Nat.le_zero.1 hl
    rw [hdown']
    exact K.root
  · obtain rfl := Nat.le_zero.1 hl
    rw [hup']
    rcases hk with hk | ⟨hk, -⟩
    · rw [hk]
      exact K.sink
    · exact K.idle (by rw [show w.upKnown = true from hk] at hu; simpa using hu) 0
  · rw [hsole.only n hn, hsole.layerOf]
    cases d with
    | down =>
      rw [show Direction.down.side = Side.down from rfl, hdown']
      exact fun i => K.weaken (K.root i)
    | up =>
      rw [show Direction.up.side = Side.up from rfl, hup']
      exact fun i => K.blank 0 i

theorem Kept.wp_enforceSupports (hp : p.Distinct) (h : Kept K ρ w) (ht : Tidy p stale [] w) :
    wp (enforceSupports p) (fun _ w' => Kept K ρ w') (fun e _ => e.isConflict = false) w := by
  obtain ⟨t, h⟩ := h
  refine wp.mono (DecisionDiagrams.wp_enforceSupports hp w) (fun _ w' h' => ⟨t, ?_⟩) fun e w' hf => ?_
  · obtain ⟨htrims, -⟩ := h'
    have hg := h.guided.trims ht.toCensus htrims
    refine ⟨hg, ?_, ?_, ?_, fun x v hv hn => ?_⟩
    · rw [htrims.graph]; exact h.down
    · rw [htrims.graph, htrims.upKnown]; exact h.up
    · rw [htrims.graph]; exact h.sound
    · exact htrims.others x hn _ (h.others x v hv hn)
  · obtain ⟨rfl, htrims, hbarren⟩ := hf
    exact ((h.guided.trims ht.toCensus htrims).not_barren (htrims.tidy ht).toCensus hbarren).elim

theorem Kept.wp_enforceDomains (hp : p.Distinct) (h : Kept K ρ w) (ht : Tidy p stale [] w)
    (lost : List Nat) :
    wp (enforceDomains p lost) (fun _ w' => Kept K ρ w') (fun e _ => e.isConflict = false) w := by
  refine wp_enforceDomains_of hp (fun w a ht h ha hv => ?_) ht h lost
  obtain ⟨t, h⟩ := h
  refine wp.mono (Covered.keeps_cutArc hp ha (fun l hl e => ?_) ht h) (fun _ _ k => ⟨t, k.2.2⟩)
    fun _ _ k => k
  subst e
  exact Bool.eq_false_iff.1 hv (h.guided.carries hl hl)

/-- A diagram in which the labels have their trail, or which was not built yet. -/
def Prepared (K : Certificate p.model σ) (ρ : Var → Option Int) (w : Workspace) : Prop :=
  w.built = true ∧ Kept K ρ w ∧ (p.options.isExact = false → p.model.hasUp = true → w.upKnown = true) ∨
    w.built = false ∧ w.upKnown = (!p.model.hasUp) ∧ (∃ k, w.graph = Graph.withLayers k) ∧
      (∀ l < p.model.depth, w.domains.contains (p.model.var l) (σ l) = true) ∧
      Others p ρ w.domains

/-- A diagram is built with a trail for the labels. -/
theorem wp_grow_kept (hp : p.Distinct) (hm : p.model.Plain) (ht : Tidy p stale [] w) {k : Nat}
    (hg : w.graph = Graph.withLayers k) (hu : w.upKnown = !p.model.hasUp)
    (hv : ∀ l < p.model.depth, w.domains.contains (p.model.var l) (σ l) = true)
    (ho : Others p ρ w.domains)
    {width : Option Nat} (hw : width ≠ some 0) :
    wp (grow p width) (fun _ w' => Kept K ρ w') (fun e _ => e.isConflict = false) w := by
  have ht₁ : Tidy p stale [] w.opened := ht.congr rfl rfl rfl ht.cached
  refine wp_grow_of (fun l w' => Tidy p stale [] w' ∧ w'.upKnown = (!p.model.hasUp) ∧ ∃ t, Covered K ρ l 0 t w')
    (fun w' => Tidy p stale [] w' ∧ Kept K ρ w') (fun _ => rfl) (fun states hs => ?_) (fun l hl w' h => ?_)
    (fun w' _ h => ?_) (fun w' _ h => ⟨h.1, h.2.2⟩) fun w' h => h.2.wp_enforceSupports hp h.1
  · exact ⟨ht₁.addNode (Nat.zero_le _) states, hu, _, Covered.start (w := w.opened) hg hu hv ho hs⟩
  · obtain ⟨ht', hu', t, h⟩ := h
    exact wp.mono (h.wp_growLayer hp hm ht' hu' hl hw)
      (fun _ _ k => ⟨k.1, k.2.1.trans hu', k.2.2⟩) fun _ _ k => k
  · refine wp.mono (wp_testNodes_of_nil hm.nodeChecks _) (fun _ w'' e => ?_) fun _ _ h => h
    subst e
    exact ⟨h.1, h.2.2⟩

theorem wp_enforceDomains_kept (hp : p.Distinct) (h : Kept K ρ w) (ht : Tidy p stale [] w) (lost : List Nat) :
    wp (enforceDomains p lost) (fun _ w' =>
      (Tidy p (fun l => stale l ∧ l ∉ lost) [] w' ∧ Evolves w w') ∧ Kept K ρ w') (fun e _ => e.isConflict = false) w :=
  wp.mono (wp.and (wp_enforceDomains hp ht lost) (h.wp_enforceDomains hp ht lost)) (fun _ _ k => k) fun _ _ k => k.2

theorem wp_maintainExact_kept (hp : p.Distinct) (hm : p.model.Plain) (ht : Tidy p stale [] w)
    (h : Prepared K ρ w) (lost : List Nat) :
    wp (maintainExact p lost) (fun _ w' => Kept K ρ w') (fun e _ => e.isConflict = false) w := by
  refine wp_maintainExact_of (fun w' => Tidy p (fun l => stale l ∧ l ∉ lost) [] w' ∧ Kept K ρ w') (fun new => ?_)
    (fun old => ?_) fun w' h => h.2.wp_enforceSupports hp h.1
  · rcases h with ⟨hb, -⟩ | ⟨-, hu, ⟨k, hg⟩, hv, ho⟩
    · exact absurd (new.symm.trans hb) nofun
    · exact wp_grow_kept hp hm ht hg hu hv ho nofun
  · rcases h with ⟨-, h, -⟩ | ⟨hb, -⟩
    · exact wp.mono (wp_enforceDomains_kept hp h ht lost) (fun _ _ k => ⟨k.1.1, k.2⟩) fun _ _ k => k
    · exact absurd (hb.symm.trans old) nofun

theorem wp_completeNodes_upKnown (hp : p.Distinct) (ht : Tidy p stale [] w) :
    wp (completeNodes p) (fun _ w' => w'.upKnown = true) (fun _ _ => True) w := by
  have start : Upkept p stale { w with upKnown := true } { w with upKnown := true } :=
    ⟨ht.congr rfl rfl rfl ht.cached, .refl _⟩
  exact wp.mono ((updater_upkept hp _).toWriter.completeNodes (fun _ => ⟨trivial, trivial⟩) start)
    (fun _ _ k => k.2.upKnown rfl) fun _ _ k => k

/-- The up states of a relaxed diagram are known after its first propagation. -/
theorem wp_maintainRelaxed_upKnown (hp : p.Distinct) (ho : p.options.isValid = true) (fuel : Nat)
    (lost : List Nat) (ht : Tidy p stale [] w)
    (hu : w.built = true → p.model.hasUp = true → w.upKnown = true) :
    wp (maintainRelaxed p fuel lost) (fun _ w' => p.model.hasUp = true → w'.upKnown = true)
      (fun _ _ => True) w := by
  let U : (Nat → Prop) → Workspace → Prop := fun stale w' =>
    Tidy p stale [] w' ∧ (p.model.hasUp = true → w'.upKnown = true)
  have on : ∀ {x : Work PUnit} {stale' w'}, Tidies p stale' x w' → U stale' w' →
      wp x (fun _ => U stale') (fun _ _ => True) w' := fun hx k =>
    wp.mono (hx k.1) (fun _ _ l => ⟨l.1, fun hk => l.2.upKnown (k.2 hk)⟩) fun _ _ _ => trivial
  refine wp_maintainRelaxed_of (Tidy p stale []) (U stale) (U fun l => stale l ∧ l ∉ lost)
    (U fun l => stale l ∧ l ∉ lost) (fun _ => ?_) (fun _ w' h => ?_) (fun hup w' h => ⟨h, fun hk => ?_⟩)
    (fun hb => ⟨ht, hu hb⟩) (fun w' h => ?_) (fun w' h _ => on (tidies_passes hp fuel fuel 0) h) (fun _ _ h _ => h)
    fun w' h => ?_
  · exact wp.mono (wp_grow hp (Options.firstWidth_ne_zero ho) ht) (fun _ _ k => k.1.1) fun _ _ k => k
  · exact wp.mono (wp.and (tidies_completeNodes hp h) (wp_completeNodes_upKnown hp h))
      (fun _ _ k => ⟨k.1.1, fun _ => k.2⟩) fun _ _ k => k.1
  · exact absurd (hup.symm.trans hk) nofun
  · exact wp.mono (wp_enforceDomains hp h.1 lost) (fun _ _ k => ⟨k.1, fun hk => k.2.upKnown (h.2 hk)⟩) fun _ _ k => k
  · exact wp.mono (on (tidies_enforceSupports hp) h) (fun _ _ k => k.2) fun _ _ k => k

theorem wp_maintainRelaxed_kept (hp : p.Distinct) (hm : p.model.Plain)
    (ho : p.options.isValid = true) (he : p.options.isExact = false) (fuel : Nat)
    (ht : Tidy p stale [] w) (h : Prepared K ρ w) (lost : List Nat) :
    wp (maintainRelaxed p fuel lost) (fun _ w' => Kept K ρ w') (fun e _ => e.isConflict = false) w := by
  let I : (Nat → Prop) → Workspace → Prop := fun stale w' => Tidy p stale [] w' ∧ Kept K ρ w'
  let U : (Nat → Prop) → Workspace → Prop := fun stale w' =>
    I stale w' ∧ (p.model.hasUp = true → w'.upKnown = true)
  refine wp_maintainRelaxed_of (I stale) (U stale) (U fun l => stale l ∧ l ∉ lost) (I fun l => stale l ∧ l ∉ lost)
    (fun new => ?_) (fun _ w' h => ?_) (fun hup w' h => ⟨h, fun hk => absurd (hup.symm.trans hk) nofun⟩)
    (fun old => ?_) (fun w' h => ?_) (fun w' h _ => ?_) (fun _ _ h _ => h.1) fun w' h => h.2.wp_enforceSupports hp h.1
  · rcases h with ⟨hb, -⟩ | ⟨-, hu, ⟨k, hg⟩, hv, ho'⟩
    · exact absurd (new.symm.trans hb) nofun
    · exact wp.mono (wp.and (wp_grow hp (Options.firstWidth_ne_zero ho) ht)
        (wp_grow_kept hp hm ht hg hu hv ho' (Options.firstWidth_ne_zero ho)))
        (fun _ _ k => ⟨k.1.1.1, k.2⟩) fun _ _ k => k.2
  · exact wp.mono (wp.and (keeps_completeNodes hp hm h.1 h.2) (wp_completeNodes_upKnown hp h.1))
      (fun _ _ k => ⟨⟨k.1.1, k.1.2.2⟩, fun _ => k.2⟩) fun _ _ k => k.1
  · rcases h with ⟨-, h, hu⟩ | ⟨hb, -⟩
    · exact ⟨⟨ht, h⟩, hu he⟩
    · exact absurd (hb.symm.trans old) nofun
  · exact wp.mono (wp_enforceDomains_kept hp h.1.2 h.1.1 lost)
      (fun _ _ k => ⟨⟨k.1.1, k.2⟩, fun hk => k.1.2.upKnown (h.2 hk)⟩) fun _ _ k => k
  · exact wp.mono (keeps_passes hp hm fuel fuel 0 h.2 h.1.1 h.1.2) (fun _ _ k => ⟨k.1, k.2.2⟩) fun _ _ k => k

end DecisionDiagrams
