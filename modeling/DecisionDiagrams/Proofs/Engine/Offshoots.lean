import DecisionDiagrams.Proofs.Engine.Ending
import DecisionDiagrams.Proofs.Engine.Mirroring

/-! Splitting folds back. The nodes which are split off a node all stand beside it; a copied arc has the
label and the end of the arc it was copied from, and a moved arc replaces one which is taken out at once. So
the arcs of the new nodes are those which the old node had, and no node ever keeps two arcs with one label. A
diagram is built that way, with one root, since the children of a layer are collected branch by branch. -/

namespace DecisionDiagrams

open Work Cascade

/-- The node from which a node was split off, if only `n` was split since. -/
def Workspace.original (w₀ : Workspace) (n m : NodeId) : NodeId :=
  if m < w₀.graph.nodes.size then m else n

/-- Since `w₀` nodes were only split off `n`. -/
structure Offshoots (n : NodeId) (w₀ w : Workspace) : Prop extends Evolves w₀ w where
  layer : ∀ m < w.graph.nodes.size, w₀.graph.nodes.size ≤ m → w.graph.layerOf m = w₀.graph.layerOf n
  arc : ∀ a, w.graph.arcIsActive a = true → ∃ b, w₀.graph.arcIsActive b = true ∧
    (w₀.graph.arc b).parent = w₀.original n (w.graph.arc a).parent ∧
    (w₀.graph.arc b).child = w₀.original n (w.graph.arc a).child ∧
    (w₀.graph.arc b).value = (w.graph.arc a).value
  deterministic : Deterministic w₀ → Deterministic w
  spent : w₀.graph.nodes.size + w₀.budget ≤ w.graph.nodes.size + w.budget

namespace Offshoots

variable {p : Plan} {n : NodeId} {w₀ w w' : Workspace}

theorem original_old {m : NodeId} (h : m < w₀.graph.nodes.size) : w₀.original n m = m := if_pos h

theorem original_new {m : NodeId} (h : w₀.graph.nodes.size ≤ m) : w₀.original n m = n :=
  if_neg (Nat.not_lt.2 h)

theorem refl (n : NodeId) (hw : w.graph.Wf) : Offshoots n w w :=
  { Evolves.refl w with
    layer := fun _ hm hge => absurd hm (Nat.not_lt.2 hge)
    arc := fun a ha => ⟨a, ha, (original_old (hw.parent_lt ha)).symm, (original_old (hw.child_lt ha)).symm, rfl⟩
    deterministic := id
    spent := Nat.le_refl _ }

/-- Nodes which stand beside an active one fold back onto it. -/
theorem folds (h : Offshoots n w₀ w) (on : w₀.graph.isActive n = true) :
    Graph.Folds (w₀.original n) w₀.graph w.graph := by
  refine ⟨fun m hm => ?_, h.arc⟩
  have hlt := Graph.lt_of_isActive _ hm
  by_cases hold : m < w₀.graph.nodes.size
  · rw [original_old hold]
    exact ⟨h.active m hold hm, (h.layerOf m hold).symm⟩
  · rw [original_new (Nat.not_lt.1 hold)]
    exact ⟨on, (h.layer m hlt (Nat.not_lt.1 hold)).symm⟩

theorem retraces (h : Offshoots n w₀ w) (on : w₀.graph.isActive n = true) : Retraces w₀ w :=
  { h.toEvolves with
    folds := ⟨_, h.folds on, fun _ hm => original_old hm⟩
    deterministic := h.deterministic
    spent := h.spent }

theorem shrink (h : Offshoots n w₀ w) (hs : Shrinks w w') : Offshoots n w₀ w' :=
  { h.toEvolves.trans (.of_shrinks hs) with
    layer := fun m hm hge => (hs.layerOf m).trans (h.layer m (Nat.lt_of_lt_of_eq hm hs.nodes) hge)
    arc := fun a ha => by
      rw [hs.parent, hs.child, hs.value]
      exact h.arc a (hs.arcActive a ha)
    deterministic := fun hd => (h.deterministic hd).shrink hs
    spent := by rw [hs.nodes, hs.budget]; exact h.spent }

/-- A new node beside the old one, which is paid for. -/
theorem addNode (h : Offshoots n w₀ w) (inner : 0 < w₀.graph.layerOf n) (s : BySide State) :
    Offshoots n w₀ (w.splitNode (w₀.graph.layerOf n) s) := by
  have he := (Adds.splitNode (w₀.graph.layerOf n) s w).toEvolves
  have cases : ∀ m < (w.splitNode (w₀.graph.layerOf n) s).graph.nodes.size,
      m < w.graph.nodes.size ∨ m = w.graph.nodes.size := fun m hm =>
    Nat.lt_succ_iff_lt_or_eq.1 (Nat.lt_of_lt_of_eq hm Workspace.size_splitNode)
  refine { h.toEvolves.trans he with
    layer := fun m hm hge => ?_, arc := h.arc, deterministic := fun hd => ?_, spent := ?_ }
  · rcases cases m hm with hlt | rfl
    · exact (he.layerOf m hlt).trans (h.layer m hlt hge)
    · exact Workspace.layerOf_splitNode_self
  · have hd := h.deterministic hd
    -- the new node is no root
    have old : ∀ m, (w.splitNode (w₀.graph.layerOf n) s).graph.isActive m = true →
        (w.splitNode (w₀.graph.layerOf n) s).graph.layerOf m = 0 →
        w.graph.isActive m = true ∧ w.graph.layerOf m = 0 := by
      intro m hm h0
      rcases cases m (Graph.lt_of_isActive _ hm) with hlt | rfl
      · exact ⟨he.active m hlt hm, (he.layerOf m hlt).symm.trans h0⟩
      · exact absurd (Workspace.layerOf_splitNode_self.symm.trans h0) (Nat.ne_of_gt inner)
    exact ⟨hd.single, fun m k hm hk h0 h0' =>
      hd.roots m k (old m hm h0).1 (old k hk h0').1 (old m hm h0).2 (old k hk h0').2⟩
  · have := h.spent
    rw [Workspace.size_splitNode]
    show _ ≤ w.graph.nodes.size + 1 + (w.budget - 1)
    omega

/-- An arc is added beside one which the old node has, and then something is taken away. No arc with the label of
the new one may be left. -/
theorem link (h : Offshoots n w₀ w) {q c : NodeId} {v : Int} {w₁ : Workspace} (k : Links q c v w w₁)
    (hs : Shrinks w₁ w') (original : ∃ b, w₀.graph.arcIsActive b = true ∧
      (w₀.graph.arc b).parent = w₀.original n q ∧ (w₀.graph.arc b).child = w₀.original n c ∧
      (w₀.graph.arc b).value = v)
    (fresh : Deterministic w → ∀ b, w'.graph.arcIsActive b = true → w.graph.arcIsActive b = true →
      (w.graph.arc b).parent = q → (w.graph.arc b).value ≠ v) : Offshoots n w₀ w' := by
  refine { (h.toEvolves.trans k.adds.toEvolves).trans (.of_shrinks hs) with
    layer := fun m hm hge => ?_, arc := fun b hb => ?_, deterministic := fun hd => ?_, spent := ?_ }
  · rw [hs.layerOf, k.layerOf]
    exact h.layer m (Nat.lt_of_lt_of_eq hm (hs.nodes.trans k.size)) hge
  · rw [hs.parent, hs.child, hs.value]
    rcases k.arc_cases (hs.arcActive b hb) with ⟨on, e⟩ | ⟨-, rfl, rfl, rfl⟩
    · rw [e]
      exact h.arc b on
    · exact original
  · have hd := h.deterministic hd
    refine ⟨fun b c hb hc hp hv => ?_, fun m l hm hl h0 h0' => ?_⟩
    · rw [hs.parent, hs.parent] at hp
      rw [hs.value, hs.value] at hv
      rcases k.arc_cases (hs.arcActive b hb) with ⟨onb, eb⟩ | ⟨rfl, hpb, -, hvb⟩
      · rcases k.arc_cases (hs.arcActive c hc) with ⟨onc, ec⟩ | ⟨rfl, hpc, -, hvc⟩
        · rw [eb, ec] at hp hv
          exact hd.single b c onb onc hp hv
        · rw [eb] at hp hv
          exact absurd (hv.trans hvc) (fresh hd b hb onb (hp.trans hpc))
      · rcases k.arc_cases (hs.arcActive c hc) with ⟨onc, ec⟩ | ⟨rfl, -⟩
        · rw [ec] at hp hv
          exact absurd (hv.symm.trans hvb) (fresh hd c hc onc (hp.symm.trans hpb))
        · rfl
    · have hm := hs.active m hm
      have hl := hs.active l hl
      rw [k.isActive] at hm hl
      rw [hs.layerOf, k.layerOf] at h0 h0'
      exact hd.roots m l hm hl h0 h0'
  · rw [hs.nodes, hs.budget, k.size, k.budget]
    exact h.spent

end Offshoots

section

variable {p : Plan} {n new : NodeId} {layer : Nat} {w₀ w : Workspace}

/-- While nodes are split off `n`. -/
abbrev Branches (p : Plan) (n : NodeId) (w₀ w w' : Workspace) : Prop :=
  Filed p w' ∧ Evolves w w' ∧ Offshoots n w₀ w'

theorem Branches.goesOn {α : Type} {R : Workspace → Workspace → Prop} {x : Work α} {w' : Workspace}
    (h : Throughout p R x w') (hr : ∀ w'', R w' w'' → Evolves w' w'' ∧ Offshoots n w₀ w'') (k : Branches p n w₀ w w') :
    wp x (fun _ w'' => Branches p n w₀ w w'' ∧ Evolves w' w'') (fun _ => Branches p n w₀ w) w' :=
  wp.mono (h k.1) (fun _ w'' l => ⟨⟨l.1, k.2.1.trans (hr w'' l.2).1, (hr w'' l.2).2⟩, (hr w'' l.2).1⟩)
    fun _ w'' l => ⟨l.1, k.2.1.trans (hr w'' l.2).1, (hr w'' l.2).2⟩

/-- The arcs of the new node carry the labels of arcs of the old one which are not left to be copied. -/
def Copied (n new : NodeId) (w : Workspace) (left : List ArcId) (w' : Workspace) : Prop :=
  left.Nodup ∧ ∀ b, w'.graph.arcIsActive b = true → (w'.graph.arc b).parent = new →
    ∃ c, c ∉ left ∧ c ∈ w.graph.outgoing n ∧ (w.graph.arc c).value = (w'.graph.arc b).value

theorem Copied.tail {w' : Workspace} {a : ArcId} {left : List ArcId} (h : Copied n new w (a :: left) w') :
    Copied n new w left w' :=
  ⟨h.1.of_cons, fun b hb hp => (h.2 b hb hp).imp fun _ hc => ⟨fun hm => hc.1 (List.mem_cons_of_mem _ hm), hc.2⟩⟩

/-- The new node gets a copy of an arc whose label none of its arcs has. -/
theorem branches_copyArc {w' : Workspace} {a : ArcId} {left : List ArcId} (hw : w.graph.Wf)
    (hl : w.graph.layerOf n = layer) (hn₀ : n < w₀.graph.nodes.size) (hge : w₀.graph.nodes.size ≤ w.graph.nodes.size)
    (hs : Stocks layer w w') (ha : a ∈ w.graph.outgoing n) (h : Branches p n w₀ w w')
    (hcov : Copied n w.graph.nodes.size w (a :: left) w') :
    wp (copyArc p w.graph.nodes.size a)
      (fun _ w'' => Branches p n w₀ w w'' ∧ Copied n w.graph.nodes.size w left w'')
      (fun _ => Branches p n w₀ w) w' := by
  obtain ⟨hf, he, ho⟩ := h
  obtain ⟨on, hpar, hchild, hlay⟩ := hs.source hw hl ha
  refine wp_copyArc (fun _ => ⟨hf, he, ho⟩) (fun _ => ⟨⟨hf, he, ho⟩, hcov.tail⟩) fun _ => ?_
  have links := Workspace.links_copying p hs.sprouts.new_lt hchild
  have old : ∀ {c}, c ∈ w.graph.outgoing n → w'.graph.arcIsActive c = true ∧ (w'.graph.arc c).parent = n ∧
      (w'.graph.arc c).value = (w.graph.arc c).value := fun hc => by
    obtain ⟨on, hpar, -⟩ := hs.source hw hl hc
    exact ⟨on, hpar, hs.value _ (Graph.lt_of_arcIsActive _ (hw.mem_outgoing.1 hc).1)⟩
  refine ⟨⟨hf.copying hs.sprouts.new_lt hchild ?_, he.trans links.adds.toEvolves,
    ho.link links (.refl _) ?_ fun hd b _ onb hpb hv => ?_⟩, hcov.tail.1, fun b hb hpb => ?_⟩
  · rw [hlay, hs.layerOf_new]
  · obtain ⟨b, onb, hp, hc, hv⟩ := ho.arc a on
    exact ⟨b, onb, by rw [hp, hpar, Offshoots.original_old hn₀, Offshoots.original_new hge], hc, hv⟩
  · obtain ⟨c, hc, hout, hvc⟩ := hcov.2 b onb hpb
    refine hc (List.mem_cons.2 (Or.inl (hd.single c a (old hout).1 on ?_ ?_)))
    · rw [(old hout).2.1, hpar]
    · rw [(old hout).2.2, hvc, hv]
  · rcases links.arc_cases hb with ⟨onb, e⟩ | ⟨-, -, -, hv⟩
    · rw [e] at hpb ⊢
      exact hcov.tail.2 b onb hpb
    · exact ⟨a, (List.nodup_cons.1 hcov.1).1, ha, by rw [hv, (old ha).2.2]⟩

/-- An arc into the old node is replaced by one into a new node. -/
theorem branches_moveArc {a : ArcId} (hn₀ : n < w₀.graph.nodes.size) (hge : w₀.graph.nodes.size ≤ new)
    (hnew : new < w.graph.nodes.size) (hch : (w.graph.arc a).child = n)
    (hl : w.graph.layerOf n = w.graph.layerOf new) (ho : Offshoots n w₀ w) :
    Throughout p (fun w w' => Evolves w w' ∧ Offshoots n w₀ w') (moveArc p new a) w := by
  intro hf
  refine wp_moveArc (fun _ => ⟨hf, .refl w, ho⟩) fun on => ?_
  have hp := hf.wf.parent_lt on
  have links := Workspace.links_redirecting p hp hnew
  have hf₁ : Filed p (w.redirecting p new a) := hf.redirecting on hnew (by rw [hch, hl])
  have on₁ := links.adds.arcActive_of a on
  -- adding the new arc and taking out the old one is one step, as in between two arcs have one label
  have step : ∀ {w'}, Shrinks ((w.redirecting p new a).unhook a) w' → Evolves w w' ∧ Offshoots n w₀ w' := fun hs => by
    have hall := (shrinks_unhook hf₁.wf on₁).trans hs
    refine ⟨links.adds.toEvolves.trans (.of_shrinks hall), ho.link links hall ?_ fun hd b hb onb hpb hv => ?_⟩
    · obtain ⟨b, onb, hpb, hc, hv⟩ := ho.arc a on
      exact ⟨b, onb, hpb, by rw [hc, hch, Offshoots.original_old hn₀, Offshoots.original_new hge], hv⟩
    · exact ((Graph.arcIsActive_detach (hf₁.wf.listed a) b).1 (hs.arcActive b hb)).1 (hd.single b a onb on hpb hv)
  exact wp.mono (wp_cutArc_shrinks hf₁ on₁) (fun _ _ k => ⟨k.1, step k.2⟩) fun _ _ k => ⟨k.1, step k.2⟩

/-- A bundle becomes a node beside the old one. -/
theorem branches_splitOff {c : Candidate} (inner : 0 < layer) (hn₀ : n < w₀.graph.nodes.size)
    (ho : Offshoots n w₀ w) (hc : c.Enters layer n w) (hf : Filed p w) :
    wp (splitOff p n layer c) (fun _ => Branches p n w₀ w) (fun _ => Branches p n w₀ w) w := by
  have hl₀ : w₀.graph.layerOf n = layer := (ho.layerOf n hn₀).symm.trans hc.layerOf
  have removed : ∀ {w'}, Throughout p Shrinks (dropNode p w.graph.nodes.size) w' := fun {w'} => traces_dropNode _
  refine wp_splitOff (fun left w' => Branches p n w₀ w w' ∧ Copied n w.graph.nodes.size w left w')
    (fun _ => Branches p n w₀ w) hf.wf hc (fun _ => ⟨hf, .refl w, ho⟩) (fun states _ => ?_)
    (fun a left w' hs ha k => branches_copyArc hf.wf hc.layerOf hn₀ ho.nodes hs ha k.1 k.2)
    (fun _ _ k => k.1) (fun a left w' hs hc' ha k => ?_) fun w' hs k => ?_
  · refine ⟨⟨hf.splitNode (hf.le_depth hc) states, (Adds.splitNode layer states w).toEvolves, ?_⟩,
      hf.wf.nodup_outgoing n, fun b hb hp => absurd hp (Nat.ne_of_lt (hf.wf.parent_lt hb))⟩
    exact hl₀ ▸ ho.addNode (hl₀.symm ▸ inner) states
  · refine k.goesOn (branches_moveArc hn₀ ho.nodes hs.new_lt (hc'.arcs a ha).2 ?_ k.2.2) fun _ h => h
    rw [hc'.layerOf, hs.layerOf_new]
  · have k' : Branches p n w₀ w (w'.schedule p .up .full w.graph.nodes.size) :=
      ⟨k.1.schedule _ _ _, k.2.1.trans (.schedule p _ _ _ _), k.2.2.shrink (shrinks_schedule _ _ _)⟩
    refine wp_dropUseless (fun _ => k') (fun _ => k') (fun _ => ?_) fun _ _ _ => k'
    exact wp.mono (k'.goesOn removed fun _ h => ⟨.of_shrinks h, k'.2.2.shrink h⟩) (fun _ _ h => h.1) fun _ _ h => h

/-- Some bundles of an active node become nodes beside it. -/
theorem traces_splitOffs {cs ds : List Candidate} (hb : Bundled p layer n cs w) (sub : ds ⊆ cs) :
    Throughout p Retraces (ds.forM (splitOff p n layer)) w := by
  intro hf
  have back : ∀ {w'}, Filed p w' ∧ Offshoots n w w' → Followed p Retraces w w' := fun k =>
    ⟨k.1, k.2.retraces hb.active⟩
  refine wp.mono (hb.wp_splitOffs (I := fun w' => Filed p w' ∧ Offshoots n w w')
    (E := fun _ w' => Filed p w' ∧ Offshoots n w w') hf.wf sub ⟨hf, .refl n hf.wf⟩ fun c hc w' he hc' k => ?_)
    (fun _ _ k => back k) fun _ _ k => back k
  exact wp.mono (branches_splitOff hb.pos hb.lt k.2 hc' k.1) (fun _ _ l => ⟨⟨l.1, l.2.2⟩, l.2.1⟩)
    fun _ _ l => ⟨l.1, l.2.2⟩

theorem traces_splitNodes (maxWidth fuel : Nat) (tried : List NodeId) :
    Throughout p Retraces (splitNodes p layer maxWidth fuel tried) w := by
  intro hf
  refine Splitter.wp_splitNodes (I := fun _ => Followed p Retraces w) ?_ fuel ⟨hf, .refl w⟩
  exact
    { sound := fun h => ⟨h.1.wf, h.1.cached⟩
      quiet := fun hq h => ⟨h.1.quiet hq, h.2.trans (.quiet hq)⟩
      faults := fun _ h => h
      exhausted := fun h => h
      full := fun h _ => h
      done := fun h _ => h
      kept := fun _ _ h => h
      adopt := fun hb h => (traces_adoptState hb.lt (fun _ => Nat.zero_le _) _).retraces.goesOn h
      discard := fun _ h => wp.mono ((traces_discardDead _ layer _).retraces.goesOn h)
        (fun _ _ h _ => ⟨h.1.quiet (.tally _ _), h.2.trans (.quiet (p := p) (.tally _ _))⟩) fun _ _ h => h
      split := fun hb hd _ h =>
        (traces_splitOffs hb fun _ hc => hd.subset (List.mem_of_mem_take hc)).goesOn h }

/-! ### Passes -/

theorem upSweeper_mends (top : Nat) (w : Workspace) :
    UpSweeper p (Followed p (Mends top) w) fun _ => Followed p (Mends top) w where
  tally f h := ⟨h.1.quiet (.tally f _), h.2.trans (.quiet (p := p) (.tally f _))⟩
  exhausted h := h
  up _ _ _ h := (traces_recomputeLayer (d := .up) nofun).goesOn h

theorem traces_sweepUp (hup : p.model.hasUp = true) (top fuel : Nat) :
    Throughout p (Mends top) (sweepUp p fuel) w := fun h => (upSweeper_mends top w).sweepUp hup fuel ⟨h, .refl w⟩

/-- Down passes stay below the root, because no down state is computed there. -/
theorem nextDown_pos (hw : Filed p w) (inner : 0 < layer) : 0 < nextDown w layer := by
  unfold nextDown
  split
  · rename_i l hl
    obtain ⟨e, he⟩ := List.exists_mem_of_ne_nil _ (Agenda.waiting_of_shallowest_eq_some hl)
    exact Nat.lt_min.2 ⟨inner, (hw.suits .down l e he).2.2⟩
  · exact inner

theorem traces_passes (fuel rounds done : Nat) (w : Workspace) :
    Throughout p Retraces (passes p fuel rounds done) w := by
  intro hf
  have S : Sweeper p fuel (Followed p Retraces w) fun _ => Followed p Retraces w :=
    { tally := fun f h => ⟨h.1.quiet (.tally f _), h.2.trans (.quiet (p := p) (.tally f _))⟩
      exhausted := fun h => h
      up := fun _ _ _ h => (traces_recomputeLayer (d := .up) nofun).retraces.goesOn h
      down := fun _ h => (traces_recomputeLayer fun _ => Nat.zero_le _).retraces.goesOn h
      split := fun _ h => (traces_splitNodes _ _ _).goesOn h }
  exact wp.mono (S.passes rounds done ⟨hf, .refl w⟩) (fun _ _ k => k.1) fun _ _ k => k

/-- A propagation of a built diagram gains no path and no second arc with a label. -/
theorem traces_maintain (fuel : Nat) (lost : List Nat) (hb : w.built = true) :
    Throughout p Retraces (if p.options.isExact then maintainExact p lost else maintainRelaxed p fuel lost) w := by
  intro hf
  have domains : ∀ {w'}, Followed p Retraces w w' → wp (enforceDomains p lost) (fun _ => Followed p Retraces w)
      (fun _ => Followed p Retraces w) w' := (traces_enforceDomains lost).retraces.goesOn
  have supports : ∀ w', Followed p Retraces w w' → wp (enforceSupports p) (fun _ => Followed p Retraces w)
      (fun _ => Followed p Retraces w) w' := fun _ => traces_enforceSupports.retraces.goesOn
  have old : w.built ≠ false := by simp [hb]
  split_ifs
  · exact wp_maintainExact_of (Followed p Retraces w) (fun h => absurd h old) (fun _ => domains ⟨hf, .refl w⟩) supports
  · refine wp_maintainRelaxed_of (Followed p Retraces w) (Followed p Retraces w) (Followed p Retraces w)
      (Followed p Retraces w) (fun h => absurd h old) (fun _ _ h => ?_) (fun _ _ h => h) (fun _ => ⟨hf, .refl w⟩)
      (fun _ h => domains h) (fun _ h _ => (traces_passes fuel fuel 0 _).goesOn h) (fun _ _ h _ => h) supports
    exact traces_completeNodes.retraces.goesOn h

end

/-! ### The first propagation -/

section

variable {p : Plan} {stale : Nat → Prop} {w : Workspace} {width : Option Nat}

/-- What is known of a diagram while the layer below `l` is next: nothing was drawn from the budget `b`. -/
structure Sprouting (p : Plan) (stale : Nat → Prop) (b l : Nat) (w : Workspace) : Prop where
  filed : Filed p w
  tidy : Tidy p stale [] w
  deterministic : Deterministic w
  low : ∀ n < w.graph.nodes.size, w.graph.layerOf n ≤ l
  unspent : b ≤ w.budget

theorem Sprouting.growLayer (hp : p.Distinct) (hw : width ≠ some 0) {b l : Nat} (hl : l < p.model.depth)
    (h : Sprouting p stale b l w) :
    wp (Work.growLayer p width l) (fun _ w' => Sprouting p stale b (l + 1) w') (Halts p) w := by
  refine wp.mono (wp.and (lasts_growLayer hp hw hl h.tidy h.filed) (wp_growLayer hw hl h.tidy))
    (fun _ w' k => ?_) fun _ _ k => k.1
  obtain ⟨⟨hf, ht, -⟩, w₁, ds, ht₁, hlay, hs, -⟩ := k
  have hshrinks := Steps.shrinks hs ht₁.toCensus
  refine ⟨hf, ht, (h.deterministic.layered h.tidy.wf h.low hlay).shrink hshrinks, fun n hn => ?_, ?_⟩
  · rw [hshrinks.layerOf]
    exact hlay.low h.low n (Nat.lt_of_lt_of_eq hn hshrinks.nodes)
  · rw [hshrinks.budget, hlay.laid.budget]
    exact h.unspent

/-- The root alone. -/
theorem determined_root {k : Nat} (hg : w.graph = Graph.withLayers k) (states : BySide State) :
    Deterministic (w.addNode 0 states).2 ∧
      ∀ n < (w.addNode 0 states).2.graph.nodes.size, (w.addNode 0 states).2.graph.layerOf n ≤ 0 := by
  have size : (w.addNode 0 states).2.graph.nodes.size = 1 := by
    show (w.graph.appendNode 0 states).2.nodes.size = 1
    rw [Graph.size_appendNode, hg]
    rfl
  have zero : ∀ n < (w.addNode 0 states).2.graph.nodes.size, n = 0 := fun n hn => by omega
  have arcless : ∀ a, (w.addNode 0 states).2.graph.arcIsActive a ≠ true := fun a ha => by
    have := Graph.lt_of_arcIsActive _ ha
    change a < w.graph.arcs.size at this
    rw [hg] at this
    exact absurd this (Nat.not_lt_zero a)
  refine ⟨⟨fun a _ ha => absurd ha (arcless a), fun n m hn hm _ _ => ?_⟩, fun n hn => ?_⟩
  · rw [zero n (Graph.lt_of_isActive _ hn), zero m (Graph.lt_of_isActive _ hm)]
  · obtain rfl := zero n hn
    have self : (w.addNode 0 states).2.graph.node w.graph.nodes.size = _ :=
      Graph.node_appendNode_self w.graph 0 states
    rw [show w.graph.nodes.size = 0 by rw [hg]; rfl] at self
    rw [Graph.layerOf, self]

/-- How a propagation stops: after a conflict the diagram is built and its graph agrees with itself. -/
def Unharmed (p : Plan) (e : Stop) (w : Workspace) : Prop :=
  e.isConflict = true → Census p w ∧ w.built = true

theorem Filed.unharmed (h : Filed p w) (e : Stop) : Unharmed p e w := fun _ => ⟨h.toCensus, h.built⟩

/-- A step of a diagram with one root and single labels. -/
theorem Throughout.determined {x : Work PUnit} (h : Throughout p Retraces x w) (hf : Filed p w)
    (hd : Deterministic w) : wp x (fun _ w' => Filed p w' ∧ Deterministic w') (Unharmed p) w :=
  wp.mono (h hf) (fun _ _ k => ⟨k.1, k.2.deterministic hd⟩) fun e _ k => k.1.unharmed e

theorem determined_grow (hp : p.Distinct) (hw : width ≠ some 0) {k : Nat} (hg : w.graph = Graph.withLayers k)
    (ht : Tidy p stale [] w) (hs : w.agenda.Suits p w.graph) :
    wp (grow p width) (fun _ w' => Filed p w' ∧ Deterministic w' ∧ w.budget ≤ w'.budget) (Unharmed p) w := by
  let J : Workspace → Prop := fun w' => Filed p w' ∧ Deterministic w' ∧ w.budget ≤ w'.budget
  have on : ∀ {x : Work PUnit} {w'}, Throughout p (Mends 0) x w' → J w' → wp x (fun _ => J) (Unharmed p) w' :=
    fun hx h => wp.mono (hx h.1) (fun _ _ k => ⟨k.1, k.2.deterministic h.2.1, h.2.2.trans k.2.paid⟩)
      fun e _ k => k.1.unharmed e
  have ht₁ : Tidy p stale [] w.opened := ht.congr rfl rfl rfl ht.cached
  have hf₁ : Filed p w.opened :=
    { ht.toCensus.congr rfl rfl with built := rfl, cached := ht.cached, suits := hs }
  refine wp_grow_of (Sprouting p stale w.budget) J (fun _ => hf₁.unharmed _) (fun states _ => ?_)
    (fun l hl w' h => ?_) (fun w' _ h => on traces_testNodes ⟨h.filed, h.deterministic, h.unspent⟩)
    (fun w' _ h => ⟨h.filed, h.deterministic, h.unspent⟩) fun w' h => on traces_enforceSupports h
  · have root := determined_root (w := w.opened) hg states
    exact ⟨hf₁.addNode (Nat.zero_le _) states, ht₁.addNode (Nat.zero_le _) states, root.1, root.2, Nat.le_refl _⟩
  · exact wp.mono (h.growLayer hp hw hl) (fun _ _ k => k) fun _ _ k => k.2

/-- A propagation of a diagram which is not built yet. -/
theorem determined_first (hp : p.Distinct) (hv : p.options.isValid = true) (fuel : Nat) (lost : List Nat) {k : Nat}
    (hb : w.built = false) (hg : w.graph = Graph.withLayers k) (ht : Tidy p stale [] w)
    (hs : w.agenda.Suits p w.graph) :
    wp (if p.options.isExact then maintainExact p lost else maintainRelaxed p fuel lost)
      (fun _ w' => Filed p w' ∧ Deterministic w') (Unharmed p) w := by
  let J : Workspace → Prop := fun w' => Filed p w' ∧ Deterministic w'
  have grows : ∀ {width}, width ≠ some 0 → wp (grow p width) (fun _ => J) (Unharmed p) w := fun hw =>
    wp.mono (determined_grow hp hw hg ht hs) (fun _ _ k => ⟨k.1, k.2.1⟩) fun _ _ k => k
  have on : ∀ {x : Work PUnit} {w'}, Throughout p Retraces x w' → J w' → wp x (fun _ => J) (Unharmed p) w' :=
    fun hx h => hx.determined h.1 h.2
  have new : w.built ≠ true := by simp [hb]
  split_ifs
  · exact wp_maintainExact_of J (fun _ => grows (by simp)) (fun h => absurd h new)
      fun _ h => on traces_enforceSupports.retraces h
  · exact wp_maintainRelaxed_of J J J J (fun _ => grows (Options.firstWidth_ne_zero hv))
      (fun _ _ h => on traces_completeNodes.retraces h) (fun _ _ h => h) (fun h => absurd h new)
      (fun _ h => on (traces_enforceDomains lost).retraces h) (fun _ h _ => on (traces_passes fuel fuel 0 _) h)
      (fun h => absurd h new) fun _ h => on traces_enforceSupports.retraces h

end

end DecisionDiagrams
