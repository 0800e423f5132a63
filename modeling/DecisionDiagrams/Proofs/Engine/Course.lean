import DecisionDiagrams.Proofs.Engine.Room

/-! The course of a whole propagation, made in two workspaces at once. A diagram is built first and refined from
then on: only while it is built nodes are added without being paid for, and only while it is refined nodes are
split and bundles which lead nowhere are discarded. -/

namespace DecisionDiagrams

open Work

variable {p : Plan} {b : Bool} {R E : Workspace → Workspace → Prop} {w w' : Workspace}

/-! ### Splitting -/

theorem lockstep_candidatesOf (B : Bond p b R) (n : NodeId) (layer : Nat) :
    Lockstep R (candidatesOf p n layer) (candidatesOf (p.caching b) n layer) w w' := by
  refine B.get_bind fun _ _ _ _ => .foldlM (fun cs a _ _ => B.get_bind fun _ _ _ _ => ?_) _
  refine .bind (B.along .down _ _ _) fun down _ _ _ => ?_
  exact .ite (fun _ => .lift_bind fun _ _ => .lift _) fun _ => .lift _

/-- The bundles hold incoming arcs of the node. -/
theorem rwp_candidatesOf (B : Bond p b R) (n : NodeId) (layer : Nat) (h : R w w') :
    rwp (candidatesOf p n layer) (candidatesOf (p.caching b) n layer)
      (fun cs u u' => (R u u' ∧ Evolves w u) ∧ ∀ c ∈ cs, ∀ a ∈ c.arcs, a ∈ w.graph.incoming n) R w w' := by
  refine ((lockstep_candidatesOf B n layer h).and_wp (F := fun _ => True)
    (wp.mono (computes_candidatesOf (B.cached h) n layer) (fun cs u k c hc a ha => ?_)
      fun _ _ _ => trivial)).mono (fun _ _ _ k => k) fun _ _ k => k.1
  have sorted := sorted_bundleUp _ (.nil _ _) k.2
  rw [List.nil_append] at sorted
  exact Array.mem_toList_iff.1 (sorted.perm.subset (List.mem_flatMap.2 ⟨c, hc, ha⟩))

/-- A bundle was discarded for which the refinement did not move back yet. -/
def Workspace.Owes (w : Workspace) : Prop := w.counters.reboots < w.counters.candidatesPruned

theorem Workspace.Owes.subsides (k : Subsides w w') (h : w.Owes) : w'.Owes :=
  Nat.lt_of_lt_of_le (Nat.lt_of_le_of_lt (Nat.le_of_eq k.reboots) h) k.pruned

theorem rwp_discard (B : Bond p b R) (c : Candidate) (h : R w w') :
    rwp (discard p c) (discard (p.caching b) c) (fun _ u u' => (R u u' ∧ Evolves w u) ∧ u.Owes) R w w' := by
  have fits : (Edit.tally fun t => { t with candidatesPruned := t.candidatesPruned + 1 }).Fits p w :=
    ⟨fun _ _ _ => rfl, fun _ => ⟨rfl, rfl, rfl, rfl, rfl, Nat.le_succ _⟩⟩
  obtain ⟨counted, evolves⟩ := B.after _ rfl fits h
  have owes := Nat.lt_succ_of_le (B.orderly h).reboots
  have B' := B.and (J := Workspace.Owes) fun _ _ => Workspace.Owes.subsides
  refine rwp_modify_bind ((Lockstep.keeps (.forM _ fun a _ _ _ _ => ?_) counted owes).mono
    (fun _ _ _ k => ⟨⟨k.1.1, evolves.trans k.2⟩, k.1.2⟩) fun _ _ k => k)
  exact lockstep_retestArc B' (fun _ _ _ _ _ => rfl) a

theorem rwp_discardDead (B : Bond p b R) (n : NodeId) (layer : Nat) (cs : List Candidate) (h : R w w') :
    rwp (discardDead p n layer cs) (discardDead (p.caching b) n layer cs)
      (fun dead u u' => (R u u' ∧ Evolves w u) ∧ (dead = true → u.Owes)) R w w' := by
  refine rwp_foldlM (fun _ dead u u' => (R u u' ∧ Evolves w u) ∧ (dead = true → u.Owes)) _
    ⟨⟨h, .refl w⟩, nofun⟩ (fun c rest dead u u' k => ?_) fun _ _ _ k => k
  obtain ⟨⟨hR, evolves⟩, owes⟩ := k
  obtain ⟨cache, hits, misses, rfl⟩ := B.alike hR
  refine rwp_get_bind (rwp_lift_bind (fun continues _ => ?_) hR)
  refine rwp_ite (fun _ => rwp_pure ⟨⟨hR, evolves⟩, owes⟩) fun _ => ?_
  refine rwp_bind (rwp_discard B c hR) fun _ v v' k => rwp_pure ⟨⟨k.1.1, evolves.trans k.1.2⟩, fun _ => k.2⟩

theorem lockstep_copyArc (B : Bond p b R) {new : NodeId} {a : ArcId} (hnew : new < w.graph.nodes.size)
    (hc : (w.graph.arc a).child < w.graph.nodes.size)
    (hl : w.graph.layerOf (w.graph.arc a).child = w.graph.layerOf new + 1)
    (offers : w.Offers p (w.graph.layerOf new) (w.graph.arc a).value) :
    Lockstep R (copyArc p new a) (copyArc (p.caching b) new a) w w' := by
  refine B.get_bind fun _ _ _ _ => .lift_bind fun _ _ => .ite (fun _ => ?_) fun _ => .pure _
  refine .update fun h => ?_
  obtain ⟨connected, evolves⟩ := B.after (.connect new _ _) rfl ⟨hnew, hc, hl, offers⟩ h
  obtain ⟨noted, evolves'⟩ := B.schedule .down .full (w.graph.arc a).child connected
  exact ⟨noted, evolves.trans evolves'⟩

/-- The outgoing arcs of a node are copied to another node of its layer. -/
theorem lockstep_copyArcs (B : Bond p b R) {new n : NodeId} (hnew : new < w.graph.nodes.size)
    (hl : w.graph.layerOf new = w.graph.layerOf n) :
    Lockstep R ((w.graph.outgoing n).toList.forM (copyArc p new))
      ((w.graph.outgoing n).toList.forM (copyArc (p.caching b) new)) w w' := by
  intro hr
  have h := B.orderly hr
  refine Lockstep.forM _ (fun a ha u u' k => ?_) hr
  obtain ⟨on, hpar⟩ := h.wf.mem_outgoing.1 (Array.mem_toList_iff.1 ha)
  have hlt := Graph.lt_of_arcIsActive _ on
  have hc := h.wf.child_lt on
  have child := k.child a hlt
  have layer := (k.layerOf new hnew).trans (hl.trans (congrArg w.graph.layerOf hpar.symm))
  refine lockstep_copyArc B (Nat.lt_of_lt_of_le hnew k.nodes) ?_ ?_ ?_
  · rw [child]
    exact Nat.lt_of_lt_of_le hc k.nodes
  · rw [child, k.layerOf _ hc, layer]
    exact h.wf.adjacent a on
  · refine Or.inr ⟨a, Nat.lt_of_lt_of_le hlt k.arcs, ?_, rfl⟩
    rw [k.parent a hlt, k.layerOf _ (h.wf.parent_lt on), layer]

theorem lockstep_moveArc (B : Bond p b R) {new n : NodeId} {a : ArcId} (hc : (w.graph.arc a).child = n)
    (hnew : new < w.graph.nodes.size) (hl : w.graph.layerOf new = w.graph.layerOf n) :
    Lockstep R (moveArc p new a) (moveArc (p.caching b) new a) w w' := by
  refine B.get_bind fun h _ _ _ => .ite (fun on => ?_) fun _ => .pure _
  have hpar := h.wf.parent_lt on
  have hlt := Graph.lt_of_arcIsActive _ on
  have adds := (Adds.connect hpar hnew (w.graph.arc a).value).trans
    (.schedule (p := p) .up .full (w.graph.arc a).parent _)
  refine .bind_of (Q := fun _ u => u.graph.arcIsActive a = true) (fun hr => ?_) ?_
  · refine ⟨rfl, ⟨?_, adds.toEvolves⟩, adds.arcActive_of a on⟩
    refine (B.schedule _ _ _ (B.calm (.connect _ new _) rfl ⟨hpar, hnew, ?_, ?_⟩ hr)).1
    · rw [hl, ← hc]
      exact h.wf.adjacent a on
    · exact Or.inr ⟨a, hlt, rfl, rfl⟩
  · exact fun _ u u' _ on => lockstep_cutArc B on

/-- What is left to do for a bundle once its node was created. -/
theorem lockstep_stock (B : Bond p b R) {n new : NodeId} {arcs : List ArcId} (hn : n < w.graph.nodes.size)
    (hnew : new < w.graph.nodes.size) (hl : w.graph.layerOf new = w.graph.layerOf n)
    (harcs : ∀ a ∈ arcs, a < w.graph.arcs.size ∧ (w.graph.arc a).child = n) :
    Lockstep R
      (do
        ((← get).graph.outgoing n).toList.forM (copyArc p new)
        arcs.forM (moveArc p new)
        modify fun w => w.schedule p .up .full new
        let w ← get
        let node := w.graph.node new
        if node.active then
          let isolated := node.outgoing.isEmpty || node.incoming.isEmpty
          let kept ← if isolated then pure false else w.keepsNode p.model new
          if !kept then dropNode p new)
      (do
        ((← get).graph.outgoing n).toList.forM (copyArc (p.caching b) new)
        arcs.forM (moveArc (p.caching b) new)
        modify fun w => w.schedule (p.caching b) .up .full new
        let w ← get
        let node := w.graph.node new
        if node.active then
          let isolated := node.outgoing.isEmpty || node.incoming.isEmpty
          let kept ← if isolated then pure false else w.keepsNode p.model new
          if !kept then dropNode (p.caching b) new) w w' := by
  refine B.get_bind fun _ _ _ _ => .bind (lockstep_copyArcs B hnew hl) fun _ u u' hu => ?_
  refine .bind (.forM _ fun a ha v v' hv => ?_) fun _ v v' _ => ?_
  · have since := hu.trans hv
    refine lockstep_moveArc B (n := n) ((since.child a (harcs a ha).1).trans (harcs a ha).2)
      (Nat.lt_of_lt_of_le hnew since.nodes) ?_
    rw [since.layerOf new hnew, hl, since.layerOf n hn]
  · refine .bind (.update (B.schedule .up .full _)) fun _ _ _ _ => ?_
    refine B.get_bind fun _ _ _ _ => .ite (fun _ => ?_) fun _ => .pure _
    refine .ite (fun _ => .bind (.pure _) fun kept _ _ _ => ?_) fun _ => .lift_bind fun kept _ => ?_
    all_goals exact .ite (fun _ => lockstep_dropNode B _) fun _ => .pure _

/-- A bundle takes one of the places of its layer and one part of the budget. -/
theorem rwp_splitOff (F : Bond.Also p b .refining R) {n : NodeId} {layer count : Nat} {c : Candidate}
    (hn : n < w.graph.nodes.size) (hl : w.graph.layerOf n = layer)
    (hc : ∀ a ∈ c.arcs, a < w.graph.arcs.size ∧ (w.graph.arc a).child = n)
    (h : R w w') (room : w.Room p layer (count + 1)) (paid : count + 1 ≤ w.budget) :
    rwp (splitOff p n layer c) (splitOff (p.caching b) n layer c)
      (fun _ u u' => (R u u' ∧ u.Room p layer count ∧ count ≤ u.budget) ∧ Evolves w u) R w w' := by
  have B := F.toBond.and (J := fun u => u.Room p layer count ∧ count ≤ u.budget)
    fun _ _ k hj => ⟨hj.1.subsides k, k.budget ▸ hj.2⟩
  have census := (F.orderly h).toCensus
  obtain ⟨cache, hits, misses, rfl⟩ := F.alike h
  refine rwp_get_bind (rwp_lift_bind (fun states _ => rwp_modifyGet_bind rfl (rwp_modify_bind ?_)) h)
  have depth : layer ≤ p.model.depth := by
    have := census.wf.layer_lt n hn
    rw [census.layers, hl] at this
    omega
  obtain ⟨split, evolves⟩ := F.after (.split layer states) rfl
    ⟨depth, room.fewer (Nat.le_add_left 1 count), Nat.lt_of_lt_of_le (Nat.succ_pos count) paid⟩ h
  have left := room.addNode states
  have new : (w.addNode layer states).2.graph.node w.graph.nodes.size = _ :=
    Graph.node_appendNode_self w.graph layer states
  refine (Lockstep.keeps (lockstep_stock B (Nat.lt_of_lt_of_le hn evolves.nodes) ?_ ?_ fun a ha => ?_) split
    ⟨⟨left.sink, left.width⟩, Nat.le_sub_one_of_lt paid⟩).mono
    (fun _ _ _ k => ⟨k.1, evolves.trans k.2⟩) fun _ _ k => k
  · exact Nat.lt_of_lt_of_eq (Nat.lt_succ_self _) (Graph.size_appendNode w.graph layer states).symm
  · rw [evolves.layerOf n hn, hl]
    exact congrArg Node.layer new
  · exact ⟨Nat.lt_of_lt_of_le (hc a ha).1 evolves.arcs, (evolves.child a (hc a ha).1).trans (hc a ha).2⟩

/-- The bundles of a node are split off one after another; the room there was before the first one is enough for
all of them. -/
theorem rwp_splitOffs (F : Bond.Also p b .refining R) {n : NodeId} {layer : Nat} {cs : List Candidate}
    (hn : n < w.graph.nodes.size) (hl : w.graph.layerOf n = layer)
    (hcs : ∀ c ∈ cs, ∀ a ∈ c.arcs, a < w.graph.arcs.size ∧ (w.graph.arc a).child = n)
    (h : R w w') (room : w.Room p layer cs.length) (paid : cs.length ≤ w.budget) :
    rwp (cs.forM (splitOff p n layer)) (cs.forM (splitOff (p.caching b) n layer))
      (fun _ u u' => R u u' ∧ Evolves w u) R w w' := by
  refine rwp_forM (fun rest u u' => ((R u u' ∧ u.Room p layer rest.length ∧ rest.length ≤ u.budget) ∧
    Evolves w u) ∧ rest ⊆ cs) _ ⟨⟨⟨h, room, paid⟩, .refl w⟩, fun _ hc => hc⟩ (fun c rest u u' k => ?_)
    fun _ _ k => ⟨k.1.1.1, k.1.2⟩
  obtain ⟨⟨⟨hR, room, paid⟩, evolves⟩, hrest⟩ := k
  have arcs := hcs c (hrest List.mem_cons_self)
  refine (rwp_splitOff F (Nat.lt_of_lt_of_le hn evolves.nodes) ((evolves.layerOf n hn).trans hl)
    (fun a ha => ?_) hR room paid).mono (fun _ _ _ k => ⟨⟨k.1, evolves.trans k.2⟩, fun _ hd =>
      hrest (List.mem_cons_of_mem _ hd)⟩) fun _ _ k => k
  exact ⟨Nat.lt_of_lt_of_le (arcs a ha).1 evolves.arcs, (evolves.child a (arcs a ha).1).trans (arcs a ha).2⟩

/-- Bundles of a node are split off, as many as there is room and budget for. -/
theorem lockstep_branchOut (F : Bond.Also p b .refining R) {n : NodeId} {layer : Nat} {cs bundles : List Candidate}
    (deep : layer < p.model.depth) (hn : n < w.graph.nodes.size) (hl : w.graph.layerOf n = layer)
    (hcs : ∀ c ∈ cs, ∀ a ∈ c.arcs, a < w.graph.arcs.size ∧ (w.graph.arc a).child = n) (sub : bundles ⊆ cs)
    (room : w.Room p layer 0) (most : Nat) :
    Lockstep R
      ((bundles.take (min (p.options.maxWidth.getD 0 - w.graph.width layer) (min most w.budget))).forM
        (splitOff p n layer))
      ((bundles.take (min (p.options.maxWidth.getD 0 - w.graph.width layer) (min most w.budget))).forM
        (splitOff (p.caching b) n layer)) w w' := by
  intro hr
  refine rwp_splitOffs F hn hl (fun c hc => hcs c (sub (List.mem_of_mem_take hc))) hr
    ⟨fun e => absurd e (Nat.ne_of_lt deep), fun k hk => ?_⟩ ?_
  · have := room.width k hk
    rw [hk, Option.getD_some, List.length_take]
    omega
  · rw [List.length_take]
    omega

theorem lockstep_splitNodes (F : Bond.Also p b .refining R) {layer : Nat} (deep : layer < p.model.depth)
    (fuel : Nat) (tried : List NodeId) {w w' : Workspace} :
    Lockstep R (splitNodes p layer (p.options.maxWidth.getD 0) fuel tried)
      (splitNodes (p.caching b) layer (p.options.maxWidth.getD 0) fuel tried) w w' := by
  induction fuel generalizing tried w w' with
  | zero => exact .throw _
  | succ fuel ih =>
    have B := F.toBond
    have B' := B.and (J := fun u => u.Room p layer 0) fun _ _ k hj => hj.subsides k
    refine B.get_bind fun h _ _ _ => .ite (fun hs => ?_) fun _ => .pure _
    refine .lift_bind fun choice hchoice => ?_
    cases choice with
    | none => exact .pure _
    | some n =>
      obtain ⟨on, hlay⟩ := h.wf.mem_layer.1 (mem_of_selectNode hchoice)
      have hn := Graph.lt_of_isActive _ on
      simp only [Bool.and_eq_true, decide_eq_true_eq] at hs
      have room : w.Room p layer 0 := by
        refine ⟨fun e => absurd e (Nat.ne_of_lt deep), fun k hk => ?_⟩
        have hw := hs.1
        rw [hk] at hw
        exact Nat.le_trans (Nat.le_of_lt hw) (Nat.le_max_right 1 k)
      refine .bind_of (Q := fun cs u => u.Room p layer 0 ∧ ∀ c ∈ cs, ∀ a ∈ c.arcs, a ∈ w.graph.incoming n)
        (fun hr => (rwp_candidatesOf B' n layer ⟨hr, room⟩).mono
          (fun _ _ _ k => ⟨⟨k.1.1.1, k.1.2⟩, k.1.1.2, k.2⟩) fun _ _ k => k.1) ?_
      rintro cs u u' hu ⟨room, hcs⟩
      have harcs : ∀ c ∈ cs, ∀ a ∈ c.arcs, a < u.graph.arcs.size ∧ (u.graph.arc a).child = n := by
        intro c hc a ha
        obtain ⟨on, hch⟩ := h.wf.mem_incoming.1 (hcs c hc a ha)
        have hlt := Graph.lt_of_arcIsActive _ on
        exact ⟨Nat.lt_of_lt_of_le hlt hu.arcs, (hu.child a hlt).trans hch⟩
      have hn' := Nat.lt_of_lt_of_le hn hu.nodes
      rcases cs with _ | ⟨c, _ | ⟨d, cs⟩⟩
      · exact ih (n :: tried)
      · refine .ite (fun _ => .bind (lockstep_adoptState B .down hn' c.down) fun _ _ _ _ => ?_) fun _ => ?_
        all_goals exact ih (n :: tried)
      · refine .bind_of (Q := fun dead v => v.Room p layer 0 ∧ (dead = true → v.Owes)) (fun hr =>
          (rwp_discardDead B' n layer _ ⟨hr, room⟩).mono
            (fun _ _ _ k => ⟨⟨k.1.1.1, k.1.2⟩, k.1.1.2, k.2⟩) fun _ _ k => k.1) ?_
        rintro dead v v' hv ⟨room, owes⟩
        refine .ite (fun hdead => ?_) fun _ => ?_
        · exact .bind (.update (F.after .reboot rfl (owes hdead))) fun _ _ _ _ => .pure _
        · have harcs' : ∀ e ∈ c :: d :: cs, ∀ a ∈ e.arcs, a < v.graph.arcs.size ∧ (v.graph.arc a).child = n :=
            fun e he a ha => ⟨Nat.lt_of_lt_of_le (harcs e he a ha).1 hv.arcs,
              (hv.child a (harcs e he a ha).1).trans (harcs e he a ha).2⟩
          refine F.get_bind fun _ _ _ _ => .ite (fun _ => .lift_bind fun ordered hord => ?_) fun _ => ih _
          refine .bind (lockstep_branchOut F deep (Nat.lt_of_lt_of_le hn' hv.nodes)
            ((hv.layerOf n hn').trans ((hu.layerOf n hn).trans hlay)) harcs' ?_ room _) fun _ _ _ _ => ih _
          exact fun c hc => (perm_of_inOrder hord).subset hc

/-! ### Passes -/

theorem lockstep_sweepUpSteps (B : Bond p b R) (fuel : Nat) :
    Lockstep R (sweepUpSteps p fuel) (sweepUpSteps (p.caching b) fuel) w w' := by
  induction fuel generalizing w w' with
  | zero => exact .throw _
  | succ fuel ih =>
    refine B.get_bind fun _ _ _ _ => ?_
    dsimp only [Workspace.agenda_recalling]
    split
    · exact .pure _
    · exact .bind (lockstep_recomputeLayer B .up _) fun _ _ _ _ => ih

theorem lockstep_sweepUp (B : Bond p b R) (fuel : Nat) :
    Lockstep R (sweepUp p fuel) (sweepUp (p.caching b) fuel) w w' := by
  refine B.get_bind fun _ _ _ _ => .ite (fun _ => ?_) fun _ => .pure _
  refine .bind (B.tally _ ?_) fun _ _ _ _ => lockstep_sweepUpSteps B fuel
  exact ⟨fun _ _ _ => rfl, fun _ => ⟨rfl, rfl, rfl, rfl, rfl, Nat.le_refl _⟩⟩

theorem lockstep_sweepDownSteps (F : Bond.Also p b .refining R) (fuel : Nat) (split : Bool)
    (steps layer : Nat) {w w' : Workspace} : Lockstep R (sweepDownSteps p fuel split steps layer)
      (sweepDownSteps (p.caching b) fuel split steps layer) w w' := by
  induction steps generalizing layer w w' with
  | zero => exact .throw _
  | succ steps ih =>
    have B := F.toBond
    refine .ite (fun _ => B.get_bind fun _ _ _ _ => ?_) fun _ => .pure _
    dsimp only [Workspace.agenda_recalling]
    refine .bind (lockstep_recomputeLayer B .down _) fun _ _ _ _ => B.get_bind fun _ _ _ _ => ?_
    refine .ite (fun _ => ih _) fun _ => .ite (fun hs => ?_) fun _ => ih _
    simp only [Bool.and_eq_true, decide_eq_true_eq] at hs
    refine .bind (lockstep_splitNodes F hs.1.2 fuel []) fun next _ _ _ => ?_
    cases next with
    | some next => exact ih next
    | none => exact B.get_bind fun _ _ _ _ => .ite (fun _ => ih _) fun _ => ih _

theorem lockstep_sweepDown (F : Bond.Also p b .refining R) (fuel : Nat) (split : Bool) :
    Lockstep R (sweepDown p fuel split) (sweepDown (p.caching b) fuel split) w w' := by
  refine .bind (F.tally _ ?_) fun _ _ _ _ => lockstep_sweepDownSteps F fuel split fuel 1
  exact ⟨fun _ _ _ => rfl, fun _ => ⟨rfl, rfl, rfl, rfl, rfl, Nat.le_refl _⟩⟩

theorem lockstep_passes (F : Bond.Also p b .refining R) (fuel rounds done : Nat) {w w' : Workspace} :
    Lockstep R (passes p fuel rounds done) (passes (p.caching b) fuel rounds done) w w' := by
  induction rounds generalizing done w w' with
  | zero => exact .throw _
  | succ rounds ih =>
    refine .ite (fun _ => .bind (lockstep_sweepUp F.toBond fuel) fun _ _ _ _ => ?_) fun _ => ?_
    all_goals
      refine .bind (lockstep_sweepDown F fuel _) fun _ _ _ _ => F.get_bind fun _ _ _ _ => ?_
      exact .ite (fun _ => .pure _) fun _ => ih (done + 1)

/-! ### Whole propagations -/

/-- A pair of workspaces from which every refinement ends in a pair with which `E` holds. -/
def Leads (p : Plan) (b : Bool) (E : Workspace → Workspace → Prop) (w w' : Workspace) : Prop :=
  ∃ R, Bond.Also p b .refining R ∧ R w w' ∧ ∀ u u', R u u' → E u u'

/-- What a propagation has to start from: a diagram which is built is refined, and another one is built first, from
which each step leads to where a refinement may start. -/
structure Begins (p : Plan) (b : Bool) (E : Workspace → Workspace → Prop) (w : Workspace) : Prop where
  built : w.built = true → Leads p b E w w
  fresh : w.built = false → w.Bare 0 ∧ ∃ R, Bond.Also p b .building R ∧
    R (Edit.markBuilt.apply w) (Edit.markBuilt.apply w) ∧ ∀ u u', R u u' → Leads p b E u u'

theorem Leads.ended (h : Leads p b E w w') : E w w' :=
  have ⟨_, _, hr, ends⟩ := h
  ends w w' hr

/-- Steps which keep every bond end as the bonds say. -/
theorem Leads.ends {α : Type} {x y : Work α} (h : Leads p b E w w')
    (k : ∀ R, Bond.Also p b .refining R → Lockstep R x y w w') : rwp x y (fun _ => E) E w w' := by
  obtain ⟨R, F, hr, ends⟩ := h
  exact ((k R F).drop hr).mono (fun _ => ends) ends

theorem rwp_maintainExact (lost : List Nat) (exact : p.options.isExact = true) (h : Begins p b E w) :
    rwp (maintainExact p lost) (maintainExact (p.caching b) lost) (fun _ => E) E w w := by
  refine rwp_get_bind (rwp_ite (fun built => ?_) fun fresh => ?_)
  · refine (h.built built).ends fun R F => .bind (lockstep_enforceDomains F.toBond lost) fun _ _ _ _ => ?_
    exact lockstep_enforceSupports F.toBond
  · obtain ⟨hb, R, F, hr, leads⟩ := h.fresh (Bool.eq_false_iff.2 fresh)
    have ends : ∀ u u', R u u' → E u u' := fun u u' hu => (leads u u' hu).ended
    refine (rwp_grow F (fun k hk => ?_) hr hb).mono (fun _ => ends) ends
    rw [Options.isExact, hk] at exact
    cases exact

theorem Plan.allows_firstWidth (p : Plan) : p.Allows p.options.firstWidth := by
  intro k hk
  unfold Options.firstWidth
  rw [hk]
  cases p.options.construction with
  | topDownMerge => exact ⟨k, rfl, Nat.le_max_right 1 k⟩
  | widthOne => exact ⟨1, rfl, Nat.le_max_left 1 k⟩

theorem rwp_maintainRelaxed (fuel : Nat) (lost : List Nat) (h : Begins p b E w) :
    rwp (maintainRelaxed p fuel lost) (maintainRelaxed (p.caching b) fuel lost) (fun _ => E) E w w := by
  -- what is done with a diagram, built before or just now
  have rest : ∀ (built : Bool) {u u'}, Leads p b E u u' → rwp (do
      enforceDomains p lost
      let quiet := (← get).agenda.isEmpty
      if !(built && quiet) then passes p fuel fuel 0
      enforceSupports p) (do
      enforceDomains (p.caching b) lost
      let quiet := (← get).agenda.isEmpty
      if !(built && quiet) then passes (p.caching b) fuel fuel 0
      enforceSupports (p.caching b)) (fun _ => E) E u u' := by
    intro built u u' leads
    refine leads.ends fun R F => .bind (lockstep_enforceDomains F.toBond lost) fun _ _ _ _ => ?_
    refine F.get_bind fun _ _ _ _ => .ite (fun _ => ?_) fun _ => lockstep_enforceSupports F.toBond
    exact .bind (lockstep_passes F fuel fuel 0) fun _ _ _ _ => lockstep_enforceSupports F.toBond
  refine rwp_get_bind (rwp_ite (fun fresh => ?_) fun built => rest _ (h.built (by simpa using built)))
  obtain ⟨hb, R, F, hr, leads⟩ := h.fresh (by simpa using fresh)
  have ends : ∀ u u', R u u' → E u u' := fun u u' hu => (leads u u' hu).ended
  refine rwp_bind ((rwp_grow F (Plan.allows_firstWidth p) hr hb).mono (fun _ _ _ k => k) ends)
    fun _ u u' hu => rwp_ite (fun _ => ?_) fun _ => rest _ (leads u u' hu)
  exact rwp_bind (((lockstep_completeNodes F).drop hu).mono (fun _ _ _ k => k) ends) fun _ u u' hu =>
    rest _ (leads u u' hu)

/-- The work of a propagation. -/
def Plan.maintain (p : Plan) (fuel : Nat) (lost : List Nat) : Work Unit :=
  if p.options.isExact then maintainExact p lost else maintainRelaxed p fuel lost

theorem rwp_maintain (fuel : Nat) (lost : List Nat) (h : Begins p b E w) :
    rwp (p.maintain fuel lost) ((p.caching b).maintain fuel lost) (fun _ => E) E w w :=
  rwp_ite (fun exact => rwp_maintainExact lost exact h) fun _ => rwp_maintainRelaxed fuel lost h

end DecisionDiagrams
