import DecisionDiagrams.Proofs.Engine.Outline

/-! The outline of the passes, in which layers are computed again and split, and of a whole propagation. -/

namespace DecisionDiagrams

open Work Cascade

/-! ### Splitting a layer -/

section

variable {p : Plan} {w w' : Workspace} {n : NodeId} {layer maxWidth : Nat} {cs : List Candidate}

theorem mem_splittable {layer : Nat} {t : List NodeId} {n : NodeId}
    (h : n ∈ splittable w layer t) : n ∈ w.graph.layer layer := by
  unfold splittable at h
  simpa using (List.mem_filter.1 h).1

/-- The selected node is the best one of the splittable nodes by some rank. -/
theorem ranked_of_selectNode {layer : Nat} {tried : List NodeId} {r : Option NodeId}
    (h : selectNode p w layer tried = .ok r) : ∃ ranked : List (NodeId × Int × Nat),
      ranked.map (·.1) = splittable w layer tried ∧
      (Preference.best? (fun a b => exceeds a.2 b.2) ranked).map (·.1) = r := by
  unfold selectNode at h
  dsimp only at h
  split at h
  · refine ⟨_, ?_, Except.ok.inj h⟩
    rw [List.map_map]
    exact List.map_id _
  · refine ⟨_, ?_, Except.ok.inj h⟩
    rw [List.map_map]
    exact List.map_id _
  · obtain ⟨ranked, hr, h⟩ := Checked.bind_eq_ok.1 h
    refine ⟨ranked, (Checked.map_of_mapM (h := id) (fun x y hy => ?_) hr).trans (List.map_id _), Except.ok.inj h⟩
    obtain ⟨priority, -, hy⟩ := Checked.bind_eq_ok.1 hy
    obtain rfl := Except.ok.inj hy
    rfl

theorem splittable_of_selectNode {layer : Nat} {tried : List NodeId} {n : NodeId}
    (h : selectNode p w layer tried = .ok (some n)) : n ∈ splittable w layer tried := by
  obtain ⟨ranked, hr, hb⟩ := ranked_of_selectNode h
  obtain ⟨e, he, rfl⟩ := Option.map_eq_some_iff.1 hb
  rw [← hr]
  exact List.mem_map_of_mem (Preference.mem_of_best? he)

theorem mem_of_selectNode {layer : Nat} {tried : List NodeId} {n : NodeId}
    (h : selectNode p w layer tried = .ok (some n)) : n ∈ w.graph.layer layer :=
  mem_splittable (splittable_of_selectNode h)

theorem perm_of_inOrder {layer : Nat} {cs ds : List Candidate}
    (h : inOrder p layer cs = .ok ds) : ds.Perm cs := by
  have sorted : ∀ {ranked : List (Candidate × Int × Nat)}, ranked.map (·.1) = cs →
      ((Preference.sort (fun a b => exceeds a.2 b.2) ranked).map (·.1)).Perm cs := by
    intro ranked hr
    rw [← hr]
    exact (Preference.sort_perm _ _).map _
  unfold inOrder at h
  split at h
  · obtain rfl := Except.ok.inj h
    refine sorted ?_
    rw [List.map_map]
    exact List.map_id _
  · obtain rfl := Except.ok.inj h
    refine sorted ?_
    rw [List.map_map]
    exact List.map_id _
  · obtain ⟨ranked, hr, h⟩ := Checked.bind_eq_ok.1 h
    obtain rfl := Except.ok.inj h
    refine sorted ((Checked.map_of_mapM (h := id) (fun x y hy => ?_) hr).trans (List.map_id _))
    obtain ⟨priority, -, hy⟩ := Checked.bind_eq_ok.1 hy
    obtain rfl := Except.ok.inj hy
    rfl

/-- A node which can be split has arcs from above. -/
theorem pos_of_mem_splittable (hw : w.graph.Wf) {tried : List NodeId}
    (h : n ∈ splittable w layer tried) : 0 < layer := by
  obtain ⟨hm, h⟩ := List.mem_filter.1 h
  have hsize : 0 < (w.graph.incoming n).size := by
    have : 1 < (w.graph.incoming n).size := by
      simp only [Bool.and_eq_true, decide_eq_true_eq] at h
      exact h.1.2
    omega
  obtain ⟨on, hch⟩ := hw.mem_incoming.1 (Array.getElem_mem hsize)
  rw [← (hw.mem_layer.1 (Array.mem_toList_iff.1 hm)).2, ← hch, hw.adjacent _ on]
  exact Nat.succ_pos _

theorem Quiet.bundleUp (h : Quiet p w w') (layer : Nat) : w'.bundleUp p layer = w.bundleUp p layer := by
  funext cs a
  unfold Workspace.bundleUp
  dsimp only
  rw [h.graph, h.combined?]

/-- The bundles of a node of a layer, which hold its incoming arcs. -/
structure Bundled (p : Plan) (layer : Nat) (n : NodeId) (cs : List Candidate) (w : Workspace) : Prop where
  active : w.graph.isActive n = true
  layerOf : w.graph.layerOf n = layer
  pos : 0 < layer
  bundles : (w.graph.incoming n).toList.foldlM (w.bundleUp p layer) [] = .ok cs

namespace Bundled

theorem lt (h : Bundled p layer n cs w) : n < w.graph.nodes.size := Graph.lt_of_isActive _ h.active

theorem sorted (h : Bundled p layer n cs w) :
    Candidate.Sorted p.model (w.leads p layer) (w.graph.incoming n).toList cs := by
  have := sorted_bundleUp _ (.nil _ _) h.bundles
  rwa [List.nil_append] at this

/-- A bundle holds arcs to the node. -/
theorem arcs (h : Bundled p layer n cs w) (hw : w.graph.Wf) {c : Candidate} (hc : c ∈ cs) :
    ∀ a ∈ c.arcs, w.graph.arcIsActive a = true ∧ (w.graph.arc a).child = n := fun _ ha =>
  hw.mem_incoming.1 (Array.mem_toList_iff.1 (h.sorted.perm.subset (List.mem_flatMap.2 ⟨c, hc, ha⟩)))

theorem enters (h : Bundled p layer n cs w) (hw : w.graph.Wf) {c : Candidate} (hc : c ∈ cs) : c.Enters layer n w :=
  ⟨h.lt, h.layerOf, fun a ha => (h.arcs hw hc a ha).imp_left (Graph.lt_of_arcIsActive _)⟩

/-- An arc to the node is in one of the bundles. -/
theorem exists_mem (h : Bundled p layer n cs w) (hw : w.graph.Wf) {a : ArcId} (on : w.graph.arcIsActive a = true)
    (hch : (w.graph.arc a).child = n) : ∃ c ∈ cs, a ∈ c.arcs :=
  List.mem_flatMap.1 (h.sorted.perm.mem_iff.2 (Array.mem_toList_iff.2 (hw.mem_incoming.2 ⟨on, hch⟩)))

theorem quiet (h : Bundled p layer n cs w) (hq : Quiet p w w') : Bundled p layer n cs w' := by
  refine ⟨?_, ?_, h.pos, ?_⟩
  all_goals rw [hq.graph]
  · exact h.active
  · exact h.layerOf
  · rw [hq.bundleUp]
    exact h.bundles

end Bundled

/-- Bundles of a node are split off one after another. -/
theorem Bundled.wp_splitOffs {I : Workspace → Prop} {E : Stop → Workspace → Prop} (h : Bundled p layer n cs w)
    (hw : w.graph.Wf) {ds : List Candidate} (sub : ds ⊆ cs) (hI : I w)
    (step : ∀ c ∈ ds, ∀ w', Evolves w w' → c.Enters layer n w' → I w' →
      wp (splitOff p n layer c) (fun _ w'' => I w'' ∧ Evolves w' w'') E w') :
    wp (ds.forM (splitOff p n layer)) (fun _ => I) E w := by
  refine wp_forM (fun rest w' => (I w' ∧ Evolves w w') ∧ rest ⊆ ds) _ ⟨⟨hI, .refl w⟩, fun _ hc => hc⟩
    (fun c rest w' k => ?_) fun _ k => k.1.1
  obtain ⟨⟨hI', he⟩, hrest⟩ := k
  have hc := hrest List.mem_cons_self
  exact wp.mono (step c hc w' he ((h.enters hw (sub hc)).evolves he) hI')
    (fun _ _ k => ⟨⟨k.1, he.trans k.2⟩, fun _ hd => hrest (List.mem_cons_of_mem _ hd)⟩) fun _ _ k => k

/-- If no bundle is discarded, nothing happens. -/
theorem wp_discardDead_same {n : NodeId} {layer : Nat} (cs : List Candidate) :
    wp (discardDead p n layer cs) (fun dead w' => dead = false → w' = w) (fun _ _ => True) w := by
  refine wp_foldlM (fun _ dead w' => dead = false → w' = w) cs (fun _ => rfl) (fun c rest dead w' h => ?_)
    fun _ _ h => h
  rw [wp_bind, wp_get, wp_bind, wp_lift]
  refine ⟨fun continues _ => ?_, fun _ _ => trivial⟩
  rw [wp_ite]
  refine ⟨fun _ => h, fun _ => ?_⟩
  rw [wp_bind]
  unfold wp
  split
  · exact nofun
  · trivial

/-- What has to be shown of the steps by which a layer is split. `I` speaks of the nodes which were tried. -/
structure Splitter (p : Plan) (layer maxWidth : Nat) (I : List NodeId → Workspace → Prop)
    (Q : Option Nat → Workspace → Prop) (E : Stop → Workspace → Prop) : Prop where
  sound : ∀ {t w}, I t w → w.graph.Wf ∧ w.cache.Sound p.model
  quiet : ∀ {t w w'}, Quiet p w w' → I t w → I t w'
  faults : ∀ {t w} f, I t w → E (.fault f) w
  exhausted : ∀ {t w}, I t w → E .exhausted w
  full : ∀ {t w}, I t w → ¬ (w.graph.width layer < maxWidth ∧ 0 < w.budget) → Q none w
  done : ∀ {t w}, I t w → selectNode p w layer t = .ok none → Q none w
  kept : ∀ {t w n cs}, Bundled p layer n cs w → (∀ c ∈ cs, cs = [c] ∧ c.down.relaxed = true) → I t w → I (n :: t) w
  adopt : ∀ {t w n c}, Bundled p layer n [c] w → I t w →
    wp (adoptState p .down n c.down) (fun _ => I (n :: t)) E w
  discard : ∀ {t w n cs}, Bundled p layer n cs w → I t w →
    wp (discardDead p n layer cs) (fun dead w' => dead = true → Q (some (retreatLayer p layer)) w'.reboot) E w
  split : ∀ {t w n} {cs ds : List Candidate}, Bundled p layer n cs w → ds.Perm cs → 1 < cs.length → I t w →
    wp ((ds.take (min (maxWidth - w.graph.width layer) (min (cs.length - 1) w.budget))).forM (splitOff p n layer))
      (fun _ => I (n :: t)) E w

/-- What is done with a node which is tried, before the `next` one is selected. -/
def tryNode (p : Plan) (layer maxWidth : Nat) (next : Work (Option Nat)) (n : NodeId) : Work (Option Nat) := do
  let candidates ← candidatesOf p n layer
  match candidates with
  | [] => next
  | [c] =>
    if !c.down.relaxed then adoptState p .down n c.down
    next
  | _ =>
    if ← discardDead p n layer candidates then
      modify (Workspace.tally fun t => { t with reboots := t.reboots + 1 })
      return some (retreatLayer p layer)
    let w ← get
    if w.graph.isActive n then
      let room := min (maxWidth - w.graph.width layer) (min (candidates.length - 1) w.budget)
      let ordered ← inOrder p layer candidates
      (ordered.take room).forM (splitOff p n layer)
    next

theorem splitNodes_succ (fuel : Nat) (tried : List NodeId) :
    splitNodes p layer maxWidth (fuel + 1) tried = do
      let w ← get
      if w.graph.width layer < maxWidth && 0 < w.budget then
        match ← selectNode p w layer tried with
        | none => return none
        | some n => tryNode p layer maxWidth (splitNodes p layer maxWidth fuel (n :: tried)) n
      else return none := rfl

namespace Splitter

variable {I : List NodeId → Workspace → Prop} {Q : Option Nat → Workspace → Prop} {E : Stop → Workspace → Prop}
  {tried : List NodeId}

theorem wp_tryNode (h : Splitter p layer maxWidth I Q E) {next : Work (Option Nat)}
    (hn : n ∈ splittable w layer tried) (later : ∀ {w'}, I (n :: tried) w' → wp next Q E w') (hI : I tried w) :
    wp (tryNode p layer maxWidth next n) Q E w := by
  obtain ⟨hw, hc⟩ := h.sound hI
  obtain ⟨hact, hlay⟩ := hw.mem_layer.1 (mem_splittable hn)
  unfold tryNode
  rw [wp_bind]
  refine wp.mono (computes_candidatesOf hc n layer) (fun cs w₁ k => ?_) ?_
  · have hb : Bundled p layer n cs w₁ := Bundled.quiet ⟨hact, hlay, pos_of_mem_splittable hw hn, k.2⟩ k.1
    have h₁ := h.quiet k.1 hI
    match cs, hb with
    | [], hb => exact later (h.kept hb nofun h₁)
    | [c], hb =>
      rw [wp_ite]
      refine ⟨fun _ => ?_, fun relaxed => later (h.kept hb (fun d hd => ?_) h₁)⟩
      · rw [wp_bind]
        exact wp.mono (h.adopt hb h₁) (fun _ _ h₂ => later h₂) fun _ _ h₂ => h₂
      · obtain rfl := List.mem_singleton.1 hd
        exact ⟨rfl, by simpa using relaxed⟩
    | c :: c' :: rest, hb =>
      rw [wp_bind]
      refine wp.mono (wp.and (h.discard hb h₁) (wp_discardDead_same _)) (fun dead w₂ k => ?_) fun _ _ k => k.1
      rw [wp_ite]
      refine ⟨fun isDead => ?_, fun alive => ?_⟩
      · rw [wp_bind, wp_modify]
        exact k.1 isDead
      · obtain rfl := k.2 (Bool.eq_false_iff.2 alive)
        rw [wp_bind, wp_get, wp_ite]
        refine ⟨fun _ => ?_, fun off => absurd hb.active off⟩
        rw [wp_bind, wp_lift]
        refine ⟨fun ds hd => ?_, fun f _ => h.faults f h₁⟩
        rw [wp_bind]
        refine wp.mono (h.split hb (perm_of_inOrder hd) ?_ h₁) (fun _ _ h₂ => later h₂) fun _ _ h₂ => h₂
        exact Nat.succ_lt_succ (Nat.succ_pos _)
  · rintro e w₁ ⟨hq, f, rfl, -⟩
    exact h.faults f (h.quiet hq hI)

theorem wp_splitNodes (h : Splitter p layer maxWidth I Q E) (fuel : Nat) (hI : I tried w) :
    wp (splitNodes p layer maxWidth fuel tried) Q E w := by
  induction fuel generalizing tried w with
  | zero => exact h.exhausted hI
  | succ fuel ih =>
    rw [splitNodes_succ, wp_bind, wp_get, wp_ite]
    refine ⟨fun _ => ?_, fun full => h.full hI (by simpa using full)⟩
    rw [wp_bind, wp_lift]
    refine ⟨fun choice hs => ?_, fun f _ => h.faults f hI⟩
    cases choice with
    | none => exact h.done hI hs
    | some n => exact h.wp_tryNode (splittable_of_selectNode hs) ih hI

end Splitter

end

/-! ### Up passes -/

/-- What has to be shown of the steps of which an up pass is made. -/
structure UpSweeper (p : Plan) (I : Workspace → Prop) (E : Stop → Workspace → Prop) : Prop where
  tally : ∀ {w} f, I w → I (w.tally f)
  exhausted : ∀ {w}, I w → E .exhausted w
  up : p.model.hasUp = true → ∀ {w} layer, I w → wp (recomputeLayer p .up layer) (fun _ => I) E w

namespace UpSweeper

variable {p : Plan} {w : Workspace} {I : Workspace → Prop} {E : Stop → Workspace → Prop}

theorem sweepUpSteps (h : UpSweeper p I E) (hup : p.model.hasUp = true) (steps : Nat) (hI : I w) :
    wp (sweepUpSteps p steps) (fun _ => I) E w := by
  induction steps generalizing w with
  | zero => exact h.exhausted hI
  | succ steps ih =>
    unfold Work.sweepUpSteps
    rw [wp_bind, wp_get]
    split
    · exact hI
    · rw [wp_bind]
      exact wp.mono (h.up hup _ hI) (fun _ _ h₁ => ih h₁) fun _ _ h₁ => h₁

theorem sweepUp (h : UpSweeper p I E) (hup : p.model.hasUp = true) (fuel : Nat) (hI : I w) :
    wp (sweepUp p fuel) (fun _ => I) E w := by
  unfold Work.sweepUp
  rw [wp_bind, wp_get, wp_ite]
  refine ⟨fun _ => ?_, fun _ => hI⟩
  rw [wp_bind, wp_modify]
  exact h.sweepUpSteps hup fuel (h.tally _ hI)

end UpSweeper

/-! ### Down passes -/

section

variable {p : Plan} {w : Workspace} {fuel : Nat} {E : Stop → Workspace → Prop}

/-- The layer which a down pass computes next. -/
def nextDown (w : Workspace) (layer : Nat) : Nat :=
  match w.agenda.shallowest .down with
  | some l => min layer l
  | none => layer

theorem nextDown_le (layer : Nat) : nextDown w layer ≤ layer := by
  unfold nextDown
  split
  · exact min_le_left _ _
  · exact le_rfl

/-- What a down pass does with the layer `cur`, before it goes on with the `next` one. -/
def sweepAt (p : Plan) (fuel : Nat) (split : Bool) (next : Nat → Work Unit) (cur : Nat) : Work Unit := do
  recomputeLayer p .down cur
  let w ← get
  if w.agenda.isPending .down cur then next cur
  else if split && cur < p.model.depth && 0 < w.budget then
    match ← splitNodes p cur (p.options.maxWidth.getD 0) fuel [] with
    | some l => next l
    | none =>
      if (← get).agenda.isPending .down cur then next cur
      else next (cur + 1)
  else next (cur + 1)

theorem sweepDownSteps_succ (fuel : Nat) (split : Bool) (steps layer : Nat) :
    sweepDownSteps p fuel split (steps + 1) layer =
      if layer ≤ p.model.depth then do
        let w ← get
        sweepAt p fuel split (sweepDownSteps p fuel split steps) (nextDown w layer)
      else pure () := rfl

/-- A down pass goes on from a layer while `I` holds of it, and `settled` when its nodes were computed again. It ends
below the sink. -/
theorem wp_sweepDownSteps {split : Bool} {I J : Nat → Workspace → Prop}
    (exhausted : ∀ {layer w}, I layer w → E .exhausted w)
    (compute : ∀ {layer w}, layer ≤ p.model.depth → I layer w →
      wp (recomputeLayer p .down (nextDown w layer)) (fun _ => J (nextDown w layer)) E w)
    (again : ∀ {layer w}, J layer w → w.agenda.isPending .down layer = true → I layer w)
    (divide : ∀ {layer w}, split = true → layer < p.model.depth → J layer w →
      wp (splitNodes p layer (p.options.maxWidth.getD 0) fuel []) (fun next w' => (∀ l, next = some l → I l w') ∧
        (next = none → if w'.agenda.isPending .down layer = true then I layer w' else I (layer + 1) w')) E w)
    (onward : ∀ {layer w}, J layer w → (split && layer < p.model.depth && 0 < w.budget) = false →
      I (layer + 1) w) (steps : Nat) {layer : Nat} (hI : I layer w) :
    wp (sweepDownSteps p fuel split steps layer) (fun _ w' => ∃ l, p.model.depth < l ∧ I l w') E w := by
  induction steps generalizing layer w with
  | zero => exact exhausted hI
  | succ steps ih =>
    rw [sweepDownSteps_succ, wp_ite]
    refine ⟨fun within => ?_, fun below => ⟨layer, Nat.lt_of_not_le below, hI⟩⟩
    rw [wp_bind, wp_get]
    generalize hcur : nextDown w layer = cur
    unfold sweepAt
    rw [wp_bind]
    refine wp.mono (hcur ▸ compute within hI) (fun _ w₁ h₁ => ?_) fun _ _ h => h
    rw [wp_bind, wp_get, wp_ite]
    refine ⟨fun pending => ih (again h₁ pending), fun _ => ?_⟩
    rw [wp_ite]
    refine ⟨fun hs => ?_, fun hs => ih (onward h₁ (Bool.eq_false_iff.2 hs))⟩
    simp only [Bool.and_eq_true, decide_eq_true_eq] at hs
    rw [wp_bind]
    refine wp.mono (divide hs.1.1 hs.1.2 h₁) (fun next w₂ h₂ => ?_) fun _ _ h => h
    cases next with
    | some l => exact ih (h₂.1 l rfl)
    | none =>
      have h₂ := h₂.2 rfl
      rw [wp_bind, wp_get, wp_ite]
      exact ⟨fun pending => ih (by rwa [if_pos pending] at h₂), fun calm => ih (by rwa [if_neg calm] at h₂)⟩

end

/-! ### Passes -/

section

variable {p : Plan} {w : Workspace} {fuel rounds done : Nat} {Q : Workspace → Prop} {E : Stop → Workspace → Prop}

/-- An up pass, if there are up states, and a down pass; then the next ones, unless no node waits any more. -/
theorem wp_passes_succ (risen swept : Workspace → Prop)
    (up : p.model.hasUp = true → wp (sweepUp p fuel) (fun _ => risen) E w) (flat : p.model.hasUp = false → risen w)
    (down : ∀ w', risen w' → wp (sweepDown p fuel (done < p.options.splitPasses)) (fun _ => swept) E w')
    (quiet : ∀ w', swept w' → w'.agenda.isEmpty = true → Q w')
    (more : ∀ w', swept w' → wp (passes p fuel rounds (done + 1)) (fun _ => Q) E w') :
    wp (passes p fuel (rounds + 1) done) (fun _ => Q) E w := by
  have rest : ∀ w', risen w' → wp (do
      Work.sweepDown p fuel (done < p.options.splitPasses)
      let quiet := (← get).agenda.isEmpty
      if quiet then pure () else Work.passes p fuel rounds (done + 1)) (fun _ => Q) E w' := by
    intro w' h
    rw [wp_bind]
    refine wp.mono (down w' h) (fun _ w₁ h₁ => ?_) fun _ _ h => h
    rw [wp_bind, wp_get]
    dsimp only
    rw [wp_ite]
    exact ⟨quiet w₁ h₁, fun _ => more w₁ h₁⟩
  unfold Work.passes
  rw [wp_ite]
  refine ⟨fun hup => ?_, fun hno => rest w (flat (Bool.eq_false_iff.2 hno))⟩
  rw [wp_bind]
  exact wp.mono (up hup) (fun _ w' h => rest w' h) fun _ _ h => h

/-- A down pass starts below the root. -/
theorem wp_sweepDown {split : Bool} {Q : PUnit → Workspace → Prop} : wp (sweepDown p fuel split) Q E w ↔
    wp (sweepDownSteps p fuel split fuel 1) Q E (w.tally fun c => { c with downPasses := c.downPasses + 1 }) := by
  unfold Work.sweepDown
  rw [wp_bind, wp_modify]

end

/-- What has to be shown of the steps of which passes are made. -/
structure Sweeper (p : Plan) (fuel : Nat) (I : Workspace → Prop) (E : Stop → Workspace → Prop) : Prop
    extends UpSweeper p I E where
  down : ∀ {w} layer, I w → wp (recomputeLayer p .down layer) (fun _ => I) E w
  split : ∀ {w layer}, layer < p.model.depth → I w →
    wp (splitNodes p layer (p.options.maxWidth.getD 0) fuel []) (fun _ => I) E w

namespace Sweeper

variable {p : Plan} {w : Workspace} {fuel : Nat} {I : Workspace → Prop} {E : Stop → Workspace → Prop}

theorem sweepDown (h : Sweeper p fuel I E) (split : Bool) (hI : I w) :
    wp (sweepDown p fuel split) (fun _ => I) E w := by
  refine wp_sweepDown.2 ?_
  refine wp.mono (wp_sweepDownSteps (I := fun _ => I) (J := fun _ => I) h.exhausted (fun _ => h.down _)
    (fun hI _ => hI) (fun _ hd hI => ?_) (fun hI _ => hI) fuel (h.tally _ hI)) (fun _ _ hI => ?_) fun _ _ h => h
  · exact wp.mono (h.split hd hI) (fun _ _ hI => ⟨fun _ _ => hI, fun _ => by split_ifs <;> exact hI⟩) fun _ _ h => h
  · obtain ⟨_, _, hI⟩ := hI
    exact hI

/-- The passes only end when no node waits any more. -/
theorem passes (h : Sweeper p fuel I E) (rounds done : Nat) (hI : I w) :
    wp (passes p fuel rounds done) (fun _ w' => I w' ∧ w'.agenda.isEmpty = true) E w := by
  induction rounds generalizing done w with
  | zero => exact h.exhausted hI
  | succ rounds ih =>
    exact wp_passes_succ I I (fun hup => h.toUpSweeper.sweepUp hup fuel hI) (fun _ => hI) (fun _ => h.sweepDown _)
      (fun _ hI empty => ⟨hI, empty⟩) fun _ => ih _

end Sweeper

/-! ### Propagations -/

/-- The workspace in which the first diagram is built. -/
def Workspace.opened (w : Workspace) : Workspace :=
  Workspace.tally (fun c => { c with constructions := c.constructions + 1 }) { w with built := true }

section

variable {p : Plan} {w : Workspace} {width : Option Nat} {fuel : Nat} {lost : List Nat} {Q : Workspace → Prop}
  {E : Stop → Workspace → Prop}

/-- A diagram is built layer by layer from the root; its nodes are tested if up states are known. -/
theorem wp_grow_of (I : Nat → Workspace → Prop) (tested : Workspace → Prop) (faults : ∀ f, E (.fault f) w.opened)
    (root : ∀ states, w.opened.statesWith p.model (p.model.fresh .down) (p.model.fresh .up) = .ok states →
      I 0 (w.opened.addNode 0 states).2)
    (layer : ∀ l < p.model.depth, ∀ w', I l w' → wp (growLayer p width l) (fun _ => I (l + 1)) E w')
    (tests : ∀ w', w'.upKnown = true → I p.model.depth w' → wp (testNodes p) (fun _ => tested) E w')
    (untested : ∀ w', w'.upKnown = false → I p.model.depth w' → tested w')
    (supports : ∀ w', tested w' → wp (enforceSupports p) (fun _ => Q) E w') : wp (grow p width) (fun _ => Q) E w := by
  unfold grow
  rw [wp_bind, wp_modify, wp_bind, wp_modify, wp_bind, wp_get, wp_bind, wp_lift]
  refine ⟨fun states hs => ?_, fun f _ => faults f⟩
  rw [wp_bind, wp_modifyGet, wp_bind]
  refine wp_forM_range I (root states hs) layer fun w' h => ?_
  rw [wp_bind, wp_get, wp_ite]
  refine ⟨fun known => ?_, fun unknown => supports w' (untested w' (Bool.eq_false_iff.2 unknown) h)⟩
  rw [wp_bind]
  exact wp.mono (tests w' known h) (fun _ w'' h => supports w'' h) fun _ _ h => h

/-- An exact diagram is built once and then only loses arcs. -/
theorem wp_maintainExact_of (enforced : Workspace → Prop)
    (first : w.built = false → wp (grow p none) (fun _ => Q) E w)
    (domains : w.built = true → wp (enforceDomains p lost) (fun _ => enforced) E w)
    (supports : ∀ w', enforced w' → wp (enforceSupports p) (fun _ => Q) E w') :
    wp (maintainExact p lost) (fun _ => Q) E w := by
  unfold maintainExact
  rw [wp_bind, wp_get]
  dsimp only
  rw [wp_ite]
  refine ⟨fun old => ?_, fun fresh => first (Bool.eq_false_iff.2 fresh)⟩
  rw [wp_bind]
  exact wp.mono (domains old) (fun _ w' h => supports w' h) fun _ _ h => h

/-- A relaxed diagram is built and completed if need be; then passes follow, unless it was built before and no node
waits. -/
theorem wp_maintainRelaxed_of (grown ready enforced calm : Workspace → Prop)
    (first : w.built = false → wp (grow p p.options.firstWidth) (fun _ => grown) E w)
    (complete : p.model.hasUp = true → ∀ w', grown w' → wp (completeNodes p) (fun _ => ready) E w')
    (done : p.model.hasUp = false → ∀ w', grown w' → ready w') (old : w.built = true → ready w)
    (domains : ∀ w', ready w' → wp (enforceDomains p lost) (fun _ => enforced) E w')
    (passing : ∀ w', enforced w' → ¬ (w.built = true ∧ w'.agenda.isEmpty = true) →
      wp (passes p fuel fuel 0) (fun _ => calm) E w')
    (quiet : w.built = true → ∀ w', enforced w' → w'.agenda.isEmpty = true → calm w')
    (supports : ∀ w', calm w' → wp (enforceSupports p) (fun _ => Q) E w') :
    wp (maintainRelaxed p fuel lost) (fun _ => Q) E w := by
  have rest : ∀ w', ready w' → wp (do
      enforceDomains p lost
      let quiet := (← get).agenda.isEmpty
      if !(w.built && quiet) then passes p fuel fuel 0
      enforceSupports p : Work PUnit) (fun _ => Q) E w' := by
    intro w' h
    rw [wp_bind]
    refine wp.mono (domains w' h) (fun _ w₁ h₁ => ?_) fun _ _ h => h
    rw [wp_bind, wp_get]
    dsimp only
    rw [wp_ite]
    refine ⟨fun busy => ?_, fun still => ?_⟩
    · rw [wp_bind]
      have loud : ¬ (w.built = true ∧ w₁.agenda.isEmpty = true) := fun h => by simp [h.1, h.2] at busy
      exact wp.mono (passing w₁ h₁ loud) (fun _ w₂ h₂ => supports w₂ h₂) fun _ _ h => h
    · obtain ⟨built, empty⟩ : w.built = true ∧ w₁.agenda.isEmpty = true := by simpa using still
      exact supports w₁ (quiet built w₁ h₁ empty)
  unfold maintainRelaxed
  rw [wp_bind, wp_get]
  dsimp only
  rw [wp_ite]
  refine ⟨fun fresh => ?_, fun built => rest w (old (by simpa using built))⟩
  rw [wp_bind]
  refine wp.mono (first (by simpa using fresh)) (fun _ w₁ h₁ => ?_) fun _ _ h => h
  rw [wp_ite]
  refine ⟨fun hup => ?_, fun flat => rest w₁ (done (Bool.eq_false_iff.2 flat) w₁ h₁)⟩
  rw [wp_bind]
  exact wp.mono (complete hup w₁ h₁) (fun _ w₂ h₂ => rest w₂ h₂) fun _ _ h => h

end

end DecisionDiagrams
