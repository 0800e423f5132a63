import DecisionDiagrams.Proofs.Engine.Ample
import DecisionDiagrams.Proofs.Engine.Offshoots
import DecisionDiagrams.Proofs.Engine.Obeyed
import DecisionDiagrams.Proofs.Engine.Unrelaxed

/-! With room for all words, one pass which splits makes a diagram precise. It works through the layers from the root
to the sink. Where it is done with a layer, the state of every node of the layer is what its words mean: a node
which was tried has kept the arcs of one bundle, so its words mean the same, and one which was not does not
count as relaxed or is entered by a single arc. -/

namespace DecisionDiagrams

open Work Cascade

/-! ### Nodes which were tried -/

/-- If no node is selected, there was none to select from. -/
theorem splittable_eq_nil {p : Plan} {w : Workspace} {layer : Nat} {tried : List NodeId}
    (h : selectNode p w layer tried = .ok none) : splittable w layer tried = [] := by
  obtain ⟨ranked, hr, hb⟩ := ranked_of_selectNode h
  by_contra hne
  obtain ⟨x, hx⟩ := Preference.exists_best? (fun a b => exceeds a.2 b.2) (l := ranked) fun e => hne (by rw [← hr, e]; rfl)
  rw [hx] at hb
  cases hb

/-! ### Bundles of one state -/

theorem Candidate.leads_add {m : Model} {lead : ArcId → Checked State} {key : List Int} {down : State} {a : ArcId}
    (ha : lead a = .ok down) : ∀ {cs ds : List Candidate}, add m (fun c => c.down == down) key down a cs = .ok ds →
    (∀ c ∈ cs, ∀ a ∈ c.arcs, lead a = .ok c.down) → ∀ c ∈ ds, ∀ a ∈ c.arcs, lead a = .ok c.down
  | [], ds, h, hs => by
    obtain rfl := Except.ok.inj h
    intro c hc b hb
    obtain rfl := List.mem_singleton.1 hc
    obtain rfl := List.mem_singleton.1 hb
    exact ha
  | c :: rest, ds, h, hs => by
    unfold add at h
    split at h
    · rename_i hbel
      have e : c.down = down := eq_of_beq hbel
      have hj : c.join m down a = .ok { c with arcs := c.arcs ++ [a] } := by
        unfold join
        exact if_pos e
      rw [hj] at h
      obtain rfl := Except.ok.inj h
      intro d hd b hb
      rcases List.mem_cons.1 hd with rfl | hd
      · rcases List.mem_append.1 hb with hb | hb
        · exact hs c List.mem_cons_self b hb
        · rw [List.mem_singleton.1 hb, ha]
          exact congrArg _ e.symm
      · exact hs d (List.mem_cons_of_mem _ hd) b hb
    · obtain ⟨es, hr, h⟩ := Checked.bind_eq_ok.1 h
      obtain rfl := Except.ok.inj h
      intro d hd
      rcases List.mem_cons.1 hd with rfl | hd
      · exact hs d List.mem_cons_self
      · exact leads_add ha hr (fun e he => hs e (List.mem_cons_of_mem _ he)) d hd

/-- If bundles are made by states, all arcs of a bundle lead to its state. -/
theorem leads_of_bundleUp {p : Plan} {w : Workspace} {layer : Nat} (hsplit : p.options.split = .exactState) :
    ∀ (arcs : List ArcId) {cs ds : List Candidate}, (∀ c ∈ cs, ∀ a ∈ c.arcs, w.leads p layer a = .ok c.down) →
      arcs.foldlM (w.bundleUp p layer) cs = .ok ds → ∀ c ∈ ds, ∀ a ∈ c.arcs, w.leads p layer a = .ok c.down
  | [], cs, ds, hs, h => by
    obtain rfl := Except.ok.inj h
    exact hs
  | a :: arcs, cs, ds, hs, h => by
    rw [List.foldlM_cons] at h
    obtain ⟨es, hb, h⟩ := Checked.bind_eq_ok.1 h
    refine leads_of_bundleUp hsplit arcs (fun c hc => ?_) h
    have ungrouped : (p.options.split == .equivalenceClass && !p.model.equivalenceKeys.isEmpty) = false := by
      rw [hsplit]
      rfl
    unfold Workspace.bundleUp at hb
    obtain ⟨down, hd, hb⟩ := Checked.bind_eq_ok.1 hb
    simp only [ungrouped, Bool.false_eq_true, if_false] at hb
    obtain ⟨key, -, hb⟩ := Checked.bind_eq_ok.1 hb
    exact Candidate.leads_add hd hb hs c hc

theorem leads_of_bundled {p : Plan} {w : Workspace} {layer : Nat} {n : NodeId} {cs : List Candidate}
    (hsplit : p.options.split = .exactState) (hb : Bundled p layer n cs w) :
    ∀ c ∈ cs, ∀ a ∈ c.arcs, w.leads p layer a = .ok c.down :=
  leads_of_bundleUp hsplit _ (fun _ hc => absurd hc List.not_mem_nil) hb.bundles

/-- There are no more bundles than arcs. -/
theorem Candidate.Sorted.length_le {m : Model} {lead : ArcId → Checked State} {arcs : List ArcId} {cs : List Candidate}
    (h : Candidate.Sorted m lead arcs cs) : cs.length ≤ arcs.length := by
  have key : ∀ cs : List Candidate, (∀ c ∈ cs, c.arcs ≠ []) → cs.length ≤ (cs.flatMap (·.arcs)).length := by
    intro cs
    induction cs with
    | nil => exact fun _ => Nat.le_refl 0
    | cons c cs ih =>
      intro hne
      have := ih fun d hd => hne d (List.mem_cons_of_mem _ hd)
      have := List.length_pos_iff.2 (hne c List.mem_cons_self)
      rw [List.flatMap_cons, List.length_append, List.length_cons]
      omega
  exact h.perm.length_eq ▸ key cs fun c hc => (h.reaches c hc).ne_nil

/-! ### Layers which are done -/

/-- The states of the nodes above a layer are what their words mean. -/
def Graph.Sharp (g : Graph) (m : Model) (top : Nat) : Prop :=
  ∀ n, g.isActive n = true → g.layerOf n < top → g.Precise m n

theorem Graph.Sharp.anti {g : Graph} {m : Model} {top low : Nat} (h : g.Sharp m top) (hle : low ≤ top) : g.Sharp m low :=
  fun n on hl => h n on (Nat.lt_of_lt_of_le hl hle)

theorem Mends.sharp {top : Nat} {w w' : Workspace} {m : Model} (h : Mends top w w') (hs : w.graph.Sharp m top) :
    w'.graph.Sharp m top := by
  obtain ⟨f, hf, old⟩ := h.folds
  intro n on hl
  have hn := Nat.lt_of_lt_of_eq (Graph.lt_of_isActive _ on) h.size
  rw [h.layerOf n hn] at hl
  refine Graph.Precise.fold (f := f) ?_ hf ?_
  · rw [old n hn]
    exact hs n (h.active n hn on) hl
  · rw [old n hn]
    exact h.state n hn hl

/-- A node whose words mean the same stays so. -/
theorem Retraces.uniform {w w' : Workspace} (h : Retraces w w') {m : Model} {n : NodeId} (hn : n < w.graph.nodes.size)
    (hu : w.graph.Uniform m n) : w'.graph.Uniform m n := by
  obtain ⟨f, hf, old⟩ := h.folds
  exact Graph.Uniform.fold (f := f) ((old n hn).symm ▸ hu) hf

/-- The words of a node above the layer `depth` mean the same. -/
def Graph.Discerns (g : Graph) (m : Model) (depth : Nat) : Prop :=
  ∀ n, g.isActive n = true → g.layerOf n < depth → g.Uniform m n

theorem Graph.Sharp.discerns {g : Graph} {m : Model} {depth : Nat} (h : g.Sharp m depth) : g.Discerns m depth :=
  fun n on hl => ⟨_, h n on hl⟩

theorem Graph.Folds.discerns {f : NodeId → NodeId} {g g' : Graph} (hf : Graph.Folds f g g') {m : Model} {depth : Nat}
    (h : g.Discerns m depth) : g'.Discerns m depth := fun n on hl =>
  Graph.Uniform.fold (h (f n) (hf.node n on).1 ((hf.node n on).2.symm ▸ hl)) hf

theorem eq_of_mem_of_size_le_one {α : Type} {xs : Array α} (h : xs.size ≤ 1) {x y : α} (hx : x ∈ xs) (hy : y ∈ xs) :
    x = y := by
  obtain ⟨i, hi, rfl⟩ := Array.mem_iff_getElem.1 hx
  obtain ⟨j, hj, rfl⟩ := Array.mem_iff_getElem.1 hy
  congr 1
  omega

section

variable {p : Plan} {stale : Nat → Prop} {D : Nat → Int → Prop}

/-- While a pass works on the layer `top`: the laws of down states hold, the budget is ample, and the layers above are
done. -/
structure Sharpens (hm : p.model.Joined .down D) (W : Finset (List Int)) (top : Nat) (w : Workspace) : Prop where
  filed : Filed p w
  joined : Lawful (Law.joined hm) p.model.depth {} ([], w)
  flagged : Lawful (Law.unrelaxed hm.toDeclared) p.model.depth {} ([], w)
  ample : Ample W w
  sharp : w.graph.Sharp p.model top

namespace Sharpens

variable {hm : p.model.Joined .down D} {W : Finset (List Int)} {w w' : Workspace} {n : NodeId} {top layer : Nat}

theorem quiet (h : Sharpens hm W top w) (hq : Quiet p w w') : Sharpens hm W top w' where
  filed := h.filed.quiet hq
  joined := h.joined.quiet hq
  flagged := h.flagged.quiet hq
  ample := h.ample.mends (show Mends top w w' from .quiet hq)
  sharp := hq.graph ▸ h.sharp

theorem anti (h : Sharpens hm W top w) {low : Nat} (hle : low ≤ top) : Sharpens hm W low w :=
  { h with sharp := h.sharp.anti hle }

/-- A step which adds no node and keeps all laws. -/
theorem step {α : Type} {x : Work α} (h : Sharpens hm W top w)
    (lawful : ∀ L : Law p .down, Lawful L p.model.depth {} ([], w) →
      Secures p stale x (fun _ w' => Lawful L p.model.depth {} ([], w')) w)
    (mends : Throughout p (Mends top) x w) :
    Secures p stale x (fun _ w' => Sharpens hm W top w' ∧ Mends top w w') w := fun ht =>
  wp.mono (wp.and (wp.and (lawful _ h.joined ht) (lawful _ h.flagged ht)) (mends h.filed))
    (fun _ _ k => ⟨k.1.1.1, k.1.1.2.1, ⟨k.2.1, k.1.1.2.2, k.1.2.2.2, h.ample.mends k.2.2, k.2.2.sharp h.sharp⟩, k.2.2⟩)
    fun _ _ _ => trivial

/-- If all arcs to a node on the layer lead to one state, the words of the node mean the same. -/
theorem uniform_of_yields (h : Sharpens hm W layer w) (ht : Tidy p stale [] w) (h0 : 0 < layer)
    (hl : w.graph.layerOf n = layer) {s : State}
    (yields : ∀ a, w.graph.arcIsActive a = true → (w.graph.arc a).child = n → ∀ i, p.model.Yields .down (layer - 1)
      (w.graph.state (w.graph.arc a).parent .down) (w.graph.arc a).value i s) : w.graph.Uniform p.model n := by
  obtain ⟨l, rfl⟩ : ∃ l, layer = l + 1 := ⟨layer - 1, (Nat.succ_pred_eq_of_pos h0).symm⟩
  refine ⟨s, fun vs => Graph.means_of_yields ht.wf hl (fun a ha hch => ?_) yields⟩
  have hadj := ht.wf.adjacent a ha
  rw [hch, hl] at hadj
  exact h.sharp _ (ht.parent_active ha) (by omega)

/-! ### Splitting a node -/

theorem splitOff (hp : p.Distinct) (hx : p.options.isExact = false) (h0 : 0 < layer) (hd : layer < p.model.depth)
    {last : List ArcId} {c : Candidate} {cs : List Candidate} (hs : Splits p layer n last (c :: cs) w)
    (h : Sharpens hm W layer w) : Secures p stale (splitOff p n layer c) (fun _ w' => Sharpens hm W layer w' ∧
      SplitFrom (Law.joined hm) w n c.arcs w' ∧ Retraces w w') w := by
  intro ht
  have hn := Graph.lt_of_isActive _ hs.active
  have enters : c.Enters layer n w :=
    ⟨hn, hs.layerOf, fun a ha => (hs.arcs a ha).imp_left (Graph.lt_of_arcIsActive _)⟩
  refine wp.mono (wp.and (wp.and (hs.secures_head hp hx h0 hd h.joined ht) (hs.secures_head hp hx h0 hd h.flagged ht))
    (branches_splitOff h0 hn (.refl n ht.wf) enters h.filed)) (fun _ w' k => ?_) fun _ _ _ => trivial
  obtain ⟨⟨⟨ht', he, hj⟩, -, -, hf⟩, hfiled, -, ho⟩ := k
  obtain ⟨a, ha⟩ := List.exists_mem_of_ne_nil _ (hs.reaches c List.mem_cons_self).ne_nil
  refine ⟨ht', he, ⟨hfiled, hj.lawful, hf.lawful,
    h.ample.splitOff ht ht' h.joined hs.active ha (hs.arcs a ha).1 (hs.arcs a ha).2 hj ho, fun m om hl => ?_⟩,
    hj, ho.retraces hs.active⟩
  -- new nodes stand on the layer itself
  have hold : m < w.graph.nodes.size := by
    by_contra hge
    rw [ho.layer m (Graph.lt_of_isActive _ om) (Nat.not_lt.1 hge), hs.layerOf] at hl
    exact Nat.lt_irrefl _ hl
  rw [he.layerOf m hold] at hl
  refine Graph.Precise.fold (f := w.original n) ?_ (ho.folds hs.active) ?_
  · rw [Offshoots.original_old hold]
    exact h.sharp m (he.active m hold om) hl
  · rw [Offshoots.original_old hold]
    exact hj.states m hold .down

/-- If the arcs which a node keeps lead to one state, its words mean the same when the other bundles are split off. -/
theorem splitOffs (hp : p.Distinct) (hx : p.options.isExact = false) (h0 : 0 < layer) (hd : layer < p.model.depth)
    {last : List ArcId} {cs : List Candidate} (hs : Splits p layer n last cs w) (h : Sharpens hm W layer w) {s : State}
    (leads : ∀ a ∈ last, w.leads p layer a = .ok s) :
    Secures p stale (cs.forM (Work.splitOff p n layer)) (fun _ w' => Sharpens hm W layer w' ∧ Retraces w w' ∧
      w'.graph.Uniform p.model n) w := by
  refine (Secures.forM (fun rest w' => Splits p layer n last rest w' ∧ Sharpens hm W layer w' ∧ Retraces w w' ∧
    ∀ a ∈ last, ∀ i, p.model.Yields .down (layer - 1) (w'.graph.state (w'.graph.arc a).parent .down)
      (w'.graph.arc a).value i s) _ ⟨hs, h, .refl w, fun a ha => hm.yields_step (leads a ha)⟩
    fun c rest w₁ ht hi => ?_).mono fun _ w' ht' _ hi => ⟨hi.2.1, hi.2.2.1, ?_⟩
  · obtain ⟨hs₁, h₁, hr₁, hy₁⟩ := hi
    refine (h₁.splitOff hp hx h0 hd hs₁).mono fun _ w₂ _ he k => ⟨hs₁.tail ht.wf he k.2.1, k.1, hr₁.trans k.2.2,
      fun a ha => ?_⟩
    have ona := ((hs₁.into a).1 (List.mem_append_right _ ha)).1
    have hlt := Graph.lt_of_arcIsActive _ ona
    rw [he.parent a hlt, he.value a hlt, k.2.1.states _ (ht.wf.parent_lt ona)]
    exact hy₁ a ha
  · obtain ⟨hs', h', -, hy'⟩ := hi
    exact h'.uniform_of_yields ht' h0 hs'.layerOf fun a ha hch => hy' a ((hs'.into a).2 ⟨ha, hch⟩)

/-- If all arcs of a node are in bundles of one state, its words mean the same. -/
theorem uniform_of_bundled (h : Sharpens hm W layer w) (ht : Tidy p stale [] w) (hsplit : p.options.split = .exactState)
    {cs : List Candidate} (hb : Bundled p layer n cs w) {s : State} (one : ∀ c ∈ cs, c.down = s) :
    w.graph.Uniform p.model n := by
  refine h.uniform_of_yields ht hb.pos hb.layerOf (s := s) fun a ona hch => ?_
  obtain ⟨c, hc, ha⟩ := hb.exists_mem ht.wf ona hch
  exact one c hc ▸ hm.yields_step (leads_of_bundled hsplit hb c hc a ha)

/-- A node of the layer takes over the state of its only bundle. -/
theorem adoptBundle (hp : p.Distinct) (hx : p.options.isExact = false) (hr : p.model.ReadsOwn) (h : Sharpens hm W layer w)
    {c : Candidate} (hb : Bundled p layer n [c] w) :
    Secures p stale (Work.adoptState p .down n c.down) (fun _ w' => Sharpens hm W layer w' ∧ Retraces w w') w :=
  (h.step (fun _ hL => secures_adoptBundle hp hx hr hb hL)
    (traces_adoptState hb.lt (fun _ => hb.layerOf.symm ▸ Nat.le_refl _) _)).mono fun _ _ _ _ k => ⟨k.1, k.2.toRetraces⟩

end Sharpens

/-! ### Splitting a layer -/

/-- The nodes of a layer with which splitting is done. -/
def Handled (p : Plan) (layer : Nat) (w : Workspace) : Prop :=
  ∀ n, w.graph.isActive n = true → w.graph.layerOf n = layer →
    w.graph.Uniform p.model n ∨ (w.graph.state n .down).relaxed = false ∨ (w.graph.incoming n).size ≤ 1

/-- While a layer is split. The words of a node which was tried mean the same. -/
structure Trying (stale : Nat → Prop) (hm : p.model.Joined .down D) (W : Finset (List Int)) (layer : Nat) (v : Workspace)
    (tried : List NodeId) (w : Workspace) : Prop where
  upkept : Upkept p stale v w
  sharpens : Sharpens hm W layer w
  uniform : ∀ n ∈ tried, n < w.graph.nodes.size ∧ w.graph.Uniform p.model n

namespace Trying

variable {hm : p.model.Joined .down D} {W : Finset (List Int)} {v w w' : Workspace} {n : NodeId} {layer : Nat}
  {tried : List NodeId}

theorem goesOn (h : Trying stale hm W layer v tried w) (hu : Upkept p stale v w') (hs : Sharpens hm W layer w')
    (hr : Retraces w w') : Trying stale hm W layer v tried w' :=
  ⟨hu, hs, fun n hn => ⟨Nat.lt_of_lt_of_le (h.uniform n hn).1 hr.nodes, hr.uniform (h.uniform n hn).1 (h.uniform n hn).2⟩⟩

theorem tick (h : Trying stale hm W layer v tried w) (hn : n < w.graph.nodes.size) (hu : w.graph.Uniform p.model n) :
    Trying stale hm W layer v (n :: tried) w :=
  ⟨h.upkept, h.sharpens, List.forall_mem_cons.2 ⟨⟨hn, hu⟩, h.uniform⟩⟩

/-- A node which is not selected for splitting any more is handled. -/
theorem handled (h : Trying stale hm W layer v tried w) (hs : selectNode p w layer tried = .ok none) :
    Handled p layer w := by
  intro n on hl
  have rest := List.filter_eq_nil_iff.1 (splittable_eq_nil hs) n
    (Array.mem_toList_iff.2 (h.upkept.1.wf.mem_layer.2 ⟨on, hl⟩))
  by_cases hmem : n ∈ tried
  · exact Or.inl (h.uniform n hmem).2
  · refine Or.inr (or_iff_not_imp_left.2 fun hrel => Nat.not_lt.1 fun hsize => rest ?_)
    have hrel : (w.graph.node n).states.down.relaxed = true := Bool.eq_true_of_not_eq_false hrel
    have hsize : 1 < (w.graph.node n).incoming.size := hsize
    simp [hrel, hsize, hmem]

/-- All bundles of a node but one are split off, as there is room for them. -/
theorem split (hp : p.Distinct) (hx : p.options.isExact = false) (hsplit : p.options.split = .exactState)
    (hd : layer < p.model.depth) {maxWidth : Nat} (wide : ∀ l, (W.filter fun vs => vs.length = l).card < maxWidth)
    {cs ds : List Candidate} (hb : Bundled p layer n cs w) (hperm : ds.Perm cs) (hlen : 1 < cs.length)
    (h : Trying stale hm W layer v tried w) :
    wp ((ds.take (min (maxWidth - w.graph.width layer) (min (cs.length - 1) w.budget))).forM (Work.splitOff p n layer))
      (fun _ => Trying stale hm W layer v (n :: tried)) (fun _ _ => True) w := by
  rw [h.sharpens.ample.room_eq h.upkept.1 h.sharpens.joined hb.active hb.layerOf hb.sorted.length_le (wide layer)]
  obtain ⟨d, hlast⟩ : ∃ d, ds.drop (cs.length - 1) = [d] := by
    refine List.length_eq_one_iff.1 ?_
    rw [List.length_drop, hperm.length_eq]
    omega
  have hmem : d ∈ cs := hperm.subset (List.mem_of_mem_drop (hlast ▸ List.mem_singleton_self d))
  have less : cs.length - 1 < cs.length := by omega
  have start := Splits.of_bundled h.upkept.1.wf hb hperm less
  refine (h.sharpens.splitOffs hp hx hb.pos hd start (s := d.down) fun a ha => ?_).goesOn h.upkept fun _ w' hu k =>
    (h.goesOn hu k.1 k.2.1).tick (Nat.lt_of_lt_of_le hb.lt k.2.1.nodes) k.2.2
  rw [hlast] at ha
  exact leads_of_bundled hsplit hb d hmem a (by simpa using ha)

end Trying

namespace Sharpens

variable {hm : p.model.Joined .down D} {W : Finset (List Int)} {w w' : Workspace} {n : NodeId} {top layer : Nat}

/-- Splitting only ends when it moves back or when it is done with all nodes of the layer. -/
theorem splitNodes (hp : p.Distinct) (hx : p.options.isExact = false) (hr : p.model.ReadsOwn)
    (hsplit : p.options.split = .exactState) (h0 : 0 < layer) (hd : layer < p.model.depth) {maxWidth : Nat}
    (wide : ∀ l, (W.filter fun vs => vs.length = l).card < maxWidth) (fuel : Nat) (h : Sharpens hm W layer w) :
    Secures p stale (Work.splitNodes p layer maxWidth fuel []) (fun next w' => Sharpens hm W layer w' ∧
      (∀ l, next = some l → 0 < l ∧ l ≤ layer) ∧ (next = none → Handled p layer w')) w := by
  intro ht
  have discards : ∀ {n w₁} {cs : List Candidate}, Sharpens hm W layer w₁ → Secures p stale (Work.discardDead p n layer cs)
      (fun _ w' => Sharpens hm W layer w') w₁ := fun h₁ =>
    (h₁.step (fun _ hL => secures_discardDead hp hL _ layer _) (traces_discardDead _ layer _)).mono fun _ _ _ _ k => k.1
  refine wp.mono (Splitter.wp_splitNodes (I := Trying stale hm W layer w) (E := fun _ _ => True)
    (Q := fun next w' => Upkept p stale w w' ∧ Sharpens hm W layer w' ∧ (∀ l, next = some l → 0 < l ∧ l ≤ layer) ∧
      (next = none → Handled p layer w')) ?_ fuel ⟨⟨ht, .refl w⟩, h, nofun⟩)
    (fun _ _ k => ⟨k.1.1, k.1.2, k.2⟩) fun _ _ k => k
  exact
    { sound := fun k => ⟨k.upkept.1.wf, k.upkept.1.cached⟩
      quiet := fun hq k => k.goesOn ⟨hq.tidy k.upkept.1, k.upkept.2.trans (.of_quiet hq)⟩ (k.sharpens.quiet hq) (.quiet hq)
      faults := fun _ _ => trivial
      exhausted := fun _ => trivial
      full := fun k hfull => absurd ⟨Nat.lt_of_le_of_lt (k.sharpens.ample.width_le k.upkept.1 k.sharpens.joined layer)
        (wide layer), Nat.lt_of_le_of_lt (Nat.zero_le _) k.sharpens.ample.spare⟩ hfull
      done := fun k hs => ⟨k.upkept, k.sharpens, nofun, fun _ => k.handled hs⟩
      kept := fun {_ _ _ cs} hb only k => by
        refine k.tick hb.lt ?_
        cases cs with
        | nil => exact k.sharpens.uniform_of_bundled k.upkept.1 hsplit hb (s := default) nofun
        | cons c rest =>
          obtain rfl : rest = [] := (List.cons.inj (only c List.mem_cons_self).1).2
          exact k.sharpens.uniform_of_bundled k.upkept.1 hsplit hb fun d hd => congrArg _ (List.mem_singleton.1 hd)
      adopt := fun hb k => (k.sharpens.adoptBundle hp hx hr hb).goesOn k.upkept fun _ _ hu l =>
        (k.goesOn hu l.1 l.2).tick (Nat.lt_of_lt_of_le hb.lt l.2.nodes) (l.2.uniform hb.lt
          (k.sharpens.uniform_of_bundled k.upkept.1 hsplit hb fun d hd => congrArg _ (List.mem_singleton.1 hd)))
      discard := fun hb k => (discards k.sharpens).goesOn k.upkept fun _ w' hu hs _ => by
        refine ⟨⟨hu.1.congr rfl rfl rfl hu.1.cached, hu.2.trans (.of_quiet (p := p) (.tally _ w'))⟩, hs.quiet (.tally _ w'),
          fun l e => ?_, nofun⟩
        obtain rfl := Option.some.inj e
        exact ⟨Nat.lt_of_lt_of_le Nat.one_pos (Nat.le_max_left _ _), Nat.max_le.2 ⟨h0, Nat.sub_le _ _⟩⟩
      split := fun hb hd' hlen k => k.split hp hx hsplit hd wide hb hd' hlen }

/-- When splitting is done with a layer and nothing waits there, its nodes are precise as well. -/
theorem next (hx : p.options.isExact = false) (h0 : 0 < layer) (ht : Tidy p stale [] w) (h : Sharpens hm W layer w)
    (calm : w.agenda.waiting .down layer = []) (handled : Handled p layer w) : Sharpens hm W (layer + 1) w := by
  obtain ⟨l, rfl⟩ : ∃ l, layer = l + 1 := ⟨layer - 1, (Nat.succ_pred_eq_of_pos h0).symm⟩
  refine { h with sharp := fun n on hl => ?_ }
  rcases Nat.lt_or_eq_of_le (Nat.lt_succ_iff.1 hl) with hl | hl
  · exact h.sharp n on hl
  have hsown : w.Sown p .down n := Nat.lt_of_lt_of_eq (Nat.succ_pos l) hl.symm
  have hfeed : w.feedLayer .down n = l := by
    show w.graph.layerOf n - 1 = l
    rw [hl]
    rfl
  have parents : ∀ q, w.graph.isActive q = true → w.graph.layerOf q = l → w.graph.Precise p.model q := fun q onq hq =>
    h.sharp q onq (hq ▸ Nat.lt_succ_self _)
  -- it is enough that all arcs to the node lead to its state
  have of_yields : (∀ a, w.graph.arcIsActive a = true → (w.graph.arc a).child = n → ∀ i, p.model.Yields .down l
      (w.graph.state (w.graph.arc a).parent .down) (w.graph.arc a).value i (w.graph.state n .down)) →
      w.graph.Precise p.model n := fun yields vs => Graph.means_of_yields ht.wf hl (fun a ha hch => by
    have hadj := ht.wf.adjacent a ha
    rw [hch, hl] at hadj
    exact parents _ (ht.parent_active ha) (Nat.succ.inj hadj).symm) yields
  have promise : ∀ i, p.model.Promises (p.options.isExact = false) l (w.enters .down n) (fun q => w.graph.state q .down)
      (w.graph.state n .down) (some i) := fun i => hfeed ▸ h.flagged.of_calm (fun _ => hl ▸ calm) on hsown (some i)
  rcases handled n on hl with hu | hrel | hsize
  · refine precise_of_least hm.toDeclared h.joined ht hl (fun i => ?_) hu parents
    exact hfeed ▸ h.joined.of_calm (fun _ => hl ▸ calm) on hsown (some i) hx trivial
  · exact of_yields fun a ha hch i => (promise i).1 hrel _ _ ⟨a, ha, hch, rfl, rfl⟩
  · refine of_yields fun a ha hch i => (promise i).2 hx _ _ ⟨a, ha, hch, rfl, rfl⟩ ?_
    rintro q v ⟨b, hb, hchb, rfl, rfl⟩
    obtain rfl := eq_of_mem_of_size_le_one hsize (ht.wf.mem_incoming.2 ⟨hb, hchb⟩) (ht.wf.mem_incoming.2 ⟨ha, hch⟩)
    exact ⟨rfl, rfl⟩

/-! ### Passes -/

theorem recomputeLayer (hp : p.Distinct) (hx : p.options.isExact = false) (hr : p.model.ReadsOwn) (h : Sharpens hm W layer w) :
    Secures p stale (Work.recomputeLayer p .down layer) (fun _ w' => Sharpens hm W layer w') w :=
  (h.step (fun _ hL => secures_recomputeLayer hp hx hr .down layer hL)
    (traces_recomputeLayer fun _ => Nat.le_refl layer)).mono fun _ _ _ _ k => k.1

/-- A pass which splits nodes only ends when it is done with all layers above the sink. -/
theorem sweepDown (hp : p.Distinct) (hx : p.options.isExact = false) (hr : p.model.ReadsOwn)
    (hsplit : p.options.split = .exactState)
    (wide : ∀ l, (W.filter fun vs => vs.length = l).card < p.options.maxWidth.getD 0) (fuel : Nat)
    (h : Sharpens hm W 0 w) (ht : Tidy p stale [] w) :
    wp (Work.sweepDown p fuel true) (fun _ w' => Tidy p stale [] w' ∧ Sharpens hm W p.model.depth w')
      (fun _ _ => True) w := by
  let I : Nat → Workspace → Prop := fun layer w' =>
    Tidy p stale [] w' ∧ 0 < layer ∧ Sharpens hm W (min layer p.model.depth) w'
  let settled : Nat → Workspace → Prop := fun layer w' =>
    Tidy p stale [] w' ∧ 0 < layer ∧ layer ≤ p.model.depth ∧ Sharpens hm W layer w'
  have root : w.graph.Sharp p.model (min 1 p.model.depth) := fun n on hl =>
    h.joined.precise_root ht on (Nat.lt_one_iff.1 (Nat.lt_of_lt_of_le hl (Nat.min_le_left _ _)))
  have start : ∀ f, I 1 (w.tally f) := fun f =>
    ⟨ht.congr rfl rfl rfl ht.cached, Nat.one_pos, quiet { h with sharp := root } (.tally f w)⟩
  refine wp_sweepDown.2 ?_
  refine wp.mono (wp_sweepDownSteps (I := I) (J := settled) (E := fun _ _ => True) (fun _ => trivial)
    (fun {layer w₁} hle k => ?_) (fun k _ => ⟨k.1, k.2.1, k.2.2.2.anti (Nat.min_le_left _ _)⟩) (fun _ hlt k => ?_)
    (fun {layer w₁} k hs => ⟨k.1, Nat.succ_pos _, k.2.2.2.anti ?_⟩) fuel (start _))
    (fun _ w' k => ?_) fun _ _ k => k
  · have hcur : nextDown w₁ layer ≤ p.model.depth := (nextDown_le layer).trans hle
    refine wp.mono ((k.2.2.anti (Nat.le_min.2 ⟨nextDown_le layer, hcur⟩)).recomputeLayer hp hx hr k.1)
      (fun _ _ l => ⟨l.1, nextDown_pos k.2.2.filed k.2.1, hcur, l.2.2⟩) fun _ _ l => l
  · refine wp.mono (k.2.2.2.splitNodes hp hx hr hsplit k.2.1 hlt wide fuel k.1) (fun next w₂ l => ?_) fun _ _ l => l
    obtain ⟨ht₂, -, h₂, hnext, hdone⟩ := l
    refine ⟨fun l e => ⟨ht₂, (hnext l e).1, h₂.anti ((Nat.min_le_left _ _).trans (hnext l e).2)⟩, fun e => ?_⟩
    split_ifs with hpend
    · exact ⟨ht₂, k.2.1, h₂.anti (Nat.min_le_left _ _)⟩
    · have calm : w₂.agenda.waiting .down _ = [] := not_not.1 (mt Agenda.isPending_iff.2 hpend)
      exact ⟨ht₂, Nat.succ_pos _, (h₂.next hx k.2.1 ht₂ calm (hdone e)).anti (Nat.min_le_left _ _)⟩
  · -- the budget is never used up, so this is the layer of the sink
    have hbudget : 0 < w₁.budget := Nat.lt_of_le_of_lt (Nat.zero_le _) k.2.2.2.ample.spare
    refine (Nat.min_le_right _ _).trans (Nat.not_lt.1 fun hlt => ?_)
    simp [hlt, hbudget] at hs
  · obtain ⟨l, hl, k⟩ := k
    exact ⟨k.1, k.2.2.anti (Nat.le_min.2 ⟨Nat.le_of_lt hl, Nat.le_refl _⟩)⟩

end Sharpens

/-- What only traces a diagram which tells states apart leaves one which does. -/
theorem Throughout.discerns {x : Work PUnit} {w : Workspace} (h : Throughout p Retraces x w) (hf : Filed p w)
    {m : Model} {depth : Nat} (hd : w.graph.Discerns m depth) :
    wp x (fun _ w' => Filed p w' ∧ w'.graph.Discerns m depth) (fun _ _ => True) w :=
  wp.mono (h hf) (fun _ _ k => by
    obtain ⟨f, hf, -⟩ := k.2.folds
    exact ⟨k.1, hf.discerns hd⟩) fun _ _ _ => trivial

/-- Passes the first of which splits tell states apart. -/
theorem Sharpens.wp_passes {hm : p.model.Joined .down D} {W : Finset (List Int)} {w : Workspace} (hp : p.Distinct)
    (hx : p.options.isExact = false) (hr : p.model.ReadsOwn) (hsplit : p.options.split = .exactState)
    (splits : 0 < p.options.splitPasses)
    (wide : ∀ l, (W.filter fun vs => vs.length = l).card < p.options.maxWidth.getD 0) (fuel rounds : Nat)
    (ht : Tidy p stale [] w) (h : Sharpens hm W 0 w) : wp (passes p fuel rounds 0)
      (fun _ w' => Filed p w' ∧ w'.graph.Discerns p.model p.model.depth) (fun _ _ => True) w := by
  cases rounds with
  | zero => trivial
  | succ rounds =>
    let risen : Workspace → Prop := fun w' => Tidy p stale [] w' ∧ Sharpens hm W 0 w'
    let swept : Workspace → Prop := fun w' => Filed p w' ∧ w'.graph.Discerns p.model p.model.depth
    refine wp_passes_succ risen swept (fun hup => ?_) (fun _ => ⟨ht, h⟩) (fun w' k => ?_) (fun _ k _ => k)
      fun _ k => (traces_passes fuel rounds _ _).discerns k.1 k.2
    · exact wp.mono (h.step (fun _ hL => secures_sweepUp hp hx hr hup fuel hL) (traces_sweepUp hup 0 fuel) ht)
        (fun _ _ k => ⟨k.1, k.2.2.1⟩) fun _ _ k => k
    · rw [decide_eq_true splits]
      exact wp.mono (k.2.sweepDown hp hx hr hsplit wide fuel k.1) (fun _ _ l => ⟨l.2.filed, l.2.sharp.discerns⟩)
        fun _ _ l => l

/-! ### The first propagation -/

/-- With room and a budget for all words, the first propagation leaves a diagram which tells states apart. -/
theorem wp_maintainRelaxed_discerns (hm : p.model.Joined .down D) {W : Finset (List Int)} {w : Workspace}
    (hp : p.Distinct) (hx : p.options.isExact = false) (hv : p.options.isValid = true) (hr : p.model.ReadsOwn)
    (hsplit : p.options.split = .exactState) (splits : 0 < p.options.splitPasses)
    {width : Nat} (bound : ∀ l, (W.filter fun vs => vs.length = l).card ≤ width)
    (wide : width < p.options.maxWidth.getD 0) (rich : p.model.depth * width < w.budget)
    (fuel : Nat) (lost : List Nat) {k : Nat} (hb : w.built = false) (hu : w.upKnown = !p.model.hasUp)
    (hg : w.graph = Graph.withLayers k) (hsized : ∀ e, (w.agenda.get e).size = p.model.depth + 1)
    (allowed : ∀ l < p.model.depth, ∀ v, w.domains.contains (p.model.var l) v = true → D l v)
    (within : ∀ {w'}, Lawful (Law.joined hm) p.model.depth {} ([], w') → w'.graph.Wf →
      ∀ n vs, w'.graph.Spells n vs → vs ∈ W)
    (ht : Tidy p stale [] w) (hs : w.agenda.Suits p w.graph) :
    wp (maintainRelaxed p fuel lost) (fun _ w' => w'.graph.Discerns p.model p.model.depth) (fun _ _ => True) w := by
  let risen : Workspace → Prop := fun w' => Tidy p stale [] w' ∧ Sharpens hm W 0 w'
  let calm : Workspace → Prop := fun w' => Filed p w' ∧ w'.graph.Discerns p.model p.model.depth
  have hwidth := Options.firstWidth_ne_zero hv
  have new : w.built ≠ true := by simp [hb]
  refine wp_maintainRelaxed_of risen risen risen calm (fun _ => ?_) (fun _ w' k => ?_) (fun _ _ k => k)
    (fun h => absurd h new) (fun w' k => ?_) (fun w' k _ => ?_) (fun h => absurd h new) fun w' k => ?_
  · refine wp.mono (wp.and (wp.and
      (wp_grow_founded (L := Law.joined hm) hp hwidth hg hu hsized allowed ht)
      (wp_grow_founded (L := Law.unrelaxed hm.toDeclared) hp hwidth hg hu hsized (fun _ _ _ _ => trivial) ht))
      (determined_grow hp hwidth hg ht hs)) (fun _ w₁ k => ?_) fun _ _ _ => trivial
    obtain ⟨⟨⟨ht₁, hj, -⟩, -, hf, -⟩, hfiled, hd, hpaid⟩ := k
    refine ⟨ht₁, hfiled, hj, hf, ⟨hd, within hj ht₁.wf, ?_⟩, fun n _ hl => absurd hl (Nat.not_lt_zero _)⟩
    have hspare := hd.sum_words_le ht₁.wf hj.low bound
    exact Nat.lt_of_le_of_lt hspare (Nat.lt_of_lt_of_le rich hpaid)
  · exact wp.mono (k.2.step (fun _ hL => secures_completeNodes hp hx hL) traces_completeNodes k.1)
      (fun _ _ l => ⟨l.1, l.2.2.1⟩) fun _ _ l => l
  · exact wp.mono (k.2.step (fun _ hL => secures_enforceDomains hp hL lost) (traces_enforceDomains lost) k.1)
      (fun _ _ l => ⟨l.1, l.2.2.1⟩) fun _ _ l => l
  · exact k.2.wp_passes hp hx hr hsplit splits (fun l => Nat.lt_of_le_of_lt (bound l) wide) fuel fuel k.1
  · exact wp.mono (traces_enforceSupports.retraces.discerns k.1 k.2) (fun _ _ l => l.2) fun _ _ l => l

end

end DecisionDiagrams
