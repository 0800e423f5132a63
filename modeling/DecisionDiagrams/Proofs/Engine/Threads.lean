import DecisionDiagrams.Proofs.Engine.Upkeep

/-! What the removal of arcs leaves of the paths through a diagram. Once all debts are paid, every node
which is left has an arc on both sides, so it lies on a path from the root to the sink. A path whose
own arcs are not taken out stays, and while there is one nothing can get stuck: its arcs support
their labels, and its nodes keep an arc on both sides. -/

namespace DecisionDiagrams

open Work Cascade

/-- Whether a node needs arcs in a direction: above the last layer which was built to the next layer,
and below the root to the layer before. -/
def Inner (top : Nat) (w : Workspace) : Direction → NodeId → Prop
  | .up, n => w.graph.layerOf n < top
  | .down, n => 0 < w.graph.layerOf n

/-- Every active node has the arcs it needs, or has to be settled, or is one of the listed. -/
def Fed (top : Nat) (listed : Direction → NodeId → Prop) (c : Config) : Prop :=
  ∀ direction n, c.2.graph.isActive n = true → Inner top c.2 direction n →
    (c.2.arcsOn direction n).isEmpty = false ∨ Debt.settle direction n ∈ c.1 ∨ listed direction n

section

variable {p : Plan} {top : Nat} {listed : Direction → NodeId → Prop} {w w' : Workspace} {c d : Config}

theorem Inner.of_layerOf {direction : Direction} {n : NodeId} (h : Inner top w' direction n)
    (hl : w'.graph.layerOf n = w.graph.layerOf n) : Inner top w direction n := by
  cases direction
  · exact Nat.lt_of_lt_of_eq (h : 0 < w'.graph.layerOf n) hl
  · exact Nat.lt_of_le_of_lt (Nat.le_of_eq hl.symm) (h : w'.graph.layerOf n < top)

theorem arcsOn_unhook_of_ne (hw : w.graph.Wf) {a : ArcId} {direction : Direction} {n : NodeId}
    (hn : n ≠ endOn w.graph direction a) : (w.unhook a).arcsOn direction n = w.arcsOn direction n := by
  have hl := hw.listed a
  cases direction with
  | up =>
    show (w.graph.detach a).outgoing n = w.graph.outgoing n
    rw [Graph.outgoing_detach hl]
    exact if_neg hn
  | down =>
    show (w.graph.detach a).incoming n = w.graph.incoming n
    rw [Graph.incoming_detach hl]
    exact if_neg hn

theorem arcsOn_retire (hw : w.graph.Wf) (n m : NodeId) (direction : Direction) :
    (w.retire n).arcsOn direction m = w.arcsOn direction m := by
  cases direction with
  | up => exact Workspace.outgoing_retire hw m
  | down => exact Workspace.incoming_retire hw m

theorem arcsOn_congr (h : w'.graph = w.graph) (direction : Direction) (n : NodeId) :
    w'.arcsOn direction n = w.arcsOn direction n := by
  unfold Workspace.arcsOn
  rw [h]

/-- A debt may be dropped if its node is gone or has the arcs it needs. -/
theorem Fed.paid {direction : Direction} {n : NodeId} {debts : List Debt}
    (h : Fed top listed (.settle direction n :: debts, w))
    (hn : w.graph.isActive n = true → (w.arcsOn direction n).isEmpty = false) :
    Fed top listed (debts, w) := by
  intro e m hm hi
  rcases h e m hm hi with hf | hd | hl
  · exact Or.inl hf
  · rcases List.mem_cons.1 hd with he | hd
    · obtain ⟨rfl, rfl⟩ := Debt.settle.inj he
      exact Or.inl (hn hm)
    · exact Or.inr (Or.inl hd)
  · exact Or.inr (Or.inr hl)

theorem Fed.owe {debts more : List Debt} (h : Fed top listed (debts, w))
    (hm : ∀ x ∈ debts, x ∈ more) : Fed top listed (more, w) := by
  intro e m hm' hi
  exact (h e m hm' hi).imp id (Or.imp (hm _) id)

theorem Fed.congr {debts : List Debt} (h : Fed top listed (debts, w)) (hg : w'.graph = w.graph) :
    Fed top listed (debts, w') := by
  intro e m hm hi
  rw [arcsOn_congr hg]
  rw [hg] at hm
  exact h e m hm (hi.of_layerOf (by rw [hg]))

theorem Fed.unhook {debts : List Debt} (h : Fed top listed (debts, w)) (hw : w.graph.Wf) {a : ArcId}
    (ha : w.graph.arcIsActive a = true) : Fed top listed (owed w a debts, w.unhook a) := by
  intro e m hm hi
  have hs := shrinks_unhook hw ha
  by_cases he : m = endOn w.graph e a
  · refine Or.inr (Or.inl ?_)
    subst he
    cases e
    · exact List.mem_cons_of_mem _ List.mem_cons_self
    · exact List.mem_cons_self
  · rw [arcsOn_unhook_of_ne hw he]
    refine (h e m (hs.active m hm) (hi.of_layerOf (hs.layerOf m))).imp id (Or.imp (fun hd => ?_) id)
    exact List.mem_cons_of_mem _ (List.mem_cons_of_mem _ hd)

theorem Fed.retire {debts : List Debt} (h : Fed top listed (debts, w)) (hw : w.graph.Wf) {n : NodeId}
    (hn : w.graph.isActive n = true) : Fed top listed (debts, w.retire n) := by
  intro e m hm hi
  have hs := shrinks_retire hw hn
  rw [arcsOn_retire hw]
  exact h e m (hs.active m hm) (hi.of_layerOf (hs.layerOf m))

theorem Cascade.Step.fed (h : Step p c d) (hc : Census p c.2) (hf : Fed top listed c) : Fed top listed d := by
  cases h with
  | visit => exact hf.owe fun _ => List.mem_cons_of_mem _
  | gone off => exact hf.paid fun on => absurd on (by rw [off]; simp)
  | note _ fed => exact (hf.paid fun _ => fed).congr Workspace.graph_schedule
  | @retire direction n debts w on _ _ _ =>
    -- the debt of the node is dropped because the node is not active any more
    have hr := hf.retire hc.wf on
    refine (hr.paid fun h => ?_).owe fun _ => List.mem_cons_of_mem _
    exact absurd rfl ((Workspace.isActive_retire hc.wf n).1 h).1
  | unhook _ on => exact hf.unhook hc.wf on
  | @drained n debts w _ _ _ =>
    intro e m hm hi
    refine (hf e m hm hi).imp id (Or.imp (fun hd => ?_) id)
    exact List.mem_of_ne_of_mem (by simp) hd
  | forget => exact hf.congr rfl

theorem Cascade.Steps.fed {debts left : List Debt} (h : Steps p (debts, w) (left, w')) (hc : Census p w)
    (hf : Fed top listed (debts, w)) : Fed top listed (left, w') :=
  (Steps.keeps (I := fun c => Census p c.2 ∧ Fed top listed c)
    (fun _ _ hs hi => ⟨hs.census hi.1, hs.fed hi.1 hi.2⟩) h ⟨hc, hf⟩).2

end

/-- Every arc leads to an active node, unless that node is just being drained. -/
def Reached (c : Config) : Prop :=
  ∀ a, c.2.graph.arcIsActive a = true →
    c.2.graph.isActive (c.2.graph.arc a).child = true ∨ Debt.drain (c.2.graph.arc a).child ∈ c.1

section

variable {p : Plan} {w w' : Workspace} {c d : Config}

theorem Reached.owe {debts more : List Debt} (h : Reached (debts, w))
    (hm : ∀ n, Debt.drain n ∈ debts → Debt.drain n ∈ more) : Reached (more, w) :=
  fun a ha => (h a ha).imp_right (hm _)

theorem Reached.unhook {debts : List Debt} (h : Reached (debts, w)) (hw : w.graph.Wf) {a : ArcId}
    (ha : w.graph.arcIsActive a = true) : Reached (owed w a debts, w.unhook a) := by
  intro b hb
  have hs := shrinks_unhook hw ha
  show (w.unhook a).graph.isActive ((w.unhook a).graph.arc b).child = true ∨ _
  rw [hs.child, Workspace.isActive_unhook hw]
  refine (h b (hs.arcActive b hb)).imp_right fun hm => ?_
  exact List.mem_cons_of_mem _ (List.mem_cons_of_mem _ hm)

theorem Cascade.Step.reached (h : Step p c d) (hc : Census p c.2) (hr : Reached c) : Reached d := by
  have paid : ∀ {direction n debts w}, Reached (.settle direction n :: debts, w) →
      Reached (debts, w) :=
    fun h => h.owe fun _ => List.mem_of_ne_of_mem (by simp)
  cases h with
  | visit => exact hr.owe fun _ => List.mem_cons_of_mem _
  | gone => exact paid hr
  | note =>
    unfold Reached
    rw [Workspace.graph_schedule]
    exact paid hr
  | @retire direction n debts w on _ _ _ =>
    intro a ha
    have hs := shrinks_retire hc.wf on
    show (w.retire n).graph.isActive ((w.retire n).graph.arc a).child = true ∨ _
    rw [hs.child, Workspace.isActive_retire hc.wf]
    by_cases e : (w.graph.arc a).child = n
    · rw [e]
      exact Or.inr List.mem_cons_self
    · exact (paid hr a (hs.arcActive a ha)).imp (fun hn => ⟨e, hn⟩) (List.mem_cons_of_mem _)
  | unhook _ on => exact hr.unhook hc.wf on
  | @drained n debts w _ _ inc =>
    intro a ha
    refine (hr a ha).imp_right fun hm => (List.mem_cons.1 hm).resolve_left fun e => ?_
    have hmem : a ∈ w.graph.incoming n := hc.wf.mem_incoming.2 ⟨ha, Debt.drain.inj e⟩
    rw [inc] at hmem
    exact Array.not_mem_empty a hmem
  | forget => exact hr

theorem Cascade.Steps.reached {debts left : List Debt} (h : Steps p (debts, w) (left, w'))
    (hc : Census p w) (hr : Reached (debts, w)) : Reached (left, w') :=
  (Steps.keeps (I := fun c => Census p c.2 ∧ Reached c)
    (fun _ _ hs hi => ⟨hs.census hi.1, hs.reached hi.1 hi.2⟩) h ⟨hc, hr⟩).2

end

/-! ### Trails -/

/-- A node of each layer, and an arc from each of them to the next. -/
structure Trail where
  node : Nat → NodeId
  arc : Nat → ArcId

/-- The trail with labels `σ` leads from the root to layer `top`, the last one which was built, and its
labels are in the domains. Only nodes which need arcs have to be settled. -/
structure Guided (p : Plan) (σ : Nat → Int) (top : Nat) (t : Trail) (c : Config) : Prop where
  node : ∀ l ≤ top, c.2.graph.isActive (t.node l) = true ∧ c.2.graph.layerOf (t.node l) = l
  arc : ∀ l < top, c.2.graph.arcIsActive (t.arc l) = true ∧
    (c.2.graph.arc (t.arc l)).parent = t.node l ∧ (c.2.graph.arc (t.arc l)).child = t.node (l + 1) ∧
    (c.2.graph.arc (t.arc l)).value = σ l
  within : ∀ l < p.model.depth, c.2.domains.contains (p.model.var l) (σ l) = true
  low : ∀ n < c.2.graph.nodes.size, c.2.graph.layerOf n ≤ top
  root : ∀ n, c.2.graph.isActive n = true → c.2.graph.layerOf n = 0 → n = t.node 0
  sink : ∀ n, c.2.graph.isActive n = true → c.2.graph.layerOf n = p.model.depth →
    n = t.node p.model.depth
  owing : ∀ direction n, Debt.settle direction n ∈ c.1 → Inner top c.2 direction n

namespace Guided

variable {p : Plan} {σ : Nat → Int} {top : Nat} {t : Trail} {w w' : Workspace} {c d : Config}

/-- What only takes away keeps a trail if it leaves the nodes, arcs and labels of the trail alone. -/
theorem shrink (h : Guided p σ top t c) (hs : Shrinks c.2 w') {debts : List Debt}
    (hn : ∀ l ≤ top, w'.graph.isActive (t.node l) = true)
    (ha : ∀ l < top, w'.graph.arcIsActive (t.arc l) = true)
    (hv : ∀ l < p.model.depth, w'.domains.contains (p.model.var l) (σ l) = true)
    (ho : ∀ direction n, Debt.settle direction n ∈ debts → Inner top c.2 direction n) :
    Guided p σ top t (debts, w') where
  node l hl := ⟨hn l hl, by rw [hs.layerOf]; exact (h.node l hl).2⟩
  arc l hl := by
    refine ⟨ha l hl, ?_⟩
    rw [hs.parent, hs.child, hs.value]
    exact (h.arc l hl).2
  within := hv
  low n hn' := by
    rw [hs.layerOf]
    exact h.low n (Nat.lt_of_lt_of_eq hn' hs.nodes)
  root n hn' hl := h.root n (hs.active n hn') (by rwa [hs.layerOf] at hl)
  sink n hn' hl := h.sink n (hs.active n hn') (by rwa [hs.layerOf] at hl)
  owing direction n hm := (ho direction n hm).of_layerOf (hs.layerOf n).symm

/-- Only the debts change. -/
theorem owe (h : Guided p σ top t c) {debts : List Debt}
    (ho : ∀ direction n, Debt.settle direction n ∈ debts → Inner top c.2 direction n) :
    Guided p σ top t (debts, c.2) :=
  h.shrink (.refl _) (fun l hl => (h.node l hl).1) (fun l hl => (h.arc l hl).1) h.within ho

theorem paid {x : Debt} {debts : List Debt} (h : Guided p σ top t (x :: debts, w)) :
    Guided p σ top t (debts, w) := h.owe fun _ _ hm => h.owing _ _ (List.mem_cons_of_mem _ hm)

/-- The graph and the domains stay, as far as the labels of the trail are concerned. -/
theorem congr {debts : List Debt} (h : Guided p σ top t (debts, w)) (hg : w'.graph = w.graph)
    (hv : ∀ l < p.model.depth, w'.domains.contains (p.model.var l) (σ l) = true) :
    Guided p σ top t (debts, w') := by
  refine ⟨?_, ?_, hv, ?_, ?_, ?_, fun direction n hm => ?_⟩
  · rw [hg]; exact h.node
  · rw [hg]; exact h.arc
  · rw [hg]; exact h.low
  · rw [hg]; exact h.root
  · rw [hg]; exact h.sink
  · exact (h.owing direction n hm).of_layerOf (by rw [hg])

/-- The layer of a node above a layer which was begun. -/
theorem lt_of_begun (h : Guided p σ top t c) {l : Nat} (hb : Begun c.2 l) : l < top := by
  obtain ⟨m, hm, e⟩ := hb
  exact Nat.lt_of_succ_le (Nat.le_trans (Nat.le_of_eq e.symm) (h.low m hm))

/-- The trail's own nodes have the arcs they need. -/
theorem fed (h : Guided p σ top t c) (hw : c.2.graph.Wf) {direction : Direction} {l : Nat}
    (hl : l ≤ top) (hi : Inner top c.2 direction (t.node l)) :
    (c.2.arcsOn direction (t.node l)).isEmpty = false := by
  obtain ⟨a, ha⟩ : ∃ a, a ∈ c.2.arcsOn direction (t.node l) := by
    cases direction with
    | up =>
      have hlt : l < top := Nat.lt_of_le_of_lt (Nat.le_of_eq (h.node l hl).2.symm) hi
      obtain ⟨on, hp, -⟩ := h.arc l hlt
      exact ⟨t.arc l, hw.mem_outgoing.2 ⟨on, hp⟩⟩
    | down =>
      have hpos : 0 < l := Nat.lt_of_lt_of_eq hi (h.node l hl).2
      obtain ⟨k, rfl⟩ := Nat.exists_eq_succ_of_ne_zero (Nat.ne_of_gt hpos)
      obtain ⟨on, -, hc, -⟩ := h.arc k (Nat.lt_of_succ_le hl)
      exact ⟨t.arc k, hw.mem_incoming.2 ⟨on, hc⟩⟩
  rw [Bool.eq_false_iff, Ne, Array.isEmpty_iff]
  intro e
  rw [e] at ha
  exact Array.not_mem_empty a ha

/-- The trail supports its labels. -/
theorem supported (h : Guided p σ top t c) (hc : Census p c.2) {l : Nat} (hl : l < top) :
    c.2.support l (σ l) ≠ 0 := by
  obtain ⟨on, hpar, -, hv⟩ := h.arc l hl
  rw [hc.supports]
  refine Nat.ne_of_gt (Graph.labelled_pos_iff.2 ⟨t.arc l, on, ?_, hv⟩)
  rw [hpar]
  exact (h.node l (Nat.le_of_lt hl)).2

/-- The labels of the trail are in the domains of their layers. -/
theorem carries (h : Guided p σ top t c) {l : Nat} (hl : l < top) (deep : l < p.model.depth) :
    c.2.domains.contains (p.model.var (c.2.graph.layerOf (c.2.graph.arc (t.arc l)).parent))
      (c.2.graph.arc (t.arc l)).value = true := by
  obtain ⟨-, hpar, -, hval⟩ := h.arc l hl
  rw [hpar, hval, (h.node l (Nat.le_of_lt hl)).2]
  exact h.within l deep

/-- A node which needs arcs and has none is not on the trail. -/
theorem node_ne (h : Guided p σ top t c) (hw : c.2.graph.Wf) {direction : Direction} {n : NodeId}
    (hi : Inner top c.2 direction n) (bare : (c.2.arcsOn direction n).isEmpty = true) :
    ∀ l ≤ top, t.node l ≠ n := by
  rintro l hl rfl
  rw [h.fed hw hl hi] at bare
  cases bare

theorem retire {debts : List Debt} (h : Guided p σ top t (debts, w)) (hw : w.graph.Wf) {n : NodeId}
    (hn : w.graph.isActive n = true) (hne : ∀ l ≤ top, t.node l ≠ n) :
    Guided p σ top t (.drain n :: debts, w.retire n) := by
  have hs := shrinks_retire hw hn
  refine h.shrink hs (fun l hl => ?_) (fun l hl => ?_) (fun l hl => ?_) fun direction m hm => ?_
  · exact (Workspace.isActive_retire hw _).2 ⟨hne l hl, (h.node l hl).1⟩
  · show (w.graph.withdraw n).arcIsActive (t.arc l) = true
    rw [Graph.arcIsActive, Graph.arc_withdraw]
    exact (h.arc l hl).1
  · rw [Workspace.domains_retire]
    exact h.within l hl
  · exact h.owing direction m (List.mem_of_ne_of_mem (by simp) hm)

theorem unhook {debts : List Debt} (h : Guided p σ top t (debts, w)) (hc : Census p w) {a : ArcId}
    (ha : w.graph.arcIsActive a = true) (hne : ∀ l < top, t.arc l ≠ a) :
    Guided p σ top t (owed w a debts, w.unhook a) := by
  have hs := shrinks_unhook hc.wf ha
  have hl := hc.wf.listed a
  refine h.shrink hs (fun l hl => ?_) (fun l hl' => ?_) (fun l hl => ?_) fun direction m hm => ?_
  · rw [Workspace.isActive_unhook hc.wf]
    exact (h.node l hl).1
  · exact (Graph.arcIsActive_detach hl _).2 ⟨hne l hl', (h.arc l hl').1⟩
  · rw [show (w.unhook a).domains = w.domains by unfold Workspace.unhook; rfl]
    exact h.within l hl
  · have adjacent := hc.wf.adjacent a ha
    rcases List.mem_cons.1 hm with e | hm
    · obtain ⟨rfl, rfl⟩ := Debt.settle.inj e
      have := h.low _ (hc.wf.child_lt ha)
      rw [adjacent] at this
      exact this
    · rcases List.mem_cons.1 hm with e | hm
      · obtain ⟨rfl, rfl⟩ := Debt.settle.inj e
        exact Nat.lt_of_lt_of_eq (Nat.succ_pos _) adjacent.symm
      · exact h.owing direction m hm

theorem step (hp : p.Distinct) (hs : Step p c d) (hc : Census p c.2) (h : Guided p σ top t c) :
    Guided p σ top t d := by
  cases hs with
  | @visit n debts w deep begun =>
    refine h.owe fun direction m hm => ?_
    rcases List.mem_cons.1 hm with e | hm
    · obtain ⟨rfl, rfl⟩ := Debt.settle.inj e
      exact h.lt_of_begun begun
    · exact h.owing direction m hm
  | gone => exact h.paid
  | note =>
    refine h.paid.congr Workspace.graph_schedule fun l hl => ?_
    rw [Workspace.domains_schedule]
    exact h.within l hl
  | retire on bare =>
    exact h.paid.retire hc.wf on (h.node_ne hc.wf (h.owing _ _ List.mem_cons_self) bare)
  | @unhook n debts w a off on ends =>
    refine h.unhook hc on fun l hl e => ?_
    subst e
    obtain ⟨-, hpar, hch, -⟩ := h.arc l hl
    rcases ends with e | e
    · rw [← e, show (w.graph.arc (t.arc l)).parent = _ from hpar] at off
      exact Bool.eq_false_iff.1 off (h.node l (Nat.le_of_lt hl)).1
    · rw [← e, show (w.graph.arc (t.arc l)).child = _ from hch] at off
      exact Bool.eq_false_iff.1 off (h.node (l + 1) hl).1
  | drained => exact h.paid
  | @forget debts w l v b domains deep begun bare left =>
    refine h.congr rfl fun k hk => (Domains.contains_remove? left).2 ⟨h.within k hk, fun e ev => ?_⟩
    obtain rfl := hp.var_inj hk deep e
    subst ev
    exact h.supported hc (h.lt_of_begun begun) bare

theorem steps (hp : p.Distinct) {debts left : List Debt} (hs : Steps p (debts, w) (left, w'))
    (hc : Census p w) (h : Guided p σ top t (debts, w)) : Guided p σ top t (left, w') :=
  (Steps.keeps (I := fun c => Census p c.2 ∧ Guided p σ top t c)
    (fun _ _ hs hi => ⟨hs.census hi.1, hi.2.step hp hs hi.1⟩) hs ⟨hc, h⟩).2

theorem value_kept (h : Guided p σ top t c) (hc : Census p c.2) {l : Nat} (hl : l < top)
    (deep : l < p.model.depth) {v : Int} (bare : c.2.support l v = 0) :
    c.2.domains.remove? (p.model.var l) v ≠ none := by
  intro left
  have e : σ l = v := by
    simpa using Domains.not_keep_of_restrict?_none left (h.within l deep)
  subst e
  exact h.supported hc hl bare

theorem not_stuck (h : Guided p σ top t c) (hc : Census p c.2) {e : Stop} (hs : Stuck p e c) :
    False := by
  cases hs with
  | emptyDomain deep begun bare left => exact h.value_kept hc (h.lt_of_begun begun) deep bare left
  | @noPath direction n debts w on bare ends =>
    have hi := h.owing direction n List.mem_cons_self
    have hne := h.node_ne hc.wf hi bare
    rcases ends with hl | hl
    · exact hne 0 (Nat.zero_le _) (h.root n on hl).symm
    · refine hne p.model.depth ?_ (h.sink n on hl).symm
      rw [← hl]
      exact h.low n (Graph.lt_of_isActive _ on)

theorem not_fails (hp : p.Distinct) (h : Guided p σ top t c) (hc : Census p c.2) {e : Stop}
    (hf : Fails p c e w) : False := by
  obtain ⟨left, hs, hstuck⟩ := hf
  exact (h.steps hp hs hc).not_stuck (Steps.census hs hc) hstuck

/-- Taking values without an arc out of the domains leaves a trail to the sink alone. -/
theorem trims (h : Guided p σ p.model.depth t ([], w)) (hc : Census p w) (ht : Trims p w w') :
    Guided p σ p.model.depth t ([], w') :=
  h.congr ht.graph fun l hl => ht.spares l hl _ (h.supported hc hl) (h.within l hl)

theorem not_barren (h : Guided p σ p.model.depth t ([], w)) (hc : Census p w) : ¬ Barren p w := by
  rintro ⟨l, hl, v, bare, left⟩
  exact h.value_kept hc hl hl bare left

end Guided
end DecisionDiagrams
