import DecisionDiagrams.Proofs.Engine.Laws

/-! Removing arcs and nodes and computing nodes again keep the laws. A node which lost an arc is noted by
the removal; a node whose state changed tells the nodes it feeds, unless it is deleted, and then it feeds
none. -/

namespace DecisionDiagrams

open Work Cascade

variable {p : Plan} {stale : Nat → Prop} {d : Direction} {L : Law p d} {top : Nat} {x : Slack}
  {w w' : Workspace}

/-- What is only noted or computed, or only touches states, leaves a diagram in one piece. -/
theorem Whole.congr {label : Nat → Int → Prop} {bare : NodeId → Prop} {debts : List Debt}
    (h : Whole p label top bare (debts, w)) (hsize : w'.graph.nodes.size = w.graph.nodes.size)
    (hactive : ∀ n, w'.graph.isActive n = w.graph.isActive n)
    (hlayer : ∀ n, w'.graph.layerOf n = w.graph.layerOf n)
    (hseed : ∀ n, w.graph.layerOf n = 0 → w'.graph.state n .down = w.graph.state n .down)
    (harcs : ∀ e n, w'.arcsOn e n = w.arcsOn e n) (harc : ∀ a, w'.graph.arc a = w.graph.arc a)
    (hagenda : w.agenda.Extends w'.agenda) : Whole p label top bare (debts, w') := by
  have sole : ∀ {l}, Sole w l → Sole w' l := fun ⟨n, hn, e, only⟩ =>
    ⟨n, (hactive n).trans hn, (hlayer n).trans e,
      fun m hm em => only m ((hactive m).symm.trans hm) ((hlayer m).symm.trans em)⟩
  refine ⟨fun e n hn hi => ?_, fun a ha => ?_, fun n hn => ?_, sole h.root, fun n hn hl => ?_,
    fun e => sole (h.sink e), fun a ha => ?_, fun e => (hagenda.size e).trans (h.sized e)⟩
  · rw [harcs]
    exact h.fed e n ((hactive n).symm.trans hn) (hi.of_layerOf (hlayer n))
  · show w'.graph.isActive (w'.graph.arc a).child = true ∨ _
    rw [harc, hactive]
    exact h.reached a (by rw [← ha, Graph.arcIsActive, Graph.arcIsActive, harc])
  · exact (hlayer n).symm ▸ h.low n (Nat.lt_of_lt_of_eq hn hsize)
  · have hl' : w.graph.layerOf n = 0 := (hlayer n).symm.trans hl
    exact (hseed n hl').trans (h.seed n ((hactive n).symm.trans hn) hl')
  · show label (w'.graph.layerOf (w'.graph.arc a).parent) (w'.graph.arc a).value
    rw [harc, hlayer]
    exact h.labelled a (by rw [← ha, Graph.arcIsActive, Graph.arcIsActive, harc])

/-- The graph stays as it is, and what waits goes on waiting. -/
theorem Lawful.congr (h : Lawful L top x ([], w)) (hg : w'.graph = w.graph)
    (hu : w'.upKnown = w.upKnown) (ha : w.agenda.Extends w'.agenda) : Lawful L top x ([], w') := by
  refine ⟨h.toWhole.congr (by rw [hg]) (fun _ => by rw [hg]) (fun _ => by rw [hg])
    (fun _ _ => by rw [hg]) (fun e n => arcsOn_congr hg e n) (fun _ => by rw [hg]) ha, ?_⟩
  refine h.abide.mono (fun n hn => ?_) (fun n => ?_) hu (fun n => ?_) (fun n => ?_) ha fun _ _ _ hd => ?_
  · exact hg ▸ hn
  · show w'.graph.layerOf n = _
    rw [hg]
  · show w'.graph.state n d.side = _
    rw [hg]
  · exact Workspace.enters_congr (fun _ => by rw [hg]) (fun _ => by rw [hg]) (fun _ => by rw [hg])
      fun _ => by rw [hg]
  · cases hd

theorem Lawful.quiet (h : Lawful L top x ([], w)) (hq : Quiet p w w') : Lawful L top x ([], w') :=
  h.congr hq.graph hq.upKnown (by rw [hq.agenda]; exact .refl _)

theorem Lawful.schedule (h : Lawful L top x ([], w)) (e : Direction) (r : Demand) (n : NodeId) :
    Lawful L top x ([], w.schedule p e r n) :=
  h.congr Workspace.graph_schedule Workspace.upKnown_schedule (Workspace.extends_schedule _ _ _ _)

/-! ### Removals -/

/-- What a removal leaves of a lawful diagram. -/
def Dwindled (L : Law p d) (top : Nat) (x : Slack) (w w' : Workspace) : Prop :=
  Shrinks w w' ∧ Lawful L top x ([], w')

theorem secures_cutArc (hp : p.Distinct) (h : Lawful L top x ([], w)) {a : ArcId}
    (ha : w.graph.arcIsActive a = true) :
    Secures p stale (cutArc p a) (fun _ => Dwindled L top x w) w := by
  refine .of_tidies (tidies_cutArc hp ha) fun ht => ?_
  have hcu := ht.toCensus.unhook ha
  refine wp.mono (pays_cutArc ht.toCensus ha []) (fun _ w' hs => ?_) fun _ _ _ => trivial
  exact ⟨(shrinks_unhook ht.wf ha).trans (Steps.shrinks hs hcu),
    Steps.lawful hs hcu (h.unhook ht.toCensus ha)⟩

/-- A node which is deleted leaves its neighbours to be settled; it needs no arcs itself. -/
theorem Lawful.retire {bare : NodeId → Prop} {n : NodeId} (h : Lawful L top { x with bare } ([], w))
    (hc : Census p w) (hn : w.graph.isActive n = true) (root : w.graph.layerOf n ≠ 0)
    (sink : w.graph.layerOf n ≠ p.model.depth) (hb : ∀ m, bare m → x.bare m ∨ m = n) :
    Lawful L top x ([.drain n], w.retire n) := by
  have hs := shrinks_retire hc.wf hn
  have gone : ∀ m, (w.retire n).graph.isActive m = true → m ≠ n :=
    fun m hm => ((Workspace.isActive_retire hc.wf m).1 hm).1
  have sole : ∀ {l}, (l = 0 ∨ l = p.model.depth) → Sole w l → Sole (w.retire n) l := by
    rintro l hl ⟨m, hm, e, only⟩
    refine ⟨m, (Workspace.isActive_retire hc.wf m).2 ⟨?_, hm⟩, (hs.layerOf m).trans e, fun k hk ek => ?_⟩
    · rintro rfl
      rw [← e] at hl
      exact hl.elim root sink
    · exact only k (hs.active k hk) ((hs.layerOf k).symm.trans ek)
  refine ⟨⟨fun e m hm hi => ?_, fun a ha => ?_, fun m hm => ?_, sole (Or.inl rfl) h.root,
    fun m hm hl => ?_, fun e => sole (Or.inr e) (h.sink e), fun a ha => ?_, fun e => ?_⟩, ?_⟩
  · refine (h.fed.retire hc.wf hn e m hm hi).imp_right (Or.imp (fun hd => by cases hd) fun hm' => ?_)
    exact (hb m hm').resolve_right (gone m hm)
  · show (w.retire n).graph.isActive ((w.retire n).graph.arc a).child = true ∨ _
    rw [hs.child, Workspace.isActive_retire hc.wf]
    by_cases e : (w.graph.arc a).child = n
    · exact Or.inr (e ▸ List.mem_cons_self)
    · exact Or.inl ⟨e, (h.reached a (hs.arcActive a ha)).resolve_right List.not_mem_nil⟩
  · exact (hs.layerOf m).symm ▸ h.low m (Nat.lt_of_lt_of_eq hm hs.nodes)
  · exact (hs.state m .down).trans (h.seed m (hs.active m hm) ((hs.layerOf m).symm.trans hl))
  · show L.label ((w.retire n).graph.layerOf ((w.retire n).graph.arc a).parent) _
    rw [hs.parent, hs.layerOf]
    exact (hs.value a).symm ▸ h.labelled a (hs.arcActive a ha)
  · show ((w.retire n).agenda.get e).size = _
    rw [Workspace.agenda_retire]
    exact h.sized e
  · refine Law.Abide.mono h.abide hs.active hs.layerOf hs.upKnown (fun m => hs.state m d.side)
      (fun m => Workspace.enters_congr (fun a => ?_) hs.parent hs.child hs.value) ?_ fun m _ _ hd => ?_
    · show (w.graph.withdraw n).arcIsActive a = w.graph.arcIsActive a
      rw [Graph.arcIsActive, Graph.arc_withdraw]
      rfl
    · show w.agenda.Extends (w.retire n).agenda
      rw [Workspace.agenda_retire]
      exact .refl _
    · cases hd

theorem secures_dropNode_of {bare : NodeId → Prop} {n : NodeId} (hp : p.Distinct)
    (h : w.graph.isActive n = true → Lawful L top { x with bare } ([], w))
    (gone : w.graph.isActive n = false → Lawful L top x ([], w)) (hb : ∀ m, bare m → x.bare m ∨ m = n) :
    Secures p stale (dropNode p n)
      (fun _ w' => Dwindled L top x w w' ∧ w'.graph.isActive n = false) w := by
  refine .of_tidies (tidies_dropNode hp n) fun ht => ?_
  refine wp_dropNode_of ht.toCensus (fun off => ⟨⟨.refl w, gone off⟩, off⟩) (fun _ _ => trivial)
    (fun on root sink w' hs => ?_) fun _ _ _ _ => trivial
  have hcr := ht.toCensus.retire on
  have hsh := Steps.shrinks hs hcr
  refine ⟨⟨(shrinks_retire ht.wf on).trans hsh,
    Steps.lawful hs hcr ((h on).retire ht.toCensus on root sink hb)⟩, Bool.eq_false_iff.2 fun still => ?_⟩
  exact ((Workspace.isActive_retire ht.wf n).1 (hsh.active n still)).1 rfl

theorem secures_dropNode (hp : p.Distinct) (h : Lawful L top x ([], w)) (n : NodeId) :
    Secures p stale (dropNode p n)
      (fun _ w' => Dwindled L top x w w' ∧ w'.graph.isActive n = false) w :=
  secures_dropNode_of hp (fun _ => h) (fun _ => h) fun _ => Or.inl

/-- A lawful workspace which goes on from another one. -/
abbrev Upholds (stale : Nat → Prop) (L : Law p d) (top : Nat) (x : Slack) (w w' : Workspace) : Prop :=
  Upkept p stale w w' ∧ Lawful L top x ([], w')

theorem Upholds.quiet {v : Workspace} (h : Upholds stale L top x v w) (hq : Quiet p w w') : Upholds stale L top x v w' :=
  ⟨⟨hq.tidy h.1.1, h.1.2.trans (.of_quiet hq)⟩, h.2.quiet hq⟩

theorem Secures.goesOn {α : Type} {y : Work α} {v : Workspace} {Q R : α → Workspace → Prop}
    (h : Secures p stale y Q w) (k : Upkept p stale v w) (hR : ∀ a w', Upkept p stale v w' → Q a w' → R a w') :
    wp y R (fun _ _ => True) w :=
  wp.mono (h k.1) (fun a w' l => hR a w' ⟨l.1, k.2.trans l.2.1⟩ l.2.2) fun _ _ _ => trivial

/-- A step which keeps a diagram lawful. -/
theorem Secures.upholds {α : Type} {y : Work α} {v : Workspace} (h : Secures p stale y (fun _ w' => Lawful L top x ([], w')) w)
    (k : Upholds stale L top x v w) : wp y (fun _ => Upholds stale L top x v) (fun _ _ => True) w :=
  h.goesOn k.1 fun _ _ => And.intro

theorem Secures.of_upholds {α : Type} {y : Work α}
    (h : Tidy p stale [] w → wp y (fun _ => Upholds stale L top x w) (fun _ _ => True) w) :
    Secures p stale y (fun _ w' => Lawful L top x ([], w')) w := fun ht =>
  wp.mono (h ht) (fun _ _ k => ⟨k.1.1, k.1.2, k.2⟩) fun _ _ _ => trivial

/-- A lawful workspace in which all nodes stand on their layers. -/
abbrev Levels (stale : Nat → Prop) (L : Law p d) (top : Nat) (x : Slack) (w w' : Workspace) : Prop :=
  Upholds stale L top x w w' ∧ ∀ m, w'.graph.layerOf m = w.graph.layerOf m

theorem pruner_levels (hp : p.Distinct) (v : Workspace) : Pruner p (Levels stale L top x v) fun _ _ => True where
  cached h := h.1.1.1.cached
  quiet hq h := ⟨h.1.quiet hq, hq.graph ▸ h.2⟩
  faults _ _ := trivial
  cut on h := (secures_cutArc hp h.1.2 on).goesOn h.1.1 fun _ _ k hd => ⟨⟨k, hd.2⟩, fun m => (hd.1.layerOf m).trans (h.2 m)⟩
  drop n h := (secures_dropNode hp h.1.2 n).goesOn h.1.1 fun _ _ k hd =>
    ⟨⟨k, hd.1.2⟩, fun m => (hd.1.1.layerOf m).trans (h.2 m)⟩

theorem Secures.of_levels {α : Type} {y : Work α} (h : Lawful L top x ([], w))
    (hy : Levels stale L top x w w → wp y (fun _ => Levels stale L top x w) (fun _ _ => True) w) :
    Secures p stale y (fun _ w' => Lawful L top x ([], w')) w :=
  .of_upholds fun ht => wp.mono (hy ⟨⟨⟨ht, .refl w⟩, h⟩, fun _ => rfl⟩) (fun _ _ k => k.1) fun _ _ _ => trivial

theorem secures_retestOutgoing (hp : p.Distinct) (h : Lawful L top x ([], w)) (n : NodeId) :
    Secures p stale (retestOutgoing p n) (fun _ w' => Lawful L top x ([], w')) w :=
  .of_levels h ((pruner_levels hp w).retestOutgoing n)

theorem secures_retestIncoming (hp : p.Distinct) (h : Lawful L top x ([], w)) (n : NodeId) :
    Secures p stale (retestIncoming p n) (fun _ w' => Lawful L top x ([], w')) w :=
  .of_levels h ((pruner_levels hp w).retestIncoming n)

theorem secures_enforceDomains (hp : p.Distinct) (h : Lawful L top x ([], w)) (lost : List Nat) :
    Secures p stale (enforceDomains p lost) (fun _ w' => Lawful L top x ([], w')) w :=
  .of_levels h ((pruner_levels hp w).enforceDomains lost)

theorem secures_testNodes (hp : p.Distinct) (h : Lawful L top x ([], w)) :
    Secures p stale (testNodes p) (fun _ w' => Lawful L top x ([], w')) w :=
  .of_levels h (pruner_levels hp w).testNodes

theorem secures_discardDead (hp : p.Distinct) (h : Lawful L top x ([], w)) (n : NodeId) (layer : Nat)
    (cs : List Candidate) : Secures p stale (discardDead p n layer cs) (fun _ w' => Lawful L top x ([], w')) w :=
  .of_levels h ((pruner_levels hp w).discardDead n layer cs)

/-! ### New states -/

namespace Workspace

variable {n : NodeId} {side : Side} {s : State}

theorem arcsOn_putState (hn : n < w.graph.nodes.size) (e : Direction) (m : NodeId) :
    (w.putState n side s).arcsOn e m = w.arcsOn e m := by
  have en := Graph.node_putState w.graph n side s hn m
  cases e with
  | down =>
    show ((w.graph.putState n side s).node m).incoming = _
    rw [en]
    rfl
  | up =>
    show ((w.graph.putState n side s).node m).outgoing = _
    rw [en]
    rfl

theorem feedLayer_of_enters (hw : w.graph.Wf) {d : Direction} {m q : NodeId} {v : Int}
    (h : w.enters d m q v) : w.feedLayer d m = w.tellLayer d q := by
  obtain ⟨a, ha, hm, hq, -⟩ := h
  have hadj := hw.adjacent a ha
  subst hm hq
  cases d
  · show w.graph.layerOf (w.graph.arc a).child - 1 = w.graph.layerOf (w.graph.arc a).parent
    omega
  · show w.graph.layerOf (w.graph.arc a).parent = w.graph.layerOf (w.graph.arc a).child - 1
    omega

theorem ne_of_enters (hw : w.graph.Wf) {d : Direction} {m q : NodeId} {v : Int}
    (h : w.enters d m q v) : q ≠ m := by
  obtain ⟨a, ha, hm, hq, -⟩ := h
  have hadj := hw.adjacent a ha
  rintro rfl
  cases d
  · rw [show (w.graph.arc a).child = q from hm, show (w.graph.arc a).parent = q from hq] at hadj
    omega
  · rw [show (w.graph.arc a).parent = q from hm, show (w.graph.arc a).child = q from hq] at hadj
    omega

theorem feedLayer_lt (hc : Census p w) {d : Direction} {n : NodeId} (on : w.graph.isActive n = true)
    (hs : w.Sown p d n) : w.feedLayer d n < p.model.depth := by
  have hle := hc.layerOf_le on
  cases d
  · have hs' : 0 < w.graph.layerOf n := hs
    show w.graph.layerOf n - 1 < _
    omega
  · exact hs.2.1

end Workspace

theorem Whole.label_of_enters {label : Nat → Int → Prop} {bare : NodeId → Prop} {c : Config}
    (h : Whole p label top bare c) (hw : c.2.graph.Wf) {n q : NodeId} {v : Int}
    (he : c.2.enters d n q v) : label (c.2.feedLayer d n) v := by
  have hl := Workspace.feedLayer_of_enters hw he
  obtain ⟨a, ha, hn, hq, rfl⟩ := he
  have hadj := hw.adjacent a ha
  rw [hl]
  have e : c.2.tellLayer d q = c.2.graph.layerOf (c.2.graph.arc a).parent := by
    subst hq
    cases d
    · rfl
    · show c.2.graph.layerOf (c.2.graph.arc a).child - 1 = _
      omega
  rw [e]
  exact h.labelled a ha

/-- Only the states of the neighbours which enter matter. -/
theorem Law.Of.transport {n : NodeId} {o : Option Nat} (h : L.Of w n o)
    (hl : w.feedLayer d n < p.model.depth)
    (label : ∀ q v, w.enters d n q v → L.label (w.feedLayer d n) v)
    (hlayer : w'.graph.layerOf n = w.graph.layerOf n) (henters : w'.enters d n = w.enters d n)
    (hself : w'.graph.state n d.side = w.graph.state n d.side)
    (hstate : ∀ q v, w.enters d n q v → w'.graph.state q d.side = w.graph.state q d.side) :
    L.Of w' n o := by
  have hf : w'.feedLayer d n = w.feedLayer d n := by cases d <;> simp only [Workspace.feedLayer, hlayer]
  unfold Law.Of
  rw [hf, henters, hself]
  refine L.moved hl label (fun q v hq => ?_) h
  rw [hstate q v hq]
  exact Model.Unaffected.refl _ _ _ _ o

/-- The root keeps its down state. -/
def Keeping (w : Workspace) (n : NodeId) (side : Side) (s : State) : Prop :=
  side = .down → w.graph.layerOf n = 0 → s = w.graph.state n .down

theorem Whole.putState {label : Nat → Int → Prop} {bare : NodeId → Prop} {debts : List Debt}
    (h : Whole p label top bare (debts, w)) {n : NodeId} (hn : n < w.graph.nodes.size) {side : Side}
    {s : State} (hk : Keeping w n side s) : Whole p label top bare (debts, w.putState n side s) := by
  refine h.congr (Graph.size_putState w.graph n side s) (Workspace.isActive_putState hn)
    (Workspace.layerOf_putState hn) (fun m hm => ?_) (Workspace.arcsOn_putState hn) (fun _ => rfl) (.refl _)
  rw [Workspace.state_putState hn]
  split_ifs with e
  · rw [e.1] at hm ⊢
    exact hk e.2.symm hm
  · rfl

/-- States of another kind do not matter. -/
theorem Lawful.putOther (h : Lawful L top x ([], w)) {n : NodeId} (hn : n < w.graph.nodes.size)
    {side : Side} (hs : d.side ≠ side) {s : State} (hk : Keeping w n side s) :
    Lawful L top x ([], w.putState n side s) := by
  refine ⟨h.toWhole.putState hn hk, h.abide.mono (fun m hm => ?_) (Workspace.layerOf_putState hn) rfl
    (fun m => ?_) (fun m => rfl) (.refl _) fun _ _ _ hd => by cases hd⟩
  · rwa [Workspace.isActive_putState hn] at hm
  · show (w.putState n side s).graph.state m d.side = _
    rw [Workspace.state_putState hn, if_neg fun e => hs e.2]

/-- A new state: the nodes which are fed by the node and look at what changed have to be told. -/
theorem Lawful.put (hx : p.options.isExact = false) (hc : Census p w)
    {news : NodeId → Option Nat → Prop} {n : NodeId} {new : State}
    (h : Lawful L top { x with late := fun m => x.late m ∨ m = n, news := fun _ _ => False } ([], w))
    (on : w.graph.isActive n = true) (hk : Keeping w n d.side new)
    (hnew : w.Sown p d n → ¬ x.late n → ∀ o,
      Excused p d { x with news := fun _ _ => False } ([], w) n o ∨
        L.holds (w.feedLayer d n) (w.enters d n) (fun q => w.graph.state q d.side) new o)
    (hnews : ∀ o, ¬ p.model.Unaffected d (w.tellLayer d n) (w.graph.state n d.side) new o → news n o) :
    Lawful L top { x with news } ([], w.putState n d.side new) := by
  have hn := Graph.lt_of_isActive _ on
  have state : ∀ m, (w.putState n d.side new).graph.state m d.side =
      if m = n then new else w.graph.state m d.side := fun m => by
    rw [Workspace.state_putState hn]
    simp only [and_true]
  refine ⟨h.toWhole.putState hn hk, fun m om hs hl o => ?_⟩
  rw [Workspace.isActive_putState hn] at om
  have hs' : w.Sown p d m := Workspace.Sown.congr hs (Workspace.layerOf_putState hn m).symm rfl
  have hlt := Workspace.feedLayer_lt hc om hs'
  have hf : (w.putState n d.side new).feedLayer d m = w.feedLayer d m := by
    cases d <;> simp only [Workspace.feedLayer, Workspace.layerOf_putState hn]
  have label : ∀ q v, w.enters d m q v → L.label (w.feedLayer d m) v :=
    fun q v hq => h.toWhole.label_of_enters hc.wf hq
  -- an excuse from before is one still
  have excused : Excused p d { x with news := fun _ _ => False } ([], w) m o →
      Excused p d { x with news } ([], w.putState n d.side new) m o := by
    rintro ⟨-, hw | hw | hw | ⟨_, _, _, hw⟩⟩
    · refine ⟨hx, Or.inl ?_⟩
      rw [show ((([], w.putState n d.side new) : Config).2).graph.layerOf m = w.graph.layerOf m from
        Workspace.layerOf_putState hn m]
      exact hw
    · exact ⟨hx, Or.inr (Or.inl hw)⟩
    · cases hw
    · exact hw.elim
  unfold Law.Of
  rw [hf, show (w.putState n d.side new).enters d m = w.enters d m from rfl, state m]
  by_cases hm : m = n
  · subst hm
    rw [if_pos rfl]
    refine (hnew hs' hl o).imp excused fun hold => L.moved hlt label (fun q v hq => ?_) hold
    rw [state q, if_neg (Workspace.ne_of_enters hc.wf hq)]
    exact Model.Unaffected.refl _ _ _ _ o
  · rw [if_neg hm]
    by_cases ha : ∃ q v, w.enters d m q v ∧
        ¬ p.model.Unaffected d (w.feedLayer d m) (w.graph.state q d.side)
          ((w.putState n d.side new).graph.state q d.side) o
    · obtain ⟨q, v, hq, hu⟩ := ha
      rw [state q, Workspace.feedLayer_of_enters hc.wf hq] at hu
      split_ifs at hu with e
      · subst e
        exact Or.inl ⟨hx, Or.inr (Or.inr (Or.inr ⟨q, v, hq, hnews o hu⟩))⟩
      · exact absurd (Model.Unaffected.refl _ _ _ _ o) hu
    · refine (h.abide m om hs' (not_or.2 ⟨hl, hm⟩) o).imp excused fun hold =>
        L.moved hlt label (fun q v hq => ?_) hold
      by_contra hu
      exact ha ⟨q, v, hq, hu⟩

/-- What noting some nodes does. -/
theorem foldl_schedule_spec (e : Direction) (r : Demand) : ∀ (l : List NodeId) (w : Workspace),
    (l.foldl (Workspace.schedule p e r) w).graph = w.graph ∧
    (l.foldl (Workspace.schedule p e r) w).upKnown = w.upKnown ∧
    w.agenda.Extends (l.foldl (Workspace.schedule p e r) w).agenda ∧
    ∀ m ∈ l, p.options.isExact = false → w.graph.isActive m = true → w.Sown p e m →
      w.graph.layerOf m < (w.agenda.get e).size → r.isEmpty = false → ∀ o, r.Covers o →
      ((l.foldl (Workspace.schedule p e r) w).agenda.waiting e (w.graph.layerOf m)).Covers m o
  | [], w => ⟨rfl, rfl, .refl _, nofun⟩
  | n :: l, w => by
    obtain ⟨hg, hu, ha, hc⟩ := foldl_schedule_spec e r l (w.schedule p e r n)
    have hg₁ : (w.schedule p e r n).graph = w.graph := Workspace.graph_schedule
    have ha₁ := Workspace.extends_schedule (p := p) w e r n
    refine ⟨hg.trans hg₁, hu.trans Workspace.upKnown_schedule, ha₁.trans ha, ?_⟩
    intro m hm hx on hs hl hr o ho
    rcases List.mem_cons.1 hm with rfl | hm
    · exact ha.covers (Workspace.covers_schedule hx on hs hl hr ho)
    · have hs' : (w.schedule p e r n).Sown p e m :=
        hs.congr (by rw [hg₁]) Workspace.upKnown_schedule
      have := hc m hm hx (by rwa [hg₁]) hs' (by rwa [hg₁, ha₁.size]) hr o ho
      rwa [hg₁] at this

theorem Workspace.mem_fed_of_enters (hw : w.graph.Wf) {e : Direction} {m n : NodeId} {v : Int}
    (h : w.enters e m n v) : m ∈ w.fed e n := by
  obtain ⟨a, ha, hm, hn, -⟩ := h
  subst hm hn
  cases e
  · exact List.mem_map.2 ⟨a, Array.mem_toList_iff.2 (hw.mem_outgoing.2 ⟨ha, rfl⟩), rfl⟩
  · exact List.mem_map.2 ⟨a, Array.mem_toList_iff.2 (hw.mem_incoming.2 ⟨ha, rfl⟩), rfl⟩

/-- What the nodes are noted for which a node feeds. -/
def Workspace.noticeOf (w : Workspace) (p : Plan) (e : Direction) (n : NodeId) (onlyFlag : Bool)
    (changed combinedChanges : IndexSet) : Demand :=
  if onlyFlag then .full else .only (p.model.dependents e (w.tellLayer e n) changed combinedChanges)

theorem secures_alertNeighbours (hx : p.options.isExact = false) (e : Direction) (n : NodeId)
    (own onlyFlag : Bool) (changed combinedChanges : IndexSet)
    (hsized : ∀ e, (w.agenda.get e).size = p.model.depth + 1) :
    Secures p stale (alertNeighbours p e n own onlyFlag changed combinedChanges) (fun _ w' =>
      w'.graph = w.graph ∧ w'.upKnown = w.upKnown ∧ w.agenda.Extends w'.agenda ∧
      (own = true → ∀ m v, w.enters e m n v → w.graph.isActive m = true → w.Sown p e m →
        (w.noticeOf p e n onlyFlag changed combinedChanges).isEmpty = false → ∀ o,
        (w.noticeOf p e n onlyFlag changed combinedChanges).Covers o →
        (w'.agenda.waiting e (w.graph.layerOf m)).Covers m o)) w := by
  refine .of_tidies (tidies_alertNeighbours e n own onlyFlag changed combinedChanges) fun ht => ?_
  refine wp_alertNeighbours_of (fun mute => ⟨rfl, rfl, .refl _, fun ho => ?_⟩)
    (fun last first => ⟨rfl, rfl, .refl _, fun _ m v hm => ?_⟩) ?_
  · exact absurd (mute.symm.trans ho) nofun
  · obtain ⟨a, ha, -, rfl, -⟩ := hm
    cases e with
    | down => exact absurd (ht.toCensus.parent_lt_depth ha) (last rfl)
    | up => exact absurd (ht.wf.adjacent a ha ▸ Nat.succ_pos _) (first rfl)
  · obtain ⟨hg, hu, ha, hc⟩ := foldl_schedule_spec (p := p) e (if onlyFlag && own then .full
      else .only (p.model.dependents e (w.tellLayer e n) changed combinedChanges)) (w.fed e n) w
    refine ⟨hg, hu, ha, fun ho m v hm on hs he o hro => ?_⟩
    subst ho
    rw [Bool.and_true] at hc ⊢
    refine hc m (Workspace.mem_fed_of_enters ht.wf hm) hx on hs ?_ he o hro
    rw [hsized e]
    exact Nat.lt_succ_of_le (ht.toCensus.layerOf_le on)

/-- Only the combined state of the node may differ afterwards. -/
theorem secures_rederive {n : NodeId} (h : Lawful L top x ([], w)) (hn : n < w.graph.nodes.size)
    (changedDown changedUp : IndexSet) :
    Secures p stale (rederive p n changedDown changedUp) (fun _ w' => Lawful L top x ([], w') ∧
      (∀ m, w'.graph.state m d.side = w.graph.state m d.side) ∧
      (∀ m, w'.graph.layerOf m = w.graph.layerOf m) ∧
      ∀ m, w'.graph.isActive m = w.graph.isActive m) w := by
  have same : Lawful L top x ([], w) ∧ (∀ m, w.graph.state m d.side = w.graph.state m d.side) ∧
      (∀ m, w.graph.layerOf m = w.graph.layerOf m) ∧
      ∀ m, w.graph.isActive m = w.graph.isActive m := ⟨h, fun _ => rfl, fun _ => rfl, fun _ => rfl⟩
  have hside : d.side ≠ .combined := by cases d <;> nofun
  intro ht
  refine wp_rederive_of (fun _ => ⟨ht, .refl w, same⟩) (fun _ _ => ⟨ht, .refl w, same⟩) (fun _ _ _ => trivial)
    fun _ both _ => ?_
  split_ifs
  · exact ⟨ht, .refl w, same⟩
  · refine ⟨ht.putState hn _ _, .putState hn _ _, h.putOther hn hside nofun, fun m => ?_,
      Workspace.layerOf_putState hn, Workspace.isActive_putState hn⟩
    rw [Workspace.state_putState hn, if_neg fun e => hside e.2]

/-- Nodes without arcs feed none which would have to be told. -/
theorem Lawful.told {news : NodeId → Option Nat → Prop} (h : Lawful L top { x with news } ([], w))
    (hnews : p.options.isExact = false → ∀ m q v o, w.graph.isActive m = true → w.Sown p d m →
      ¬ x.late m → w.enters d m q v → news q o → (w.agenda.waiting d (w.graph.layerOf m)).Covers m o) :
    Lawful L top { x with news := fun _ _ => False } ([], w) := by
  refine ⟨h.toWhole, fun m on hs hl o => (h.abide m on hs hl o).imp_left ?_⟩
  rintro ⟨hx, hw | hw | hw | ⟨q, v, hq, hw⟩⟩
  · exact ⟨hx, Or.inl hw⟩
  · exact ⟨hx, Or.inr (Or.inl hw)⟩
  · cases hw
  · exact ⟨hx, Or.inl (hnews hx m q v o on hs hl hq hw)⟩

/-- The ends of an arc are active. -/
theorem Whole.active_of_enters {label : Nat → Int → Prop} {bare : NodeId → Prop}
    (h : Whole p label top bare ([], w)) (ht : Tidy p stale [] w) {m q : NodeId} {v : Int}
    (he : w.enters d m q v) : w.graph.isActive m = true ∧ w.graph.isActive q = true := by
  obtain ⟨a, ha, hm, hq, -⟩ := he
  have hpar := ht.parent_active ha
  have hch := (h.reached a ha).resolve_right List.not_mem_nil
  subst hm hq
  cases d
  · exact ⟨hch, hpar⟩
  · exact ⟨hpar, hch⟩

theorem secures_alert (hx : p.options.isExact = false) (h : Lawful L top x ([], w)) (e : Direction)
    (n : NodeId) (own onlyFlag : Bool) (changed combinedChanges : IndexSet) :
    Secures p stale (alertNeighbours p e n own onlyFlag changed combinedChanges)
      (fun _ w' => w'.graph = w.graph ∧ Lawful L top x ([], w')) w :=
  (secures_alertNeighbours hx e n own onlyFlag changed combinedChanges h.sized).mono
    fun _ _ _ _ hq => ⟨hq.1, h.congr hq.1 hq.2.1 hq.2.2.1⟩

/-- The nodes which a node feeds are told what changed. -/
theorem secures_tell (hx : p.options.isExact = false) (hm : p.model.ReadsOwn)
    {news : NodeId → Option Nat → Prop} (h : Lawful L top { x with news } ([], w)) {n : NodeId}
    (old new : State) {own onlyFlag : Bool} {changed combinedChanges : IndexSet}
    (hnews : ∀ q o, news q o → q = n ∧ own = true ∧
      changed = (p.model.layout d.side).difference old new ∧ onlyFlag = changed.isEmpty ∧
      ¬ p.model.Unaffected d (w.tellLayer d n) old new o) :
    Secures p stale (alertNeighbours p d n own onlyFlag changed combinedChanges)
      (fun _ w' => Lawful L top { x with news := fun _ _ => False } ([], w')) w := by
  refine (secures_alertNeighbours hx d n own onlyFlag changed combinedChanges h.sized).mono
    fun _ w' _ _ hq => ?_
  obtain ⟨hg, hu, ha, ht⟩ := hq
  refine (h.congr hg hu ha).told fun _ m q v o on hs _ he ho => ?_
  obtain ⟨rfl, hown, rfl, rfl, haff⟩ := hnews q o ho
  obtain ⟨hr, hc⟩ := Model.covers_of_affected hm combinedChanges haff rfl
  have hsame : w'.enters d m = w.enters d m := Workspace.enters_congr (fun _ => by rw [hg])
    (fun _ => by rw [hg]) (fun _ => by rw [hg]) fun _ => by rw [hg]
  have he' : w.enters d m q v := by rwa [hsame] at he
  rw [hg] at on ⊢
  exact ht hown m v he' on (hs.congr (by rw [hg]) hu.symm) hr o hc

/-- A node which was deleted has nothing to tell. -/
theorem Lawful.silent {news : NodeId → Option Nat → Prop} (h : Lawful L top { x with news } ([], w))
    (ht : Tidy p stale [] w) {n : NodeId} (hn : w.graph.isActive n = false)
    (hnews : ∀ q o, news q o → q = n) : Lawful L top { x with news := fun _ _ => False } ([], w) := by
  refine h.told fun _ m q v o _ _ _ he ho => ?_
  have hq := (h.toWhole.active_of_enters ht he).2
  rw [hnews q o ho, hn] at hq
  cases hq

/-- The news of a node in the direction of the law, which come with a new state of direction `e`. -/
def Bears (p : Plan) (d e : Direction) (layer : Nat) (n : NodeId) (old new : State) (changes : Direction → IndexSet)
    (news : NodeId → Option Nat → Prop) : Prop :=
  ∀ q o, news q o → q = n ∧ e = d ∧ changes d = (p.model.layout d.side).difference old new ∧
    ¬ p.model.Unaffected d layer old new o

/-- After a new state the node either has nothing to tell any more or tells it. -/
theorem secures_tellNeighbours (hx : p.options.isExact = false) (hm : p.model.ReadsOwn)
    {news : NodeId → Option Nat → Prop} (h : Lawful L top { x with news } ([], w)) {e : Direction} {n : NodeId}
    {old new : State} {changes : Direction → IndexSet} (combinedChanges : IndexSet)
    (hnews : Bears p d e (w.tellLayer d n) n old new changes news) :
    Secures p stale (tellNeighbours p e n (changes e).isEmpty changes combinedChanges)
      (fun _ w' => Lawful L top { x with news := fun _ _ => False } ([], w')) w := by
  unfold tellNeighbours
  refine .get_bind fun ht => .ite (fun _ => ?_) fun hoff => .pure fun _ => ?_
  swap
  · exact h.silent ht (Bool.eq_false_iff.2 hoff) fun q o ho => (hnews q o ho).1
  cases d with
  | down =>
    refine .bind (secures_tell hx hm h old new fun q o ho => ?_)
      fun _ w₃ _ _ h₃ => (secures_alert hx h₃ _ _ _ _ _ _).mono fun _ _ _ _ h => h.2
    obtain ⟨hq, rfl, hc, haff⟩ := hnews q o ho
    exact ⟨hq, rfl, hc, rfl, haff⟩
  | up =>
    refine .bind (secures_alert hx h _ _ _ _ _ _) fun _ w₃ _ _ h₃ =>
      secures_tell hx hm h₃.2 old new fun q o ho => ?_
    obtain ⟨hq, rfl, hc, haff⟩ := hnews q o ho
    exact ⟨hq, rfl, hc, rfl, by rwa [Workspace.tellLayer, h₃.1]⟩

/-- What follows a new state: the node or its arcs may go, and the neighbours are told. -/
theorem secures_follow (hp : p.Distinct) (hx : p.options.isExact = false) (hm : p.model.ReadsOwn) {e : Direction}
    {n : NodeId} {new : State} (hn : n < w.graph.nodes.size) (same : w.graph.state n e.side = new →
      Lawful L top { x with news := fun _ _ => False } ([], w)) (news : NodeId → Option Nat → Prop)
    (put : Lawful L top { x with news } ([], w.putState n e.side new))
    (hnews : Bears p d e (w.tellLayer d n) n (w.graph.state n d.side) new (w.altered p n e new) news) :
    Secures p stale (adoptState p e n new) (fun _ w' => Lawful L top { x with news := fun _ _ => False } ([], w')) w := by
  intro ht
  let v := w.putState n e.side new
  have hv : n < v.graph.nodes.size := Nat.lt_of_lt_of_eq hn (Graph.size_putState w.graph n e.side new).symm
  have h₀ : Upkept p stale w v := ⟨ht.putState hn _ _, .putState hn _ _⟩
  let J : Workspace → Prop := Upholds stale L top { x with news } w
  refine wp_adoptState (fun _ => J) (fun _ => J) (fun _ => J) (fun e => ⟨ht, .refl w, same e⟩) ?_
    (fun _ _ _ _ => trivial) (fun _ w' k _ => ?_) (fun _ w' k => ?_) (fun _ w' k => ?_) fun both w' k => ?_
  · exact (secures_rederive put hv _ _).goesOn h₀ fun _ _ k l => ⟨k, l.1⟩
  · refine (secures_dropNode hp k.2 n).goesOn k.1 fun _ w'' l hd => ?_
    exact ⟨l.1, l.2, hd.1.2.silent l.1 hd.2 fun q o ho => (hnews q o ho).1⟩
  · exact wp_when ((secures_retestOutgoing hp k.2 n).upholds k) k
  · exact wp_when ((secures_retestIncoming hp k.2 n).upholds k) k
  · have hl : w'.tellLayer d n = w.tellLayer d n := by cases d <;> simp only [Workspace.tellLayer, k.1.2.layerOf n hn]
    exact (secures_tellNeighbours hx hm k.2 both (hl ▸ hnews)).goesOn k.1 fun _ _ l h => ⟨l.1, l.2, h⟩

/-- A node which gets a new state obeys its law if the new state does. -/
theorem secures_adoptState (hp : p.Distinct) (hx : p.options.isExact = false) (hm : p.model.ReadsOwn)
    (e : Direction) {n : NodeId} {new : State} (on : w.graph.isActive n = true)
    (hk : Keeping w n e.side new)
    (h : Lawful L top { x with late := fun m => x.late m ∨ m = n, news := fun _ _ => False } ([], w))
    (hnew : w.Sown p d n → ¬ x.late n → ∀ o,
      Excused p d { x with news := fun _ _ => False } ([], w) n o ∨
        L.holds (w.feedLayer d n) (w.enters d n) (fun q => w.graph.state q d.side)
          (if e = d then new else w.graph.state n d.side) o) :
    Secures p stale (adoptState p e n new)
      (fun _ w' => Lawful L top { x with news := fun _ _ => False } ([], w')) w := by
  have hn := Graph.lt_of_isActive _ on
  -- with the state as it was the law holds of the node, too
  have stay : (e = d → w.graph.state n d.side = new) →
      Lawful L top { x with news := fun _ _ => False } ([], w) := by
    intro he
    refine ⟨h.toWhole, fun m om hs hl o => ?_⟩
    by_cases hmn : m = n
    · subst hmn
      refine (hnew hs hl o).imp_right fun hold => ?_
      unfold Law.Of
      have : (if e = d then new else w.graph.state m d.side) = w.graph.state m d.side := by
        split_ifs with hed
        · exact (he hed).symm
        · rfl
      rwa [this] at hold
    · exact h.abide m om hs (not_or.2 ⟨hl, hmn⟩) o
  intro ht
  by_cases hed : e = d
  · subst hed
    let news : NodeId → Option Nat → Prop := fun q o => q = n ∧
      ¬ p.model.Unaffected e (w.tellLayer e n) (w.graph.state n e.side) new o
    refine secures_follow hp hx hm hn (fun same => stay fun _ => same) news
      (h.put hx ht.toCensus on hk (fun hs hl o => ?_) fun o ho => ⟨rfl, ho⟩) (fun q o ho => ?_) ht
    · exact (hnew hs hl o).imp_right fun hh => by rwa [if_pos rfl] at hh
    · exact ⟨ho.1, rfl, w.altered_self p n e new, ho.2⟩
  · have hside : d.side ≠ e.side := fun hs => hed (by cases d <;> cases e <;> first | rfl | cases hs)
    have still := stay fun h => absurd h hed
    exact secures_follow hp hx hm hn (fun _ => still) (fun _ _ => False) (still.putOther hn hside hk)
      (fun _ _ => False.elim) ht

end DecisionDiagrams
