import DecisionDiagrams.Proofs.Engine.Upkeep
import DecisionDiagrams.Proofs.Work.Agenda
import Mathlib.Data.Prod.Lex
import Mathlib.Order.RelClasses

/-! What a propagation uses up. New nodes are paid for by the budget of splits, and nothing else adds to
a diagram once it is built; so the budget, and under the same budget the number of nodes and arcs, only
goes down. While it stays as it is, computing a node again notes nothing but the neighbours on the next
layer in the direction of the computation. -/

namespace DecisionDiagrams

open Work Cascade

namespace Workspace

/-- The number of arcs. -/
def arcCount (w : Workspace) : Nat := (List.range w.graph.arcs.size).countP w.graph.arcIsActive

/-- What is left to be used up: new nodes first, then the nodes and arcs which are there. -/
def potential (w : Workspace) : Nat ×ₗ Nat := toLex (w.budget, w.live + w.arcCount)

variable {p : Plan} {w w' : Workspace}

@[simp] theorem domains_unhook (a : ArcId) : (w.unhook a).domains = w.domains := by unfold unhook; rfl

@[simp] theorem agenda_unhook (a : ArcId) : (w.unhook a).agenda = w.agenda := by unfold unhook; rfl

@[simp] theorem budget_unhook (a : ArcId) : (w.unhook a).budget = w.budget := by unfold unhook; rfl

@[simp] theorem agenda_retire (n : NodeId) : (w.retire n).agenda = w.agenda := by unfold retire; rfl

@[simp] theorem domains_connect (n c : NodeId) (v : Int) : (w.connect n c v).domains = w.domains := by
  unfold connect; rfl

@[simp] theorem agenda_connect (n c : NodeId) (v : Int) : (w.connect n c v).agenda = w.agenda := by
  unfold connect; rfl

theorem potential_lt_of_budget (h : w'.budget < w.budget) : w'.potential < w.potential :=
  Prod.Lex.toLex_lt_toLex.2 (Or.inl h)

theorem budget_le_of_potential (h : w'.potential ≤ w.potential) : w'.budget ≤ w.budget := by
  rcases Prod.Lex.toLex_le_toLex.1 h with h | h
  · exact Nat.le_of_lt h
  · exact Nat.le_of_eq h.1

theorem potential_congr (hg : w'.graph = w.graph) (hb : w'.budget = w.budget) :
    w'.potential = w.potential := by
  unfold potential live arcCount
  rw [hg, hb]

theorem potential_putState {n : NodeId} (hn : n < w.graph.nodes.size) (side : Side) (s : State) :
    (w.putState n side s).potential = w.potential := by
  have en := Graph.node_putState w.graph n side s hn
  have active : (w.putState n side s).graph.isActive = w.graph.isActive := by
    funext m
    show ((w.graph.putState n side s).node m).active = _
    rw [en]
    rfl
  unfold potential live arcCount
  rw [active, show (w.putState n side s).graph.nodes.size = w.graph.nodes.size from
    Graph.size_putState w.graph n side s]
  rfl

end Workspace

namespace Cascade

variable {p : Plan} {w w' : Workspace}

theorem Shrinks.arcCount_le (h : Shrinks w w') : w'.arcCount ≤ w.arcCount := by
  unfold Workspace.arcCount
  rw [h.arcs]
  exact List.countP_mono_left fun a _ => h.arcActive a

theorem Shrinks.potential_lt (h : Shrinks w w') (hlt : w'.live + w'.arcCount < w.live + w.arcCount) :
    w'.potential < w.potential := by
  unfold Workspace.potential
  rw [h.budget]
  exact Prod.Lex.toLex_lt_toLex.2 (Or.inr ⟨rfl, hlt⟩)

theorem arcCount_unhook (hw : w.graph.Wf) {a : ArcId} (ha : w.graph.arcIsActive a = true) :
    (w.unhook a).arcCount + 1 = w.arcCount := by
  have hs : (w.unhook a).graph.arcs.size = w.graph.arcs.size := Graph.arcs_size_detach
  unfold Workspace.arcCount
  rw [hs, ← countP_and_ne List.nodup_range (List.mem_range.2 (Graph.lt_of_arcIsActive _ ha)) ha]
  refine congrArg (· + 1) (List.countP_congr fun b _ => ?_)
  rw [show (w.unhook a).graph = w.graph.detach a from rfl, Graph.arcIsActive_detach (hw.listed a),
    Bool.and_eq_true, bne_iff_ne]
  exact and_comm

theorem Step.dwindles {c d : Config} (h : Step p c d) : c.2.domains.Dwindles d.2.domains := by
  cases h with
  | visit => exact Or.inl rfl
  | gone => exact Or.inl rfl
  | note => exact Or.inl Workspace.domains_schedule
  | retire => exact Or.inl (Workspace.domains_retire _)
  | unhook => exact Or.inl (Workspace.domains_unhook _)
  | drained => exact Or.inl rfl
  | forget _ _ _ left => exact Domains.dwindles_remove? left

theorem Steps.dwindles {debts left : List Debt} (h : Steps p (debts, w) (left, w')) :
    w.domains.Dwindles w'.domains :=
  Steps.keeps (I := fun c => w.domains.Dwindles c.2.domains) (fun _ _ hs hi => hi.trans hs.dwindles) h
    (.refl _)

end Cascade

/-- Which entries of the agenda make sense: a node waits on its own layer, the root for no down state,
and nothing for an up state unless there are any. -/
def Agenda.Suits (p : Plan) (g : Graph) (agenda : Agenda) : Prop :=
  ∀ d l, ∀ e ∈ agenda.waiting d l, e.1 < g.nodes.size ∧ g.layerOf e.1 = l ∧
    match d with
    | .down => 0 < l
    | .up => p.model.hasUp = true

namespace Agenda

theorem Suits.of_nodes {p : Plan} {g g' : Graph} {a : Agenda} (h : a.Suits p g)
    (hn : g.nodes.size ≤ g'.nodes.size) (hl : ∀ n < g.nodes.size, g'.layerOf n = g.layerOf n) :
    a.Suits p g' := fun d l e he => by
  obtain ⟨h1, h2, h3⟩ := h d l e he
  exact ⟨Nat.lt_of_lt_of_le h1 hn, (hl _ h1).trans h2, h3⟩

theorem Suits.clearLayer {p : Plan} {g : Graph} {a : Agenda} (h : a.Suits p g) (d : Direction)
    (l : Nat) : (a.clearLayer d l).Suits p g := fun e k x hx => by
  by_cases hk : e = d ∧ k = l
  · obtain ⟨rfl, rfl⟩ := hk
    rw [waiting_clearLayer_self] at hx
    cases hx
  · rw [waiting_clearLayer_of_ne a hk] at hx
    exact h e k x hx

end Agenda

/-- What every step of a propagation of a built diagram can rely on. -/
structure Filed (p : Plan) (w : Workspace) : Prop extends Census p w where
  built : w.built = true
  cached : w.cache.Sound p.model
  suits : w.agenda.Suits p w.graph

namespace Filed

variable {p : Plan} {w w' : Workspace}

theorem congr (h : Filed p w) (hg : w'.graph = w.graph) (hs : w'.supports = w.supports)
    (hc : w'.cache.Sound p.model) (ha : w'.agenda = w.agenda) (hb : w'.built = w.built) : Filed p w' :=
  { h.toCensus.congr hg hs with
    built := hb.trans h.built
    cached := hc
    suits := by rw [ha, hg]; exact h.suits }

theorem quiet (h : Filed p w) (hq : Quiet p w w') : Filed p w' :=
  h.congr hq.graph hq.supports (hq.cached h.cached) hq.agenda hq.built

theorem schedule (h : Filed p w) (d : Direction) (r : Demand) (n : NodeId) :
    Filed p (w.schedule p d r n) := by
  refine { h.toCensus.schedule d r n with
    built := (shrinks_schedule d r n).built.trans h.built
    cached := ?_
    suits := ?_ }
  · rw [(shrinks_schedule d r n).cache]
    exact h.cached
  · rw [Workspace.graph_schedule]
    unfold Workspace.schedule
    dsimp only
    split_ifs with hn
    · intro e k x hx
      rcases Agenda.mem_waiting_note hx with hx | ⟨rfl, rfl, rfl⟩
      · exact h.suits e k x hx
      · simp only [Bool.and_eq_true] at hn
        refine ⟨Graph.lt_of_isActive _ hn.1.2, rfl, ?_⟩
        cases e with
        | down => exact of_decide_eq_true hn.2
        | up => exact (Bool.and_eq_true _ _ ▸ hn.2).1
    · exact h.suits

theorem unhook (h : Filed p w) {a : ArcId} (ha : w.graph.arcIsActive a = true) :
    Filed p (w.unhook a) := by
  have hs := shrinks_unhook h.wf ha
  exact { h.toCensus.unhook ha with
    built := hs.built.trans h.built
    cached := by rw [hs.cache]; exact h.cached
    suits := by
      rw [Workspace.agenda_unhook]
      exact h.suits.of_nodes (Nat.le_of_eq hs.nodes.symm) fun n _ => hs.layerOf n }

theorem retire (h : Filed p w) {n : NodeId} (hn : w.graph.isActive n = true) :
    Filed p (w.retire n) := by
  have hs := shrinks_retire h.wf hn
  exact { h.toCensus.retire hn with
    built := hs.built.trans h.built
    cached := by rw [hs.cache]; exact h.cached
    suits := by
      rw [Workspace.agenda_retire]
      exact h.suits.of_nodes (Nat.le_of_eq hs.nodes.symm) fun m _ => hs.layerOf m }

theorem putState (h : Filed p w) {n : NodeId} (hn : n < w.graph.nodes.size) (side : Side) (s : State) :
    Filed p (w.putState n side s) := by
  have he := Evolves.putState hn side s
  exact { h.toCensus.putState hn side s with
    built := he.built h.built
    cached := h.cached
    suits := h.suits.of_nodes he.nodes he.layerOf }

theorem addNode (h : Filed p w) {l : Nat} (hl : l ≤ p.model.depth) (s : BySide State) :
    Filed p (w.addNode l s).2 := by
  have he := Evolves.addNode l s w
  exact { h.toCensus.addNode hl s with
    built := he.built h.built
    cached := h.cached
    suits := h.suits.of_nodes he.nodes he.layerOf }

theorem connect (h : Filed p w) {n c : NodeId} (hn : n < w.graph.nodes.size)
    (hc : c < w.graph.nodes.size) (hl : w.graph.layerOf c = w.graph.layerOf n + 1) (v : Int) :
    Filed p (w.connect n c v) := by
  have he := Evolves.connect hn hc v
  exact { h.toCensus.connect hn hc hl v with
    built := he.built h.built
    cached := by
      rw [show (w.connect n c v).cache = w.cache by unfold Workspace.connect; rfl]
      exact h.cached
    suits := by
      rw [Workspace.agenda_connect]
      exact h.suits.of_nodes he.nodes he.layerOf }

theorem clearLayer (h : Filed p w) (d : Direction) (layer : Nat) :
    Filed p { w with agenda := w.agenda.clearLayer d layer } :=
  { h.toCensus.congr rfl rfl with built := h.built, cached := h.cached, suits := h.suits.clearLayer d layer }

theorem splitNode (h : Filed p w) {l : Nat} (hl : l ≤ p.model.depth) (s : BySide State) : Filed p (w.splitNode l s) :=
  have h₁ := h.addNode hl s
  h₁.congr rfl rfl h₁.cached rfl rfl

theorem copying (h : Filed p w) {new : NodeId} {a : ArcId} (hn : new < w.graph.nodes.size)
    (hc : (w.graph.arc a).child < w.graph.nodes.size)
    (hl : w.graph.layerOf (w.graph.arc a).child = w.graph.layerOf new + 1) : Filed p (w.copying p new a) :=
  (h.connect hn hc hl _).schedule _ _ _

theorem redirecting (h : Filed p w) {new : NodeId} {a : ArcId} (on : w.graph.arcIsActive a = true)
    (hn : new < w.graph.nodes.size) (hl : w.graph.layerOf (w.graph.arc a).child = w.graph.layerOf new) :
    Filed p (w.redirecting p new a) :=
  (h.connect (h.wf.parent_lt on) hn (hl ▸ h.wf.adjacent a on) _).schedule _ _ _

end Filed

theorem Cascade.Step.filed {p : Plan} {c d : Config} (h : Step p c d) (hc : Filed p c.2) :
    Filed p d.2 := by
  cases h with
  | visit => exact hc
  | gone => exact hc
  | note => exact hc.schedule _ _ _
  | retire on => exact hc.retire on
  | unhook _ on => exact hc.unhook on
  | drained => exact hc
  | forget => exact hc.congr rfl rfl hc.cached rfl rfl

theorem Cascade.Steps.filed {p : Plan} {debts left : List Debt} {w w' : Workspace}
    (h : Steps p (debts, w) (left, w')) (hc : Filed p w) : Filed p w' :=
  Steps.keeps (I := fun c => Filed p c.2) (fun _ _ hs => hs.filed) h hc

/-! ### Where notes may be made -/

/-- Nothing was used up; only the listed layers of the agenda may have changed. -/
structure Level (A : Direction → Nat → Prop) (w w' : Workspace) : Prop where
  potential : w'.potential = w.potential
  layers : w'.graph.layers = w.graph.layers
  stays : ∀ a, w.graph.arcIsActive a = true → w'.graph.arcIsActive a = true
  agenda : ∀ d l, ¬ A d l → w'.agenda.waiting d l = w.agenda.waiting d l

/-- What a step of a built diagram can do: it uses something up, or it only notes nodes on the listed
layers. -/
structure Ebbs (A : Direction → Nat → Prop) (w w' : Workspace) : Prop extends Evolves w w' where
  dwindles : w.domains.Dwindles w'.domains
  falls : w'.potential < w.potential ∨ Level A w w'

namespace Ebbs

variable {p : Plan} {A B : Direction → Nat → Prop} {w w' w'' : Workspace}

theorem refl (w : Workspace) : Ebbs A w w :=
  { Evolves.refl w with dwindles := .refl _, falls := Or.inr ⟨rfl, rfl, fun _ h => h, fun _ _ _ => rfl⟩ }

theorem trans (h : Ebbs A w w') (k : Ebbs A w' w'') : Ebbs A w w'' :=
  { h.toEvolves.trans k.toEvolves with
    dwindles := h.dwindles.trans k.dwindles
    falls := by
      rcases h.falls with h | h
      · rcases k.falls with k | k
        · exact Or.inl (lt_trans k h)
        · exact Or.inl (k.potential ▸ h)
      · rcases k.falls with k | k
        · exact Or.inl (h.potential ▸ k)
        · exact Or.inr ⟨k.potential.trans h.potential, k.layers.trans h.layers,
            fun a ha => k.stays a (h.stays a ha), fun d l hn => (k.agenda d l hn).trans (h.agenda d l hn)⟩ }

instance : IsPreorder Workspace (Ebbs A) where
  refl := refl
  trans _ _ _ := trans

theorem weaken (h : Ebbs A w w') (hm : ∀ d l, A d l → B d l) : Ebbs B w w' :=
  { h with falls := h.falls.imp_right fun k =>
    { k with agenda := fun d l hn => k.agenda d l fun h => hn (hm d l h) } }

theorem potential_le (h : Ebbs A w w') : w'.potential ≤ w.potential :=
  h.falls.elim le_of_lt fun k => le_of_eq k.potential

/-- Nothing happens to the graph and the budget. -/
theorem of_graph (he : Evolves w w') (hd : w.domains.Dwindles w'.domains) (hg : w'.graph = w.graph)
    (hb : w'.budget = w.budget)
    (ha : ∀ d l, ¬ A d l → w'.agenda.waiting d l = w.agenda.waiting d l) : Ebbs A w w' :=
  { he with
    dwindles := hd
    falls := Or.inr ⟨Workspace.potential_congr hg hb, by rw [hg], fun _ h => by rwa [hg], ha⟩ }

theorem quiet (h : Quiet p w w') : Ebbs A w w' :=
  of_graph (.of_quiet h) (Or.inl h.domains) h.graph h.budget fun _ _ _ => by rw [h.agenda]

theorem putState {n : NodeId} (hn : n < w.graph.nodes.size) (side : Side) (s : State) :
    Ebbs A w (w.putState n side s) :=
  { Evolves.putState hn side s with
    dwindles := .refl _
    falls := Or.inr ⟨Workspace.potential_putState hn side s, rfl, fun _ h => h, fun _ _ _ => rfl⟩ }

/-- A note on one of the listed layers, or for no property. -/
theorem schedule {d : Direction} {r : Demand} {n : NodeId}
    (h : r.isEmpty = true ∨ A d (w.graph.layerOf n)) : Ebbs A w (w.schedule p d r n) := by
  refine of_graph (.schedule p d r n w) (Or.inl Workspace.domains_schedule) Workspace.graph_schedule
    (shrinks_schedule d r n).budget fun e l hn => ?_
  unfold Workspace.schedule
  dsimp only
  split_ifs
  · refine Agenda.waiting_note _ (h.imp_right fun hat hk => hn ?_)
    rw [hk.1, hk.2]
    exact hat
  · rfl

/-- A removal which takes something away. -/
theorem of_shrinks (h : Shrinks w w') (hd : w.domains.Dwindles w'.domains)
    (hlt : w'.live + w'.arcCount < w.live + w.arcCount) : Ebbs A w w' ∧ w'.potential < w.potential :=
  ⟨{ Evolves.of_shrinks h with dwindles := hd, falls := Or.inl (h.potential_lt hlt) }, h.potential_lt hlt⟩

theorem cut {a : ArcId} {left : List Debt} (hw : w.graph.Wf) (ha : w.graph.arcIsActive a = true)
    (hc : Census p (w.unhook a)) (h : Steps p (owed w a [], w.unhook a) (left, w')) :
    Ebbs A w w' ∧ w'.potential < w.potential := by
  have hs := Steps.shrinks h hc
  have hd := h.dwindles
  rw [Workspace.domains_unhook] at hd
  refine of_shrinks ((shrinks_unhook hw ha).trans hs) hd ?_
  have h1 := (shrinks_unhook hw ha).live
  have h2 := arcCount_unhook hw ha
  have h3 := hs.live
  have h4 := hs.arcCount_le
  omega

theorem drop {n : NodeId} {left : List Debt} (hw : w.graph.Wf) (hn : w.graph.isActive n = true)
    (hc : Census p (w.retire n)) (h : Steps p ([.drain n], w.retire n) (left, w')) :
    Ebbs A w w' ∧ w'.potential < w.potential := by
  have hs := Steps.shrinks h hc
  have hd := h.dwindles
  rw [Workspace.domains_retire] at hd
  refine of_shrinks ((shrinks_retire hw hn).trans hs) hd ?_
  have h1 := Workspace.live_retire hw hn
  have h2 := (shrinks_retire hw hn).arcCount_le
  have h3 := hs.live
  have h4 := hs.arcCount_le
  omega

end Ebbs

/-- What the parts of a split can do: they spend no more than there is. -/
structure Spends (w w' : Workspace) : Prop extends Evolves w w' where
  dwindles : w.domains.Dwindles w'.domains
  budget : w'.budget ≤ w.budget

namespace Spends

variable {p : Plan} {A : Direction → Nat → Prop} {w w' w'' : Workspace}

theorem refl (w : Workspace) : Spends w w :=
  { Evolves.refl w with dwindles := .refl _, budget := Nat.le_refl _ }

theorem trans (h : Spends w w') (k : Spends w' w'') : Spends w w'' :=
  { h.toEvolves.trans k.toEvolves with
    dwindles := h.dwindles.trans k.dwindles
    budget := Nat.le_trans k.budget h.budget }

instance : IsPreorder Workspace Spends where
  refl := refl
  trans _ _ _ := trans

theorem of_ebbs (h : Ebbs A w w') : Spends w w' :=
  { h.toEvolves with
    dwindles := h.dwindles
    budget := Workspace.budget_le_of_potential h.potential_le }

theorem schedule (d : Direction) (r : Demand) (n : NodeId) (w : Workspace) :
    Spends w (w.schedule p d r n) :=
  of_ebbs (Ebbs.schedule (A := fun _ _ => True) (Or.inr trivial))

theorem ebbs (h : Spends w w') (hb : w'.budget < w.budget) : Ebbs A w w' :=
  { h.toEvolves with
    dwindles := h.dwindles
    falls := Or.inl (Workspace.potential_lt_of_budget hb) }

end Spends

end DecisionDiagrams
