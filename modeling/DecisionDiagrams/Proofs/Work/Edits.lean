import DecisionDiagrams.Proofs.Work.Evolves

/-! The single changes of which a propagation is made. Most of them leave the number of nodes of every layer
as it is or make it smaller. While a diagram is built nodes are added where their layer has room; once it is
built a node is only added by splitting, which takes a part of the budget with it. -/

namespace DecisionDiagrams

namespace Workspace

/-- The same workspace with other transitions remembered, and other counts of how often they were. -/
def recalling (w : Workspace) (cache : Memo) (hits misses : Nat) : Workspace :=
  { w with cache, counters := { w.counters with cacheHits := hits, cacheMisses := misses } }

/-- Takes a value out of a domain, unless none would remain. -/
def strike (x : Var) (v : Int) (w : Workspace) : Workspace :=
  match w.domains.remove? x v with
  | none => w
  | some (_, domains) => w.lose x v domains

/-- Adds a node which is split off another one, and pays for it. -/
def splitNode (layer : Nat) (states : BySide State) (w : Workspace) : Workspace :=
  let u := (w.addNode layer states).2
  { u with
    budget := u.budget - 1
    counters := { u.counters with nodesSplit := u.counters.nodesSplit + 1 } }

/-- Counts that the refinement moves back. -/
def reboot (w : Workspace) : Workspace := w.tally fun c => { c with reboots := c.reboots + 1 }

end Workspace

inductive Edit
  | tally (f : Counters → Counters)
  | memorize (cache : Memo) (hits misses : Nat)
  | note (f : Agenda → Agenda)
  | strike (x : Var) (v : Int)
  | connect (parent child : NodeId) (v : Int)
  | unhook (a : ArcId)
  | retire (n : NodeId)
  | putState (n : NodeId) (side : Side) (s : State)
  | markBuilt
  | markUpKnown
  | addNode (layer : Nat) (states : BySide State)
  | split (layer : Nat) (states : BySide State)
  | reboot

/-- When edits are made: at any time, only while a diagram is built, or only while it is refined. -/
inductive Edit.Kind
  | calm
  | building
  | refining
deriving DecidableEq

namespace Edit

def kind : Edit → Kind
  | .markBuilt | .markUpKnown | .addNode .. => .building
  | .split .. | .reboot => .refining
  | _ => .calm

def apply : Edit → Workspace → Workspace
  | .tally f, w => w.tally f
  | .memorize cache hits misses, w => w.recalling cache hits misses
  | .note f, w => { w with agenda := f w.agenda }
  | .strike x v, w => w.strike x v
  | .connect parent child v, w => w.connect parent child v
  | .unhook a, w => w.unhook a
  | .retire n, w => w.retire n
  | .putState n side s, w => w.putState n side s
  | .markBuilt, w => { w with built := true }
  | .markUpKnown, w => { w with upKnown := true }
  | .addNode layer states, w => (w.addNode layer states).2
  | .split layer states, w => w.splitNode layer states
  | .reboot, w => w.reboot

end Edit

/-- A layer may take so many nodes more: the last layer holds one, and the others as many as the plan
allows. -/
structure Workspace.Room (p : Plan) (layer count : Nat) (w : Workspace) : Prop where
  sink : layer = p.model.depth → w.graph.width layer + count ≤ 1
  width : ∀ k, p.options.maxWidth = some k → w.graph.width layer + count ≤ max 1 k

/-- A value which arcs of a layer may carry: it is in the domain of the layer, or an arc of the layer carries or
carried it. -/
def Workspace.Offers (p : Plan) (layer : Nat) (v : Int) (w : Workspace) : Prop :=
  w.domains.contains (p.model.var layer) v = true ∨
    ∃ a < w.graph.arcs.size, w.graph.layerOf (w.graph.arc a).parent = layer ∧ (w.graph.arc a).value = v

/-- Nothing was counted but recomputations and the like, and bundles which lead nowhere. -/
structure Counters.Matches (c c' : Counters) : Prop where
  created : c'.nodesCreated = c.nodesCreated
  deleted : c'.nodesDeleted = c.nodesDeleted
  removed : c'.valuesRemoved = c.valuesRemoved
  split : c'.nodesSplit = c.nodesSplit
  reboots : c'.reboots = c.reboots
  pruned : c.candidatesPruned ≤ c'.candidatesPruned

theorem Counters.Matches.refl (c : Counters) : c.Matches c := ⟨rfl, rfl, rfl, rfl, rfl, Nat.le_refl _⟩

/-- A count which touches neither the use of the cache nor what the other edits count. -/
structure Counters.Plain (f : Counters → Counters) : Prop where
  recalls : ∀ c hits misses, f { c with cacheHits := hits, cacheMisses := misses } =
    { f c with cacheHits := hits, cacheMisses := misses }
  counted : ∀ c : Counters, c.Matches (f c)

/-- When a propagation may make an edit. -/
def Edit.Fits (p : Plan) (w : Workspace) : Edit → Prop
  | .tally f => Counters.Plain f
  | .memorize cache _ _ => cache.Sound p.model
  | .strike x v => ∃ l < p.model.depth, x = p.model.var l ∧ w.domains.contains x v = true
  | .connect n c v => n < w.graph.nodes.size ∧ c < w.graph.nodes.size ∧
    w.graph.layerOf c = w.graph.layerOf n + 1 ∧ w.Offers p (w.graph.layerOf n) v
  | .unhook a => w.graph.arcIsActive a = true
  | .retire n => w.graph.isActive n = true
  | .putState n _ _ => n < w.graph.nodes.size
  | .addNode layer _ => layer ≤ p.model.depth ∧ w.Room p layer 1
  | .split layer _ => layer ≤ p.model.depth ∧ w.Room p layer 1 ∧ 0 < w.budget
  | .reboot => w.counters.reboots < w.counters.candidatesPruned
  | .note _ | .markBuilt | .markUpKnown => True

/-! ### Widths -/

namespace Graph

variable (g : Graph)

theorem width_appendNode (l : Nat) (s : BySide State) (k : Nat) :
    (g.appendNode l s).2.width k ≤ g.width k + if k = l then 1 else 0 := by
  unfold width layer appendNode
  dsimp only
  rw [Array.getD_eq_getD_getElem?, Array.getD_eq_getD_getElem?, Array.getElem?_modify]
  by_cases e : l = k
  · subst e
    rw [if_pos rfl, if_pos rfl]
    cases g.layers[l]? with
    | none => exact Nat.zero_le _
    | some ns => exact Nat.le_of_eq (Array.size_push _)
  · rw [if_neg e, if_neg (Ne.symm e)]
    exact Nat.le_refl _

theorem width_withdraw_le (n : NodeId) (k : Nat) : (g.withdraw n).width k ≤ g.width k := by
  unfold width
  rw [layer_withdraw]
  split_ifs
  · unfold dropAt
    split
    · simp
    · exact Nat.le_refl _
  · exact Nat.le_refl _

end Graph

/-- No node came, nothing was drawn from the budget, and the refinement did not move back. -/
structure Subsides (w w' : Workspace) : Prop where
  width : ∀ l, w'.graph.width l ≤ w.graph.width l
  nodes : w'.graph.nodes.size = w.graph.nodes.size
  upKnown : w'.upKnown = w.upKnown
  budget : w'.budget = w.budget
  split : w'.counters.nodesSplit = w.counters.nodesSplit
  reboots : w'.counters.reboots = w.counters.reboots
  pruned : w.counters.candidatesPruned ≤ w'.counters.candidatesPruned

namespace Subsides

variable {w w' : Workspace}

theorem of_layers (hl : w'.graph.layers = w.graph.layers) (hn : w'.graph.nodes.size = w.graph.nodes.size)
    (hu : w'.upKnown = w.upKnown) (hb : w'.budget = w.budget)
    (hs : w'.counters.nodesSplit = w.counters.nodesSplit) (hr : w'.counters.reboots = w.counters.reboots)
    (hp : w.counters.candidatesPruned ≤ w'.counters.candidatesPruned) : Subsides w w' :=
  ⟨fun l => Nat.le_of_eq (by unfold Graph.width Graph.layer; rw [hl]), hn, hu, hb, hs, hr, hp⟩

theorem of_graph (hg : w'.graph = w.graph) (hu : w'.upKnown = w.upKnown) (hb : w'.budget = w.budget)
    (hs : w'.counters.nodesSplit = w.counters.nodesSplit) (hr : w'.counters.reboots = w.counters.reboots)
    (hp : w.counters.candidatesPruned ≤ w'.counters.candidatesPruned) : Subsides w w' :=
  of_layers (by rw [hg]) (by rw [hg]) hu hb hs hr hp

theorem recalling (w : Workspace) (cache : Memo) (hits misses : Nat) :
    Subsides w (w.recalling cache hits misses) := of_graph rfl rfl rfl rfl rfl (Nat.le_refl _)

theorem strike (x : Var) (v : Int) (w : Workspace) : Subsides w (w.strike x v) := by
  unfold Workspace.strike
  split
  · exact of_graph rfl rfl rfl rfl rfl (Nat.le_refl _)
  · exact of_graph rfl rfl rfl rfl rfl (Nat.le_refl _)

theorem connect (n c : NodeId) (v : Int) (w : Workspace) : Subsides w (w.connect n c v) := by
  unfold Workspace.connect
  exact of_layers rfl (Graph.size_connect _ _ _ _) rfl rfl rfl rfl (Nat.le_refl _)

theorem unhook (a : ArcId) (w : Workspace) : Subsides w (w.unhook a) := by
  unfold Workspace.unhook
  exact of_layers Graph.layers_detach Graph.size_detach rfl rfl rfl rfl (Nat.le_refl _)

theorem retire (n : NodeId) (w : Workspace) : Subsides w (w.retire n) := by
  unfold Workspace.retire
  exact ⟨Graph.width_withdraw_le _ n, Graph.size_withdraw, rfl, rfl, rfl, rfl, Nat.le_refl _⟩

theorem putState (n : NodeId) (side : Side) (s : State) (w : Workspace) :
    Subsides w (w.putState n side s) :=
  of_layers rfl (Graph.size_putState _ _ _ _) rfl rfl rfl rfl (Nat.le_refl _)

end Subsides

theorem Edit.subsides {p : Plan} {w : Workspace} {e : Edit} (calm : e.kind = .calm) (fits : e.Fits p w) :
    Subsides w (e.apply w) := by
  cases e with
  | tally f =>
    have counted := fits.counted w.counters
    exact .of_graph rfl rfl rfl counted.split counted.reboots counted.pruned
  | memorize cache hits misses => exact .recalling w cache hits misses
  | note => exact .of_graph rfl rfl rfl rfl rfl (Nat.le_refl _)
  | strike x v => exact .strike x v w
  | connect n c v => exact .connect n c v w
  | unhook a => exact .unhook a w
  | retire n => exact .retire n w
  | putState n side s => exact .putState n side s w
  | markBuilt | markUpKnown | addNode | split | reboot => cases calm

namespace Workspace.Room

variable {p : Plan} {layer count : Nat} {w w' : Workspace}

theorem subsides (h : w.Room p layer count) (k : Subsides w w') : w'.Room p layer count :=
  ⟨fun e => Nat.le_trans (Nat.add_le_add_right (k.width layer) count) (h.sink e),
    fun j e => Nat.le_trans (Nat.add_le_add_right (k.width layer) count) (h.width j e)⟩

theorem fewer {less : Nat} (h : w.Room p layer count) (hl : less ≤ count) : w.Room p layer less :=
  ⟨fun e => Nat.le_trans (Nat.add_le_add_left hl _) (h.sink e),
    fun k e => Nat.le_trans (Nat.add_le_add_left hl _) (h.width k e)⟩

/-- A new node takes one of the places of its layer. -/
theorem addNode (h : w.Room p layer (count + 1)) (states : BySide State) :
    (w.addNode layer states).2.Room p layer count := by
  have hw : (w.addNode layer states).2.graph.width layer ≤ w.graph.width layer + 1 := by
    have := w.graph.width_appendNode layer states layer
    rwa [if_pos rfl] at this
  refine ⟨fun e => ?_, fun k e => ?_⟩
  · have := h.sink e
    omega
  · have := h.width k e
    omega

end Workspace.Room

/-! ### What every edit keeps -/

/-- The graph and the counts of its arcs agree, and the refinement moved back for discarded bundles only. -/
structure Orderly (p : Plan) (w : Workspace) : Prop extends Census p w where
  reboots : w.counters.reboots ≤ w.counters.candidatesPruned

namespace Edit

variable {p : Plan} {w : Workspace} {e : Edit}

theorem evolves (fits : e.Fits p w) (h : Orderly p w) : Evolves w (e.apply w) := by
  cases e with
  | tally | memorize | note => exact .of_graph rfl (.refl _) id id
  | strike x v =>
    show Evolves w (w.strike x v)
    unfold Workspace.strike
    split
    · exact .refl w
    · rename_i left
      exact .of_graph rfl (Domains.narrows_remove? left) id id
  | connect n c v => exact .connect fits.1 fits.2.1 v
  | unhook a => exact .of_shrinks (Cascade.shrinks_unhook h.wf fits)
  | retire n => exact .of_shrinks (Cascade.shrinks_retire h.wf fits)
  | putState n side s => exact .putState fits side s
  | markBuilt => exact .of_graph rfl (.refl _) id fun _ => rfl
  | markUpKnown => exact .of_graph rfl (.refl _) (fun _ => rfl) id
  | addNode layer states => exact .addNode layer states w
  | split layer states => exact (Evolves.addNode layer states w).trans (.of_graph rfl (.refl _) id id)
  | reboot => exact .of_graph rfl (.refl _) id id

theorem census (fits : e.Fits p w) (h : Census p w) : Census p (e.apply w) := by
  cases e with
  | tally | memorize | note | markBuilt | markUpKnown | reboot => exact h.congr rfl rfl
  | strike x v =>
    show Census p (w.strike x v)
    unfold Workspace.strike
    split <;> exact h.congr rfl rfl
  | connect n c v => exact h.connect fits.1 fits.2.1 fits.2.2.1 v
  | unhook a => exact h.unhook fits
  | retire n => exact h.retire fits
  | putState n side s => exact h.putState fits side s
  | addNode layer states => exact h.addNode fits.1 states
  | split layer states => exact (h.addNode fits.1 states).congr rfl rfl

theorem orderly (fits : e.Fits p w) (h : Orderly p w) : Orderly p (e.apply w) := by
  refine ⟨e.census fits h.toCensus, ?_⟩
  have reboots := h.reboots
  by_cases calm : e.kind = .calm
  · have k := Edit.subsides calm fits
    rw [k.reboots]
    exact Nat.le_trans reboots k.pruned
  · cases e with
    | reboot => exact fits
    | markBuilt | markUpKnown | addNode | split => exact reboots
    | _ => exact absurd rfl calm

theorem cached (fits : e.Fits p w) (h : w.cache.Sound p.model) : (e.apply w).cache.Sound p.model := by
  cases e with
  | memorize cache => exact fits
  | strike x v =>
    unfold Edit.apply Workspace.strike
    dsimp only
    split <;> exact h
  | connect => unfold Edit.apply Workspace.connect; exact h
  | unhook => unfold Edit.apply Workspace.unhook; exact h
  | retire => unfold Edit.apply Workspace.retire; exact h
  | tally | note | markBuilt | markUpKnown | putState | addNode | split | reboot => exact h

theorem built (e : Edit) (h : w.built = true) : (e.apply w).built = true := by
  cases e with
  | markBuilt => rfl
  | strike x v =>
    unfold Edit.apply Workspace.strike
    dsimp only
    split <;> exact h
  | connect => unfold Edit.apply Workspace.connect; exact h
  | unhook => unfold Edit.apply Workspace.unhook; exact h
  | retire => unfold Edit.apply Workspace.retire; exact h
  | tally | memorize | note | markUpKnown | putState | addNode | split | reboot => exact h

end Edit
end DecisionDiagrams
