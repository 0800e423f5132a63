import DecisionDiagrams.Diagram.Refinement
import DecisionDiagrams.Diagram.Growth
import DecisionDiagrams.Proofs.Work.Tidy

/-! Steps which only compute. They look transitions up in the cache and count, but leave the diagram,
the domains and the agenda alone; their result is what the rules give without a cache. -/

namespace DecisionDiagrams

open Work

/-- Only counters and the cache may differ, and the cache stays right. -/
structure Quiet (p : Plan) (w w' : Workspace) : Prop where
  graph : w'.graph = w.graph
  supports : w'.supports = w.supports
  domains : w'.domains = w.domains
  agenda : w'.agenda = w.agenda
  upKnown : w'.upKnown = w.upKnown
  built : w'.built = w.built
  budget : w'.budget = w.budget
  cached : w.cache.Sound p.model → w'.cache.Sound p.model

namespace Quiet

variable {p : Plan} {a b c : Workspace}

theorem refl (p : Plan) (w : Workspace) : Quiet p w w := ⟨rfl, rfl, rfl, rfl, rfl, rfl, rfl, id⟩

theorem trans (h : Quiet p a b) (k : Quiet p b c) : Quiet p a c :=
  ⟨k.graph.trans h.graph, k.supports.trans h.supports, k.domains.trans h.domains,
    k.agenda.trans h.agenda, k.upKnown.trans h.upKnown, k.built.trans h.built,
    k.budget.trans h.budget, fun hc => k.cached (h.cached hc)⟩

theorem combined? (h : Quiet p a b) (m : Model) (n : NodeId) :
    b.combined? m n = a.combined? m n := by
  unfold Workspace.combined? Workspace.combinedKnown
  rw [h.upKnown, h.graph]

theorem tally (f : Counters → Counters) (w : Workspace) : Quiet p w (w.tally f) :=
  ⟨rfl, rfl, rfl, rfl, rfl, rfl, rfl, id⟩

theorem tidy {stale : Nat → Prop} {debts : List Cascade.Debt} (h : Quiet p a b)
    (ha : Tidy p stale debts a) : Tidy p stale debts b :=
  ha.congr h.graph h.supports h.domains (h.cached ha.cached)

end Quiet

/-- `x` gives what `c` is, and does nothing else. -/
def Computes {α : Type} (p : Plan) (x : Work α) (c : Checked α) (w : Workspace) : Prop :=
  wp x (fun a w' => Quiet p w w' ∧ c = .ok a)
    (fun e w' => Quiet p w w' ∧ ∃ f, e = .fault f ∧ c = .error f) w

namespace Computes

variable {α β : Type} {p : Plan} {w : Workspace}

theorem pure (a : α) : Computes p (Pure.pure a) (.ok a) w := ⟨Quiet.refl p w, rfl⟩

theorem lift (c : Checked α) : Computes p (liftM c) c w := by
  unfold Computes
  rw [wp_lift]
  exact ⟨fun a h => ⟨.refl p w, h⟩, fun f h => ⟨.refl p w, f, rfl, h⟩⟩

theorem monadLift (c : Checked α) : Computes p (MonadLift.monadLift c) c w := lift c

theorem bind {x : Work α} {c : Checked α} {f : α → Work β} {g : α → Checked β}
    (h : Computes p x c w)
    (hf : ∀ a w', Quiet p w w' → c = .ok a → Computes p (f a) (g a) w') :
    Computes p (x >>= f) (c >>= g) w := by
  unfold Computes
  rw [wp_bind]
  refine wp.mono h (fun a w' hq => ?_) fun e w' hq => ?_
  · rw [hq.2]
    exact wp.mono (hf a w' hq.1 hq.2) (fun b w'' h' => ⟨hq.1.trans h'.1, h'.2⟩)
      fun e w'' h' => ⟨hq.1.trans h'.1, h'.2⟩
  · obtain ⟨f, rfl, hc⟩ := hq.2
    exact ⟨hq.1, f, rfl, by rw [hc]; rfl⟩

theorem get_bind {f : Workspace → Work β} {c : Checked β} (h : Computes p (f w) c w) :
    Computes p (get >>= f) c w := by
  unfold Computes
  rw [wp_bind, wp_get]
  exact h

theorem mapM {f : α → Work β} {g : α → Checked β} : ∀ (l : List α) {w : Workspace},
    (∀ a w', Quiet p w w' → Computes p (f a) (g a) w') → Computes p (l.mapM f) (l.mapM g) w
  | [], w, _ => by
    rw [List.mapM_nil, List.mapM_nil]
    exact pure []
  | a :: l, w, h => by
    rw [List.mapM_cons, List.mapM_cons]
    refine bind (h a w (.refl p w)) fun b w' hq _ => ?_
    refine bind (mapM l fun a w'' hq' => h a w'' (hq.trans hq')) fun bs w'' _ _ => ?_
    exact pure _

theorem foldlM {f : β → α → Work β} {g : β → α → Checked β} : ∀ (l : List α) {b : β}
    {w : Workspace}, (∀ b, ∀ a ∈ l, ∀ w', Quiet p w w' → Computes p (f b a) (g b a) w') →
    Computes p (l.foldlM f b) (l.foldlM g b) w
  | [], b, w, _ => pure b
  | a :: l, b, w, h => by
    rw [List.foldlM_cons, List.foldlM_cons]
    refine bind (h b a List.mem_cons_self w (.refl p w)) fun b' w' hq _ => ?_
    exact foldlM l fun b a ha w'' hq' => h b a (List.mem_cons_of_mem _ ha) w'' (hq.trans hq')

end Computes

variable {p : Plan} {w : Workspace}

theorem IntSet.eq_singleton {s : IntSet} {v : Int} (h : s.toList = [v]) : s = .singleton v := by
  cases s
  cases h
  rfl

/-- A transition, remembered or not, is the transition of the rules. -/
theorem computes_stateAlong (hc : w.cache.Sound p.model) (direction : Direction) (layer : Nat)
    (n : NodeId) (values : IntSet) :
    Computes p (stateAlong p direction layer n values)
      (p.model.step direction layer (w.graph.state n direction.side) (w.combined? p.model n)
        values) w := by
  unfold stateAlong
  refine Computes.get_bind ?_
  dsimp only
  split
  · rename_i v hv _
    rw [IntSet.eq_singleton hv]
    split
    · rename_i s hs
      unfold Computes
      rw [wp_bind, wp_set, wp_pure]
      have := hc _ s hs
      exact ⟨.tally _ w, this⟩
    · unfold Computes
      rw [wp_bind, wp_monadLift]
      refine ⟨fun s hs => ?_, fun f hf => ⟨.refl p w, f, rfl, hf⟩⟩
      rw [wp_bind, wp_set, wp_pure]
      exact ⟨⟨rfl, rfl, rfl, rfl, rfl, rfl, rfl, fun _ => hc.insert hs⟩, hs⟩
  · exact .monadLift _

namespace Workspace

/-- The states reached from the neighbours, where a list of properties is computed into `old`. -/
def reached (w : Workspace) (p : Plan) (direction : Direction) (layer : Nat) (old : State) :
    Demand → Bundle → Checked State
  | .full, b =>
    p.model.step direction layer (w.graph.state b.1 direction.side) (w.combined? p.model b.1) b.2
  | .only which, b => partialFrom p direction layer old which w b

/-- The properties which are computed on demand. -/
def demanded (p : Plan) (direction : Direction) : Demand → IndexSet
  | .full => p.model.everyProperty direction.side
  | .only which => which

/-- The state a node gets from its neighbours. -/
def arrived (w : Workspace) (p : Plan) (direction : Direction) (layer : Nat) (bundles : List Bundle)
    (old : State) (r : Demand) : Checked State := do
  let states ← bundles.mapM (w.reached p direction layer old r)
  match states with
  | [] => return old
  | first :: rest =>
    let (merged, distinct) ← p.model.mergeInto direction.side (demanded p direction r) first rest
    return { merged with
      relaxed := states.any (·.relaxed) ||
        (!rest.isEmpty && (distinct || (r != .full && old.relaxed))) }

end Workspace

theorem Quiet.reached {w' : Workspace} (h : Quiet p w w') (direction : Direction) (layer : Nat)
    (old : State) (r : Demand) (b : Bundle) :
    w'.reached p direction layer old r b = w.reached p direction layer old r b := by
  cases r with
  | full => simp only [Workspace.reached, h.graph, h.combined?]
  | only which => simp only [Workspace.reached, partialFrom, h.graph, h.combined?]

theorem computes_stateFromNeighbours (hc : w.cache.Sound p.model) (direction : Direction)
    (layer : Nat) (bundles : List Bundle) (old : State) (r : Demand) :
    Computes p (stateFromNeighbours p direction layer bundles old r)
      (w.arrived p direction layer bundles old r) w := by
  unfold stateFromNeighbours Workspace.arrived
  dsimp only
  cases r with
  | full =>
    refine Computes.bind (c := bundles.mapM (w.reached p direction layer old .full))
      (Computes.mapM bundles fun b w' hq => ?_) fun states w' hq _ => ?_
    · rw [← hq.reached]
      exact computes_stateAlong (hq.cached hc) direction layer b.1 b.2
    · rw [pure_bind]
      dsimp only
      cases states with
      | nil => exact .pure old
      | cons first rest =>
        refine Computes.bind (.monadLift _) fun r w'' _ _ => ?_
        obtain ⟨merged, distinct⟩ := r
        exact .pure _
  | only which =>
    refine Computes.get_bind ?_
    refine Computes.bind (c := bundles.mapM (w.reached p direction layer old (.only which)))
      (Computes.mapM bundles fun b w' _ => .monadLift _) fun states w' hq _ => ?_
    rw [pure_bind]
    dsimp only
    cases states with
    | nil => exact .pure old
    | cons first rest =>
      refine Computes.bind (.monadLift _) fun r w'' _ _ => ?_
      obtain ⟨merged, distinct⟩ := r
      exact .pure _

namespace Workspace

/-- What one incoming arc adds to the bundles of a node. -/
def bundleUp (w : Workspace) (p : Plan) (layer : Nat) (cs : List Candidate) (a : ArcId) :
    Checked (List Candidate) := do
  let arc := w.graph.arc a
  let grouped := p.options.split == .equivalenceClass && !p.model.equivalenceKeys.isEmpty
  let down ← p.model.step .down (layer - 1) (w.graph.state arc.parent .down)
    (w.combined? p.model arc.parent) (.singleton arc.value)
  let key ← if grouped then p.model.equivalenceKey down else pure []
  let belongs := fun (c : Candidate) => if grouped then c.key == key else c.down == down
  Candidate.add p.model belongs key down a cs

/-- What a parent and a label add to the layer which is being built. -/
def collect (w : Workspace) (p : Plan) (layer : Nat) (parent : NodeId) (f : Frontier) (v : Int) :
    Checked Frontier := do
  let sinkUp := if layer + 1 = p.model.depth then some (p.model.fresh .up) else none
  let passes ← p.model.arcPasses layer v (w.graph.state parent .down) (w.combined? p.model parent)
    sinkUp none
  if passes then
    let down ← p.model.step .down layer (w.graph.state parent .down) (w.combined? p.model parent)
      (.singleton v)
    return f.add down parent v
  else return f

end Workspace

theorem computes_candidatesOf (hc : w.cache.Sound p.model) (n : NodeId) (layer : Nat) :
    Computes p (candidatesOf p n layer)
      ((w.graph.incoming n).toList.foldlM (w.bundleUp p layer) []) w := by
  unfold candidatesOf
  refine Computes.get_bind ?_
  refine Computes.foldlM _ fun cs a _ w' hq => ?_
  refine Computes.get_bind ?_
  unfold Workspace.bundleUp
  dsimp only
  rw [hq.graph]
  refine Computes.bind ?_ fun down w'' _ _ => ?_
  · rw [← hq.graph, ← hq.combined?]
    exact computes_stateAlong (hq.cached hc) .down _ _ _
  · split_ifs
    · exact Computes.bind (.monadLift _) fun key w''' _ _ => .monadLift _
    · exact Computes.bind (.pure _) fun key w''' _ _ => .monadLift _

theorem computes_collectChildren (hc : w.cache.Sound p.model) (layer : Nat) (values : List Int)
    (f : Frontier) (parent : NodeId) :
    Computes p (collectChildren p layer values f parent)
      (values.foldlM (w.collect p layer parent) f) w := by
  unfold collectChildren
  refine Computes.foldlM _ fun f v _ w' hq => ?_
  refine Computes.get_bind ?_
  unfold Workspace.collect
  dsimp only
  rw [hq.graph, hq.combined?]
  refine Computes.bind (.monadLift _) fun passes w'' hq' _ => ?_
  split_ifs
  · refine Computes.bind ?_ fun down w''' _ _ => .pure _
    have hall := hq.trans hq'
    rw [← hall.graph, ← hall.combined?]
    exact computes_stateAlong (hall.cached hc) .down _ _ _
  · exact .pure _

theorem Quiet.collect {a b : Workspace} (h : Quiet p a b) (layer : Nat) (q : NodeId) (f : Frontier)
    (v : Int) :
    b.collect p layer q f v = a.collect p layer q f v := by
  unfold Workspace.collect
  rw [h.graph, h.combined?]

/-- Collecting the children of all parents of a layer. -/
theorem computes_collect (hc : w.cache.Sound p.model) (layer : Nat) (values : List Int)
    (parents : List NodeId) :
    Computes p (parents.foldlM (collectChildren p layer values) {})
      (parents.foldlM (fun f q => values.foldlM (w.collect p layer q) f) {}) w := by
  refine Computes.foldlM _ fun f q _ w₁ hq => ?_
  have := computes_collectChildren (hq.cached hc) layer values f q
  simpa only [funext fun f => funext fun v => hq.collect layer q f v] using this

end DecisionDiagrams
