import DecisionDiagrams.Proofs.Domains
import DecisionDiagrams.Proofs.Work.Census
import Mathlib.Logic.Relation

/-! What removing an arc sets off, as single steps on a list of debts. A node which lost an arc has to
be settled; a node which was deleted has to be drained of its arcs, and each of these leaves two more
nodes to settle. What the steps keep is then kept by every removal, and a removal never runs out of
its allowance, since every deletion inside another one deactivates another node. -/

namespace DecisionDiagrams

namespace Workspace

variable {p : Plan} {w : Workspace} {direction : Direction} {r : Demand} {n : NodeId}

/-- The arcs of a node on the side which a removal in the given direction may leave empty. -/
def arcsOn (w : Workspace) (direction : Direction) (n : NodeId) : Array ArcId :=
  match direction with
  | .up => w.graph.outgoing n
  | .down => w.graph.incoming n

@[simp] theorem graph_schedule : (w.schedule p direction r n).graph = w.graph := by
  unfold schedule
  dsimp only
  split_ifs <;> rfl

@[simp] theorem domains_schedule : (w.schedule p direction r n).domains = w.domains := by
  unfold schedule
  dsimp only
  split_ifs <;> rfl

@[simp] theorem upKnown_schedule : (w.schedule p direction r n).upKnown = w.upKnown := by
  unfold schedule
  dsimp only
  split_ifs <;> rfl

/-- The number of active nodes. -/
def live (w : Workspace) : Nat := (List.range w.graph.nodes.size).countP w.graph.isActive

theorem live_le : w.live ≤ w.graph.nodes.size := by
  have := List.countP_le_length (p := w.graph.isActive) (l := List.range w.graph.nodes.size)
  rwa [List.length_range] at this

theorem isActive_unhook (hw : w.graph.Wf) (a : ArcId) (m : NodeId) :
    (w.unhook a).graph.isActive m = w.graph.isActive m := Graph.isActive_detach (hw.listed a) m

theorem isActive_retire (hw : w.graph.Wf) (m : NodeId) :
    (w.retire n).graph.isActive m = true ↔ m ≠ n ∧ w.graph.isActive m = true := by
  show (w.graph.withdraw n).isActive m = true ↔ _
  unfold Graph.isActive
  rw [Graph.node_withdraw fun m hm => hw.lt_of_mem_layer hm]
  by_cases e : m = n <;> simp [e]

theorem live_retire (hw : w.graph.Wf) (hn : w.graph.isActive n = true) :
    (w.retire n).live + 1 = w.live := by
  have hs : (w.retire n).graph.nodes.size = w.graph.nodes.size := Graph.size_withdraw
  unfold live
  rw [hs, ← countP_and_ne List.nodup_range (List.mem_range.2 (Graph.lt_of_isActive _ hn)) hn]
  refine congrArg (· + 1) (List.countP_congr fun m _ => ?_)
  rw [isActive_retire hw, Bool.and_eq_true, bne_iff_ne]
  exact and_comm

theorem outgoing_retire (hw : w.graph.Wf) (m : NodeId) :
    (w.retire n).graph.outgoing m = w.graph.outgoing m := by
  show (w.graph.withdraw n).outgoing m = _
  rw [Graph.outgoing, Graph.node_withdraw fun m hm => hw.lt_of_mem_layer hm]
  rfl

theorem incoming_retire (hw : w.graph.Wf) (m : NodeId) :
    (w.retire n).graph.incoming m = w.graph.incoming m := by
  show (w.graph.withdraw n).incoming m = _
  rw [Graph.incoming, Graph.node_withdraw fun m hm => hw.lt_of_mem_layer hm]
  rfl

end Workspace

/-- A failure which says that the domains have no solution. -/
def Stop.isConflict : Stop → Bool
  | .emptyDomain | .noPath => true
  | .exhausted | .fault _ => false

namespace Cascade

/-- What is left to do: settle a node which lost an arc, or take out the arcs of a deleted node. -/
inductive Debt
  | settle (direction : Direction) (n : NodeId)
  | drain (n : NodeId)

abbrev Config := List Debt × Workspace

/-- The debts after an arc was taken out. -/
def owed (w : Workspace) (a : ArcId) (debts : List Debt) : List Debt :=
  .settle .up (w.graph.arc a).parent :: .settle .down (w.graph.arc a).child :: debts

/-- The layer below `l` has nodes, or had some. -/
def Begun (w : Workspace) (l : Nat) : Prop :=
  ∃ m < w.graph.nodes.size, w.graph.layerOf m = l + 1

inductive Step (p : Plan) : Config → Config → Prop
  | visit {n debts w} (deep : w.graph.layerOf n < p.model.depth)
    (begun : Begun w (w.graph.layerOf n)) : Step p (debts, w) (.settle .up n :: debts, w)
  | gone {direction n debts w} (off : w.graph.isActive n = false) :
    Step p (.settle direction n :: debts, w) (debts, w)
  | note {direction n debts w} (on : w.graph.isActive n = true)
    (fed : (w.arcsOn direction n).isEmpty = false) :
    Step p (.settle direction n :: debts, w) (debts, w.schedule p direction .full n)
  | retire {direction n debts w} (on : w.graph.isActive n = true)
    (bare : (w.arcsOn direction n).isEmpty = true) (root : w.graph.layerOf n ≠ 0)
    (sink : w.graph.layerOf n ≠ p.model.depth) :
    Step p (.settle direction n :: debts, w) (.drain n :: debts, w.retire n)
  | unhook {n debts w a} (off : w.graph.isActive n = false) (on : w.graph.arcIsActive a = true)
    (ends : (w.graph.arc a).parent = n ∨ (w.graph.arc a).child = n) :
    Step p (.drain n :: debts, w) (owed w a (.drain n :: debts), w.unhook a)
  | drained {n debts w} (off : w.graph.isActive n = false) (out : w.graph.outgoing n = #[])
    (inc : w.graph.incoming n = #[]) : Step p (.drain n :: debts, w) (debts, w)
  | forget {debts w l v b domains} (deep : l < p.model.depth) (begun : Begun w l)
    (bare : w.support l v = 0) (left : w.domains.remove? (p.model.var l) v = some (b, domains)) :
    Step p (debts, w) (debts, w.lose (p.model.var l) v domains)

/-- Why the steps cannot go on. -/
inductive Stuck (p : Plan) : Stop → Config → Prop
  | emptyDomain {debts w l v} (deep : l < p.model.depth) (begun : Begun w l)
    (bare : w.support l v = 0) (left : w.domains.remove? (p.model.var l) v = none) :
    Stuck p .emptyDomain (debts, w)
  | noPath {direction n debts w} (on : w.graph.isActive n = true)
    (bare : (w.arcsOn direction n).isEmpty = true)
    (ends : w.graph.layerOf n = 0 ∨ w.graph.layerOf n = p.model.depth) :
    Stuck p .noPath (.settle direction n :: debts, w)

theorem Stuck.isConflict {p : Plan} {e : Stop} {c : Config} (h : Stuck p e c) :
    e.isConflict = true := by
  cases h <;> rfl

abbrev Steps (p : Plan) : Config → Config → Prop := Relation.ReflTransGen (Step p)

/-- What every step keeps is kept by any number of steps. -/
theorem Steps.keeps {p : Plan} {I : Config → Prop}
    (h : ∀ c d, Step p c d → I c → I d) {c d : Config} (hs : Steps p c d) (hc : I c) : I d := by
  induction hs with
  | refl => exact hc
  | tail _ hd ih => exact h _ _ hd ih

section

variable {p : Plan} {c d : Config}

theorem Step.census (h : Step p c d) (hc : Census p c.2) : Census p d.2 := by
  cases h with
  | visit => exact hc
  | gone => exact hc
  | note => exact hc.schedule _ _ _
  | retire on => exact hc.retire on
  | unhook _ on => exact hc.unhook on
  | drained => exact hc
  | forget => exact hc.congr rfl rfl

theorem Steps.census {debts left : List Debt} {w w' : Workspace}
    (h : Steps p (debts, w) (left, w')) (hc : Census p w) : Census p w' :=
  Steps.keeps (I := fun c => Census p c.2) (fun _ _ hs => hs.census) h hc

/-- What a removal can only take away. -/
structure Shrinks (w w' : Workspace) : Prop where
  nodes : w'.graph.nodes.size = w.graph.nodes.size
  arcs : w'.graph.arcs.size = w.graph.arcs.size
  live : w'.live ≤ w.live
  active : ∀ n, w'.graph.isActive n = true → w.graph.isActive n = true
  arcActive : ∀ a, w'.graph.arcIsActive a = true → w.graph.arcIsActive a = true
  outgoing : ∀ n, (w'.graph.outgoing n).size ≤ (w.graph.outgoing n).size
  incoming : ∀ n, (w'.graph.incoming n).size ≤ (w.graph.incoming n).size
  layerOf : ∀ n, w'.graph.layerOf n = w.graph.layerOf n
  value : ∀ a, (w'.graph.arc a).value = (w.graph.arc a).value
  parent : ∀ a, (w'.graph.arc a).parent = (w.graph.arc a).parent
  child : ∀ a, (w'.graph.arc a).child = (w.graph.arc a).child
  state : ∀ n side, w'.graph.state n side = w.graph.state n side
  upKnown : w'.upKnown = w.upKnown
  built : w'.built = w.built
  budget : w'.budget = w.budget
  cache : w'.cache = w.cache
  domains : w.domains.Narrows w'.domains

theorem Shrinks.refl (w : Workspace) : Shrinks w w :=
  ⟨rfl, rfl, Nat.le_refl _, fun _ h => h, fun _ h => h, fun _ => Nat.le_refl _,
    fun _ => Nat.le_refl _, fun _ => rfl, fun _ => rfl, fun _ => rfl, fun _ => rfl, fun _ _ => rfl,
    rfl, rfl, rfl, rfl, .refl _⟩

theorem Shrinks.trans {a b c : Workspace} (h : Shrinks a b) (k : Shrinks b c) : Shrinks a c where
  nodes := k.nodes.trans h.nodes
  arcs := k.arcs.trans h.arcs
  live := Nat.le_trans k.live h.live
  active n hn := h.active n (k.active n hn)
  arcActive n hn := h.arcActive n (k.arcActive n hn)
  outgoing n := Nat.le_trans (k.outgoing n) (h.outgoing n)
  incoming n := Nat.le_trans (k.incoming n) (h.incoming n)
  layerOf n := (k.layerOf n).trans (h.layerOf n)
  value n := (k.value n).trans (h.value n)
  parent n := (k.parent n).trans (h.parent n)
  child n := (k.child n).trans (h.child n)
  state n s := (k.state n s).trans (h.state n s)
  upKnown := k.upKnown.trans h.upKnown
  built := k.built.trans h.built
  budget := k.budget.trans h.budget
  cache := k.cache.trans h.cache
  domains := h.domains.trans k.domains

/-- Edits outside of the graph take nothing away. -/
theorem Shrinks.of_graph {w w' : Workspace} (hg : w'.graph = w.graph)
    (hu : w'.upKnown = w.upKnown) (hb : w'.built = w.built) (hl : w'.budget = w.budget)
    (hc : w'.cache = w.cache) (hd : w.domains.Narrows w'.domains) : Shrinks w w' := by
  refine ⟨?_, ?_, ?_, ?_, ?_, ?_, ?_, ?_, ?_, ?_, ?_, ?_, hu, hb, hl, hc, hd⟩ <;> intros <;>
    simp_all [Workspace.live]

theorem shrinks_unhook {w : Workspace} (hw : w.graph.Wf) {a : ArcId}
    (ha : w.graph.arcIsActive a = true) : Shrinks w (w.unhook a) := by
  have hl := hw.listed a
  have hg : (w.unhook a).graph = w.graph.detach a := rfl
  have hout : (w.graph.arc a).outIndex < (w.graph.outgoing (w.graph.arc a).parent).size :=
    (Array.getElem?_eq_some_iff.1 (hw.out_of_arc a ha)).1
  have hin : (w.graph.arc a).inIndex < (w.graph.incoming (w.graph.arc a).child).size :=
    (Array.getElem?_eq_some_iff.1 (hw.in_of_arc a ha)).1
  constructor
  case nodes => rw [hg, Graph.size_detach]
  case arcs => rw [hg, Graph.arcs_size_detach]
  case live =>
    unfold Workspace.live
    rw [hg, Graph.size_detach]
    refine Nat.le_of_eq (List.countP_congr fun m _ => ?_)
    rw [Graph.isActive_detach hl]
  case active => exact fun n hn => by rwa [hg, Graph.isActive_detach hl] at hn
  case arcActive => exact fun b hb => ((Graph.arcIsActive_detach hl b).1 (hg ▸ hb)).2
  case outgoing =>
    intro n
    rw [hg, Graph.outgoing_detach hl]
    split_ifs with e
    · rw [e, size_dropAt hout]
      exact Nat.sub_le _ _
    · exact Nat.le_refl _
  case incoming =>
    intro n
    rw [hg, Graph.incoming_detach hl]
    split_ifs with e
    · rw [e, size_dropAt hin]
      exact Nat.sub_le _ _
    · exact Nat.le_refl _
  case layerOf => exact fun n => by rw [hg, Graph.layerOf_detach hl]
  case value => exact fun b => by rw [hg, Graph.value_detach hl]
  case parent => exact fun b => by rw [hg, Graph.parent_detach hl]
  case child => exact fun b => by rw [hg, Graph.child_detach hl]
  case state => exact fun n s => by rw [hg, Graph.state_detach hl]
  case domains => unfold Workspace.unhook; exact .refl _
  all_goals unfold Workspace.unhook; rfl

theorem shrinks_retire {w : Workspace} (hw : w.graph.Wf) {n : NodeId}
    (hn : w.graph.isActive n = true) : Shrinks w (w.retire n) := by
  have hg : (w.retire n).graph = w.graph.withdraw n := Workspace.graph_retire n
  have en := Graph.node_withdraw (g := w.graph) (n := n) fun m hm => hw.lt_of_mem_layer hm
  constructor
  case nodes => rw [hg, Graph.size_withdraw]
  case arcs => rw [hg, Graph.arcs_withdraw]
  case live =>
    have := Workspace.live_retire hw hn
    omega
  case active => exact fun m hm => ((Workspace.isActive_retire hw m).1 hm).2
  case arcActive => exact fun b hb => by rwa [hg, Graph.arcIsActive, Graph.arc_withdraw] at hb
  case outgoing => exact fun m => Nat.le_of_eq (by rw [Workspace.outgoing_retire hw])
  case incoming => exact fun m => Nat.le_of_eq (by rw [Workspace.incoming_retire hw])
  case layerOf => exact fun m => by rw [hg, Graph.layerOf, en]; rfl
  case value => exact fun b => by rw [hg, Graph.arc_withdraw]
  case parent => exact fun b => by rw [hg, Graph.arc_withdraw]
  case child => exact fun b => by rw [hg, Graph.arc_withdraw]
  case state => exact fun m side => by rw [hg, Graph.state, en]; rfl
  case domains => unfold Workspace.retire; exact .refl _
  all_goals unfold Workspace.retire; rfl

theorem shrinks_schedule {w : Workspace} (direction : Direction) (r : Demand) (n : NodeId) :
    Shrinks w (w.schedule p direction r n) := by
  unfold Workspace.schedule
  dsimp only
  split_ifs
  · exact Shrinks.of_graph rfl rfl rfl rfl rfl (.refl _)
  · exact Shrinks.refl w

theorem Step.shrinks (h : Step p c d) (hc : Census p c.2) : Shrinks c.2 d.2 := by
  cases h with
  | visit => exact Shrinks.refl _
  | gone => exact Shrinks.refl _
  | note => exact shrinks_schedule _ _ _
  | retire on => exact shrinks_retire hc.wf on
  | unhook _ on => exact shrinks_unhook hc.wf on
  | drained => exact Shrinks.refl _
  | forget _ _ _ left => exact Shrinks.of_graph rfl rfl rfl rfl rfl (Domains.narrows_remove? left)

theorem Steps.shrinks {debts left : List Debt} {w w' : Workspace}
    (h : Steps p (debts, w) (left, w')) (hc : Census p w) : Shrinks w w' := by
  refine (Steps.keeps (I := fun c => Census p c.2 ∧ Shrinks w c.2) (fun c d hs hi => ?_) h
    ⟨hc, Shrinks.refl w⟩).2
  exact ⟨hs.census hi.1, hi.2.trans (hs.shrinks hi.1)⟩

end

/-! ### A removal takes these steps -/

section

open Work

variable {p : Plan}

/-- How a removal stops early. -/
def Fails (p : Plan) (c : Config) (e : Stop) (w : Workspace) : Prop :=
  ∃ left, Steps p c (left, w) ∧ Stuck p e (left, w)

theorem Fails.isConflict {c : Config} {e : Stop} {w : Workspace} (h : Fails p c e w) :
    e.isConflict = true := by
  obtain ⟨_, -, hs⟩ := h
  exact hs.isConflict

theorem Fails.after {b c : Config} {e : Stop} {w : Workspace} (h : Fails p c e w)
    (hs : Steps p b c) : Fails p b e w := by
  obtain ⟨left, hl, hstuck⟩ := h
  exact ⟨left, hs.trans hl, hstuck⟩

/-- How a removal ends: all debts of its own are paid, or it is stuck. -/
def Pays (p : Plan) (debts : List Debt) (c : Config) (x : Work PUnit) (w : Workspace) : Prop :=
  wp x (fun _ w' => Steps p c (debts, w')) (Fails p c) w

theorem Pays.after {debts : List Debt} {b c : Config} {x : Work PUnit} {w : Workspace}
    (h : Pays p debts c x w) (hs : Steps p b c) : Pays p debts b x w :=
  wp.mono h (fun _ _ h => hs.trans h) fun _ _ h => h.after hs

theorem Pays.bind {mid debts : List Debt} {c : Config} {x : Work PUnit} {f : PUnit → Work PUnit}
    {w : Workspace} (h : Pays p mid c x w)
    (hf : ∀ w', Steps p c (mid, w') → Pays p debts (mid, w') (f ⟨⟩) w') :
    Pays p debts c (x >>= f) w := by
  unfold Pays
  rw [wp_bind]
  exact wp.mono h (fun _ w' hs => (hf w' hs).after hs) fun _ _ h => h

theorem pays_dropUnsupported {debts : List Debt} {l : Nat} (hl : l < p.model.depth) (v : Int)
    {w : Workspace} (begun : Begun w l) :
    Pays p debts (debts, w) (dropUnsupported p.model l v) w := by
  unfold Pays dropUnsupported removeValue
  rw [wp_bind, wp_get, wp_ite]
  refine ⟨fun h => ?_, fun _ => .refl⟩
  rw [Bool.and_eq_true, beq_iff_eq] at h
  rw [wp_bind, wp_get]
  split
  · rename_i left
    exact ⟨debts, .refl, .emptyDomain hl begun h.1 left⟩
  · rename_i left
    exact .single (.forget hl begun h.1 left)

theorem pays_settle {debts : List Debt} {direction : Direction} {n : NodeId} {w : Workspace}
    {delete : NodeId → Work PUnit}
    (hd : w.graph.isActive n = true → (w.arcsOn direction n).isEmpty = true →
      Pays p debts (.settle direction n :: debts, w) (delete n) w) :
    Pays p debts (.settle direction n :: debts, w) (settle p delete direction n) w := by
  unfold Pays settle
  rw [wp_bind, wp_get, wp_ite]
  refine ⟨fun on => ?_, fun off => .single (.gone (Bool.not_eq_true _ ▸ off))⟩
  rw [wp_ite]
  refine ⟨fun bare => hd on ?_, fun fed => .single (.note on ?_)⟩
  · cases direction <;> exact bare
  · cases direction <;> exact Bool.not_eq_true _ ▸ fed

/-- Removes the last arc of a node on one side, time after time. -/
def drainOn (direction : Direction) (remove : ArcId → Work PUnit) (n : NodeId) (count : Nat) :
    Work PUnit :=
  match direction with
  | .up => drainOutgoing remove n count
  | .down => drainIncoming remove n count

theorem drainOn_succ (direction : Direction) (remove : ArcId → Work PUnit) (n : NodeId)
    (count : Nat) :
    drainOn direction remove n (count + 1) = (do
      match ((← get).arcsOn direction n).back? with
      | some a => remove a; drainOn direction remove n count
      | none => pure ⟨⟩) := by
  cases direction <;> rfl

/-- The end of an arc which loses it in a direction. -/
def endOn (g : Graph) (direction : Direction) (a : ArcId) : NodeId :=
  match direction with
  | .up => (g.arc a).parent
  | .down => (g.arc a).child

theorem mem_arcsOn {w : Workspace} (hw : w.graph.Wf) {direction : Direction} {n : NodeId}
    {a : ArcId} : a ∈ w.arcsOn direction n ↔
      w.graph.arcIsActive a = true ∧ endOn w.graph direction a = n := by
  cases direction with
  | up => exact hw.mem_outgoing
  | down => exact hw.mem_incoming

theorem size_arcsOn_unhook {w : Workspace} (hw : w.graph.Wf) {a : ArcId}
    (ha : w.graph.arcIsActive a = true) (direction : Direction) :
    ((w.unhook a).arcsOn direction (endOn w.graph direction a)).size + 1 =
      (w.arcsOn direction (endOn w.graph direction a)).size := by
  have hl := hw.listed a
  cases direction with
  | up =>
    have hi := (Array.getElem?_eq_some_iff.1 (hw.out_of_arc a ha)).1
    show ((w.graph.detach a).outgoing (w.graph.arc a).parent).size + 1 =
      (w.graph.outgoing (w.graph.arc a).parent).size
    rw [Graph.outgoing_detach hl, if_pos rfl, size_dropAt hi]
    omega
  | down =>
    have hi := (Array.getElem?_eq_some_iff.1 (hw.in_of_arc a ha)).1
    show ((w.graph.detach a).incoming (w.graph.arc a).child).size + 1 =
      (w.graph.incoming (w.graph.arc a).child).size
    rw [Graph.incoming_detach hl, if_pos rfl, size_dropAt hi]
    omega

theorem Shrinks.size_arcsOn {w w' : Workspace} (h : Shrinks w w') (direction : Direction)
    (n : NodeId) : (w'.arcsOn direction n).size ≤ (w.arcsOn direction n).size := by
  cases direction with
  | up => exact h.outgoing n
  | down => exact h.incoming n

/-- What removing an arc promises while at most `limit` nodes are active. -/
def Removes (p : Plan) (limit : Nat) (remove : ArcId → Work PUnit) : Prop :=
  ∀ w a debts, Census p w → w.live ≤ limit → w.graph.arcIsActive a = true →
    Pays p debts (owed w a debts, w.unhook a) (remove a) w

theorem wp_drainOn (debts : List Debt) {n : NodeId} {remove : ArcId → Work PUnit} {limit : Nat}
    (hr : Removes p limit remove) (direction : Direction) :
    ∀ count w, Census p w → w.live ≤ limit → w.graph.isActive n = false →
      (w.arcsOn direction n).size ≤ count →
      wp (drainOn direction remove n count)
        (fun _ w' => Steps p (.drain n :: debts, w) (.drain n :: debts, w') ∧
          (w'.arcsOn direction n).size = 0)
        (Fails p (.drain n :: debts, w)) w := by
  intro count
  induction count with
  | zero =>
    intro w _ _ _ hn
    cases direction <;> exact ⟨.refl, Nat.le_zero.1 hn⟩
  | succ count ih =>
    intro w hc hlive off hn
    rw [drainOn_succ, wp_bind, wp_get]
    split
    · rename_i a ha
      have hm : a ∈ w.arcsOn direction n := Array.mem_of_back? ha
      obtain ⟨on, hend⟩ := (mem_arcsOn hc.wf).1 hm
      have ends : (w.graph.arc a).parent = n ∨ (w.graph.arc a).child = n := by
        cases direction
        · exact Or.inr hend
        · exact Or.inl hend
      have first : Step p (.drain n :: debts, w) (owed w a (.drain n :: debts), w.unhook a) :=
        .unhook off on ends
      have hcensus := hc.unhook on
      rw [wp_bind]
      refine wp.mono (hr w a (.drain n :: debts) hc hlive on) (fun _ w' hs => ?_) fun e w' hf =>
        hf.after (.single first)
      have hshrinks := (shrinks_unhook hc.wf on).trans (Steps.shrinks hs hcensus)
      have hsize : (w'.arcsOn direction n).size ≤ count := by
        have h1 := (Steps.shrinks hs hcensus).size_arcsOn direction n
        have h2 := size_arcsOn_unhook hc.wf on direction
        rw [hend] at h2
        omega
      have hoff : w'.graph.isActive n = false := by
        rw [← Bool.not_eq_true] at off ⊢
        exact fun h => off (hshrinks.active n h)
      have hall : Steps p (.drain n :: debts, w) (.drain n :: debts, w') :=
        Relation.ReflTransGen.head first hs
      refine wp.mono (ih w' (Steps.census hs hcensus) (Nat.le_trans hshrinks.live hlive) hoff hsize)
        (fun _ w'' h => ⟨hall.trans h.1, h.2⟩) fun _ _ hf => hf.after hall
    · rename_i hnone
      refine ⟨.refl, ?_⟩
      rw [Array.back?_eq_none_iff] at hnone
      rw [hnone]
      rfl

/-- A node which may be deleted is deleted with all of its arcs. -/
theorem pays_dropNodeWith {debts : List Debt} {n : NodeId} {remove : ArcId → Work PUnit}
    {limit : Nat} (hr : Removes p limit remove) {w : Workspace} (hc : Census p w)
    (hlive : w.live ≤ limit + 1) (on : w.graph.isActive n = true)
    (root : w.graph.layerOf n ≠ 0) (sink : w.graph.layerOf n ≠ p.model.depth) :
    Pays p debts (.drain n :: debts, w.retire n) (dropNodeWith p remove n) w := by
  have hends : (w.graph.layerOf n == 0 || w.graph.layerOf n == p.model.depth) = false := by
    simp [root, sink]
  have hcr := hc.retire on
  have hlr := Workspace.live_retire hc.wf on
  have off : (w.retire n).graph.isActive n = false := by
    rw [← Bool.not_eq_true, Workspace.isActive_retire hc.wf]
    exact fun h => h.1 rfl
  have hsize : ((w.retire n).arcsOn .down n).size ≤ (w.graph.incoming n).size := by
    show ((w.retire n).graph.incoming n).size ≤ _
    exact Nat.le_of_eq (by rw [Workspace.incoming_retire hc.wf n])
  have hin := wp_drainOn debts (n := n) hr .down (w.graph.incoming n).size (w.retire n)
    hcr (by omega) off hsize
  have e : dropNodeWith p remove n w = (do
      drainOn .down remove n (w.graph.incoming n).size
      drainOn .up remove n ((← get).graph.outgoing n).size : Work PUnit) (w.retire n) := by
    show (if w.graph.isActive n = true then _ else _ : Work PUnit) w = _
    rw [if_pos on]
    show (if (w.graph.layerOf n == 0 || w.graph.layerOf n == p.model.depth) = true
      then _ else _ : Work PUnit) w = _
    rw [hends]
    rfl
  unfold Pays wp
  rw [e]
  show wp _ _ _ _
  rw [wp_bind]
  refine wp.mono hin (fun _ w₁ h₁ => ?_) fun _ _ hf => hf
  have hs₁ := Steps.shrinks h₁.1 hcr
  have hc₁ := Steps.census h₁.1 hcr
  have off₁ : w₁.graph.isActive n = false := by
    rw [← Bool.not_eq_true] at off ⊢
    exact fun h => off (hs₁.active n h)
  rw [wp_bind, wp_get]
  have hl₁ := hs₁.live
  refine wp.mono (wp_drainOn debts hr .up _ w₁ hc₁ (by omega) off₁ (Nat.le_refl _))
    (fun _ w₂ h₂ => ?_) fun _ _ hf => hf.after h₁.1
  have hs₂ := Steps.shrinks h₂.1 hc₁
  refine (h₁.1.trans h₂.1).tail (.drained ?_ ?_ ?_)
  · rw [← Bool.not_eq_true] at off₁ ⊢
    exact fun h => off₁ (hs₂.active n h)
  · exact Array.size_eq_zero_iff.1 h₂.2
  · exact Array.size_eq_zero_iff.1
      (Nat.le_zero.1 (Nat.le_trans (hs₂.incoming n) (Nat.le_of_eq h₁.2)))

/-- What deleting a node without arcs on one side promises while at most `limit` nodes are active. -/
def Deletes (p : Plan) (limit : Nat) (delete : NodeId → Work PUnit) : Prop :=
  ∀ w n direction debts, Census p w → w.live ≤ limit → w.graph.isActive n = true →
    (w.arcsOn direction n).isEmpty = true →
    Pays p debts (.settle direction n :: debts, w) (delete n) w

theorem deletes_zero (delete : NodeId → Work PUnit) : Deletes p 0 delete := by
  intro w n _ _ _ hlive on _
  have hn : n ∈ List.range w.graph.nodes.size := List.mem_range.2 (Graph.lt_of_isActive _ on)
  exact absurd on (List.countP_eq_zero.1 (Nat.le_zero.1 hlive) n hn)

theorem deletes_dropNodeWith {limit : Nat} {remove : ArcId → Work PUnit}
    (hr : Removes p limit remove) : Deletes p (limit + 1) (dropNodeWith p remove) := by
  intro w n direction debts hc hlive on bare
  by_cases hends : w.graph.layerOf n = 0 ∨ w.graph.layerOf n = p.model.depth
  · have e : dropNodeWith p remove n w = .error .noPath w := by
      show (if w.graph.isActive n = true then _ else _ : Work PUnit) w = _
      rw [if_pos on]
      show (if (w.graph.layerOf n == 0 || w.graph.layerOf n == p.model.depth) = true
        then _ else _ : Work PUnit) w = _
      rw [if_pos (by simpa using hends)]
      rfl
    unfold Pays wp
    rw [e]
    exact ⟨_, .refl, .noPath on bare hends⟩
  · obtain ⟨root, sink⟩ := not_or.1 hends
    exact (pays_dropNodeWith hr hc hlive on root sink).after (.single (.retire on bare root sink))

theorem removes_cutArcWith {limit : Nat} {delete : NodeId → Work PUnit}
    (hd : Deletes p limit delete) : Removes p limit (cutArcWith p delete) := by
  intro w a debts hc hlive on
  have hcu := hc.unhook on
  have hlu := (shrinks_unhook hc.wf on).live
  unfold cutArcWith Pays
  rw [wp_bind, wp_get]
  show wp (set (w.unhook a) >>= _) _ _ _
  rw [wp_bind, wp_set]
  have begun : Begun (w.unhook a) (w.graph.layerOf (w.graph.arc a).parent) := by
    have hs := shrinks_unhook hc.wf on
    refine ⟨(w.graph.arc a).child, ?_, ?_⟩
    · rw [hs.nodes]
      exact hc.wf.child_lt on
    · rw [hs.layerOf]
      exact hc.wf.adjacent a on
  refine Pays.bind (pays_dropUnsupported (hc.parent_lt_depth on) _ begun) fun w₁ h₁ => ?_
  have hc₁ := Steps.census h₁ hcu
  have hl₁ := Nat.le_trans (Nat.le_trans (Steps.shrinks h₁ hcu).live hlu) hlive
  refine Pays.bind (pays_settle fun on bare => hd _ _ _ _ hc₁ hl₁ on bare) fun w₂ h₂ => ?_
  have hc₂ := Steps.census h₂ hc₁
  have hl₂ := Nat.le_trans (Steps.shrinks h₂ hc₁).live hl₁
  exact pays_settle fun on bare => hd _ _ _ _ hc₂ hl₂ on bare

/-- Removing an arc takes it out and pays every debt this leaves, or is stuck; it never runs out of
its allowance while there are fewer active nodes. -/
theorem removes_cutArcWithin : ∀ limit, Removes p limit (cutArcWithin p (limit + 1))
  | 0 => removes_cutArcWith (deletes_zero _)
  | limit + 1 => removes_cutArcWith (deletes_dropNodeWith (removes_cutArcWithin limit))

theorem pays_cutArc {w : Workspace} (hc : Census p w) {a : ArcId}
    (ha : w.graph.arcIsActive a = true) (debts : List Debt) :
    Pays p debts (owed w a debts, w.unhook a) (cutArc p a) w := by
  unfold Pays cutArc
  rw [wp_bind, wp_get]
  exact removes_cutArcWithin w.graph.nodes.size w a debts hc Workspace.live_le ha

theorem pays_dropNode {w : Workspace} (hc : Census p w) {n : NodeId}
    (on : w.graph.isActive n = true) (root : w.graph.layerOf n ≠ 0)
    (sink : w.graph.layerOf n ≠ p.model.depth) (debts : List Debt) :
    Pays p debts (.drain n :: debts, w.retire n) (dropNode p n) w := by
  unfold Pays dropNode
  rw [wp_bind, wp_get]
  exact pays_dropNodeWith (removes_cutArcWithin w.graph.nodes.size) hc
    (Nat.le_succ_of_le Workspace.live_le) on root sink

end

end Cascade
end DecisionDiagrams
