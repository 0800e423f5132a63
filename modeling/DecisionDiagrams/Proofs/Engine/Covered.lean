import DecisionDiagrams.Proofs.Engine.Covering
import DecisionDiagrams.Proofs.Engine.Extending

/-! A trail whose states stand for its labels is kept by everything which is done to a diagram. Its
arcs pass the tests, so they are never removed, and its states are computed from states which stand for
the labels, so they still do. While there is such a trail no propagation ends in a conflict. -/

namespace DecisionDiagrams

open Work Cascade

/-- Values of variables which are not on a layer are in the domains. -/
def Others (p : Plan) (ρ : Var → Option Int) (s : Domains) : Prop :=
  ∀ x v, ρ x = some v → x ∉ p.model.branchVars → s.contains x v = true

/-- The trail stands for its labels. Up states are only looked at once they are known, from layer
`floor` on, except the one of the sink. -/
structure Covered {p : Plan} {σ : Nat → Int} (K : Certificate p.model σ) (ρ : Var → Option Int)
    (top floor : Nat) (t : Trail) (w : Workspace) : Prop where
  guided : Guided p σ top t ([], w)
  down : ∀ l ≤ top, K.Covers true .down l (w.graph.state (t.node l) .down)
  up : ∀ l ≤ top, l = p.model.depth ∨ w.upKnown = true ∧ floor ≤ l →
    K.Covers true .up l (w.graph.state (t.node l) .up)
  sound : ∀ n < w.graph.nodes.size, ∀ d,
    K.Covers false d (w.graph.layerOf n) (w.graph.state n d.side)
  others : Others p ρ w.domains

/-- A step which keeps a workspace tidy and keeps `J`, and does not end in a conflict. -/
def Keeps {α : Type} (p : Plan) (stale : Nat → Prop) (J : Workspace → Prop) (x : Work α)
    (w : Workspace) : Prop :=
  Tidy p stale [] w → J w →
    wp x (fun _ w' => Tidy p stale [] w' ∧ Evolves w w' ∧ J w') (fun e _ => e.isConflict = false) w

/-- A tidy workspace which goes on from another one and for which `J` holds. -/
abbrev Onward (p : Plan) (stale : Nat → Prop) (J : Workspace → Prop) (w w' : Workspace) : Prop :=
  Tidy p stale [] w' ∧ Evolves w w' ∧ J w'

namespace Keeps

variable {α β : Type} {p : Plan} {stale : Nat → Prop} {J : Workspace → Prop} {w : Workspace}

theorem goesOn {x : Work α} {w' : Workspace} (h : Keeps p stale J x w') (k : Onward p stale J w w') :
    wp x (fun _ => Onward p stale J w) (fun e _ => e.isConflict = false) w' :=
  wp.mono (h k.1 k.2.2) (fun _ _ l => ⟨l.1, k.2.1.trans l.2.1, l.2.2⟩) fun _ _ l => l

theorem pure (a : α) : Keeps p stale J (Pure.pure a) w := fun h hJ => ⟨h, .refl w, hJ⟩

theorem bind {x : Work α} {f : α → Work β} (h : Keeps p stale J x w)
    (hf : ∀ a w', Tidy p stale [] w' → Evolves w w' → J w' → Keeps p stale J (f a) w') :
    Keeps p stale J (x >>= f) w := by
  intro ht hJ
  rw [wp_bind]
  refine wp.mono (h ht hJ) (fun a w' h' => ?_) fun _ _ h' => h'
  exact wp.mono (hf a w' h'.1 h'.2.1 h'.2.2 h'.1 h'.2.2)
    (fun _ _ k => ⟨k.1, h'.2.1.trans k.2.1, k.2.2⟩) fun _ _ h' => h'

theorem get_bind {f : Workspace → Work β}
    (h : Tidy p stale [] w → J w → Keeps p stale J (f w) w) : Keeps p stale J (get >>= f) w := by
  intro ht hJ
  rw [wp_bind, wp_get]
  exact h ht hJ ht hJ

/-- A step which was looked at before keeps `J` as well. -/
theorem of_tidies {x : Work α} (h : Tidies p stale x w)
    (hJ : Tidy p stale [] w → J w → wp x (fun _ w' => J w') (fun e _ => e.isConflict = false) w) :
    Keeps p stale J x w := fun ht hj =>
  wp.mono (wp.and (h ht) (hJ ht hj)) (fun _ _ k => ⟨k.1.1, k.1.2, k.2⟩) fun _ _ k => k.2

theorem update_bind {g : Workspace → Workspace} {f : PUnit → Work β}
    (ht : Tidy p stale [] w → Tidy p stale [] (g w)) (he : Evolves w (g w)) (hJ : J w → J (g w))
    (h : Keeps p stale J (f ⟨⟩) (g w)) : Keeps p stale J (modify g >>= f) w := by
  intro h₀ hJ₀
  rw [wp_bind, wp_modify]
  exact wp.mono (h (ht h₀) (hJ hJ₀)) (fun _ _ k => ⟨k.1, he.trans k.2.1, k.2.2⟩) fun _ _ h' => h'

theorem lift_bind {c : Checked α} {f : α → Work β}
    (hf : ∀ a, c = .ok a → Keeps p stale J (f a) w) : Keeps p stale J (liftM c >>= f) w := by
  intro ht hj
  rw [wp_bind, wp_lift]
  exact ⟨fun a ha => hf a ha ht hj, fun _ _ => rfl⟩

theorem ite {c : Prop} [Decidable c] {x y : Work α} (hx : c → Keeps p stale J x w)
    (hy : ¬ c → Keeps p stale J y w) : Keeps p stale J (if c then x else y) w := by
  split_ifs with h
  · exact hx h
  · exact hy h

theorem forM {f : α → Work PUnit} : ∀ (l : List α) {w : Workspace},
    (∀ a ∈ l, ∀ w', Evolves w w' → Keeps p stale J (f a) w') → Keeps p stale J (l.forM f) w
  | [], w, _ => fun h hJ => ⟨h, .refl w, hJ⟩
  | a :: l, w, h => by
    refine bind (h a List.mem_cons_self w (.refl w)) fun _ w' _ he _ => ?_
    exact forM l fun b hb w'' he' => h b (List.mem_cons_of_mem _ hb) w'' (he.trans he')

theorem foldlM {f : β → α → Work β} : ∀ (l : List α) {b : β} {w : Workspace},
    (∀ b, ∀ a ∈ l, ∀ w', Evolves w w' → Keeps p stale J (f b a) w') →
    Keeps p stale J (l.foldlM f b) w
  | [], b, _, _ => pure b
  | a :: l, b, w, h => by
    rw [List.foldlM_cons]
    refine bind (h b a List.mem_cons_self w (.refl w)) fun b' w' _ he _ => ?_
    exact foldlM l fun b x hx w'' he' => h b x (List.mem_cons_of_mem _ hx) w'' (he.trans he')

end Keeps

theorem Guided.putState {p : Plan} {σ : Nat → Int} {top : Nat} {t : Trail} {w : Workspace}
    (h : Guided p σ top t ([], w)) {n : NodeId} (hn : n < w.graph.nodes.size) (side : Side)
    (s : State) : Guided p σ top t ([], w.putState n side s) := by
  have en := Graph.node_putState w.graph n side s hn
  have active : ∀ m, (w.putState n side s).graph.isActive m = w.graph.isActive m := fun m => by
    show ((w.graph.putState n side s).node m).active = _
    rw [en]
    rfl
  have layer : ∀ m, (w.putState n side s).graph.layerOf m = w.graph.layerOf m := fun m => by
    show ((w.graph.putState n side s).node m).layer = _
    rw [en]
    rfl
  refine ⟨fun l hl => ?_, h.arc, h.within, fun m hm => ?_, fun m hm hl => ?_, fun m hm hl => ?_, nofun⟩
  · show (w.putState n side s).graph.isActive _ = true ∧ (w.putState n side s).graph.layerOf _ = l
    rw [active, layer]
    exact h.node l hl
  · show (w.putState n side s).graph.layerOf m ≤ top
    rw [layer]
    exact h.low m (Nat.lt_of_lt_of_eq hm (Graph.size_putState w.graph n side s))
  · exact h.root m ((active m).symm.trans hm) ((layer m).symm.trans hl)
  · exact h.sink m ((active m).symm.trans hm) ((layer m).symm.trans hl)

namespace Covered

variable {p : Plan} {stale : Nat → Prop} {σ : Nat → Int} {ρ : Var → Option Int} {K : Certificate p.model σ}
  {top floor : Nat} {t : Trail} {w w' : Workspace}

/-- The agenda, the counters, the cache and the budget are not looked at. -/
theorem congr (h : Covered K ρ top floor t w) (hg : w'.graph = w.graph) (hd : w'.domains = w.domains)
    (hu : w'.upKnown = w.upKnown) : Covered K ρ top floor t w' := by
  refine ⟨h.guided.congr hg fun l hl => ?_, ?_, ?_, ?_, ?_⟩
  · rw [hd]
    exact h.guided.within l hl
  · rw [hg]; exact h.down
  · rw [hg, hu]; exact h.up
  · rw [hg]; exact h.sound
  · rw [hd]; exact h.others

theorem quiet (h : Covered K ρ top floor t w) (hq : Quiet p w w') : Covered K ρ top floor t w' :=
  h.congr hq.graph hq.domains hq.upKnown

theorem schedule (h : Covered K ρ top floor t w) (d : Direction) (r : Demand) (n : NodeId) :
    Covered K ρ top floor t (w.schedule p d r n) :=
  h.congr Workspace.graph_schedule Workspace.domains_schedule Workspace.upKnown_schedule

/-- A removal which leaves the trail alone. -/
theorem shrink (h : Covered K ρ top floor t w) (hs : Shrinks w w')
    (ho : LeavesOthers p w w') (hg : Guided p σ top t ([], w')) : Covered K ρ top floor t w' := by
  refine ⟨hg, fun l hl => ?_, fun l hl hk => ?_, fun n hn d => ?_, fun x v hv hn => ?_⟩
  · rw [hs.state]
    exact h.down l hl
  · rw [hs.state]
    exact h.up l hl (hs.upKnown ▸ hk)
  · rw [hs.state, hs.layerOf]
    exact h.sound n (Nat.lt_of_lt_of_eq hn hs.nodes) d
  · exact ho x hn _ (h.others x v hv hn)

/-- A new state in a direction. -/
theorem putState (h : Covered K ρ top floor t w) {n : NodeId} (hn : n < w.graph.nodes.size)
    {d : Direction} {s : State} (hs : K.Covers false d (w.graph.layerOf n) s)
    (ht : ∀ l ≤ top, t.node l = n → K.Covers true d l s) :
    Covered K ρ top floor t (w.putState n d.side s) := by
  have state : ∀ m e, (w.putState n d.side s).graph.state m (Direction.side e) =
      if m = n ∧ e = d then s else w.graph.state m e.side := by
    intro m e
    show ((w.graph.putState n d.side s).node m).states.get e.side = _
    rw [Graph.node_putState w.graph n d.side s hn]
    by_cases hm : m = n
    · cases d <;> cases e <;> simp [hm, Direction.side, BySide.get, BySide.set, BySide.modify,
        Graph.state]
    · simp only [hm, false_and, if_false]
      rfl
  have layer : ∀ m, (w.putState n d.side s).graph.layerOf m = w.graph.layerOf m := fun m => by
    show ((w.graph.putState n d.side s).node m).layer = _
    rw [Graph.node_putState w.graph n d.side s hn]
    rfl
  refine ⟨h.guided.putState hn _ _, fun l hl => ?_, fun l hl hk => ?_, fun m hm e => ?_, h.others⟩
  · rw [show (.down : Side) = Direction.down.side from rfl, state]
    split_ifs with hc
    · exact hc.2 ▸ ht l hl hc.1
    · exact h.down l hl
  · rw [show (.up : Side) = Direction.up.side from rfl, state]
    split_ifs with hc
    · exact hc.2 ▸ ht l hl hc.1
    · exact h.up l hl hk
  · rw [state, layer]
    split_ifs with hc
    · rw [hc.1, hc.2]
      exact hs
    · exact h.sound m (Nat.lt_of_lt_of_eq hm (Graph.size_putState w.graph n d.side s)) e

/-- Combined states do not matter. -/
theorem putCombined (h : Covered K ρ top floor t w) {n : NodeId} (hn : n < w.graph.nodes.size)
    (s : State) : Covered K ρ top floor t (w.putState n .combined s) := by
  have en := Graph.node_putState w.graph n .combined s hn
  have state : ∀ m (e : Direction), (w.putState n .combined s).graph.state m e.side =
      w.graph.state m e.side := by
    intro m e
    show ((w.graph.putState n .combined s).node m).states.get e.side = _
    rw [en]
    by_cases hm : m = n
    · cases e <;> simp [hm, Direction.side, BySide.get, BySide.set, BySide.modify, Graph.state]
    · simp only [if_neg hm]
      rfl
  refine ⟨h.guided.putState hn _ _, fun l hl => ?_, fun l hl hk => ?_, fun m hm e => ?_, h.others⟩
  · rw [show (.down : Side) = Direction.down.side from rfl, state]
    exact h.down l hl
  · rw [show (.up : Side) = Direction.up.side from rfl, state]
    exact h.up l hl hk
  · rw [state, show (w.putState n .combined s).graph.layerOf m = w.graph.layerOf m by
      show ((w.graph.putState n .combined s).node m).layer = _
      rw [en]
      rfl]
    exact h.sound m (Nat.lt_of_lt_of_eq hm (Graph.size_putState w.graph n .combined s)) e

/-! ### Removals -/

theorem keeps_cutArc (hp : p.Distinct) {a : ArcId} (ha : w.graph.arcIsActive a = true)
    (hne : ∀ l < top, t.arc l ≠ a) : Keeps p stale (Covered K ρ top floor t) (cutArc p a) w := by
  refine .of_tidies (tidies_cutArc hp ha) fun ht h => ?_
  have hu := h.guided.unhook ht.toCensus ha hne
  have hcu := ht.toCensus.unhook ha
  refine wp.mono (pays_cutArc ht.toCensus ha []) (fun _ w' hs => ?_) fun e w' hf => ?_
  · exact h.shrink ((shrinks_unhook ht.wf ha).trans (Steps.shrinks hs hcu))
      ((LeavesOthers.of_domains (by unfold Workspace.unhook; rfl)).trans (Steps.leavesOthers hs))
      (hu.steps hp hs hcu)
  · exact (hu.not_fails hp hcu hf).elim

/-- Deleting a node which is not on the trail. -/
theorem keeps_dropNode (hp : p.Distinct) {n : NodeId}
    (hne : w.graph.isActive n = true → ∀ l ≤ p.model.depth, t.node l ≠ n) :
    Keeps p stale (Covered K ρ p.model.depth floor t) (dropNode p n) w := by
  refine .of_tidies (tidies_dropNode hp n) fun ht h => ?_
  have off : ∀ {l}, l ≤ p.model.depth → w.graph.isActive n = true → t.node l ≠ n := fun hl on => hne on _ hl
  refine wp_dropNode_of ht.toCensus (fun _ => h) (fun on ends => ?_) (fun on _ _ w' hs => ?_) fun on e w' hf => ?_
  · obtain root | sink := ends
    · exact absurd (h.guided.root n on root).symm (off (Nat.zero_le _) on)
    · exact absurd (h.guided.sink n on sink).symm (off (Nat.le_refl _) on)
  · have hcr := ht.toCensus.retire on
    exact h.shrink ((shrinks_retire ht.wf on).trans (Steps.shrinks hs hcr))
      ((LeavesOthers.of_domains (Workspace.domains_retire _)).trans (Steps.leavesOthers hs))
      ((h.guided.retire ht.wf on (hne on)).steps hp hs hcr)
  · exact ((h.guided.retire ht.wf on (hne on)).not_fails hp (ht.toCensus.retire on) hf).elim

/-- An arc is tested again, where the arcs of the trail pass. -/
theorem keeps_retestArc (hp : p.Distinct) {keep : Workspace → Arc → Checked Bool} {a : ArcId}
    (hk : Covered K ρ top floor t w → ∀ l < top, t.arc l = a → keep w (w.graph.arc a) ≠ .ok false) :
    Keeps p stale (Covered K ρ top floor t) (retestArc p keep a) w := by
  intro ht h
  refine wp_retestArc (fun _ _ => rfl) (fun _ => ⟨ht, .refl w, h⟩) (fun _ _ => ⟨ht, .refl w, h⟩) fun on lost => ?_
  exact keeps_cutArc hp on (fun l hl e => hk h l hl e lost) ht h

/-- The up state of a node of the trail, if it is known, stands for the labels. -/
theorem up?_covers (h : Covered K ρ p.model.depth floor t w) {l : Nat} (hl : l < p.model.depth)
    (hf : floor ≤ l + 1) {up : State} (hup : w.up? p.model (t.node (l + 1)) = some up) :
    K.Covers true .up (l + 1) up := by
  have hc := (h.guided.node (l + 1) hl).2
  unfold Workspace.up? at hup
  split_ifs at hup with hk
  obtain rfl := Option.some.inj hup
  refine h.up (l + 1) hl ?_
  rw [Bool.or_eq_true, beq_iff_eq, show w.graph.layerOf (t.node (l + 1)) = l + 1 from hc] at hk
  exact hk.elim (fun hu => Or.inr ⟨hu, hf⟩) Or.inl

/-- The arcs of the trail pass the tests. -/
theorem keepsArc (h : Covered K ρ p.model.depth floor t w) {l : Nat} (hl : l < p.model.depth)
    (hf : floor ≤ l + 1) :
    w.keepsArc p.model (σ l) (t.node l) (t.node (l + 1)) ≠ .ok false := by
  have hn := (h.guided.node l (Nat.le_of_lt hl)).2
  unfold Workspace.keepsArc
  rw [show w.graph.layerOf (t.node l) = l from hn]
  exact K.admits hl (h.down l (Nat.le_of_lt hl)) fun up hup => h.up?_covers hl hf hup

theorem keeps_retestOutgoing (hp : p.Distinct) {n : NodeId} (hf : floor ≤ w.graph.layerOf n + 1) :
    Keeps p stale (Covered K ρ p.model.depth floor t) (retestOutgoing p n) w := by
  refine .get_bind fun ht _ => .forM _ fun a ha w₁ he => keeps_retestArc hp fun h l hl e => ?_
  subst e
  obtain ⟨hon, hpar⟩ := ht.wf.mem_outgoing.1 (Array.mem_toList_iff.1 ha)
  obtain ⟨-, hpar', hch, hval⟩ := h.guided.arc l hl
  have hn : n = t.node l := by
    rw [← hpar', ← hpar]
    exact (he.parent _ (Graph.lt_of_arcIsActive _ hon)).symm
  have hlt : n < w.graph.nodes.size := hpar ▸ ht.wf.parent_lt hon
  split_ifs
  · rw [hval, hch, hn]
    refine h.keepsArc hl ?_
    rw [← he.layerOf n hlt, hn, (h.guided.node l (Nat.le_of_lt hl)).2] at hf
    exact hf
  · nofun

theorem keeps_retestIncoming (hp : p.Distinct) {n : NodeId} (hf : floor ≤ w.graph.layerOf n) :
    Keeps p stale (Covered K ρ p.model.depth floor t) (retestIncoming p n) w := by
  refine .get_bind fun ht _ => .forM _ fun a ha w₁ he => keeps_retestArc hp fun h l hl e => ?_
  subst e
  obtain ⟨hon, hchild⟩ := ht.wf.mem_incoming.1 (Array.mem_toList_iff.1 ha)
  obtain ⟨-, hpar, hch, hval⟩ := h.guided.arc l hl
  have hn : n = t.node (l + 1) := by
    rw [← hch, ← hchild]
    exact (he.child _ (Graph.lt_of_arcIsActive _ hon)).symm
  have hlt : n < w.graph.nodes.size := hchild ▸ ht.wf.child_lt hon
  split_ifs
  · rw [hval, hpar, hn]
    refine h.keepsArc hl ?_
    rw [← he.layerOf n hlt, hn, (h.guided.node (l + 1) hl).2] at hf
    exact hf
  · nofun

/-! ### New states -/

theorem keeps_rederive {n : NodeId} (hn : n < w.graph.nodes.size) (changedDown changedUp : IndexSet) :
    Keeps p stale (Covered K ρ top floor t) (rederive p n changedDown changedUp) w := by
  intro ht hc
  have same := (⟨ht, .refl w, hc⟩ : Onward p stale (Covered K ρ top floor t) w w)
  refine wp_rederive_of (fun _ => same) (fun _ _ => same) (fun _ _ _ => rfl) fun _ both _ => ?_
  split_ifs
  · exact same
  · exact ⟨ht.putState hn _ _, .putState hn _ _, hc.putCombined hn _⟩

/-- A node adopts a state which fits its layer and, if it is on the trail, stands for the labels. -/
theorem keeps_adoptState (hp : p.Distinct) (hm : p.model.Plain) {d : Direction} {n : NodeId}
    {new : State} (hn : n < w.graph.nodes.size)
    (hs : K.Covers false d (w.graph.layerOf n) new)
    (ht : ∀ l ≤ p.model.depth, t.node l = n → K.Covers true d l new) :
    Keeps p stale (Covered K ρ p.model.depth 0 t) (adoptState p d n new) w := by
  intro tidy covered
  let I : Workspace → Prop := Onward p stale (Covered K ρ p.model.depth 0 t) w
  have hn' := Nat.lt_of_lt_of_eq hn (Graph.size_putState w.graph n d.side new).symm
  refine wp_adoptState (fun _ => I) (fun _ => I) (fun _ => I) (fun _ => ⟨tidy, .refl w, covered⟩) ?_ (fun _ _ _ _ => rfl)
    (fun _ w' _ fails => ?_) (fun _ _ h => wp_when ((keeps_retestOutgoing hp (Nat.zero_le _)).goesOn h) h)
    (fun _ _ h => wp_when ((keeps_retestIncoming hp (Nat.zero_le _)).goesOn h) h) fun both _ h =>
      wp_tellNeighbours (fun d r n h => ?_) d n _ _ both h
  · exact (keeps_rederive hn' _ _).goesOn
      ⟨tidy.putState hn _ _, .putState hn _ _, covered.putState hn hs ht⟩
  · rw [keepsNode_of_nil hm.nodeChecks] at fails
    cases fails
  · exact ⟨h.1.schedule d r n, h.2.1.trans (.schedule p d r n _), h.2.2.schedule d r n⟩

end Covered

/-! ### Bundles of arcs -/

theorem Bundle.of_mem_add {n : NodeId} {v : Int} {e : Bundle} : ∀ {bs : List Bundle},
    e ∈ Bundle.add n v bs → e.1 = n ∨ ∃ f ∈ bs, f.1 = e.1
  | [], h => Or.inl (by rw [List.mem_singleton.1 h])
  | (k, vs) :: rest, h => by
    unfold Bundle.add at h
    split_ifs at h with hk
    · rcases List.mem_cons.1 h with rfl | h
      · exact Or.inl hk
      · exact Or.inr ⟨e, List.mem_cons_of_mem _ h, rfl⟩
    · rcases List.mem_cons.1 h with rfl | h
      · exact Or.inr ⟨_, List.mem_cons_self, rfl⟩
      · exact (of_mem_add h).imp id fun ⟨f, hf, e⟩ => ⟨f, List.mem_cons_of_mem _ hf, e⟩

/-- Some bundle leads from the node with the label. -/
def Bundle.Has (bs : List Bundle) (n : NodeId) (v : Int) : Prop := ∃ e ∈ bs, e.1 = n ∧ v ∈ e.2

theorem Bundle.has_add_self (n : NodeId) (v : Int) : ∀ bs : List Bundle, Has (Bundle.add n v bs) n v
  | [] => ⟨_, List.mem_cons_self, rfl, IntSet.mem_singleton.2 rfl⟩
  | (k, vs) :: rest => by
    unfold Bundle.add
    split_ifs with hk
    · exact ⟨_, List.mem_cons_self, hk, IntSet.mem_insert.2 (Or.inl rfl)⟩
    · obtain ⟨e, he, h⟩ := has_add_self n v rest
      exact ⟨e, List.mem_cons_of_mem _ he, h⟩

theorem Bundle.Has.add {n m : NodeId} {v u : Int} : ∀ {bs : List Bundle}, Has bs n v →
    Has (Bundle.add m u bs) n v
  | [], ⟨_, he, _⟩ => by cases he
  | (k, vs) :: rest, ⟨e, he, hn, hv⟩ => by
    unfold Bundle.add
    split_ifs with hk
    · rcases List.mem_cons.1 he with rfl | he
      · exact ⟨_, List.mem_cons_self, hn, IntSet.mem_insert.2 (Or.inr hv)⟩
      · exact ⟨e, List.mem_cons_of_mem _ he, hn, hv⟩
    · rcases List.mem_cons.1 he with rfl | he
      · exact ⟨_, List.mem_cons_self, hn, hv⟩
      · obtain ⟨f, hf, h⟩ := Has.add (m := m) (u := u) ⟨e, he, hn, hv⟩
        exact ⟨f, List.mem_cons_of_mem _ hf, h⟩

theorem Bundle.grouped : ∀ (ends : List (NodeId × Int)) (bs : List Bundle),
    (∀ e ∈ ends.foldl (fun bs e => Bundle.add e.1 e.2 bs) bs,
      (∃ f ∈ bs, f.1 = e.1) ∨ ∃ f ∈ ends, f.1 = e.1) ∧
    ∀ n v, Has bs n v ∨ (n, v) ∈ ends → Has (ends.foldl (fun bs e => Bundle.add e.1 e.2 bs) bs) n v
  | [], bs => ⟨fun e he => Or.inl ⟨e, he, rfl⟩, fun n v h => h.resolve_right List.not_mem_nil⟩
  | (m, u) :: ends, bs => by
    obtain ⟨h1, h2⟩ := grouped ends (Bundle.add m u bs)
    refine ⟨fun e he => ?_, fun n v h => h2 n v ?_⟩
    · rcases h1 e he with ⟨f, hf, e'⟩ | ⟨f, hf, e'⟩
      · rcases of_mem_add hf with hm | ⟨g, hg, hgf⟩
        · exact Or.inr ⟨_, List.mem_cons_self, hm.symm.trans e'⟩
        · exact Or.inl ⟨g, hg, hgf.trans e'⟩
      · exact Or.inr ⟨f, List.mem_cons_of_mem _ hf, e'⟩
    · rcases h with h | h
      · exact Or.inl h.add
      · rcases List.mem_cons.1 h with e | h
        · obtain ⟨rfl, rfl⟩ := Prod.mk.inj e
          exact Or.inl (has_add_self n v bs)
        · exact Or.inr h

/-- The arcs of a node against a direction. -/
def Workspace.feeds (w : Workspace) (d : Direction) (n : NodeId) : Array ArcId :=
  match d with
  | .down => w.graph.incoming n
  | .up => w.graph.outgoing n

/-- The other end of an arc against a direction. -/
def Workspace.feeder (w : Workspace) (d : Direction) (a : ArcId) : NodeId :=
  match d with
  | .down => (w.graph.arc a).parent
  | .up => (w.graph.arc a).child

/-- The bundles of a node hold its arcs with their labels, and nothing else. -/
theorem Workspace.bundles_spec (w : Workspace) (p : Plan) (d : Direction) (n : NodeId) :
    (∀ e ∈ w.bundles p d n, ∃ a ∈ w.feeds d n, w.feeder d a = e.1) ∧
    ∀ a ∈ w.feeds d n, Bundle.Has (w.bundles p d n) (w.feeder d a) (w.graph.arc a).value := by
  have ends : ∀ ends : List (NodeId × Int),
      ends = (w.feeds d n).toList.map (fun a => (w.feeder d a, (w.graph.arc a).value)) →
      ∀ bs : List Bundle, bs = (if p.options.groupValues then
          ends.foldl (fun bs e => Bundle.add e.1 e.2 bs) []
        else ends.map fun e => (e.1, IntSet.singleton e.2)) →
      (∀ e ∈ bs, ∃ a ∈ w.feeds d n, w.feeder d a = e.1) ∧
        ∀ a ∈ w.feeds d n, Bundle.Has bs (w.feeder d a) (w.graph.arc a).value := by
    rintro ends hends bs rfl
    have hmem : ∀ {e}, e ∈ ends ↔
        ∃ a ∈ w.feeds d n, (w.feeder d a, (w.graph.arc a).value) = e := by
      intro e
      rw [hends, List.mem_map]
      simp
    split_ifs
    · obtain ⟨h1, h2⟩ := Bundle.grouped ends []
      refine ⟨fun e he => ?_, fun a ha => h2 _ _ (Or.inr (hmem.2 ⟨a, ha, rfl⟩))⟩
      rcases h1 e he with ⟨f, hf, -⟩ | ⟨f, hf, e'⟩
      · cases hf
      · obtain ⟨a, ha, rfl⟩ := hmem.1 hf
        exact ⟨a, ha, e'⟩
    · refine ⟨fun e he => ?_, fun a ha => ?_⟩
      · obtain ⟨f, hf, rfl⟩ := List.mem_map.1 he
        obtain ⟨a, ha, rfl⟩ := hmem.1 hf
        exact ⟨a, ha, rfl⟩
      · exact ⟨_, List.mem_map.2 ⟨_, hmem.2 ⟨a, ha, rfl⟩, rfl⟩, rfl, IntSet.mem_singleton.2 rfl⟩
  unfold Workspace.bundles
  cases d <;> exact ends _ rfl _ rfl

/-- Every arc which feeds a node is on the layer of arcs next to it. -/
theorem Graph.Wf.place_of_feeds {w : Workspace} (hw : w.graph.Wf) {depth : Nat} (hlay : w.graph.layers.size = depth + 1)
    {d : Direction} {n : NodeId} {a : ArcId} (hn : n < w.graph.nodes.size) (ha : a ∈ w.feeds d n) :
    ∃ l < depth, d.target l = w.graph.layerOf n ∧ w.feedLayer d n = l ∧
      w.graph.layerOf (w.feeder d a) = d.source l ∧ w.feeder d a < w.graph.nodes.size := by
  cases d with
  | down =>
    obtain ⟨on, hch⟩ := hw.mem_incoming.1 ha
    have hadj := hw.adjacent a on
    rw [hch] at hadj
    have hlt := hw.layer_lt n hn
    refine ⟨w.graph.layerOf (w.graph.arc a).parent, ?_, hadj.symm, ?_, rfl, hw.parent_lt on⟩
    · omega
    · show w.graph.layerOf n - 1 = _
      omega
  | up =>
    obtain ⟨on, hpar⟩ := hw.mem_outgoing.1 ha
    have hadj := hw.adjacent a on
    rw [hpar] at hadj
    have hlt := hw.layer_lt _ (hw.child_lt on)
    exact ⟨w.graph.layerOf n, by omega, rfl, rfl, hadj, hw.child_lt on⟩

namespace Covered

variable {p : Plan} {stale : Nat → Prop} {σ : Nat → Int} {ρ : Var → Option Int} {K : Certificate p.model σ}
  {top floor : Nat} {t : Trail} {w w' : Workspace}

/-- The arcs of the trail next to a node of the trail, against a direction. -/
theorem feed (h : Covered K ρ p.model.depth floor t w) (hw : w.graph.Wf) {d : Direction} {l : Nat}
    (hl : l < p.model.depth) :
    t.arc l ∈ w.feeds d (t.node (d.target l)) ∧
      w.feeder d (t.arc l) = t.node (d.source l) ∧ (w.graph.arc (t.arc l)).value = σ l := by
  obtain ⟨on, hpar, hch, hv⟩ := h.guided.arc l hl
  cases d with
  | down => exact ⟨hw.mem_incoming.2 ⟨on, hch⟩, hpar, hv⟩
  | up => exact ⟨hw.mem_outgoing.2 ⟨on, hpar⟩, hch, hv⟩

/-- The state which a node gets from its neighbours fits its layer, and stands for the labels on the
trail, unless its old state has to and does not. -/
theorem arrived (h : Covered K ρ p.model.depth floor t w) (hm : p.model.Plain) (hw : w.graph.Wf)
    (hlay : w.graph.layers.size = p.model.depth + 1) {d : Direction} {n : NodeId} {r : Demand}
    {new : State} (hn : n < w.graph.nodes.size)
    (hnew : w.arrived p d (w.feedLayer d n) (w.bundles p d n) (w.graph.state n d.side) r = .ok new) :
    K.Covers false d (w.graph.layerOf n) new ∧
    ∀ l ≤ p.model.depth, t.node l = n →
      (d = .up → l ≠ p.model.depth → w.upKnown = true ∧ floor ≤ l + 1) →
      r = .full ∧ w.bundles p d n ≠ [] ∨ K.Covers true d l (w.graph.state n d.side) →
      K.Covers true d l new := by
  obtain ⟨hfrom, hhas⟩ := w.bundles_spec p d n
  have place := fun a => hw.place_of_feeds hlay (d := d) (a := a) hn
  by_cases hne : w.bundles p d n = []
  · rw [hne] at hnew
    obtain rfl := Except.ok.inj hnew
    exact ⟨h.sound n hn d, fun l _ _ _ ho => ho.resolve_left fun hf => hf.2 hne⟩
  · obtain ⟨e, he⟩ := List.exists_mem_of_ne_nil _ hne
    obtain ⟨a, ha, -⟩ := hfrom e he
    obtain ⟨l, hl, htarget, hfeed, -, -⟩ := place a ha
    rw [hfeed] at hnew
    rw [← htarget]
    have hsound : ∀ e ∈ w.bundles p d n, e.Leads K w false d l := by
      intro e he
      obtain ⟨a, ha, hae⟩ := hfrom e he
      obtain ⟨k, -, -, hk, hsource, hlt⟩ := place a ha
      obtain rfl := hfeed.symm.trans hk
      refine ⟨?_, nofun⟩
      rw [← hae, ← hsource]
      exact h.sound _ hlt d
    refine ⟨K.covers_arrived hm hl hnew (Or.inr (htarget ▸ h.sound n hn d)) hsound nofun,
      fun k hk htk hu ho => ?_⟩
    have hlayer := (h.guided.node k hk).2
    change w.graph.layerOf (t.node k) = k at hlayer
    rw [htk, ← htarget] at hlayer
    subst hlayer
    refine K.covers_arrived hm hl hnew ho hsound fun _ _ => ?_
    obtain ⟨hmem, hfeeder, hval⟩ := h.feed hw (d := d) hl
    rw [htk] at hmem
    obtain ⟨e, he, hen, hev⟩ := hhas _ hmem
    rw [hfeeder] at hen
    refine ⟨e, he, ?_, fun _ => hval ▸ hev⟩
    rw [hen]
    cases d with
    | down => exact h.down l (Nat.le_of_lt hl)
    | up =>
      refine h.up (l + 1) hl ?_
      obtain ⟨hu1, hu2⟩ := hu rfl (Nat.ne_of_lt hl)
      exact Or.inr ⟨hu1, hu2⟩

theorem keeps_recompute (hp : p.Distinct) (hm : p.model.Plain) {d : Direction} {n : NodeId}
    {r : Demand} (hu : d = .up → w.upKnown = true) :
    Keeps p stale (Covered K ρ p.model.depth 0 t) (recompute p d n r) w := by
  intro ht h
  refine wp_recompute ht.cached (fun _ => ⟨ht, .refl w, h⟩) (fun _ _ _ => rfl) fun on new w' hq hnew => ?_
  have hn := Graph.lt_of_isActive _ on
  obtain ⟨hs, htrail⟩ := h.arrived hm ht.wf ht.layers hn hnew
  refine Keeps.goesOn ?_ ⟨hq.tidy ht, .of_quiet hq, h.quiet hq⟩
  refine keeps_adoptState hp hm (by rw [hq.graph]; exact hn) (by rw [hq.graph]; exact hs)
    fun l hl e => htrail l hl e (fun hd _ => ⟨hu hd, Nat.zero_le _⟩) (Or.inr ?_)
  rw [← e]
  cases d with
  | down => exact h.down l hl
  | up => exact h.up l hl (Or.inr ⟨hu rfl, Nat.zero_le _⟩)

theorem keeps_recomputeLayer (hp : p.Distinct) (hm : p.model.Plain) {d : Direction} (layer : Nat)
    (hu : d = .up → w.upKnown = true) :
    Keeps p stale (Covered K ρ p.model.depth 0 t) (recomputeLayer p d layer) w := fun ht h =>
  wp_recomputeLayer (fun _ => Onward p stale (Covered K ρ p.model.depth 0 t) w)
    ⟨ht.congr rfl rfl rfl ht.cached, .of_graph rfl (.refl _) id id, h.congr rfl rfl rfl⟩
    (fun _ _ _ k => (keeps_recompute hp hm fun hd => k.2.1.upKnown (hu hd)).goesOn k) fun _ k => k

end Covered
end DecisionDiagrams
