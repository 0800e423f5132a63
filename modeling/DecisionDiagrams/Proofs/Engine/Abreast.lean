import DecisionDiagrams.Diagram.Maintenance
import DecisionDiagrams.Proofs.Work.Lockstep

/-! The steps of a propagation which create no node, made in two workspaces at once. Each of them is put
together from single edits, and reads nothing in which the two workspaces differ. -/

namespace DecisionDiagrams

open Work

namespace Workspace

variable (w : Workspace) (cache : Memo) (hits misses : Nat)

@[simp] theorem graph_recalling : (w.recalling cache hits misses).graph = w.graph := rfl

@[simp] theorem domains_recalling : (w.recalling cache hits misses).domains = w.domains := rfl

@[simp] theorem agenda_recalling : (w.recalling cache hits misses).agenda = w.agenda := rfl

@[simp] theorem upKnown_recalling : (w.recalling cache hits misses).upKnown = w.upKnown := rfl

@[simp] theorem budget_recalling : (w.recalling cache hits misses).budget = w.budget := rfl

theorem schedule_recalling (p : Plan) (b : Bool) (direction : Direction) (r : Demand) (n : NodeId) :
    (w.recalling cache hits misses).schedule (p.caching b) direction r n =
      (w.schedule p direction r n).recalling cache hits misses := by
  unfold schedule
  dsimp only
  rw [apply_ite (Workspace.recalling · cache hits misses)]
  rfl

end Workspace

section

variable {p : Plan} {b : Bool} {R : Workspace → Workspace → Prop} {w w' : Workspace}

/-! ### Removing arcs and nodes -/

theorem Bond.schedule (B : Bond p b R) (direction : Direction) (r : Demand) (n : NodeId) (h : R w w') :
    R (w.schedule p direction r n) (w'.schedule (p.caching b) direction r n) ∧
      Evolves w (w.schedule p direction r n) := by
  refine ⟨?_, .schedule p direction r n w⟩
  obtain ⟨cache, hits, misses, rfl⟩ := B.alike h
  rw [Workspace.schedule_recalling]
  unfold Workspace.schedule
  dsimp only
  split_ifs
  · exact B.calm (.note fun a => a.note direction n (w.graph.node n).layer r) rfl trivial h
  · exact h

theorem lockstep_removeValue (B : Bond p b R) {layer : Nat} (hl : layer < p.model.depth) {v : Int}
    (hv : w.domains.contains (p.model.var layer) v = true) :
    Lockstep R (removeValue (p.model.var layer) v) (removeValue (p.model.var layer) v) w w' := by
  refine B.get_bind fun _ cache hits misses => ?_
  have strike : R w (w.recalling cache hits misses) → _ := B.after (.strike _ v) rfl ⟨layer, hl, rfl, hv⟩
  simp only [Edit.apply, Workspace.strike, Workspace.domains_recalling] at strike ⊢
  split
  · exact .throw _
  · rename_i e
    rw [e] at strike
    exact .put strike

theorem lockstep_dropUnsupported (B : Bond p b R) {layer : Nat} (hl : layer < p.model.depth) (v : Int) :
    Lockstep R (dropUnsupported p.model layer v) (dropUnsupported p.model layer v) w w' := by
  refine B.get_bind fun _ _ _ _ => .ite (fun there => ?_) fun _ => .pure _
  exact lockstep_removeValue B hl (Bool.and_eq_true_iff.1 there).2

theorem lockstep_settle (B : Bond p b R) {delete delete' : NodeId → Work Unit}
    (hd : ∀ n u u', Lockstep R (delete n) (delete' n) u u') (direction : Direction) (n : NodeId) :
    Lockstep R (settle p delete direction n) (settle (p.caching b) delete' direction n) w w' := by
  refine B.get_bind fun _ cache hits misses => ?_
  dsimp only [Workspace.graph_recalling]
  refine .ite (fun _ => .ite (fun _ => hd n _ _) fun _ => ?_) fun _ => .pure _
  exact .put (B.schedule direction .full n)

theorem lockstep_cutArcWith (B : Bond p b R) {delete delete' : NodeId → Work Unit}
    (hd : ∀ n u u', Lockstep R (delete n) (delete' n) u u') {a : ArcId} (ha : w.graph.arcIsActive a = true) :
    Lockstep R (cutArcWith p delete a) (cutArcWith (p.caching b) delete' a) w w' := by
  refine B.get_bind fun h cache hits misses => ?_
  refine .put_bind (B.after (.unhook a) rfl ha) ?_
  refine .bind (lockstep_dropUnsupported B (h.parent_lt_depth ha) _) fun _ _ _ _ => ?_
  exact .bind (lockstep_settle B hd .up _) fun _ _ _ _ => lockstep_settle B hd .down _

section

variable {remove remove' : ArcId → Work Unit}
  (hr : ∀ a u u', u.graph.arcIsActive a = true → Lockstep R (remove a) (remove' a) u u')

include hr

theorem lockstep_drainIncoming (B : Bond p b R) (n : NodeId) (count : Nat) {w w' : Workspace} :
    Lockstep R (drainIncoming remove n count) (drainIncoming remove' n count) w w' := by
  induction count generalizing w w' with
  | zero => exact .pure _
  | succ count ih =>
    refine B.get_bind fun h cache hits misses => ?_
    dsimp only [Workspace.graph_recalling]
    split
    · rename_i a last
      have ha := (h.wf.mem_incoming.1 (Array.mem_of_back? last)).1
      exact .bind (hr a _ _ ha) fun _ _ _ _ => ih
    · exact .pure _

theorem lockstep_drainOutgoing (B : Bond p b R) (n : NodeId) (count : Nat) {w w' : Workspace} :
    Lockstep R (drainOutgoing remove n count) (drainOutgoing remove' n count) w w' := by
  induction count generalizing w w' with
  | zero => exact .pure _
  | succ count ih =>
    refine B.get_bind fun h cache hits misses => ?_
    dsimp only [Workspace.graph_recalling]
    split
    · rename_i a last
      have ha := (h.wf.mem_outgoing.1 (Array.mem_of_back? last)).1
      exact .bind (hr a _ _ ha) fun _ _ _ _ => ih
    · exact .pure _

theorem lockstep_dropNodeWith (B : Bond p b R) (n : NodeId) :
    Lockstep R (dropNodeWith p remove n) (dropNodeWith (p.caching b) remove' n) w w' := by
  refine B.get_bind fun _ cache hits misses => .ite (fun on => ?_) fun _ => .pure _
  refine .ite (fun _ => .throw_bind _) fun _ => ?_
  refine .bind (B.edit (.retire n) rfl on) fun _ _ _ _ => ?_
  refine .bind (lockstep_drainIncoming hr B n _) fun _ _ _ _ => ?_
  exact B.get_bind fun _ _ _ _ => lockstep_drainOutgoing hr B n _

end

theorem lockstep_cutArcWithin (B : Bond p b R) (depth : Nat) (a : ArcId) (w w' : Workspace)
    (ha : w.graph.arcIsActive a = true) :
    Lockstep R (cutArcWithin p depth a) (cutArcWithin (p.caching b) depth a) w w' := by
  induction depth generalizing a w w' with
  | zero => exact .throw _
  | succ depth ih => exact lockstep_cutArcWith B (fun n _ _ => lockstep_dropNodeWith ih B n) ha

theorem lockstep_cutArc (B : Bond p b R) {a : ArcId} (ha : w.graph.arcIsActive a = true) :
    Lockstep R (cutArc p a) (cutArc (p.caching b) a) w w' :=
  B.get_bind fun _ _ _ _ => lockstep_cutArcWithin B _ a _ _ ha

theorem lockstep_dropNode (B : Bond p b R) (n : NodeId) :
    Lockstep R (dropNode p n) (dropNode (p.caching b) n) w w' :=
  B.get_bind fun _ _ _ _ => lockstep_dropNodeWith (lockstep_cutArcWithin B _) B n

theorem lockstep_retestArc (B : Bond p b R) {keep keep' : Workspace → Arc → Checked Bool}
    (hk : ∀ u cache hits misses arc, keep' (u.recalling cache hits misses) arc = keep u arc)
    (a : ArcId) : Lockstep R (retestArc p keep a) (retestArc (p.caching b) keep' a) w w' := by
  refine B.get_bind fun _ cache hits misses => .ite (fun on => ?_) fun _ => .pure _
  dsimp only [Workspace.graph_recalling]
  rw [hk]
  exact .lift_bind fun _ _ => .ite (fun _ => lockstep_cutArc B on) fun _ => .pure _

theorem lockstep_retestOutgoing (B : Bond p b R) (n : NodeId) :
    Lockstep R (retestOutgoing p n) (retestOutgoing (p.caching b) n) w w' :=
  B.get_bind fun _ _ _ _ => .forM _ fun a _ _ _ _ => lockstep_retestArc B (fun _ _ _ _ _ => rfl) a

theorem lockstep_retestIncoming (B : Bond p b R) (n : NodeId) :
    Lockstep R (retestIncoming p n) (retestIncoming (p.caching b) n) w w' :=
  B.get_bind fun _ _ _ _ => .forM _ fun a _ _ _ _ => lockstep_retestArc B (fun _ _ _ _ _ => rfl) a

theorem lockstep_enforceDomain (B : Bond p b R) (layer : Nat) :
    Lockstep R (enforceDomain p layer) (enforceDomain (p.caching b) layer) w w' :=
  B.get_bind fun _ _ _ _ => .forM _ fun _ _ _ _ _ => B.get_bind fun _ _ _ _ => .forM _ fun a _ _ _ _ =>
    lockstep_retestArc B (fun _ _ _ _ _ => rfl) a

theorem lockstep_enforceDomains (B : Bond p b R) (lost : List Nat) :
    Lockstep R (enforceDomains p lost) (enforceDomains (p.caching b) lost) w w' :=
  .forM _ fun layer _ _ _ _ => lockstep_enforceDomain B layer

/-- The other values of a domain stay. -/
theorem wp_removeValue_others (x : Var) (v : Int) (w : Workspace) :
    wp (removeValue x v)
      (fun _ u => ∀ o, o ≠ v → w.domains.contains x o = true → u.domains.contains x o = true)
      (fun _ _ => True) w := by
  unfold removeValue
  rw [wp_bind, wp_get]
  split
  · trivial
  · rename_i left
    exact fun o hne ho => (Domains.contains_remove? left).2 ⟨ho, fun _ => hne⟩

/-- Different values are taken out of a domain one after another. -/
theorem lockstep_removeValues (B : Bond p b R) {layer : Nat} (hl : layer < p.model.depth) {vs : List Int}
    (nodup : vs.Nodup) (hv : ∀ v ∈ vs, w.domains.contains (p.model.var layer) v = true) :
    Lockstep R (vs.forM (removeValue (p.model.var layer))) (vs.forM (removeValue (p.model.var layer))) w w' := by
  induction vs generalizing w w' with
  | nil => exact .pure _
  | cons v vs ih =>
    obtain ⟨fresh, nodup⟩ := List.nodup_cons.1 nodup
    have one : Lockstep R _ _ w w' := lockstep_removeValue B hl (hv v List.mem_cons_self)
    refine .bind_of (f := fun _ => vs.forM _) (g := fun _ => vs.forM _) (fun hr =>
      ((one hr).and_wp (wp_removeValue_others _ v w)).mono (fun _ _ _ k => k) fun _ _ k => k.1) ?_
    refine fun _ u u' _ others => ih nodup fun o ho => others o ?_ (hv o (List.mem_cons_of_mem _ ho))
    rintro rfl
    exact fresh ho

theorem lockstep_enforceSupports (B : Bond p b R) :
    Lockstep R (enforceSupports p) (enforceSupports (p.caching b)) w w' := by
  refine .forM _ fun layer hl _ _ _ => B.get_bind fun _ _ _ _ => ?_
  refine lockstep_removeValues B (List.mem_range.1 hl) ((Domains.nodup_values _ _).filter _) fun v hv => ?_
  exact Domains.mem_values.1 (List.mem_filter.1 hv).1

theorem lockstep_testNodes (B : Bond p b R) :
    Lockstep R (testNodes p) (testNodes (p.caching b)) w w' := by
  refine .forM _ fun _ _ _ _ _ => B.get_bind fun _ _ _ _ => .forM _ fun n _ _ _ _ => ?_
  refine B.get_bind fun _ _ _ _ => .ite (fun _ => ?_) fun _ => .pure _
  exact .lift_bind fun _ _ => .ite (fun _ => lockstep_dropNode B n) fun _ => .pure _

/-! ### New states -/

theorem Bond.tally (B : Bond p b R) (f : Counters → Counters) (hf : Counters.Plain f) :
    Lockstep R (modify (Workspace.tally f) : Work PUnit) (modify (Workspace.tally f)) w w' :=
  B.edit (.tally f) rfl hf

theorem lockstep_stateFromNeighbours (B : Bond p b R) (direction : Direction) (layer : Nat)
    (bundles : List Bundle) (old : State) (r : Demand) :
    Lockstep R (stateFromNeighbours p direction layer bundles old r)
      (stateFromNeighbours (p.caching b) direction layer bundles old r) w w' := by
  unfold stateFromNeighbours
  rcases r with _ | which
  · refine .bind (.mapM (fun e _ _ => B.along direction layer e.1 e.2) bundles) fun states _ _ _ => ?_
    cases states with
    | nil => exact .pure old
    | cons first rest => exact .lift_bind fun _ _ => .pure _
  · refine B.get_bind fun _ _ _ _ => .bind (.mapM (fun e _ _ => .lift _) bundles) fun states _ _ _ => ?_
    cases states with
    | nil => exact .pure old
    | cons first rest => exact .lift_bind fun _ _ => .pure _

theorem lockstep_rederive (B : Bond p b R) {n : NodeId} (hn : n < w.graph.nodes.size)
    (changedDown changedUp : IndexSet) :
    Lockstep R (rederive p n changedDown changedUp) (rederive (p.caching b) n changedDown changedUp)
      w w' := by
  refine B.get_bind fun _ _ _ _ => ?_
  refine .ite (fun _ => .pure _) fun _ => .ite (fun _ => .pure _) fun _ => ?_
  refine .lift_bind fun new _ => ?_
  refine .ite (fun _ => ?_) fun _ => .pure _
  exact .bind (B.edit (.putState n .combined new) rfl hn) fun _ _ _ _ => .pure _

theorem Bond.foldl_schedule (B : Bond p b R) (direction : Direction) (r : Demand) (l : List NodeId)
    (h : R w w') :
    R (l.foldl (Workspace.schedule p direction r) w)
        (l.foldl (Workspace.schedule (p.caching b) direction r) w') ∧
      Evolves w (l.foldl (Workspace.schedule p direction r) w) := by
  induction l generalizing w w' with
  | nil => exact ⟨h, .refl w⟩
  | cons n l ih =>
    have first := B.schedule direction r n h
    have rest := ih first.1
    exact ⟨rest.1, first.2.trans rest.2⟩

theorem lockstep_alertNeighbours (B : Bond p b R) (direction : Direction) (n : NodeId)
    (own onlyFlag : Bool) (changed combinedChanges : IndexSet) :
    Lockstep R (alertNeighbours p direction n own onlyFlag changed combinedChanges)
      (alertNeighbours (p.caching b) direction n own onlyFlag changed combinedChanges) w w' := by
  refine .ite (fun _ => ?_) fun _ => .pure _
  refine B.get_bind fun _ _ _ _ => .ite (fun _ => ?_) fun _ => .pure _
  exact .put (B.foldl_schedule _ _ _)

theorem lockstep_adoptState (B : Bond p b R) (direction : Direction) {n : NodeId}
    (hn : n < w.graph.nodes.size) (new : State) :
    Lockstep R (adoptState p direction n new) (adoptState (p.caching b) direction n new) w w' := by
  refine B.get_bind fun _ _ _ _ => .ite (fun _ => .pure _) fun _ => ?_
  refine .put_bind (B.after (.putState n direction.side new) rfl hn) ?_
  have hn' : n < (w.putState n direction.side new).graph.nodes.size :=
    Nat.lt_of_lt_of_eq hn (Graph.size_putState w.graph n direction.side new).symm
  refine .bind (lockstep_rederive B hn' _ _) fun combinedChanges _ _ _ => ?_
  refine B.get_bind fun _ _ _ _ => .lift_bind fun kept _ => ?_
  refine .ite (fun _ => lockstep_dropNode B n) fun _ => ?_
  -- whether arcs are tested again does not matter for what follows
  refine .ite (fun _ => .bind (lockstep_retestOutgoing B n) fun _ _ _ _ => ?_) fun _ => ?_
  all_goals
    refine B.get_bind fun _ _ _ _ =>
      .ite (fun _ => .bind (lockstep_retestIncoming B n) fun _ _ _ _ => ?_) fun _ => ?_
    all_goals
      refine B.get_bind fun _ _ _ _ => .ite (fun _ => ?_) fun _ => .pure _
      exact .bind (lockstep_alertNeighbours B _ _ _ _ _ _) fun _ _ _ _ =>
        lockstep_alertNeighbours B _ _ _ _ _ _

theorem lockstep_recompute (B : Bond p b R) (direction : Direction) (n : NodeId) (r : Demand) :
    Lockstep R (recompute p direction n r) (recompute (p.caching b) direction n r) w w' := by
  refine B.get_bind fun _ _ _ _ => .ite (fun on => ?_) fun _ => .pure _
  have hn := Graph.lt_of_isActive _ on
  refine .bind (B.tally _ ?_) fun _ u _ hu => ?_
  · cases r <;> exact ⟨fun _ _ _ => rfl, fun _ => ⟨rfl, rfl, rfl, rfl, rfl, Nat.le_refl _⟩⟩
  · refine .bind (lockstep_stateFromNeighbours B _ _ _ _ _) fun new v _ hv => ?_
    exact lockstep_adoptState B direction (Nat.lt_of_lt_of_le hn (hu.trans hv).nodes) new

theorem lockstep_recomputeLayer (B : Bond p b R) (direction : Direction) (layer : Nat) :
    Lockstep R (recomputeLayer p direction layer) (recomputeLayer (p.caching b) direction layer)
      w w' := by
  refine B.get_bind fun _ _ _ _ => ?_
  refine .bind (B.edit (.note fun a => a.clearLayer direction layer) rfl trivial) fun _ _ _ _ => ?_
  exact .forM _ fun e _ _ _ _ => lockstep_recompute B _ _ _

theorem lockstep_completeNode (B : Bond p b R) (layer : Nat) (n : NodeId) :
    Lockstep R (completeNode p layer n) (completeNode (p.caching b) layer n) w w' := by
  refine B.get_bind fun _ _ _ _ => .ite (fun on => ?_) fun _ => .pure _
  have hn := Graph.lt_of_isActive _ on
  -- the sink keeps the up state it has
  refine .ite (fun _ => .bind (lockstep_stateFromNeighbours B _ _ _ _ _) fun up u _ hu =>
    .bind (B.edit (.putState n .up up) rfl (Nat.lt_of_lt_of_le hn hu.nodes)) fun _ v _ hv => ?_) fun _ => ?_
  on_goal 1 => replace hn := Nat.lt_of_lt_of_le hn (hu.trans hv).nodes
  all_goals
    refine .ite (fun _ => B.get_bind fun _ _ _ _ => .lift_bind fun combined _ =>
      .put_bind (B.after (.putState n .combined combined) rfl hn) ?_) fun _ => ?_
    all_goals
      refine B.get_bind fun _ _ _ _ => .lift_bind fun _ _ => .ite (fun _ => lockstep_dropNode B n) fun _ => ?_
      exact .ite (fun _ => lockstep_retestOutgoing B n) fun _ => .pure _

/-- Where a step begins with an edit of the other kind. -/
theorem Bond.Also.after {kind : Edit.Kind} (F : Bond.Also p b kind R) (e : Edit) (he : e.kind = kind)
    (fits : e.Fits p w) (h : R w w') : R (e.apply w) (e.apply w') ∧ Evolves w (e.apply w) :=
  ⟨F.edit e he fits h, e.evolves fits (F.orderly h)⟩

theorem lockstep_completeNodes (F : Bond.Also p b .building R) :
    Lockstep R (completeNodes p) (completeNodes (p.caching b)) w w' := by
  refine .bind (.update (F.after .markUpKnown rfl trivial)) fun _ _ _ _ => .forM _ fun layer _ _ _ _ => ?_
  exact F.get_bind fun _ _ _ _ => .forM _ fun n _ _ _ _ => lockstep_completeNode F.toBond layer n

end

end DecisionDiagrams
