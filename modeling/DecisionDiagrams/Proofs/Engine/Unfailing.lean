import DecisionDiagrams.Proofs.Work.Outcome

/-! Diagrams whose rules give a result whatever they are asked. While such a diagram is built without a width,
and while it loses arcs afterwards, no rule stops the propagation. -/

namespace DecisionDiagrams

namespace Model

/-- The rules which an exact diagram asks give a result for all states. -/
structure Answers (m : Model) : Prop where
  step : ∀ l s combined v, ∃ t, m.step .down l s combined (.singleton v) = .ok t
  arcPasses : ∀ l v down parent up child, ∃ kept, m.arcPasses l v down parent up child = .ok kept
  nodePasses : ∀ node, ∃ kept, m.nodePasses node = .ok kept
  derive : ∀ down up, ∃ t, m.derive down up = .ok t
  merge : ∀ s t, ∃ r, m.mergeListed .down (m.everyProperty .down) s t = .ok r
  distance : ∀ s t, ∃ d, m.distance .down s t = .ok d

variable {m : Model}

section

variable (hd : ∀ s t, ∃ d, m.distance .down s t = .ok d)
include hd

theorem exists_nearest (kept : List Draft) (down : State) : ∃ i, m.nearest? kept down = .ok i := by
  refine Checked.exists_bind (Checked.exists_mapM fun k _ => ?_) fun _ => ⟨_, rfl⟩
  exact Checked.exists_bind (hd _ _) fun _ => ⟨_, rfl⟩

variable (hm : ∀ s t, ∃ r, m.mergeListed .down (m.everyProperty .down) s t = .ok r)
include hm

theorem exists_absorb (kept : List Draft) (d : Draft) : ∃ r, m.absorb kept d = .ok r := by
  refine Checked.exists_bind (exists_nearest hd _ _) fun i => ?_
  cases i with
  | none => exact ⟨_, rfl⟩
  | some i =>
    dsimp only
    cases kept[i]? with
    | none => exact ⟨_, rfl⟩
    | some k => exact Checked.exists_bind (hm _ _) fun _ => ⟨_, rfl⟩

/-- Drafts can be merged if states can be compared and merged. -/
theorem exists_mergeDrafts (width : Nat) (drafts : List Draft) : ∃ r, m.mergeDrafts width drafts = .ok r := by
  unfold Model.mergeDrafts
  split_ifs
  · exact ⟨_, rfl⟩
  · exact Checked.exists_bind (Checked.exists_foldlM (exists_absorb hd hm) _ _) fun _ => ⟨_, rfl⟩

end

variable (h : m.Answers)
include h

theorem Answers.mergeDrafts (width : Nat) (drafts : List Draft) :
    ∃ r, m.mergeDrafts width drafts = .ok r :=
  exists_mergeDrafts h.distance h.merge width drafts

theorem Answers.statesWith (w : Workspace) (down up : State) :
    ∃ states, w.statesWith m down up = .ok states := by
  unfold Workspace.statesWith
  split_ifs
  · exact Checked.exists_bind (h.derive _ _) fun _ => ⟨_, rfl⟩
  · exact ⟨_, rfl⟩

theorem Answers.keepsNode (w : Workspace) (n : NodeId) : ∃ kept, w.keepsNode m n = .ok kept := by
  unfold Workspace.keepsNode
  split_ifs
  · exact h.nodePasses _
  · exact ⟨_, rfl⟩

end Model

namespace Work

/-- Whatever the workspace is, the steps are not stopped by a rule. -/
def Unfailing {α : Type} (x : Work α) : Prop :=
  ∀ w, wp x (fun _ _ => True) (fun e _ => ∀ f, e ≠ .fault f) w

namespace Unfailing

variable {α β : Type} {x y : Work α} {f : α → Work β}

theorem done (a : α) : Unfailing (pure a : Work α) := fun _ => trivial

theorem stop {e : Stop} (h : ∀ f, e ≠ .fault f) : Unfailing (throw e : Work α) := fun _ => h

theorem put (w : Workspace) : Unfailing (set w : Work PUnit) := fun _ => trivial

theorem update (g : Workspace → Workspace) : Unfailing (modify g : Work PUnit) := fun _ => trivial

theorem create (g : Workspace → α × Workspace) : Unfailing (modifyGet g : Work α) := fun _ => trivial

theorem lift {c : Checked α} (h : ∃ a, c = .ok a) : Unfailing (liftM c : Work α) := fun w => by
  obtain ⟨a, rfl⟩ := h
  trivial

theorem bind (hx : Unfailing x) (hf : ∀ a, Unfailing (f a)) : Unfailing (x >>= f) := fun w => by
  rw [wp_bind]
  exact wp.mono (hx w) (fun a w' _ => hf a w') fun _ _ h => h

theorem read {g : Workspace → Work β} (hg : ∀ w, Unfailing (g w)) : Unfailing (get >>= g) :=
  bind (fun _ => trivial) hg

theorem ite {c : Prop} [Decidable c] (hx : Unfailing x) (hy : Unfailing y) :
    Unfailing (if c then x else y) := by
  split_ifs
  · exact hx
  · exact hy

theorem forM {g : α → Work PUnit} (hg : ∀ a, Unfailing (g a)) : ∀ l : List α, Unfailing (l.forM g)
  | [] => done _
  | a :: l => bind (hg a) fun _ => forM hg l

theorem foldlM {g : β → α → Work β} (hg : ∀ b a, Unfailing (g b a)) :
    ∀ (l : List α) (b : β), Unfailing (l.foldlM g b)
  | [], b => done b
  | a :: l, b => bind (hg b a) fun c => foldlM hg l c

end Unfailing

open Unfailing

variable {p : Plan}

theorem unfailing_removeValue (x : Var) (v : Int) : Unfailing (removeValue x v) :=
  read fun w => by
    cases w.domains.remove? x v with
    | none => exact stop nofun
    | some r => exact put _

theorem unfailing_dropUnsupported (m : Model) (l : Nat) (v : Int) : Unfailing (dropUnsupported m l v) :=
  read fun _ => .ite (unfailing_removeValue _ _) (done _)

/-! ### Arcs and nodes are removed -/

theorem unfailing_settle {delete : NodeId → Work Unit} (hd : ∀ n, Unfailing (delete n)) (d : Direction)
    (n : NodeId) : Unfailing (settle p delete d n) :=
  read fun _ => .ite (.ite (hd n) (put _)) (done _)

theorem unfailing_cutArcWith {delete : NodeId → Work Unit} (hd : ∀ n, Unfailing (delete n)) (a : ArcId) :
    Unfailing (cutArcWith p delete a) :=
  read fun _ => (put _).bind fun _ => (unfailing_dropUnsupported _ _ _).bind fun _ =>
    (unfailing_settle hd _ _).bind fun _ => unfailing_settle hd _ _

theorem unfailing_drainIncoming {remove : ArcId → Work Unit} (hr : ∀ a, Unfailing (remove a)) (n : NodeId) :
    ∀ count, Unfailing (drainIncoming remove n count)
  | 0 => done _
  | count + 1 => read fun w => by
    cases (w.graph.incoming n).back? with
    | none => exact done _
    | some a => exact (hr a).bind fun _ => unfailing_drainIncoming hr n count

theorem unfailing_drainOutgoing {remove : ArcId → Work Unit} (hr : ∀ a, Unfailing (remove a)) (n : NodeId) :
    ∀ count, Unfailing (drainOutgoing remove n count)
  | 0 => done _
  | count + 1 => read fun w => by
    cases (w.graph.outgoing n).back? with
    | none => exact done _
    | some a => exact (hr a).bind fun _ => unfailing_drainOutgoing hr n count

theorem unfailing_dropNodeWith {remove : ArcId → Work Unit} (hr : ∀ a, Unfailing (remove a)) (n : NodeId) :
    Unfailing (dropNodeWith p remove n) := by
  refine read fun w => .ite ?_ (done _)
  have rest : Unfailing (do
      modify (Workspace.retire n)
      drainIncoming remove n (w.graph.node n).incoming.size
      drainOutgoing remove n ((← get).graph.outgoing n).size) :=
    (update _).bind fun _ => (unfailing_drainIncoming hr n _).bind fun _ =>
      read fun _ => unfailing_drainOutgoing hr n _
  exact .ite ((stop (e := .noPath) nofun).bind fun _ => rest) rest

theorem unfailing_cutArcWithin : ∀ (depth : Nat) (a : ArcId), Unfailing (cutArcWithin p depth a)
  | 0, _ => stop nofun
  | depth + 1, a => unfailing_cutArcWith (unfailing_dropNodeWith (unfailing_cutArcWithin depth)) a

theorem unfailing_dropNode (n : NodeId) : Unfailing (dropNode p n) :=
  read fun _ => unfailing_dropNodeWith (unfailing_cutArcWithin _) n

theorem unfailing_enforceDomain (l : Nat) : Unfailing (enforceDomain p l) := by
  refine read fun _ => forM (fun n => read fun _ => forM (fun a => read fun _ => .ite ?_ (done _)) _) _
  exact (lift ⟨_, rfl⟩).bind fun _ => .ite (read fun _ => unfailing_cutArcWithin _ _) (done _)

theorem unfailing_enforceDomains (lost : List Nat) : Unfailing (enforceDomains p lost) :=
  forM (fun l => unfailing_enforceDomain l) _

theorem unfailing_enforceSupports : Unfailing (enforceSupports p) :=
  forM (fun _ => read fun _ => forM (fun _ => unfailing_removeValue _ _) _) _

/-! ### The diagram is built -/

variable (hm : p.model.Answers)
include hm

theorem unfailing_stateAlong (l : Nat) (n : NodeId) (v : Int) :
    Unfailing (stateAlong p .down l n (.singleton v)) := by
  refine read fun w => ?_
  split
  · dsimp only
    split
    · exact (put _).bind fun _ => done _
    · exact (lift (hm.step _ _ _ _)).bind fun _ => (put _).bind fun _ => done _
  · exact lift (hm.step _ _ _ _)

theorem unfailing_collectChildren (l : Nat) (values : List Int) (f : Frontier) (n : NodeId) :
    Unfailing (collectChildren p l values f n) :=
  foldlM (fun _ v => read fun _ => (lift (hm.arcPasses _ _ _ _ _ _)).bind fun _ =>
    .ite ((unfailing_stateAlong hm l n v).bind fun _ => done _) (done _)) _ _

theorem unfailing_addDraft (l : Nat) (d : Draft) : Unfailing (addDraft p l d) :=
  read fun _ => (lift (hm.statesWith _ _ _)).bind fun _ => (create _).bind fun _ =>
    forM (fun _ => update _) _

theorem unfailing_growLayer (width : Option Nat) (l : Nat) : Unfailing (growLayer p width l) := by
  refine read fun w => (foldlM (unfailing_collectChildren hm l _) _ _).bind fun f => ?_
  have rest : ∀ r : List Draft × Nat, Unfailing (do
      modify (Workspace.tally fun c => { c with nodesMerged := c.nodesMerged + r.2 })
      r.1.forM (addDraft p (l + 1))
      (w.graph.layer l).toList.forM fun n => do
        let node := (← get).graph.node n
        if node.active && node.outgoing.isEmpty then dropNode p n) := fun r =>
    (update _).bind fun _ => (forM (unfailing_addDraft hm (l + 1)) _).bind fun _ =>
      forM (fun n => read fun _ => .ite (unfailing_dropNode n) (done _)) _
  refine .ite ((stop (e := .noPath) nofun).bind fun _ => ?_) ?_
  all_goals
    refine .ite ((lift (hm.mergeDrafts _ _)).bind rest) ?_
    cases width with
    | none => exact (done _).bind rest
    | some width => exact (lift (hm.mergeDrafts _ _)).bind rest

theorem unfailing_testNodes : Unfailing (testNodes p) :=
  forM (fun _ => read fun _ => forM (fun n => read fun _ => .ite ((lift (hm.keepsNode _ n)).bind fun _ =>
    .ite (unfailing_dropNode n) (done _)) (done _)) _) _

theorem unfailing_grow (width : Option Nat) : Unfailing (grow p width) := by
  refine (update _).bind fun _ => (update _).bind fun _ => read fun _ => ?_
  refine (lift (hm.statesWith _ _ _)).bind fun _ => (create _).bind fun _ => ?_
  refine (forM (unfailing_growLayer hm width) _).bind fun _ => read fun _ => ?_
  exact .ite ((unfailing_testNodes hm).bind fun _ => unfailing_enforceSupports) unfailing_enforceSupports

theorem unfailing_maintainExact (lost : List Nat) : Unfailing (maintainExact p lost) :=
  read fun _ => .ite ((unfailing_enforceDomains lost).bind fun _ => unfailing_enforceSupports)
    (unfailing_grow hm none)

end Work
end DecisionDiagrams
