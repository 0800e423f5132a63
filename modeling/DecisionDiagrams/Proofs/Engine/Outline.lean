import DecisionDiagrams.Diagram.Maintenance
import DecisionDiagrams.Proofs.Engine.Blend
import DecisionDiagrams.Proofs.Preference
import DecisionDiagrams.Proofs.Work.Linking

/-! The outline of the refinement. Each of its functions has one rule, which says what has to be shown of the
steps it is made of, and in which workspaces. What the refinement keeps is shown along these rules, and nothing
else looks into the functions. -/

namespace DecisionDiagrams

open Work Cascade

/-! ### Removals and tests -/

section

variable {p : Plan} {w : Workspace} {Q : Workspace → Prop} {E : Stop → Workspace → Prop}

theorem wp_retestArc {keep : Workspace → Arc → Checked Bool} {a : ArcId}
    (faults : ∀ f, keep w (w.graph.arc a) = .error f → E (.fault f) w) (gone : w.graph.arcIsActive a = false → Q w)
    (stays : w.graph.arcIsActive a = true → keep w (w.graph.arc a) = .ok true → Q w)
    (goes : w.graph.arcIsActive a = true → keep w (w.graph.arc a) = .ok false → wp (cutArc p a) (fun _ => Q) E w) :
    wp (retestArc p keep a) (fun _ => Q) E w := by
  unfold retestArc
  rw [wp_bind, wp_get]
  dsimp only
  rw [wp_ite]
  refine ⟨fun on => ?_, fun off => gone (Bool.eq_false_iff.2 off)⟩
  rw [wp_bind, wp_lift]
  refine ⟨fun kept hk => ?_, faults⟩
  cases kept with
  | false => exact goes on hk
  | true => exact stays on hk

/-- The arcs of a layer are tested against its domain, node by node. -/
theorem wp_enforceDomain_of {layer : Nat} (I : List NodeId → Workspace → Prop)
    (J : List NodeId → List ArcId → Workspace → Prop) (start : I (w.graph.layer layer).toList w)
    (enter : ∀ n ns w', I (n :: ns) w' → J ns (w'.graph.outgoing n).toList w')
    (inside : ∀ ns a as w', J ns (a :: as) w' → (w'.graph.arcIsActive a = true →
      w'.domains.contains (p.model.var layer) (w'.graph.arc a).value = true) → J ns as w')
    (outside : ∀ ns a as w', J ns (a :: as) w' → w'.graph.arcIsActive a = true →
      w'.domains.contains (p.model.var layer) (w'.graph.arc a).value = false →
      wp (cutArc p a) (fun _ => J ns as) E w')
    (leave : ∀ ns w', J ns [] w' → I ns w') (done : ∀ w', I [] w' → Q w') :
    wp (enforceDomain p layer) (fun _ => Q) E w := by
  unfold enforceDomain
  rw [wp_bind, wp_get]
  refine wp_forM I _ start (fun n ns w' h => ?_) done
  rw [wp_bind, wp_get]
  refine wp_forM (J ns) _ (enter n ns w' h) (fun a as w'' k => ?_) (leave ns)
  refine wp_retestArc nofun (fun off => inside ns a as w'' k fun on => ?_)
    (fun _ kept => inside ns a as w'' k fun _ => Except.ok.inj kept) fun on lost => ?_
  · exact absurd (off.symm.trans on) nofun
  · exact outside ns a as w'' k on (Except.ok.inj lost)

/-- The active nodes are tested layer by layer. -/
theorem wp_testNodes_of (I : Nat → Workspace → Prop) (J : Nat → List NodeId → Workspace → Prop) (start : I 0 w)
    (enter : ∀ l w', I l w' → J l (w'.graph.layer l).toList w')
    (gone : ∀ l n ns w', J l (n :: ns) w' → w'.graph.isActive n = false → J l ns w')
    (faults : ∀ l n ns w' f, J l (n :: ns) w' → w'.keepsNode p.model n = .error f → E (.fault f) w')
    (fails : ∀ l n ns w', J l (n :: ns) w' → w'.graph.isActive n = true → w'.keepsNode p.model n = .ok false →
      wp (dropNode p n) (fun _ => J l ns) E w')
    (passes : ∀ l n ns w', J l (n :: ns) w' → w'.keepsNode p.model n = .ok true → J l ns w')
    (leave : ∀ l w', J l [] w' → I (l + 1) w') (done : ∀ w', I (p.model.depth + 1) w' → Q w') :
    wp (testNodes p) (fun _ => Q) E w := by
  unfold testNodes
  refine wp_forM_range I start (fun l _ w' h => ?_) done
  rw [wp_bind, wp_get]
  refine wp_forM (J l) _ (enter l w' h) (fun n ns w'' k => ?_) (leave l)
  rw [wp_bind, wp_get, wp_ite]
  refine ⟨fun on => ?_, fun off => gone l n ns w'' k (Bool.eq_false_iff.2 off)⟩
  rw [wp_bind, wp_lift]
  refine ⟨fun kept hk => ?_, fun f hf => faults l n ns w'' f k hf⟩
  cases kept with
  | false => exact fails l n ns w'' k on hk
  | true => exact passes l n ns w'' k hk

/-- The arcs of a bundle are removed one after another. -/
theorem wp_discard {c : Candidate} (I : List ArcId → Workspace → Prop)
    (start : I c.arcs (w.tally fun t => { t with candidatesPruned := t.candidatesPruned + 1 }))
    (gone : ∀ a as w', I (a :: as) w' → w'.graph.arcIsActive a = false → I as w')
    (cut : ∀ a as w', I (a :: as) w' → w'.graph.arcIsActive a = true → wp (cutArc p a) (fun _ => I as) E w')
    (done : ∀ w', I [] w' → Q w') : wp (Work.discard p c) (fun _ => Q) E w := by
  unfold Work.discard
  rw [wp_bind, wp_modify]
  refine wp_forM I _ start (fun a as w' h => ?_) done
  exact wp_retestArc nofun (gone a as w' h) nofun fun on _ => cut a as w' h on

end

/-- What has to be shown of steps which remove an arc or a node, and of steps which change nothing. -/
structure Pruner (p : Plan) (I : Workspace → Prop) (E : Stop → Workspace → Prop) : Prop where
  cached : ∀ {w}, I w → w.cache.Sound p.model
  quiet : ∀ {w w'}, Quiet p w w' → I w → I w'
  faults : ∀ {w} f, I w → E (.fault f) w
  cut : ∀ {w a}, w.graph.arcIsActive a = true → I w → wp (cutArc p a) (fun _ => I) E w
  drop : ∀ {w} n, I w → wp (dropNode p n) (fun _ => I) E w

namespace Pruner

variable {α : Type} {p : Plan} {w : Workspace} {I : Workspace → Prop} {E : Stop → Workspace → Prop}

theorem retestArc (h : Pruner p I E) (keep : Workspace → Arc → Checked Bool) (a : ArcId) (hI : I w) :
    wp (retestArc p keep a) (fun _ => I) E w :=
  wp_retestArc (fun f _ => h.faults f hI) (fun _ => hI) (fun _ _ => hI) fun on _ => h.cut on hI

theorem retestArcs (h : Pruner p I E) (keep : Workspace → Arc → Checked Bool) (as : List ArcId) (hI : I w) :
    wp (as.forM (Work.retestArc p keep)) (fun _ => I) E w :=
  wp_forM (fun _ => I) as hI (fun a _ _ hI => h.retestArc keep a hI) fun _ hI => hI

theorem retestOutgoing (h : Pruner p I E) (n : NodeId) (hI : I w) : wp (retestOutgoing p n) (fun _ => I) E w :=
  h.retestArcs _ _ hI

theorem retestIncoming (h : Pruner p I E) (n : NodeId) (hI : I w) : wp (retestIncoming p n) (fun _ => I) E w :=
  h.retestArcs _ _ hI

theorem enforceDomain (h : Pruner p I E) (layer : Nat) (hI : I w) : wp (enforceDomain p layer) (fun _ => I) E w :=
  wp_enforceDomain_of (fun _ => I) (fun _ _ => I) hI (fun _ _ _ hI => hI) (fun _ _ _ _ hI _ => hI)
    (fun _ _ _ _ hI on _ => h.cut on hI) (fun _ _ hI => hI) fun _ hI => hI

theorem enforceDomains (h : Pruner p I E) (lost : List Nat) (hI : I w) :
    wp (enforceDomains p lost) (fun _ => I) E w :=
  wp_forM (fun _ => I) _ hI (fun layer _ _ hI => h.enforceDomain layer hI) fun _ hI => hI

theorem testNodes (h : Pruner p I E) (hI : I w) : wp (testNodes p) (fun _ => I) E w :=
  wp_testNodes_of (fun _ => I) (fun _ _ => I) hI (fun _ _ hI => hI) (fun _ _ _ _ hI _ => hI)
    (fun _ _ _ _ f hI _ => h.faults f hI) (fun _ n _ _ hI _ _ => h.drop n hI) (fun _ _ _ _ hI _ => hI) (fun _ _ hI => hI)
    fun _ hI => hI

theorem discard (h : Pruner p I E) (c : Candidate) (hI : I w) : wp (discard p c) (fun _ => I) E w :=
  wp_discard (fun _ => I) (h.quiet (.tally _ w) hI) (fun _ _ _ hI _ => hI) (fun _ _ _ hI on => h.cut on hI) fun _ hI => hI

theorem discardDead (h : Pruner p I E) (n : NodeId) (layer : Nat) (cs : List Candidate) (hI : I w) :
    wp (discardDead p n layer cs) (fun _ => I) E w := by
  refine wp_foldlM (fun _ _ => I) cs hI (fun c _ dead w₁ hI => ?_) fun _ _ hI => hI
  rw [wp_bind, wp_get, wp_bind, wp_lift]
  refine ⟨fun continues _ => ?_, fun f _ => h.faults f hI⟩
  rw [wp_ite]
  refine ⟨fun _ => hI, fun _ => ?_⟩
  rw [wp_bind]
  exact h.discard c hI

end Pruner

theorem wp_removeValue_of {w : Workspace} {x : Var} {v : Int} {Q : Workspace → Prop} {E : Stop → Workspace → Prop}
    (emptied : w.domains.remove? x v = none → E .emptyDomain w)
    (removed : ∀ b domains, w.domains.remove? x v = some (b, domains) → Q (w.lose x v domains)) :
    wp (removeValue x v) (fun _ => Q) E w := by
  unfold removeValue
  rw [wp_bind, wp_get]
  split
  · exact emptied ‹_›
  · exact removed _ _ ‹_›

theorem wp_enforceSupports_of {p : Plan} {w : Workspace} {I : Workspace → Prop} {E : Stop → Workspace → Prop}
    (step : ∀ {w} x v, I w → wp (removeValue x v) (fun _ => I) E w) (hI : I w) :
    wp (enforceSupports p) (fun _ => I) E w :=
  wp_forM (fun _ => I) _ hI (fun _ _ _ hI => wp_forM (fun _ => I) _ hI (fun v _ _ hI => step _ v hI)
    fun _ hI => hI) fun _ hI => hI

/-! ### New states -/

/-- The properties of direction `e` which change when a node gets a new state of direction `d`. -/
def Workspace.altered (w : Workspace) (p : Plan) (n : NodeId) (d : Direction) (new : State) (e : Direction) :
    IndexSet :=
  if d = e then (p.model.layout d.side).difference (w.graph.state n d.side) new else .empty

theorem Workspace.altered_self (w : Workspace) (p : Plan) (n : NodeId) (d : Direction) (new : State) :
    w.altered p n d new d = (p.model.layout d.side).difference (w.graph.state n d.side) new := if_pos rfl

theorem Workspace.altered_of_ne {d e : Direction} (h : d ≠ e) (w : Workspace) (p : Plan) (n : NodeId) (new : State) :
    w.altered p n d new e = .empty := if_neg h

/-- The layer of the arcs by which a node feeds others. -/
def Workspace.tellLayer (w : Workspace) (d : Direction) (n : NodeId) : Nat :=
  match d with
  | .down => w.graph.layerOf n
  | .up => w.graph.layerOf n - 1

/-- The neighbours which a node feeds. -/
def Workspace.fed (w : Workspace) (d : Direction) (n : NodeId) : List NodeId :=
  match d with
  | .down => w.graph.children n
  | .up => w.graph.parents n

/-- Tells the neighbours of a node of the properties which changed. -/
def tellNeighbours (p : Plan) (d : Direction) (n : NodeId) (onlyFlag : Bool) (changes : Direction → IndexSet)
    (combinedChanges : IndexSet) : Work PUnit := do
  let active := (← get).graph.isActive n
  if active then
    alertNeighbours p .down n (d == .down) onlyFlag (changes .down) combinedChanges
    alertNeighbours p .up n (d == .up) onlyFlag (changes .up) combinedChanges

section

variable {α : Type} {p : Plan} {d : Direction} {n : NodeId} {layer : Nat} {new : State} {r : Demand} {w : Workspace}
  {Q : Workspace → Prop} {E : Stop → Workspace → Prop}

theorem wp_when {c : Prop} [Decidable c] {x : Work PUnit} (h : wp x (fun _ => Q) E w) (hQ : Q w) :
    wp (if c then x else pure ⟨⟩) (fun _ => Q) E w := by
  split_ifs
  · exact h
  · exact hQ

/-- A step which is made on a condition, before others. -/
theorem wp_when_bind {c : Prop} [Decidable c] {x : Work PUnit} {f : PUnit → Work α} {Q : α → Workspace → Prop}
    (h : wp (if c then x else pure ⟨⟩) (fun _ => wp (f ⟨⟩) Q E) E w) :
    wp (if c then x >>= f else f ⟨⟩) Q E w := by
  split_ifs at h ⊢
  · rw [wp_bind]
    exact h
  · exact h

theorem notes {I : Workspace → Prop} (note : ∀ {w} d r n, I w → I (w.schedule p d r n)) (d : Direction) (r : Demand)
    (ns : List NodeId) (hI : I w) : I (ns.foldl (Workspace.schedule p d r) w) := by
  induction ns generalizing w with
  | nil => exact hI
  | cons n ns ih => exact ih (note d r n hI)

/-- The neighbours of a node in a direction are noted if it has any. -/
theorem wp_alertNeighbours_of {own onlyFlag : Bool} {changed combinedChanges : IndexSet} (silent : own = false → Q w)
    (alone : (d = .down → ¬ w.graph.layerOf n < p.model.depth) → (d = .up → ¬ 0 < w.graph.layerOf n) → Q w)
    (noted : Q ((w.fed d n).foldl (Workspace.schedule p d (if onlyFlag && own then .full
      else .only (p.model.dependents d (w.tellLayer d n) changed combinedChanges))) w)) :
    wp (alertNeighbours p d n own onlyFlag changed combinedChanges) (fun _ => Q) E w := by
  unfold alertNeighbours
  rw [wp_ite]
  refine ⟨fun _ => ?_, fun mute => silent ?_⟩
  · rw [wp_bind, wp_get]
    cases d with
    | down =>
      dsimp only
      rw [wp_ite]
      exact ⟨fun _ => noted, fun last => alone (fun _ => by simpa using last) nofun⟩
    | up =>
      dsimp only
      rw [wp_ite]
      exact ⟨fun _ => noted, fun first => alone nofun fun _ => by simpa using first⟩
  · rw [Bool.or_eq_true, not_or] at mute
    exact Bool.eq_false_iff.2 mute.1

/-- Neighbours are only noted. -/
theorem wp_alertNeighbours {I : Workspace → Prop} (note : ∀ {w} d r n, I w → I (w.schedule p d r n)) (d : Direction)
    (n : NodeId) (own onlyFlag : Bool) (changed combinedChanges : IndexSet) (hI : I w) :
    wp (alertNeighbours p d n own onlyFlag changed combinedChanges) (fun _ => I) E w :=
  wp_alertNeighbours_of (fun _ => hI) (fun _ _ => hI) (notes note _ _ _ hI)

theorem wp_tellNeighbours {I : Workspace → Prop} (note : ∀ {w} d r n, I w → I (w.schedule p d r n)) (d : Direction)
    (n : NodeId) (onlyFlag : Bool) (changes : Direction → IndexSet) (combinedChanges : IndexSet) (hI : I w) :
    wp (tellNeighbours p d n onlyFlag changes combinedChanges) (fun _ => I) E w := by
  unfold tellNeighbours
  rw [wp_bind, wp_get]
  dsimp only
  rw [wp_ite]
  refine ⟨fun _ => ?_, fun _ => hI⟩
  rw [wp_bind]
  exact wp.mono (wp_alertNeighbours note _ _ _ _ _ _ hI) (fun _ _ hI => wp_alertNeighbours note _ _ _ _ _ _ hI)
    fun _ _ k => k

/-- The combined properties which read a changed one are computed again, if combined states are known. -/
theorem wp_rederive_of {changedDown changedUp : IndexSet} {Q : IndexSet → Workspace → Prop}
    (unknown : w.combinedKnown p.model = false → Q .empty w)
    (unread : w.combinedKnown p.model = true → (p.model.combinedDependents changedDown changedUp).isEmpty = true →
      Q .empty w)
    (faults : w.combinedKnown p.model = true → ∀ f, p.model.deriveInto (w.graph.state n .down) (w.graph.state n .up)
      (p.model.combinedDependents changedDown changedUp) (w.graph.state n .combined) = .error f → E (.fault f) w)
    (derived : w.combinedKnown p.model = true → ∀ both, p.model.deriveInto (w.graph.state n .down) (w.graph.state n .up)
      (p.model.combinedDependents changedDown changedUp) (w.graph.state n .combined) = .ok both →
      Q ((p.model.layout .combined).difference (w.graph.state n .combined) both)
        (if ((p.model.layout .combined).difference (w.graph.state n .combined) both).isEmpty then w
          else w.putState n .combined both)) :
    wp (rederive p n changedDown changedUp) Q E w := by
  unfold rederive
  rw [wp_bind, wp_get, wp_ite]
  refine ⟨fun no => unknown (by simpa using no), fun yes => ?_⟩
  have known : w.combinedKnown p.model = true := by simpa using yes
  dsimp only
  rw [wp_ite]
  refine ⟨unread known, fun _ => ?_⟩
  rw [wp_bind, wp_lift]
  refine ⟨fun both hb => ?_, faults known⟩
  have h := derived known both hb
  rw [wp_ite]
  refine ⟨fun changes => ?_, fun still => ?_⟩
  · rw [wp_bind, wp_modify, wp_pure]
    rwa [if_neg (by simpa using changes)] at h
  · rwa [if_pos (by simpa using still)] at h

/-- A node gets a new state and a combined state for it. It is deleted if it fails its test; otherwise the arcs
whose tests read a changed property are tested again, and the neighbours are told. -/
theorem wp_adoptState (adopted tested retested : IndexSet → Workspace → Prop)
    (same : w.graph.state n d.side = new → Q w)
    (put : wp (rederive p n (w.altered p n d new .down) (w.altered p n d new .up)) adopted E (w.putState n d.side new))
    (faults : ∀ both w' f, adopted both w' → E (.fault f) w')
    (dropped : ∀ both w', adopted both w' → w'.keepsNode p.model n = .ok false →
      wp (dropNode p n) (fun _ => Q) E w')
    (outgoing : ∀ both w', adopted both w' → wp (if (!(w.altered p n d new .down).isEmpty || !both.isEmpty) = true
      then retestOutgoing p n else pure ⟨⟩) (fun _ => tested both) E w')
    (incoming : ∀ both w', tested both w' → wp (if (w'.upKnown && (!(w.altered p n d new .up).isEmpty ||
      !both.isEmpty)) = true then retestIncoming p n else pure ⟨⟩) (fun _ => retested both) E w')
    (told : ∀ both w', retested both w' → wp (tellNeighbours p d n (w.altered p n d new d).isEmpty
      (w.altered p n d new) both) (fun _ => Q) E w') :
    wp (adoptState p d n new) (fun _ => Q) E w := by
  unfold adoptState
  rw [wp_bind, wp_get]
  dsimp only
  rw [wp_ite]
  refine ⟨same, fun _ => ?_⟩
  have rest : ∀ both w', adopted both w' → wp (do
      let kept ← (← get).keepsNode p.model n
      if !kept then dropNode p n
      else
        if !(w.altered p n d new .down).isEmpty || !both.isEmpty then retestOutgoing p n
        let upKnown := (← get).upKnown
        if upKnown && (!(w.altered p n d new .up).isEmpty || !both.isEmpty) then retestIncoming p n
        tellNeighbours p d n (w.altered p n d new d).isEmpty (w.altered p n d new) both : Work PUnit)
      (fun _ => Q) E w' := by
    intro both w' h
    rw [wp_bind, wp_get, wp_bind, wp_lift]
    refine ⟨fun kept hk => ?_, fun f _ => faults both w' f h⟩
    rw [wp_ite]
    refine ⟨fun no => dropped both w' h ?_, fun _ => ?_⟩
    · rwa [show kept = false by simpa using no] at hk
    refine wp_when_bind (wp.mono (outgoing both w' h) (fun _ w'' h => ?_) fun _ _ h => h)
    rw [wp_bind, wp_get]
    exact wp_when_bind (wp.mono (incoming both w'' h) (fun _ w'' h => told both w'' h) fun _ _ h => h)
  cases d with
  | down =>
    rw [wp_bind, wp_set, wp_bind]
    exact wp.mono put (fun both w' h => rest both w' h) fun _ _ h => h
  | up =>
    rw [wp_bind, wp_set, wp_bind]
    exact wp.mono put (fun both w' h => rest both w' h) fun _ _ h => h

theorem wp_recompute (sound : w.cache.Sound p.model) (gone : w.graph.isActive n = false → Q w)
    (faults : ∀ w' f, Quiet p w w' → E (.fault f) w')
    (adopt : w.graph.isActive n = true → ∀ new w', Quiet p w w' →
      w.arrived p d (w.feedLayer d n) (w.bundles p d n) (w.graph.state n d.side) r = .ok new →
      wp (adoptState p d n new) (fun _ => Q) E w') : wp (recompute p d n r) (fun _ => Q) E w := by
  unfold recompute
  rw [wp_bind, wp_get, wp_ite]
  refine ⟨fun on => ?_, fun off => gone (Bool.eq_false_iff.2 off)⟩
  dsimp only
  rw [wp_bind, wp_modify, wp_bind]
  generalize hw : Workspace.tally _ w = w₁
  have hq : Quiet p w w₁ := hw ▸ .tally _ w
  have same : w.arrived p d (w.feedLayer d n) = w₁.arrived p d (w.feedLayer d n) := by
    rw [← hw]
    rfl
  refine wp.mono (computes_stateFromNeighbours (hq.cached sound) _ _ _ _ _) (fun new w' k => ?_) ?_
  · exact adopt on new w' (hq.trans k.1) (same ▸ k.2)
  · rintro e w' ⟨hq', f, rfl, -⟩
    exact faults w' f (hq.trans hq')

theorem wp_recomputeLayer (I : Waiting → Workspace → Prop)
    (cleared : I (w.agenda.waiting d layer) { w with agenda := w.agenda.clearLayer d layer })
    (step : ∀ e es w', I (e :: es) w' → wp (recompute p d e.1 e.2) (fun _ => I es) E w')
    (done : ∀ w', I [] w' → Q w') : wp (recomputeLayer p d layer) (fun _ => Q) E w := by
  unfold recomputeLayer
  rw [wp_bind, wp_get, wp_bind, wp_modify]
  exact wp_forM I _ cleared step done

/-- A node gets its first up state, unless it is the sink, and its first combined state; then it is tested with
its outgoing arcs. -/
theorem wp_completeNode (risen completed : Workspace → Prop) (sound : w.cache.Sound p.model)
    (gone : w.graph.isActive n = false → Q w) (faults : ∀ w' f, Quiet p w w' → E (.fault f) w')
    (sink : w.graph.isActive n = true → ¬ layer < p.model.depth → risen w)
    (rises : w.graph.isActive n = true → layer < p.model.depth → ∀ up w', Quiet p w w' →
      w.arrived p .up layer (w.bundles p .up n) (w.graph.state n .up) .full = .ok up → risen (w'.putState n .up up))
    (faults₁ : ∀ w' f, risen w' → E (.fault f) w')
    (plain : p.model.hasCombined = false → ∀ w', risen w' → completed w')
    (combined : p.model.hasCombined = true → ∀ w' both, risen w' →
      p.model.derive (w'.graph.state n .down) (w'.graph.state n .up) = .ok both →
      completed (w'.putState n .combined both))
    (faults₂ : ∀ w' f, completed w' → E (.fault f) w')
    (dropped : ∀ w', completed w' → w'.keepsNode p.model n = .ok false → wp (dropNode p n) (fun _ => Q) E w')
    (tested : ∀ w', completed w' → wp (if layer < p.model.depth then retestOutgoing p n else pure ⟨⟩)
      (fun _ => Q) E w') : wp (completeNode p layer n) (fun _ => Q) E w := by
  have test : ∀ w', completed w' → wp (do
      let kept ← (← get).keepsNode p.model n
      if !kept then dropNode p n
      else if layer < p.model.depth then retestOutgoing p n : Work PUnit) (fun _ => Q) E w' := by
    intro w' h
    rw [wp_bind, wp_get, wp_bind, wp_lift]
    refine ⟨fun kept hk => ?_, fun f _ => faults₂ w' f h⟩
    rw [wp_ite]
    refine ⟨fun no => dropped w' h ?_, fun _ => tested w' h⟩
    rwa [show kept = false by simpa using no] at hk
  have rest : ∀ w', risen w' → wp (do
      if p.model.hasCombined then
        let w ← get
        let combined ← p.model.derive (w.graph.state n .down) (w.graph.state n .up)
        set (w.putState n .combined combined)
      let kept ← (← get).keepsNode p.model n
      if !kept then dropNode p n
      else if layer < p.model.depth then retestOutgoing p n : Work PUnit) (fun _ => Q) E w' := by
    intro w' h
    rw [wp_ite]
    refine ⟨fun has => ?_, fun has => test w' (plain (Bool.eq_false_iff.2 has) w' h)⟩
    rw [wp_bind, wp_get, wp_bind, wp_lift]
    refine ⟨fun both hb => ?_, fun f _ => faults₁ w' f h⟩
    rw [wp_bind, wp_set]
    exact test _ (combined has w' both h hb)
  unfold completeNode
  rw [wp_bind, wp_get, wp_ite]
  refine ⟨fun on => ?_, fun off => gone (Bool.eq_false_iff.2 off)⟩
  rw [wp_ite]
  refine ⟨fun inner => ?_, fun last => rest w (sink on last)⟩
  rw [wp_bind]
  refine wp.mono (computes_stateFromNeighbours sound _ _ _ _ _) (fun up w' k => ?_) ?_
  · rw [wp_bind, wp_modify]
    exact rest _ (rises on inner up w' k.1 k.2)
  · rintro e w' ⟨hq, f, rfl, -⟩
    exact faults w' f hq

/-- The nodes of a layer are completed one after another, and the layers from the sink on. -/
theorem wp_completeNodes (I : List Nat → Workspace → Prop) (J : Nat → List Nat → List NodeId → Workspace → Prop)
    (known : I (List.range (p.model.depth + 1)).reverse { w with upKnown := true })
    (enter : ∀ layer rest w', I (layer :: rest) w' → J layer rest (w'.graph.layer layer).toList w')
    (step : ∀ layer rest n ns w', J layer rest (n :: ns) w' →
      wp (completeNode p layer n) (fun _ => J layer rest ns) E w')
    (leave : ∀ layer rest w', J layer rest [] w' → I rest w') (done : ∀ w', I [] w' → Q w') :
    wp (completeNodes p) (fun _ => Q) E w := by
  unfold completeNodes
  rw [wp_bind, wp_modify]
  refine wp_forM I _ known (fun layer rest w' h => ?_) done
  rw [wp_bind, wp_get]
  exact wp_forM (J layer rest) _ (enter layer rest w' h) (step layer rest) (leave layer rest)

end

/-- What has to be shown of steps which note nodes for a new computation. -/
structure Noter (p : Plan) (I : Workspace → Prop) (E : Stop → Workspace → Prop) : Prop extends Pruner p I E where
  note : ∀ {w} d r n, I w → I (w.schedule p d r n)

namespace Noter

variable {p : Plan} {w : Workspace} {n : NodeId} {I : Workspace → Prop} {E : Stop → Workspace → Prop}

theorem adoptState (h : Noter p I E) (d : Direction) (new : State) (hI : I w)
    (put : wp (rederive p n (w.altered p n d new .down) (w.altered p n d new .up)) (fun _ => I) E
      (w.putState n d.side new)) : wp (adoptState p d n new) (fun _ => I) E w := by
  exact wp_adoptState (fun _ => I) (fun _ => I) (fun _ => I) (fun _ => hI) put (fun _ _ f hI => h.faults f hI)
    (fun _ _ hI _ => h.drop n hI) (fun _ _ hI => wp_when (h.retestOutgoing n hI) hI)
    (fun _ _ hI => wp_when (h.retestIncoming n hI) hI) fun both _ hI => wp_tellNeighbours h.note _ _ _ _ both hI

theorem recompute (h : Noter p I E) (d : Direction) (n : NodeId) (r : Demand)
    (adopt : ∀ {w} new, w.graph.isActive n = true → I w → wp (Work.adoptState p d n new) (fun _ => I) E w)
    (hI : I w) : wp (recompute p d n r) (fun _ => I) E w :=
  wp_recompute (h.cached hI) (fun _ => hI) (fun _ f hq => h.faults f (h.quiet hq hI))
    fun on new _ hq _ => adopt new (hq.graph ▸ on) (h.quiet hq hI)

end Noter

/-- What has to be shown of steps which give a node a state. `ok` says on which sides of which nodes. -/
structure Writer (p : Plan) (ok : Side → NodeId → Prop) (I : Workspace → Prop) (E : Stop → Workspace → Prop) : Prop
    extends Pruner p I E where
  put : ∀ {w n side} s, ok side n → n < w.graph.nodes.size → I w → I (w.putState n side s)

namespace Writer

variable {p : Plan} {w : Workspace} {n : NodeId} {ok : Side → NodeId → Prop} {I : Workspace → Prop}
  {E : Stop → Workspace → Prop}

theorem rederive (h : Writer p ok I E) (hok : ok .combined n) (hn : n < w.graph.nodes.size)
    (changedDown changedUp : IndexSet) (hI : I w) : wp (rederive p n changedDown changedUp) (fun _ => I) E w := by
  refine wp_rederive_of (fun _ => hI) (fun _ _ => hI) (fun _ f _ => h.faults f hI) fun _ both _ => ?_
  split_ifs
  · exact hI
  · exact h.put both hok hn hI

theorem completeNode (h : Writer p ok I E) (hu : ok .up n) (hc : ok .combined n) (layer : Nat) (hI : I w) :
    wp (completeNode p layer n) (fun _ => I) E w := by
  let J : Workspace → Prop := fun w' => n < w'.graph.nodes.size ∧ I w'
  have put : ∀ {w'} side s, ok side n → J w' → J (w'.putState n side s) := fun side s hok k =>
    ⟨Nat.lt_of_lt_of_eq k.1 (Graph.size_putState _ n side s).symm, h.put s hok k.1 k.2⟩
  refine wp_completeNode J J (h.cached hI) (fun _ => hI) (fun _ f hq => h.faults f (h.quiet hq hI))
    (fun on _ => ⟨Graph.lt_of_isActive _ on, hI⟩) (fun on _ up _ hq _ => ?_) (fun _ f k => h.faults f k.2)
    (fun _ _ k => k) (fun _ _ both k _ => put .combined both hc k) (fun _ f k => h.faults f k.2)
    (fun _ k _ => h.drop n k.2) fun _ k => wp_when (h.retestOutgoing n k.2) k.2
  exact put .up up hu ⟨hq.graph ▸ Graph.lt_of_isActive _ on, h.quiet hq hI⟩

theorem completeNodes (h : Writer p ok I E) (hok : ∀ n, ok .up n ∧ ok .combined n)
    (hI : I { w with upKnown := true }) : wp (completeNodes p) (fun _ => I) E w :=
  wp_completeNodes (fun _ => I) (fun _ _ _ => I) hI (fun _ _ _ hI => hI)
    (fun layer _ n _ _ hI => h.completeNode (hok n).1 (hok n).2 layer hI) (fun _ _ _ hI => hI) fun _ hI => hI

end Writer

/-- What has to be shown of steps by which nodes are computed again. -/
structure Updater (p : Plan) (ok : Side → NodeId → Prop) (I : Workspace → Prop) (E : Stop → Workspace → Prop) : Prop
    extends Noter p I E, Writer p ok I E where
  clear : ∀ {w} d layer, I w → I { w with agenda := w.agenda.clearLayer d layer }

namespace Updater

variable {p : Plan} {w : Workspace} {n : NodeId} {ok : Side → NodeId → Prop} {I : Workspace → Prop}
  {E : Stop → Workspace → Prop}

theorem adoptState (h : Updater p ok I E) {d : Direction} (hd : ok d.side n) (hc : ok .combined n)
    (hn : n < w.graph.nodes.size) (new : State) (hI : I w) : wp (adoptState p d n new) (fun _ => I) E w :=
  h.toNoter.adoptState d new hI (h.toWriter.rederive hc
    (Nat.lt_of_lt_of_eq hn (Graph.size_putState w.graph n d.side new).symm) _ _ (h.put new hd hn hI))

theorem recompute (h : Updater p ok I E) {d : Direction} (hd : ok d.side n) (hc : ok .combined n) (r : Demand)
    (hI : I w) : wp (recompute p d n r) (fun _ => I) E w :=
  h.toNoter.recompute d n r (fun new on hI => h.adoptState hd hc (Graph.lt_of_isActive _ on) new hI) hI

theorem recomputeLayer (h : Updater p ok I E) {d : Direction} {layer : Nat}
    (hok : ∀ e ∈ w.agenda.waiting d layer, ok d.side e.1 ∧ ok .combined e.1) (hI : I w) :
    wp (recomputeLayer p d layer) (fun _ => I) E w := by
  refine wp_recomputeLayer (fun es w' => (∀ e ∈ es, ok d.side e.1 ∧ ok .combined e.1) ∧ I w')
    ⟨hok, h.clear d layer hI⟩ (fun e es w' k => ?_) fun _ k => k.2
  obtain ⟨hd, hc⟩ := k.1 e List.mem_cons_self
  exact wp.mono (h.recompute hd hc e.2 k.2) (fun _ _ hI => ⟨fun e he => k.1 e (List.mem_cons_of_mem _ he), hI⟩)
    fun _ _ k => k

end Updater

/-! ### Splitting off a bundle -/

section

variable {p : Plan} {w : Workspace} {new : NodeId} {a : ArcId} {E : Stop → Workspace → Prop}

theorem wp_copyArc {Q : Workspace → Prop} (faults : ∀ f, E (.fault f) w)
    (rejected : w.keepsArc p.model (w.graph.arc a).value new (w.graph.arc a).child = .ok false → Q w)
    (accepted : w.keepsArc p.model (w.graph.arc a).value new (w.graph.arc a).child = .ok true →
      Q (w.copying p new a)) : wp (copyArc p new a) (fun _ => Q) E w := by
  unfold copyArc
  rw [wp_bind, wp_get]
  dsimp only
  rw [wp_bind, wp_monadLift]
  refine ⟨fun kept hk => ?_, fun f _ => faults f⟩
  cases kept with
  | false => exact rejected hk
  | true => exact accepted hk

theorem wp_moveArc {Q : Workspace → Prop} (gone : w.graph.arcIsActive a = false → Q w)
    (there : w.graph.arcIsActive a = true → wp (cutArc p a) (fun _ => Q) E (w.redirecting p new a)) :
    wp (moveArc p new a) (fun _ => Q) E w := by
  unfold moveArc
  rw [wp_bind, wp_get]
  dsimp only
  rw [wp_ite]
  refine ⟨fun on => ?_, fun off => gone (Bool.eq_false_iff.2 off)⟩
  rw [wp_bind, wp_modify]
  exact there on

/-- Deletes a node which was split off unless it has arcs on both sides and passes its tests. -/
def dropUseless (p : Plan) (new : NodeId) : Work PUnit := do
  let w ← get
  let node := w.graph.node new
  if node.active then
    let isolated := node.outgoing.isEmpty || node.incoming.isEmpty
    let kept ← if isolated then pure false else w.keepsNode p.model new
    if !kept then dropNode p new

theorem wp_dropUseless {Q : Workspace → Prop} (faults : ∀ f, E (.fault f) w)
    (gone : w.graph.isActive new = false → Q w)
    (useless : (w.graph.outgoing new).isEmpty = true ∨ (w.graph.incoming new).isEmpty = true ∨
      w.keepsNode p.model new = .ok false → wp (dropNode p new) (fun _ => Q) E w)
    (useful : (w.graph.outgoing new).isEmpty = false → (w.graph.incoming new).isEmpty = false →
      w.keepsNode p.model new = .ok true → Q w) : wp (dropUseless p new) (fun _ => Q) E w := by
  unfold dropUseless
  rw [wp_bind, wp_get]
  dsimp only
  rw [wp_ite]
  refine ⟨fun _ => ?_, fun off => gone (Bool.eq_false_iff.2 off)⟩
  rw [wp_ite]
  refine ⟨fun isolated => ?_, fun fed => ?_⟩
  · exact useless ((Bool.or_eq_true_iff.1 isolated).imp_right Or.inl)
  · obtain ⟨out, into⟩ := Bool.or_eq_false_iff.1 (Bool.eq_false_iff.2 fed)
    rw [wp_bind, wp_lift]
    refine ⟨fun kept hk => ?_, fun f _ => faults f⟩
    cases kept with
    | false => exact useless (Or.inr (Or.inr hk))
    | true => exact useful out into hk

theorem adds_copyArc (hn : new < w.graph.nodes.size) (hc : (w.graph.arc a).child < w.graph.nodes.size) :
    wp (copyArc p new a) (fun _ w' => Adds w w') (fun _ _ => True) w :=
  wp_copyArc (fun _ => trivial) (fun _ => .refl w) fun _ => (Workspace.links_copying p hn hc).adds

theorem Workspace.statesWith_down_up {m : Model} {down up : State} {states : BySide State}
    (h : w.statesWith m down up = .ok states) : states.down = down ∧ states.up = up := by
  unfold Workspace.statesWith at h
  dsimp only at h
  split_ifs at h
  all_goals
    obtain ⟨combined, -, h⟩ := Checked.bind_eq_ok.1 h
    obtain rfl := Except.ok.inj h
    exact ⟨rfl, rfl⟩

/-- A bundle becomes a node. The node is added, gets copies of the outgoing arcs one after another, then the arcs
of the bundle, and is deleted again if it turns out to be of no use. -/
theorem wp_splitOff {n : NodeId} {layer : Nat} {c : Candidate} {Q : Workspace → Prop}
    (copies moves : List ArcId → Workspace → Prop) (hw : w.graph.Wf) (hc : c.Enters layer n w)
    (faults : ∀ f, E (.fault f) w)
    (starts : ∀ states, w.statesWith p.model c.down (w.graph.state n .up) = .ok states →
      copies (w.graph.outgoing n).toList (w.splitNode layer states))
    (copy : ∀ a as w', Stocks layer w w' → a ∈ w.graph.outgoing n → copies (a :: as) w' →
      wp (copyArc p w.graph.nodes.size a) (fun _ => copies as) E w')
    (turns : ∀ w', Stocks layer w w' → copies [] w' → moves c.arcs w')
    (move : ∀ a as w', Sprouts layer w w' → c.Enters layer n w' → a ∈ c.arcs → moves (a :: as) w' →
      wp (moveArc p w.graph.nodes.size a) (fun _ w'' => moves as w'' ∧ Evolves w' w'') E w')
    (ends : ∀ w', Sprouts layer w w' → moves [] w' →
      wp (dropUseless p w.graph.nodes.size) (fun _ => Q) E (w'.schedule p .up .full w.graph.nodes.size)) :
    wp (splitOff p n layer c) (fun _ => Q) E w := by
  unfold splitOff
  rw [wp_bind, wp_get, wp_bind, wp_monadLift]
  refine ⟨fun states hs => ?_, fun f _ => faults f⟩
  have same : (w.splitNode layer states).graph.outgoing n = w.graph.outgoing n :=
    congrArg Node.outgoing (Workspace.node_splitNode_of_ne (Nat.ne_of_lt hc.lt))
  rw [wp_bind, wp_modifyGet, wp_bind, wp_modify, wp_bind, wp_get, wp_bind]
  change wp (((w.splitNode layer states).graph.outgoing n).toList.forM (copyArc p w.graph.nodes.size)) _ E
    (w.splitNode layer states)
  rw [same]
  refine wp_forM (fun as w' => (Stocks layer w w' ∧ ∀ a ∈ as, a ∈ w.graph.outgoing n) ∧ copies as w') _
    ⟨⟨.splitNode layer states w, fun a ha => Array.mem_toList_iff.1 ha⟩, starts states hs⟩
    (fun a as w' h => ?_) fun w' h => ?_
  · obtain ⟨⟨stocks, out⟩, hcopies⟩ := h
    have ha := out a List.mem_cons_self
    obtain ⟨on, -⟩ := hw.mem_outgoing.1 ha
    have hchild : (w'.graph.arc a).child < w'.graph.nodes.size := by
      rw [stocks.child a (Graph.lt_of_arcIsActive _ on)]
      exact Nat.lt_of_lt_of_le (hw.child_lt on) stocks.nodes
    refine wp.mono (wp.and (copy a as w' stocks ha hcopies) (adds_copyArc stocks.sprouts.new_lt hchild))
      (fun _ w'' k => ⟨⟨stocks.adds k.2, fun b hb => out b (List.mem_cons_of_mem _ hb)⟩, k.1⟩) fun _ _ k => k.1
  · rw [wp_bind]
    refine wp_forM (fun as w'' => (Sprouts layer w w'' ∧ ∀ a ∈ as, a ∈ c.arcs) ∧ moves as w'') _
      ⟨⟨h.1.1.sprouts, fun _ ha => ha⟩, turns w' h.1.1 h.2⟩ (fun a as w'' k => ?_) fun w'' k => ?_
    · obtain ⟨⟨sprouts, sub⟩, hmoves⟩ := k
      exact wp.mono (move a as w'' sprouts (hc.evolves sprouts.toEvolves) (sub a List.mem_cons_self) hmoves)
        (fun _ _ k => ⟨⟨sprouts.evolves k.2, fun b hb => sub b (List.mem_cons_of_mem _ hb)⟩, k.1⟩) fun _ _ k => k
    · rw [wp_bind, wp_modify]
      exact ends w'' k.1.1 k.2

end

end DecisionDiagrams
