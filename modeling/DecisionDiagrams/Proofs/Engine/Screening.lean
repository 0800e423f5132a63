import DecisionDiagrams.Proofs.Engine.Obeyed
import DecisionDiagrams.Proofs.Spec.Declared

/-! Every arc passes the tests of its layer, whatever happened since it was tested last. A test looks at the
states of both ends; when the down state of a node changes its outgoing arcs are tested again, and when its
up state changes, its incoming arcs are. What the relaxed flag of a state is does not matter. -/

namespace DecisionDiagrams

open Work Cascade

/-- The tests of a layer let a label pass between two states, as far as their properties go. A test need not
have looked at the state below. -/
def Model.Permits (m : Model) (l : Nat) (v : Int) (down up : State) : Prop :=
  ∀ check ∈ (m.rules l).arcChecks, ∃ s u, (∀ i, m.Alike .down i down s) ∧
    (∀ t, u = some t → ∀ i, m.Alike .up i up t) ∧
    check ⟨m.view .down s, none, u.map (m.view .up), none, l, v⟩ = .ok true

theorem Model.Permits.congr {m : Model} {l : Nat} {v : Int} {s s' t t' : State} (h : m.Permits l v s t)
    (hs : ∀ i, m.Alike .down i s s') (ht : ∀ i, m.Alike .up i t t') : m.Permits l v s' t' := by
  intro check hc
  obtain ⟨r, u, hr, hu, hpass⟩ := h check hc
  exact ⟨r, u, fun i => (hs i).symm.trans (hr i), fun x hx i => (ht i).symm.trans (hu x hx i), hpass⟩

theorem Model.permits_of_passes {m : Model} {l : Nat} {v : Int} {down up : State} {u : Option State}
    (h : m.arcPasses l v down none u none = .ok true) (hu : ∀ t, u = some t → t = up) :
    m.Permits l v down up := fun check hc =>
  ⟨down, u, fun _ => .refl _ _ _ _, fun t ht _ => hu t ht ▸ .refl _ _ _ _, Checked.of_allM h check hc⟩

/-- The states of the ends are all that tests look at: there are no combined states and no tests of nodes. -/
structure Model.Frugal (m : Model) : Prop where
  hasCombined : m.hasCombined = false
  nodeChecks : m.nodeChecks = []

/-- The sink has the up state it began with, and so has every node if no up state is ever computed. -/
def Grounded (p : Plan) (w : Workspace) : Prop := ∀ n < w.graph.nodes.size,
  w.graph.layerOf n = p.model.depth ∨ p.model.hasUp = false → w.graph.state n .up = p.model.fresh .up

/-- Every arc which is not skipped passes its tests. As long as a node has no up state, the arcs into it passed
whatever its up state will be; `seen` are the layers whose nodes have one. -/
structure Screened (p : Plan) (seen : Nat → Prop) (skip : ArcId → Prop) (w : Workspace) : Prop where
  ground : Grounded p w
  arcs : ∀ a, w.graph.arcIsActive a = true → ¬ skip a → ∀ up,
    (seen (w.graph.layerOf (w.graph.arc a).child) → up = w.graph.state (w.graph.arc a).child .up) →
    p.model.Permits (w.graph.layerOf (w.graph.arc a).parent) (w.graph.arc a).value
      (w.graph.state (w.graph.arc a).parent .down) up

/-- Every arc passes its tests. -/
abbrev AllScreened (p : Plan) (w : Workspace) : Prop := Screened p (fun _ => True) (fun _ => False) w

variable {p : Plan} {stale : Nat → Prop} {w w' : Workspace} {seen : Nat → Prop} {skip : ArcId → Prop}

/-- A new state leaves the ground as it is. -/
def Grounding (p : Plan) (w : Workspace) (n : NodeId) (side : Side) (s : State) : Prop :=
  side = .up → w.graph.layerOf n = p.model.depth ∨ p.model.hasUp = false → s = w.graph.state n .up

theorem Grounded.putState (h : Grounded p w) {n : NodeId} (hn : n < w.graph.nodes.size) {side : Side} {s : State}
    (hk : Grounding p w n side s) : Grounded p (w.putState n side s) := by
  intro m hm hl
  rw [show (w.putState n side s).graph.nodes.size = w.graph.nodes.size from Graph.size_putState w.graph n side s] at hm
  rw [Workspace.layerOf_putState hn] at hl
  rw [Workspace.state_putState hn]
  split_ifs with e
  · obtain ⟨rfl, rfl⟩ := e
    exact (hk rfl hl).trans (h m hm hl)
  · exact h m hm hl

namespace Screened

theorem mono {seen' : Nat → Prop} {skip' : ArcId → Prop} (h : Screened p seen skip w)
    (hseen : ∀ l, seen l → seen' l) (hskip : ∀ a, w.graph.arcIsActive a = true → skip a → skip' a) :
    Screened p seen' skip' w :=
  ⟨h.ground, fun a ha hk up hup => h.arcs a ha (fun hs => hk (hskip a ha hs)) up fun hs => hup (hseen _ hs)⟩

theorem shrink (h : Screened p seen skip w) (hs : Shrinks w w') : Screened p seen skip w' := by
  refine ⟨fun n hn hl => ?_, fun a ha hk up hup => ?_⟩
  · rw [hs.state]
    rw [hs.layerOf] at hl
    exact h.ground n (Nat.lt_of_lt_of_eq hn hs.nodes) hl
  · rw [hs.parent, hs.value, hs.layerOf, hs.state]
    rw [hs.child, hs.layerOf, hs.state] at hup
    exact h.arcs a (hs.arcActive a ha) hk up hup

theorem congr (h : Screened p seen skip w) (hg : w'.graph = w.graph) : Screened p seen skip w' := by
  refine ⟨?_, ?_⟩
  · unfold Grounded
    rw [hg]
    exact h.ground
  · rw [hg]
    exact h.arcs

/-- A new state of a node only matters to the arcs which it feeds. -/
theorem putState (h : Screened p seen skip w) {n : NodeId} (hn : n < w.graph.nodes.size) {side : Side} {s : State}
    (hk : Grounding p w n side s) (hdown : side = .down → ∀ a, (w.graph.arc a).parent = n → skip a)
    (hup : side = .up → seen (w.graph.layerOf n) → ∀ a, (w.graph.arc a).child = n → skip a) :
    Screened p seen skip (w.putState n side s) := by
  refine ⟨h.ground.putState hn hk, fun a ha ns up hu => ?_⟩
  change w.graph.arcIsActive a = true at ha
  change seen ((w.putState n side s).graph.layerOf (w.graph.arc a).child) →
    up = (w.putState n side s).graph.state (w.graph.arc a).child .up at hu
  show p.model.Permits ((w.putState n side s).graph.layerOf (w.graph.arc a).parent) (w.graph.arc a).value
    ((w.putState n side s).graph.state (w.graph.arc a).parent .down) up
  rw [Workspace.layerOf_putState hn, Workspace.state_putState hn] at hu ⊢
  rw [if_neg fun e : _ ∧ _ => ns (hdown e.2.symm a e.1)]
  refine h.arcs a ha ns up fun hs => ?_
  rw [hu hs, if_neg]
  rintro ⟨rfl, rfl⟩
  exact ns (hup rfl hs a rfl)

/-- A new state with the same properties does not matter at all. -/
theorem putAlike (h : AllScreened p w) {n : NodeId} (hn : n < w.graph.nodes.size) {d : Direction} {s : State}
    (hk : Grounding p w n d.side s) (hs : ∀ i, p.model.Alike d.side i (w.graph.state n d.side) s) :
    AllScreened p (w.putState n d.side s) := by
  have alike : ∀ (m : NodeId) (e : Direction) i, p.model.Alike e.side i (w.graph.state m e.side)
      ((w.putState n d.side s).graph.state m e.side) := by
    intro m e i
    rw [Workspace.state_putState hn]
    split_ifs with he
    · obtain ⟨rfl, he⟩ := he
      obtain rfl : e = d := by cases e <;> cases d <;> first | rfl | cases he
      exact hs i
    · exact .refl _ _ _ _
  refine ⟨h.ground.putState hn hk, fun a ha ns up hu => ?_⟩
  have hpermits := h.arcs a ha ns _ fun _ => rfl
  rw [hu trivial]
  show p.model.Permits ((w.putState n d.side s).graph.layerOf (w.graph.arc a).parent) (w.graph.arc a).value _ _
  rw [Workspace.layerOf_putState hn]
  exact hpermits.congr (alike _ .down) (alike _ .up)

end Screened

/-- An arc which was tested passes its tests. -/
theorem permits_of_keepsArc (hm : p.model.Frugal) {v : Int} {q n : NodeId}
    (h : w.keepsArc p.model v q n = .ok true) :
    p.model.Permits (w.graph.layerOf q) v (w.graph.state q .down) (w.graph.state n .up) := by
  have none_known : ∀ m, w.combined? p.model m = none := fun m => by
    unfold Workspace.combined? Workspace.combinedKnown
    rw [hm.hasCombined, Bool.and_false]
    rfl
  unfold Workspace.keepsArc at h
  rw [none_known, none_known] at h
  refine Model.permits_of_passes h fun t ht => ?_
  unfold Workspace.up? at ht
  split_ifs at ht
  exact (Option.some.inj ht).symm

/-! ### Removals -/

/-- What is left after a step which only takes away. No arc is left behind at a node which is gone. -/
structure Lessened (w w' : Workspace) : Prop extends Shrinks w w' where
  reached : Reached ([], w) → Reached ([], w')

namespace Lessened

theorem refl (w : Workspace) : Lessened w w := ⟨.refl w, id⟩

end Lessened

/-- A step which only takes away. -/
abbrev Lessens {α : Type} (p : Plan) (stale : Nat → Prop) (x : Work α) (w : Workspace) : Prop :=
  Secures p stale x (fun _ w' => Lessened w w') w

theorem lessens_cutArc (hp : p.Distinct) {a : ArcId} (ha : w.graph.arcIsActive a = true) :
    Secures p stale (cutArc p a) (fun _ w' => Lessened w w' ∧ w'.graph.arcIsActive a = false) w := by
  refine .of_tidies (tidies_cutArc hp ha) fun ht => ?_
  have hc := ht.toCensus.unhook ha
  refine wp.mono (pays_cutArc ht.toCensus ha []) (fun _ w' hs => ?_) fun _ _ _ => trivial
  have hsh := Steps.shrinks hs hc
  refine ⟨⟨(shrinks_unhook ht.wf ha).trans hsh, fun hr => ?_⟩, Bool.eq_false_iff.2 fun on => ?_⟩
  · exact Steps.reached hs hc (Reached.unhook hr ht.wf ha)
  · exact ((Graph.arcIsActive_detach (ht.wf.listed a) a).1 (hsh.arcActive a on)).1 rfl

theorem lessens_dropNode (hp : p.Distinct) (n : NodeId) : Lessens p stale (dropNode p n) w := by
  refine .of_tidies (tidies_dropNode hp n) fun ht => ?_
  refine wp_dropNode_of ht.toCensus (fun _ => .refl w) (fun _ _ => trivial) (fun on _ _ w' hs => ?_) fun _ _ _ _ => trivial
  have hc := ht.toCensus.retire on
  have hs₀ := shrinks_retire ht.wf on
  refine ⟨hs₀.trans (Steps.shrinks hs hc), fun hr => Steps.reached hs hc fun a ha => ?_⟩
  show (w.retire n).graph.isActive ((w.retire n).graph.arc a).child = true ∨ _
  rw [hs₀.child, Workspace.isActive_retire ht.wf]
  by_cases e : (w.graph.arc a).child = n
  · exact Or.inr (e ▸ List.mem_cons_self)
  · exact Or.inl ⟨e, (hr a (hs₀.arcActive a ha)).resolve_right List.not_mem_nil⟩

/-- What is needed to compute up states and to test incoming arcs again. -/
structure Sighted (p : Plan) (w : Workspace) (d : Direction) : Prop where
  hasUp : d = .up → p.model.hasUp = true
  upKnown : d = .up → w.upKnown = true
  reached : d = .up → Reached ([], w)

namespace Sighted

variable {d : Direction}

theorem down (p : Plan) (w : Workspace) : Sighted p w .down := ⟨nofun, nofun, nofun⟩

theorem lessen (h : Sighted p w d) (hs : Lessened w w') : Sighted p w' d :=
  ⟨h.hasUp, fun hd => hs.upKnown.trans (h.upKnown hd), fun hd => hs.reached (h.reached hd)⟩

theorem congr (h : Sighted p w d) (hg : w'.graph = w.graph) (hu : w'.upKnown = w.upKnown) : Sighted p w' d := by
  refine ⟨h.hasUp, fun hd => hu.trans (h.upKnown hd), fun hd => ?_⟩
  unfold Reached
  rw [hg]
  exact h.reached hd

theorem putState (h : Sighted p w d) {n : NodeId} (hn : n < w.graph.nodes.size) (side : Side) (s : State) :
    Sighted p (w.putState n side s) d := by
  refine ⟨h.hasUp, h.upKnown, fun hd a ha => (h.reached hd a ha).imp_left fun hon => ?_⟩
  show (w.putState n side s).graph.isActive (w.graph.arc a).child = true
  rw [Workspace.isActive_putState hn]
  exact hon

end Sighted

/-- A tidy workspace with screened arcs which goes on from another one. -/
abbrev Sifts (p : Plan) (stale seen : Nat → Prop) (skip : ArcId → Prop) (d : Direction) (w w' : Workspace) : Prop :=
  Upkept p stale w w' ∧ Screened p seen skip w' ∧ Sighted p w' d

/-- One in which all arcs are screened. -/
abbrev Sifted (p : Plan) (stale : Nat → Prop) (d : Direction) (w w' : Workspace) : Prop :=
  Sifts p stale (fun _ => True) (fun _ => False) d w w'

theorem Sifts.trans {d : Direction} {v : Workspace} (h : Upkept p stale v w) (k : Sifts p stale seen skip d w w') :
    Sifts p stale seen skip d v w' := ⟨⟨k.1.1, h.2.trans k.1.2⟩, k.2⟩

theorem Sifts.congr {d : Direction} {v : Workspace} (h : Sifts p stale seen skip d v w) (hu : Upkept p stale v w')
    (hg : w'.graph = w.graph) (hk : w'.upKnown = w.upKnown) : Sifts p stale seen skip d v w' :=
  ⟨hu, h.2.1.congr hg, h.2.2.congr hg hk⟩

theorem noter_sifts (hp : p.Distinct) (seen : Nat → Prop) (skip : ArcId → Prop) (d : Direction) (v : Workspace) :
    Noter p (Sifts p stale seen skip d v) fun _ _ => True where
  cached h := h.1.1.cached
  quiet hq h := Sifts.congr h ⟨hq.tidy h.1.1, h.1.2.trans (.of_quiet hq)⟩ hq.graph hq.upKnown
  faults _ _ := trivial
  cut on h := (lessens_cutArc hp on).goesOn h.1 fun _ _ k hs => ⟨k, h.2.1.shrink hs.1.toShrinks, h.2.2.lessen hs.1⟩
  drop n h := (lessens_dropNode hp n).goesOn h.1 fun _ _ k hs => ⟨k, h.2.1.shrink hs.toShrinks, h.2.2.lessen hs⟩
  note d r n h := Sifts.congr h ⟨h.1.1.schedule d r n, h.1.2.trans (.schedule p d r n _)⟩ Workspace.graph_schedule
    Workspace.upKnown_schedule

/-! ### New states -/

/-- An arc which passes its tests is not skipped any more. -/
theorem Screened.accept {a : ArcId} {rest : List ArcId}
    (h : Screened p (fun _ => True) (fun b => skip b ∨ b ∈ a :: rest) w)
    (ha : w.graph.arcIsActive a = true → p.model.Permits (w.graph.layerOf (w.graph.arc a).parent)
      (w.graph.arc a).value (w.graph.state (w.graph.arc a).parent .down)
      (w.graph.state (w.graph.arc a).child .up)) :
    Screened p (fun _ => True) (fun b => skip b ∨ b ∈ rest) w := by
  refine ⟨h.ground, fun b hb hk up hup => ?_⟩
  by_cases e : b = a
  · subst e
    rw [hup trivial]
    exact ha hb
  · refine h.arcs b hb (fun hs => hk (hs.imp_right fun hm => ?_)) up hup
    exact (List.mem_cons.1 hm).resolve_left e

/-- The arcs of a list are tested again. -/
theorem wp_retestArcs_screened (hp : p.Distinct) {keep : Workspace → Arc → Checked Bool} {d : Direction} (l : List ArcId)
    (hl : ∀ a ∈ l, ∀ w', Upkept p stale w w' → Sighted p w' d → w'.graph.arcIsActive a = true →
      keep w' (w'.graph.arc a) = .ok true → p.model.Permits (w'.graph.layerOf (w'.graph.arc a).parent)
        (w'.graph.arc a).value (w'.graph.state (w'.graph.arc a).parent .down)
        (w'.graph.state (w'.graph.arc a).child .up))
    (h : Sifts p stale (fun _ => True) (fun a => skip a ∨ a ∈ l) d w w) :
    wp (l.forM (retestArc p keep)) (fun _ => Sifts p stale (fun _ => True) skip d w) (fun _ _ => True) w := by
  refine wp_forM (fun rest w' => (∀ a ∈ rest, a ∈ l) ∧ Sifts p stale (fun _ => True) (fun a => skip a ∨ a ∈ rest) d w w')
    l ⟨fun _ ha => ha, h⟩ (fun a rest w₁ k => ?_) fun w' k => ?_
  · obtain ⟨hin, hk, hs, hd⟩ := k
    have hin' : ∀ b ∈ rest, b ∈ l := fun b hb => hin b (List.mem_cons_of_mem _ hb)
    refine wp_retestArc (fun _ _ => trivial) (fun off => ⟨hin', hk, hs.accept fun on => ?_, hd⟩)
      (fun on kept => ⟨hin', hk, hs.accept fun _ => hl a (hin a List.mem_cons_self) w₁ hk hd on kept, hd⟩) fun on _ => ?_
    · exact absurd (off.symm.trans on) nofun
    · refine (lessens_cutArc hp on).goesOn hk fun _ w₂ hk₂ hc => ⟨hin', hk₂, ?_, hd.lessen hc.1⟩
      exact (hs.shrink hc.1.toShrinks).accept fun on => absurd on (Bool.eq_false_iff.1 hc.2)
  · exact ⟨k.2.1, k.2.2.1.mono (fun _ h => h) fun a _ hs => hs.resolve_right List.not_mem_nil, k.2.2.2⟩

/-- The arcs which a node feeds are tested again. -/
theorem wp_retestOutgoing_screened (hp : p.Distinct) (hm : p.model.Frugal) {n : NodeId}
    (h : Sifts p stale (fun _ => True) (fun a => w.feeder .down a = n) .down w w) :
    wp (retestOutgoing p n) (fun _ => Sifted p stale .down w) (fun _ _ => True) w := by
  have hw := h.1.1.wf
  refine wp_retestArcs_screened hp _ (fun a ha w' hk _ on kept => ?_) ⟨h.1, h.2.1.mono (fun _ h => h) ?_, h.2.2⟩
  · obtain ⟨on₀, hpar⟩ := hw.mem_outgoing.1 (Array.mem_toList_iff.1 ha)
    have hpar' : (w'.graph.arc a).parent = n := (hk.2.parent a (Graph.lt_of_arcIsActive _ on₀)).trans hpar
    have hact := hk.1.parent_active on
    rw [hpar'] at hact
    rw [if_pos hact] at kept
    rw [hpar']
    exact permits_of_keepsArc hm kept
  · exact fun a on ha => Or.inr (Array.mem_toList_iff.2 (hw.mem_outgoing.2 ⟨on, ha⟩))

theorem wp_retestIncoming_screened (hp : p.Distinct) (hm : p.model.Frugal) {n : NodeId}
    (h : Sifts p stale (fun _ => True) (fun a => w.feeder .up a = n) .up w w) :
    wp (retestIncoming p n) (fun _ => Sifted p stale .up w) (fun _ _ => True) w := by
  have hw := h.1.1.wf
  refine wp_retestArcs_screened hp _ (fun a ha w' hk hd on kept => ?_) ⟨h.1, h.2.1.mono (fun _ h => h) ?_, h.2.2⟩
  · obtain ⟨on₀, hch⟩ := hw.mem_incoming.1 (Array.mem_toList_iff.1 ha)
    have hch' : (w'.graph.arc a).child = n := (hk.2.child a (Graph.lt_of_arcIsActive _ on₀)).trans hch
    have hact := (hd.reached rfl a on).resolve_right List.not_mem_nil
    change w'.graph.isActive (w'.graph.arc a).child = true at hact
    rw [hch'] at hact
    rw [if_pos hact] at kept
    rw [hch']
    exact permits_of_keepsArc hm kept
  · exact fun a on ha => Or.inr (Array.mem_toList_iff.2 (hw.mem_incoming.2 ⟨on, ha⟩))

theorem wp_rederive_frugal (hm : p.model.Frugal) (n : NodeId) (down up : IndexSet) {E : Stop → Workspace → Prop} :
    wp (rederive p n down up) (fun changes w' => changes = .empty ∧ w' = w) E w := by
  have unknown : w.combinedKnown p.model = false := by
    unfold Workspace.combinedKnown
    rw [hm.hasCombined, Bool.and_false]
  have never : w.combinedKnown p.model ≠ true := Bool.eq_false_iff.1 unknown
  exact wp_rederive_of (fun _ => ⟨rfl, rfl⟩) (fun h => absurd h never) (fun h => absurd h never) fun h => absurd h never

/-- A state which reads the same changes nothing, and otherwise only the arcs matter which the node feeds. -/
theorem Screened.adopt (h : AllScreened p w) {d : Direction} {n : NodeId} {new : State} (hn : n < w.graph.nodes.size)
    (hk : Grounding p w n d.side new) :
    ((w.altered p n d new d).isEmpty = true → AllScreened p (w.putState n d.side new)) ∧
      Screened p (fun _ => True) (fun a => (w.putState n d.side new).feeder d a = n) (w.putState n d.side new) := by
  rw [w.altered_self]
  refine ⟨fun he => h.putAlike hn hk fun i => ?_, (h.mono (fun _ h => h) fun _ _ => False.elim).putState hn hk ?_ ?_⟩
  · by_contra hne
    exact IndexSet.isEmpty_iff.1 he i (Model.mem_difference.2 hne)
  · intro hd a ha
    obtain rfl : d = .down := by cases d <;> first | rfl | cases hd
    exact ha
  · intro hd _ a ha
    obtain rfl : d = .up := by cases d <;> first | rfl | cases hd
    exact ha

/-- A node gets a new state, and the arcs which it feeds are tested again. -/
theorem wp_adoptState_screened (hp : p.Distinct) (hm : p.model.Frugal) {d : Direction} {n : NodeId}
    {new : State} (on : w.graph.isActive n = true) (hk : Grounding p w n d.side new)
    (h : Sifted p stale d w w) :
    wp (adoptState p d n new) (fun _ => Sifted p stale d w) (fun _ _ => True) w := by
  have hn := Graph.lt_of_isActive _ on
  have put := h.2.1.adopt hn hk
  let v := w.putState n d.side new
  have hv : Upkept p stale w v := ⟨h.1.1.putState hn _ _, .putState hn _ _⟩
  have sighted : Sighted p v d := h.2.2.putState hn d.side new
  have unchanged : IndexSet.empty.isEmpty = true := rfl
  -- the arcs are tested in the direction of the new state only
  have retest : ∀ both : IndexSet, both = .empty → ∀ {y : Work PUnit} {c : Bool},
      c = (!(w.altered p n d new d).isEmpty || !both.isEmpty) →
      wp y (fun _ => Sifted p stale d v) (fun _ _ => True) v →
      wp (if c = true then y else pure ⟨⟩) (fun _ => Sifted p stale d w)
        (fun _ _ => True) v := by
    rintro _ rfl y c rfl hy
    rw [wp_ite]
    refine ⟨fun _ => wp.mono hy (fun _ _ k => .trans hv k) fun _ _ _ => trivial, fun hc => ?_⟩
    exact ⟨hv, put.1 (by simpa [unchanged] using hc), sighted⟩
  have told : ∀ both w', Sifted p stale d w w' →
      wp (tellNeighbours p d n (w.altered p n d new d).isEmpty (w.altered p n d new) both)
        (fun _ => Sifted p stale d w) (fun _ _ => True) w' := fun both w' k =>
    wp_tellNeighbours (noter_sifts hp _ _ d w).note _ _ _ _ _ k
  have kept : ∀ w' : Workspace, w'.keepsNode p.model n ≠ .ok false := fun w' => by
    rw [keepsNode_of_nil hm.nodeChecks]
    nofun
  have adopted : wp (rederive p n (w.altered p n d new .down) (w.altered p n d new .up))
      (fun both w' => both = .empty ∧ w' = v) (fun _ _ => True) v := wp_rederive_frugal hm n _ _
  cases d with
  | down =>
    refine wp_adoptState _ (fun both w' => both = .empty ∧ Sifted p stale .down w w')
      (fun _ => Sifted p stale .down w) (fun _ => h) adopted (fun _ _ _ _ => trivial)
      (fun _ w' _ hno => absurd hno (kept w')) ?_ ?_ told
    · rintro both _ ⟨e, rfl⟩
      refine wp.mono (retest both e rfl (wp_retestOutgoing_screened hp hm ⟨⟨hv.1, .refl v⟩, put.2, sighted⟩))
        (fun _ _ k => ⟨e, k⟩) fun _ _ _ => trivial
    · rintro both w' ⟨rfl, k⟩
      rw [wp_ite]
      exact ⟨fun hc => absurd hc (by simp [Workspace.altered, unchanged]), fun _ => k⟩
  | up =>
    refine wp_adoptState _ (fun both w' => both = .empty ∧ w' = v)
      (fun _ => Sifted p stale .up w) (fun _ => h) adopted (fun _ _ _ _ => trivial)
      (fun _ w' _ hno => absurd hno (kept w')) ?_ ?_ told
    · rintro both w' ⟨rfl, k⟩
      rw [wp_ite]
      exact ⟨fun hc => absurd hc (by simp [Workspace.altered, unchanged]), fun _ => ⟨rfl, k⟩⟩
    · rintro both _ ⟨e, rfl⟩
      refine retest both e ?_ (wp_retestIncoming_screened hp hm ⟨⟨hv.1, .refl v⟩, put.2, sighted⟩)
      rw [sighted.upKnown rfl, Bool.true_and]

/-- The sink keeps its up state when it is computed again, as no arc leaves it. -/
theorem grounding_arrived (hc : Census p w) {d : Direction} (hup : d = .up → p.model.hasUp = true) {n : NodeId}
    {r : Demand} {new : State}
    (h : w.arrived p d (w.feedLayer d n) (w.bundles p d n) (w.graph.state n d.side) r = .ok new) :
    Grounding p w n d.side new := by
  rintro hd hl
  obtain rfl : d = .up := by cases d <;> first | rfl | cases hd
  replace hl := hl.resolve_right fun hno => absurd (hno.symm.trans (hup rfl)) nofun
  have hnil : w.bundles p .up n = [] := by
    refine List.eq_nil_iff_forall_not_mem.2 fun b hb => ?_
    obtain ⟨filled, hhas⟩ := w.bundles_enters hc.wf p .up n
    obtain ⟨v, hv⟩ := filled b hb
    obtain ⟨a, ha, hn, -⟩ := (hhas b.1 v).2 ⟨b, hb, rfl, hv⟩
    have hlt := hc.parent_lt_depth ha
    rw [show (w.graph.arc a).parent = n from hn, hl] at hlt
    exact absurd hlt (Nat.lt_irrefl _)
  rw [hnil] at h
  exact (Except.ok.inj h).symm

theorem wp_recompute_screened (hp : p.Distinct) (hm : p.model.Frugal) (d : Direction) (n : NodeId) (r : Demand)
    {v : Workspace} (h : Sifted p stale d v w) :
    wp (recompute p d n r) (fun _ => Sifted p stale d v) (fun _ _ => True) w := by
  refine wp_recompute h.1.1.cached (fun _ => h) (fun _ _ _ => trivial) fun on new w₁ hq hnew => ?_
  have ht : Tidy p stale [] w₁ := hq.tidy h.1.1
  have hk : Grounding p w₁ n d.side new := by
    unfold Grounding
    rw [hq.graph]
    exact grounding_arrived h.1.1.toCensus h.2.2.hasUp hnew
  have h₁ := Sifts.congr h ⟨ht, h.1.2.trans (.of_quiet hq)⟩ hq.graph hq.upKnown
  exact wp.mono (wp_adoptState_screened hp hm (hq.graph ▸ on) hk ⟨⟨ht, .refl w₁⟩, h₁.2⟩)
    (fun _ _ k => .trans h₁.1 k) fun _ _ _ => trivial

theorem secures_recomputeLayer_screened (hp : p.Distinct) (hm : p.model.Frugal) (d : Direction) (layer : Nat)
    (h : AllScreened p w) (hsee : Sighted p w d) :
    Secures p stale (recomputeLayer p d layer) (fun _ w' => AllScreened p w') w := fun ht => by
  refine wp.mono (wp_recomputeLayer (fun _ => Sifted p stale d w)
    ⟨⟨ht.congr rfl rfl rfl ht.cached, .of_graph rfl (.refl _) id id⟩, h.congr rfl, hsee.congr rfl rfl⟩
    (fun e _ _ k => wp_recompute_screened hp hm d e.1 e.2 k) fun _ k => k) (fun _ _ k => ⟨k.1.1, k.1.2, k.2.1⟩)
    fun _ _ k => k

/-- Until the up states are computed, the arcs passed whatever these will be. -/
abbrev EarlyScreened (p : Plan) (w : Workspace) : Prop := Screened p (· = p.model.depth) (fun _ => False) w

theorem wp_completeNode_screened (hp : p.Distinct) (hm : p.model.Frugal) (hup : p.model.hasUp = true) {layer : Nat}
    {n : NodeId} {v : Workspace} (hl : w.graph.layerOf n = layer)
    (h : Sifts p stale (· = p.model.depth) (fun _ => False) .down v w) :
    wp (completeNode p layer n) (fun _ => Sifts p stale (· = p.model.depth) (fun _ => False) .down v)
      (fun _ _ => True) w := by
  let J := Sifts p stale (· = p.model.depth) (fun _ => False) .down v
  have N : Noter p J fun _ _ => True := noter_sifts hp _ _ _ _
  refine wp_completeNode J J h.1.1.cached (fun _ => h) (fun _ _ _ => trivial) (fun _ _ => h)
    (fun on hlt up w₁ hq _ => ?_) (fun _ _ _ => trivial) (fun _ _ k => k)
    (fun has => absurd (hm.hasCombined.symm.trans has) nofun) (fun _ _ _ => trivial) (fun _ k _ => N.drop n k)
    fun _ k => wp_when (N.toPruner.retestOutgoing n k) k
  have k := N.quiet hq h
  have hn : n < w₁.graph.nodes.size := hq.graph ▸ Graph.lt_of_isActive _ on
  have inner : w₁.graph.layerOf n ≠ p.model.depth := by
    rw [hq.graph, hl]
    exact Nat.ne_of_lt hlt
  refine ⟨⟨k.1.1.putState hn _ _, k.1.2.trans (.putState hn _ _)⟩, ?_, .down p _⟩
  refine k.2.1.putState hn (fun _ e => absurd (e.resolve_right ?_) inner) nofun fun _ hs => absurd hs inner
  rw [hup]
  nofun

/-- When all up states are known, all arcs pass their tests. -/
theorem secures_completeNodes_screened (hp : p.Distinct) (hm : p.model.Frugal) (hup : p.model.hasUp = true) (h : EarlyScreened p w) :
    Secures p stale (completeNodes p) (fun _ w' => AllScreened p w' ∧ w'.upKnown = true) w := fun ht => by
  let v : Workspace := { w with upKnown := true }
  let I := Sifts p stale (· = p.model.depth) (fun _ => False) .down v
  have hv : Evolves w v := .of_graph rfl (.refl _) (fun _ => rfl) id
  refine wp_completeNodes (fun _ => I)
    (fun layer _ ns w' => (∀ n ∈ ns, n < w'.graph.nodes.size ∧ w'.graph.layerOf n = layer) ∧ I w')
    ⟨⟨ht.congr rfl rfl rfl ht.cached, .refl v⟩, h.congr rfl, .down p v⟩ (fun layer _ w' k => ⟨fun n hn => ?_, k⟩)
    (fun layer _ n ns w' k => ?_) (fun _ _ _ k => k.2) fun w' k => ?_
  · obtain ⟨on, hl⟩ := k.1.1.wf.mem_layer.1 (Array.mem_toList_iff.1 hn)
    exact ⟨Graph.lt_of_isActive _ on, hl⟩
  · have step := wp_completeNode_screened hp hm hup (k.1 n List.mem_cons_self).2 k.2
    refine wp.mono (wp.and step (tidies_completeNode hp layer n k.2.1.1)) (fun _ w'' l => ⟨fun m hm => ?_, l.1⟩)
      fun _ _ _ => trivial
    obtain ⟨hlt, hl⟩ := k.1 m (List.mem_cons_of_mem _ hm)
    exact ⟨Nat.lt_of_lt_of_le hlt l.2.2.nodes, (l.2.2.layerOf m hlt).trans hl⟩
  · exact ⟨k.1.1, hv.trans k.1.2, k.2.1.mono (fun _ _ => trivial) fun _ _ => id, k.1.2.upKnown rfl⟩

end DecisionDiagrams
