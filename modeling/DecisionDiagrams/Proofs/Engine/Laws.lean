import DecisionDiagrams.Proofs.Engine.Covered
import DecisionDiagrams.Proofs.Engine.Ebbing
import DecisionDiagrams.Proofs.Spec.Readers
import DecisionDiagrams.Proofs.Work.Secures

/-! Laws which tie the state of a node to what enters it: the neighbours with an arc to the node, and the
labels of these arcs. A law is looked at for every property and for the relaxed flag. While a diagram is
worked on, a law may be broken at nodes which wait to be computed, and only there; so it holds everywhere
once nothing waits any more. -/

namespace DecisionDiagrams

open Work Cascade

namespace Model

variable {m : Model} {d : Direction} {l : Nat} {x y : State} {o : Option Nat}

/-- Whether the change from one state of a neighbour to another leaves a property, or the flag, alone. -/
def Unaffected (m : Model) (d : Direction) (l : Nat) (x y : State) : Option Nat → Prop
  | none => x.relaxed = y.relaxed
  | some i => i ∉ m.dependents d l ((m.layout d.side).difference x y) .empty

theorem not_mem_dependents_empty {i : Nat} : i ∉ m.dependents d l .empty .empty := by
  rw [mem_dependents_iff]
  rintro (⟨j, hj, -⟩ | ⟨j, hj, -⟩) <;> exact IndexSet.not_mem_empty hj

theorem Unaffected.refl (m : Model) (d : Direction) (l : Nat) (x : State) :
    ∀ o, m.Unaffected d l x x o
  | none => rfl
  | some i => by
    unfold Unaffected Layout.difference
    rw [if_pos rfl]
    exact not_mem_dependents_empty

/-- What is affected by a change is computed again when the neighbours are told. -/
theorem covers_of_affected (hm : m.ReadsOwn) (combinedChanges : IndexSet)
    (h : ¬ m.Unaffected d l x y o) {r : Demand}
    (hr : r = if ((m.layout d.side).difference x y).isEmpty then .full
      else .only (m.dependents d l ((m.layout d.side).difference x y) combinedChanges)) :
    r.isEmpty = false ∧ r.Covers o := by
  subst hr
  split_ifs with he
  · exact ⟨rfl, trivial⟩
  unfold Unaffected at h
  generalize (m.layout d.side).difference x y = changed at h he
  rw [IndexSet.isEmpty_iff, not_forall] at he
  obtain ⟨j, hj⟩ := he
  rw [not_not] at hj
  have hd : j ∈ m.dependents d l changed combinedChanges := by
    rw [mem_dependents_iff]
    refine Or.inl ⟨j, hj, ?_⟩
    by_cases ha : j ∈ m.active d l
    · exact Or.inr ⟨hm d l j ha, ha⟩
    · exact Or.inl ⟨rfl, ha⟩
  refine ⟨Bool.eq_false_iff.2 fun he => IndexSet.isEmpty_iff.1 he j hd, ?_⟩
  cases o with
  | none => trivial
  | some i =>
    show i ∈ m.dependents d l changed combinedChanges
    rw [mem_dependents_iff]
    refine (mem_dependents_iff.1 (not_not.1 h)).imp_right ?_
    rintro ⟨j, hj, -⟩
    exact absurd hj IndexSet.not_mem_empty

end Model

/-! ### What enters a node -/

namespace Workspace

/-- Whether an arc with the given label enters `n` from a neighbour. -/
def enters (w : Workspace) (d : Direction) (n q : NodeId) (v : Int) : Prop :=
  ∃ a, w.graph.arcIsActive a = true ∧ endOn w.graph d a = n ∧ w.feeder d a = q ∧
    (w.graph.arc a).value = v

/-- Whether the state of a node is computed from its neighbours: not at the ends of the diagram, and up
states only once they are known. -/
def Sown (p : Plan) (w : Workspace) : Direction → NodeId → Prop
  | .down, n => 0 < w.graph.layerOf n
  | .up, n => p.model.hasUp = true ∧ w.graph.layerOf n < p.model.depth ∧ w.upKnown = true

variable {p : Plan} {w w' : Workspace} {d e : Direction} {n q : NodeId} {v : Int} {r : Demand}
  {o : Option Nat}

theorem Sown.congr (h : w.Sown p d n) (hlayer : w'.graph.layerOf n = w.graph.layerOf n)
    (hup : w'.upKnown = w.upKnown) : w'.Sown p d n := by
  cases d with
  | down => simpa only [Sown, hlayer] using h
  | up => simpa only [Sown, hlayer, hup] using h

theorem enters_congr (hactive : ∀ a, w'.graph.arcIsActive a = w.graph.arcIsActive a)
    (hparent : ∀ a, (w'.graph.arc a).parent = (w.graph.arc a).parent)
    (hchild : ∀ a, (w'.graph.arc a).child = (w.graph.arc a).child)
    (hvalue : ∀ a, (w'.graph.arc a).value = (w.graph.arc a).value) :
    w'.enters d n = w.enters d n := by
  unfold enters endOn feeder
  cases d <;> simp only [hactive, hparent, hchild, hvalue]

theorem enters_of_shrinks (hs : Shrinks w w') (h : w'.enters d n q v) : w.enters d n q v := by
  obtain ⟨a, ha, hn, hq, hv⟩ := h
  refine ⟨a, hs.arcActive a ha, ?_, ?_, ?_⟩
  · rw [← hn]
    cases d <;> simp only [endOn, hs.parent, hs.child]
  · rw [← hq]
    cases d <;> simp only [feeder, hs.parent, hs.child]
  · rw [← hs.value, hv]

theorem enters_unhook_of_ne (hw : w.graph.Wf) {a : ArcId} (hn : n ≠ endOn w.graph d a) :
    (w.unhook a).enters d n = w.enters d n := by
  have hl := hw.listed a
  have ends : ∀ b, endOn (w.unhook a).graph d b = endOn w.graph d b := fun b => by
    show endOn (w.graph.detach a) d b = _
    cases d
    · exact Graph.child_detach hl b
    · exact Graph.parent_detach hl b
  have feeds : ∀ b, (w.unhook a).feeder d b = w.feeder d b := fun b => by
    cases d
    · exact Graph.parent_detach hl b
    · exact Graph.child_detach hl b
  funext q v
  refine propext ⟨?_, ?_⟩
  · rintro ⟨b, hb, h⟩
    rw [ends, feeds, show (w.unhook a).graph = w.graph.detach a from rfl, Graph.value_detach hl] at h
    exact ⟨b, ((Graph.arcIsActive_detach hl b).1 hb).2, h⟩
  · rintro ⟨b, hb, h⟩
    refine ⟨b, (Graph.arcIsActive_detach hl b).2 ⟨?_, hb⟩, ?_⟩
    · rintro rfl
      exact hn h.1.symm
    · rwa [ends, feeds, show (w.unhook a).graph = w.graph.detach a from rfl, Graph.value_detach hl]

theorem extends_schedule (w : Workspace) (d : Direction) (r : Demand) (n : NodeId) :
    w.agenda.Extends (w.schedule p d r n).agenda := by
  unfold schedule
  dsimp only
  split_ifs
  · exact Agenda.extends_note _ _ _ _ _
  · exact .refl _

/-- A node which is computed from its neighbours waits once it was noted. -/
theorem covers_schedule (hx : p.options.isExact = false) (on : w.graph.isActive n = true)
    (hs : w.Sown p d n) (hl : w.graph.layerOf n < (w.agenda.get d).size) (hr : r.isEmpty = false)
    (ho : r.Covers o) :
    ((w.schedule p d r n).agenda.waiting d (w.graph.layerOf n)).Covers n o := by
  have e : w.schedule p d r n =
      { w with agenda := w.agenda.note d n (w.graph.layerOf n) r } := by
    unfold schedule
    dsimp only
    refine if_pos ?_
    have on' : (w.graph.node n).active = true := on
    rw [hx, on']
    cases d with
    | down =>
      have hs' : 0 < (w.graph.node n).layer := hs
      simp [hs']
    | up =>
      have hs' : (w.graph.node n).layer < p.model.depth := hs.2.1
      simp [hs', hs.1]
  rw [e]
  exact Agenda.covers_note_self hl hr ho

end Workspace

/-! ### Laws -/

/-- A law for one direction. `holds l ins at s o` says it of property or flag `o` of a state `s`, where
`ins` tells which neighbours enter over the arcs of layer `l`, with which labels, and `at` which states they
have. It has to hold of states which are computed from the neighbours, and of states which are blended when
a node is added; it may not depend on what is not told to the nodes behind a change. -/
structure Law (p : Plan) (d : Direction) where
  /-- The labels which arcs of a layer may have. -/
  label : Nat → Int → Prop
  holds : Nat → (NodeId → Int → Prop) → (NodeId → State) → State → Option Nat → Prop
  moved : ∀ {l ins σ σ' s o}, l < p.model.depth → (∀ q v, ins q v → label l v) →
    (∀ q v, ins q v → p.model.Unaffected d l (σ q) (σ' q) o) → holds l ins σ s o → holds l ins σ' s o
  /-- Exact diagrams lose arcs, but never compute a node again. -/
  thinned : p.options.isExact = true → ∀ {l ins ins' σ s o}, (∀ q v, ins' q v → ins q v) →
    holds l ins σ s o → holds l ins' σ s o
  arrived : p.options.isExact = false → ∀ {w : Workspace} {l ins bs old r s o}, l < p.model.depth →
    (∀ q v, ins q v → label l v) → bs ≠ [] → (∀ b ∈ bs, ∃ v, v ∈ b.2) →
    (p.options.groupValues = false → ∀ b ∈ bs, ∃ v, b.2 = .singleton v) →
    (∀ q v, ins q v ↔ Bundle.Has bs q v) → w.arrived p d l bs old r = .ok s →
    r.Covers o ∨ holds l ins (fun q => w.graph.state q d.side) old o →
    holds l ins (fun q => w.graph.state q d.side) s o
  blended : d = .down → ∀ {w : Workspace} {l ins ways s o}, l < p.model.depth →
    (∀ q v, ins q v → label l v) → (∀ q v, ins q v ↔ (q, v) ∈ ways) →
    Reaches p.model (w.follows p l) ways s → holds l ins (fun q => w.graph.state q d.side) s o

/-- What may be amiss while a step is under way. -/
structure Slack where
  /-- Nodes which need no arcs. -/
  bare : NodeId → Prop := fun _ => False
  /-- Nodes whose law is not looked at. -/
  late : NodeId → Prop := fun _ => False
  /-- What was taken from the agenda but not computed yet. -/
  todo : Waiting := []
  /-- What the nodes fed by a node have not been told yet. -/
  news : NodeId → Option Nat → Prop := fun _ _ => False

/-- Why a node of a relaxed diagram may break its law for now. -/
def Excused (p : Plan) (d : Direction) (x : Slack) (c : Config) (n : NodeId) (o : Option Nat) : Prop :=
  p.options.isExact = false ∧
    ((c.2.agenda.waiting d (c.2.graph.layerOf n)).Covers n o ∨ Waiting.Covers x.todo n o ∨
      Debt.settle d n ∈ c.1 ∨ ∃ q v, c.2.enters d n q v ∧ x.news q o)

/-- There is exactly one node on a layer. -/
def Sole (w : Workspace) (l : Nat) : Prop :=
  ∃ n, w.graph.isActive n = true ∧ w.graph.layerOf n = l ∧
    ∀ m, w.graph.isActive m = true → w.graph.layerOf m = l → m = n

/-- A diagram down to layer `top` in one piece: every node lies on a path from the only node of the first
layer, and of the last one once it is there. -/
structure Whole (p : Plan) (label : Nat → Int → Prop) (top : Nat) (bare : NodeId → Prop) (c : Config) :
    Prop where
  fed : Fed top (fun _ => bare) c
  reached : Reached c
  low : ∀ n < c.2.graph.nodes.size, c.2.graph.layerOf n ≤ top
  root : Sole c.2 0
  /-- The state of the root stays as it was given. -/
  seed : ∀ n, c.2.graph.isActive n = true → c.2.graph.layerOf n = 0 →
    c.2.graph.state n .down = p.model.fresh .down
  sink : top = p.model.depth → Sole c.2 top
  labelled : ∀ a, c.2.graph.arcIsActive a = true →
    label (c.2.graph.layerOf (c.2.graph.arc a).parent) (c.2.graph.arc a).value
  sized : ∀ e, (c.2.agenda.get e).size = p.model.depth + 1

/-- Whether the law holds of a node. -/
def Law.Of {p : Plan} {d : Direction} (L : Law p d) (w : Workspace) (n : NodeId) (o : Option Nat) : Prop :=
  L.holds (w.feedLayer d n) (w.enters d n) (fun q => w.graph.state q d.side) (w.graph.state n d.side) o

/-- Every node obeys the law, or has an excuse. -/
def Law.Abide {p : Plan} {d : Direction} (L : Law p d) (x : Slack) (c : Config) : Prop :=
  ∀ n, c.2.graph.isActive n = true → c.2.Sown p d n → ¬ x.late n →
    ∀ o, Excused p d x c n o ∨ L.Of c.2 n o

structure Lawful {p : Plan} {d : Direction} (L : Law p d) (top : Nat) (x : Slack) (c : Config) : Prop
    extends Whole p L.label top x.bare c where
  abide : L.Abide x c

section

variable {p : Plan} {d : Direction} {L : Law p d} {top : Nat} {x : Slack} {c c' : Config}

theorem Law.Of.congr {w w' : Workspace} {n : NodeId} {o : Option Nat} (h : L.Of w n o)
    (hlayer : w'.graph.layerOf n = w.graph.layerOf n)
    (hstate : ∀ m, w'.graph.state m d.side = w.graph.state m d.side)
    (henters : w'.enters d n = w.enters d n) : L.Of w' n o := by
  have hf : w'.feedLayer d n = w.feedLayer d n := by cases d <;> simp only [Workspace.feedLayer, hlayer]
  unfold Law.Of
  rw [hf, henters, hstate n, funext hstate]
  exact h

/-- Steps which leave the arcs and the states alone. -/
theorem Law.Abide.mono (h : L.Abide x c)
    (hactive : ∀ n, c'.2.graph.isActive n = true → c.2.graph.isActive n = true)
    (hlayer : ∀ n, c'.2.graph.layerOf n = c.2.graph.layerOf n) (hup : c'.2.upKnown = c.2.upKnown)
    (hstate : ∀ n, c'.2.graph.state n d.side = c.2.graph.state n d.side)
    (henters : ∀ n, c'.2.enters d n = c.2.enters d n) (hagenda : c.2.agenda.Extends c'.2.agenda)
    (hdebts : ∀ n, c'.2.graph.isActive n = true → c'.2.Sown p d n → Debt.settle d n ∈ c.1 →
      Debt.settle d n ∈ c'.1 ∨ (p.options.isExact = false →
        ∀ o, (c'.2.agenda.waiting d (c'.2.graph.layerOf n)).Covers n o)) : L.Abide x c' := by
  intro n on hs hn o
  have hs' : c.2.Sown p d n := hs.congr (hlayer n).symm hup.symm
  refine (h n (hactive n on) hs' hn o).imp ?_ fun h => h.congr (hlayer n) hstate (henters n)
  rintro ⟨hx, hw⟩
  rcases hw with hw | hw | hw | ⟨q, v, hq, hw⟩
  · exact ⟨hx, Or.inl ((hlayer n).symm ▸ hagenda.covers hw)⟩
  · exact ⟨hx, Or.inr (Or.inl hw)⟩
  · rcases hdebts n on hs hw with hw | hw
    · exact ⟨hx, Or.inr (Or.inr (Or.inl hw))⟩
    · exact ⟨hx, Or.inl (hw hx o)⟩
  · exact ⟨hx, Or.inr (Or.inr (Or.inr ⟨q, v, henters n ▸ hq, hw⟩))⟩

end

/-! ### Removals -/

namespace Cascade

variable {p : Plan} {d : Direction} {L : Law p d} {top : Nat} {x : Slack} {w w' : Workspace}

/-- The nodes on the first and on the last layer are never deleted. -/
theorem Step.end_active {c c' : Config} (h : Step p c c') (hc : Census p c.2) {n : NodeId}
    (hn : c.2.graph.isActive n = true)
    (hl : c.2.graph.layerOf n = 0 ∨ c.2.graph.layerOf n = p.model.depth) :
    c'.2.graph.isActive n = true := by
  cases h with
  | note => rwa [Workspace.graph_schedule]
  | @retire _ m _ _ _ _ root sink =>
    refine (Workspace.isActive_retire hc.wf n).2 ⟨?_, hn⟩
    rintro rfl
    exact hl.elim root sink
  | unhook => rwa [Workspace.isActive_unhook hc.wf]
  | visit => exact hn
  | gone => exact hn
  | drained => exact hn
  | forget => exact hn

theorem Step.sole {c c' : Config} (h : Step p c c') (hc : Census p c.2) {l : Nat}
    (hl : l = 0 ∨ l = p.model.depth) (hs : Sole c.2 l) : Sole c'.2 l := by
  obtain ⟨n, hn, e, only⟩ := hs
  have hsh := h.shrinks hc
  refine ⟨n, h.end_active hc hn (e ▸ hl), (hsh.layerOf n).trans e, fun m hm em => ?_⟩
  exact only m (hsh.active m hm) ((hsh.layerOf m).symm.trans em)

theorem Step.extends_agenda {c c' : Config} (h : Step p c c') : c.2.agenda.Extends c'.2.agenda := by
  cases h with
  | note => exact Workspace.extends_schedule _ _ _ _
  | retire => rw [Workspace.agenda_retire]; exact .refl _
  | unhook => rw [Workspace.agenda_unhook]; exact .refl _
  | visit => exact .refl _
  | gone => exact .refl _
  | drained => exact .refl _
  | forget => exact .refl _

theorem Step.whole {label : Nat → Int → Prop} {bare : NodeId → Prop} {c c' : Config} (h : Step p c c')
    (hc : Census p c.2) (hw : Whole p label top bare c) : Whole p label top bare c' := by
  have hs := h.shrinks hc
  refine ⟨h.fed hc hw.fed, h.reached hc hw.reached, fun n hn => ?_, h.sole hc (Or.inl rfl) hw.root,
    fun n hn hl => ?_, fun e => h.sole hc (Or.inr e) (hw.sink e), fun a ha => ?_, fun e => ?_⟩
  · rw [hs.layerOf]
    exact hw.low n (Nat.lt_of_lt_of_eq hn hs.nodes)
  · rw [hs.state]
    exact hw.seed n (hs.active n hn) ((hs.layerOf n).symm.trans hl)
  · rw [hs.parent, hs.layerOf, hs.value]
    exact hw.labelled a (hs.arcActive a ha)
  · exact (h.extends_agenda.size e).trans (hw.sized e)

/-- Taking an arc out touches only the law of the node it fed, which is then to be settled. -/
theorem abide_unhook (hw : w.graph.Wf) {debts : List Debt} {a : ArcId}
    (h : L.Abide x (debts, w)) (ha : w.graph.arcIsActive a = true) :
    L.Abide x (owed w a debts, w.unhook a) := by
  intro n on hs hn o
  have hsh := shrinks_unhook hw ha
  have on' : w.graph.isActive n = true := hsh.active n on
  have hs' : w.Sown p d n := Workspace.Sown.congr hs (hsh.layerOf n).symm hsh.upKnown.symm
  by_cases he : n = endOn w.graph d a
  · cases hx : p.options.isExact with
    | false =>
      refine Or.inl ⟨hx, Or.inr (Or.inr (Or.inl ?_))⟩
      subst he
      cases d
      · exact List.mem_cons_of_mem _ List.mem_cons_self
      · exact List.mem_cons_self
    | true =>
      refine Or.inr ?_
      have hold := (h n on' hs' hn o).resolve_left fun he => absurd he.1 (by rw [hx]; simp)
      have hf : (w.unhook a).feedLayer d n = w.feedLayer d n := by
        cases d <;> simp only [Workspace.feedLayer, hsh.layerOf]
      unfold Law.Of
      rw [hf, hsh.state, funext fun q => hsh.state q d.side]
      exact L.thinned hx (fun q v => Workspace.enters_of_shrinks hsh) hold
  · have henters := Workspace.enters_unhook_of_ne (d := d) hw he
    refine (h n on' hs' hn o).imp ?_ fun h =>
      h.congr (hsh.layerOf n) (fun m => hsh.state m d.side) henters
    rintro ⟨hx, h⟩
    refine ⟨hx, ?_⟩
    rw [show ((owed w a debts, w.unhook a) : Config).2 = w.unhook a from rfl, henters, hsh.layerOf,
      Workspace.agenda_unhook]
    exact h.imp_right (Or.imp_right (Or.imp_left fun hd =>
      List.mem_cons_of_mem _ (List.mem_cons_of_mem _ hd)))

theorem Step.abide {c c' : Config} (h : Step p c c') (hc : Census p c.2)
    (hsized : ∀ e, (c.2.agenda.get e).size = p.model.depth + 1) (ha : L.Abide x c) : L.Abide x c' := by
  -- apart from arcs taken out no step changes what enters a node
  have mono : (∀ n, c'.2.enters d n = c.2.enters d n) →
      (∀ n, c'.2.graph.isActive n = true → c'.2.Sown p d n → Debt.settle d n ∈ c.1 →
        Debt.settle d n ∈ c'.1 ∨ (p.options.isExact = false →
          ∀ o, (c'.2.agenda.waiting d (c'.2.graph.layerOf n)).Covers n o)) → L.Abide x c' := by
    have hs := h.shrinks hc
    exact fun he hd =>
      ha.mono hs.active hs.layerOf hs.upKnown (fun m => hs.state m d.side) he h.extends_agenda hd
  cases h with
  | visit => exact mono (fun _ => rfl) fun n _ _ hd => Or.inl (List.mem_cons_of_mem _ hd)
  | gone off =>
    refine mono (fun _ => rfl) fun n on _ hd => Or.inl ((List.mem_cons.1 hd).resolve_left fun e => ?_)
    obtain ⟨-, rfl⟩ := Debt.settle.inj e
    exact absurd on (by rw [off]; simp)
  | @note e m debts w on fed =>
    have hg : (w.schedule p e .full m).graph = w.graph := Workspace.graph_schedule
    refine mono (fun n => Workspace.enters_congr ?_ ?_ ?_ ?_) fun n on' hs hd => ?_
    · exact fun a => by rw [hg]
    · exact fun a => by rw [hg]
    · exact fun a => by rw [hg]
    · exact fun a => by rw [hg]
    · rcases List.mem_cons.1 hd with e | hd
      · obtain ⟨rfl, rfl⟩ := Debt.settle.inj e
        refine Or.inr fun hx o => ?_
        show ((w.schedule p d .full n).agenda.waiting d ((w.schedule p d .full n).graph.layerOf n)).Covers n o
        rw [hg]
        refine Workspace.covers_schedule hx on (hs.congr ?_ Workspace.upKnown_schedule.symm) ?_ rfl trivial
        · rw [hg]
        · rw [hsized d]
          exact Nat.lt_succ_of_le (hc.layerOf_le on)
      · exact Or.inl hd
  | @retire e m debts w on bare root sink =>
    refine mono (fun n => ?_) fun n on' _ hd => Or.inl ?_
    · have hs := shrinks_retire hc.wf on
      refine Workspace.enters_congr (fun a => ?_) hs.parent hs.child hs.value
      show (w.graph.withdraw m).arcIsActive a = w.graph.arcIsActive a
      rw [Graph.arcIsActive, Graph.arc_withdraw]
      rfl
    · refine List.mem_cons_of_mem _ ((List.mem_cons.1 hd).resolve_left fun e => ?_)
      obtain ⟨-, rfl⟩ := Debt.settle.inj e
      exact absurd rfl ((Workspace.isActive_retire hc.wf n).1 on').1
  | unhook _ on => exact abide_unhook hc.wf ha on
  | drained =>
    exact mono (fun _ => rfl) fun n _ _ hd => Or.inl (List.mem_of_ne_of_mem (by simp) hd)
  | forget => exact mono (fun _ => rfl) fun n _ _ hd => Or.inl hd

theorem Step.lawful {c c' : Config} (h : Step p c c') (hc : Census p c.2) (hl : Lawful L top x c) :
    Lawful L top x c' :=
  ⟨h.whole hc hl.toWhole, h.abide hc hl.sized hl.abide⟩

/-- A removal keeps the law, since it notes every node which lost an arc. -/
theorem Steps.lawful {debts left : List Debt} (h : Steps p (debts, w) (left, w')) (hc : Census p w)
    (hl : Lawful L top x (debts, w)) : Lawful L top x (left, w') :=
  (Steps.keeps (I := fun c => Census p c.2 ∧ Lawful L top x c)
    (fun _ _ hs hi => ⟨hs.census hi.1, hs.lawful hi.1 hi.2⟩) h ⟨hc, hl⟩).2

end Cascade

namespace Lawful

variable {p : Plan} {stale : Nat → Prop} {d : Direction} {L : Law p d} {top : Nat} {x : Slack}
  {w w' : Workspace}

theorem unhook (h : Lawful L top x ([], w)) (hc : Census p w) {a : ArcId}
    (ha : w.graph.arcIsActive a = true) : Lawful L top x (owed w a [], w.unhook a) := by
  have hs := shrinks_unhook hc.wf ha
  have sole : ∀ {l}, Sole w l → Sole (w.unhook a) l := by
    rintro l ⟨n, hn, e, only⟩
    refine ⟨n, ?_, (hs.layerOf n).trans e, fun m hm em => ?_⟩
    · rwa [Workspace.isActive_unhook hc.wf]
    · exact only m (hs.active m hm) ((hs.layerOf m).symm.trans em)
  refine ⟨⟨h.fed.unhook hc.wf ha, h.reached.unhook hc.wf ha, fun n hn => ?_, sole h.root,
    fun n hn hl => ?_, fun e => sole (h.sink e), fun b hb => ?_, fun e => ?_⟩, abide_unhook hc.wf h.abide ha⟩
  · exact (hs.layerOf n).symm ▸ h.low n (Nat.lt_of_lt_of_eq hn hs.nodes)
  · exact (hs.state n .down).trans (h.seed n (hs.active n hn) ((hs.layerOf n).symm.trans hl))
  · show L.label ((w.unhook a).graph.layerOf ((w.unhook a).graph.arc b).parent) _
    rw [hs.parent, hs.layerOf]
    exact (hs.value b).symm ▸ h.labelled b (hs.arcActive b hb)
  · show ((w.unhook a).agenda.get e).size = _
    rw [Workspace.agenda_unhook]
    exact h.sized e

end Lawful

end DecisionDiagrams
