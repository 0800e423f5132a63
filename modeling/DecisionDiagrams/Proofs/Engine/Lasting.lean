import DecisionDiagrams.Proofs.Engine.Ebbing
import DecisionDiagrams.Proofs.Engine.Layering
import DecisionDiagrams.Proofs.Spec.Readers

/-! Steps of a propagation which come to an end by themselves: none of them runs out of an allowance, and
each goes on as far as the relation between the workspaces before and after it allows. This holds in any
workspace whose graph agrees with itself, also after a propagation which stopped early. -/

namespace DecisionDiagrams

open Work Cascade

/-- How a step may stop: not for want of an allowance, and after a conflict the diagram is built and its
graph still agrees with itself. -/
def Halts (p : Plan) (e : Stop) (w : Workspace) : Prop :=
  e ≠ .exhausted ∧ (e.isConflict = true → Census p w ∧ w.built = true)

theorem halts_fault {p : Plan} (f : Fault) (w : Workspace) : Halts p (.fault f) w :=
  ⟨Stop.noConfusion, nofun⟩

/-- A step which does not run out of an allowance; `Q` holds if it does not stop. -/
def Lasts {α : Type} (p : Plan) (x : Work α) (Q : α → Workspace → Prop) (w : Workspace) : Prop :=
  Filed p w → wp x (fun a w' => Filed p w' ∧ Q a w') (Halts p) w

namespace Lasts

variable {α β : Type} {p : Plan} {w : Workspace} {Q : α → Workspace → Prop} {S : β → Workspace → Prop}

theorem mono {x : Work α} {Q' : α → Workspace → Prop} (h : Lasts p x Q w)
    (hQ : ∀ a w', Filed p w' → Q a w' → Q' a w') : Lasts p x Q' w :=
  fun hf => wp.mono (h hf) (fun a w' k => ⟨k.1, hQ a w' k.1 k.2⟩) fun _ _ k => k

theorem pure {a : α} (h : Q a w) : Lasts p (Pure.pure a) Q w := fun hf => ⟨hf, h⟩

theorem bind {x : Work α} {f : α → Work β} (h : Lasts p x Q w)
    (hf : ∀ a w', Filed p w' → Q a w' → Lasts p (f a) S w') : Lasts p (x >>= f) S w := by
  intro h₀
  rw [wp_bind]
  exact wp.mono (h h₀) (fun a w' k => hf a w' k.1 k.2 k.1) fun _ _ k => k

theorem get_bind {f : Workspace → Work β} (h : Filed p w → Lasts p (f w) S w) :
    Lasts p (get >>= f) S w := by
  intro hf
  rw [wp_bind, wp_get]
  exact h hf hf

theorem ite {c : Prop} [Decidable c] {x y : Work α} (hx : c → Lasts p x Q w)
    (hy : ¬ c → Lasts p y Q w) : Lasts p (if c then x else y) Q w := by
  split_ifs with h
  · exact hx h
  · exact hy h

end Lasts

/-- A step which does not run out of an allowance and goes on as `R` says. -/
def Goes {α : Type} (p : Plan) (R : Workspace → Workspace → Prop) (x : Work α) (w : Workspace) : Prop :=
  Lasts p x (fun _ => R w) w

namespace Goes

variable {α β : Type} {p : Plan} {R : Workspace → Workspace → Prop} {w : Workspace}

theorem mono {S : Workspace → Workspace → Prop} {x : Work α} (h : Goes p R x w)
    (hm : ∀ w', R w w' → S w w') : Goes p S x w := Lasts.mono h fun _ w' _ k => hm w' k

theorem get_bind {f : Workspace → Work β} (h : Filed p w → Goes p R (f w) w) :
    Goes p R (get >>= f) w := Lasts.get_bind h

theorem ite {c : Prop} [Decidable c] {x y : Work α} (hx : c → Goes p R x w) (hy : ¬ c → Goes p R y w) :
    Goes p R (if c then x else y) w := Lasts.ite hx hy

variable [IsPreorder Workspace R]

theorem pure (a : α) : Goes p R (Pure.pure a) w := Lasts.pure (refl_of R w)

theorem bind {x : Work α} {f : α → Work β} (h : Goes p R x w)
    (hf : ∀ a w', Filed p w' → R w w' → Goes p R (f a) w') : Goes p R (x >>= f) w :=
  Lasts.bind h fun a w' hw hr => Lasts.mono (hf a w' hw hr) fun _ _ _ k => trans_of R hr k

theorem forM {f : α → Work PUnit} : ∀ (l : List α) {w : Workspace},
    (∀ a ∈ l, ∀ w', Filed p w' → R w w' → Goes p R (f a) w') → Goes p R (l.forM f) w
  | [], w, _ => pure _
  | a :: l, w, h => fun hw => by
    refine (bind (f := fun _ => l.forM f) (h a List.mem_cons_self w hw (refl_of R w))
      fun _ w' _ hr => ?_) hw
    exact forM l fun b hb w'' hw'' hr' => h b (List.mem_cons_of_mem _ hb) w'' hw'' (trans_of R hr hr')

end Goes

/-! ### Removals -/

theorem Cascade.Fails.halts {p : Plan} {debts : List Debt} {w w' : Workspace} {e : Stop}
    (h : Fails p (debts, w) e w') (hc : Filed p w) : Halts p e w' := by
  obtain ⟨left, hs, hstuck⟩ := h
  refine ⟨?_, fun _ => ⟨(hs.filed hc).toCensus, (hs.filed hc).built⟩⟩
  rintro rfl
  cases hstuck

section

variable {p : Plan} {A : Direction → Nat → Prop} {w : Workspace}

theorem lasts_cutArc {a : ArcId} (ha : w.graph.arcIsActive a = true) :
    Lasts p (cutArc p a) (fun _ w' => Ebbs A w w' ∧ w'.potential < w.potential) w := by
  intro h
  have hu := h.unhook ha
  refine wp.mono (pays_cutArc h.toCensus ha []) (fun _ w' hs => ?_) fun e w' hf => ?_
  · exact ⟨hs.filed hu, Ebbs.cut h.wf ha hu.toCensus hs⟩
  · exact hf.halts hu

theorem goes_dropNode (n : NodeId) : Goes p (Ebbs A) (dropNode p n) w := fun h =>
  wp_dropNode_of h.toCensus (fun _ => ⟨h, .refl w⟩) (fun _ _ => ⟨by simp, fun _ => ⟨h.toCensus, h.built⟩⟩)
    (fun on _ _ _ hs => ⟨hs.filed (h.retire on), (Ebbs.drop h.wf on (h.retire on).toCensus hs).1⟩)
    fun on _ _ hf => hf.halts (h.retire on)

theorem goes_removeValue (x : Var) (v : Int) : Goes p (Ebbs A) (removeValue x v) w := fun h =>
  wp_removeValue_of (fun _ => ⟨by simp, fun _ => ⟨h.toCensus, h.built⟩⟩) fun _ _ hd =>
    ⟨h.congr rfl rfl h.cached rfl rfl, .of_graph (.of_graph rfl (Domains.narrows_remove? hd) id id)
      (Domains.dwindles_remove? hd) rfl rfl fun _ _ _ => rfl⟩

/-- What a step leaves which uses up and does not add. -/
abbrev Ebbed (p : Plan) (A : Direction → Nat → Prop) (w w' : Workspace) : Prop := Filed p w' ∧ Ebbs A w w'

theorem Goes.goesOn {α : Type} {x : Work α} {w' : Workspace} (h : Goes p (Ebbs A) x w') (k : Ebbed p A w w') :
    wp x (fun _ => Ebbed p A w) (Halts p) w' :=
  wp.mono (h k.1) (fun _ _ h' => ⟨h'.1, k.2.trans h'.2⟩) fun _ _ h' => h'

theorem writer_ebbed (w : Workspace) : Writer p (fun _ _ => True) (Ebbed p A w) (Halts p) where
  cached h := h.1.cached
  quiet hq h := ⟨h.1.quiet hq, h.2.trans (.quiet hq)⟩
  faults f _ := halts_fault f _
  cut on h := Goes.goesOn ((lasts_cutArc on).mono fun _ _ _ k => k.1) h
  drop n h := (goes_dropNode n).goesOn h
  put s _ hn h := ⟨h.1.putState hn _ s, h.2.trans (.putState hn _ s)⟩

theorem goes_testNodes : Goes p (Ebbs A) (testNodes p) w := fun h => (writer_ebbed w).testNodes ⟨h, .refl w⟩

theorem goes_enforceDomains (lost : List Nat) : Goes p (Ebbs A) (enforceDomains p lost) w := fun h =>
  (writer_ebbed w).enforceDomains lost ⟨h, .refl w⟩

theorem goes_enforceSupports : Goes p (Ebbs A) (enforceSupports p) w := fun h =>
  wp_enforceSupports_of (I := Ebbed p A w) (fun x v => (goes_removeValue x v).goesOn) ⟨h, .refl w⟩

theorem goes_discard (c : Candidate) : Goes p (Ebbs A) (discard p c) w := fun h =>
  (writer_ebbed w).discard c ⟨h, .refl w⟩

/-! ### New states -/

theorem goes_completeNodes : Goes p (Ebbs A) (completeNodes p) w := fun h =>
  (writer_ebbed w).completeNodes (fun _ => ⟨trivial, trivial⟩) ⟨h.congr rfl rfl h.cached rfl rfl,
    .of_graph (.of_graph rfl (.refl _) (fun _ => rfl) id) (.refl _) rfl rfl fun _ _ _ => rfl⟩

/-- The layer of the nodes which are fed by those of a layer. -/
def beyond (d : Direction) (layer : Nat) (e : Direction) (l : Nat) : Prop :=
  e = d ∧ match d with
    | .down => l = layer + 1
    | .up => l + 1 = layer

theorem foldl_schedule {d : Direction} {r : Demand} : ∀ (l : List NodeId) {w : Workspace},
    (∀ n ∈ l, r.isEmpty = true ∨ A d (w.graph.layerOf n)) →
    (Filed p w → Filed p (l.foldl (Workspace.schedule p d r) w)) ∧
      Ebbs A w (l.foldl (Workspace.schedule p d r) w)
  | [], w, _ => ⟨id, .refl w⟩
  | n :: l, w, h => by
    obtain ⟨hf, he⟩ := foldl_schedule l (w := w.schedule p d r n) fun m hm => by
      rw [Workspace.graph_schedule]
      exact h m (List.mem_cons_of_mem _ hm)
    exact ⟨fun hw => hf (hw.schedule d r n), (Ebbs.schedule (h n List.mem_cons_self)).trans he⟩

theorem layerOf_of_mem_children (hw : w.graph.Wf) {n m : NodeId} (h : m ∈ w.graph.children n) :
    w.graph.layerOf m = w.graph.layerOf n + 1 := by
  obtain ⟨a, ha, rfl⟩ := List.mem_map.1 h
  obtain ⟨on, rfl⟩ := hw.mem_outgoing.1 (Array.mem_toList_iff.1 ha)
  exact hw.adjacent a on

theorem layerOf_of_mem_parents (hw : w.graph.Wf) {n m : NodeId} (h : m ∈ w.graph.parents n) :
    w.graph.layerOf m + 1 = w.graph.layerOf n := by
  obtain ⟨a, ha, rfl⟩ := List.mem_map.1 h
  obtain ⟨on, rfl⟩ := hw.mem_incoming.1 (Array.mem_toList_iff.1 ha)
  exact (hw.adjacent a on).symm

/-- Neighbours are only noted for a change of their own direction, unless they read combined properties.
-/
theorem goes_alertNeighbours {d : Direction} {n : NodeId} {own onlyFlag : Bool}
    {changed combinedChanges : IndexSet}
    (hown : own = true → ∀ e l, beyond d (w.graph.layerOf n) e l → A e l)
    (hother : own = false → ∀ l, (p.model.dependents d l changed combinedChanges).isEmpty = true) :
    Goes p (Ebbs A) (alertNeighbours p d n own onlyFlag changed combinedChanges) w := by
  intro h
  refine wp_alertNeighbours_of (fun _ => ⟨h, .refl w⟩) (fun _ _ => ⟨h, .refl w⟩) ?_
  have next : ∀ m ∈ w.fed d n, beyond d (w.graph.layerOf n) d (w.graph.layerOf m) := fun m hm => by
    cases d with
    | down => exact ⟨rfl, layerOf_of_mem_children h.wf hm⟩
    | up => exact ⟨rfl, layerOf_of_mem_parents h.wf hm⟩
  have noted := foldl_schedule (p := p) (A := A) (d := d) (w := w) (r := if (onlyFlag && own) = true then .full
    else .only (p.model.dependents d (w.tellLayer d n) changed combinedChanges)) (w.fed d n) fun m hm => ?_
  · exact ⟨noted.1 h, noted.2⟩
  · cases ho : own with
    | true => exact Or.inr (hown ho d _ (next m hm))
    | false =>
      rw [Bool.and_false, if_neg Bool.false_ne_true]
      exact Or.inl (hother ho _)

/-- Both neighbourhoods of a node are told of a change. -/
theorem goes_tellNeighbours (hm : p.model.ReadsNoCombined) {d : Direction} {n : NodeId} {onlyFlag : Bool}
    {changes : Direction → IndexSet} {combinedChanges : IndexSet} (hc : ∀ e, d ≠ e → changes e = .empty)
    (hn : n < w.graph.nodes.size) :
    Goes p (Ebbs (beyond d (w.graph.layerOf n))) (tellNeighbours p d n onlyFlag changes combinedChanges) w := by
  refine .get_bind fun _ => .ite (fun _ => ?_) fun _ => .pure _
  refine .bind (goes_alertNeighbours (fun ho => ?_) fun ho l => ?_) fun _ w' _ he =>
    goes_alertNeighbours (fun ho => ?_) fun ho l => ?_
  · obtain rfl : d = .down := by simpa using ho
    exact fun _ _ h => h
  · rw [hc .down (by rintro rfl; cases ho)]
    exact hm _ _ _
  · obtain rfl : d = .up := by simpa using ho
    rw [he.layerOf n hn]
    exact fun _ _ h => h
  · rw [hc .up (by rintro rfl; cases ho)]
    exact hm _ _ _

theorem goes_adoptState (hm : p.model.ReadsNoCombined) {d : Direction} {n : NodeId}
    (hn : n < w.graph.nodes.size) (new : State) :
    Goes p (Ebbs (beyond d (w.graph.layerOf n))) (adoptState p d n new) w := by
  intro h
  let I : Workspace → Prop := Ebbed p (beyond d (w.graph.layerOf n)) w
  have W : Writer p (fun _ _ => True) I (Halts p) := writer_ebbed w
  have hI : I w := ⟨h, .refl w⟩
  refine wp_adoptState (fun _ => I) (fun _ => I) (fun _ => I) (fun _ => hI) ?_ (fun _ _ f h => W.faults f h)
    (fun _ _ h _ => W.drop n h) (fun _ _ h => wp_when (W.retestOutgoing n h) h)
    (fun _ _ h => wp_when (W.retestIncoming n h) h) fun _ w' h => ?_
  · exact W.rederive trivial (Nat.lt_of_lt_of_eq hn (Graph.size_putState w.graph n d.side new).symm) _ _
      (W.put new trivial hn hI)
  · refine Goes.goesOn ?_ h
    rw [← h.2.layerOf n hn]
    exact goes_tellNeighbours hm (fun e he => w.altered_of_ne he p n new) (Nat.lt_of_lt_of_le hn h.2.nodes)

theorem goes_recompute (hm : p.model.ReadsNoCombined) {d : Direction} {n : NodeId} {r : Demand}
    {layer : Nat} (hl : w.graph.layerOf n = layer) : Goes p (Ebbs (beyond d layer)) (recompute p d n r) w := by
  subst hl
  intro h
  refine wp_recompute h.cached (fun _ => ⟨h, .refl w⟩) (fun _ f _ => halts_fault f _) fun on new w' hq _ => ?_
  refine Goes.goesOn ?_ ⟨h.quiet hq, .quiet hq⟩
  rw [← hq.graph]
  exact goes_adoptState hm (hq.graph ▸ Graph.lt_of_isActive _ on) new

/-- What a computation of a layer can do: it uses something up, or afterwards nothing waits on the layer
and new notes are on the next one. -/
theorem lasts_recomputeLayer (hm : p.model.ReadsNoCombined) (d : Direction) (layer : Nat) :
    Lasts p (recomputeLayer p d layer) (fun _ w' =>
      Ebbs (fun e l => (e = d ∧ l = layer) ∨ beyond d layer e l) w w' ∧
      (w'.potential < w.potential ∨ w'.agenda.waiting d layer = [])) w := by
  intro hw
  let w₁ : Workspace := { w with agenda := w.agenda.clearLayer d layer }
  have hclear : Ebbs (fun e l => (e = d ∧ l = layer) ∨ beyond d layer e l) w w₁ :=
    .of_graph (.of_graph rfl (.refl _) id id) (.refl _) rfl rfl fun e l hn =>
      Agenda.waiting_clearLayer_of_ne _ fun hk => hn (Or.inl hk)
  have h₁ : Filed p w₁ := hw.clearLayer d layer
  refine wp_recomputeLayer (fun es w' => (∀ e ∈ es, e ∈ w.agenda.waiting d layer) ∧ Ebbed p (beyond d layer) w₁ w')
    ⟨fun _ he => he, h₁, .refl w₁⟩ (fun e es w' k => ?_) fun w' k => ?_
  · obtain ⟨hes, hk⟩ := k
    obtain ⟨hlt, hlay, -⟩ := hw.suits d layer e (hes e List.mem_cons_self)
    exact wp.mono ((goes_recompute hm ((hk.2.layerOf e.1 hlt).trans hlay)).goesOn hk)
      (fun _ _ k => ⟨fun e he => hes e (List.mem_cons_of_mem _ he), k⟩) fun _ _ k => k
  · obtain ⟨-, hf, he⟩ := k
    refine ⟨hf, hclear.trans (he.weaken fun _ _ => Or.inr), he.falls.imp id fun hl => ?_⟩
    refine (hl.agenda d layer fun hb => ?_).trans (Agenda.waiting_clearLayer_self _ _ _)
    have := hb.2
    cases d <;> dsimp only at this <;> omega

/-! ### Splitting -/

theorem lasts_computes {α : Type} {x : Work α} {c : Checked α} (h : Filed p w → Computes p x c w) :
    Lasts p x (fun a w' => Quiet p w w' ∧ c = .ok a) w := by
  intro hw
  refine wp.mono (h hw) (fun a w' k => ⟨hw.quiet k.1, k⟩) fun e w' k => ?_
  obtain ⟨-, f, rfl, -⟩ := k
  exact halts_fault f w'

/-- A bundle which is discarded while it has an arc uses something up. -/
theorem lasts_discard {c : Candidate} (hc : ∃ a ∈ c.arcs, w.graph.arcIsActive a = true) :
    Lasts p (Work.discard p c) (fun _ w' => Ebbs A w w' ∧ w'.potential < w.potential) w := by
  intro hw
  have hq : Quiet p w (w.tally fun t => { t with candidatesPruned := t.candidatesPruned + 1 }) := .tally _ w
  refine wp_discard (fun rest w' => Filed p w' ∧ Ebbs A w w' ∧ (w'.potential < w.potential ∨
    ∃ a ∈ rest, w'.graph.arcIsActive a = true)) ⟨hw.quiet hq, .quiet hq, Or.inr (hq.graph ▸ hc)⟩
    (fun a rest w' hi off => ?_) (fun a rest w' hi on => ?_) fun w' hi => ?_
  · obtain ⟨hw', he, hleft⟩ := hi
    refine ⟨hw', he, hleft.imp_right fun ⟨b, hb, on⟩ => ⟨b, ?_, on⟩⟩
    refine (List.mem_cons.1 hb).resolve_left ?_
    rintro rfl
    exact absurd (off.symm.trans on) nofun
  · obtain ⟨hw', he, -⟩ := hi
    refine wp.mono (lasts_cutArc on hw') (fun _ w'' k => ⟨k.1, he.trans k.2.1, Or.inl ?_⟩) fun _ _ k => k
    exact lt_of_lt_of_le k.2.2 he.potential_le
  · obtain ⟨hw', he, hleft⟩ := hi
    exact ⟨hw', he, hleft.resolve_right fun ⟨a, ha, _⟩ => nomatch ha⟩

/-- If bundles were discarded, something was used up. -/
theorem lasts_discardDead (n : NodeId) (layer : Nat) {cs : List Candidate}
    (hcs : ∀ c ∈ cs, ∃ a ∈ c.arcs, w.graph.arcIsActive a = true) :
    Lasts p (discardDead p n layer cs) (fun any w' => Ebbs A w w' ∧
      (any = true → w'.potential < w.potential)) w := by
  intro hw
  refine wp_foldlM (fun rest any w' => Filed p w' ∧ Ebbs A w w' ∧
    (w'.potential < w.potential ∨ any = false ∧ ∀ c ∈ rest, ∃ a ∈ c.arcs, w'.graph.arcIsActive a = true))
    _ ⟨hw, .refl w, Or.inr ⟨rfl, hcs⟩⟩ (fun c rest any w' hi => ?_) fun any w' hi => ?_
  · obtain ⟨hw', he, hleft⟩ := hi
    rw [wp_bind, wp_get, wp_bind, wp_monadLift]
    refine ⟨fun continues _ => ?_, fun f _ => halts_fault f w'⟩
    rw [wp_ite]
    refine ⟨fun _ => ⟨hw', he, hleft.imp_right fun h =>
      ⟨h.1, fun c hc => h.2 c (List.mem_cons_of_mem _ hc)⟩⟩, fun _ => ?_⟩
    rw [wp_bind]
    rcases hleft with hlt | ⟨-, hc⟩
    · refine wp.mono (goes_discard c hw') (fun _ w'' k => ⟨k.1, he.trans k.2,
        Or.inl (lt_of_le_of_lt k.2.potential_le hlt)⟩) fun _ _ k => k
    · refine wp.mono (lasts_discard (hc c List.mem_cons_self) hw') (fun _ w'' k => ⟨k.1, he.trans k.2.1,
        Or.inl (lt_of_lt_of_le k.2.2 he.potential_le)⟩) fun _ _ k => k
  · exact ⟨hi.1, hi.2.1, fun h => hi.2.2.resolve_right fun k => by simp [k.1] at h⟩

theorem Links.spends {q c : NodeId} {v : Int} {w' : Workspace} (h : Links q c v w w') : Spends w w' :=
  { h.adds.toEvolves with
    dwindles := Or.inl h.domains
    budget := Nat.le_of_eq h.budget }

theorem goes_copyArc {new : NodeId} {a : ArcId} (hn : new < w.graph.nodes.size)
    (hc : (w.graph.arc a).child < w.graph.nodes.size)
    (hl : w.graph.layerOf (w.graph.arc a).child = w.graph.layerOf new + 1) :
    Goes p Spends (copyArc p new a) w := fun h =>
  wp_copyArc (fun f => halts_fault f w) (fun _ => ⟨h, .refl w⟩) fun _ =>
    ⟨h.copying hn hc hl, (Workspace.links_copying p hn hc).spends⟩

theorem goes_moveArc {new : NodeId} {a : ArcId} (hn : new < w.graph.nodes.size)
    (hl : w.graph.layerOf (w.graph.arc a).child = w.graph.layerOf new) :
    Goes p Spends (moveArc p new a) w := by
  intro h
  refine wp_moveArc (fun _ => ⟨h, .refl w⟩) fun on => ?_
  have links := Workspace.links_redirecting p (h.wf.parent_lt on) hn
  exact wp.mono (lasts_cutArc (A := fun _ _ => True) (links.adds.arcActive_of a on) (h.redirecting on hn hl))
    (fun _ _ k => ⟨k.1, links.spends.trans (.of_ebbs k.2.1)⟩) fun _ _ k => k

/-- A bundle which becomes a node of its own is paid for. -/
theorem lasts_splitOff {n : NodeId} {layer : Nat} {c : Candidate} (hc : c.Enters layer n w) :
    Lasts p (splitOff p n layer c) (fun _ w' => Spends w w' ∧ w'.budget ≤ w.budget - 1) w := by
  intro hf
  -- what is paid for the node is paid at once
  let I : Workspace → Prop := fun w' => Filed p w' ∧ Spends w w' ∧ w'.budget ≤ w.budget - 1
  have onward : ∀ {x : Work PUnit} {w' : Workspace}, Goes p Spends x w' → I w' →
      wp x (fun _ w'' => I w'' ∧ Evolves w' w'') (Halts p) w' := fun h hI =>
    wp.mono (h hI.1) (fun _ _ k => ⟨⟨k.1, hI.2.1.trans k.2, Nat.le_trans k.2.budget hI.2.2⟩, k.2.toEvolves⟩)
      fun _ _ k => k
  refine wp_splitOff (fun _ => I) (fun _ => I) hf.wf hc (fun f => halts_fault f w) (fun states _ => ?_)
    (fun a as w' hs ha hI => ?_) (fun _ _ hI => hI) (fun a as w' hs hc' ha hI => ?_) fun w' _ hI => ?_
  · exact ⟨hf.splitNode (hf.le_depth hc) states, { (Adds.splitNode layer states w).toEvolves with
      dwindles := Or.inl rfl, budget := Nat.sub_le _ _ }, Nat.le_refl _⟩
  · obtain ⟨-, -, hchild, hl⟩ := hs.source hf.wf hc.layerOf ha
    refine wp.mono (onward (goes_copyArc hs.sprouts.new_lt hchild ?_) hI) (fun _ _ k => k.1) fun _ _ k => k
    rw [hl, hs.layerOf_new]
  · refine onward (goes_moveArc hs.new_lt ?_) hI
    rw [(hc'.arcs a ha).2, hc'.layerOf, hs.layerOf_new]
  · have hI' : I (w'.schedule p .up .full w.graph.nodes.size) :=
      ⟨hI.1.schedule _ _ _, hI.2.1.trans (.schedule _ _ _ _), by rw [(shrinks_schedule ..).budget]; exact hI.2.2⟩
    refine wp_dropUseless (fun f => halts_fault f _) (fun _ => hI') (fun _ => ?_) fun _ _ _ => hI'
    have dropped : Goes p Spends (dropNode p w.graph.nodes.size) (w'.schedule p .up .full w.graph.nodes.size) :=
      (goes_dropNode (A := fun _ _ => True) _).mono fun _ k => .of_ebbs k
    exact wp.mono (onward dropped hI') (fun _ _ k => k.1) fun _ _ k => k

/-! ### Building -/

theorem Laid.filed {stale : Nat → Prop} {layer : Nat} {w' : Workspace} {ds : List Draft}
    {arcs : List (NodeId × Int × NodeId)} (h : Laid p layer w w' ds arcs) (hf : Filed p w)
    (ht : Tidy p stale [] w') : Filed p w' :=
  { ht.toCensus with
    built := h.built.trans hf.built
    cached := ht.cached
    suits := by
      rw [h.agenda]
      exact hf.suits.of_nodes h.evolves.nodes h.evolves.layerOf }

/-- A layer which is added to a diagram. -/
theorem lasts_growLayer {stale : Nat → Prop} (hp : p.Distinct) {width : Option Nat} (hw : width ≠ some 0)
    {layer : Nat} (hl : layer < p.model.depth) (ht : Tidy p stale [] w) :
    Lasts p (growLayer p width layer) (fun _ w' => Tidy p stale [] w' ∧ Spends w w') w := by
  intro hf
  refine wp.mono (wp_growLayer hw hl ht) (fun _ w' h => ?_) fun e w' h => ?_
  · obtain ⟨w₁, ds, ht₁, hlay, hs, -⟩ := h
    have hc := hs.shrinks ht₁.toCensus
    have ht' := hs.tidy hp ht₁
    have he := hlay.laid.evolves.toEvolves
    have hd := hs.dwindles
    rw [hlay.laid.domains] at hd
    refine ⟨hs.filed (hlay.laid.filed hf ht₁), ht', ?_⟩
    exact
      { he.trans (.of_shrinks hc) with
        dwindles := hd
        budget := by rw [hc.budget, hlay.laid.budget] }
  · rcases h with ⟨f, rfl⟩ | ⟨rfl, -, hq⟩ | ⟨w₁, ds, ht₁, hlay, h⟩
    · exact halts_fault f w'
    · exact ⟨by simp, fun _ => ⟨(hf.quiet hq).toCensus, (hf.quiet hq).built⟩⟩
    · exact h.halts (hlay.laid.filed hf ht₁)

theorem wp_grow_filed {stale : Nat → Prop} (hp : p.Distinct) {width : Option Nat} (hw : width ≠ some 0)
    (ht : Tidy p stale [] w) (ha : w.agenda.Suits p w.graph) :
    wp (grow p width) (fun _ w' => Filed p w' ∧ Spends w w') (Halts p) w := by
  have spent : ∀ {x : Work PUnit} {w'}, Goes p (Ebbs fun _ _ => True) x w' → Filed p w' ∧ Spends w w' →
      wp x (fun _ w'' => Filed p w'' ∧ Spends w w'') (Halts p) w' := fun hx h =>
    wp.mono (hx h.1) (fun _ _ k => ⟨k.1, h.2.trans (.of_ebbs k.2)⟩) fun _ _ k => k
  have hstart : Spends w w.opened :=
    .of_ebbs (A := fun _ _ => True) (.of_graph (.of_graph rfl (.refl _) id fun _ => rfl) (.refl _) rfl rfl
      fun _ _ _ => rfl)
  have ht₁ : Tidy p stale [] w.opened := ht.congr rfl rfl rfl ht.cached
  have hf₁ : Filed p w.opened :=
    { ht.toCensus.congr rfl rfl with built := rfl, cached := ht.cached, suits := ha }
  refine wp_grow_of (fun _ w' => Tidy p stale [] w' ∧ Filed p w' ∧ Spends w w') (fun w' => Filed p w' ∧ Spends w w')
    (fun f => halts_fault f _) (fun states _ => ?_) (fun l hl w' h => ?_) (fun w' _ h => spent goes_testNodes h.2)
    (fun w' _ h => h.2) fun w' h => spent goes_enforceSupports h
  · exact ⟨ht₁.addNode (Nat.zero_le _) states, hf₁.addNode (Nat.zero_le _) states, hstart.trans
      { Evolves.addNode 0 states w.opened with dwindles := Or.inl rfl, budget := Nat.le_refl _ }⟩
  · exact wp.mono (lasts_growLayer hp hw hl h.1 h.2.1) (fun _ w'' k => ⟨k.2.1, k.1, h.2.2.trans k.2.2⟩)
      fun _ _ k => k

end

end DecisionDiagrams
