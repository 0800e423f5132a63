import DecisionDiagrams.Proofs.Engine.Exactness
import Mathlib.Data.List.GetD

/-! The propagation of a diagram without a width. It fails only if no accepted tuple is left in the
domains, or if a rule cannot go on while the diagram is built; otherwise every accepted tuple has a
trail, and every node which is left has arcs on both sides. -/

namespace DecisionDiagrams

open Work Cascade

/-- The root is never deleted. -/
theorem Cascade.Steps.root_active {p : Plan} {debts left : List Debt} {w w' : Workspace}
    (h : Steps p (debts, w) (left, w')) (hc : Census p w) {n : NodeId}
    (hn : w.graph.isActive n = true) (hl : w.graph.layerOf n = 0) :
    w'.graph.isActive n = true := by
  refine (Steps.keeps (I := fun c => Census p c.2 ∧ c.2.graph.isActive n = true ∧
    c.2.graph.layerOf n = 0) (fun c d hs hi => ?_) h ⟨hc, hn, hl⟩).2.1
  obtain ⟨hc, hn, hl⟩ := hi
  refine ⟨hs.census hc, ?_, by rw [(hs.shrinks hc).layerOf]; exact hl⟩
  cases hs with
  | note => rwa [Workspace.graph_schedule]
  | @retire _ m _ _ _ _ root _ =>
    refine (Workspace.isActive_retire hc.wf n).2 ⟨?_, hn⟩
    rintro rfl
    exact root hl
  | unhook => rwa [Workspace.isActive_unhook hc.wf]
  | visit => exact hn
  | gone => exact hn
  | drained => exact hn
  | forget => exact hn

/-- The labels of the layers. -/
abbrev labelAt (vs : List Int) (l : Nat) : Int := vs.getD l 0

/-- The diagram down to layer `l` stands for the accepted tuples in the domains `s`. -/
structure Faithful (p : Plan) (s : Domains) (l : Nat) (w : Workspace) : Prop where
  exact : Exact p w
  fed : Fed l nobody ([], w)
  reached : Reached ([], w)
  low : ∀ n < w.graph.nodes.size, w.graph.layerOf n ≤ l
  rooted : ∃ n, w.graph.isActive n = true ∧ w.graph.layerOf n = 0
  trail : ∀ vs ∈ p.model.tuples s, ∃ t, Guided p (labelAt vs) l t ([], w) ∧
    (l < p.model.depth →
      p.model.admits l (w.graph.state (t.node l) .down) (vs.drop l) = .ok true)

/-- A failure which says rightly that no accepted tuple is in the domains, or a rule which cannot go
on. -/
def Empties (p : Plan) (s : Domains) (e : Stop) : Prop :=
  (∃ f, e = .fault f) ∨ (e.isConflict = true ∧ p.model.tuples s = ∅)

namespace Faithful

variable {p : Plan} {stale : Nat → Prop} {s : Domains} {l : Nat} {v w w' : Workspace}

theorem empties (h : Faithful p s l w) {e : Stop} (he : e.isConflict = true)
    (hno : ∀ σ t, Guided p σ l t ([], w) → False) : Empties p s e := by
  refine Or.inr ⟨he, Set.eq_empty_iff_forall_notMem.2 fun vs hvs => ?_⟩
  obtain ⟨t, ht, -⟩ := h.trail vs hvs
  exact hno _ t ht

/-- A diagram stays faithful beside smaller domains. -/
theorem redomain (h : Faithful p s p.model.depth w) (hg : v.graph = w.graph)
    (hu : v.upKnown = w.upKnown) (hs : p.model.tuples v.domains ⊆ p.model.tuples s) :
    Faithful p v.domains p.model.depth v := by
  refine ⟨h.exact.congr hg hu, h.fed.congr hg, ?_, ?_, ?_, fun vs hvs => ?_⟩
  · unfold Reached
    rw [hg]
    exact h.reached
  · rw [hg]; exact h.low
  · rw [hg]; exact h.rooted
  · obtain ⟨t, ht, -⟩ := h.trail vs (hs hvs)
    refine ⟨t, ht.congr hg fun l hl => ?_, fun hl => absurd hl (Nat.lt_irrefl _)⟩
    have hlen : l < vs.length := by rw [hvs.1]; exact hl
    rw [labelAt, List.getD_eq_getElem vs 0 hlen]
    exact hvs.2.1 l _ (List.getElem?_eq_getElem hlen)

/-- Removing an arc keeps a diagram faithful if it is on no trail. -/
theorem cut (hp : p.Distinct) (h : Faithful p s l w) (hc : Census p w) {a : ArcId}
    (ha : w.graph.arcIsActive a = true)
    (hne : ∀ σ t, Guided p σ l t ([], w) → ∀ k < l, t.arc k ≠ a) :
    wp (cutArc p a) (fun _ w' => Faithful p s l w') (fun e _ => Empties p s e) w := by
  have hcu := hc.unhook ha
  refine wp.mono (pays_cutArc hc ha []) (fun _ w' hs => ?_) fun e w' hf => ?_
  · have hshrinks := (shrinks_unhook hc.wf ha).trans (Steps.shrinks hs hcu)
    refine ⟨h.exact.shrink hshrinks, Steps.fed hs hcu (h.fed.unhook hc.wf ha),
      Steps.reached hs hcu (h.reached.unhook hc.wf ha), fun n hn => ?_, ?_,
      fun vs hvs => ?_⟩
    · rw [hshrinks.layerOf]
      exact h.low n (Nat.lt_of_lt_of_eq hn hshrinks.nodes)
    · obtain ⟨n, hn, hl⟩ := h.rooted
      rw [← Workspace.isActive_unhook hc.wf a] at hn
      rw [← (shrinks_unhook hc.wf ha).layerOf] at hl
      refine ⟨n, Steps.root_active hs hcu hn hl, ?_⟩
      rw [(Steps.shrinks hs hcu).layerOf, hl]
    · obtain ⟨t, ht, hadm⟩ := h.trail vs hvs
      refine ⟨t, (ht.unhook hc ha (hne _ t ht)).steps hp hs hcu, fun hl => ?_⟩
      rw [hshrinks.state]
      exact hadm hl
  · exact h.empties hf.isConflict fun σ t ht =>
      (ht.unhook hc ha (hne σ t ht)).not_fails hp hcu hf

theorem congr (h : Faithful p s l w) (hg : w'.graph = w.graph) (hu : w'.upKnown = w.upKnown)
    (ht : ∀ σ t, Guided p σ l t ([], w) → Guided p σ l t ([], w')) : Faithful p s l w' := by
  refine ⟨h.exact.congr hg hu, h.fed.congr hg, ?_, ?_, ?_, fun vs hvs => ?_⟩
  · unfold Reached
    rw [hg]
    exact h.reached
  · rw [hg]; exact h.low
  · rw [hg]; exact h.rooted
  · obtain ⟨t, hguided, hadm⟩ := h.trail vs hvs
    exact ⟨t, ht _ t hguided, by rwa [hg]⟩

/-! ### Building -/

/-- A trail goes on to the next layer. -/
theorem extend (h : Faithful p s l w) (hc : Census p w) (hl : l < p.model.depth)
    {w' : Workspace} {ds : List Draft} (hlay : Layered p none l w w' ds) {vs : List Int}
    (hvs : vs ∈ p.model.tuples s) : ∃ t, Guided p (labelAt vs) (l + 1) t ([], w') ∧
      (l + 1 < p.model.depth →
        p.model.admits (l + 1) (w'.graph.state (t.node (l + 1)) .down) (vs.drop (l + 1))
          = .ok true) := by
  obtain ⟨t, ht, hadm⟩ := h.trail vs hvs
  obtain ⟨on, hlay'⟩ := ht.node l (Nat.le_refl l)
  have hlen : l < vs.length := by rw [hvs.1]; exact hl
  have hv : vs[l] = labelAt vs l := (List.getD_eq_getElem vs 0 hlen).symm
  have hadm := hadm hl
  rw [List.drop_eq_getElem_cons hlen, Model.admits_cons, hv] at hadm
  obtain ⟨next, hleads, hadm⟩ := hadm
  obtain ⟨hacc, hfol⟩ := h.exact.accepts_of_leads on hleads
  have hb : (t.node l, labelAt vs l) ∈ acceptedBranches p l w :=
    mem_acceptedBranches.2 ⟨hc.wf.mem_layer.2 ⟨on, hlay'⟩, ht.within l hl, hacc⟩
  obtain ⟨i, d, a, hd, hbd, -, hon, hpar, hval, hch⟩ := hlay.arc_of_branch hb
  refine ⟨_, ht.grow hlay hd hon hpar hval hch, fun hlt => ?_⟩
  have hfol' := hlay.single rfl (Nat.ne_of_lt hlt) d (List.mem_of_getElem? hd) _ hbd
  obtain rfl := Except.ok.inj (hfol.symm.trans hfol')
  rw [Trail.node_extend_self, (h.exact.combined_of_statesWith hlay.laid.upKnown
    (hlay.laid.newNode i d hd).2.2).1]
  exact hadm

theorem wp_growLayer (hp : p.Distinct) (h : Faithful p s l w) (ht : Tidy p stale [] w)
    (hl : l < p.model.depth) :
    wp (growLayer p none l) (fun _ w' => Tidy p stale [] w' ∧ Faithful p s (l + 1) w')
      (fun e _ => Empties p s e) w := by
  refine wp.mono (DecisionDiagrams.wp_growLayer (by simp) hl ht) (fun _ w' hg => ?_)
    fun e w' hf => ?_
  · obtain ⟨w₁, ds, ht₁, hlay, hs, hfed⟩ := hg
    have hshrinks := Steps.shrinks hs ht₁.toCensus
    refine ⟨Steps.tidy hp hs ht₁, (h.exact.layered ht.toCensus h.low hlay).shrink hshrinks,
      hfed _ (hlay.fed ht.wf ht₁.wf h.fed),
      Steps.reached hs ht₁.toCensus (hlay.reached h.reached), fun n hn => ?_, ?_, fun vs hvs => ?_⟩
    · rw [hshrinks.layerOf]
      exact hlay.low h.low n (Nat.lt_of_lt_of_eq hn hshrinks.nodes)
    · obtain ⟨n, hn, hr⟩ := h.rooted
      have hlt := Graph.lt_of_isActive _ hn
      rw [← hlay.laid.isActive hlt] at hn
      rw [← hlay.laid.layerOf hlt] at hr
      refine ⟨n, Steps.root_active hs ht₁.toCensus hn hr, ?_⟩
      rw [hshrinks.layerOf, hr]
    · obtain ⟨t, hguided, hadm⟩ := h.extend ht.toCensus hl hlay hvs
      refine ⟨t, hguided.steps hp hs ht₁.toCensus, ?_⟩
      rwa [hshrinks.state]
  · rcases hf with hf | ⟨rfl, hnil, -⟩ | ⟨w₁, ds, ht₁, hlay, hf⟩
    · exact Or.inl hf
    · refine Or.inr ⟨rfl, Set.eq_empty_iff_forall_notMem.2 fun vs hvs => ?_⟩
      obtain ⟨t, hguided, hadm⟩ := h.trail vs hvs
      have hlen : l < vs.length := by rw [hvs.1]; exact hl
      have hadm := hadm hl
      rw [List.drop_eq_getElem_cons hlen, Model.admits_cons] at hadm
      obtain ⟨next, hleads, -⟩ := hadm
      obtain ⟨on, hlay'⟩ := hguided.node l (Nat.le_refl l)
      have hb : (t.node l, vs[l]) ∈ acceptedBranches p l w := by
        refine mem_acceptedBranches.2 ⟨ht.wf.mem_layer.2 ⟨on, hlay'⟩, ?_,
          (h.exact.accepts_of_leads on hleads).1⟩
        show w.domains.contains (p.model.var l) vs[l] = true
        rw [← List.getD_eq_getElem vs 0 hlen]
        exact hguided.within l hl
      rw [hnil] at hb
      cases hb
    · refine Or.inr ⟨hf.isConflict, Set.eq_empty_iff_forall_notMem.2 fun vs hvs => ?_⟩
      obtain ⟨t, hguided, -⟩ := h.extend ht.toCensus hl hlay hvs
      exact hguided.not_fails hp ht₁.toCensus hf

/-- The root alone. -/
theorem start {k : Nat} (hg : w.graph = Graph.withLayers k) (hu : w.upKnown = !p.model.hasUp)
    (hd : w.domains = s) {states : BySide State}
    (hs : w.statesWith p.model (p.model.fresh .down) (p.model.fresh .up) = .ok states) :
    Faithful p s 0 (w.addNode 0 states).2 := by
  have hsole := Graph.Sole.addNode hg states
  obtain ⟨hdown, hcomb⟩ : (w.addNode 0 states).2.graph.state 0 .down = p.model.fresh .down ∧
      p.model.besides ((w.addNode 0 states).2.graph.state 0 .down) =
        .ok ((w.addNode 0 states).2.combined? p.model 0) := by
    refine Exact.combined_of_statesWith (w := w) (v := (w.addNode 0 states).2) ⟨hu, fun n hn => ?_,
      fun a ha => ?_, fun a b ha => ?_, fun n hn => ?_, fun n m hn => ?_⟩ rfl
      (by rw [hsole.states]; exact hs)
    · exact absurd (Graph.lt_of_isActive _ hn) (by rw [hg]; exact Nat.not_lt_zero n)
    · exact absurd (Graph.lt_of_arcIsActive _ ha) (by rw [hg]; exact Nat.not_lt_zero a)
    · exact absurd (Graph.lt_of_arcIsActive _ ha) (by rw [hg]; exact Nat.not_lt_zero a)
    · exact absurd (Graph.lt_of_isActive _ hn) (by rw [hg]; exact Nat.not_lt_zero n)
    · exact absurd (Graph.lt_of_isActive _ hn) (by rw [hg]; exact Nat.not_lt_zero n)
  refine ⟨⟨hu, fun n hn => ?_, fun a ha => absurd ha (hsole.bare a),
    fun a b ha => absurd ha (hsole.bare a), fun n hn _ => ?_,
    fun n m hn hm _ _ => (hsole.only_active hn).trans (hsole.only_active hm).symm⟩,
    fun e n hn hi => ?_, fun a ha => absurd ha (hsole.bare a), hsole.low,
    ⟨0, hsole.isActive, hsole.layerOf⟩, fun vs hvs => ?_⟩
  · rw [hsole.only_active hn]
    exact hcomb
  · rw [hsole.only_active hn]
    exact hdown
  · obtain rfl := hsole.only_active hn
    cases e
    · exact absurd hsole.layerOf (Nat.ne_of_gt hi)
    · exact absurd hi (Nat.not_lt_zero _)
  · refine ⟨⟨fun _ => 0, fun _ => 0⟩, ⟨fun l hl => ?_, nofun, fun l hl => ?_, hsole.low,
      fun n hn _ => hsole.only_active hn, fun n hn _ => hsole.only_active hn, nofun⟩, fun _ => ?_⟩
    · obtain rfl := Nat.le_zero.1 hl
      exact ⟨hsole.isActive, hsole.layerOf⟩
    · show w.domains.contains (p.model.var l) (labelAt vs l) = true
      have hlen : l < vs.length := by rw [hvs.1]; exact hl
      rw [hd, labelAt, List.getD_eq_getElem vs 0 hlen]
      exact hvs.2.1 l _ (List.getElem?_eq_getElem hlen)
    · show p.model.admits 0 ((w.addNode 0 states).2.graph.state 0 .down) (vs.drop 0) = .ok true
      rw [hdown]
      exact hvs.2.2

theorem wp_enforceSupports (hp : p.Distinct) (h : Faithful p s p.model.depth w)
    (ht : Tidy p stale [] w) :
    wp (enforceSupports p) (fun _ w' => Faithful p s p.model.depth w') (fun e _ => Empties p s e)
      w := by
  refine wp.mono (DecisionDiagrams.wp_enforceSupports hp w) (fun _ w' h' => ?_) fun e w' hf => ?_
  · exact h.congr h'.1.graph h'.1.upKnown fun σ t hg => hg.trims ht.toCensus h'.1
  · obtain ⟨rfl, htrims, hbarren⟩ := hf
    exact h.empties rfl fun σ t hg =>
      (hg.trims ht.toCensus htrims).not_barren (htrims.tidy ht).toCensus hbarren

theorem wp_enforceDomains (hp : p.Distinct) (h : Faithful p s p.model.depth w)
    (ht : Tidy p stale [] w) (lost : List Nat) :
    wp (enforceDomains p lost) (fun _ w' => Faithful p s p.model.depth w')
      (fun e _ => Empties p s e) w := by
  refine wp_enforceDomains_of hp (fun w a ht h ha hv => ?_) ht h lost
  refine h.cut hp ht.toCensus ha fun σ t hg k hk e => ?_
  subst e
  exact Bool.eq_false_iff.1 hv (hg.carries hk hk)

/-- A diagram which was not built yet becomes faithful. -/
theorem wp_grow (hp : p.Distinct) (hn : p.model.nodeChecks = []) {k : Nat}
    (hg : w.graph = Graph.withLayers k) (hu : w.upKnown = !p.model.hasUp) (ht : Tidy p stale [] w) :
    wp (grow p none) (fun _ w' => Faithful p w.domains p.model.depth w')
      (fun e _ => Empties p w.domains e) w := by
  let I : Nat → Workspace → Prop := fun l w' => Tidy p stale [] w' ∧ Faithful p w.domains l w'
  refine wp_grow_of I (I p.model.depth) (fun f => Or.inl ⟨f, rfl⟩) (fun states hs => ?_)
    (fun l hl w' h => h.2.wp_growLayer hp h.1 hl) (fun w' _ h => ?_) (fun _ _ h => h)
    fun _ h => h.2.wp_enforceSupports hp h.1
  · have tidy : Tidy p stale [] w.opened := ht.congr rfl rfl rfl ht.cached
    exact ⟨tidy.addNode (Nat.zero_le _) states, start (w := w.opened) hg hu rfl hs⟩
  · exact wp.mono (wp_testNodes_of_nil hn _) (fun _ _ e => e ▸ h) fun _ _ h => h

theorem wp_maintainExact (hp : p.Distinct) (hn : p.model.nodeChecks = []) (ht : Tidy p stale [] w)
    (h : w.built = true ∧ Faithful p w.domains p.model.depth w ∨
      w.built = false ∧ w.upKnown = (!p.model.hasUp) ∧ ∃ k, w.graph = Graph.withLayers k)
    (lost : List Nat) :
    wp (maintainExact p lost) (fun _ w' => Faithful p w.domains p.model.depth w')
      (fun e _ => Empties p w.domains e) w := by
  let enforced : Workspace → Prop := fun w' =>
    Tidy p (fun l => stale l ∧ l ∉ lost) [] w' ∧ Faithful p w.domains p.model.depth w'
  refine wp_maintainExact_of enforced (fun new => ?_) (fun old => ?_) fun _ h => h.2.wp_enforceSupports hp h.1
  · obtain ⟨hb, -⟩ | ⟨-, hu, k, hg⟩ := h
    · exact absurd (hb.symm.trans new) nofun
    · exact wp_grow hp hn hg hu ht
  · obtain ⟨-, h⟩ | ⟨hb, -⟩ := h
    · exact wp.mono (wp.and (DecisionDiagrams.wp_enforceDomains hp ht lost) (h.wp_enforceDomains hp ht lost))
        (fun _ _ k => ⟨k.1.1, k.2⟩) fun _ _ k => k.2
    · exact absurd (hb.symm.trans old) nofun

end Faithful
end DecisionDiagrams
