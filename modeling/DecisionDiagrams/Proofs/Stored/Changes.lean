import DecisionDiagrams.Proofs.Graph.Sameness
import DecisionDiagrams.Proofs.Solver.Slender
import DecisionDiagrams.Proofs.Stored.Cells
import DecisionDiagrams.Proofs.Stored.Domains
import DecisionDiagrams.Solver.Stored

/-! The changes of a propagation are made to what is stored. Each edit of the workspace is one change or none, and
making it leads from what holds the workspace before to what holds it afterwards. So no check of the storage fails,
and in the end it holds what the propagation arrived at. -/

namespace DecisionDiagrams

open Relation

/-! ### Supports -/

/-- No value is noted with the count zero on any layer. -/
def Diagram.Noted (d : Diagram) : Prop := ∀ (l : ℕ) (s : Supports), d.supports[l]? = some s → s.Proper

theorem Diagram.noted_initial (m : Model) : (initial m).Noted := fun l s h => by
  obtain ⟨-, rfl⟩ : l < m.depth ∧ ∅ = s := by
    rw [initial, Array.getElem?_replicate] at h
    split_ifs at h with hl
    exact ⟨hl, Option.some.inj h⟩
  intro v
  rw [show (∅ : Supports)[v]? = none from Std.ExtTreeMap.getElem?_empty]
  exact nofun

theorem noted_modify {ss : Array Supports} (h : ∀ (l : ℕ) (s : Supports), ss[l]? = some s → s.Proper) (k : ℕ) {f : Supports → Supports}
    (hf : ∀ s : Supports, s.Proper → (f s).Proper) : ∀ (l : ℕ) (s : Supports), (ss.modify k f)[l]? = some s → s.Proper := by
  intro l s hs
  rw [Array.getElem?_modify] at hs
  split_ifs at hs
  · obtain ⟨s', hs', rfl⟩ := Option.map_eq_some_iff.1 hs
    exact hf s' (h l s' hs')
  · exact h l s hs

theorem Edit.noted {w : Workspace} (e : Edit) (h : w.Noted) : (e.apply w).Noted := by
  cases e with
  | connect n c v => exact noted_modify h _ fun s hs => hs.put _ _
  | unhook a => exact noted_modify h _ fun s hs => hs.put _ _
  | strike x v =>
    unfold Edit.apply Workspace.strike
    dsimp only
    split <;> exact h
  | retire n =>
    intro l s hs
    have hs : (w.retire n).supports[l]? = some s := hs
    rw [Workspace.supports_retire] at hs
    exact h l s hs
  | tally | memorize | note | putState | markBuilt | markUpKnown | addNode | split | reboot => exact h

/-- Held, and without a count of zero. -/
structure Diagram.Sound (p : Plan) (d : Diagram) : Prop where
  held : d.Held p
  noted : d.Noted

/-- What every edit keeps is kept by a propagation. -/
theorem Underway.keeps {p : Plan} {w₀ u w : Workspace} (way : Underway p w₀ u w) {I : Workspace → Prop}
    (step : ∀ w (e : Edit), e.Fits p w → Orderly p w → I w → I (e.apply w)) (h : Orderly p w₀) (hi : I w₀) : I w := by
  obtain ⟨orderly, holds⟩ := Edits.along (fun w e _ => step w e) way.building h hi
  exact (Edits.along (fun w e _ => step w e) way.refining orderly holds).2

theorem Diagram.endures_sound : Endures Diagram.Sound where
  initial p := ⟨Diagram.endures_held.initial p, Diagram.noted_initial p.model⟩
  propagate p d fuel lost t h := by
    obtain ⟨u, w, way, diagram, -⟩ := h.held.propagate fuel lost t
    have noted := way.keeps (I := fun w => w.Noted) (fun w e _ _ hi => e.noted hi) (h.held.orderly t) h.noted
    exact ⟨Diagram.endures_held.propagate p d fuel lost t h.held, diagram ▸ noted⟩

/-! ### Rows for the layers of a diagram -/

theorem Model.getElem_branchVars {m : Model} {l : ℕ} (hl : l < m.branchVars.toList.length) :
    m.branchVars.toList[l] = m.var l := by
  have hl' : l < m.branchVars.size := hl
  simp [var, hl']

/-- Each layer has a row of cells for the values which the store has marks for. -/
structure Housed (p : Plan) (spans : Array (ℤ × ℕ)) (rows : List Row) : Prop where
  apart : Apart rows
  spans : List.Forall₂ (fun (r : Row) x => spans[x]? = some (r.first, r.width)) rows p.model.branchVars.toList

namespace Housed

variable {p : Plan} {spans : Array (ℤ × ℕ)} {rows : List Row} {l : ℕ} {r : Row}

theorem length (h : Housed p spans rows) : rows.length = p.model.depth := h.spans.length_eq

theorem lt (h : Housed p spans rows) (hr : rows[l]? = some r) : l < p.model.depth :=
  (List.getElem?_eq_some_iff.1 hr).1.trans_eq h.length

theorem row (h : Housed p spans rows) (hl : l < p.model.depth) :
    ∃ r, rows[l]? = some r ∧ spans[p.model.var l]? = some (r.first, r.width) := by
  have hr : l < rows.length := hl.trans_eq h.length.symm
  have hx : l < p.model.branchVars.toList.length := hl
  have span := (List.forall₂_iff_get.1 h.spans).2 l hr hx
  rw [List.get_eq_getElem, List.get_eq_getElem, Model.getElem_branchVars hx] at span
  exact ⟨rows[l], List.getElem?_eq_getElem hr, span⟩

end Housed

namespace Store.Follows

variable {st : Store} {R : History Domains} {x : Var} {v : ℤ}

/-- A value of a domain has a mark. -/
theorem marked (f : st.Follows R) (hv : R.current.contains x v = true) {r : Row}
    (hr : st.spans[x]? = some (r.first, r.width)) : (r.cell? v).isSome = true := by
  obtain ⟨d, hd, hv⟩ := Domains.contains_iff.1 hv
  obtain ⟨b, D, hb, represents, lists⟩ := f.both hd
  rw [spans, Array.getElem?_map, hb, Option.map_some, Option.some.injEq, Prod.mk.injEq] at hr
  have within := represents.within v ((lists v).1 hv)
  have offset := represents.offset
  have room := represents.room
  have place : r.first ≤ v ∧ v < r.first + r.width := by omega
  rw [Option.isSome_iff_exists]
  exact ⟨_, Row.cell?_eq_some.2 ⟨place.1, place.2, rfl⟩⟩

end Store.Follows

/-! ### Making the changes -/

namespace Holdings

variable {p : Plan} {rows : List Row} {spans : Array (ℤ × ℕ)} {R : History Domains} {H : History (Array ℤ)}
  {G : History Graph} {k : Holdings} {w w' : Workspace} {l : ℕ} {v : ℤ}

/-- What is stored holds a workspace, on top of what the histories keep. -/
structure Tracks (rows : List Row) (spans : Array (ℤ × ℕ)) (R : History Domains) (H : History (Array ℤ))
    (G : History Graph) (k : Holdings) (w : Workspace) : Prop where
  store : k.store.Follows (R.modify fun _ => w.domains)
  spans : k.store.spans = spans
  cells : k.cells.Counts rows H w.graph
  arena : k.arena.Mirrors (G.modify fun _ => w.graph)
  ranged : Ranged rows w.graph

theorem Tracks.congr (t : Tracks rows spans R H G k w) (hg : w'.graph = w.graph) (hd : w'.domains = w.domains) :
    Tracks rows spans R H G k w' := by
  refine ⟨?_, t.spans, ?_, ?_, ?_⟩
  · rw [hd]; exact t.store
  · rw [hg]; exact t.cells
  · rw [hg]; exact t.arena
  · rw [hg]; exact t.ranged

/-- The graph is changed so that no arc comes or goes. -/
theorem Tracks.regraph (t : Tracks rows spans R H G k w) {b : Arena} (hd : w'.domains = w.domains)
    (arena : b.Mirrors (G.modify fun _ => w'.graph)) (labelled : ∀ l v, w'.graph.labelled l v = w.graph.labelled l v)
    (ranged : Ranged rows w'.graph) : Tracks rows spans R H G { k with arena := b } w' :=
  ⟨by rw [hd]; exact t.store, t.spans, t.cells.congr labelled, arena, ranged⟩

theorem count_of_cell {r : Row} {i : ℕ} (hr : rows[l]? = some r) (hi : r.cell? v = some i) (n : ℤ) (k : Holdings) :
    k.count rows l v n = { k with cells := k.cells.add i n } := by
  have cell : rows[l]?.bind (·.cell? v) = some i := by rw [hr]; exact hi
  unfold count
  rw [cell]

/-- The arcs of which there were already some keep their rows. -/
theorem ranged_of_evolves (h : Ranged rows w.graph) (e : Evolves w w')
    (new : ∀ a < w'.graph.arcs.size, w.graph.arcs.size ≤ a → (w'.graph.arc a).parent < w'.graph.nodes.size ∧
      ∀ r, rows[w'.graph.layerOf (w'.graph.arc a).parent]? = some r → (r.cell? (w'.graph.arc a).value).isSome = true) :
    Ranged rows w'.graph := by
  intro a ha
  rcases Nat.lt_or_ge a w.graph.arcs.size with old | fresh
  · obtain ⟨parent, cell⟩ := h a old
    rw [e.parent a old, e.value a old, e.layerOf _ parent]
    exact ⟨parent.trans_le e.nodes, cell⟩
  · exact new a ha fresh

theorem ranged_of_arcs (h : Ranged rows w.graph) (e : Evolves w w')
    (size : w'.graph.arcs.size = w.graph.arcs.size) : Ranged rows w'.graph :=
  ranged_of_evolves h e fun _ ha hge => absurd (ha.trans_eq size) (Nat.not_lt.2 hge)

theorem Tracks.addNode (t : Tracks rows spans R H G k w) (h : Orderly p w) (hl : l ≤ p.model.depth)
    (states : BySide State) :
    ∃ k', make rows k (.addNode l states) = some k' ∧ Tracks rows spans R H G k' (w.addNode l states).2 := by
  have hlt : l < w.graph.layers.size := by rw [h.layers]; omega
  obtain ⟨b, hb, wrote⟩ := t.arena.shows.createNode states hlt
  refine ⟨{ k with arena := b }, ?_, t.regraph rfl (t.arena.wrote (.createNode states hlt) wrote trivial)
    (Graph.labelled_appendNode h.wf l states) (ranged_of_arcs t.ranged (.addNode l states w) rfl)⟩
  rw [make, hb]
  rfl

theorem Tracks.strike (t : Tracks rows spans R H G k w) {x : Var} (hv : w.domains.contains x v = true) {yes : Bool}
    {D : Domains} (struck : w.domains.remove? x v = some (yes, D)) :
    ∃ k', make rows k (.strike x v) = some k' ∧ Tracks rows spans R H G k' (w.lose x v D) := by
  rcases t.store.restrict (Domains.lt_of_contains hv) (.remove v) with ⟨-, refused⟩ | ⟨yes', D', done, left, follows⟩
  · exact absurd (refused.symm.trans struck) nofun
  · obtain ⟨rfl, rfl⟩ := Prod.mk.inj (Option.some.inj (left.symm.trans struck))
    refine ⟨{ k with store := (k.store.remove x v).2 }, ?_, follows,
      (Store.spans_onStore (.remove v) x k.store).trans t.spans, t.cells, t.arena, t.ranged⟩
    have removed : k.store.remove x v = (some yes', (k.store.remove x v).2) := Prod.ext done rfl
    rw [make, removed]

/-- The values of new arcs have cells. -/
theorem Tracks.cell (t : Tracks rows spans R H G k w) (housed : Housed p spans rows) (hl : l < p.model.depth)
    (offers : w.Offers p l v) : ∃ r i, rows[l]? = some r ∧ r.cell? v = some i := by
  obtain ⟨r, hr, span⟩ := housed.row hl
  have cell : (r.cell? v).isSome = true := by
    rcases offers with inDomain | ⟨a, ha, layer, rfl⟩
    · exact t.store.marked inDomain (t.spans ▸ span)
    · exact (t.ranged a ha).2 r (layer ▸ hr)
  obtain ⟨i, hi⟩ := Option.isSome_iff_exists.1 cell
  exact ⟨r, i, hr, hi⟩

theorem Tracks.connect (t : Tracks rows spans R H G k w) (housed : Housed p spans rows) (h : Orderly p w)
    {n c : NodeId} (hn : n < w.graph.nodes.size) (hc : c < w.graph.nodes.size)
    (hl : w.graph.layerOf c = w.graph.layerOf n + 1) (offers : w.Offers p (w.graph.layerOf n) v) :
    ∃ k', make rows k (.connect n c v) = some k' ∧ Tracks rows spans R H G k' (w.connect n c v) := by
  have depth : w.graph.layerOf n < p.model.depth := by
    have := h.wf.layer_lt c hc
    rw [h.layers] at this
    omega
  obtain ⟨r, i, hr, hi⟩ := t.cell housed depth offers
  obtain ⟨b, hb, wrote⟩ := t.arena.shows.addArc hn hc hl v
  have layer : k.arena.graph.layerOf n = w.graph.layerOf n := congrArg Node.layer (t.arena.shows.node hn)
  refine ⟨{ k with cells := k.cells.add i 1, arena := b }, ?_, t.store, t.spans, ?_,
    t.arena.wrote (.addArc v hn hc hl) wrote trivial, ?_⟩
  · rw [make, hb, layer]
    exact congrArg some (count_of_cell hr hi 1 { k with arena := b })
  · refine t.cells.add housed.apart hr hi (Nat.cast_succ _).symm fun m u => ?_
    exact (Graph.labelled_connect hn hc v m u).trans (by split_ifs with e <;> simp [e])
  · refine ranged_of_evolves t.ranged (.connect hn hc v) fun a ha hge => ?_
    change a < (w.graph.connect n c v).arcs.size at ha
    show ((w.graph.connect n c v).arc a).parent < (w.graph.connect n c v).nodes.size ∧
      ∀ r', rows[(w.graph.connect n c v).layerOf ((w.graph.connect n c v).arc a).parent]? = some r' →
        (r'.cell? ((w.graph.connect n c v).arc a).value).isSome = true
    obtain rfl : a = w.graph.arcs.size := by rw [Graph.arcs_size_connect] at ha; omega
    have same : (w.graph.connect n c v).layerOf n = w.graph.layerOf n :=
      (Evolves.connect hn hc v : Evolves w (w.connect n c v)).layerOf n hn
    rw [Graph.arc_connect_self, Graph.size_connect]
    dsimp only
    rw [same]
    refine ⟨hn, fun r' hr' => ?_⟩
    obtain rfl := Option.some.inj (hr.symm.trans hr')
    rw [hi]
    rfl

theorem Tracks.unhook (t : Tracks rows spans R H G k w) (housed : Housed p spans rows) (h : Orderly p w) {a : ArcId}
    (on : w.graph.arcIsActive a = true) :
    ∃ k', make rows k (.unhook a) = some k' ∧ Tracks rows spans R H G k' (w.unhook a) := by
  have shows := t.arena.shows
  obtain ⟨r, hr, -⟩ := housed.row (h.parent_lt_depth on)
  obtain ⟨i, hi⟩ := Option.isSome_iff_exists.1 ((t.ranged a (Graph.lt_of_arcIsActive _ on)).2 r hr)
  obtain ⟨b, hb, wrote⟩ := shows.removeArc h.wf on
  have arc : k.arena.graph.arc a = w.graph.arc a := shows.agrees.arc a ((shows.arcIsActive a).trans on)
  have layer : k.arena.graph.layerOf (w.graph.arc a).parent = w.graph.layerOf (w.graph.arc a).parent :=
    congrArg Node.layer (shows.node (h.wf.parent_lt on))
  have carried : 0 < w.graph.labelled (w.graph.layerOf (w.graph.arc a).parent) (w.graph.arc a).value :=
    Graph.labelled_pos_iff.2 ⟨a, on, rfl, rfl⟩
  have shrinks : Cascade.Shrinks w (w.unhook a) := Cascade.shrinks_unhook h.wf on
  have graph : (w.unhook a).graph = w.graph.detach a := by unfold Workspace.unhook; rfl
  have domains : (w.unhook a).domains = w.domains := by unfold Workspace.unhook; rfl
  have arena : b.Mirrors (G.modify fun _ => (w.unhook a).graph) := by
    rw [graph]
    exact t.arena.wrote (.removeArc on) wrote trivial
  have store : k.store.Follows (R.modify fun _ => (w.unhook a).domains) := by
    rw [domains]
    exact t.store
  refine ⟨{ k with cells := k.cells.add i (-1), arena := b }, ?_, store, t.spans, ?_, arena,
    ranged_of_arcs t.ranged (.of_shrinks shrinks) shrinks.arcs⟩
  · rw [make, hb, arc, layer]
    exact congrArg some (count_of_cell hr hi (-1) { k with arena := b })
  · refine t.cells.add housed.apart hr hi (by rw [Nat.cast_pred carried, sub_eq_add_neg]) fun m u => ?_
    rw [graph, Graph.labelled_detach h.wf on]
    split_ifs with e <;> simp [e]

theorem Tracks.retire (t : Tracks rows spans R H G k w) (h : Orderly p w) {n : NodeId}
    (on : w.graph.isActive n = true) :
    ∃ k', make rows k (.retire n) = some k' ∧ Tracks rows spans R H G k' (w.retire n) := by
  obtain ⟨b, hb, wrote⟩ := t.arena.shows.removeNode h.wf on
  have graph : (w.retire n).graph = w.graph.withdraw n := Workspace.graph_retire n
  have domains : (w.retire n).domains = w.domains := Workspace.domains_retire n
  have arena : b.Mirrors (G.modify fun _ => (w.retire n).graph) := by
    rw [graph]
    exact t.arena.wrote (.removeNode on) wrote trivial
  have labelled : ∀ l v, (w.retire n).graph.labelled l v = w.graph.labelled l v := by
    rw [graph]
    exact Graph.labelled_withdraw h.wf n
  have arcs : (w.retire n).graph.arcs.size = w.graph.arcs.size := by rw [graph, Graph.arcs_withdraw]
  refine ⟨{ k with arena := b }, ?_, t.regraph domains arena labelled
    (ranged_of_arcs t.ranged (.of_shrinks (Cascade.shrinks_retire h.wf on)) arcs)⟩
  rw [make, hb]
  rfl

theorem Tracks.putState (t : Tracks rows spans R H G k w) {n : NodeId} (hn : n < w.graph.nodes.size) (side : Side)
    (s : State) :
    ∃ k', make rows k (.putState n side s) = some k' ∧ Tracks rows spans R H G k' (w.putState n side s) := by
  have slot : n < k.arena.graph.nodes.size := t.arena.shows.node_lt hn
  obtain ⟨b, hb, wrote⟩ := t.arena.shows.setState side s slot
  have old : k.arena.graph.state n side = w.graph.state n side :=
    congrArg (fun m : Node => m.states.get side) (t.arena.shows.node hn)
  refine ⟨{ k with arena := b }, ?_, t.regraph rfl
    (t.arena.wrote (.setState s fun _ => old) wrote (slot.trans_le wrote.slots))
    (Graph.labelled_putState hn side s) (ranged_of_arcs t.ranged (.putState hn side s) rfl)⟩
  rw [make, hb]
  rfl

/-- One edit is one change, or nothing of what is stored. -/
theorem Tracks.edit {e : Edit} (t : Tracks rows spans R H G k w) (housed : Housed p spans rows) (fits : e.Fits p w)
    (h : Orderly p w) : ∃ cs k', (e.apply w).changes.reverse = w.changes.reverse ++ cs ∧
      cs.foldlM (make rows) k = some k' ∧ Tracks rows spans R H G k' (e.apply w) := by
  have one : ∀ (c : Change) (w' : Workspace), w'.changes = c :: w.changes →
      (∃ k', make rows k c = some k' ∧ Tracks rows spans R H G k' w') →
      ∃ cs k', w'.changes.reverse = w.changes.reverse ++ cs ∧ cs.foldlM (make rows) k = some k' ∧
        Tracks rows spans R H G k' w' := by
    rintro c w' changes ⟨k', made, tracks⟩
    refine ⟨[c], k', by rw [changes, List.reverse_cons], ?_, tracks⟩
    rw [List.foldlM_cons, made]
    rfl
  cases e with
  | tally | memorize | note | markBuilt | markUpKnown | reboot =>
    exact ⟨[], k, (List.append_nil _).symm, rfl, t.congr rfl rfl⟩
  | strike x v =>
    obtain ⟨l, -, rfl, hv⟩ := fits
    unfold Edit.apply Workspace.strike
    dsimp only
    split
    · exact ⟨[], k, (List.append_nil _).symm, rfl, t⟩
    · rename_i struck
      exact one (.strike _ v) _ rfl (t.strike hv struck)
  | connect n c v => exact one (.connect n c v) _ rfl (t.connect housed h fits.1 fits.2.1 fits.2.2.1 fits.2.2.2)
  | unhook a => exact one (.unhook a) _ rfl (t.unhook housed h fits)
  | retire n => exact one (.retire n) _ rfl (t.retire h fits)
  | putState n side s => exact one (.putState n side s) _ rfl (t.putState fits side s)
  | addNode layer states => exact one (.addNode layer states) _ rfl (t.addNode h fits.1 states)
  | split layer states =>
    obtain ⟨k', made, tracks⟩ := t.addNode h fits.1 states
    exact one (.addNode layer states) (w.splitNode layer states) rfl ⟨k', made, tracks.congr rfl rfl⟩

/-- All changes of a propagation can be made, and then what is stored holds what the propagation arrived at. -/
theorem Tracks.propagate {d : Diagram} {t : Domains} (held : d.Held p) (housed : Housed p spans rows)
    (tracks : Tracks rows spans R H G k (d.workspace p t)) (fuel : ℕ) (lost : List ℕ) :
    ∃ k' w, (d.propagate p fuel lost t).changes.foldlM (make rows) k = some k' ∧ Tracks rows spans R H G k' w ∧
      w.toDiagram = (d.propagate p fuel lost t).diagram ∧ w.domains = (d.propagate p fuel lost t).domains := by
  obtain ⟨u, w, way, diagram, domains, -, changes⟩ := held.propagate fuel lost t
  obtain ⟨k', made, tracks'⟩ := way.keeps
    (I := fun w => ∃ k', w.changes.reverse.foldlM (make rows) k = some k' ∧ Tracks rows spans R H G k' w)
    (fun w e fits orderly hi => by
      obtain ⟨k₁, made, tracks₁⟩ := hi
      obtain ⟨cs, k₂, changes, made', tracks₂⟩ := tracks₁.edit housed fits orderly
      refine ⟨k₂, ?_, tracks₂⟩
      rw [changes, List.foldlM_append, made]
      exact made')
    (held.orderly t) ⟨k, rfl, tracks⟩
  exact ⟨k', w, changes ▸ made, tracks', diagram, domains⟩

end Holdings
end DecisionDiagrams
