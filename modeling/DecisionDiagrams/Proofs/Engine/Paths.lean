import DecisionDiagrams.Proofs.Engine.Faithful

/-! The paths of an exact diagram. Their label sequences are the accepted tuples in the domains, each
path has its own, and every value of a domain is on one of them. -/

namespace DecisionDiagrams

open Work Cascade

namespace Graph

/-- The arcs lead from a node to the layer `depth`. -/
def IsPath (g : Graph) (depth : Nat) : NodeId → List ArcId → Prop
  | n, [] => n ∈ g.layer depth
  | n, a :: as => a ∈ g.outgoing n ∧ g.IsPath depth (g.arc a).child as

/-- The arcs lead from the root to the sink. -/
def IsFullPath (g : Graph) (depth : Nat) (as : List ArcId) : Prop :=
  ∃ n ∈ g.layer 0, g.IsPath depth n as

def labels (g : Graph) (as : List ArcId) : List Int := as.map fun a => (g.arc a).value

end Graph

/-- The paths of the graph are the accepted tuples in the domains, which have no values beside. -/
structure Represents (m : Model) (g : Graph) (s : Domains) : Prop where
  tuples : ∀ vs, vs ∈ m.tuples s ↔ ∃ as, g.IsFullPath m.depth as ∧ g.labels as = vs
  once : ∀ as bs, g.IsFullPath m.depth as → g.IsFullPath m.depth bs →
    g.labels as = g.labels bs → as = bs
  projection : ∀ l < m.depth, ∀ v,
    s.contains (m.var l) v = true ↔ ∃ vs ∈ m.tuples s, vs[l]? = some v

section

variable {p : Plan} {stale : Nat → Prop} {w : Workspace} {σ : Nat → Int} {t : Trail}

theorem Tidy.active_of_path (h : Tidy p stale [] w) {n : NodeId} :
    ∀ {as : List ArcId}, w.graph.IsPath p.model.depth n as → w.graph.isActive n = true
  | [], hn => (h.wf.mem_layer.1 hn).1
  | a :: as, ha => by
    obtain ⟨on, hpar⟩ := h.wf.mem_outgoing.1 ha.1
    rw [← hpar]
    exact h.parent_active on

/-- The labels of a path are accepted values of the domains. -/
theorem Exact.of_path (h : Exact p w) (ht : Tidy p (fun _ => False) [] w) :
    ∀ {as : List ArcId} {n : NodeId}, w.graph.IsPath p.model.depth n as →
      w.graph.layerOf n + (w.graph.labels as).length = p.model.depth ∧
      (∀ k v, (w.graph.labels as)[k]? = some v →
        w.domains.contains (p.model.var (w.graph.layerOf n + k)) v = true) ∧
      p.model.admits (w.graph.layerOf n) (w.graph.state n .down) (w.graph.labels as) = .ok true
  | [], n, hn => by
    refine ⟨(ht.wf.mem_layer.1 hn).2, fun k v e => ?_, rfl⟩
    cases e
  | a :: as, n, ha => by
    obtain ⟨on, rfl⟩ := ht.wf.mem_outgoing.1 ha.1
    obtain ⟨hlen, hin, hadm⟩ := h.of_path ht ha.2
    rw [ht.wf.adjacent a on] at hlen hin hadm
    obtain ⟨s, hleads, hnext⟩ := h.leads a on
    refine ⟨?_, fun k v e => ?_, Model.admits_cons.2 ⟨s, hleads, ?_⟩⟩
    · show _ + ((w.graph.labels as).length + 1) = _
      omega
    · cases k with
      | zero =>
        obtain rfl := Option.some.inj e
        exact ht.inDomain a on id
      | succ k =>
        have := hin k v e
        rwa [Nat.add_assoc, Nat.add_comm 1 k] at this
    · by_cases hlast : w.graph.layerOf (w.graph.arc a).parent + 1 = p.model.depth
      · -- behind the last layer nothing is left to be tested
        have : w.graph.labels as = [] := List.eq_nil_of_length_eq_zero (by omega)
        show p.model.admits _ s (w.graph.labels as) = .ok true
        rw [this]
        rfl
      · rw [hnext hlast]
        exact hadm

/-- Above the sink a path passes through the states to which its labels lead. -/
theorem Exact.reach_of_path (h : Exact p w) (ht : Tidy p stale [] w) :
    ∀ {as : List ArcId} {n : NodeId}, w.graph.IsPath p.model.depth n as →
      ∀ k, w.graph.layerOf n + k < p.model.depth →
      ∃ m, w.graph.isActive m = true ∧ w.graph.layerOf m = w.graph.layerOf n + k ∧
        p.model.reach (w.graph.layerOf n) (w.graph.state n .down) ((w.graph.labels as).take k) =
          .ok (w.graph.state m .down)
  | as, n, hp, 0, _ => ⟨n, ht.active_of_path hp, rfl, rfl⟩
  | [], n, hn, k + 1, hk => by
    have := (ht.wf.mem_layer.1 hn).2
    omega
  | a :: as, n, ha, k + 1, hk => by
    obtain ⟨on, rfl⟩ := ht.wf.mem_outgoing.1 ha.1
    have hch := ht.wf.adjacent a on
    obtain ⟨s, ⟨combined, hc, -, hs⟩, hnext⟩ := h.leads a on
    obtain ⟨m, hm, hl, hr⟩ := h.reach_of_path ht ha.2 k (by omega)
    refine ⟨m, hm, by omega, Model.reach_cons.2 ⟨combined, s, hc, hs, ?_⟩⟩
    rw [hnext (by omega), ← hch]
    exact hr

/-- A trail is a path. -/
theorem Guided.isPath (h : Guided p σ p.model.depth t ([], w)) (hw : w.graph.Wf) :
    ∀ (k l : Nat), l + k = p.model.depth →
      w.graph.IsPath p.model.depth (t.node l) ((List.range' l k).map t.arc) ∧
        w.graph.labels ((List.range' l k).map t.arc) = (List.range' l k).map σ
  | 0, l, e => by
    obtain rfl : l = p.model.depth := e
    exact ⟨hw.mem_layer.2 (h.node _ (Nat.le_refl _)), rfl⟩
  | k + 1, l, e => by
    have hl : l < p.model.depth := by omega
    obtain ⟨on, hpar, hch, hval⟩ := h.arc l hl
    obtain ⟨hpath, hlab⟩ := h.isPath hw k (l + 1) (by omega)
    rw [List.range'_succ, List.map_cons]
    refine ⟨⟨hw.mem_outgoing.2 ⟨on, hpar⟩, ?_⟩, ?_⟩
    · rw [show (w.graph.arc (t.arc l)).child = _ from hch]
      exact hpath
    · show (w.graph.arc (t.arc l)).value :: w.graph.labels _ = _
      rw [hlab, show (w.graph.arc (t.arc l)).value = _ from hval]
      rfl

theorem Fed.arc (h : Fed p.model.depth nobody ([], w)) (direction : Direction) {n : NodeId}
    (hn : w.graph.isActive n = true) (hi : Inner p.model.depth w direction n) :
    ∃ a, a ∈ w.arcsOn direction n := by
  rcases h direction n hn hi with h | h | h
  · rw [Bool.eq_false_iff, Ne, Array.isEmpty_iff] at h
    exact Array.exists_mem_of_ne_empty _ h
  · cases h
  · cases h

/-- A path leads from every node to the sink. -/
theorem Fed.path_down (h : Fed p.model.depth nobody ([], w)) (hr : Reached ([], w))
    (ht : Tidy p stale [] w) :
    ∀ (k : Nat) {n : NodeId}, w.graph.isActive n = true → w.graph.layerOf n + k = p.model.depth →
      ∃ as, w.graph.IsPath p.model.depth n as
  | 0, n, hn, e => ⟨[], ht.wf.mem_layer.2 ⟨hn, e⟩⟩
  | k + 1, n, hn, e => by
    obtain ⟨a, ha⟩ := h.arc .up hn (show w.graph.layerOf n < _ by omega)
    obtain ⟨on, rfl⟩ := ht.wf.mem_outgoing.1 ha
    have hch : w.graph.isActive (w.graph.arc a).child = true ∧
        w.graph.layerOf (w.graph.arc a).child + k = p.model.depth := by
      rw [ht.wf.adjacent a on]
      exact ⟨(hr a on).resolve_right nofun, by omega⟩
    obtain ⟨as, has⟩ := h.path_down hr ht k hch.1 hch.2
    exact ⟨a :: as, ha, has⟩

/-- A path leads from the root to every node. -/
theorem Fed.path_up (h : Fed p.model.depth nobody ([], w)) (ht : Tidy p stale [] w) :
    ∀ (l : Nat) {n : NodeId} {as : List ArcId}, w.graph.IsPath p.model.depth n as →
      w.graph.layerOf n = l → ∃ bs, bs.length = l ∧ w.graph.IsFullPath p.model.depth (bs ++ as)
  | 0, n, as, has, e => ⟨[], rfl, n, ht.wf.mem_layer.2 ⟨ht.active_of_path has, e⟩, has⟩
  | l + 1, n, as, has, e => by
    obtain ⟨a, ha⟩ := h.arc .down (ht.active_of_path has)
      (show 0 < w.graph.layerOf n by omega)
    obtain ⟨on, rfl⟩ := ht.wf.mem_incoming.1 ha
    rw [ht.wf.adjacent a on] at e
    have hcons : w.graph.IsPath p.model.depth _ (a :: as) := ⟨ht.wf.mem_outgoing.2 ⟨on, rfl⟩, has⟩
    obtain ⟨bs, hlen, hfull⟩ := h.path_up ht l hcons (Nat.succ.inj e)
    refine ⟨bs ++ [a], by rw [List.length_append, hlen]; rfl, ?_⟩
    rwa [List.append_assoc]

end

namespace Faithful

variable {p : Plan} {w : Workspace}

theorem tuple_of_path (h : Faithful p w.domains p.model.depth w)
    (ht : Tidy p (fun _ => False) [] w) {as : List ArcId}
    (has : w.graph.IsFullPath p.model.depth as) : w.graph.labels as ∈ p.model.tuples w.domains := by
  obtain ⟨n, hn, has⟩ := has
  obtain ⟨on, hl⟩ := ht.wf.mem_layer.1 hn
  have hpath := h.exact.of_path ht has
  rw [hl, h.exact.root n on hl] at hpath
  refine ⟨by rw [← hpath.1, Nat.zero_add], fun l v e => ?_, hpath.2.2⟩
  have := hpath.2.1 l v e
  rwa [Nat.zero_add] at this

theorem path_of_tuple {s : Domains} (h : Faithful p s p.model.depth w) (ht : Census p w)
    {vs : List Int} (hvs : vs ∈ p.model.tuples s) :
    ∃ as, w.graph.IsFullPath p.model.depth as ∧ w.graph.labels as = vs := by
  obtain ⟨t, hg, -⟩ := h.trail vs hvs
  obtain ⟨hpath, hlab⟩ := hg.isPath ht.wf p.model.depth 0 (Nat.zero_add _)
  refine ⟨_, ⟨t.node 0, ht.wf.mem_layer.2 (hg.node 0 (Nat.zero_le _)), hpath⟩, ?_⟩
  rw [hlab, ← hvs.1]
  refine List.ext_getElem (by simp) fun i h1 h2 => ?_
  simp [labelAt, h2]

theorem once (h : Faithful p w.domains p.model.depth w) (ht : Census p w) :
    ∀ {as bs : List ArcId} {n : NodeId}, w.graph.IsPath p.model.depth n as →
      w.graph.IsPath p.model.depth n bs → w.graph.labels as = w.graph.labels bs → as = bs
  | [], [], _, _, _, _ => rfl
  | [], _ :: _, _, _, _, e => by cases e
  | _ :: _, [], _, _, _, e => by cases e
  | a :: as, b :: bs, n, ha, hb, e => by
    obtain ⟨ev, e'⟩ := List.cons.inj e
    obtain ⟨ona, hpa⟩ := ht.wf.mem_outgoing.1 ha.1
    obtain ⟨onb, hpb⟩ := ht.wf.mem_outgoing.1 hb.1
    obtain rfl := h.exact.single a b ona onb (hpa.trans hpb.symm) ev
    rw [h.once ht ha.2 hb.2 e']

theorem represents_tuples (h : Faithful p w.domains p.model.depth w)
    (ht : Tidy p (fun _ => False) [] w) (hs : Supported p (List.range p.model.depth) w) :
    Represents p.model w.graph w.domains where
  tuples vs := by
    refine ⟨h.path_of_tuple ht.toCensus, ?_⟩
    rintro ⟨as, has, rfl⟩
    exact h.tuple_of_path ht has
  once as bs := by
    rintro ⟨n, hn, ha⟩ ⟨m, hm, hb⟩ e
    obtain ⟨hn, hnl⟩ := ht.wf.mem_layer.1 hn
    obtain ⟨hm, hml⟩ := ht.wf.mem_layer.1 hm
    obtain rfl := h.exact.roots n m hn hm hnl hml
    exact h.once ht.toCensus ha hb e
  projection l hl v := by
    constructor
    · intro hv
      have hsup := hs l (List.mem_range.2 hl) v hv
      rw [ht.supports] at hsup
      obtain ⟨a, on, hlay, rfl⟩ := Graph.labelled_pos_iff.1 (Nat.pos_of_ne_zero hsup)
      have hch : w.graph.layerOf (w.graph.arc a).child + (p.model.depth - (l + 1))
          = p.model.depth := by
        rw [ht.wf.adjacent a on, hlay]
        omega
      obtain ⟨as, has⟩ := h.fed.path_down h.reached ht _
        ((h.reached a on).resolve_right nofun) hch
      have hcons : w.graph.IsPath p.model.depth _ (a :: as) :=
        ⟨ht.wf.mem_outgoing.2 ⟨on, rfl⟩, has⟩
      obtain ⟨bs, hlen, hfull⟩ := h.fed.path_up ht l hcons hlay
      refine ⟨_, h.tuple_of_path ht hfull, ?_⟩
      rw [Graph.labels, List.getElem?_map, List.getElem?_append_right (Nat.le_of_eq hlen), hlen,
        Nat.sub_self]
      rfl
    · rintro ⟨vs, hvs, e⟩
      exact hvs.2.1 l v e

/-- Some tuple is left. -/
theorem nonempty (h : Faithful p w.domains p.model.depth w) (ht : Tidy p (fun _ => False) [] w) :
    (p.model.tuples w.domains).Nonempty := by
  obtain ⟨n, hn, hl⟩ := h.rooted
  obtain ⟨as, has⟩ := h.fed.path_down h.reached ht p.model.depth hn (by rw [hl, Nat.zero_add])
  exact ⟨_, h.tuple_of_path ht ⟨n, ht.wf.mem_layer.2 ⟨hn, hl⟩, has⟩⟩

end Faithful
end DecisionDiagrams
