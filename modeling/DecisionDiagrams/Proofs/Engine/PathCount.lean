import DecisionDiagrams.Graph.Shape
import DecisionDiagrams.Proofs.Engine.Paths
import Mathlib.Data.List.Nodup
import Mathlib.Data.Set.Card

/-! The number of paths. What reaches a node is counted layer by layer, with sums which stop at a limit; this
is the number of paths from the root up to the limit, because a sum which stopped on the way has reached the
limit for good. -/

namespace DecisionDiagrams

/-! ### Sums which stop at a limit -/

/-- A number as it is kept. -/
def capped (n : Nat) : Nat := min n pathLimit

theorem addPaths_capped (a b : Nat) : addPaths (capped a) (capped b) = capped (a + b) := by
  unfold addPaths capped
  omega

/-- The kept numbers of all nodes. -/
structure Tallies (slots : Nat) (x : NodeId → Nat) (counts : Array Nat) : Prop where
  size : counts.size = slots
  count : ∀ n < slots, counts.getD n 0 = capped (x n)

namespace Tallies

variable {slots : Nat} {x y : NodeId → Nat} {counts : Array Nat} {g : Graph}

theorem congr (h : Tallies slots x counts) (hxy : ∀ n < slots, x n = y n) : Tallies slots y counts :=
  ⟨h.size, fun n hn => by rw [h.count n hn, hxy n hn]⟩

theorem foldl_modify (here : Nat) : ∀ (cs : List NodeId) {x : NodeId → Nat} {counts : Array Nat},
    (∀ c ∈ cs, c < slots) → Tallies slots x counts →
    Tallies slots (fun n => x n + here * cs.count n)
      (cs.foldl (fun counts c => counts.modify c (addPaths · (capped here))) counts)
  | [], x, counts, _, h => h.congr fun n _ => by rw [List.count_nil, Nat.mul_zero, Nat.add_zero]
  | c :: cs, x, counts, hlt, h => by
    have hc : c < counts.size := h.size ▸ hlt c List.mem_cons_self
    have step : Tallies slots (fun n => x n + if n = c then here else 0)
        (counts.modify c (addPaths · (capped here))) := by
      refine ⟨Array.size_modify.trans h.size, fun n hn => ?_⟩
      have hn' : n < counts.size := h.size ▸ hn
      have hcount := h.count n hn
      rw [Array.getD_eq_getD_getElem?, Array.getElem?_eq_getElem hn', Option.getD_some] at hcount
      rw [Array.getD_eq_getD_getElem?, Array.getElem?_eq_getElem (by rwa [Array.size_modify]), Option.getD_some,
        Array.getElem_modify]
      by_cases e : n = c
      · subst e
        rw [if_pos rfl, if_pos rfl, hcount, addPaths_capped]
      · rw [if_neg (Ne.symm e), if_neg e, hcount, Nat.add_zero]
    refine (foldl_modify here cs (fun d hd => hlt d (List.mem_cons_of_mem _ hd)) step).congr fun n _ => ?_
    rw [List.count_cons]
    by_cases e : n = c
    · subst e
      simp only [if_pos, beq_self_eq_true, Nat.mul_add, Nat.mul_one]
      omega
    · simp [e, Ne.symm e]

/-- One node passes on what reaches it. -/
theorem spread (hg : g.Wf) (h : Tallies g.nodes.size x counts) {n : NodeId} (hn : n < g.nodes.size) :
    Tallies g.nodes.size (fun c => x c + x n * (g.children n).count c) (g.spreadPaths counts n) := by
  unfold Graph.spreadPaths
  rw [h.count n hn]
  refine foldl_modify (x n) _ (fun c hc => ?_) h
  obtain ⟨a, ha, rfl⟩ := List.mem_map.1 hc
  exact hg.child_lt (hg.mem_outgoing.1 (Array.mem_toList_iff.1 ha)).1

/-- The nodes of a layer pass on what reaches them, one after another. -/
theorem spreadAll (hg : g.Wf) : ∀ (ns : List NodeId) {x : NodeId → Nat} {counts : Array Nat},
    (∀ n ∈ ns, n < g.nodes.size) → (∀ n ∈ ns, ∀ m ∈ ns, m ∉ g.children n) → Tallies g.nodes.size x counts →
    Tallies g.nodes.size (fun c => x c + (ns.map fun n => x n * (g.children n).count c).sum)
      (ns.foldl g.spreadPaths counts)
  | [], x, counts, _, _, h => h.congr fun _ _ => rfl
  | n :: ns, x, counts, hlt, hapart, h => by
    have step := h.spread hg (hlt n List.mem_cons_self)
    refine (spreadAll hg ns (fun m hm => hlt m (List.mem_cons_of_mem _ hm)) (fun m hm k hk =>
      hapart m (List.mem_cons_of_mem _ hm) k (List.mem_cons_of_mem _ hk)) step).congr fun c _ => ?_
    -- what reaches the other nodes of the layer does not change
    have same : ∀ m ∈ ns, x m + x n * (g.children n).count m = x m := fun m hm => by
      rw [List.count_eq_zero.2 (hapart n List.mem_cons_self m (List.mem_cons_of_mem _ hm)), Nat.mul_zero,
        Nat.add_zero]
    rw [List.map_cons, List.sum_cons, ← Nat.add_assoc]
    refine congrArg (_ + ·) (congrArg List.sum (List.map_congr_left fun m hm => ?_))
    rw [same m hm]

end Tallies

/-! ### Paths to a node -/

namespace Graph

variable {g : Graph}

/-- The paths of a given length from the root to a node. -/
def routes (g : Graph) : Nat → NodeId → List (List ArcId)
  | 0, c => if c ∈ g.layer 0 then [[]] else []
  | l + 1, c => (g.layer l).toList.flatMap fun n =>
      ((g.outgoing n).toList.filter fun a => (g.arc a).child == c).flatMap fun a =>
        (g.routes l n).map (· ++ [a])

/-- The paths from the root to the sink. -/
def fullRoutes (g : Graph) (depth : Nat) : List (List ArcId) := (g.layer depth).toList.flatMap (g.routes depth)

theorem mem_routes_succ {l : Nat} {c : NodeId} {bs : List ArcId} :
    bs ∈ g.routes (l + 1) c ↔ ∃ n ∈ g.layer l, ∃ a ∈ g.outgoing n, (g.arc a).child = c ∧
      ∃ as ∈ g.routes l n, as ++ [a] = bs := by
  rw [routes]
  simp only [List.mem_flatMap, List.mem_filter, List.mem_map, Array.mem_toList_iff, beq_iff_eq, and_assoc]

/-- A path to a node and one from there on make a path. -/
theorem fullPath_of_mem_routes {depth : Nat} : ∀ {l : Nat} {c : NodeId} {as bs : List ArcId},
    as ∈ g.routes l c → g.IsPath depth c bs → g.IsFullPath depth (as ++ bs)
  | 0, c, as, bs, h, hb => by
    unfold routes at h
    split_ifs at h with hc
    · obtain rfl := List.mem_singleton.1 h
      exact ⟨c, hc, hb⟩
    · cases h
  | l + 1, c, _, bs, h, hb => by
    obtain ⟨n, -, a, ha, rfl, as, has, rfl⟩ := mem_routes_succ.1 h
    rw [List.append_assoc]
    exact fullPath_of_mem_routes has ⟨ha, hb⟩

/-- Every path from the root is counted. -/
theorem mem_fullRoutes_of_path (hg : g.Wf) (anchored : ∀ a, g.arcIsActive a = true →
    g.isActive (g.arc a).parent = true) {depth : Nat} :
    ∀ {bs : List ArcId} {l : Nat} {c : NodeId} {as : List ArcId}, g.layerOf c = l → as ∈ g.routes l c →
      g.IsPath depth c bs → as ++ bs ∈ g.fullRoutes depth
  | [], l, c, as, hl, has, hc => by
    obtain rfl := (hg.mem_layer.1 hc).2.symm.trans hl
    rw [List.append_nil]
    exact List.mem_flatMap.2 ⟨c, Array.mem_toList_iff.2 hc, has⟩
  | b :: bs, l, c, as, hl, has, hb => by
    obtain ⟨on, rfl⟩ := hg.mem_outgoing.1 hb.1
    rw [← List.singleton_append, ← List.append_assoc]
    refine mem_fullRoutes_of_path hg anchored ((hg.adjacent b on).trans (congrArg (· + 1) hl))
      (mem_routes_succ.2 ⟨_, hg.mem_layer.2 ⟨anchored b on, hl⟩, b, hb.1, rfl, as, has, rfl⟩) hb.2

theorem mem_fullRoutes (hg : g.Wf) (anchored : ∀ a, g.arcIsActive a = true → g.isActive (g.arc a).parent = true)
    {depth : Nat} {as : List ArcId} : as ∈ g.fullRoutes depth ↔ g.IsFullPath depth as := by
  constructor
  · intro h
    obtain ⟨c, hc, has⟩ := List.mem_flatMap.1 h
    have := fullPath_of_mem_routes has (show g.IsPath depth c [] from Array.mem_toList_iff.1 hc)
    rwa [List.append_nil] at this
  · rintro ⟨n, hn, h⟩
    have start : [] ∈ g.routes 0 n := by
      unfold routes
      rw [if_pos hn]
      exact List.mem_singleton_self _
    exact mem_fullRoutes_of_path hg anchored (hg.mem_layer.1 hn).2 start h

/-- With one root, paths to different nodes differ. -/
theorem eq_of_mem_routes (roots : ∀ n m, n ∈ g.layer 0 → m ∈ g.layer 0 → n = m) :
    ∀ {l : Nat} {c d : NodeId} {as : List ArcId}, as ∈ g.routes l c → as ∈ g.routes l d → c = d
  | 0, c, d, as, hc, hd => by
    unfold routes at hc hd
    split_ifs at hc hd with h h'
    · exact roots c d h h'
    all_goals contradiction
  | l + 1, c, d, _, hc, hd => by
    obtain ⟨-, -, a, -, rfl, as, -, rfl⟩ := mem_routes_succ.1 hc
    obtain ⟨-, -, b, -, rfl, bs, -, e⟩ := mem_routes_succ.1 hd
    rw [(List.append_inj' e rfl).2 |> List.singleton_inj.1]

theorem nodup_routes (hg : g.Wf) : ∀ (l : Nat) (c : NodeId), (g.routes l c).Nodup
  | 0, c => by
    unfold routes
    split_ifs
    · exact List.nodup_singleton _
    · exact List.nodup_nil
  | l + 1, c => by
    have last : ∀ {as bs : List ArcId} {a b : ArcId}, as ++ [a] = bs ++ [b] → a = b := fun e =>
      List.singleton_inj.1 (List.append_inj' e rfl).2
    unfold routes
    refine List.nodup_flatMap.2 ⟨fun n _ => List.nodup_flatMap.2 ⟨fun a _ => ?_, ?_⟩, ?_⟩
    · exact (nodup_routes hg l n).map fun _ _ e => List.append_cancel_right e
    · refine ((hg.nodup_outgoing n).filter _).imp fun {a b} hab => ?_
      intro x hx hy
      obtain ⟨as, -, rfl⟩ := List.mem_map.1 hx
      obtain ⟨bs, -, e⟩ := List.mem_map.1 hy
      exact hab (last e).symm
    · refine (hg.nodup_layer l).imp fun {n m} hnm => ?_
      intro x hx hy
      obtain ⟨a, ha, hx⟩ := List.mem_flatMap.1 hx
      obtain ⟨b, hb, hy⟩ := List.mem_flatMap.1 hy
      obtain ⟨as, -, rfl⟩ := List.mem_map.1 hx
      obtain ⟨bs, -, e⟩ := List.mem_map.1 hy
      obtain rfl := last e
      refine hnm ?_
      rw [← (hg.mem_outgoing.1 (Array.mem_toList_iff.1 (List.mem_filter.1 ha).1)).2,
        ← (hg.mem_outgoing.1 (Array.mem_toList_iff.1 (List.mem_filter.1 hb).1)).2]

theorem nodup_fullRoutes (hg : g.Wf) (roots : ∀ n m, n ∈ g.layer 0 → m ∈ g.layer 0 → n = m) (depth : Nat) :
    (g.fullRoutes depth).Nodup :=
  List.nodup_flatMap.2 ⟨fun c _ => nodup_routes hg depth c, (hg.nodup_layer depth).imp fun {_ _} hne _ hx hy =>
    hne (eq_of_mem_routes roots hx hy)⟩

/-! ### What the layers pass on -/

theorem length_routes_succ (l : Nat) (c : NodeId) : (g.routes (l + 1) c).length =
    ((g.layer l).toList.map fun n => (g.routes l n).length * (g.children n).count c).sum := by
  rw [routes, List.length_flatMap]
  refine congrArg List.sum (List.map_congr_left fun n _ => ?_)
  rw [List.length_flatMap, List.map_congr_left fun a _ => List.length_map .., List.map_const',
    List.sum_replicate_nat, Nat.mul_comm, children, List.count, List.countP_map, List.countP_eq_length_filter]
  rfl

/-- What has reached a node when the layers before `l` have passed on. -/
def reaching (g : Graph) (l : Nat) (c : NodeId) : Nat :=
  if g.layerOf c ≤ l then (g.routes (g.layerOf c) c).length else 0

/-- The numbers when the layers before `l` have passed on. -/
def passedOn (g : Graph) (l : Nat) : Array Nat :=
  (g.layers.toList.take l).foldl (fun cs layer => layer.foldl g.spreadPaths cs)
    ((g.layer 0).foldl (fun cs n => cs.setIfInBounds n 1) (Array.replicate g.nodes.size 0))

theorem getD_foldl_setIfInBounds (c : Nat) : ∀ (ns : List Nat) (xs : Array Nat), c < xs.size →
    (ns.foldl (fun xs n => xs.setIfInBounds n 1) xs).getD c 0 = if c ∈ ns then 1 else xs.getD c 0
  | [], xs, _ => by rw [if_neg List.not_mem_nil]; rfl
  | n :: ns, xs, hc => by
    rw [List.foldl_cons, getD_foldl_setIfInBounds c ns _ (by rwa [Array.size_setIfInBounds])]
    by_cases hns : c ∈ ns
    · rw [if_pos hns, if_pos (List.mem_cons_of_mem _ hns)]
    · by_cases e : c = n
      · subst e
        simp [hns, hc]
      · simp [hns, e, Ne.symm e, Array.getD_eq_getD_getElem?]

theorem size_foldl_setIfInBounds : ∀ (ns : List Nat) (xs : Array Nat),
    (ns.foldl (fun xs n => xs.setIfInBounds n 1) xs).size = xs.size
  | [], _ => rfl
  | _ :: ns, _ => (size_foldl_setIfInBounds ns _).trans Array.size_setIfInBounds

theorem not_mem_children (hg : g.Wf) {l : Nat} {n c : NodeId} (hn : n ∈ g.layer l) (hc : g.layerOf c ≠ l + 1) :
    c ∉ g.children n := by
  intro h
  obtain ⟨a, ha, rfl⟩ := List.mem_map.1 h
  obtain ⟨on, hpar⟩ := hg.mem_outgoing.1 (Array.mem_toList_iff.1 ha)
  exact hc (by rw [hg.adjacent a on, hpar, (hg.mem_layer.1 hn).2])

theorem passedOn_succ {l : Nat} (hl : l < g.layerCount) :
    g.passedOn (l + 1) = (g.layer l).toList.foldl g.spreadPaths (g.passedOn l) := by
  have hl' : l < g.layers.toList.length := hl
  have here : g.layers.toList[l] = g.layer l := by
    rw [layer, Array.getD_eq_getD_getElem?, Array.getElem?_eq_getElem hl, Option.getD_some, Array.getElem_toList]
    rfl
  unfold passedOn
  rw [List.take_add_one, List.getElem?_eq_getElem hl', Option.toList_some, List.foldl_append, List.foldl_cons,
    List.foldl_nil, here, ← Array.foldl_toList]

/-- By induction on the layers: each passes on to the next one, which nothing has reached before. -/
theorem tallies_passedOn (hg : g.Wf) : ∀ l < g.layerCount, Tallies g.nodes.size (g.reaching l) (g.passedOn l)
  | 0, _ => by
    unfold passedOn
    rw [List.take_zero, List.foldl_nil, ← Array.foldl_toList]
    refine ⟨(size_foldl_setIfInBounds _ _).trans Array.size_replicate, fun c hc => ?_⟩
    rw [getD_foldl_setIfInBounds c _ _ (hc.trans_eq Array.size_replicate.symm), reaching]
    by_cases h0 : g.layerOf c ≤ 0
    · rw [if_pos h0, Nat.le_zero.1 h0, routes]
      split_ifs with h h' h' <;> simp_all [capped, pathLimit, Array.getD_eq_getD_getElem?]
    · rw [if_neg h0, if_neg fun h => h0 (hg.mem_layer.1 (Array.mem_toList_iff.1 h)).2.le]
      simp [capped, Array.getD_eq_getD_getElem?, hc]
  | l + 1, hl => by
    have ih := tallies_passedOn hg l (Nat.lt_of_succ_lt hl)
    have inLayer : ∀ n ∈ (g.layer l).toList, g.layerOf n = l := fun n hn =>
      (hg.mem_layer.1 (Array.mem_toList_iff.1 hn)).2
    have apart : ∀ n ∈ (g.layer l).toList, ∀ c, g.layerOf c ≠ l + 1 → c ∉ g.children n := fun n hn c hc =>
      not_mem_children hg (Array.mem_toList_iff.1 hn) hc
    rw [passedOn_succ (Nat.lt_of_succ_lt hl)]
    refine (ih.spreadAll hg _ (fun n hn => lt_of_isActive g (hg.mem_layer.1 (Array.mem_toList_iff.1 hn)).1)
      fun n hn m hm => apart n hn m fun e => by
        rw [inLayer m hm] at e
        omega).congr fun c _ => ?_
    by_cases hc : g.layerOf c = l + 1
    · rw [reaching, if_neg (by omega), Nat.zero_add, reaching, if_pos hc.le, hc, length_routes_succ]
      refine congrArg List.sum (List.map_congr_left fun n hn => ?_)
      rw [reaching, inLayer n hn, if_pos (Nat.le_refl _)]
    · have none : ∀ n ∈ (g.layer l).toList, g.reaching l n * (g.children n).count c = 0 := fun n hn => by
        rw [List.count_eq_zero.2 (apart n hn c hc), Nat.mul_zero]
      rw [List.map_congr_left none, List.map_const', List.sum_replicate_nat, Nat.mul_zero, Nat.add_zero, reaching,
        reaching]
      exact if_congr (by omega) rfl rfl

theorem foldl_addPaths (f : NodeId → Nat) : ∀ (ns : List NodeId) (k : Nat),
    ns.foldl (fun total n => addPaths total (capped (f n))) (capped k) = capped (k + (ns.map f).sum)
  | [], k => by rw [List.map_nil, List.sum_nil, Nat.add_zero]; rfl
  | n :: ns, k => by
    rw [List.foldl_cons, addPaths_capped, foldl_addPaths f ns, List.map_cons, List.sum_cons, Nat.add_assoc]

/-- The number of paths of a graph, as it is counted. -/
theorem numPaths_eq (hg : g.Wf) (hl : 0 < g.layerCount) :
    g.numPaths = capped (g.fullRoutes (g.layerCount - 1)).length := by
  have h := tallies_passedOn hg (g.layerCount - 1) (by omega)
  have counted : ∀ n ∈ (g.layer (g.layerCount - 1)).toList, (g.passedOn (g.layerCount - 1)).getD n 0 =
      capped (g.routes (g.layerCount - 1) n).length := fun n hn => by
    obtain ⟨on, hlay⟩ := hg.mem_layer.1 (Array.mem_toList_iff.1 hn)
    rw [h.count n (lt_of_isActive g on), reaching, if_pos hlay.le, hlay]
  show (g.layer (g.layerCount - 1)).foldl (fun total n => addPaths total ((g.passedOn _).getD n 0)) 0 = _
  rw [← Array.foldl_toList, List.foldl_ext _ _ 0 fun total n hn => by rw [counted n hn], fullRoutes,
    List.length_flatMap]
  exact (foldl_addPaths _ _ 0).trans (congrArg capped (Nat.zero_add _))

end Graph
end DecisionDiagrams
