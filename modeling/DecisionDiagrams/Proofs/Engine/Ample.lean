import DecisionDiagrams.Proofs.Engine.Dividing
import DecisionDiagrams.Proofs.Engine.Offshoots
import DecisionDiagrams.Proofs.Engine.Words
import Mathlib.Algebra.BigOperators.Group.Finset.Basic
import Mathlib.Algebra.Order.BigOperators.Group.Finset
import Mathlib.Data.Finset.NAry

/-! A budget which is large enough for every split. No word leads to two nodes, and what is split off a node takes
words along. So a node which is split often runs out of words, and a budget which is larger than the number of
words to spare stays so. -/

namespace DecisionDiagrams

open Work Cascade

section
open Classical

/-- The words of a node among those which are looked at. -/
noncomputable def Graph.words (g : Graph) (W : Finset (List Int)) (n : NodeId) : Finset (List Int) :=
  W.filter (g.Spells n)

theorem Graph.mem_words {g : Graph} {W : Finset (List Int)} {n : NodeId} {vs : List Int} :
    vs ∈ g.words W n ↔ vs ∈ W ∧ g.Spells n vs := by
  unfold Graph.words
  exact Finset.mem_filter

end

/-! ### Words over sets of values -/

/-- The words of a length whose labels are values of their layers, the last one first. -/
def wordsOver (V : Nat → Finset Int) : Nat → Finset (List Int)
  | 0 => {[]}
  | l + 1 => Finset.image₂ List.cons (V l) (wordsOver V l)

/-- The words down to a depth. -/
def wordsUpTo (V : Nat → Finset Int) (depth : Nat) : Finset (List Int) :=
  (Finset.range (depth + 1)).biUnion (wordsOver V)

section

variable {V : Nat → Finset Int} {depth l : Nat} {vs : List Int}

theorem length_of_mem_wordsOver (h : vs ∈ wordsOver V l) : vs.length = l := by
  induction l generalizing vs with
  | zero => rw [Finset.mem_singleton.1 h, List.length_nil]
  | succ l ih =>
    obtain ⟨v, -, us, hus, rfl⟩ := Finset.mem_image₂.1 h
    rw [List.length_cons, ih hus]

theorem card_wordsOver_le (V : Nat → Finset Int) (l : Nat) :
    (wordsOver V l).card ≤ ∏ k ∈ Finset.range l, (V k).card := by
  induction l with
  | zero => exact Nat.le_refl 1
  | succ l ih =>
    rw [Finset.prod_range_succ, Nat.mul_comm]
    exact (Finset.card_image₂_le _ _ _).trans (Nat.mul_le_mul_left _ ih)

/-- There are no more words of a length than assignments. -/
theorem card_wordsUpTo_le (pos : ∀ k < depth, 0 < (V k).card) (l : Nat) :
    ((wordsUpTo V depth).filter fun vs => vs.length = l).card ≤ ∏ k ∈ Finset.range depth, (V k).card := by
  have sub : (wordsUpTo V depth).filter (fun vs => vs.length = l) ⊆ if l ≤ depth then wordsOver V l else ∅ := by
    intro vs hvs
    obtain ⟨hall, hlen⟩ := Finset.mem_filter.1 hvs
    obtain ⟨k, hk, hover⟩ := Finset.mem_biUnion.1 hall
    obtain rfl : k = l := (length_of_mem_wordsOver hover).symm.trans hlen
    rw [if_pos (Nat.lt_succ_iff.1 (Finset.mem_range.1 hk))]
    exact hover
  refine (Finset.card_le_card sub).trans ?_
  split_ifs with hl
  · refine (card_wordsOver_le V l).trans (Finset.prod_le_prod_of_subset_of_one_le' ?_ fun k hk _ => ?_)
    · exact Finset.range_subset_range.2 hl
    · exact pos k (Finset.mem_range.1 hk)
  · exact Nat.zero_le _

/-- If labels are values of their layers, so are the labels of words. -/
theorem Graph.Spells.mem_wordsOver {g : Graph} (hw : g.Wf) {n : NodeId}
    (labels : ∀ a, g.arcIsActive a = true → (g.arc a).value ∈ V (g.layerOf (g.arc a).parent)) (h : g.Spells n vs) :
    vs ∈ wordsOver V (g.layerOf n) := by
  induction vs generalizing n with
  | nil =>
    rw [h.2]
    exact Finset.mem_singleton_self _
  | cons v vs ih =>
    obtain ⟨a, ha, rfl, rfl, hp⟩ := h
    rw [hw.adjacent a ha]
    exact Finset.mem_image₂_of_mem (labels a ha) (ih hp)

end

/-! ### Words to spare -/

/-- The words of nodes on one layer are different. -/
theorem Deterministic.sum_card_words_le {w : Workspace} (h : Deterministic w) (W : Finset (List Int)) (hw : w.graph.Wf)
    {S : Finset NodeId} {l : Nat} (hS : ∀ n ∈ S, w.graph.layerOf n = l) :
    ∑ n ∈ S, (w.graph.words W n).card ≤ (W.filter fun vs => vs.length = l).card := by
  rw [← Finset.card_biUnion fun m _ k _ hne => Finset.disjoint_left.2 fun vs hm hk =>
    hne (h.eq_of_spells (Graph.mem_words.1 hm).2 (Graph.mem_words.1 hk).2)]
  refine Finset.card_le_card fun vs hvs => ?_
  obtain ⟨n, hn, hvs⟩ := Finset.mem_biUnion.1 hvs
  obtain ⟨hW, hs⟩ := Graph.mem_words.1 hvs
  exact Finset.mem_filter.2 ⟨hW, (hs.length_eq hw).trans (hS n hn)⟩

/-- There are no more words to spare than the layers below the root can have. -/
theorem Deterministic.sum_words_le {w : Workspace} (h : Deterministic w) {W : Finset (List Int)} (hw : w.graph.Wf)
    {depth width : Nat} (low : ∀ n < w.graph.nodes.size, w.graph.layerOf n ≤ depth)
    (bound : ∀ l, (W.filter fun vs => vs.length = l).card ≤ width) :
    ∑ n ∈ Finset.range w.graph.nodes.size, ((w.graph.words W n).card - 1) ≤ depth * width := by
  have root : ∀ n, w.graph.layerOf n = 0 → (w.graph.words W n).card - 1 = 0 := fun n hn => by
    refine Nat.sub_eq_zero_of_le (Finset.card_le_one.2 fun vs hvs us hus => ?_)
    have empty : ∀ vs ∈ w.graph.words W n, vs = [] := fun vs hvs =>
      List.length_eq_zero_iff.1 (((Graph.mem_words.1 hvs).2.length_eq hw).trans hn)
    rw [empty vs hvs, empty us hus]
  have layer : ∀ l, ∑ n ∈ (Finset.range w.graph.nodes.size).filter fun n => w.graph.layerOf n = l,
      ((w.graph.words W n).card - 1) ≤ width := fun l => by
    refine (Finset.sum_le_sum fun n _ => Nat.sub_le _ 1).trans ((h.sum_card_words_le W hw fun n hn => ?_).trans (bound l))
    exact (Finset.mem_filter.1 hn).2
  rw [← Finset.sum_fiberwise_of_maps_to (t := Finset.range (depth + 1)) (g := w.graph.layerOf) fun n hn =>
    Finset.mem_range.2 (Nat.lt_succ_of_le (low n (Finset.mem_range.1 hn))), Finset.sum_range_succ',
    Finset.sum_eq_zero (s := Finset.filter _ _) fun n hn => root n (Finset.mem_filter.1 hn).2, Nat.add_zero]
  exact (Finset.sum_le_card_nsmul _ _ width fun l _ => layer (l + 1)).trans (by simp)

/-- Every word is looked at and leads to one node, and each word which a node has beside the first one is paid
for. -/
structure Ample (W : Finset (List Int)) (w : Workspace) : Prop where
  deterministic : Deterministic w
  within : ∀ n vs, w.graph.Spells n vs → vs ∈ W
  spare : ∑ n ∈ Finset.range w.graph.nodes.size, ((w.graph.words W n).card - 1) < w.budget

namespace Ample

variable {p : Plan} {stale : Nat → Prop} {L : Law p .down} {W : Finset (List Int)} {w w' : Workspace}
  {n : NodeId} {top : Nat}

theorem mem_words (h : Ample W w) {vs : List Int} : vs ∈ w.graph.words W n ↔ w.graph.Spells n vs :=
  Graph.mem_words.trans (and_iff_right_of_imp (h.within n vs))

theorem within_of_folds (h : Ample W w) {f : NodeId → NodeId} (hf : Graph.Folds f w.graph w'.graph) :
    ∀ n vs, w'.graph.Spells n vs → vs ∈ W := fun n vs hvs => h.within (f n) vs (hf.spells hvs)

/-- A node which stands for itself gains no word. -/
theorem card_words_le {f : NodeId → NodeId} (hf : Graph.Folds f w.graph w'.graph) (hn : f n = n) :
    (w'.graph.words W n).card ≤ (w.graph.words W n).card := by
  refine Finset.card_le_card fun vs hvs => ?_
  obtain ⟨hW, hs⟩ := Graph.mem_words.1 hvs
  exact Graph.mem_words.2 ⟨hW, hn ▸ hf.spells hs⟩

theorem mends (h : Ample W w) (hm : Mends top w w') : Ample W w' := by
  obtain ⟨f, hf, old⟩ := hm.folds
  refine ⟨hm.deterministic h.deterministic, h.within_of_folds hf, Nat.lt_of_le_of_lt ?_ (Nat.lt_of_lt_of_le h.spare hm.paid)⟩
  rw [hm.size]
  exact Finset.sum_le_sum fun n hn => Nat.sub_le_sub_right (card_words_le hf (old n (Finset.mem_range.1 hn))) 1

/-- What is split off takes words of the node along, one at least, and leaves one at least. -/
theorem card_words_splitFrom (h : Ample W w) (ht : Tidy p stale [] w) (ht' : Tidy p stale [] w')
    (hlaw : Lawful L p.model.depth {} ([], w)) (on : w.graph.isActive n = true) {taken : List ArcId} {a : ArcId}
    (ha : a ∈ taken) (ona : w.graph.arcIsActive a = true) (hch : (w.graph.arc a).child = n)
    (hs : SplitFrom L w n taken w') (ho : Offshoots n w w') :
    0 < (w'.graph.words W n).card ∧ (w'.graph.words W n).card < (w.graph.words W n).card ∧
      (w'.graph.words W n).card + (w'.graph.words W w.graph.nodes.size).card ≤ (w.graph.words W n).card := by
  have hn := Graph.lt_of_isActive _ on
  have hf := ho.folds on
  -- a word through an arc which is taken
  obtain ⟨us, hus⟩ := hlaw.exists_spells ht (ht.parent_active ona)
  have lost : (w.graph.arc a).value :: us ∈ w.graph.words W n := h.mem_words.2 ⟨a, ona, hch, rfl, hus⟩
  have gone : (w.graph.arc a).value :: us ∉ w'.graph.words W n := by
    intro hm
    obtain ⟨b, onb, hchb, hvb, hub⟩ := (Graph.mem_words.1 hm).2
    obtain ⟨onb₀, hnot⟩ := hs.kept b onb hchb
    have hlt := Graph.lt_of_arcIsActive _ onb₀
    rw [ho.parent b hlt] at hub
    rw [ho.value b hlt] at hvb
    have hub₀ := hf.spells hub
    rw [Offshoots.original_old (ht.wf.parent_lt onb₀)] at hub₀
    have e : b = a := h.deterministic.single b a onb₀ ona (h.deterministic.eq_of_spells hub₀ hus) hvb
    exact hnot (e ▸ ha)
  have left : w'.graph.words W n ⊆ (w.graph.words W n).erase ((w.graph.arc a).value :: us) := fun vs hvs => by
    refine Finset.mem_erase.2 ⟨fun e => gone (e ▸ hvs), h.mem_words.2 ?_⟩
    have := hf.spells (Graph.mem_words.1 hvs).2
    rwa [Offshoots.original_old hn] at this
  have taken : w'.graph.words W w.graph.nodes.size ⊆ w.graph.words W n := fun vs hvs => by
    have := hf.spells (Graph.mem_words.1 hvs).2
    rw [Offshoots.original_new (Nat.le_refl _)] at this
    exact h.mem_words.2 this
  have apart : Disjoint (w'.graph.words W n) (w'.graph.words W w.graph.nodes.size) :=
    Finset.disjoint_left.2 fun vs hvs hvs' => absurd ((ho.deterministic h.deterministic).eq_of_spells
      (Graph.mem_words.1 hvs).2 (Graph.mem_words.1 hvs').2) (Nat.ne_of_lt hn)
  refine ⟨?_, Nat.lt_of_le_of_lt (Finset.card_le_card left) (Finset.card_erase_lt_of_mem lost), ?_⟩
  · obtain ⟨vs, hvs⟩ := hs.lawful.exists_spells ht' hs.active
    exact Finset.card_pos.2 ⟨vs, Graph.mem_words.2 ⟨h.within_of_folds hf n vs hvs, hvs⟩⟩
  · rw [← Finset.card_union_of_disjoint apart]
    exact Finset.card_le_card (Finset.union_subset (left.trans (Finset.erase_subset _ _)) taken)

/-- A split pays for its node: the words of the node are shared, so there is one word less to spare. -/
theorem splitOff (h : Ample W w) (ht : Tidy p stale [] w) (ht' : Tidy p stale [] w')
    (hlaw : Lawful L p.model.depth {} ([], w)) (on : w.graph.isActive n = true) {taken : List ArcId} {a : ArcId}
    (ha : a ∈ taken) (ona : w.graph.arcIsActive a = true) (hch : (w.graph.arc a).child = n)
    (hs : SplitFrom L w n taken w') (ho : Offshoots n w w') : Ample W w' := by
  obtain ⟨some, fewer, shared⟩ := h.card_words_splitFrom ht ht' hlaw on ha ona hch hs ho
  have hf := ho.folds on
  refine ⟨ho.deterministic h.deterministic, h.within_of_folds hf, ?_⟩
  have hmem := Finset.mem_range.2 (Graph.lt_of_isActive _ on)
  have others : ∑ m ∈ (Finset.range w.graph.nodes.size).erase n, ((w'.graph.words W m).card - 1) ≤
      ∑ m ∈ (Finset.range w.graph.nodes.size).erase n, ((w.graph.words W m).card - 1) :=
    Finset.sum_le_sum fun m hm => Nat.sub_le_sub_right
      (card_words_le hf (Offshoots.original_old (Finset.mem_range.1 (Finset.mem_of_mem_erase hm)))) 1
  have hbudget := ho.spent
  have hspare := h.spare
  rw [← Finset.add_sum_erase _ _ hmem] at hspare
  rw [hs.size] at hbudget ⊢
  rw [Finset.sum_range_succ, ← Finset.add_sum_erase _ _ hmem]
  omega

/-! ### What is within reach -/

/-- Every arc to a node is the end of a word of the node. -/
theorem size_incoming_le (h : Ample W w) (ht : Tidy p stale [] w) (hlaw : Lawful L p.model.depth {} ([], w)) :
    (w.graph.incoming n).size ≤ (w.graph.words W n).card := by
  have word : ∀ a, ∃ us, a ∈ w.graph.incoming n → w.graph.Spells (w.graph.arc a).parent us := fun a => by
    by_cases ha : a ∈ w.graph.incoming n
    · obtain ⟨us, hus⟩ := hlaw.exists_spells ht (ht.parent_active (ht.wf.mem_incoming.1 ha).1)
      exact ⟨us, fun _ => hus⟩
    · exact ⟨[], fun h => absurd h ha⟩
  choose u hu using word
  rw [← Array.length_toList, ← List.toFinset_card_of_nodup (ht.wf.nodup_incoming n)]
  refine Finset.card_le_card_of_injOn (fun a => (w.graph.arc a).value :: u a) (fun a ha => ?_) fun a ha b hb e => ?_
  · have ha := Array.mem_toList_iff.1 (List.mem_toFinset.1 ha)
    obtain ⟨ona, hch⟩ := ht.wf.mem_incoming.1 ha
    exact h.mem_words.2 ⟨a, ona, hch, rfl, hu a ha⟩
  · have ha := Array.mem_toList_iff.1 (List.mem_toFinset.1 ha)
    have hb := Array.mem_toList_iff.1 (List.mem_toFinset.1 hb)
    obtain ⟨hv, e⟩ := List.cons.inj e
    have hub := hu b hb
    rw [← e] at hub
    exact h.deterministic.single a b (ht.wf.mem_incoming.1 ha).1 (ht.wf.mem_incoming.1 hb).1
      (h.deterministic.eq_of_spells (hu a ha) hub) hv

theorem card_words_pos (h : Ample W w) (ht : Tidy p stale [] w) (hlaw : Lawful L p.model.depth {} ([], w))
    (on : w.graph.isActive n = true) : 0 < (w.graph.words W n).card := by
  obtain ⟨vs, hvs⟩ := hlaw.exists_spells ht on
  exact Finset.card_pos.2 ⟨vs, h.mem_words.2 hvs⟩

/-- The words of a node are no more than what is left of the budget. -/
theorem card_words_le_budget (h : Ample W w) (hn : n < w.graph.nodes.size) : (w.graph.words W n).card ≤ w.budget := by
  have := Nat.lt_of_le_of_lt (Finset.single_le_sum (fun _ _ => Nat.zero_le _) (Finset.mem_range.2 hn)) h.spare
  omega

/-- The words of a node and one word of every other node of its layer are words which the layer can have. -/
theorem width_add_le (h : Ample W w) (ht : Tidy p stale [] w) (hlaw : Lawful L p.model.depth {} ([], w)) {l : Nat}
    (on : w.graph.isActive n = true) (hl : w.graph.layerOf n = l) :
    w.graph.width l + (w.graph.words W n).card ≤ (W.filter fun vs => vs.length = l).card + 1 := by
  have hmem : n ∈ (w.graph.layer l).toList.toFinset :=
    List.mem_toFinset.2 (Array.mem_toList_iff.2 (ht.wf.mem_layer.2 ⟨on, hl⟩))
  have some : ∀ m ∈ (w.graph.layer l).toList.toFinset.erase n, 1 ≤ (w.graph.words W m).card := fun m hm =>
    h.card_words_pos ht hlaw (ht.wf.mem_layer.1
      (Array.mem_toList_iff.1 (List.mem_toFinset.1 (Finset.mem_of_mem_erase hm)))).1
  have others := Finset.sum_le_sum some
  have width : (w.graph.layer l).toList.toFinset.card = w.graph.width l := by
    rw [List.toFinset_card_of_nodup (ht.wf.nodup_layer l), Array.length_toList]
    rfl
  rw [← Finset.card_eq_sum_ones, Finset.card_erase_of_mem hmem, width] at others
  have whole := h.deterministic.sum_card_words_le W ht.wf (S := (w.graph.layer l).toList.toFinset) fun m hm =>
    (ht.wf.mem_layer.1 (Array.mem_toList_iff.1 (List.mem_toFinset.1 hm))).2
  rw [← Finset.add_sum_erase _ _ hmem] at whole
  omega

/-- A layer is no wider than the number of words which it can have. -/
theorem width_le (h : Ample W w) (ht : Tidy p stale [] w) (hlaw : Lawful L p.model.depth {} ([], w)) (l : Nat) :
    w.graph.width l ≤ (W.filter fun vs => vs.length = l).card := by
  rcases Nat.eq_zero_or_pos (w.graph.width l) with hz | hpos
  · exact Nat.le_trans (Nat.le_of_eq hz) (Nat.zero_le _)
  · obtain ⟨on, hl⟩ := ht.wf.mem_layer.1 (Array.getElem_mem hpos)
    have := h.width_add_le ht hlaw on hl
    have := h.card_words_pos ht hlaw on
    omega

/-- Neither the width nor the budget keeps a node from being split into one node for each of its arcs. -/
theorem room_eq (h : Ample W w) (ht : Tidy p stale [] w) (hlaw : Lawful L p.model.depth {} ([], w)) {l maxWidth count : Nat}
    (on : w.graph.isActive n = true) (hl : w.graph.layerOf n = l) (hcount : count ≤ (w.graph.incoming n).size)
    (wide : (W.filter fun vs => vs.length = l).card < maxWidth) :
    min (maxWidth - w.graph.width l) (min (count - 1) w.budget) = count - 1 := by
  have := h.size_incoming_le (n := n) ht hlaw
  have := h.card_words_le_budget (Graph.lt_of_isActive _ on)
  have := h.width_add_le ht hlaw on hl
  omega

end Ample

end DecisionDiagrams
