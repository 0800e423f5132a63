import DecisionDiagrams.Proofs.Engine.Arrivals

/-! The law by which the states of relaxed diagrams are at the fixpoint: every property is the least value above
what the labels make of the neighbours, one by one. It may be broken only at nodes which wait. -/

namespace DecisionDiagrams

/-- The property of a state is the least value above what the entering labels make of the neighbours. -/
def Model.Least (m : Model) (d : Direction) (l : Nat) (ins : NodeId → Int → Prop) (σ : NodeId → State)
    (s : State) (i : Nat) : Prop :=
  ∀ X, m.Below d.side i s X ↔ ∀ q v, ins q v → ∀ t, m.Yields d l (σ q) v i t → m.Below d.side i t X

theorem Model.Least.of_alike {m : Model} {d : Direction} {l i : Nat} {ins : NodeId → Int → Prop}
    {σ : NodeId → State} {s s' : State} (hm : m.Lattice d.side) (h : m.Least d l ins σ s i)
    (ha : m.Alike d.side i s s') : m.Least d l ins σ s' i :=
  fun X => (hm.below_congr ha.symm).trans (h X)

/-- If all neighbours lead to the same value, a property at the fixpoint has this value. -/
theorem Model.Least.alike {m : Model} {d : Direction} (hm : m.Declared d) {l i : Nat}
    {ins : NodeId → Int → Prop} {σ : NodeId → State} {s t : State} (h : m.Least d l ins σ s i)
    (nonempty : ∃ q v, ins q v) (all : ∀ q v, ins q v → m.Yields d l (σ q) v i t) :
    m.Alike d.side i s t := by
  refine hm.alike_of_iff fun X => (h X).trans ⟨fun hX => ?_, fun hX q v hq u hu => ?_⟩
  · obtain ⟨q, v, hq⟩ := nonempty
    exact hX q v hq t (all q v hq)
  · exact (hm.below_congr (hm.yields_unique hu (all q v hq))).2 hX

/-- The property of a state is what its relaxation makes of the states, merged one after the other. -/
def Model.Merges (m : Model) (side : Side) (i : Nat) : List State → State → Prop
  | [], _ => False
  | first :: rest, s => ∃ r, rest.foldlM (fun t u => m.mergeProperty side u t i) first = .ok r ∧
    m.Alike side i r s

/-- The merge is the least state above, so a state which is least above others is their merge. -/
theorem Model.Lattice.merges {m : Model} {side : Side} {i : Nat} (h : m.Lattice side) {ss : List State}
    (hne : ss ≠ []) {s : State} (hs : ∀ X, m.Below side i s X ↔ ∀ u ∈ ss, m.Below side i u X) :
    m.Merges side i ss s := by
  have fold : ∀ (rest : List State) (t : State), ∃ r,
      rest.foldlM (fun t u => m.mergeProperty side u t i) t = .ok r ∧
        ∀ X, m.Below side i r X ↔ m.Below side i t X ∧ ∀ u ∈ rest, m.Below side i u X := by
    intro rest
    induction rest with
    | nil => exact fun t => ⟨t, rfl, fun X => (and_iff_left nofun).symm⟩
    | cons u rest ih =>
      intro t
      obtain ⟨mid, hmid⟩ := h.joins u t i
      obtain ⟨r, hr, hX⟩ := ih mid
      refine ⟨r, by rw [List.foldlM_cons, hmid]; exact hr, fun X => ?_⟩
      rw [hX, h.least hmid, and_assoc, List.forall_mem_cons]
  cases ss with
  | nil => exact absurd rfl hne
  | cons first rest =>
    obtain ⟨r, hr, hX⟩ := fold rest first
    refine ⟨r, hr, h.alike_of_iff fun X => ?_⟩
    rw [hX, hs, List.forall_mem_cons]

/-- The least value above what single labels make of a property is the merge of what they make of it. -/
theorem Model.Certain.merges {m : Model} {d : Direction} {i l : Nat} (hi : m.Certain d i) (hm : m.Lattice d.side)
    {α : Type} {as : List α} {σ : α → State} {v : α → Int} {ss : List State} {s : State} (hne : as ≠ [])
    (leads : List.Forall₂ (fun a u => m.Yields d l (σ a) (v a) i u) as ss)
    (least : ∀ X, m.Below d.side i s X ↔ ∀ a ∈ as, ∀ t, m.Yields d l (σ a) (v a) i t → m.Below d.side i t X) :
    m.Merges d.side i ss s := by
  have hne' : ss ≠ [] := by
    rintro rfl
    exact hne (List.forall₂_nil_right_iff.1 leads)
  refine hm.merges hne' fun X => (least X).trans ⟨fun hX u hu => ?_, fun hX a ha t ht => ?_⟩
  · obtain ⟨a, ha, hy⟩ := List.exists_of_forall₂_right leads hu
    exact hX a ha u hy
  · obtain ⟨u, hu, hy⟩ := List.exists_of_forall₂_left leads ha
    exact (hm.below_congr (hi.yields_unique hy ht)).1 (hX u hu)

/-- A property at the fixpoint is what the relaxation makes of the transitions over the single labels. -/
theorem Model.Least.merges {m : Model} {d : Direction} {l i : Nat} {ins : NodeId → Int → Prop}
    {σ : NodeId → State} {s : State} (h : m.Least d l ins σ s i) (hi : m.Certain d i) (ha : m.Apart d i)
    (hm : m.Lattice d.side) {arcs : List ArcId} {q : ArcId → NodeId} {v : ArcId → Int}
    (hins : ∀ n u, ins n u ↔ ∃ a ∈ arcs, q a = n ∧ v a = u) (hne : arcs ≠ []) {beside : NodeId → Option State}
    {ss : List State}
    (hss : arcs.mapM (fun a => m.step d l (σ (q a)) (beside (q a)) (.singleton (v a))) = .ok ss) :
    m.Merges d.side i ss s := by
  have leads := (Checked.forall₂_of_mapM hss).imp fun _ _ hstep => hi.yields_step ha hstep
  refine hi.merges hm hne leads fun X => (h X).trans ⟨fun hX a ha => ?_, fun hX n u hu => ?_⟩
  · exact hX _ _ ((hins _ _).2 ⟨a, ha, rfl, rfl⟩)
  · obtain ⟨a, ha, rfl, rfl⟩ := (hins n u).1 hu
    exact hX a ha

/-- A state which is blended is the least one above the states. -/
theorem Blend.below_iff {m : Model} (hm : m.Lattice .down) {ss : List State} {t X : State} {i : Nat}
    (h : Blend m ss t) : m.Below .down i t X ↔ ∀ s ∈ ss, m.Below .down i s X := by
  induction h with
  | one s => exact (List.forall_mem_singleton (p := fun u => m.Below .down i u X)).symm
  | again _ ih =>
    rw [List.forall_mem_append, ← ih, List.forall_mem_singleton]
    exact (and_self_iff).symm
  | @merge _ _ _ _ u _ _ hu ihs iht =>
    rw [List.forall_mem_append, ← ihs, ← iht]
    exact (hm.below_congr (t := u) (.of_bits rfl)).trans (hm.least_everyProperty hu)

/-- The states of relaxed diagrams are at the fixpoint in every property which sums up what the labels of its
bundles make of it. -/
def Law.summed {p : Plan} {d : Direction} {D : Nat → Int → Prop} {B : Nat → IntSet → Prop} {P : Nat → Prop}
    (hs : p.model.Separate d) (hm : p.model.Lattice d.side) (sums : ∀ i, P i → p.model.Sums d B i)
    (bundles : ∀ {l values}, (∀ v ∈ values, D l v) →
      (p.options.groupValues = false → ∃ v, values = .singleton v) → B l values) : Law p d where
  label := D
  holds l ins σ s
    | none => True
    | some i => p.options.isExact = false → P i → p.model.Least d l ins σ s i
  moved := by
    intro l ins σ σ' s o _ _ hu h
    cases o with
    | none => trivial
    | some i =>
      refine fun hx hi X => (h hx hi X).trans (forall₃_congr fun q v hq => ?_)
      have looks : ∀ j, p.model.Looks d l i j → p.model.Alike d.side j (σ q) (σ' q) :=
        fun j => Model.alike_of_unaffected (hu q v hq)
      refine forall_congr' fun t => imp_congr_left ⟨?_, ?_⟩
      · exact (sums i hi).yields_congr looks
      · exact (sums i hi).yields_congr fun j hj => (looks j hj).symm
  thinned := by
    intro hx l ins ins' σ s o _ _
    cases o with
    | none => trivial
    | some i => exact fun hn => by rw [hx] at hn; cases hn
  arrived := by
    intro hx w l ins bs old r s o hl hlabel hne hfill hlone hins harr ho
    cases o with
    | none => trivial
    | some i =>
      intro _ hP
      by_cases hi : r.Covers (some i)
      · have fit : ∀ b ∈ bs, B l b.2 := fun b hb =>
          bundles (fun v hv => hlabel b.1 v ((hins b.1 v).2 ⟨b, hb, rfl, hv⟩)) fun hg => hlone hg b hb
        intro X
        refine (Workspace.below_arrived (sums i hP) hs hm hl hne hfill fit harr hi).trans
          ⟨fun h q v hq => ?_, fun h b hb v hv => ?_⟩
        · obtain ⟨b, hb, rfl, hv⟩ := (hins q v).1 hq
          exact h b hb v hv
        · exact h b.1 v ((hins b.1 v).2 ⟨b, hb, rfl, hv⟩)
      · exact (ho.resolve_left hi hx hP).of_alike hm (Workspace.alike_arrived hs hm hne harr hi)
  blended := by
    rintro rfl w l ins ways s o _ _ hins ⟨ss, hf, hb⟩
    cases o with
    | none => trivial
    | some i =>
      intro _ hP X
      have leads : ∀ {q v u}, w.follows p l (q, v) = .ok u → p.model.Yields .down l (w.graph.state q .down) v i u :=
        fun hfol => (sums i hP).yields_step (hs.apart i) hfol
      refine (hb.below_iff hm).trans ⟨?_, ?_⟩
      · intro h q v hq
        obtain ⟨u, hu, hfol⟩ := List.exists_of_forall₂_left hf ((hins q v).1 hq)
        exact ((sums i hP).below_iff_yields hm (leads hfol)).1 (h u hu)
      · intro h u hu
        obtain ⟨⟨q, v⟩, hway, hfol⟩ := List.exists_of_forall₂_right hf hu
        exact ((sums i hP).below_iff_yields hm (leads hfol)).2 (h q v ((hins q v).2 hway))

/-- All properties are at the fixpoint if bundles join their labels. -/
def Law.joined {p : Plan} {d : Direction} {D : Nat → Int → Prop} (hm : p.model.Joined d D) : Law p d :=
  .summed (D := D) (P := fun _ => True) hm.toSeparate hm.toLattice (fun i _ => hm.sums i) fun h _ => h

end DecisionDiagrams
