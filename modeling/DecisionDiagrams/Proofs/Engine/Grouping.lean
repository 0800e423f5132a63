import DecisionDiagrams.Proofs.Engine.Fixpoint
import DecisionDiagrams.Proofs.Constraint.Library

/-! Arcs which are followed together. Where bundles join their labels, a transition over several labels is
the merge of the transitions over each of them. So a node gets the same values from its neighbours whether
the arcs to one neighbour are grouped or followed one by one. The constraints with rules of their own are of
this kind. -/

namespace DecisionDiagrams

open Work

/-! ### Transitions -/

namespace Model

variable {m : Model} {d : Direction} {D : Nat → Int → Prop} {l : Nat} {s r : State}
  {combined : Option State} {values : IntSet}

/-- A transition over several labels gives every property what its relaxation makes of the transitions over
the single labels. -/
theorem Joined.merges_step (hm : m.Joined d D) (hl : l < m.depth) (hne : ∃ v, v ∈ values)
    (hD : ∀ v ∈ values, D l v) (hr : m.step d l s combined values = .ok r) :
    ∃ ss, values.toList.mapM (fun v => m.step d l s combined (.singleton v)) = .ok ss ∧
      ∀ i, m.Merges d.side i ss r := by
  obtain ⟨ss, hss⟩ : ∃ ss, values.toList.mapM (fun v => m.step d l s combined (.singleton v)) = .ok ss :=
    Checked.exists_mapM fun v _ => hm.exists_step (hm.total l s v) combined
  have nonempty : values.toList ≠ [] := fun e => by
    obtain ⟨v, hv⟩ := hne
    rw [IntSet.mem_def, e] at hv
    cases hv
  refine ⟨ss, hss, fun i => ?_⟩
  have leads := (Checked.forall₂_of_mapM hss).imp fun _ _ hstep => hm.yields_step hstep i
  exact (hm.certain i).merges hm.toLattice nonempty leads fun X =>
    (hm.sums i).below_step hm.toSeparate hm.toLattice hl hne hD hr

/-- Every transition gives a result, for whichever properties it is asked. -/
def Runs (m : Model) (d : Direction) : Prop := ∀ l s combined values which target,
  ∃ r, m.stepInto d l s combined values which target = .ok r

theorem Runs.step (h : m.Runs d) (l : Nat) (s : State) (combined : Option State) (values : IntSet) :
    ∃ r, m.step d l s combined values = .ok r :=
  Checked.exists_bind (h l s combined values (m.active d l) s) fun _ => ⟨_, rfl⟩

theorem Lattice.exists_mergeInto {side : Side} (h : m.Lattice side) (which : IndexSet) (first : State)
    (rest : List State) : ∃ out, m.mergeInto side which first rest = .ok out := by
  refine Checked.exists_foldlM (fun acc s => ?_) rest (first, false)
  split_ifs
  · exact ⟨_, rfl⟩
  · exact Checked.exists_bind (h.exists_mergeListed which acc.1 s) fun _ => ⟨_, rfl⟩

end Model

theorem Spec.Joined.runs {t : Spec} {D : Var → Int → Prop} (h : t.Joined D) (hc : t.check = .ok ())
    (d : Direction) : t.toModel.Runs d := fun l s combined values which target =>
  Checked.exists_foldlM (fun acc _ => exists_stepProperty_of_joins hc h.joins l s combined values acc)
    which.toList target

/-! ### Nodes -/

namespace Workspace

variable {p : Plan} {w : Workspace} {d : Direction} {D : Nat → Int → Prop} {l i : Nat}
  {old new new' : State} {r : Demand} {bs bs' : List Bundle}

theorem exists_arrived (hm : p.model.Runs d) (hl : p.model.Lattice d.side) (w : Workspace) (l : Nat)
    (bs : List Bundle) (old : State) (r : Demand) : ∃ new, w.arrived p d l bs old r = .ok new := by
  unfold arrived
  refine Checked.exists_bind (Checked.exists_mapM fun b _ => ?_) fun states => ?_
  · cases r with
    | full => exact hm.step _ _ _ _
    | only which => exact Checked.exists_bind (hm _ _ _ _ _ _) fun _ => ⟨_, rfl⟩
  · cases states with
    | nil => exact ⟨old, rfl⟩
    | cons first rest =>
      exact Checked.exists_bind (hl.exists_mergeInto _ first rest) fun _ => ⟨_, rfl⟩

/-- What a node gets from its neighbours depends on which labels lead from which neighbour, and not on how
these are bundled. -/
theorem alike_arrived_of_has {m : Model} {o o' : Options} (hm : m.Joined d D) (hl : l < m.depth)
    (hfill : Bundle.Filled bs) (hfill' : Bundle.Filled bs')
    (hsame : ∀ n v, Bundle.Has bs n v ↔ Bundle.Has bs' n v) (hD : ∀ n v, Bundle.Has bs n v → D l v)
    (h : w.arrived ⟨m, o⟩ d l bs old r = .ok new) (h' : w.arrived ⟨m, o'⟩ d l bs' old r = .ok new') (i : Nat) :
    m.Alike d.side i new new' := by
  -- bundles without a label do not occur, so either none of the lists has a bundle or both have
  have empty : ∀ {cs cs' : List Bundle}, Bundle.Filled cs' → (∀ n v, Bundle.Has cs' n v → Bundle.Has cs n v) →
      cs = [] → cs' = [] := by
    rintro cs cs' hf hc rfl
    refine List.eq_nil_iff_forall_not_mem.2 fun b hb => ?_
    obtain ⟨v, hv⟩ := hf b hb
    obtain ⟨c, hc, -⟩ := hc b.1 v ⟨b, hb, rfl, hv⟩
    cases hc
  by_cases hne : bs = []
  · obtain rfl := empty hfill' (fun n v => (hsame n v).2) hne
    subst hne
    obtain rfl := Except.ok.inj h
    obtain rfl := Except.ok.inj h'
    exact .refl _ _ _ _
  have hne' : bs' ≠ [] := fun e => hne (empty hfill (fun n v => (hsame n v).1) e)
  by_cases hi : r.Covers (some i)
  · have all : ∀ {cs : List Bundle} {P : NodeId → Int → Prop},
        (∀ b ∈ cs, ∀ v ∈ b.2, P b.1 v) ↔ ∀ n v, Bundle.Has cs n v → P n v := by
      intro cs P
      refine ⟨?_, fun h b hb v hv => h b.1 v ⟨b, hb, rfl, hv⟩⟩
      rintro h n v ⟨b, hb, rfl, hv⟩
      exact h b hb v hv
    refine hm.alike_of_iff fun X => ?_
    rw [below_arrived (p := ⟨m, o⟩) (hm.sums i) hm.toSeparate hm.toLattice hl hne hfill (all.2 hD) h hi,
      below_arrived (p := ⟨m, o'⟩) (hm.sums i) hm.toSeparate hm.toLattice hl hne' hfill'
        (all.2 fun n v hv => hD n v ((hsame n v).2 hv)) h' hi]
    rw [all (P := fun n v => ∀ t, m.Yields d l (w.graph.state n d.side) v i t → m.Below d.side i t X),
      all (P := fun n v => ∀ t, m.Yields d l (w.graph.state n d.side) v i t → m.Below d.side i t X)]
    exact forall₂_congr fun n v => by rw [hsame]
  · exact (alike_arrived (p := ⟨m, o⟩) hm.toSeparate hm.toLattice hne h hi).symm.trans
      (alike_arrived (p := ⟨m, o'⟩) hm.toSeparate hm.toLattice hne' h' hi)

/-- A node is computed to the same values whether values are grouped or not. -/
theorem computes_grouped {m : Model} {o : Options} (hm : m.Joined d D) (runs : m.Runs d)
    (hcache : w.cache.Sound m) {n : NodeId} (hl : w.feedLayer d n < m.depth)
    (hlabel : ∀ a ∈ w.arcsOn d n, D (w.feedLayer d n) (w.graph.arc a).value) (old : State) (r : Demand) :
    ∃ new new' w₁ w₂,
      stateFromNeighbours ⟨m, { o with groupValues := true }⟩ d (w.feedLayer d n)
        (w.bundles ⟨m, { o with groupValues := true }⟩ d n) old r w = .ok new w₁ ∧
      stateFromNeighbours ⟨m, { o with groupValues := false }⟩ d (w.feedLayer d n)
        (w.bundles ⟨m, { o with groupValues := false }⟩ d n) old r w = .ok new' w₂ ∧
      ∀ i, m.Alike d.side i new new' := by
  have given : ∀ o' : Options, ∃ new w', w.arrived ⟨m, o'⟩ d (w.feedLayer d n) (w.bundles ⟨m, o'⟩ d n) old r =
      .ok new ∧ stateFromNeighbours ⟨m, o'⟩ d (w.feedLayer d n) (w.bundles ⟨m, o'⟩ d n) old r w = .ok new w' := by
    intro o'
    obtain ⟨new, hnew⟩ := exists_arrived (p := ⟨m, o'⟩) runs hm.toLattice w (w.feedLayer d n)
      (w.bundles ⟨m, o'⟩ d n) old r
    have hcomp := computes_stateFromNeighbours (p := ⟨m, o'⟩) hcache d (w.feedLayer d n)
      (w.bundles ⟨m, o'⟩ d n) old r
    rw [hnew] at hcomp
    unfold Computes wp at hcomp
    split at hcomp
    · rename_i a w' e
      obtain rfl := Except.ok.inj hcomp.2
      exact ⟨new, w', hnew, e⟩
    · obtain ⟨-, f, -, he⟩ := hcomp
      cases he
  obtain ⟨new, w₁, hnew, hrun⟩ := given { o with groupValues := true }
  obtain ⟨new', w₂, hnew', hrun'⟩ := given { o with groupValues := false }
  obtain ⟨hfill, hhas⟩ := w.bundles_arcs ⟨m, { o with groupValues := true }⟩ d n
  obtain ⟨hfill', hhas'⟩ := w.bundles_arcs ⟨m, { o with groupValues := false }⟩ d n
  refine ⟨new, new', w₁, w₂, hrun, hrun', alike_arrived_of_has hm hl hfill hfill'
    (fun q v => (hhas q v).trans (hhas' q v).symm) (fun q v hq => ?_) hnew hnew'⟩
  obtain ⟨a, ha, -, rfl⟩ := (hhas q v).1 hq
  exact hlabel a ha

end Workspace

/-! ### Constraints -/

/-- In the diagrams of constraints with rules of their own nothing is lost by following several labels at once.
From every state, and whatever is combined with it, the transition over some values of the domain of a
layer's variable gives each property what its relaxation makes of the transitions over the single values.
A node is computed to the same values, in full or in part, whether values are grouped or not. -/
theorem Spec.grouping_exact {domains : Domains} {cs : List Constraint} {m : Model}
    (hcs : ∀ c ∈ cs, c.Ruled ∧ c.registrable domains = true ∧ c.malformed? = none)
    (hm : (ofConstraints domains cs).compile = .ok m) (d : Direction) :
    (∀ l < m.depth, ∀ s combined values, (∃ v, v ∈ values) →
      (∀ v ∈ values, domains.contains (m.var l) v = true) →
      ∃ r ss, m.step d l s combined values = .ok r ∧
        values.toList.mapM (fun v => m.step d l s combined (.singleton v)) = .ok ss ∧
        ∀ i, m.Merges d.side i ss r) ∧
    ∀ (o : Options) (w : Workspace) (n : NodeId) old r, w.cache.Sound m → w.feedLayer d n < m.depth →
      (∀ a ∈ w.arcsOn d n, domains.contains (m.var (w.feedLayer d n)) (w.graph.arc a).value = true) →
      ∃ new new' w₁ w₂,
        stateFromNeighbours ⟨m, { o with groupValues := true }⟩ d (w.feedLayer d n)
          (w.bundles ⟨m, { o with groupValues := true }⟩ d n) old r w = .ok new w₁ ∧
        stateFromNeighbours ⟨m, { o with groupValues := false }⟩ d (w.feedLayer d n)
          (w.bundles ⟨m, { o with groupValues := false }⟩ d n) old r w = .ok new' w₂ ∧
        ∀ i, m.Alike d.side i new new' := by
  have joined := joined_ofConstraints hcs hm d
  obtain ⟨hc, rfl⟩ := compile_eq_ok.1 hm
  have runs := (joined_of_ruled fun c h => ⟨(hcs c h).1, (hcs c h).2.1⟩).runs hc d
  refine ⟨fun l hl s combined values hne hD => ?_, fun o w n old r hcache hl hlabel => ?_⟩
  · obtain ⟨r, hr⟩ := runs.step l s combined values
    obtain ⟨ss, hss, merges⟩ := joined.merges_step hl hne hD hr
    exact ⟨r, ss, hr, hss, merges⟩
  · exact Workspace.computes_grouped joined runs hcache hl hlabel old r

/-! Two arcs between the same nodes. -/

namespace Parallel

def domain : Domain := .ofCons 1 [2, 3]

def roots : Domains := { domains := #[domain, domain] }

def constraints : List Constraint := [.allDifferent [0, 1], .sequence [0, 1] 2 [1] 0 1]

def model : Model := (Spec.ofConstraints roots constraints).toModel

theorem ruled : ∀ c ∈ constraints, c.Ruled ∧ c.registrable roots = true ∧ c.malformed? = none := by
  intro c hc
  simp only [constraints, List.mem_cons, List.not_mem_nil, or_false] at hc
  rcases hc with rfl | rfl
  · exact ⟨trivial, rfl, rfl⟩
  · exact ⟨show 2 < 0x100000000 by decide, rfl, rfl⟩

/-- The root with one child, to which the labels 1 and 3 lead. -/
def workspace : Workspace :=
  let start : Workspace :=
    { Diagram.initial model with domains := roots, agenda := .empty model.depth, budget := 0 }
  let states : BySide State := ⟨model.fresh .down, model.fresh .up, model.fresh .combined⟩
  let (root, w) := start.addNode 0 states
  let (child, w) := w.addNode 1 states
  (w.connect root child 1).connect root child 3

end Parallel

theorem Spec.grouping_exact_parallel :
    (∃ r ss, Parallel.model.step .down 0 (Parallel.model.fresh .down) none (.ofList [1, 3]) = .ok r ∧
      [1, 3].mapM (fun v => Parallel.model.step .down 0 (Parallel.model.fresh .down) none (.singleton v)) =
        .ok ss ∧ ∀ i, Parallel.model.Merges .down i ss r) ∧
    ∃ new new' w₁ w₂,
      stateFromNeighbours ⟨Parallel.model, { groupValues := true }⟩ .down 0
        (Parallel.workspace.bundles ⟨Parallel.model, { groupValues := true }⟩ .down 1)
        (Parallel.model.fresh .down) .full Parallel.workspace = .ok new w₁ ∧
      stateFromNeighbours ⟨Parallel.model, { groupValues := false }⟩ .down 0
        (Parallel.workspace.bundles ⟨Parallel.model, { groupValues := false }⟩ .down 1)
        (Parallel.model.fresh .down) .full Parallel.workspace = .ok new' w₂ ∧
      ∀ i, Parallel.model.Alike .down i new new' := by
  obtain ⟨transitions, nodes⟩ := Spec.grouping_exact Parallel.ruled
    (Spec.compile_eq_ok.2 ⟨by decide +kernel, rfl⟩) .down
  have labels : ∀ v ∈ (IntSet.ofList [1, 3]).toList,
      Parallel.roots.contains (Parallel.model.var 0) v = true := by decide +kernel
  have arcs : ∀ a ∈ (Parallel.workspace.arcsOn .down 1).toList, Parallel.roots.contains
      (Parallel.model.var 0) (Parallel.workspace.graph.arc a).value = true := by decide +kernel
  exact ⟨transitions 0 (by decide +kernel) _ none (.ofList [1, 3]) ⟨1, by decide⟩
      fun v hv => labels v (IntSet.mem_def.1 hv),
    nodes {} Parallel.workspace 1 _ .full (Memo.sound_empty _) (by decide +kernel)
      fun a ha => arcs a (Array.mem_toList_iff.2 ha)⟩

end DecisionDiagrams
