import DecisionDiagrams.Proofs.Stored.Changes

/-! A stored diagram next to the diagrams which a solver has at present and keeps at its checkpoints. The journal of
its graph may be behind the level of the solver, since it is brought there only when the diagram is propagated; what
going back to a level would bring back is the same all the same. -/

namespace DecisionDiagrams

namespace Diagram.Held

variable {p : Plan} {d : Diagram}

theorem built_propagate (h : d.Held p) (fuel : ℕ) (lost : List ℕ) (t : Domains) :
    (d.propagate p fuel lost t).diagram.built = true := by
  obtain ⟨u, w, way, diagram, -⟩ := h.propagate fuel lost t
  rw [← diagram]
  exact way.fair.built

/-- Up states become known only while a diagram is built. -/
theorem upKnown_propagate (h : d.Held p) (built : d.built = true) (fuel : ℕ) (lost : List ℕ) (t : Domains) :
    (d.propagate p fuel lost t).diagram.upKnown = d.upKnown := by
  obtain ⟨u, w, way, diagram, -⟩ := h.propagate fuel lost t
  obtain rfl := way.given built
  rw [← diagram]
  refine (Edits.along (I := fun w => w.upKnown = d.upKnown) (fun w e kind fits _ same => ?_) way.refining
    (h.orderly t) rfl).2
  by_cases calm : e.kind = .calm
  · exact (e.subsides calm fits).upKnown.trans same
  · cases e with
    | split | reboot => exact same
    | markBuilt | markUpKnown | addNode => exact absurd kind (by simp [Edit.kind])
    | _ => exact absurd rfl calm

end Diagram.Held

namespace StoredDiagram

/-- The number in the cell of a value; a value without a cell is not counted. -/
def count (d : StoredDiagram) (c : Cells) (layer : ℕ) (v : ℤ) : ℤ :=
  match d.rows[layer]?.bind (·.cell? v) with
  | some i => c.read i
  | none => 0

variable {d : StoredDiagram} {p : Plan} {spans : Array (ℤ × ℕ)} {H K : History (Array ℤ)} {D E : ℕ → Diagram}
  {l target : ℕ}

/-- The diagram `D l` is what going back to the level `l` brings back. -/
structure Follows (p : Plan) (spans : Array (ℤ × ℕ)) (H : History (Array ℤ)) (D : ℕ → Diagram) (d : StoredDiagram) :
    Prop where
  plan : d.plan = p
  housed : Housed p spans d.rows
  graph : ∃ h, d.arena.Mirrors h ∧ h.level ≤ H.level ∧ ∀ l, (D l).graph = h.back l
  built : ∀ l, (D l).built = true ↔ ∃ b ∈ d.builtAt, b ≤ l
  builtAt : ∀ b ∈ d.builtAt, b ≤ H.level
  upKnown : ∀ l, (D l).upKnown = if (D l).built then d.upKnown else !p.model.hasUp
  fresh : d.builtAt = none → d.upKnown = !p.model.hasUp
  counted : ∀ l, Counted d.rows (H.back l) (D l).graph
  ranged : ∀ l, Ranged d.rows (D l).graph

namespace Follows

theorem graph_current (f : Follows p spans H D d) : ∃ h, d.arena.Mirrors h ∧ h.current = (D H.level).graph := by
  obtain ⟨h, mirrors, level, graph⟩ := f.graph
  exact ⟨h, mirrors, by rw [graph, History.back_of_le level]⟩

theorem shows (f : Follows p spans H D d) : d.arena.Shows (D H.level).graph := by
  obtain ⟨h, mirrors, current⟩ := f.graph_current
  exact current ▸ mirrors.shows

theorem counts (f : Follows p spans H D d) {c : Cells} (m : c.Mirrors H) : Counted d.rows c.values (D H.level).graph := by
  rw [m.values, ← History.back_of_le (Nat.le_refl H.level)]
  exact f.counted H.level

theorem count_eq (f : Follows p spans H D d) {c : Cells} (m : c.Mirrors H) (census : Census p ((D H.level).workspace p {}))
    (l : ℕ) (v : ℤ) : d.count c l v = (D H.level).graph.labelled l v := by
  unfold count
  split
  · rename_i i hi
    obtain ⟨r, hr, hi⟩ := Option.bind_eq_some_iff.1 hi
    exact (f.counts m).read hr hi
  · rename_i none
    cases hr : d.rows[l]? with
    | none =>
      -- no arc leads from a layer without a row
      rw [List.getElem?_eq_none_iff, f.housed.length] at hr
      symm
      rw [Nat.cast_eq_zero]
      refine Nat.eq_zero_of_not_pos fun pos => ?_
      obtain ⟨a, ha, rfl, -⟩ := Graph.labelled_pos_iff.1 pos
      exact absurd (census.parent_lt_depth ha) (Nat.not_lt.2 hr)
    | some r =>
      rw [hr, Option.bind_some] at none
      rw [(f.ranged _).labelled_eq_zero hr none]
      rfl

/-- The counts which the cells have are those of the arcs. -/
theorem supports (f : Follows p spans H D d) {c : Cells} (m : c.Mirrors H) (sound : (D H.level).Sound p) :
    (d.rows.map (·.supports c)).toArray = (D H.level).supports := by
  have census := sound.held.census {}
  have size : (D H.level).supports.size = p.model.depth := census.tracked
  refine Array.ext_getElem? fun l => ?_
  rw [List.getElem?_toArray, List.getElem?_map]
  cases hr : d.rows[l]? with
  | none =>
    rw [List.getElem?_eq_none_iff, f.housed.length] at hr
    exact (Array.getElem?_eq_none (size.trans_le hr)).symm
  | some r =>
    have hl : l < (D H.level).supports.size := (f.housed.lt hr).trans_eq size.symm
    have hs := Array.getElem?_eq_getElem hl
    have count : ∀ v, (D H.level).supports[l].count v = (D H.level).graph.labelled l v := fun v => by
      have counted := census.supports l v
      change ((D H.level).supports.getD l ∅).count v = (D H.level).graph.labelled l v at counted
      rwa [Array.getD_eq_getD_getElem?, hs, Option.getD_some] at counted
    rw [hs, Option.map_some]
    refine congrArg some (Row.supports_eq (sound.noted l _ hs) (fun v i hi => ?_) fun v hv => ?_)
    · rw [(f.counts m).read hr hi, count]
    · rw [count, (f.ranged _).labelled_eq_zero hr hv]

theorem builtAt_isSome (f : Follows p spans H D d) : d.builtAt.isSome = (D H.level).built := by
  rw [Bool.eq_iff_iff, f.built, Option.isSome_iff_exists]
  exact ⟨fun ⟨b, hb⟩ => ⟨b, hb, f.builtAt b hb⟩, fun ⟨b, hb, _⟩ => ⟨b, hb⟩⟩

theorem upKnown_current (f : Follows p spans H D d) : d.upKnown = (D H.level).upKnown := by
  rw [f.upKnown, ← f.builtAt_isSome]
  split_ifs with h
  · rfl
  · exact f.fresh (Option.not_isSome_iff_eq_none.1 h)

/-- A propagation reads the present diagram. -/
theorem whole (f : Follows p spans H D d) {c : Cells} (m : c.Mirrors H) (sound : (D H.level).Sound p) :
    d.whole c = D H.level := by
  unfold StoredDiagram.whole
  rw [f.shows.inUse, f.supports m sound, f.builtAt_isSome, f.upKnown_current]

/-- The arena is brought to the level of the solver. -/
theorem align (f : Follows p spans H D d) : ∃ h, (d.arena.align H.level).Mirrors h ∧ h.level = H.level ∧
    ∀ l, (D l).graph = h.back l := by
  obtain ⟨h, mirrors, level, graph⟩ := f.graph
  refine ⟨_, mirrors.align H.level, ?_, fun l => (graph l).trans (History.back_repeat h _ l).symm⟩
  rw [History.level_repeat]
  omega

theorem openCheckpoint (f : Follows p spans H D d) : Follows p spans H.openCheckpoint D d where
  plan := f.plan
  housed := f.housed
  graph := by
    obtain ⟨h, mirrors, level, graph⟩ := f.graph
    exact ⟨h, mirrors, level.trans (Nat.le_succ _), graph⟩
  built := f.built
  builtAt b hb := (f.builtAt b hb).trans (Nat.le_succ _)
  upKnown := f.upKnown
  fresh := f.fresh
  counted l := History.back_openCheckpoint H l ▸ f.counted l
  ranged := f.ranged

/-- The lists of layers and the counters have no part in it. -/
theorem congr {e : StoredDiagram} (f : Follows p spans H D d) (plan : e.plan = d.plan) (rows : e.rows = d.rows)
    (arena : e.arena = d.arena) (builtAt : e.builtAt = d.builtAt) (upKnown : e.upKnown = d.upKnown) :
    Follows p spans H D e := by
  obtain ⟨plan', arena', rows', builtAt', upKnown', lost, last, total⟩ := e
  subst plan rows arena builtAt upKnown
  exact ⟨f.plan, f.housed, f.graph, f.built, f.builtAt, f.upKnown, f.fresh, f.counted, f.ranged⟩

/-- Other cells were written, and more variables have marks. -/
theorem frame {spans' : Array (ℤ × ℕ)} (f : Follows p spans H D d) (level : K.level = H.level)
    (counted : ∀ l, Counted d.rows (K.back l) (D l).graph) (housed : Housed p spans' d.rows) :
    Follows p spans' K D d where
  plan := f.plan
  housed := housed
  graph := by rw [level]; exact f.graph
  built := f.built
  builtAt := by rw [level]; exact f.builtAt
  upKnown := f.upKnown
  fresh := f.fresh
  counted := counted
  ranged := f.ranged

theorem synchronise (f : Follows p spans H D d) (ht : target < H.level) : ∃ e, d.synchronise target = some e ∧
    Follows p spans (H.backtrack target) (fun l => D (min l target)) e ∧
    e.rows = d.rows ∧ e.lost = [] ∧ e.last = d.last ∧ e.total = d.total := by
  obtain rfl := f.plan
  obtain ⟨h, mirrors, level, graph⟩ := f.graph
  obtain ⟨b, hb, back⟩ := mirrors.synchronise target
  have done : d.synchronise target = some
      { d with
        arena := b
        builtAt := if d.builtAt.all (· ≤ target) then d.builtAt else none
        upKnown := if d.builtAt.all (· ≤ target) then d.upKnown else !d.plan.model.hasUp
        lost := [] } := by
    rw [StoredDiagram.synchronise, hb]
    rfl
  refine ⟨_, done, ?_, rfl, rfl, rfl, rfl⟩
  have hlevel : (h.backtrack target).level ≤ target := by
    rcases Nat.lt_or_ge target h.level with lt | ge
    · exact (History.level_backtrack lt).le
    · rwa [History.backtrack_of_le ge]
  have built : ∀ l, (D (min l target)).built = true ↔
      ∃ b ∈ (if d.builtAt.all (· ≤ target) then d.builtAt else none), b ≤ l := fun l => by
    rw [f.built]
    cases d.builtAt with
    | none => simp
    | some b =>
      by_cases hbt : b ≤ target
      · simp [hbt]
      · simp [hbt]
  refine
    { plan := rfl
      housed := f.housed
      graph := ⟨_, back, hlevel.trans (History.level_backtrack ht).ge, fun l => ?_⟩
      built := built
      builtAt := fun b hb => ?_
      upKnown := fun l => ?_
      fresh := fun none => ?_
      counted := fun l => ?_
      ranged := fun l => f.ranged _ }
  · rw [graph, History.back_backtrack]
  · rw [History.level_backtrack ht]
    dsimp only at hb
    split_ifs at hb with stays
    · exact of_decide_eq_true ((Option.all_eq_true _ _).1 stays b hb)
    · cases hb
  · rw [f.upKnown]
    dsimp only
    split_ifs with hl stays
    · rfl
    · obtain ⟨b, hb, -⟩ := (built l).1 hl
      rw [if_neg stays] at hb
      cases hb
    · rfl
  · dsimp only at none ⊢
    split_ifs at none ⊢ with stays
    · exact f.fresh none
    · rfl
  · rw [History.back_backtrack]
    exact f.counted _

/-- The present diagram is replaced by `e`, which what is stored holds as well. -/
theorem replace {e : Diagram} {vs : Array ℤ} (f : Follows p spans H D d) {a : Arena} {h : History Graph}
    (arena : a.Mirrors (h.modify fun _ => e.graph)) (level : h.level = H.level) (graph : ∀ l, (D l).graph = h.back l)
    (built : e.built = true) (upKnown : (D H.level).built = true → e.upKnown = (D H.level).upKnown)
    (counted : Counted d.rows vs e.graph) (ranged : Ranged d.rows e.graph) {new : StoredDiagram}
    (shape : new = { d with
      arena := a
      builtAt := d.builtAt.or (some H.level)
      upKnown := e.upKnown
      lost := new.lost
      last := new.last
      total := new.total }) :
    Follows p spans (H.modify fun _ => vs) (fun l => if l < H.level then D l else e) new := by
  rw [shape]
  have since : ∀ b, b ∈ d.builtAt.or (some H.level) → b ∈ d.builtAt ∨ d.builtAt = none ∧ b = H.level := fun b hb => by
    cases hd : d.builtAt with
    | none => rw [hd] at hb; exact Or.inr ⟨rfl, (Option.some.inj hb).symm⟩
    | some b' => rw [hd] at hb; exact Or.inl hb
  refine
    { plan := f.plan
      housed := f.housed
      graph := ⟨_, arena, level.le, fun l => ?_⟩
      built := fun l => ?_
      builtAt := fun b hb => ?_
      upKnown := fun l => ?_
      fresh := fun none => ?_
      counted := fun l => ?_
      ranged := fun l => ?_ }
  · split_ifs with hl
    · rw [graph, History.back_modify (level ▸ hl)]
    · rw [History.back_modify_of_le (level.trans_le (Nat.not_lt.1 hl))]
  · split_ifs with hl
    · rw [f.built]
      refine exists_congr fun b => and_congr_left fun hbl => ⟨fun hb => ?_, fun hb => ?_⟩
      · rw [show d.builtAt = some b from hb]
        rfl
      · rcases since b hb with hb | ⟨-, rfl⟩
        · exact hb
        · exact absurd hl (Nat.not_lt.2 hbl)
    · refine iff_of_true built ?_
      cases hd : d.builtAt with
      | none => exact ⟨H.level, rfl, Nat.not_lt.1 hl⟩
      | some b => exact ⟨b, rfl, (f.builtAt b hd).trans (Nat.not_lt.1 hl)⟩
  · rcases since b hb with hb | ⟨-, rfl⟩
    · exact f.builtAt b hb
    · exact Nat.le_refl _
  · split_ifs with hl hb
    · -- a diagram which was built below is built now, and its up states are as well known as then
      obtain ⟨b, hd, hbl⟩ := (f.built l).1 hb
      have now : (D H.level).built = true := (f.built _).2 ⟨b, hd, hbl.trans hl.le⟩
      rw [f.upKnown, if_pos hb, upKnown now, f.upKnown, if_pos now]
    · rw [f.upKnown, if_neg hb]
    · rfl
  · cases hd : d.builtAt <;> rw [hd] at none <;> cases none
  · split_ifs with hl
    · rw [History.back_modify hl]
      exact f.counted l
    · rw [History.back_modify_of_le (Nat.not_lt.1 hl)]
      exact counted
  · split_ifs with hl
    · exact f.ranged l
    · exact ranged

/-- A propagation can make its changes, and the diagram follows what it arrives at. -/
theorem propagate {c : Cells} {st : Store} {R : History Domains} (f : Follows p st.spans H D d) (cells : c.Mirrors H)
    (sound : (D H.level).Sound p) (store : st.Follows R) (fuel : ℕ) (lost : List ℕ) {r : Propagated}
    (result : (D H.level).propagate p fuel lost R.current = r) :
    ∃ k vs, r.changes.foldlM (Holdings.make d.rows) { store := st, cells := c, arena := d.arena.align H.level } =
        some k ∧ k.store.Follows (R.modify fun _ => r.domains) ∧ k.store.spans = st.spans ∧
      k.cells.Mirrors (H.modify fun _ => vs) ∧ Besides d.rows H.current vs ∧
      ∀ new : StoredDiagram, new = { d with
          arena := k.arena
          builtAt := d.builtAt.or (some H.level)
          upKnown := r.diagram.upKnown
          lost := new.lost
          last := new.last
          total := new.total } →
        Follows p st.spans (H.modify fun _ => vs) (fun l => if l < H.level then D l else r.diagram) new := by
  obtain ⟨h, aligned, level, graph⟩ := f.align
  have current : h.current = (D H.level).graph := by rw [graph, History.back_of_le level.le]
  have counted : Counted d.rows H.current (D H.level).graph := by
    rw [← History.back_of_le (Nat.le_refl H.level)]
    exact f.counted H.level
  have start : Holdings.Tracks d.rows st.spans R H h { store := st, cells := c, arena := d.arena.align H.level }
      ((D H.level).workspace p R.current) :=
    ⟨store, rfl, ⟨H.current, cells, counted, .refl _ _⟩,
      current ▸ (aligned : Arena.Mirrors _ (h.modify fun _ => h.current)), f.ranged _⟩
  obtain ⟨k, w, made, tracks, diagram, domains⟩ := start.propagate sound.held f.housed fuel lost
  obtain ⟨vs, cells', counted', besides⟩ := tracks.cells
  rw [result] at made diagram domains
  have graph' : w.graph = r.diagram.graph := congrArg Diagram.graph diagram
  refine ⟨k, vs, made, domains ▸ tracks.store, tracks.spans, cells', besides, fun new shape => ?_⟩
  refine f.replace (graph' ▸ tracks.arena) level graph ?_ (fun built => ?_) (graph' ▸ counted') (graph' ▸ tracks.ranged)
    shape
  · rw [← result]
    exact sound.held.built_propagate fuel lost R.current
  · rw [← result]
    exact sound.held.upKnown_propagate built fuel lost R.current

end Follows
end StoredDiagram
end DecisionDiagrams
