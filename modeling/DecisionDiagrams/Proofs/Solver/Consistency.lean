import DecisionDiagrams.Proofs.Solver.Runs

/-! What propagation keeps of diagrams holds after every operation of a run and in all worlds which are
kept. An assignment which the user's own restrictions leave, and which all diagrams accept, stays in
the domains, and no propagation reports a conflict while there is one. -/

namespace DecisionDiagrams

variable {β : Type} {R : Rules β} {solves : β → (Var → Int) → Prop}
  {accepts : Plan → (Var → Int) → Prop} {P : Standing}

/-- A plan was made for what was posted, when the domains were those of `s` or larger. -/
def Rules.Made (R : Rules β) (b : β) (p : Plan) (s : Domains) : Prop :=
  ∃ r : Solver, R.plan r b p ∧ (∀ l < p.model.depth, p.model.var l < r.domains.size) ∧
    Under r.domains s

theorem Rules.Made.under {b : β} {p : Plan} {s t : Domains} (h : R.Made b p s) (k : Under s t) :
    R.Made b p t := by
  obtain ⟨r, hr, hk, hu⟩ := h
  exact ⟨r, hr, hk, hu.trans k⟩

/-- A plan which is used with these domains. -/
def Rules.Fits (R : Rules β) (p : Plan) (s : Domains) : Prop := ∃ b, R.Made b p s

/-- What the rules have to provide for `P`. -/
structure Rules.Upholds (R : Rules β) (solves : β → (Var → Int) → Prop)
    (accepts : Plan → (Var → Int) → Prop) (P : Standing) : Prop
    extends Upheld R.Fits accepts P where
  accepted : ∀ {b p s σ}, R.Made b p s → Within σ s → solves b σ → accepts p σ

/-- A world in which all diagrams are built and have the property, and which has every assignment
which solves everything posted and which the user left. -/
structure Intact (R : Rules β) (solves : β → (Var → Int) → Prop) (P : Standing) (posted : List β)
    (s : Solver) (m : Memory) (w : World) : Prop where
  paired : w.diagrams.size = s.entries.size
  made : ∀ i p, s.planAt i = some p → ∃ b ∈ posted, R.Made b p w.domains
  enrolled : ∀ b ∈ posted, ∃ i p, s.planAt i = some p ∧ R.Made b p w.domains
  built : ∀ i p d, s.planAt i = some p → w.diagrams[i]? = some d → d.built = true
  stands : ∀ i p d, s.planAt i = some p → w.diagrams[i]? = some d →
    P p (fun l => m.forgotten (p.model.var l) ∨ p.model.var l ∈ w.domains.changed) d w.domains
  within : ∀ σ, (∀ b ∈ posted, solves b σ) → (∀ x < w.domains.size, m.own x (σ x)) →
    Within σ w.domains

/-- What holds throughout a run. -/
structure Consistent (R : Rules β) (solves : β → (Var → Int) → Prop) (P : Standing) (h : Story β)
    (s : Solver) : Prop where
  kept : List.Forall₂ (Intact R solves P h.posted s) h.past.kept s.history.kept
  current : h.calm = true → Intact R solves P h.posted s h.past.current s.world
  idle : h.calm = true → s.queue = []
  unlisted : h.calm = true → ∀ i, s.lostAt i = []
  alive : h.calm = true ∨ s.level ≠ 0 → s.rootFailure = none

section

variable {posted : List β} {s t : Solver} {m : Memory} {w : World}

theorem Intact.congr (h : Intact R solves P posted s m w) (hn : t.entries.size = s.entries.size)
    (hp : ∀ i, t.planAt i = s.planAt i) : Intact R solves P posted t m w := by
  refine ⟨h.paired.trans hn.symm, fun i p hi => ?_, fun b hb => ?_, fun i p d hi => ?_,
    fun i p d hi => ?_, h.within⟩
  · exact h.made i p (hp i ▸ hi)
  · obtain ⟨i, p, hi, hm⟩ := h.enrolled b hb
    exact ⟨i, p, (hp i).trans hi, hm⟩
  · exact h.built i p d (hp i ▸ hi)
  · exact h.stands i p d (hp i ▸ hi)

theorem Intact.kept (h : Intact R solves P posted s m s.world) (hl : ∀ i, s.lostAt i = []) :
    s.Kept R.Fits P m.forgotten := by
  refine ⟨h.paired, fun i hi => absurd (hl i) hi, fun i p hp => ?_, fun i p d hp hd => ?_⟩
  · obtain ⟨b, -, hb⟩ := h.made i p hp
    exact ⟨b, hb⟩
  · refine Or.inl ⟨h.built i p d hp hd, ?_⟩
    have e : s.staleAt m.forgotten i p =
        fun l => m.forgotten (p.model.var l) ∨ p.model.var l ∈ s.world.domains.changed := by
      funext l
      unfold Solver.staleAt
      rw [hl i]
      simp [Solver.domains]
    rw [e]
    exact h.stands i p d hp hd

theorem Intact.accepted (hP : R.Upholds solves accepts P)
    (h : Intact R solves P posted s m s.world) {σ : Var → Int} (hs : ∀ b ∈ posted, solves b σ)
    (hσ : Within σ s.domains) : s.Accepted accepts σ := by
  intro i p hp
  obtain ⟨b, hb, hm⟩ := h.made i p hp
  exact hP.accepted hm hσ (hs b hb)

/-- Only the domains and the memory change, and the property stands. -/
theorem Intact.redomain (h : Intact R solves P posted s m w) {D : Domains} {m' : Memory}
    (hu : Under w.domains D) (ht : t.world = { w with domains := D })
    (hn : t.entries.size = s.entries.size) (hp : ∀ i, t.planAt i = s.planAt i)
    (hs : ∀ i p d, s.planAt i = some p → w.diagrams[i]? = some d →
      P p (fun l => m'.forgotten (p.model.var l) ∨ p.model.var l ∈ D.changed) d D)
    (hw : ∀ σ, (∀ b ∈ posted, solves b σ) → (∀ x < D.size, m'.own x (σ x)) → Within σ D) :
    Intact R solves P posted t m' t.world := by
  rw [ht]
  refine ⟨h.paired.trans hn.symm, fun i p hi => ?_, fun b hb => ?_, fun i p d hi hd => ?_,
    fun i p d hi hd => ?_, hw⟩
  · obtain ⟨b, hb, hm⟩ := h.made i p (hp i ▸ hi)
    exact ⟨b, hb, hm.under hu⟩
  · obtain ⟨i, p, hi, hm⟩ := h.enrolled b hb
    exact ⟨i, p, (hp i).trans hi, hm.under hu⟩
  · exact h.built i p d (hp i ▸ hi) hd
  · exact hs i p d (hp i ▸ hi) hd

end

namespace Consistent

variable {h : Story β} {s t : Solver}

theorem start : Consistent R solves P {} {} := by
  refine ⟨.nil, fun _ => ⟨rfl, ?_, nofun, ?_, ?_, ?_⟩, fun _ => rfl, fun _ _ => rfl, fun _ => rfl⟩
  · intro i p hp
    cases hp
  · intro i p d hp
    cases hp
  · intro i p d hp
    cases hp
  · intro σ _ _ x hx
    cases hx

theorem kept_congr (c : Consistent R solves P h s) (hn : t.entries.size = s.entries.size)
    (hp : ∀ i, t.planAt i = s.planAt i) :
    List.Forall₂ (Intact R solves P h.posted t) h.past.kept s.history.kept :=
  c.kept.imp fun _ _ hw => hw.congr hn hp

theorem addVariable (hP : R.Upholds solves accepts P) (c : Consistent R solves P h s)
    (calm : h.calm = true) {d : Domain} {x : Var} (hs : s.addVariable (some d) = .ok (x, t)) :
    Consistent R solves P { h with past := h.past.modify fun m =>
      { m with own := fun y v => if y = x then v ∈ d else m.own y v } } t := by
  unfold Solver.addVariable at hs
  split_ifs at hs with hl
  obtain ⟨rfl, rfl⟩ := Prod.mk.inj (Except.ok.inj hs)
  have cur := c.current calm
  have same : ∀ p, R.Fits p s.world.domains → ∀ l < p.model.depth, ∀ v,
      (s.domains.add d).contains (p.model.var l) v = s.world.domains.contains (p.model.var l) v :=
    fun p hp l hl v => Domains.contains_add (hP.known hp l hl) d v
  have hu : Under s.world.domains (s.domains.add d) :=
    ⟨Nat.le_of_lt (Nat.lt_of_lt_of_eq (Nat.lt_succ_self _) (Domains.size_add _ d).symm),
      fun x hx v hv => (Domains.contains_add hx d v).symm.trans hv⟩
  refine ⟨c.kept_congr rfl fun _ => rfl, fun _ => ?_, c.idle, c.unlisted, c.alive⟩
  refine cur.redomain hu rfl rfl (fun _ => rfl) (fun i p e hp he => ?_) fun σ hb hσ y hy => ?_
  · obtain ⟨b, -, hm⟩ := cur.made i p hp
    refine hP.adapt (cur.stands i p e hp he) (fun l hl v hv => ?_) (fun _ _ hst => hst)
      fun l hl v hv hn => ?_
    · rwa [← same p ⟨b, hm⟩ l hl v]
    · rw [same p ⟨b, hm⟩ l hl v, hv] at hn
      cases hn
  · rw [Domains.size_add] at hy hσ
    rcases Nat.lt_succ_iff_lt_or_eq.1 hy with hlt | rfl
    · rw [Domains.contains_add hlt]
      refine cur.within σ hb (fun z hz => ?_) y hlt
      have hz' := hσ z (Nat.lt_succ_of_lt hz)
      dsimp only [History.modify] at hz'
      have hne : z ≠ s.domains.size := Nat.ne_of_lt hz
      rwa [if_neg hne] at hz'
    · rw [Domains.contains_add_self]
      have hy' := hσ _ hy
      dsimp only [History.modify] at hy'
      rwa [if_pos rfl] at hy'

theorem restrict (hP : R.Upholds solves accepts P) (c : Consistent R solves P h s)
    (calm : h.calm = true) {x : Var} {keep : Int → Bool}
    (hs : s.restrict x (·.restrict? x keep) = .ok t) :
    Consistent R solves P { h with past := h.past.modify fun m =>
      { m with own := fun y v => m.own y v ∧ (y = x → keep v = true) } } t := by
  unfold Solver.restrict at hs
  split_ifs at hs
  split at hs
  · rename_i b D hD
    obtain rfl := Except.ok.inj hs
    have cur := c.current calm
    have hn : Domains.Narrows s.world.domains D := Domains.narrows_restrict? hD
    refine ⟨c.kept_congr rfl fun _ => rfl, fun _ => ?_, c.idle, c.unlisted, c.alive⟩
    refine cur.redomain hn.under rfl rfl (fun _ => rfl) (fun i p e hp he => ?_) fun σ hb hσ y hy => ?_
    · exact hP.adapt (cur.stands i p e hp he) (fun l _ v hv => hn.contains _ _ hv)
        (fun l _ hst => hst.imp id (hn.listed _)) fun l _ v hv hn' => Or.inr (hn.changed _ _ hv hn')
    · refine (Domains.contains_restrict? hD).2 ⟨?_, (hσ y hy).2⟩
      rw [hn.size] at hy hσ
      exact cur.within σ hb (fun z hz => (hσ z hz).1) y hy
  · cases hs

theorem openCheckpoint (c : Consistent R solves P h s) (calm : h.calm = true) :
    Consistent R solves P { h with past := h.past.openCheckpoint } s.openCheckpoint := by
  have hk := c.kept_congr (t := s.openCheckpoint) rfl fun _ => rfl
  have cur := (c.current calm).congr (t := s.openCheckpoint) rfl fun _ => rfl
  exact ⟨.cons cur hk, fun _ => cur, c.idle, c.unlisted, fun _ => c.alive (Or.inl calm)⟩

theorem backtrack (hP : R.Upholds solves accepts P) (c : Consistent R solves P h s) {target : Nat}
    (hs : s.backtrack? target = some t) :
    Consistent R solves P (h.returned target (s.history.backtrack target).current) t := by
  unfold Solver.backtrack? at hs
  split_ifs at hs with hl
  obtain rfl := Option.some.inj hs
  obtain ⟨cur, hk⟩ := History.backtrack_forall₂ c.kept hl
  have alive := c.alive (Or.inr (Nat.ne_of_gt (Nat.lt_of_le_of_lt (Nat.zero_le _) hl)))
  have hplan : ∀ i, (((s.entries.map fun e => { e with lost := [] })[i]?).map (·.plan)) =
      s.planAt i := by
    intro i
    rw [Array.getElem?_map, Option.map_map]
    rfl
  have hlost : ∀ i : Nat, ((((s.entries.map fun e => { e with lost := [] })[i]?).map Entry.lost).getD []) =
      [] := by
    intro i
    rw [Array.getElem?_map, Option.map_map]
    cases s.entries[i]? <;> rfl
  refine ⟨hk.imp fun _ _ hw => hw.congr Array.size_map hplan, fun _ => ?_, fun _ => rfl,
    fun _ => hlost, fun _ => alive⟩
  refine cur.redomain (D := (s.history.backtrack target).current.domains.settle)
    ⟨Nat.le_refl _, fun _ _ _ hv => hv⟩ rfl Array.size_map hplan (fun i p e hp he => ?_) cur.within
  refine hP.adapt (cur.stands i p e hp he) (fun _ _ _ hv => hv) (fun l _ hst => Or.inl hst)
    fun l _ v hv hn => ?_
  rw [Domains.contains_settle, hv] at hn
  cases hn

/-- After a propagation which succeeds, the diagrams which waited are built. -/
theorem after_propagation (hP : R.Upholds solves accepts P) {posted : List β} {m : Memory}
    (hk : s.Kept R.Fits P m.forgotten) (alive : s.rootFailure = none)
    (hs : s.propagate = (none, t))
    (made : ∀ i p, s.planAt i = some p → ∃ b ∈ posted, R.Made b p s.domains)
    (enrolled : ∀ b ∈ posted, ∃ i p, s.planAt i = some p ∧ R.Made b p s.domains)
    (within : ∀ σ, (∀ b ∈ posted, solves b σ) → (∀ x < s.domains.size, m.own x (σ x)) →
      Within σ s.domains) :
    Intact R solves P posted t { m with forgotten := Solver.stillForgotten m.forgotten s t } t.world ∧
      t.queue = [] ∧ (∀ i, t.lostAt i = []) ∧ t.rootFailure = none := by
  obtain ⟨hk', hq, hc, hpr, hw⟩ := hk.propagate hP.toUpheld alive hs
  have hlost : ∀ i, t.lostAt i = [] := fun i => by
    by_contra hl
    have := hk'.listed i hl
    rw [hq] at this
    cases this
  have hu : Under s.domains t.domains :=
    ⟨Nat.le_of_eq hpr.size.symm, fun x _ v hv => hpr.contains x v hv⟩
  have stands : ∀ i p d, t.planAt i = some p → t.world.diagrams[i]? = some d →
      d.built = true ∧ P p (t.staleAt (Solver.stillForgotten m.forgotten s t) i p) d t.domains := by
    intro i p d hp hd
    refine (hk'.stands i p d hp hd).resolve_right fun hini => ?_
    rw [hq] at hini
    cases hini.2
  refine ⟨⟨hk'.paired, fun i p hp => ?_, fun b hb => ?_, fun i p d hp hd => (stands i p d hp hd).1,
    fun i p d hp hd => ?_, fun σ hb hσ => ?_⟩, hq, hlost, hpr.rootFailure.trans alive⟩
  · obtain ⟨b, hb, hm⟩ := made i p ((hpr.plan i).symm.trans hp)
    exact ⟨b, hb, hm.under hu⟩
  · obtain ⟨i, p, hp, hm⟩ := enrolled b hb
    exact ⟨i, p, (hpr.plan i).trans hp, hm.under hu⟩
  · refine hP.weaken (stands i p d hp hd).2 fun l _ hl => ?_
    rcases hl with hl | hl | hl
    · exact Or.inl hl
    · rw [hlost i] at hl
      cases hl
    · exact Or.inr hl
  · have hσ' : Within σ s.domains := within σ hb fun x hx => hσ x (Nat.lt_of_lt_of_eq hx hpr.size.symm)
    refine hw σ (fun i p hp => ?_) hσ'
    obtain ⟨b, hb', hm⟩ := made i p hp
    exact hP.accepted hm hσ' (hb b hb')

theorem propagate (hP : R.Upholds solves accepts P) (c : Consistent R solves P h s)
    (calm : h.calm = true) (hs : s.propagate = (none, t)) :
    Consistent R solves P (h.propagated s t) t := by
  have cur := c.current calm
  have hk := cur.kept (c.unlisted calm)
  have alive := c.alive (Or.inl calm)
  obtain ⟨-, -, -, hpr, -⟩ := hk.propagate hP.toUpheld alive hs
  obtain ⟨hi, hq, hl, ha⟩ := after_propagation hP hk alive hs cur.made cur.enrolled cur.within
  have hkept := c.kept_congr hpr.entries hpr.plan
  rw [← hpr.kept] at hkept
  exact ⟨hkept, fun _ => hi, fun _ => hq, fun _ => hl, fun _ => ha⟩

theorem conflict (hP : R.Upholds solves accepts P) (c : Consistent R solves P h s)
    (calm : h.calm = true) {f : Failure} (hs : s.propagate = (some f, t))
    (hf : f.isConflict = true) : Consistent R solves P { h with calm := false } t := by
  have hk := (c.current calm).kept (c.unlisted calm)
  obtain ⟨hh, hn, hp, hr, -⟩ := hk.propagate_failed hP.toUpheld (c.alive (Or.inl calm)) hs hf
  have hkept := c.kept_congr hn hp
  rw [← hh] at hkept
  refine ⟨hkept, nofun, nofun, nofun, fun ha => hr ?_⟩
  have hl : t.level = s.level := congrArg List.length hh
  exact hl ▸ ha.resolve_left (by simp)

/-- The solver with one more diagram, before its propagation. -/
theorem enrol (c : Consistent R solves P h s) (calm : h.calm = true) {b : β} {p : Plan}
    (hb : R.plan s b p) (ha : s.Admits p) :
    (s.enrol p).Kept R.Fits P h.past.current.forgotten ∧
      (∀ i q, (s.enrol p).planAt i = some q → ∃ a ∈ b :: h.posted, R.Made a q s.domains) ∧
      ∀ a ∈ b :: h.posted, ∃ i q, (s.enrol p).planAt i = some q ∧ R.Made a q s.domains := by
  have cur := c.current calm
  have hk := cur.kept (c.unlisted calm)
  have hplan : ∀ i, (s.enrol p).planAt i = if i = s.entries.size then some p else s.planAt i := by
    intro i
    unfold Solver.planAt Solver.enrol
    rw [Array.getElem?_push]
    split_ifs <;> rfl
  have hlost : ∀ i, (s.enrol p).lostAt i = [] := by
    intro i
    unfold Solver.lostAt Solver.enrol
    rw [Array.getElem?_push]
    split_ifs
    · rfl
    · exact c.unlisted calm i
  have made : ∀ i q, (s.enrol p).planAt i = some q → ∃ a ∈ b :: h.posted, R.Made a q s.domains := by
    intro i q hq
    rw [hplan] at hq
    split_ifs at hq
    · obtain rfl := Option.some.inj hq
      exact ⟨b, List.mem_cons_self, s, hb, ha.known, .refl _⟩
    · obtain ⟨a, ha, hm⟩ := cur.made i q hq
      exact ⟨a, List.mem_cons_of_mem _ ha, hm⟩
  have enrolled : ∀ a ∈ b :: h.posted, ∃ i q, (s.enrol p).planAt i = some q ∧ R.Made a q s.domains := by
    intro a ha
    rcases List.mem_cons.1 ha with rfl | ha
    · exact ⟨s.entries.size, p, by rw [hplan, if_pos rfl], s, hb, ‹s.Admits p›.known, .refl _⟩
    · obtain ⟨i, q, hq, hm⟩ := cur.enrolled a ha
      obtain ⟨e, he, -⟩ := Option.map_eq_some_iff.1 hq
      have hi := (Array.getElem?_eq_some_iff.1 he).1
      exact ⟨i, q, by rw [hplan, if_neg (Nat.ne_of_lt hi)]; exact hq, hm⟩
  refine ⟨⟨?_, fun i hi => absurd (hlost i) hi, fun i q hq => ?_, fun i q d hq hd => ?_⟩, made, enrolled⟩
  · show (s.world.diagrams.push _).size = (s.entries.push _).size
    rw [Array.size_push, Array.size_push, cur.paired]
  · obtain ⟨a, -, hm⟩ := made i q hq
    exact ⟨a, hm⟩
  · change (s.world.diagrams.push (Diagram.initial p.model))[i]? = some d at hd
    rw [hplan] at hq
    rw [Array.getElem?_push, cur.paired] at hd
    split_ifs at hq hd with e
    · obtain rfl := Option.some.inj hq
      obtain rfl := Option.some.inj hd
      exact Or.inr ⟨rfl, Solver.mem_queue_lineUp.2 (Or.inl e)⟩
    · have hst : (s.enrol p).staleAt h.past.current.forgotten i q =
          s.staleAt h.past.current.forgotten i q := by
        funext l
        unfold Solver.staleAt
        rw [hlost, c.unlisted calm]
        rfl
      refine (hk.stands i q d hq hd).imp (fun hs => ⟨hs.1, hst ▸ hs.2⟩) fun hini => ⟨hini.1, ?_⟩
      exact Solver.mem_queue_lineUp.2 (Or.inr hini.2)

theorem post (hP : R.Upholds solves accepts P) (c : Consistent R solves P h s)
    (calm : h.calm = true) {b : β} {p : Plan} {i : Nat} (hb : R.plan s b p)
    (hs : s.addDiagram p = (.ok i, t)) :
    Consistent R solves P { h.propagated s t with posted := b :: h.posted } t := by
  obtain ⟨ha, hprop⟩ := Solver.addDiagram_ok hs
  obtain ⟨hk, made, enrolled⟩ := c.enrol calm hb ha
  obtain ⟨-, -, -, hpr, -⟩ := hk.propagate hP.toUpheld ha.rootFailure hprop
  obtain ⟨hi, hq, hl, hf⟩ := after_propagation hP (m := h.past.current) hk ha.rootFailure hprop made enrolled
    fun σ hσ => (c.current calm).within σ fun a ha => hσ a (List.mem_cons_of_mem _ ha)
  have none_kept : s.history.kept = [] := List.length_eq_zero_iff.1 ha.level
  have hkept := c.kept
  rw [none_kept, List.forall₂_nil_right_iff] at hkept
  refine ⟨?_, fun _ => hi, fun _ => hq, fun _ => hl, fun _ => hf⟩
  rw [hpr.kept]
  show List.Forall₂ _ h.past.kept s.history.kept
  rw [none_kept, hkept]
  exact .nil

end Consistent

/-- Runs are consistent. -/
theorem Run.consistent (hP : R.Upholds solves accepts P) {h : Story β} {s : Solver}
    (run : Run R h s) : Consistent R solves P h s := by
  induction run with
  | start => exact .start
  | addVariable _ calm added ih => exact ih.addVariable hP calm added
  | post _ calm plan posted ih => exact ih.post hP calm plan posted
  | restrict _ calm restricted ih => exact ih.restrict hP calm restricted
  | openCheckpoint _ calm _ ih => exact ih.openCheckpoint calm
  | backtrack _ back ih => exact ih.backtrack hP back
  | propagate _ calm done ih => exact ih.propagate hP calm done
  | conflict _ calm failed conflict ih => exact ih.conflict hP calm failed conflict

/-- A propagation leaves the checkpoints as they are, unless it gives up. -/
theorem Run.kept_of_propagate (hP : R.Upholds solves accepts P) {h : Story β} {s t : Solver}
    (run : Run R h s) (calm : h.calm = true) {r : Option Failure} (hs : s.propagate = (r, t))
    (hr : ∀ f, r = some f → f.isConflict = true) : t.history.kept = s.history.kept := by
  have c := run.consistent hP
  have hk := (c.current calm).kept (c.unlisted calm)
  have alive := c.alive (Or.inl calm)
  cases r with
  | none => exact (hk.propagate hP.toUpheld alive hs).2.2.2.1.kept
  | some f => exact (hk.propagate_failed hP.toUpheld alive hs (hr f rfl)).1

/-- If checkpoints are only opened when no change waits to be told, no change is ever forgotten. -/
theorem Run.nothing_forgotten (hP : R.Upholds solves accepts P)
    (hR : ∀ s, R.opens s → s.domains.changed = #[]) {h : Story β} {s : Solver} (run : Run R h s) :
    (∀ x, ¬ h.past.current.forgotten x) ∧
      List.Forall₂ (fun m w => (∀ x, ¬ m.forgotten x) ∧ w.domains.changed = #[])
        h.past.kept s.history.kept := by
  induction run with
  | start => exact ⟨fun _ => id, .nil⟩
  | addVariable _ _ added ih =>
    unfold Solver.addVariable at added
    split_ifs at added
    obtain ⟨-, rfl⟩ := Prod.mk.inj (Except.ok.inj added)
    exact ih
  | post run calm plan posted ih =>
    refine ⟨fun x hx => ih.1 x hx.1, ?_⟩
    obtain ⟨ha, hprop⟩ := Solver.addDiagram_ok posted
    obtain ⟨hk, -⟩ := (run.consistent hP).enrol calm plan ha
    rw [(hk.propagate hP.toUpheld ha.rootFailure hprop).2.2.2.1.kept]
    exact ih.2
  | restrict _ _ restricted ih =>
    unfold Solver.restrict at restricted
    split_ifs at restricted
    split at restricted
    · obtain rfl := Except.ok.inj restricted
      exact ih
    · cases restricted
  | openCheckpoint _ _ opens ih => exact ⟨ih.1, .cons ⟨ih.1, hR _ opens⟩ ih.2⟩
  | backtrack _ back ih =>
    unfold Solver.backtrack? at back
    split_ifs at back with hl
    obtain rfl := Option.some.inj back
    obtain ⟨cur, hk⟩ := History.backtrack_forall₂ ih.2 hl
    refine ⟨fun x hx => hx.elim (cur.1 x) fun hc => ?_, hk⟩
    rw [cur.2] at hc
    exact absurd hc (Array.not_mem_empty _)
  | propagate run calm done ih =>
    refine ⟨fun x hx => ih.1 x hx.1, ?_⟩
    rw [run.kept_of_propagate hP calm done nofun]
    exact ih.2
  | conflict run calm failed conflict ih =>
    refine ⟨ih.1, ?_⟩
    rw [run.kept_of_propagate hP calm failed fun f hf => Option.some.inj hf ▸ conflict]
    exact ih.2

/-- A propagation which is asked for, or the one of a diagram which is posted, begins at `o`. -/
def Solver.Starts (R : Rules β) (s o : Solver) : Prop :=
  o = s ∨ ∃ b p, R.plan s b p ∧ s.Admits p ∧ o = s.enrol p

theorem Run.kept_of_starts (hP : R.Upholds solves accepts P) {h : Story β} {s o : Solver}
    (run : Run R h s) (calm : h.calm = true) (starts : s.Starts R o) :
    o.Kept R.Fits P h.past.current.forgotten ∧ o.rootFailure = none := by
  have c := run.consistent hP
  rcases starts with rfl | ⟨b, p, hb, ha, rfl⟩
  · exact ⟨(c.current calm).kept (c.unlisted calm), c.alive (Or.inl calm)⟩
  · exact ⟨(c.enrol calm hb ha).1, ha.rootFailure⟩

/-- An assignment which the user left and which solves everything posted. -/
def Story.Solution (solves : β → (Var → Int) → Prop) (h : Story β) (s : Solver) (σ : Var → Int) :
    Prop :=
  (∀ b ∈ h.posted, solves b σ) ∧ ∀ x < s.domains.size, h.past.current.own x (σ x)

/-- While there is a solution, no propagation reports a conflict. -/
theorem Run.propagate_of_solution (hP : R.Upholds solves accepts P) {h : Story β} {s t : Solver}
    (run : Run R h s) (calm : h.calm = true) {σ : Var → Int} (hσ : h.Solution solves s σ)
    {f : Failure} (hs : s.propagate = (some f, t)) : f.isConflict = false := by
  have c := run.consistent hP
  have cur := c.current calm
  have hw := cur.within σ hσ.1 hσ.2
  rw [← Bool.not_eq_true]
  intro hf
  obtain ⟨-, -, -, -, hno⟩ := (cur.kept (c.unlisted calm)).propagate_failed hP.toUpheld
    (c.alive (Or.inl calm)) hs hf
  exact hno σ (cur.accepted hP hσ.1 hw) hw

/-- Nor does posting, if the solution also solves what is posted. -/
theorem Run.post_of_solution (hP : R.Upholds solves accepts P) {h : Story β} {s : Solver}
    (run : Run R h s) (calm : h.calm = true) {σ : Var → Int} (hσ : h.Solution solves s σ) {b : β}
    {p : Plan} (hb : R.plan s b p) (hs : solves b σ) :
    (s.addDiagram p).1 ≠ .error .infeasibleDiagram ∧
      (s.addDiagram p).1 ≠ .error .infeasibleState := by
  have c := run.consistent hP
  have hw := (c.current calm).within σ hσ.1 hσ.2
  refine ⟨fun he => ?_, fun he => ?_⟩
  · obtain ⟨ha, f, t, hprop, hf⟩ := Solver.addDiagram_infeasible he
    obtain ⟨hk, made, -⟩ := c.enrol calm hb ha
    obtain ⟨-, -, -, -, hno⟩ := hk.propagate_failed hP.toUpheld ha.rootFailure hprop hf
    refine hno σ (fun i q hq => ?_) hw
    obtain ⟨a, ha, hm⟩ := made i q hq
    refine hP.accepted hm hw ?_
    rcases List.mem_cons.1 ha with rfl | ha
    · exact hs
    · exact hσ.1 a ha
  · have alive := c.alive (Or.inl calm)
    rcases Solver.addDiagram_cases s p with ⟨ha, e⟩ | ⟨-, e | ⟨e, -⟩ | ⟨-, hf⟩⟩
    · rw [e] at he
      change Solver.answer _ _ = _ at he
      unfold Solver.answer at he
      split at he
      · cases he
      · exact PostError.ofFailure_ne_infeasibleState _ (Except.error.inj he)
    · rw [he] at e
      cases e
    · rw [he] at e
      cases e
    · rw [alive] at hf
      cases hf

end DecisionDiagrams
