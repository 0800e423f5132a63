import DecisionDiagrams.Proofs.Constraint.Deciding
import DecisionDiagrams.Proofs.Spec.Beside
import DecisionDiagrams.Proofs.Spec.Gathers

/-! What a constraint registers is an encoding of it, beside whatever else is registered before and after: in
states which are computed one label at a time its tests pass exactly the assignments which satisfy it, and
between states which stand for more labels its tests let these assignments pass. -/

namespace DecisionDiagrams

namespace Model

/-- The down states to which labels lead from the root on, one transition after the other. -/
structure Descends (m : Model) (σ : Nat → Int) (S : Nat → State) : Prop where
  start : S 0 = m.fresh .down
  next : ∀ l < m.depth, ∃ combined, m.step .down l (S l) combined (.singleton (σ l)) = .ok (S (l + 1))

/-- Labels lead to some states if every transition over a label gives a result. -/
theorem exists_descends {m : Model} (answers : ∀ l < m.depth, ∀ source v target j, ∃ r,
    m.stepProperty .down l source none (.singleton v) target j = .ok r) (σ : Nat → Int) :
    ∃ S, m.Descends σ S := by
  have step : ∀ l s, ∃ r, l < m.depth → m.step .down l s none (.singleton (σ l)) = .ok r := by
    intro l s
    by_cases hl : l < m.depth
    · obtain ⟨r, hr⟩ := Checked.exists_foldlM (fun target j => answers l hl s (σ l) target j)
        (m.active .down l).toList s
      exact ⟨_, fun _ => by unfold Model.step Model.stepInto; rw [hr]; rfl⟩
    · exact ⟨s, fun h => absurd h hl⟩
  choose next hnext using step
  exact ⟨fun l => Nat.rec (m.fresh .down) (fun l s => next l s) l, rfl, fun l hl => ⟨none, hnext l _ hl⟩⟩

/-- These states stand for the labels. -/
theorem Descends.gathers {m : Model} {σ : Nat → Int} {S : Nat → State} (h : m.Descends σ S) :
    ∀ l ≤ m.depth, ∃ P, m.Gathers .down l P (S l) ∧ m.trace σ .down l ∈ P
  | 0, _ => by
    rw [h.start]
    exact ⟨{[]}, .start, rfl⟩
  | l + 1, hl => by
    obtain ⟨P, hP, hmem⟩ := h.gathers l (Nat.le_of_succ_le hl)
    obtain ⟨combined, hr⟩ := h.next l hl
    have hv : σ l ∈ IntSet.singleton (σ l) := IntSet.mem_singleton.2 rfl
    refine ⟨lengthen .down P (.singleton (σ l)), .step hl ⟨_, hv⟩ hP hr, _, hmem, σ l, hv, ?_⟩
    show (List.range (l + 1)).map σ = (List.range l).map σ ++ [σ l]
    rw [List.range_succ, List.map_append, List.map_singleton]

theorem ahead_eq_some {m : Model} {l : Nat} {child : State} :
    m.ahead l = some child ↔ l + 1 = m.depth ∧ m.fresh .up = child := by
  unfold ahead
  split_ifs with hl
  · simp [hl]
  · simp [hl]

/-- The up state of the sink stands for no labels. -/
theorem gathers_ahead {m : Model} {σ : Nat → Int} {l : Nat} {child : State} (h : m.ahead l = some child) :
    ∃ Q, m.Gathers .up (l + 1) Q child ∧ m.trace σ .up (l + 1) ∈ Q := by
  obtain ⟨hl, rfl⟩ := ahead_eq_some.1 h
  rw [hl]
  exact ⟨{[]}, .start, trace_start (d := .up) σ⟩

/-- Combined states which are known above and below the layers. -/
structure Asides where
  above : Nat → Option View
  below : Nat → Option View

/-- A test passes the label of a layer between these states and the up state of the sink. -/
def PassesExact (m : Model) (σ : Nat → Int) (S : Nat → State) (asides : Asides) (l : Nat)
    (check : ArcFacts → Checked Bool) : Prop :=
  check ⟨m.view .down (S l), asides.above l, (m.ahead l).map (m.view .up), asides.below l, l, σ l⟩ = .ok true

/-- A test passes the label of a layer between all states which stand for the labels above and below, whether
the up state is known or not. -/
def PassesGathered (m : Model) (σ : Nat → Int) (l : Nat) (check : ArcFacts → Checked Bool) : Prop :=
  ∀ (P : Set (List Int)) (parent : State) (child : Option State), m.Gathers .down l P parent →
    m.trace σ .down l ∈ P →
    (∀ r, child = some r → ∃ Q, m.Gathers .up (l + 1) Q r ∧ m.trace σ .up (l + 1) ∈ Q) → ∀ above below,
    check ⟨m.view .down parent, above, child.map (m.view .up), below, l, σ l⟩ = .ok true

/-- A test passes the label of a layer between all states of which everything holds that the properties `own`
track. -/
def PassesTracked (m : Model) (own : Direction → Nat → Prop) (σ : Nat → Int) (l : Nat)
    (check : ArcFacts → Checked Bool) : Prop :=
  ∀ (parent : State) (child : Option State), (∀ i, own .down i → m.Tracked σ true .down l i parent) →
    (∀ r, child = some r → ∀ i, own .up i → m.Tracked σ true .up (l + 1) i r) → ∀ above below,
    check ⟨m.view .down parent, above, child.map (m.view .up), below, l, σ l⟩ = .ok true

/-- A test passes the label of a layer between some states whose properties `own` are exact. -/
def PassesBetween (m : Model) (own : Direction → Nat → Prop) (σ : Nat → Int) (S : Nat → State) (l : Nat)
    (check : ArcFacts → Checked Bool) : Prop :=
  ∃ parent child above below, (∀ i, own .down i → m.Alike .down i (S l) parent) ∧
    (∀ r, child = some r → ∀ i, own .up i → m.Clear (l + 1) i r) ∧
    check ⟨m.view .down parent, above, child.map (m.view .up), below, l, σ l⟩ = .ok true

namespace PassesTracked

variable {m : Model} {own : Direction → Nat → Prop} {σ : Nat → Int} {l : Nat}
  {check : ArcFacts → Checked Bool}

theorem mono {own' : Direction → Nat → Prop} (h : m.PassesTracked own σ l check)
    (ho : ∀ {d i}, own d i → own' d i) : m.PassesTracked own' σ l check :=
  fun parent child hp hc => h parent child (fun i hi => hp i (ho hi)) fun r hr i hi => hc r hr i (ho hi)

theorem lets (h : m.PassesTracked own σ l check) : m.Lets σ l check := by
  intro parent above child below hp hc he
  cases he.symm.trans (h parent child (fun i _ => hp i) (fun r hr i _ => hc r hr i) above below)

/-- What is tracked holds of the states which stand for the labels. -/
theorem gathered (h : m.PassesTracked own σ l check) (guards : ∀ {d i}, own d i → m.Guards d i) :
    m.PassesGathered σ l check := by
  intro P parent child hP htrace hc
  refine h parent child (fun i hi hlt φ hφ => (hP.tracked (guards hi) hlt hφ).2 htrace) fun r hr i hi => ?_
  obtain ⟨Q, hQ, hrest⟩ := hc r hr
  exact fun hlt φ hφ => (hQ.tracked (guards hi) hlt hφ).2 hrest

end PassesTracked

namespace PassesBetween

variable {m : Model} {own own' : Direction → Nat → Prop} {σ : Nat → Int} {S : Nat → State} {l : Nat}
  {check : ArcFacts → Checked Bool}

theorem mono (h : m.PassesBetween own σ S l check) (ho : ∀ {d i}, own' d i → own d i) :
    m.PassesBetween own' σ S l check := by
  obtain ⟨parent, child, above, below, hp, hc, hok⟩ := h
  exact ⟨parent, child, above, below, fun i hi => hp i (ho hi), fun r hr i hi => hc r hr i (ho hi), hok⟩

theorem of_passes (h : m.Passes σ S l check) : m.PassesBetween own σ S l check := by
  obtain ⟨parent, child, hp, hc, hok⟩ := h
  exact ⟨parent, child, none, none, fun i _ => hp i, fun r hr i _ => hc r hr i, hok⟩

theorem of_exact {asides : Asides} (h : m.PassesExact σ S asides l check) : m.PassesBetween own σ S l check := by
  refine ⟨S l, m.ahead l, asides.above l, asides.below l, fun i _ => .refl _ _ _ _, fun r hr i _ => ?_, h⟩
  obtain ⟨-, rfl⟩ := ahead_eq_some.1 hr
  exact fun _ => .refl _ _ _ _

end PassesBetween

theorem Descends.passesExact {m : Model} {σ : Nat → Int} {S : Nat → State} {l : Nat}
    {check : ArcFacts → Checked Bool} (h : m.Descends σ S) (hl : l < m.depth)
    (hpass : m.PassesGathered σ l check) (asides : Asides) : m.PassesExact σ S asides l check := by
  obtain ⟨P, hP, hmem⟩ := h.gathers l (Nat.le_of_lt hl)
  exact hpass P _ _ hP hmem (fun child hchild => gathers_ahead hchild) _ _

end Model

namespace Spec

variable {s t u v : Spec} {H H' : List Var → Prop} {σ : Var → Int} {S : Nat → State}

/-- The tests of arcs which are registered between two specifications. -/
def testsSince (s u : Spec) : List (ScopeId × (ArcFacts → Checked Bool)) :=
  u.arcChecks.toList.drop s.arcChecks.size

/-- The property is registered between `s` and `u`. -/
def Owned (s u : Spec) (d : Direction) (i : Nat) : Prop := s.count d.side ≤ i ∧ i < u.count d.side

/-- The rules of `t` which are registered before `s` or behind `u` leave the properties between them alone. -/
structure Guarded (t s u : Spec) : Prop where
  stepped : ∀ {d i j l source combined values target r}, Owned s u d i → ¬ Owned s u d j →
    t.toModel.stepProperty d l source combined values target j = .ok r → t.toModel.Alike d.side i target r
  merged : ∀ {d i j other target r}, Owned s u d i → ¬ Owned s u d j →
    t.toModel.mergeProperty d.side other target j = .ok r → t.toModel.Alike d.side i target r

/-- The tests registered between `s` and `u` pass the labels of an assignment in exact states. -/
def Passing (t s u : Spec) (σ : Var → Int) (S : Nat → State) (asides : Model.Asides) : Prop :=
  ∀ a ∈ testsSince s u, ∀ l < t.branchVars.size, covers t.coverage a.1 l = true →
    t.toModel.PassesExact (t.toModel.labelsOf σ) S asides l a.2

/-- The tests registered between `s` and `u` pass the labels of an assignment wherever states stand for
them. -/
def Admitting (t s u : Spec) (σ : Var → Int) : Prop :=
  ∀ a ∈ testsSince s u, ∀ l < t.branchVars.size, covers t.coverage a.1 l = true →
    t.toModel.PassesGathered (t.toModel.labelsOf σ) l a.2

/-- What is registered between `s` and `u` encodes that `H` holds of the final order of the layers, as far as
one assignment is concerned. -/
structure Encodes (σ : Var → Int) (H : List Var → Prop) (s u : Spec) : Prop where
  enlarges : Enlarges s u
  ordered : s.Ordered → u.Ordered
  kept : s.arcChecks.toList <+: u.arcChecks.toList
  writes : s.Local → u.Local
  /-- The rules write their own properties, and compute them from nothing else. -/
  own : ∀ {d : Direction} {i q}, Owned s u d i → (u.properties.get d.side)[i]? = some q →
    q.Local i ∧ ∃ V, q.Joins i V
  /-- The tests always give a result. -/
  decided : ∀ a ∈ testsSince s u, ∀ arc, ∃ passes, a.2 arc = .ok passes
  admits : ∀ t, Enlarges u t → t.check = .ok () → t.Ordered → s.Ordered → H t.order →
    ∀ a ∈ testsSince s u, ∀ l < t.branchVars.size, covers t.coverage a.1 l = true →
      t.toModel.PassesTracked (Owned s u) (t.toModel.labelsOf σ) l a.2
  decides : ∀ t S, Enlarges u t → t.check = .ok () → t.Ordered → s.Ordered →
    (∀ i, Owned s u .down i → Lineage σ t i S) →
    (∀ a ∈ testsSince s u, ∀ l < t.branchVars.size, covers t.coverage a.1 l = true →
      t.toModel.PassesBetween (Owned s u) (t.toModel.labelsOf σ) S l a.2) → H t.order

theorem Enlarges.count_le (h : Enlarges s t) (side : Side) : s.count side ≤ t.count side :=
  (h.properties side).length_le

theorem testsSince_eq_nil (h : u.arcChecks = s.arcChecks) : testsSince s u = [] := by
  unfold testsSince
  rw [h, List.drop_of_length_le (by simp)]

theorem testsSince_append (h : s.arcChecks.toList <+: u.arcChecks.toList)
    (g : u.arcChecks.toList <+: v.arcChecks.toList) : testsSince s v = testsSince s u ++ testsSince u v := by
  obtain ⟨a, ha⟩ := h
  obtain ⟨b, hb⟩ := g
  unfold testsSince
  simp only [← Array.length_toList]
  rw [← hb, ← ha, List.drop_left, List.append_assoc, List.drop_left, ← List.append_assoc, List.drop_left]

theorem Appends.testsSince_eq {c : ScopeId} {down up : List Property} {checks : List (ArcFacts → Checked Bool)}
    (h : Appends c s u down up checks) : testsSince s u = checks.map (c, ·) := by
  unfold testsSince
  rw [h.arcChecks, ← Array.length_toList, List.drop_left]

namespace Guarded

variable {d : Direction} {i j : Nat}

/-- Rules which write their own properties respect each other. -/
theorem guards (h : Guarded t s u) (g : Enlarges u t) (hc : t.check = .ok ())
    (own : ∀ {j q}, Owned s u d j → (u.properties.get d.side)[j]? = some q → q.Local j)
    (hi : Owned s u d i) : t.toModel.Guards d i := by
  have local_of : ∀ {j q}, Owned s u d j → (t.properties.get d.side)[j]? = some q → q.Local j :=
    fun hj hq => own hj (by rwa [← g.getElem?_property hj.2])
  refine ⟨⟨fun {l source combined values target j r} hne hr => ?_⟩, fun {other target j r} hne hr => ?_⟩
  · by_cases hj : Owned s u d j
    · exact alike_stepped hc (local_of hj) hne hr
    · exact h.stepped hi hj hr
  · by_cases hj : Owned s u d j
    · exact alike_merged hc (fun hq => (local_of hj hq).builtIn) hne hr
    · exact h.merged hi hj hr

end Guarded

theorem Local.guarded (h : t.Local) (hc : t.check = .ok ()) : Guarded t s u where
  stepped hi hj hr := by
    refine alike_stepped hc h.property ?_ hr
    rintro rfl
    exact hj hi
  merged hi hj hr := by
    refine alike_merged hc (fun hq => (h.property hq).builtIn) ?_ hr
    rintro rfl
    exact hj hi

/-- The states to which labels lead have the property computed from the state above, if no other rule writes
it and its own rule reads nothing else. -/
theorem lineage_of_descends {i : Nat} (h : t.toModel.Descends (t.toModel.labelsOf σ) S)
    (hc : t.check = .ok ()) (g : t.toModel.Apart .down i)
    (hj : ∀ {q : Property}, (t.properties.get .down)[i]? = some q → ∃ V, q.Joins i V) : Lineage σ t i S where
  start := h.start ▸ .refl _ _ _ _
  computed {l} hl hi := by
    obtain ⟨combined, hr⟩ := h.next l (Nat.lt_of_succ_lt hl)
    obtain ⟨target, r, hr, ha⟩ := (g.of_step hr).1 hi
    obtain ⟨r', hr'⟩ := exists_stepProperty_of_joins (d := .down) hc hj l (S l) none
      (.singleton (σ (t.toModel.var l))) target
    exact ⟨target, r', hr',
      (alike_stepProperty_of_joins (d := .down) hc hj hi (.refl _ _ _ _) hr' hr).trans ha⟩
  idle {l} hl hi := by
    obtain ⟨combined, hr⟩ := h.next l (Nat.lt_of_succ_lt hl)
    exact (g.of_step hr).2 hi

namespace Encodes

theorem of_no_rules (henl : Enlarges s u) (ordered : s.Ordered → u.Ordered) (writes : s.Local → u.Local)
    (hchecks : u.arcChecks = s.arcChecks) (hcount : ∀ side, u.count side = s.count side) :
    Encodes σ (fun _ => True) s u := by
  have none : ∀ a, a ∉ testsSince s u := fun a ha => by
    rw [testsSince_eq_nil hchecks] at ha
    cases ha
  exact
    { enlarges := henl
      ordered
      kept := hchecks ▸ List.prefix_refl _
      writes
      own := fun {d i q} hi _ => absurd hi.1 (not_le.2 (hcount d.side ▸ hi.2))
      decided := fun a ha => (none a ha).elim
      admits := fun t _ _ _ _ _ a ha => (none a ha).elim
      decides := fun _ _ _ _ _ _ _ _ => trivial }

theorem own_of_enlarges (h : Encodes σ H s u) (g : Enlarges u t) {d : Direction} {i : Nat} (hi : Owned s u d i)
    {q : Property} (hq : (t.properties.get d.side)[i]? = some q) : q.Local i ∧ ∃ V, q.Joins i V :=
  h.own hi (by rwa [← g.getElem?_property hi.2])

theorem trans (h : Encodes σ H s u) (g : Encodes σ H' u v) : Encodes σ (fun o => H o ∧ H' o) s v := by
  have first : ∀ {d i}, Owned s u d i → Owned s v d i := fun hi =>
    ⟨hi.1, hi.2.trans_le (g.enlarges.count_le _)⟩
  have second : ∀ {d i}, Owned u v d i → Owned s v d i := fun hi => ⟨(h.enlarges.count_le _).trans hi.1, hi.2⟩
  refine
    { enlarges := h.enlarges.trans g.enlarges
      ordered := g.ordered ∘ h.ordered
      kept := h.kept.trans g.kept
      writes := g.writes ∘ h.writes
      own := fun {d i q} hi hq => ?_
      decided := fun a ha => ?_
      admits := fun t ht hc ho hs hH a ha l hl hcov => ?_
      decides := fun t S ht hc ho hs lineage hpass => ?_ }
  · by_cases hu : i < u.count d.side
    · exact h.own_of_enlarges g.enlarges ⟨hi.1, hu⟩ hq
    · exact g.own ⟨not_lt.1 hu, hi.2⟩ hq
  · rw [testsSince_append h.kept g.kept, List.mem_append] at ha
    exact ha.elim (h.decided a) (g.decided a)
  · rw [testsSince_append h.kept g.kept, List.mem_append] at ha
    rcases ha with ha | ha
    · exact (h.admits t (g.enlarges.trans ht) hc ho hs hH.1 a ha l hl hcov).mono first
    · exact (g.admits t ht hc ho (h.ordered hs) hH.2 a ha l hl hcov).mono second
  · rw [testsSince_append h.kept g.kept] at hpass
    simp only [List.mem_append, or_imp, forall_and] at hpass
    exact ⟨h.decides t S (g.enlarges.trans ht) hc ho hs (fun i hi => lineage i (first hi))
        fun a ha l hl hcov => (hpass.1 a ha l hl hcov).mono first,
      g.decides t S ht hc ho (h.ordered hs) (fun i hi => lineage i (second hi))
        fun a ha l hl hcov => (hpass.2 a ha l hl hcov).mono second⟩

theorem congr (h : Encodes σ H s u) (hH : ∀ o, H o ↔ H' o) : Encodes σ H' s u :=
  (funext fun o => propext (hH o) : H = H') ▸ h

theorem addScope (σ : Var → Int) (name : String) (vars : List Var) (s : Spec) :
    Encodes σ (fun _ => True) s (Spec.addScope name vars s).2 :=
  of_no_rules (grows_addScope name vars s) (fun h => h.addScope name vars)
    (fun h => ⟨h.property, h.nodeChecks⟩) rfl fun _ => rfl

/-- What is registered one after the other, while `I` holds of the specifications. -/
theorem forM {α : Type} {f : α → StateM Spec Unit} {K : α → List Var → Prop} {I : Spec → Prop}
    (as : List α) (step : ∀ a ∈ as, ∀ s, I s → Encodes σ (K a) s (f a s).2 ∧ I (f a s).2) :
    ∀ {s}, I s → Encodes σ (fun o => ∀ a ∈ as, K a o) s (as.forM f s).2 := by
  induction as with
  | nil =>
    intro s _
    exact (of_no_rules (Enlarges.refl s) id id rfl fun _ => rfl).congr fun o => by simp
  | cons a as ih =>
    intro s hs
    obtain ⟨hfirst, hI⟩ := step a List.mem_cons_self s hs
    have hrest := ih (fun b hb => step b (List.mem_cons_of_mem _ hb)) hI
    exact (hfirst.trans hrest).congr fun o => by simp

/-! An encoding lets everything pass which satisfies it, and decides whether an assignment does. -/

theorem contributes (h : Encodes σ H s u) : Contributes σ H s u where
  enlarges := h.enlarges
  ordered := h.ordered
  writes := h.writes
  admits t ht hc ho hH hs hadm a ha l hl hcov := by
    obtain ⟨more, e⟩ := h.kept
    rw [← e, List.mem_append] at ha
    rcases ha with ha | ha
    · exact hadm a ha l hl hcov
    · refine (h.admits t ht hc ho hs hH a ?_ l hl hcov).lets
      rwa [testsSince, ← e, ← Array.length_toList, List.drop_left]

theorem toDecides (h : Encodes σ H s u) : Decides σ H s u where
  enlarges := h.enlarges
  ordered := h.ordered
  kept := h.kept
  decides t S ht along hs hacc :=
    h.decides t S ht along.check along.ordered hs (fun i _ => along.lineage i) fun a ha l hl hcov =>
      .of_passes (hacc a (List.mem_of_mem_drop ha) l hl hcov)

section

variable (h : Encodes σ H s u) (ht : Enlarges u t) (hc : t.check = .ok ()) (guarded : Guarded t s u)
include h ht hc guarded

theorem guards {d : Direction} {i : Nat} (hi : Owned s u d i) : t.toModel.Guards d i :=
  guarded.guards ht hc (fun hj hq => (h.own hj hq).1) hi

variable (ho : t.Ordered) (hs : s.Ordered)
include ho hs

theorem admitting (hH : H t.order) : Admitting t s u σ := fun a ha l hl hcov =>
  (h.admits t ht hc ho hs hH a ha l hl hcov).gathered (h.guards ht hc guarded)

/-- In exact states the tests pass what satisfies the constraint and nothing else. -/
theorem passing_iff (descends : t.toModel.Descends (t.toModel.labelsOf σ) S) (asides : Model.Asides) :
    Passing t s u σ S asides ↔ H t.order := by
  refine ⟨fun hpass => h.decides t S ht hc ho hs (fun i hi => ?_) fun a ha l hl hcov => ?_,
    fun hH a ha l hl hcov => ?_⟩
  · exact lineage_of_descends descends hc (h.guards ht hc guarded hi).toApart
      (h.own_of_enlarges (d := .down) ht hi · |>.2)
  · exact .of_exact (hpass a ha l hl hcov)
  · exact descends.passesExact hl (h.admitting ht hc guarded ho hs hH a ha l hl hcov) asides

end

/-- What is encoded between two specifications is encoded exactly, and soundly where states stand for several
labels, if the rules of the others leave it alone. The labels lead to states if the other rules give results. -/
theorem sound_and_exact (h : Encodes σ H s u) (hs : s.Registered) (ht : t.Registered) (later : Enlarges u t)
    (hcheck : t.check = .ok ()) (guarded : t.Guarded s u) :
    (∀ a ∈ testsSince s u, ∀ arc, ∃ passes, a.2 arc = .ok passes) ∧
    ((∀ l < t.toModel.depth, ∀ i, ¬ Owned s u .down i → ∀ source v target,
        ∃ r, t.toModel.stepProperty .down l source none (.singleton v) target i = .ok r) →
      ∃ S, t.toModel.Descends (t.toModel.labelsOf σ) S) ∧
    (∀ S, t.toModel.Descends (t.toModel.labelsOf σ) S → ∀ asides, t.Passing s u σ S asides ↔ H t.order) ∧
    (H t.order → t.Admitting s u σ) := by
  have ho := ordered_of_registered ht
  have hs := ordered_of_registered hs
  refine ⟨h.decided, fun others => ?_, fun S descends asides => ?_, fun hH => ?_⟩
  · refine Model.exists_descends (fun l hl source v target i => ?_) _
    by_cases hi : Owned s u .down i
    · exact exists_stepProperty_of_joins (d := .down) hcheck (h.own_of_enlarges (d := .down) later hi · |>.2)
        l source none (.singleton v) target
    · exact others l hl i hi source v target
  · exact h.passing_iff later hcheck guarded ho hs descends asides
  · exact h.admitting later hcheck guarded ho hs hH

end Encodes

/-! ### Constraints with one scope -/

namespace Appends

variable {c : ScopeId} {down up : List Property} {checks : List (ArcFacts → Checked Bool)}
  {vars : List Var} {d : Direction} {i : Nat} {q : Property}

theorem count_down (h : Appends c s u down up checks) :
    u.count .down = s.properties.down.size + down.length := by
  show u.properties.down.size = _
  rw [← Array.length_toList, h.down, List.length_append, Array.length_toList]

theorem count_up (h : Appends c s u down up checks) : u.count .up = s.properties.up.size + up.length := by
  show u.properties.up.size = _
  rw [← Array.length_toList, h.up, List.length_append, Array.length_toList]

theorem owned_down (h : Appends c s u down up checks) {k : Nat} (hk : k < down.length) :
    Owned s u .down (s.properties.down.size + k) :=
  ⟨Nat.le_add_right _ _, (Nat.add_lt_add_left hk _).trans_eq h.count_down.symm⟩

theorem owned_up (h : Appends c s u down up checks) {k : Nat} (hk : k < up.length) :
    Owned s u .up (s.properties.up.size + k) :=
  ⟨Nat.le_add_right _ _, (Nat.add_lt_add_left hk _).trans_eq h.count_up.symm⟩

/-- A property between two specifications is one which was appended. -/
theorem of_owned (h : Appends c s u down up checks) (hi : Owned s u d i)
    (hq : (u.properties.get d.side)[i]? = some q) : ∃ k, i = s.count d.side + k ∧
      (match d with | .down => down | .up => up)[k]? = some q := by
  have more : ∀ {old new : List Property} {all : Array Property}, all.toList = old ++ new → old.length ≤ i →
      all[i]? = some q → new[i - old.length]? = some q := by
    intro old new all e hle hq
    rwa [← Array.getElem?_toList, e, List.getElem?_append_right hle] at hq
  refine ⟨i - s.count d.side, (Nat.add_sub_cancel' hi.1).symm, ?_⟩
  cases d with
  | down => exact more h.down hi.1 hq
  | up => exact more h.up hi.1 hq

/-- A constraint is encoded by its test. -/
theorem encodes {test : ArcFacts → Bool} (h : Appends c s u down up [fun arc => .ok (test arc)])
    (hs : s.Scoped c vars)
    (hdown : ∀ k (q : Property), down[k]? = some q →
      q.Local (s.properties.down.size + k) ∧ ∃ V, q.Joins (s.properties.down.size + k) V)
    (hup : ∀ k (q : Property), up[k]? = some q →
      q.Local (s.properties.up.size + k) ∧ ∃ V, q.Joins (s.properties.up.size + k) V)
    (admits : ∀ t, Enlarges u t → t.Hosts c vars → (∀ x ∈ vars, x ∈ s.order) → H t.order →
      ∀ l < t.branchVars.size, t.toModel.var l ∈ vars →
        t.toModel.PassesTracked (Owned s u) (t.toModel.labelsOf σ) l fun arc => .ok (test arc))
    (decides : ∀ t S, Enlarges u t → t.Hosts c vars → (∀ x ∈ vars, x ∈ s.order) →
      (∀ i, Owned s u .down i → Lineage σ t i S) →
      (∀ l < t.branchVars.size, t.toModel.var l ∈ vars →
        t.toModel.PassesBetween (Owned s u) (t.toModel.labelsOf σ) S l fun arc => .ok (test arc)) → H t.order) :
    Encodes σ H s u := by
  obtain ⟨name, hname⟩ := hs
  have hosts : ∀ {t : Spec}, Enlarges u t → t.check = .ok () → t.Ordered → t.Hosts c vars :=
    fun ht hc ho => ⟨hc, ho, name, (h.enlarges.trans ht).getElem? hname⟩
  have known : s.Ordered → ∀ x ∈ vars, x ∈ s.order := fun hs =>
    hs.known _ (Array.mem_toList_iff.2 (Array.mem_of_getElem? hname))
  have own : ∀ {a}, a ∈ testsSince s u → a = (c, fun arc => .ok (test arc)) := fun ha => by
    rw [h.testsSince_eq] at ha
    exact List.mem_singleton.1 ha
  exact
    { enlarges := h.enlarges
      ordered := fun ho => ho.appends h
      kept := ⟨_, h.arcChecks.symm⟩
      writes := fun hl => hl.appends h (fun k q hq => (hdown k q hq).1) fun k q hq => (hup k q hq).1
      own := fun {d i q} hi hq => by
        obtain ⟨k, rfl, e⟩ := h.of_owned hi hq
        cases d with
        | down => exact hdown k q e
        | up => exact hup k q e
      decided := fun a ha arc => by
        obtain rfl := own ha
        exact ⟨_, rfl⟩
      admits := fun t ht hc ho hs hH a ha l hl hcov => by
        obtain rfl := own ha
        exact admits t ht (hosts ht hc ho) (known hs) hH l hl (((hosts ht hc ho).covers_iff hl).1 hcov)
      decides := fun t S ht hc ho hs lineage hpass => by
        refine decides t S ht (hosts ht hc ho) (known hs) lineage fun l hl hv => ?_
        refine hpass (c, _) ?_ l hl (((hosts ht hc ho).covers_iff hl).2 hv)
        rw [h.testsSince_eq]
        exact List.mem_singleton.2 rfl }

end Appends

end Spec
end DecisionDiagrams
