import DecisionDiagrams.Proofs.Constraint.Encoding
import DecisionDiagrams.Proofs.Constraint.Totals

/-! Counting constraints let every assignment pass which takes the values as often as it should, and no
other one if the states are exact. -/

namespace DecisionDiagrams.Counting

open Spec

/-- How many variables take a value of the list. -/
def countOf (members : List Int) (σ : Var → Int) (xs : List Var) : Int :=
  totalOf (fun x => weight members (σ x)) xs

theorem countOf_congr (members : List Int) {σ τ : Var → Int} {xs : List Var} (h : ∀ x ∈ xs, σ x = τ x) :
    countOf members σ xs = countOf members τ xs := by
  unfold countOf totalOf
  rw [List.map_congr_left fun x hx => by rw [h x hx]]

theorem weight_nonneg (members : List Int) (v : Int) : 0 ≤ weight members v := by
  unfold weight
  split_ifs <;> decide

theorem weight_le_one (members : List Int) (v : Int) : weight members v ≤ 1 := by
  unfold weight
  split_ifs <;> decide

theorem countOf_nonneg (members : List Int) (σ : Var → Int) (xs : List Var) :
    0 ≤ countOf members σ xs := totalOf_nonneg fun _ _ => weight_nonneg _ _

theorem countOf_le_length (members : List Int) (σ : Var → Int) : ∀ xs : List Var,
    countOf members σ xs ≤ xs.length
  | [] => Int.le_refl _
  | x :: xs => by
    have := countOf_le_length members σ xs
    have := weight_le_one members (σ x)
    unfold countOf at *
    rw [totalOf_cons, List.length_cons]
    omega

/-- What the counts of one bound are registered as. -/
def property (c : ScopeId) (size : Nat) (r : Relaxation)
    (run : StepFacts → IntSet → View → View) : Property where
  constraint := c
  kind := .integer 0 0 size
  relaxation := r
  rule := .transition [] fun input values out => .ok (run input values out)

/-- The least and the largest count, which are registered from position `n` on. -/
def countsFrom (c : ScopeId) (size : Nat) (members : List Int) (n : Nat) : List Property :=
  [property c size .minimum (stepMin members (n + 0)), property c size .maximum (stepMax members (n + 1))]

theorem local_countsFrom {c : ScopeId} {size n k : Nat} {members : List Int} {q : Property}
    (hq : (countsFrom c size members n)[k]? = some q) : q.Local (n + k) := by
  match k with
  | 0 =>
    obtain rfl := Option.some.inj hq
    exact .of_total rfl nofun fun hl => View.writes_setInteger hl _ _
  | 1 =>
    obtain rfl := Option.some.inj hq
    exact .of_total rfl nofun fun hl => View.writes_setInteger hl _ _

/-- What is registered for a list of values in a specification. -/
def countIn (s : Spec) (vars : List Var) (members : List Int) (lower upper : Int) : Count where
  members
  lower
  upper
  order := ScopeOrder.ofScope s.branchVars vars
  leastAbove := s.properties.down.size + 0
  mostAbove := s.properties.down.size + 1
  leastBelow := s.properties.up.size + 0
  mostBelow := s.properties.up.size + 1

theorem appends_registerCount (c : ScopeId) (vars : List Var) (members : List Int) (lower upper : Int)
    (s : Spec) : After (registerCount c vars members lower upper) (fun _ u =>
      Appends c s u
        (countsFrom c vars.length members s.properties.down.size)
        (countsFrom c vars.length members s.properties.up.size)
        [fun arc => .ok (admits (countIn s vars members lower upper) arc)]) s := by
  unfold registerCount
  refine after_bind.2 (after_orderOf.2 ?_)
  refine after_bind.2 ((Appends.refl c s).declareDown fun _ h => ?_)
  refine after_bind.2 (h.declareDown fun _ h => ?_)
  refine after_bind.2 (h.declareUp fun _ h => ?_)
  refine after_bind.2 (h.declareUp fun _ h => ?_)
  refine after_bind.2 (h.transitionDown (by simp) fun _ h => ?_)
  refine after_bind.2 (h.transitionDown (by simp) fun _ h => ?_)
  refine after_bind.2 (h.transitionUp (by simp) fun _ h => ?_)
  refine after_bind.2 (h.transitionUp (by simp) fun _ h => ?_)
  refine after_bind.2 (h.arcCheck fun _ h => ?_)
  refine after_bind.2 (h.splitPriority fun _ h => ?_)
  refine after_bind.2 (h.candidatePriority fun _ h => ?_)
  exact h.equivalenceKey fun _ h => h

section

variable {t : Spec} {c : ScopeId} {vars : List Var} {d : Direction} {i l : Nat} {s : Slot}
  {members : List Int} {σ : Var → Int}

theorem total_le_length (h : t.Hosts c vars) (members : List Int) (σ : Var → Int) (d : Direction)
    (l : Nat) : t.total vars (fun x => weight members (σ x)) d l ≤ vars.length := by
  have h1 := countOf_le_length members σ (t.passed vars d l)
  have h2 := h.length_passed_le d l
  unfold countOf at h1
  unfold total
  omega

theorem tracks_stepMin (h : t.Hosts c vars)
    (hq : t.Has d i (property c vars.length .minimum (stepMin members i)) s
      fun input values out => .ok (stepMin members i input values out)) :
    Tracks t.toModel (t.toModel.labelsOf σ) d i fun b l r =>
      (t.atMost vars (fun x => weight members (σ x)) d).Holds s b l r.bits := by
  refine h.tracks_atMost hq rfl rfl rfl (Int.le_refl 0) (Int.natCast_nonneg _)
    (fun l => totalOf_nonneg fun _ _ => weight_nonneg _ _) fun {l source combined values target w} _ _ hw =>
    ⟨_, (Except.ok.inj hw).symm, fun hmem => ?_⟩
  have : (if values.all members.contains = true then (1 : Int) else 0) ≤
      weight members (σ (t.toModel.var l)) := by
    split_ifs with hall
    · have : members.contains (σ (t.toModel.var l)) = true := List.all_eq_true.1 hall _ hmem
      exact Int.le_of_eq (if_pos this).symm
    · exact weight_nonneg _ _
  show source.integer i + _ ≤ _
  omega

theorem tracks_stepMax (h : t.Hosts c vars)
    (hq : t.Has d i (property c vars.length .maximum (stepMax members i)) s
      fun input values out => .ok (stepMax members i input values out)) :
    Tracks t.toModel (t.toModel.labelsOf σ) d i fun b l r =>
      (t.atLeast vars (fun x => weight members (σ x)) d).Holds s b l r.bits := by
  refine h.tracks_atLeast hq rfl rfl rfl (Int.le_refl 0) (Int.natCast_nonneg _)
    (total_le_length h members σ d) fun {l source combined values target w} _ _ hw =>
    ⟨_, (Except.ok.inj hw).symm, fun hmem => ?_⟩
  have : weight members (σ (t.toModel.var l)) ≤
      (if values.any members.contains = true then (1 : Int) else 0) := by
    split_ifs with hany
    · exact weight_le_one _ _
    · have : ¬ members.contains (σ (t.toModel.var l)) = true := fun hc =>
        hany (List.any_eq_true.2 ⟨_, hmem, hc⟩)
      exact Int.le_of_eq (if_neg this)
  show _ ≤ source.integer i + _
  omega

section

variable {r : State} (hslot : (t.toModel.layout d.side).slot? i = some s)
  (hk : s.kind = .integer 0 0 vars.length)
include hslot hk

theorem integer_le_total
    (hr : (t.atMost vars (fun x => weight members (σ x)) d).Holds s true l r.bits) :
    (t.toModel.view d.side r).integer i ≤ t.total vars (fun x => weight members (σ x)) d l :=
  (Measure.Holds.integer (v := t.toModel.view d.side r) hslot hk hr).2 rfl

theorem total_le_integer
    (hr : (t.atLeast vars (fun x => weight members (σ x)) d).Holds s true l r.bits) :
    t.total vars (fun x => weight members (σ x)) d l ≤ (t.toModel.view d.side r).integer i :=
  (Measure.Holds.integer (v := t.toModel.view d.side r) hslot hk hr).2 rfl

end

end

/-! ### Tests -/

section

variable {t : Spec} {c : ScopeId} {vars : List Var} {l : Nat} {σ : Var → Int} {k : Count} {arc : ArcFacts}
  (h : t.Hosts c vars) (hl : l < t.branchVars.size) (hv : t.toModel.var l ∈ vars)
  (hvalue : arc.value = σ (t.toModel.var l))
include h hl hv hvalue

/-- An arc passes if the integers of its states bound the counts above and below it. -/
theorem admits_of_bounds (hafter : k.order.after arc.layer = (t.passed vars .up (l + 1)).length)
    (hσ : k.lower ≤ countOf k.members σ vars ∧ countOf k.members σ vars ≤ k.upper)
    (least : arc.parentDown.integer k.leastAbove ≤ t.total vars (fun x => weight k.members (σ x)) .down l)
    (most : t.total vars (fun x => weight k.members (σ x)) .down l ≤ arc.parentDown.integer k.mostAbove)
    (below : ∀ up, arc.childUp = some up →
      up.integer k.leastBelow ≤ t.total vars (fun x => weight k.members (σ x)) .up (l + 1) ∧
        t.total vars (fun x => weight k.members (σ x)) .up (l + 1) ≤ up.integer k.mostBelow) :
    admits k arc = true := by
  have hsplit := h.total_split (fun x => weight k.members (σ x)) hl hv
  have hcount := countOf_le_length k.members σ (t.passed vars .up (l + 1))
  have hnonneg := countOf_nonneg k.members σ (t.passed vars .up (l + 1))
  change t.total vars _ .up (l + 1) ≤ _ at hcount
  change 0 ≤ t.total vars _ .up (l + 1) at hnonneg
  unfold countOf at hσ
  unfold admits
  rw [hvalue]
  cases hchild : arc.childUp with
  | none =>
    simp only [Bool.and_eq_true, decide_eq_true_eq, hafter]
    omega
  | some up =>
    obtain ⟨b1, b2⟩ := below up hchild
    simp only [Bool.and_eq_true, decide_eq_true_eq]
    omega

/-- What passes on the last layer of the scope, between exact states, has its count within the bounds. -/
theorem countOf_of_admits (hafter : k.order.after arc.layer = (t.passed vars .up (l + 1)).length)
    (hlast : t.passed vars .up (l + 1) = [])
    (least : arc.parentDown.integer k.leastAbove = t.total vars (fun x => weight k.members (σ x)) .down l)
    (most : arc.parentDown.integer k.mostAbove = t.total vars (fun x => weight k.members (σ x)) .down l)
    (below : ∀ up, arc.childUp = some up → up.integer k.leastBelow = 0 ∧ up.integer k.mostBelow = 0)
    (hpass : admits k arc = true) :
    k.lower ≤ countOf k.members σ vars ∧ countOf k.members σ vars ≤ k.upper := by
  have hsplit := h.total_split (fun x => weight k.members (σ x)) hl hv
  have hnone : t.total vars (fun x => weight k.members (σ x)) .up (l + 1) = 0 := by
    unfold total
    rw [hlast]
    rfl
  rw [hlast, List.length_nil] at hafter
  unfold countOf
  unfold admits at hpass
  rw [hvalue] at hpass
  cases hchild : arc.childUp with
  | none =>
    simp only [hchild, Bool.and_eq_true, decide_eq_true_eq, hafter] at hpass
    omega
  | some up =>
    obtain ⟨b1, b2⟩ := below up hchild
    simp only [hchild, Bool.and_eq_true, decide_eq_true_eq] at hpass
    omega

end

/-! ### Bundles -/

section

variable {c : ScopeId} {i size : Nat} {members : List Int}

theorem joins_stepMin {V : Var → Int → Prop} :
    (property c size .minimum (stepMin members i)).Joins i V :=
  .of_integer (g := fun _ x values => x + if values.all members.contains then 1 else 0) rfl rfl rfl
    (fun _ _ _ hne => by
      obtain ⟨v, hv, e⟩ := IntSet.exists_eq_all (f := members.contains) hne
      exact ⟨v, hv, by rw [e, IntSet.all_singleton]⟩)
    fun _ x _ _ hv => (IntSet.below_all hv).add x

theorem joins_stepMax {V : Var → Int → Prop} :
    (property c size .maximum (stepMax members i)).Joins i V :=
  .of_integer (g := fun _ x values => x + if values.any members.contains then 1 else 0) rfl rfl rfl
    (fun _ _ _ hne => by
      obtain ⟨v, hv, e⟩ := IntSet.exists_eq_any (f := members.contains) hne
      exact ⟨v, hv, by rw [e, IntSet.any_singleton]⟩)
    fun _ x _ _ hv => (IntSet.below_any hv).add x

theorem joins_countsFrom {V : Var → Int → Prop} {n k : Nat} {q : Property}
    (hq : (countsFrom c size members n)[k]? = some q) : q.constraint = c ∧ q.Joins (n + k) V := by
  match k with
  | 0 =>
    obtain rfl := Option.some.inj hq
    exact ⟨rfl, joins_stepMin⟩
  | 1 =>
    obtain rfl := Option.some.inj hq
    exact ⟨rfl, joins_stepMax⟩

end

section

variable {D : Var → Int → Prop} {c : ScopeId} {vars : List Var} {s : Spec}

theorem joined_registerCount (h : s.Joined D) (hs : s.Scoped c vars) (members : List Int)
    (lower upper : Int) : (registerCount c vars members lower upper s).2.Joined D :=
  h.appends (appends_registerCount c vars members lower upper s) hs (fun _ _ => joins_countsFrom)
    fun _ _ => joins_countsFrom

theorem joined_registerAmong (h : s.Joined D) (vars : List Var) (values : List Int) (lower upper : Int) :
    (registerAmong vars values lower upper s).2.Joined D :=
  joined_registerCount (h.addScope "among" vars) (scoped_addScope "among" vars s) values lower upper

theorem joined_registerCardinality (h : s.Joined D) (vars : List Var) (values : List (Int × Int × Int)) :
    (registerCardinality vars values s).2.Joined D :=
  (forM_keeps (I := fun u => u.Joined D ∧ u.Scoped s.scopes.size vars) values
    (fun v _ u hu => ⟨joined_registerCount hu.1 hu.2 [v.1] v.2.1 v.2.2,
      Appends.scoped (appends_registerCount _ vars [v.1] v.2.1 v.2.2 u) hu.2⟩)
    ⟨h.addScope "global_cardinality" vars, scoped_addScope "global_cardinality" vars s⟩).1

end

/-! ### Exact counts -/

section

variable {t : Spec} {c : ScopeId} {vars : List Var} {i l : Nat} {members : List Int} {σ : Var → Int}
  {S : Nat → State}

theorem total_bounds (h : t.Hosts c vars) (members : List Int) (σ : Var → Int) (l : Nat) :
    0 ≤ t.total vars (fun x => weight members (σ x)) .down l ∧
      t.total vars (fun x => weight members (σ x)) .down l ≤ vars.length :=
  ⟨totalOf_nonneg fun _ _ => weight_nonneg _ _, total_le_length h members σ .down l⟩

variable {s : Slot} {r : State} (a : Lineage σ t i S) (h : t.Hosts c vars)
  (hl : l < t.branchVars.size) (hr : t.toModel.Alike .down i (S l) r)
include a h hl hr

theorem integer_stepMin (hq : t.Has .down i (property c vars.length .minimum (stepMin members i)) s
    fun input values out => .ok (stepMin members i input values out)) :
    (t.toModel.view .down r).integer i = t.total vars (fun x => weight members (σ x)) .down l := by
  refine a.integer_eq h hq rfl rfl (Int.le_refl 0) (Int.natCast_nonneg _) (total_bounds h members σ)
    (fun _ _ hs hw => ?_) hl hr
  rw [← Except.ok.inj hw]
  unfold stepMin
  dsimp only
  rw [hs, IntSet.all_singleton]
  rfl

theorem integer_stepMax (hq : t.Has .down i (property c vars.length .maximum (stepMax members i)) s
    fun input values out => .ok (stepMax members i input values out)) :
    (t.toModel.view .down r).integer i = t.total vars (fun x => weight members (σ x)) .down l := by
  refine a.integer_eq h hq rfl rfl (Int.le_refl 0) (Int.natCast_nonneg _) (total_bounds h members σ)
    (fun _ _ hs hw => ?_) hl hr
  rw [← Except.ok.inj hw]
  unfold stepMax
  dsimp only
  rw [hs, IntSet.any_singleton]
  rfl

end

/-! ### Counts -/

/-- The test of a count lets it pass if it is within its bounds, and decides on the last layer of the scope
whether it is: nothing is missing there. -/
theorem encodes_registerCount {c : ScopeId} {vars : List Var} {members : List Int} {lower upper : Int}
    {s : Spec} (hs : s.Scoped c vars) (σ : Var → Int) :
    Encodes σ (fun _ => lower ≤ countOf members σ vars ∧ countOf members σ vars ≤ upper) s
      (registerCount c vars members lower upper s).2 := by
  have happ := appends_registerCount c vars members lower upper s
  have own : ∀ {n} k (q : Property), (countsFrom c vars.length members n)[k]? = some q →
      q.Local (n + k) ∧ ∃ V, q.Joins (n + k) V := fun k q hq =>
    ⟨local_countsFrom hq, fun _ _ => False, (joins_countsFrom hq).2⟩
  have down : ∀ {k}, k < 2 → Owned s (registerCount c vars members lower upper s).2 .down
    (s.properties.down.size + k) := fun hk => Appends.owned_down happ hk
  have up : ∀ {k}, k < 2 → Owned s (registerCount c vars members lower upper s).2 .up
    (s.properties.up.size + k) := fun hk => Appends.owned_up happ hk
  refine Appends.encodes happ hs own own (fun t hu h known hσ l hl hv => ?_)
    fun t S hu h known lineage hpass => ?_
  all_goals
    obtain ⟨s1, h1⟩ := Appends.has_down happ hu h.check (k := 0) rfl rfl
    obtain ⟨s2, h2⟩ := Appends.has_down happ hu h.check (k := 1) rfl rfl
    obtain ⟨s3, h3⟩ := Appends.has_up happ hu h.check (k := 0) rfl rfl
    obtain ⟨s4, h4⟩ := Appends.has_up happ hu h.check (k := 1) rfl rfl
  · intro parent child hp hc above below
    have hafter := h.after_eq ((Appends.enlarges happ).trans hu) known hl hv
    refine congrArg Except.ok (admits_of_bounds h hl hv rfl hafter hσ ?_ ?_ fun r hr => ?_)
    · exact integer_le_total h1.slot h1.kind (hp _ (down (by decide)) h1.index _ (tracks_stepMin h h1))
    · exact total_le_integer h2.slot h2.kind (hp _ (down (by decide)) h2.index _ (tracks_stepMax h h2))
    · obtain ⟨r, hchild, rfl⟩ := Option.map_eq_some_iff.1 hr
      exact ⟨integer_le_total h3.slot h3.kind (hc r hchild _ (up (by decide)) h3.index _ (tracks_stepMin h h3)),
        total_le_integer h4.slot h4.kind (hc r hchild _ (up (by decide)) h4.index _ (tracks_stepMax h h4))⟩
  · obtain ⟨l, hl, hv, -, hlast⟩ := h.exists_last
    have hafter := h.after_eq ((Appends.enlarges happ).trans hu) known hl hv
    obtain ⟨parent, child, above, below, hp, hc, hok⟩ := hpass l hl hv
    refine countOf_of_admits h hl hv rfl hafter hlast ?_ ?_ (fun r hr => ?_) (Except.ok.inj hok)
    · exact integer_stepMin (lineage _ (down (by decide))) h hl (hp _ (down (by decide))) h1
    · exact integer_stepMax (lineage _ (down (by decide))) h hl (hp _ (down (by decide))) h2
    · obtain ⟨r, hchild, rfl⟩ := Option.map_eq_some_iff.1 hr
      have clear : ∀ {k}, k < 2 → t.toModel.Clear (l + 1) (s.properties.up.size + k) r := fun hk =>
        hc r hchild _ (up hk)
      exact ⟨h.integer_of_clear h3 rfl rfl (Int.le_refl 0) (Int.natCast_nonneg _) hlast (clear (by decide)),
        h.integer_of_clear h4 rfl rfl (Int.le_refl 0) (Int.natCast_nonneg _) hlast (clear (by decide))⟩

theorem encodes_registerAmong (vars : List Var) (values : List Int) (lower upper : Int) (s : Spec)
    (σ : Var → Int) :
    Encodes σ (fun _ => lower ≤ countOf values σ vars ∧ countOf values σ vars ≤ upper) s
      (registerAmong vars values lower upper s).2 := by
  unfold registerAmong
  rw [bind_snd]
  exact ((Encodes.addScope σ "among" vars s).trans
    (encodes_registerCount (scoped_addScope "among" vars s) σ)).congr fun _ => and_iff_right trivial

theorem encodes_registerCardinality (vars : List Var) (values : List (Int × Int × Int)) (s : Spec)
    (σ : Var → Int) :
    Encodes σ (fun _ => ∀ v ∈ values, v.2.1 ≤ countOf [v.1] σ vars ∧ countOf [v.1] σ vars ≤ v.2.2) s
      (registerCardinality vars values s).2 := by
  unfold registerCardinality
  rw [bind_snd]
  exact ((Encodes.addScope σ "global_cardinality" vars s).trans
    (Encodes.forM (I := fun u => u.Scoped s.scopes.size vars) values
      (fun v _ u hu => ⟨encodes_registerCount hu σ,
        Appends.scoped (appends_registerCount _ vars [v.1] v.2.1 v.2.2 u) hu⟩)
      (scoped_addScope "global_cardinality" vars s))).congr fun _ => and_iff_right trivial

end DecisionDiagrams.Counting
