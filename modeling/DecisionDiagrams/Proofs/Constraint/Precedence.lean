import DecisionDiagrams.Proofs.Constraint.Encoding

/-! Precedences let every assignment pass in which the values come in the right order of layers, and no
other one if the states are exact. -/

namespace DecisionDiagrams.Precedence

open Spec

/-- Every variable which takes `after` comes behind one which takes `before`. -/
def Preceded (before after : Int) (σ : Var → Int) (xs : List Var) : Prop :=
  ∀ above x below, xs = above ++ x :: below → σ x = after → ∃ y ∈ above, σ y = before

/-- Every variable which takes `before` is followed by one which takes `after`. -/
def Answered (before after : Int) (σ : Var → Int) (xs : List Var) : Prop :=
  ∀ above x below, xs = above ++ x :: below → σ x = before → ∃ y ∈ below, σ y = after

theorem Preceded.congr {before after : Int} {σ τ : Var → Int} {xs : List Var}
    (h : Preceded before after σ xs) (e : ∀ x ∈ xs, σ x = τ x) : Preceded before after τ xs := by
  rintro above x below rfl hx
  obtain ⟨y, hy, hb⟩ := h above x below rfl ((e x (by simp)).trans hx)
  exact ⟨y, hy, (e y (List.mem_append_left _ hy)).symm.trans hb⟩

theorem Answered.congr {before after : Int} {σ τ : Var → Int} {xs : List Var}
    (h : Answered before after σ xs) (e : ∀ x ∈ xs, σ x = τ x) : Answered before after τ xs := by
  rintro above x below rfl hx
  obtain ⟨y, hy, ha⟩ := h above x below rfl ((e x (by simp)).trans hx)
  exact ⟨y, hy, (e y (by simp [hy])).symm.trans ha⟩

/-- A variable takes `before`, and neither it nor a later one takes `after`. -/
def Pending (before after : Int) (σ : Var → Int) (xs : List Var) : Prop :=
  ∃ above y below, xs = above ++ y :: below ∧ σ y = before ∧ ∀ z ∈ y :: below, σ z ≠ after

theorem Pending.snoc {before after : Int} {σ : Var → Int} {xs : List Var} {x : Var}
    (hx : σ x ≠ after) (h : σ x = before ∨ Pending before after σ xs) :
    Pending before after σ (xs ++ [x]) := by
  rcases h with hb | ⟨above, y, below, rfl, hy, hz⟩
  · refine ⟨xs, x, [], rfl, hb, fun z hz => ?_⟩
    rwa [List.mem_singleton.1 hz]
  · refine ⟨above, y, below ++ [x], by simp, hy, fun z hz' => ?_⟩
    rw [← List.cons_append, List.mem_append, List.mem_singleton] at hz'
    rcases hz' with hz' | rfl
    · exact hz z hz'
    · exact hx

/-- What a flag is registered as. -/
def property (c : ScopeId) (r : Relaxation) (run : StepFacts → IntSet → View → View) : Property where
  constraint := c
  kind := .flag false
  relaxation := r
  rule := .transition [] fun input values out => .ok (run input values out)

theorem local_stepSeen {c : ScopeId} {value : Int} {i : Nat} :
    (property c .maximum (stepSeen value i)).Local i :=
  .of_total rfl nofun fun hl => View.writes_setFlag hl _ _

theorem local_stepUnanswered {c : ScopeId} {before after : Int} {i : Nat} :
    (property c .minimum (stepUnanswered before after i)).Local i :=
  .of_total rfl nofun fun hl => View.writes_setFlag hl _ _

theorem toNat_le {a b : Bool} (h : a = true → b = true) : (a.toNat : Int) ≤ b.toNat := by
  cases a with
  | false => exact Int.natCast_nonneg _
  | true => rw [h rfl]

section

variable {t : Spec} {c : ScopeId} {vars : List Var} {d : Direction} {i l : Nat} {s : Slot}
  {σ : Var → Int} {value before after : Int}

/-- A flag which is set if a passed variable takes the value. -/
def seen (t : Spec) (vars : List Var) (σ : Var → Int) (value : Int) (d : Direction) : Measure where
  own l _ x := (∃ y ∈ t.passed vars d l, σ y = value) → 1 ≤ x

/-- A flag which is set only if the last `before` waits for an `after`. -/
def unanswered (t : Spec) (vars : List Var) (σ : Var → Int) (before after : Int) : Measure where
  own l _ x := 1 ≤ x → Pending before after σ (t.passed vars .down l)

theorem Spec.Has.initial_flag {q : Property} {run} (hq : t.Has d i q s run) (hk : q.kind = .flag false) :
    max s.lower (min s.upper s.kind.initial) = 0 := by
  have hk' := hq.kind.trans hk
  have h1 : s.lower = 0 := by simp [Slot.lower, hk']
  have h2 : s.upper = 1 := by simp [Slot.upper, hk']
  have h3 : s.kind.initial = 0 := by simp [Kind.initial, hk']
  omega

theorem one_le_toNat {x : Bool} : (1 : Int) ≤ (x.toNat : Int) ↔ x = true := by
  cases x <;> decide

theorem tracks_stepSeen (h : t.Hosts c vars)
    (hq : t.Has d i (property c .maximum (stepSeen value i)) s
      fun input values out => .ok (stepSeen value i input values out)) :
    Tracks t.toModel (t.toModel.labelsOf σ) d i fun b l r =>
      (seen t vars σ value d).Holds s b l r.bits := by
  refine Measure.tracks hq rfl ?_ (fun e he => ?_) (Or.inl fun _ _ _ => trivial)
    (fun l hl hi' e x => ⟨id, ?_⟩) ?_
  · intro l e x y hx _ hy
    exact Int.le_trans (hx hy) (Int.le_max_left x y)
  · rintro ⟨y, hy, -⟩
    rw [passed_start] at hy
    cases hy
  · rw [h.mem_active hq rfl hl] at hi'
    show (_ → _) → (∃ y ∈ t.passed vars d (d.target l), _) → _
    rw [passed_eq hl hi' d]
    exact id
  · intro b l source combined values target w hl hi' hb hs hw
    rw [h.mem_active hq rfl hl] at hi'
    obtain rfl := Except.ok.inj hw
    refine Measure.holds_setFlag (v := t.toModel.view d.side target) hq.slot hq.kind
      (fun _ => trivial) fun hb' => ?_
    have hs := Measure.Holds.flag (v := t.toModel.view d.side source) hq.slot hq.kind hs hb'
    rintro ⟨y, hy, hv⟩
    rw [one_le_toNat, Bool.or_eq_true]
    rcases List.mem_cons.1 ((passed_perm hl hi' d).mem_iff.1 hy) with rfl | hy
    · exact Or.inr (IntSet.contains_iff.2 (hv ▸ hb hb'))
    · exact Or.inl (one_le_toNat.1 (hs ⟨y, hy, hv⟩))

theorem tracks_stepUnanswered (h : t.Hosts c vars)
    (hq : t.Has .down i (property c .minimum (stepUnanswered before after i)) s
      fun input values out => .ok (stepUnanswered before after i input values out)) :
    Tracks t.toModel (t.toModel.labelsOf σ) .down i fun b l r =>
      (unanswered t vars σ before after).Holds s b l r.bits := by
  refine Measure.tracks hq rfl ?_ (fun e he => ?_) (Or.inl fun _ _ _ => trivial)
    (fun l hl hi' e x => ⟨id, ?_⟩) ?_
  · intro l e x y hx _ hy
    exact hx (Int.le_trans hy (Int.min_le_left x y))
  · rw [Spec.Has.initial_flag hq rfl]
    intro hle
    exact absurd hle (by decide)
  · rw [h.mem_active hq rfl hl] at hi'
    show (_ → Pending _ _ _ (t.passed vars .down (Direction.down.source l))) →
      _ → Pending _ _ _ (t.passed vars .down (Direction.down.target l))
    rw [passed_eq hl hi' .down]
    exact id
  · intro b l source combined values target w hl hi' hb hs hw
    rw [h.mem_active hq rfl hl] at hi'
    obtain rfl := Except.ok.inj hw
    refine Measure.holds_setFlag (v := t.toModel.view .down target) hq.slot hq.kind
      (fun _ => trivial) fun hb' => ?_
    have hs := Measure.Holds.flag (v := t.toModel.view .down source) hq.slot hq.kind hs hb'
    have hmem : σ (t.toModel.var l) ∈ values := hb hb'
    intro hx
    rw [one_le_toNat, Bool.and_eq_true, Bool.or_eq_true] at hx
    show Pending before after σ (t.passed vars .down (l + 1))
    rw [passed_down_succ hl hi']
    refine Pending.snoc (fun e => ?_) (hx.2.imp (fun hall => ?_) fun hf => hs (one_le_toNat.2 hf))
    · have hc := hx.1
      rw [← e, IntSet.contains_iff.2 hmem] at hc
      cases hc
    · exact beq_iff_eq.1 (List.all_eq_true.1 hall _ hmem)

end

/-! ### Bundles -/

theorem joins_stepSeen {V : Var → Int → Prop} :
    (property c .maximum (stepSeen value i)).Joins i V := by
  refine .of_flag (g := fun b values => b || values.contains value) rfl rfl rfl
    (fun b values ⟨v, hv⟩ => ?_) fun b values v hv => toNat_le fun hb => ?_
  · by_cases hm : value ∈ values
    · refine ⟨value, hm, ?_⟩
      rw [IntSet.contains_iff.2 hm, IntSet.contains_singleton, beq_self_eq_true]
    · refine ⟨v, hv, ?_⟩
      have hne : (value == v) = false := beq_false_of_ne fun e => hm (e ▸ hv)
      rw [Bool.eq_false_iff.2 fun h => hm (IntSet.contains_iff.1 h), IntSet.contains_singleton, hne]
  · rw [IntSet.contains_singleton, Bool.or_eq_true, beq_iff_eq] at hb
    refine Bool.or_eq_true_iff.2 (hb.imp_right ?_)
    rintro rfl
    exact IntSet.contains_iff.2 hv

theorem joins_stepUnanswered {V : Var → Int → Prop} :
    (property c .minimum (stepUnanswered before after i)).Joins i V := by
  refine .of_flag (g := fun b values => !values.contains after && (values.all (· == before) || b)) rfl rfl
    rfl (fun b values hne => ?_) fun b values v hv => toNat_le fun hb => ?_
  · by_cases hm : after ∈ values
    · refine ⟨after, hm, ?_⟩
      rw [IntSet.contains_iff.2 hm, IntSet.contains_singleton, beq_self_eq_true]
      rfl
    · obtain ⟨v, hv, e⟩ := IntSet.exists_eq_all (f := (· == before)) hne
      refine ⟨v, hv, ?_⟩
      have hva : (after == v) = false := beq_false_of_ne fun e => hm (e ▸ hv)
      rw [Bool.eq_false_iff.2 fun h => hm (IntSet.contains_iff.1 h), IntSet.contains_singleton, hva,
        e, IntSet.all_singleton]
  · rw [Bool.and_eq_true, Bool.or_eq_true, Bool.not_eq_true'] at hb
    rw [IntSet.contains_singleton, IntSet.all_singleton, Bool.and_eq_true, Bool.or_eq_true,
      Bool.not_eq_true', beq_eq_false_iff_ne]
    refine ⟨?_, hb.2.imp_left fun hall => List.all_eq_true.1 hall v hv⟩
    rintro rfl
    exact Bool.false_ne_true (hb.1.symm.trans (IntSet.contains_iff.2 hv))

/-! ### Exact flags -/

/-- A flag is set exactly where `P` says so. -/
theorem flag_iff {S : Nat → State} (a : Lineage σ t i S) (h : t.Hosts c vars)
    {r : Relaxation} {step : StepFacts → IntSet → View → View}
    (hq : t.Has .down i (property c r step) s fun input values out => .ok (step input values out))
    {P : Nat → Prop} (hstart : ¬ P 0)
    (hkept : ∀ l < t.branchVars.size, t.toModel.var l ∉ vars → (P l ↔ P (l + 1)))
    (hstep : ∀ {l} {source target : View}, l < t.branchVars.size → t.toModel.var l ∈ vars →
      (source.flag i = true ↔ P l) → ∃ x, step ⟨source, none, l, t.toModel.var l⟩
        (.singleton (σ (t.toModel.var l))) target = target.setFlag i x ∧ (x = true ↔ P (l + 1)))
    {u : State} (hl : l < t.branchVars.size) (hu : t.toModel.Alike .down i (S l) u) :
    (t.toModel.view .down u).flag i = true ↔ P l := by
  have hold : (⟨fun _ _ _ => True, fun l _ x => 1 ≤ x ↔ P l⟩ : Measure).Holds s true l u.bits := by
    refine a.holds hq rfl (fun _ _ _ => trivial) (fun e he => ?_) (fun l hl hi' e x => ?_)
      (fun {l source target w} hl hi' hs hw => ?_) hl hu
    · rw [Spec.Has.initial_flag hq rfl]
      exact ⟨fun hle => absurd hle (by decide), fun hp => absurd hp hstart⟩
    · rw [h.mem_active hq rfl hl] at hi'
      exact fun hx => hx.trans (hkept l hl hi')
    · rw [h.mem_active hq rfl hl] at hi'
      have hs := Measure.Holds.flag (v := t.toModel.view .down source) hq.slot hq.kind hs rfl
      obtain ⟨x, hx, hP⟩ : ∃ x, step ⟨t.toModel.view .down source, none, l, t.toModel.var l⟩
          (.singleton (σ (t.toModel.var l))) (t.toModel.view .down target) =
            (t.toModel.view .down target).setFlag i x ∧ (x = true ↔ P (l + 1)) :=
        hstep hl hi' (one_le_toNat.symm.trans hs)
      obtain rfl := hx.symm.trans (Except.ok.inj hw)
      exact Measure.holds_setFlag (v := t.toModel.view .down target) hq.slot hq.kind
        (fun _ => trivial) fun _ => one_le_toNat.trans hP
  exact one_le_toNat.symm.trans
    (Measure.Holds.flag (v := t.toModel.view .down u) hq.slot hq.kind hold rfl)

theorem pending_snoc_iff {xs : List Var} {x : Var} : Pending before after σ (xs ++ [x]) ↔
    σ x ≠ after ∧ (σ x = before ∨ Pending before after σ xs) := by
  refine ⟨?_, fun h => h.2.elim (fun hb => Pending.snoc h.1 (Or.inl hb)) fun hp =>
    Pending.snoc h.1 (Or.inr hp)⟩
  rintro ⟨above, y, below, e, hy, hz⟩
  rcases below.eq_nil_or_concat with rfl | ⟨below, z, rfl⟩
  · obtain ⟨-, hxy⟩ := List.append_inj' e rfl
    obtain rfl := List.singleton_inj.1 hxy
    exact ⟨hz x List.mem_cons_self, Or.inl hy⟩
  · rw [List.concat_eq_append, ← List.cons_append, ← List.append_assoc] at e
    obtain ⟨rfl, hzx⟩ := List.append_inj' e rfl
    obtain rfl := List.singleton_inj.1 hzx
    rw [List.concat_eq_append] at hz
    exact ⟨hz x (by simp), Or.inr ⟨above, y, below, rfl, hy, fun z hz' => hz z (by
      rw [← List.cons_append]
      exact List.mem_append_left _ hz')⟩⟩

section

variable {S : Nat → State} {u : State} (a : Lineage σ t i S)
  (h : t.Hosts c vars) (hl : l < t.branchVars.size) (hu : t.toModel.Alike .down i (S l) u)
include a h hl hu

theorem flag_stepSeen (hq : t.Has .down i (property c .maximum (stepSeen value i)) s
    fun input values out => .ok (stepSeen value i input values out)) :
    (t.toModel.view .down u).flag i = true ↔ ∃ y ∈ t.passed vars .down l, σ y = value := by
  refine flag_iff a h hq (P := fun l => ∃ y ∈ t.passed vars .down l, σ y = value) ?_ (fun l hl hv => ?_)
    (fun {l source target} hl hv hs => ⟨_, rfl, ?_⟩) hl hu
  · rintro ⟨y, hy, -⟩
    cases hy
  · rw [show t.passed vars .down (l + 1) = t.passed vars .down l from passed_eq hl hv .down]
  · dsimp only
    rw [Bool.or_eq_true, hs, IntSet.contains_singleton, beq_iff_eq, passed_down_succ hl hv]
    simp only [List.mem_append, List.mem_singleton, or_and_right, exists_or, exists_eq_left]
    exact or_congr_right eq_comm

theorem flag_stepUnanswered (hq : t.Has .down i
    (property c .minimum (stepUnanswered before after i)) s
    fun input values out => .ok (stepUnanswered before after i input values out)) :
    (t.toModel.view .down u).flag i = true ↔ Pending before after σ (t.passed vars .down l) := by
  refine flag_iff a h hq (P := fun l => Pending before after σ (t.passed vars .down l)) ?_
    (fun l hl hv => ?_) (fun {l source target} hl hv hs => ⟨_, rfl, ?_⟩) hl hu
  · rintro ⟨above, y, below, e, -⟩
    exact List.cons_ne_nil _ _ (List.append_eq_nil_iff.1 e.symm).2
  · rw [show t.passed vars .down (l + 1) = t.passed vars .down l from passed_eq hl hv .down]
  · dsimp only
    rw [passed_down_succ hl hv, pending_snoc_iff, Bool.and_eq_true, Bool.or_eq_true, hs,
      IntSet.contains_singleton, IntSet.all_singleton, beq_iff_eq, Bool.not_eq_true',
      beq_eq_false_iff_ne, ne_comm]

end

/-! ### Precedence -/

theorem appends_registerValue (vars : List Var) (before after : Int) {r s : Spec} {c : ScopeId}
    (hs : Spec.addScope "value_precedence" vars r = (c, s)) :
    After (registerValue vars before after) (fun _ u => Appends c s u
      [property c .maximum (stepSeen before (s.properties.down.size + 0))] []
      [fun arc => .ok (admits after (s.properties.down.size + 0) arc)]) r := by
  unfold registerValue
  refine after_bind.2 ((after_addScope hs).2 ?_)
  refine after_bind.2 ((Appends.refl c s).declareDown fun _ h => ?_)
  refine after_bind.2 (h.transitionDown (by simp) fun _ h => ?_)
  exact h.arcCheck fun _ h => h

theorem joined_registerValue {D : Var → Int → Prop} {s : Spec} (h : s.Joined D) (vars : List Var)
    (before after : Int) : (registerValue vars before after s).2.Joined D := by
  obtain ⟨⟨c, u⟩, hu⟩ : ∃ p, Spec.addScope "value_precedence" vars s = p := ⟨_, rfl⟩
  have happ := appends_registerValue vars before after hu
  have hscoped := scoped_addScope "value_precedence" vars s
  have hadd := h.addScope "value_precedence" vars
  rw [hu] at hscoped hadd
  refine hadd.appends happ hscoped (fun k q hq => ?_) (fun _ _ none => absurd none (by simp))
  match k with
  | 0 =>
    obtain rfl := Option.some.inj hq
    exact ⟨rfl, joins_stepSeen⟩

/-- An `after` passes on the layer of its variable if, and between exact states only if, a `before` is above. -/
theorem encodes_registerValue (vars : List Var) (before after : Int) (r : Spec) (σ : Var → Int) :
    Encodes σ (fun order => Preceded before after σ (scopeIn order vars)) r
      (registerValue vars before after r).2 := by
  obtain ⟨⟨c, s⟩, hs⟩ : ∃ p, Spec.addScope "value_precedence" vars r = p := ⟨_, rfl⟩
  have happ := appends_registerValue vars before after hs
  have hscoped := scoped_addScope "value_precedence" vars r
  have hfirst := Encodes.addScope σ "value_precedence" vars r
  rw [hs] at hscoped hfirst
  have down : Owned s (registerValue vars before after r).2 .down (s.properties.down.size + 0) :=
    Appends.owned_down happ Nat.zero_lt_one
  refine (hfirst.trans (Appends.encodes happ hscoped (fun k q hq => ?_) (fun _ _ none => absurd none (by simp))
    (fun t hu h known hσ l hl hv => ?_) fun t S hu h known lineage hpass => ?_)).congr
    fun _ => and_iff_right trivial
  · match k with
    | 0 =>
      obtain rfl := Option.some.inj hq
      exact ⟨local_stepSeen, fun _ _ => False, joins_stepSeen⟩
  · obtain ⟨s1, h1⟩ := Appends.has_down happ hu h.check (k := 0) rfl rfl
    intro parent child hp hc above below
    have hseen := Measure.Holds.flag (v := t.toModel.view .down parent) h1.slot h1.kind
      (hp _ down h1.index _ (tracks_stepSeen (σ := σ) h h1)) rfl
    refine congrArg Except.ok ?_
    unfold admits
    rw [Bool.or_eq_true, bne_iff_ne, ← imp_iff_not_or]
    intro hafter
    exact one_le_toNat.1 (hseen (hσ _ _ _ (scopeIn_split hl hv) hafter))
  · intro above x below e hx
    obtain ⟨s1, h1⟩ := Appends.has_down happ hu h.check (k := 0) rfl rfl
    obtain ⟨l, hl, rfl, hv, rfl, -⟩ := h.exists_layer e
    obtain ⟨parent, child, _, _, hp, -, hok⟩ := hpass l hl hv
    have hadmits := Except.ok.inj hok
    unfold admits at hadmits
    rw [Bool.or_eq_true, bne_iff_ne] at hadmits
    exact (flag_stepSeen (lineage _ down) h hl (hp _ down) h1).1 (hadmits.resolve_left fun hne => hne hx)

/-! ### Mandatory precedence -/

theorem appends_registerMandatory (vars : List Var) (before after : Int) {r s : Spec} {c : ScopeId}
    (hs : Spec.addScope "mandatory_precedence" vars r = (c, s)) :
    After (registerMandatory vars before after) (fun _ u => Appends c s u
      [property c .maximum (stepSeen before (s.properties.down.size + 0)),
        property c .minimum (stepUnanswered before after (s.properties.down.size + 1))]
      [property c .maximum (stepSeen after (s.properties.up.size + 0))]
      [fun arc => .ok (admitsMandatory ⟨before, after, ScopeOrder.ofScope s.branchVars vars,
        s.properties.down.size + 0, s.properties.down.size + 1, s.properties.up.size + 0⟩ arc)]) r := by
  unfold registerMandatory
  refine after_bind.2 ((after_addScope hs).2 ?_)
  refine after_bind.2 ((Appends.refl c s).declareDown fun _ h => ?_)
  refine after_bind.2 (h.transitionDown (by simp) fun u h => ?_)
  refine after_bind.2 (after_orderOf.2 ?_)
  rw [h.branchVars]
  refine after_bind.2 (h.declareDown fun _ h => ?_)
  refine after_bind.2 (h.declareUp fun _ h => ?_)
  refine after_bind.2 (h.transitionDown (by simp) fun _ h => ?_)
  refine after_bind.2 (h.transitionUp (by simp) fun _ h => ?_)
  refine after_bind.2 (h.arcCheck fun _ h => ?_)
  exact h.candidatePriority fun _ h => h

/-- If a value has to come behind itself, no variable takes it. -/
theorem Preceded.ne {value : Int} {σ : Var → Int} {xs : List Var} (h : Preceded value value σ xs) :
    ∀ (n : Nat) {above : List Var} {x : Var} {below : List Var}, above.length = n →
      xs = above ++ x :: below → σ x ≠ value := by
  intro n
  induction n using Nat.strong_induction_on with
  | _ n ih =>
    intro above x below hn e hx
    obtain ⟨y, hy, hv⟩ := h above x below e hx
    obtain ⟨first, rest, rfl⟩ := List.append_of_mem hy
    refine ih first.length ?_ rfl (by rw [e, List.append_assoc, List.cons_append]) hv
    rw [← hn, List.length_append, List.length_cons]
    omega

/-- Every `before` is answered if none is pending at the end. -/
theorem answered_of_not_pending {before after : Int} {σ : Var → Int} {xs : List Var}
    (h : Preceded before after σ xs) (hnot : ¬ Pending before after σ xs) :
    Answered before after σ xs := by
  intro above x below e hx
  by_contra hno
  have hnone : ∀ y ∈ below, σ y ≠ after := fun y hy hv => hno ⟨y, hy, hv⟩
  by_cases hsame : before = after
  · subst hsame
    exact h.ne above.length rfl e hx
  · refine hnot ⟨above, x, below, e, hx, fun z hz => ?_⟩
    rcases List.mem_cons.1 hz with rfl | hz
    · rwa [hx]
    · exact hnone z hz

theorem joined_registerMandatory {D : Var → Int → Prop} {s : Spec} (h : s.Joined D) (vars : List Var)
    (before after : Int) : (registerMandatory vars before after s).2.Joined D := by
  obtain ⟨⟨c, u⟩, hu⟩ : ∃ p, Spec.addScope "mandatory_precedence" vars s = p := ⟨_, rfl⟩
  have happ := appends_registerMandatory vars before after hu
  have hscoped := scoped_addScope "mandatory_precedence" vars s
  have hadd := h.addScope "mandatory_precedence" vars
  rw [hu] at hscoped hadd
  refine hadd.appends happ hscoped (fun k q hq => ?_) fun k q hq => ?_
  · match k with
    | 0 =>
      obtain rfl := Option.some.inj hq
      exact ⟨rfl, joins_stepSeen⟩
    | 1 =>
      obtain rfl := Option.some.inj hq
      exact ⟨rfl, joins_stepUnanswered⟩
  · match k with
    | 0 =>
      obtain rfl := Option.some.inj hq
      exact ⟨rfl, joins_stepSeen⟩

section

variable {t : Spec} {c : ScopeId} {vars : List Var} {l : Nat} {σ : Var → Int} {k : Mandatory} {arc : ArcFacts}
  (hvalue : arc.value = σ (t.toModel.var l))
  (hafter : k.order.after arc.layer = (t.passed vars .up (l + 1)).length)
include hvalue hafter

/-- An arc passes if the flags of its states say what was taken above and below it. -/
theorem admitsMandatory_of_flags (hl : l < t.branchVars.size) (hv : t.toModel.var l ∈ vars)
    (hσ : Preceded k.before k.after σ (scopeIn t.order vars) ∧
      Answered k.before k.after σ (scopeIn t.order vars))
    (seen : (∃ y ∈ t.passed vars .down l, σ y = k.before) → arc.parentDown.flag k.seen = true)
    (unanswered : arc.parentDown.flag k.unanswered = true →
      Pending k.before k.after σ (t.passed vars .down l))
    (followed : ∀ up, arc.childUp = some up →
      (∃ y ∈ t.passed vars .up (l + 1), σ y = k.after) → up.flag k.followed = true) :
    admitsMandatory k arc = true := by
  have hsplit := scopeIn_split hl hv
  unfold admitsMandatory
  dsimp only
  rw [hvalue, hafter]
  split_ifs with hlabel hwaits hbefore
  · exact seen (hσ.1 _ _ _ hsplit hlabel)
  · -- the last `before` waits, but no variable is left
    rw [Bool.and_eq_true, Bool.or_eq_true, beq_iff_eq, beq_iff_eq, List.length_eq_zero_iff] at hwaits
    obtain ⟨hwait, hnone⟩ := hwaits
    rw [hnone] at hsplit
    rcases hwait with hbefore | hflag
    · obtain ⟨y, hy, -⟩ := hσ.2 _ _ _ hsplit hbefore
      cases hy
    · obtain ⟨above, y, below, e, hy, hz⟩ := unanswered hflag
      rw [e, List.append_assoc, List.cons_append] at hsplit
      obtain ⟨z, hz', hza⟩ := hσ.2 _ _ _ hsplit hy
      rcases List.mem_append.1 hz' with hz' | hz'
      · exact absurd hza (hz z (List.mem_cons_of_mem _ hz'))
      · rw [List.mem_singleton] at hz'
        rw [hz'] at hza
        exact absurd hza hlabel
  · cases hchild : arc.childUp with
    | none => rfl
    | some up => exact followed up hchild (hσ.2 _ _ _ hsplit hbefore)
  · cases arc.childUp <;> rfl

omit hafter in
theorem exists_before_of_admitsMandatory (hpass : admitsMandatory k arc = true)
    (seen : arc.parentDown.flag k.seen = true → ∃ y ∈ t.passed vars .down l, σ y = k.before)
    (hlabel : σ (t.toModel.var l) = k.after) : ∃ y ∈ t.passed vars .down l, σ y = k.before := by
  unfold admitsMandatory at hpass
  dsimp only at hpass
  rw [hvalue, if_pos hlabel] at hpass
  exact seen hpass

/-- What passes on the last layer of the scope leaves nothing pending. -/
theorem not_pending_of_admitsMandatory (hpass : admitsMandatory k arc = true)
    (hlast : scopeIn t.order vars = t.passed vars .down l ++ [t.toModel.var l])
    (hnone : t.passed vars .up (l + 1) = [])
    (unanswered : Pending k.before k.after σ (t.passed vars .down l) →
      arc.parentDown.flag k.unanswered = true) : ¬ Pending k.before k.after σ (scopeIn t.order vars) := by
  rw [hlast, pending_snoc_iff]
  rintro ⟨hne, hwaits⟩
  unfold admitsMandatory at hpass
  dsimp only at hpass
  rw [hvalue, hafter, if_neg hne, hnone, if_pos] at hpass
  · cases hpass
  · rw [Bool.and_eq_true, Bool.or_eq_true, beq_iff_eq]
    exact ⟨hwaits.imp_right unanswered, rfl⟩

end

/-- The test of a mandatory precedence says on the layers whether `after` has a `before` above, and on the last
one whether a `before` is left. -/
theorem encodes_registerMandatory (vars : List Var) (before after : Int) (r : Spec) (σ : Var → Int) :
    Encodes σ (fun order => Preceded before after σ (scopeIn order vars) ∧
      Answered before after σ (scopeIn order vars)) r (registerMandatory vars before after r).2 := by
  obtain ⟨⟨c, s⟩, hs⟩ : ∃ p, Spec.addScope "mandatory_precedence" vars r = p := ⟨_, rfl⟩
  have happ := appends_registerMandatory vars before after hs
  have hscoped := scoped_addScope "mandatory_precedence" vars r
  have hfirst := Encodes.addScope σ "mandatory_precedence" vars r
  rw [hs] at hscoped hfirst
  have down : ∀ {k}, k < 2 → Owned s (registerMandatory vars before after r).2 .down
    (s.properties.down.size + k) := fun hk => Appends.owned_down happ hk
  have up : Owned s (registerMandatory vars before after r).2 .up (s.properties.up.size + 0) :=
    Appends.owned_up happ Nat.zero_lt_one
  refine (hfirst.trans (Appends.encodes happ hscoped (fun k q hq => ?_) (fun k q hq => ?_)
    (fun t hu h known hσ l hl hv => ?_) fun t S hu h known lineage hpass => ?_)).congr
    fun _ => and_iff_right trivial
  · match k with
    | 0 =>
      obtain rfl := Option.some.inj hq
      exact ⟨local_stepSeen, fun _ _ => False, joins_stepSeen⟩
    | 1 =>
      obtain rfl := Option.some.inj hq
      exact ⟨local_stepUnanswered, fun _ _ => False, joins_stepUnanswered⟩
  · match k with
    | 0 =>
      obtain rfl := Option.some.inj hq
      exact ⟨local_stepSeen, fun _ _ => False, joins_stepSeen⟩
  · obtain ⟨s1, h1⟩ := Appends.has_down happ hu h.check (k := 0) rfl rfl
    obtain ⟨s2, h2⟩ := Appends.has_down happ hu h.check (k := 1) rfl rfl
    obtain ⟨s3, h3⟩ := Appends.has_up happ hu h.check (k := 0) rfl rfl
    intro parent child hp hc _ _
    have hafter := h.after_eq ((Appends.enlarges happ).trans hu) known hl hv
    refine congrArg Except.ok (admitsMandatory_of_flags rfl hafter hl hv hσ (fun hy => ?_) (fun hflag => ?_)
      fun r hr hy => ?_)
    · exact one_le_toNat.1 (Measure.Holds.flag (v := t.toModel.view .down parent) h1.slot h1.kind
        (hp _ (down (by decide)) h1.index _ (tracks_stepSeen (σ := σ) h h1)) rfl hy)
    · exact Measure.Holds.flag (v := t.toModel.view .down parent) h2.slot h2.kind
        (hp _ (down (by decide)) h2.index _ (tracks_stepUnanswered (σ := σ) h h2)) rfl (one_le_toNat.2 hflag)
    · obtain ⟨r, hchild, rfl⟩ := Option.map_eq_some_iff.1 hr
      exact one_le_toNat.1 (Measure.Holds.flag (v := t.toModel.view .up r) h3.slot h3.kind
        (hc r hchild _ up h3.index _ (tracks_stepSeen (σ := σ) h h3)) rfl hy)
  · obtain ⟨s1, h1⟩ := Appends.has_down happ hu h.check (k := 0) rfl rfl
    obtain ⟨s2, h2⟩ := Appends.has_down happ hu h.check (k := 1) rfl rfl
    have hpreceded : Preceded before after σ (scopeIn t.order vars) := by
      intro above x below e hx
      obtain ⟨l, hl, rfl, hv, rfl, -⟩ := h.exists_layer e
      obtain ⟨parent, child, _, _, hp, -, hok⟩ := hpass l hl hv
      exact exists_before_of_admitsMandatory rfl (Except.ok.inj hok)
        (flag_stepSeen (lineage _ (down (by decide))) h hl (hp _ (down (by decide))) h1).1 hx
    refine ⟨hpreceded, answered_of_not_pending hpreceded ?_⟩
    obtain ⟨l, hl, hv, hlast, hnone⟩ := h.exists_last
    obtain ⟨parent, child, _, _, hp, -, hok⟩ := hpass l hl hv
    exact not_pending_of_admitsMandatory rfl (h.after_eq ((Appends.enlarges happ).trans hu) known hl hv)
      (Except.ok.inj hok) hlast hnone
      (flag_stepUnanswered (lineage _ (down (by decide))) h hl (hp _ (down (by decide))) h2).2

end DecisionDiagrams.Precedence
