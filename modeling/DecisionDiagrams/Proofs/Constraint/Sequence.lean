import DecisionDiagrams.Proofs.Constraint.Counting

/-! Sequences let every assignment pass which takes the values as often as it should in all windows, and
no other one if the states are exact. -/

namespace DecisionDiagrams.Sequence

open Spec Counting

/-- Every stretch of `length` variables takes the values as often as the bounds allow. -/
def Balanced (members : List Int) (length : Nat) (lower upper : Int) (σ : Var → Int) (xs : List Var) :
    Prop :=
  ∀ i, i + length ≤ xs.length → lower ≤ countOf members σ ((xs.drop i).take length) ∧
    countOf members σ ((xs.drop i).take length) ≤ upper

theorem countOf_append (members : List Int) (σ : Var → Int) (xs ys : List Var) :
    countOf members σ (xs ++ ys) = countOf members σ xs + countOf members σ ys :=
  totalOf_append _ xs ys

theorem countOf_cons (members : List Int) (σ : Var → Int) (x : Var) (xs : List Var) :
    countOf members σ (x :: xs) = weight members (σ x) + countOf members σ xs :=
  totalOf_cons _ x xs

/-- What the counts of a window are registered as. -/
def property (c : ScopeId) (size length : Nat) (r : Relaxation)
    (run : StepFacts → IntSet → View → Checked View) : Property where
  constraint := c
  kind := .window (elements length) 0 0 size
  relaxation := r
  rule := .transition [] run

theorem appends_register (vars : List Var) (length : Nat) (members : List Int) (lower upper : Int)
    {r s : Spec} {c : ScopeId} (hs : Spec.addScope "sequence" vars r = (c, s)) :
    After (register vars length members lower upper) (fun _ u => Appends c s u
      [property c vars.length length .minimum (stepMin members (s.properties.down.size + 0) length),
        property c vars.length length .maximum (stepMax members (s.properties.down.size + 1) length)]
      []
      [fun arc => .ok (admits ⟨members, length, lower, upper, ScopeOrder.ofScope s.branchVars vars,
        s.properties.down.size + 0, s.properties.down.size + 1⟩ arc)]) r := by
  unfold register
  refine after_bind.2 ((after_addScope hs).2 ?_)
  refine after_bind.2 (after_orderOf.2 ?_)
  refine after_bind.2 ((Appends.refl c s).declareDown fun _ h => ?_)
  refine after_bind.2 (h.declareDown fun _ h => ?_)
  refine after_bind.2 (h.transitionDown (by simp) fun _ h => ?_)
  refine after_bind.2 (h.transitionDown (by simp) fun _ h => ?_)
  refine after_bind.2 (h.arcCheck fun _ h => ?_)
  exact h.splitPriority fun _ h => h

/-- Only the test of a sequence is registered for it. -/
theorem testsSince_register (vars : List Var) (length : Nat) (members : List Int) (lower upper : Int) (r : Spec) :
    ∃ c k, testsSince r (register vars length members lower upper r).2 = [(c, fun arc => .ok (admits k arc))] := by
  obtain ⟨⟨c, s⟩, hs⟩ : ∃ p, Spec.addScope "sequence" vars r = p := ⟨_, rfl⟩
  have hsame : r.arcChecks = s.arcChecks := congrArg (fun p => p.2.arcChecks) hs
  have htests := Appends.testsSince_eq (appends_register vars length members lower upper hs)
  unfold testsSince at htests ⊢
  rw [hsame]
  exact ⟨_, _, htests⟩

theorem elements_eq {length : Nat} (h : length < 0x100000000) : elements length = length :=
  Nat.mod_eq_of_lt h

/-- The kind of a registered window is one of the given length, which is not empty. -/
theorem window_of_kind {c : ScopeId} {size length : Nat} {r : Relaxation} {run} {l : Layout} {i : Nat}
    {s : Slot} (hlen : length < 0x100000000) (hl : l.Sound) (hs : l.slot? i = some s)
    (hk : s.kind = (property c size length r run).kind) :
    s.kind = .window length 0 0 size ∧ 0 < length := by
  have hk' : s.kind = .window length 0 0 size := by
    rw [hk, property, elements_eq hlen]
  have hv := hl.valid i s hs
  rw [hk', Kind.isValid, Bool.and_eq_true, decide_eq_true_eq] at hv
  exact ⟨hk', hv.1⟩

theorem local_shift (c : ScopeId) (size : Nat) {length : Nat} (hlen : length < 0x100000000)
    (r : Relaxation) (hr : ∀ merge, r ≠ .custom merge) (i : Nat)
    (first : StepFacts → IntSet → Int) : (property c size length r fun input values out =>
      input.source.shiftIn i i length (first input values) out).Local i := by
  refine ⟨fun hrule input values v w s hl hs hk hw => ?_, hr⟩
  obtain ⟨-, rfl⟩ := Rule.transition.inj hrule
  obtain ⟨hk', hpos⟩ := window_of_kind hlen hl hs hk
  exact (View.shiftIn_ok hk' hlen hpos hl hs hw).1

section

variable {t : Spec} {c : ScopeId} {vars : List Var} {i l length : Nat} {s : Slot}
  {members : List Int} {σ : Var → Int}

/-- How many of the passed variables take a value, without the last `e` of them. -/
def countBefore (t : Spec) (vars : List Var) (members : List Int) (σ : Var → Int) (l e : Nat) : Int :=
  countOf members σ ((t.passed vars .down l).take ((t.passed vars .down l).length - e))

def least (t : Spec) (vars : List Var) (members : List Int) (σ : Var → Int) : Measure where
  own l e x := x ≤ countBefore t vars members σ l e

def most (t : Spec) (vars : List Var) (members : List Int) (σ : Var → Int) : Measure where
  own l e x := countBefore t vars members σ l e ≤ x

theorem countBefore_zero (t : Spec) (vars : List Var) (members : List Int) (σ : Var → Int) (l : Nat) :
    countBefore t vars members σ l 0 = countOf members σ (t.passed vars .down l) := by
  unfold countBefore
  rw [Nat.sub_zero, List.take_length]

theorem countBefore_nonneg (t : Spec) (vars : List Var) (members : List Int) (σ : Var → Int)
    (l e : Nat) : 0 ≤ countBefore t vars members σ l e := countOf_nonneg _ _ _

theorem countBefore_le (h : t.Hosts c vars) (members : List Int) (σ : Var → Int) (l e : Nat) :
    countBefore t vars members σ l e ≤ vars.length := by
  have h1 := countOf_le_length members σ
    ((t.passed vars .down l).take ((t.passed vars .down l).length - e))
  have h2 := h.length_passed_le .down l
  rw [List.length_take] at h1
  unfold countBefore
  omega

theorem countBefore_start (t : Spec) (vars : List Var) (members : List Int) (σ : Var → Int)
    (e : Nat) : countBefore t vars members σ 0 e = 0 := by
  unfold countBefore
  rw [show t.passed vars .down 0 = [] from passed_start t vars .down, List.take_nil]
  rfl

theorem countBefore_idle (hl : l < t.branchVars.size) (hv : t.toModel.var l ∉ vars) (e : Nat) :
    countBefore t vars members σ (l + 1) e = countBefore t vars members σ l e := by
  unfold countBefore
  rw [show t.passed vars .down (l + 1) = t.passed vars .down l from passed_eq hl hv .down]

/-- The counts move back by one place, and the new one counts one variable more. -/
theorem countBefore_succ (hl : l < t.branchVars.size) (hv : t.toModel.var l ∈ vars) (e : Nat) :
    countBefore t vars members σ (l + 1) e =
      if e = 0 then countBefore t vars members σ l 0 + weight members (σ (t.toModel.var l))
      else countBefore t vars members σ l (e - 1) := by
  split_ifs with he
  · subst he
    rw [countBefore_zero, countBefore_zero, passed_down_succ hl hv, countOf_append, countOf_cons]
    show _ + (_ + 0) = _
    omega
  · unfold countBefore
    rw [passed_down_succ hl hv, List.length_append, List.length_singleton,
      List.take_append_of_le_length (by omega)]
    congr 2
    omega

theorem initial_window {size : Nat} (hk : s.kind = .window length 0 0 size) :
    max s.lower (min s.upper s.kind.initial) = 0 := by
  have h1 : s.lower = 0 := by simp [Slot.lower, hk]
  have h2 : s.upper = size := by simp [Slot.upper, hk]
  have h3 : s.kind.initial = 0 := by simp [Kind.initial, hk]
  omega

/-- Windows which are shifted are tracked if the new count in front is. -/
theorem tracks_shift (h : t.Hosts c vars) (hlen : length < 0x100000000) {r : Relaxation}
    {first : StepFacts → IntSet → Int}
    (hq : t.Has .down i (property c vars.length length r fun input values out =>
      input.source.shiftIn i i length (first input values) out) s
      fun input values out => input.source.shiftIn i i length (first input values) out)
    (R : Int → Int → Prop) (M : Measure) (hall : ∀ l e x, M.all l e x)
    (hM : ∀ l e x, M.own l e x ↔ R x (countBefore t vars members σ l e)) (hr : M.Merges r)
    (hrefl : R 0 0)
    (hclamp : ∀ x y : Int, 0 ≤ y → y ≤ vars.length → R x y → R (max 0 (min (vars.length : Int) x)) y)
    (hfirst : ∀ {l source combined} {values : IntSet} {y : Int},
      t.toModel.labelsOf σ l ∈ values → R (source.windowElement i 0) y →
      R (first ⟨source, combined, l, t.toModel.var l⟩ values)
        (y + weight members (σ (t.toModel.var l)))) :
    Tracks t.toModel (t.toModel.labelsOf σ) .down i fun b l r => M.Holds s b l r.bits := by
  obtain ⟨hk, hpos⟩ := window_of_kind hlen hq.sound hq.slot hq.kind
  have hels : s.elements = length := by simp [Slot.elements, hk]
  refine Measure.tracks hq rfl hr (fun e he => ?_) (Or.inl hall) (fun l hl hi' e x => ⟨fun _ =>
    hall _ _ _, ?_⟩) ?_
  · rw [initial_window hk, hM]
    show R 0 (countBefore t vars members σ 0 e)
    rw [countBefore_start]
    exact hrefl
  · rw [h.mem_active hq rfl hl] at hi'
    rw [hM, hM]
    show R x (countBefore t vars members σ l e) → R x (countBefore t vars members σ (l + 1) e)
    rw [countBefore_idle hl hi']
    exact id
  · intro b l source combined values target w hl hi' hb hs hw
    rw [h.mem_active hq rfl hl] at hi'
    have hnum := (View.shiftIn_ok (v := t.toModel.view .down target) hk hlen hpos hq.sound hq.slot
      hw).2
    have hupper : s.upper = vars.length := by simp [Slot.upper, hk]
    intro e he
    rw [hnum e (by omega)]
    refine ⟨by omega, hall _ _ _, fun hb' => ?_⟩
    have hold : ∀ f < length, R ((t.toModel.view .down source).windowElement i f)
        (countBefore t vars members σ l f) := fun f hf => (hM l f _).1
      (Measure.Holds.windowElement (v := t.toModel.view .down source) hq.slot hk hs hf hb')
    rw [hM]
    refine hclamp _ _ (countBefore_nonneg _ _ _ _ _ _) (countBefore_le h _ _ _ _) ?_
    show R _ (countBefore t vars members σ (l + 1) e)
    rw [countBefore_succ hl hi']
    split_ifs with h0
    · exact hfirst (hb hb') (hold 0 hpos)
    · exact hold _ (by omega)

theorem tracks_stepMin (h : t.Hosts c vars) (hlen : length < 0x100000000)
    (hq : t.Has .down i (property c vars.length length .minimum (stepMin members i length)) s
      (stepMin members i length)) :
    Tracks t.toModel (t.toModel.labelsOf σ) .down i fun b l r =>
      (least t vars members σ).Holds s b l r.bits := by
  refine tracks_shift h hlen hq (· ≤ ·) (least t vars members σ) (fun _ _ _ => trivial)
    (fun _ _ _ => Iff.rfl) (fun hx _ => Int.le_trans (Int.min_le_left _ _) hx) (Int.le_refl 0)
    (fun x y _ _ hxy => by omega) fun {l source combined values y} hmem hxy => ?_
  have : (if values.all members.contains = true then (1 : Int) else 0) ≤
      weight members (σ (t.toModel.var l)) := by
    split_ifs with hall
    · have : members.contains (σ (t.toModel.var l)) = true := List.all_eq_true.1 hall _ hmem
      exact Int.le_of_eq (if_pos this).symm
    · exact weight_nonneg _ _
  exact Int.add_le_add hxy this

theorem tracks_stepMax (h : t.Hosts c vars) (hlen : length < 0x100000000)
    (hq : t.Has .down i (property c vars.length length .maximum (stepMax members i length)) s
      (stepMax members i length)) :
    Tracks t.toModel (t.toModel.labelsOf σ) .down i fun b l r =>
      (most t vars members σ).Holds s b l r.bits := by
  refine tracks_shift h hlen hq (fun x y => y ≤ x) (most t vars members σ) (fun _ _ _ => trivial)
    (fun _ _ _ => Iff.rfl) (fun hx _ => Int.le_trans hx (Int.le_max_left _ _)) (Int.le_refl 0)
    (fun x y _ _ hxy => by omega) fun {l source combined values y} hmem hxy => ?_
  have : weight members (σ (t.toModel.var l)) ≤
      (if values.any members.contains = true then (1 : Int) else 0) := by
    split_ifs with hany
    · exact weight_le_one _ _
    · have : ¬ members.contains (σ (t.toModel.var l)) = true := fun hc =>
        hany (List.any_eq_true.2 ⟨_, hmem, hc⟩)
      exact Int.le_of_eq (if_neg this)
  exact Int.add_le_add hxy this

end

/-! ### Stretches -/

section

variable {members : List Int} {length : Nat} {lower upper : Int} {σ : Var → Int} {x : Var}
  {above below : List Var}

/-- The count of the stretch which ends with `x` is a difference of counts. -/
theorem countOf_stretch (members : List Int) (σ : Var → Int) (x : Var) (above below : List Var)
    (hpos : 0 < length) (hle : length ≤ above.length + 1) :
    countOf members σ (((above ++ x :: below).drop (above.length - (length - 1))).take length) =
      countOf members σ above + weight members (σ x) -
        countOf members σ (above.take (above.length - (length - 1))) := by
  have e : ((above ++ x :: below).drop (above.length - (length - 1))).take length =
      above.drop (above.length - (length - 1)) ++ [x] := by
    rw [List.drop_append_of_le_length (by omega), List.take_append, List.take_of_length_le (by simp; omega),
      List.length_drop, show length - (above.length - (above.length - (length - 1))) = 1 by omega]
    rfl
  have hsum := countOf_append members σ (above.take (above.length - (length - 1)))
    (above.drop (above.length - (length - 1)))
  rw [List.take_append_drop] at hsum
  rw [e, countOf_append, countOf_cons, hsum]
  show _ + (_ + 0) = _
  omega

/-- The stretch which ends with `x`. -/
theorem Balanced.complete (h : Balanced members length lower upper σ (above ++ x :: below))
    (hpos : 0 < length) (hle : length ≤ above.length + 1) :
    lower ≤ countOf members σ above + weight members (σ x) -
        countOf members σ (above.take (above.length - (length - 1))) ∧
      countOf members σ above + weight members (σ x) -
        countOf members σ (above.take (above.length - (length - 1))) ≤ upper := by
  rw [← countOf_stretch members σ x above below hpos hle]
  exact h (above.length - (length - 1)) (by simp; omega)

/-- The first stretch, which goes on behind `x`. -/
theorem Balanced.incomplete (h : Balanced members length lower upper σ (above ++ x :: below))
    (hlt : above.length + 1 < length) (hle : length ≤ (above ++ x :: below).length) :
    countOf members σ above + weight members (σ x) ≤ upper ∧
      lower ≤ countOf members σ above + weight members (σ x) +
        ((length - above.length - 1 : Nat) : Int) := by
  have hw := h 0 (by omega)
  have e : ((above ++ x :: below).drop 0).take length =
      above ++ x :: below.take (length - above.length - 1) := by
    rw [List.drop_zero, List.take_append, List.take_of_length_le (by omega),
      show length - above.length = (length - above.length - 1) + 1 by omega, List.take_succ_cons]
    rfl
  have h1 := countOf_nonneg members σ (below.take (length - above.length - 1))
  have h2 := countOf_le_length members σ (below.take (length - above.length - 1))
  rw [List.length_take] at h2
  rw [e, countOf_append, countOf_cons] at hw
  omega

end

/-! ### Bundles -/

section

variable {c : ScopeId} {i length size : Nat} {members : List Int}

/-- A window which is shifted joins labels if the new count in front is the one of a label, and above those
of the others. -/
theorem joins_shift (hlen : length < 0x100000000) {r : Relaxation}
    (fits : r.supports (.window (elements length) 0 0 size) = true) {V : Var → Int → Prop}
    {m : IntSet → Int} (pick : ∀ {values : IntSet}, (∃ v, v ∈ values) →
      ∃ v ∈ values, m values = m (.singleton v))
    (bound : ∀ {values : IntSet} {v : Int}, v ∈ values → r.Below (m (.singleton v)) (m values)) :
    (property c size length r fun input values out =>
      input.source.shiftIn i i length (input.source.windowElement i 0 + m values) out).Joins i V := by
  -- the elements of a window are those of any other one which agrees with it
  have same : ∀ {layout : Layout} {source source' : State} {s : Slot}, layout.slot? i = some s →
      s.kind = .window length 0 0 size → s.agree source.bits source'.bits = true → ∀ e < length,
      (⟨layout, source⟩ : View).windowElement i e = (⟨layout, source'⟩ : View).windowElement i e :=
    fun {layout source source' s} hs hk ha e he =>
      View.windowElement_congr (v := ⟨layout, source⟩) (w := ⟨layout, source'⟩) hs hs ha
        (by simpa [Slot.elements, hk] using he)
  refine .of_pick rfl fits (fun {layout source target s c l x values} hl hs hk => ?_)
    (fun {layout source source' target target' s c c' l x values} hl hs hk ha hne => ?_)
    fun {layout source source' target target' s c c' l x values v w w'} hl hs hk ha hv hw hw' => ?_
  · obtain ⟨hk', hpos⟩ := window_of_kind hlen hl hs hk
    show ∃ w, (⟨layout, source⟩ : View).shiftIn i i length _ ⟨layout, target⟩ = .ok w
    refine View.exists_shiftIn hk' hlen hpos ?_ ?_ ?_ ?_ _
    exacts [hl, hs, hl, hs]
  · obtain ⟨hk', hpos⟩ := window_of_kind hlen hl hs hk
    obtain ⟨v, hv, e⟩ := pick hne
    refine ⟨v, hv, fun w w' hw hw' => Slot.agree_of_number (by rw [hk']; rfl) fun e he => ?_⟩
    have he' : e < length := by simpa [Slot.elements, hk'] using he
    rw [(View.shiftIn_ok (v := ⟨layout, target⟩) hk' hlen hpos hl hs hw).2 e he',
      (View.shiftIn_ok (v := ⟨layout, target'⟩) hk' hlen hpos hl hs hw').2 e he']
    dsimp only
    rw [same hs hk' ha 0 hpos, same hs hk' ha (e - 1) (by omega), ‹m values = _›]
  · obtain ⟨hk', hpos⟩ := window_of_kind hlen hl hs hk
    refine Slot.below_of_number (hk ▸ fits) (by rw [hk']; rfl) fun e he => ?_
    have he' : e < length := by simpa [Slot.elements, hk'] using he
    rw [(View.shiftIn_ok (v := ⟨layout, target⟩) hk' hlen hpos hl hs hw).2 e he',
      (View.shiftIn_ok (v := ⟨layout, target'⟩) hk' hlen hpos hl hs hw').2 e he']
    refine .clamp ?_ _ _
    dsimp only
    split_ifs
    · rw [same hs hk' ha 0 hpos]
      exact (bound hv).add _
    · rw [same hs hk' ha (e - 1) (by omega)]
      exact .refl _ _

theorem joins_stepMin (hlen : length < 0x100000000) {V : Var → Int → Prop} :
    (property c size length .minimum (stepMin members i length)).Joins i V :=
  joins_shift hlen rfl (m := fun values => if values.all members.contains then 1 else 0)
    (fun hne => by
      obtain ⟨v, hv, e⟩ := IntSet.exists_eq_all (f := members.contains) hne
      exact ⟨v, hv, by rw [e, IntSet.all_singleton]⟩) IntSet.below_all

theorem joins_stepMax (hlen : length < 0x100000000) {V : Var → Int → Prop} :
    (property c size length .maximum (stepMax members i length)).Joins i V :=
  joins_shift hlen rfl (m := fun values => if values.any members.contains then 1 else 0)
    (fun hne => by
      obtain ⟨v, hv, e⟩ := IntSet.exists_eq_any (f := members.contains) hne
      exact ⟨v, hv, by rw [e, IntSet.any_singleton]⟩) IntSet.below_any

theorem joined_register {D : Var → Int → Prop} {s : Spec} (h : s.Joined D) (vars : List Var)
    (hlen : length < 0x100000000) (members : List Int) (lower upper : Int) :
    (register vars length members lower upper s).2.Joined D := by
  obtain ⟨⟨c, u⟩, hu⟩ : ∃ p, Spec.addScope "sequence" vars s = p := ⟨_, rfl⟩
  have happ := appends_register vars length members lower upper hu
  have hscoped := scoped_addScope "sequence" vars s
  have hadd := h.addScope "sequence" vars
  rw [hu] at hscoped hadd
  refine hadd.appends happ hscoped (fun k q hq => ?_) (fun _ _ none => absurd none (by simp))
  match k with
  | 0 =>
    obtain rfl := Option.some.inj hq
    exact ⟨rfl, joins_stepMin hlen⟩
  | 1 =>
    obtain rfl := Option.some.inj hq
    exact ⟨rfl, joins_stepMax hlen⟩

end

/-! ### Exact windows -/

section

variable {t : Spec} {c : ScopeId} {vars : List Var} {i l length size : Nat} {s : Slot}
  {members : List Int} {σ : Var → Int} {S : Nat → State}

variable {u : State} (a : Lineage σ t i S) (h : t.Hosts c vars) (hlen : length < 0x100000000)
  (hl : l < t.branchVars.size) (hu : t.toModel.Alike .down i (S l) u)
include a h hlen hl hu

/-- The elements of a window are the counts before the last variables. -/
theorem windowElement_eq {r : Relaxation} {m : IntSet → Int}
    (hm : ∀ v, m (.singleton v) = weight members v)
    (hq : t.Has .down i (property c vars.length length r fun input values out =>
      input.source.shiftIn i i length (input.source.windowElement i 0 + m values) out) s
      fun input values out =>
        input.source.shiftIn i i length (input.source.windowElement i 0 + m values) out)
    {e : Nat} (he : e < length) :
    (t.toModel.view .down u).windowElement i e = countBefore t vars members σ l e := by
  obtain ⟨hk, hpos⟩ := window_of_kind hlen hq.sound hq.slot hq.kind
  have hels : s.elements = length := by simp [Slot.elements, hk]
  have hold : (⟨fun _ _ _ => True, fun l e x => x = countBefore t vars members σ l e⟩ :
      Measure).Holds s true l u.bits := by
    refine a.holds hq rfl (fun _ _ _ => trivial) (fun e _ => ?_) (fun l hl hi' e x => ?_)
      (fun {l source target w} hl hi' hs hw => ?_) hl hu
    · rw [initial_window hk]
      exact (countBefore_start t vars members σ e).symm
    · rw [h.mem_active hq rfl hl] at hi'
      exact fun hx => hx.trans (countBefore_idle hl hi' e).symm
    · rw [h.mem_active hq rfl hl] at hi'
      have hnum := (View.shiftIn_ok (v := t.toModel.view .down target) hk hlen hpos hq.sound hq.slot
        hw).2
      have hupper : s.upper = vars.length := by simp [Slot.upper, hk]
      have hfront : ∀ f < length, (t.toModel.view .down source).windowElement i f =
          countBefore t vars members σ l f := fun f hf =>
        Measure.Holds.windowElement (v := t.toModel.view .down source) hq.slot hk hs hf rfl
      intro f hf
      have hlow := countBefore_nonneg t vars members σ (l + 1) f
      have hhigh := countBefore_le h members σ (l + 1) f
      have hnew : (if f = 0 then (t.toModel.view .down source).windowElement i 0 +
          m (.singleton (σ (t.toModel.var l))) else
            (t.toModel.view .down source).windowElement i (f - 1)) =
          countBefore t vars members σ (l + 1) f := by
        rw [countBefore_succ hl hi', hm]
        split_ifs with h0
        · rw [hfront 0 hpos]
        · rw [hfront (f - 1) (by omega)]
      rw [hnum f (by omega), hnew]
      refine ⟨by omega, trivial, fun _ => ?_⟩
      dsimp only
      omega
  exact Measure.Holds.windowElement (v := t.toModel.view .down u) hq.slot hk hold he rfl

end

/-! ### Sequences -/

section

variable {t : Spec} {c : ScopeId} {vars : List Var} {l : Nat} {σ : Var → Int} {k : Windows} {arc : ArcFacts}
  (h : t.Hosts c vars) (hl : l < t.branchVars.size) (hv : t.toModel.var l ∈ vars) (hpos : 0 < k.length)
  (hvalue : arc.value = σ (t.toModel.var l)) (hsize : k.order.size = vars.length)
  (hbefore : k.order.before arc.layer = (t.passed vars .down l).length)
include h hl hv hpos hvalue hsize hbefore

/-- An arc passes if the windows of its state above bound the counts before the last variables. -/
theorem admits_of_counts
    (hσ : Balanced k.members k.length k.lower k.upper σ (scopeIn t.order vars))
    (least : ∀ e < k.length,
      arc.parentDown.windowElement k.leastCounts e ≤ countBefore t vars k.members σ l e)
    (most : ∀ e < k.length,
      countBefore t vars k.members σ l e ≤ arc.parentDown.windowElement k.mostCounts e) :
    admits k arc = true := by
  have hperm := h.perm.length_eq
  rw [scopeIn_split hl hv] at hσ hperm
  have b1 := least 0 hpos
  have b2 := most 0 hpos
  rw [countBefore_zero] at b1 b2
  have hweight : (if k.members.contains (σ (t.toModel.var l)) = true then (1 : Int) else 0) =
      weight k.members (σ (t.toModel.var l)) := rfl
  unfold admits
  dsimp only
  rw [hvalue, hsize, hbefore, hweight]
  split_ifs with hshort hcomplete
  · rfl
  · have hw := Balanced.complete hσ hpos hcomplete
    have b3 := least (k.length - 1) (by omega)
    have b4 := most (k.length - 1) (by omega)
    unfold countBefore at b3 b4
    rw [Bool.and_eq_true, decide_eq_true_eq, decide_eq_true_eq]
    omega
  · have hw := Balanced.incomplete hσ (by omega) (by omega)
    rw [Bool.and_eq_true, decide_eq_true_eq, decide_eq_true_eq]
    omega

/-- What passes where a stretch ends, behind exact windows, has the count of the stretch within the bounds. -/
theorem stretch_of_admits {first : Nat} (hfirst : first + k.length = (t.passed vars .down l).length + 1)
    (least : ∀ e < k.length,
      arc.parentDown.windowElement k.leastCounts e = countBefore t vars k.members σ l e)
    (most : ∀ e < k.length,
      arc.parentDown.windowElement k.mostCounts e = countBefore t vars k.members σ l e)
    (hpass : admits k arc = true) :
    k.lower ≤ countOf k.members σ (((scopeIn t.order vars).drop first).take k.length) ∧
      countOf k.members σ (((scopeIn t.order vars).drop first).take k.length) ≤ k.upper := by
  have hperm := h.perm.length_eq
  rw [scopeIn_split hl hv] at hperm ⊢
  rw [List.length_append, List.length_cons] at hperm
  have hfront : (t.passed vars .down l).length - (k.length - 1) = first := by omega
  have hstretch := countOf_stretch k.members σ (t.toModel.var l) (t.passed vars .down l)
    (t.passed vars .up (l + 1)) hpos (by omega)
  have hweight : (if k.members.contains (σ (t.toModel.var l)) = true then (1 : Int) else 0) =
      weight k.members (σ (t.toModel.var l)) := rfl
  rw [hfront] at hstretch
  unfold admits at hpass
  dsimp only at hpass
  rw [hvalue, hbefore, hsize, if_neg (by omega), if_pos (by omega), Bool.and_eq_true, decide_eq_true_eq,
    decide_eq_true_eq, least 0 hpos, most 0 hpos, least (k.length - 1) (by omega),
    most (k.length - 1) (by omega), countBefore_zero, hweight] at hpass
  unfold countBefore at hpass
  rw [hfront] at hpass
  rw [hstretch]
  exact hpass.symm

end

/-- The test of a sequence lets it pass if its windows are balanced, and decides about every stretch on the
layer with which it ends. -/
theorem encodes_register (vars : List Var) {length : Nat} (hlen : length < 0x100000000) (members : List Int)
    (lower upper : Int) (r : Spec) (σ : Var → Int) :
    Encodes σ (fun order => Balanced members length lower upper σ (scopeIn order vars)) r
      (register vars length members lower upper r).2 := by
  obtain ⟨⟨c, s⟩, hs⟩ : ∃ p, Spec.addScope "sequence" vars r = p := ⟨_, rfl⟩
  have happ := appends_register vars length members lower upper hs
  have hscoped := scoped_addScope "sequence" vars r
  have hfirst := Encodes.addScope σ "sequence" vars r
  rw [hs] at hscoped hfirst
  have down : ∀ {k}, k < 2 → Owned s (register vars length members lower upper r).2 .down
    (s.properties.down.size + k) := fun hk => Appends.owned_down happ hk
  refine (hfirst.trans (Appends.encodes happ hscoped (fun k q hq => ?_) (fun _ _ none => absurd none (by simp))
    (fun t hu h known hσ l hl hv => ?_) fun t S hu h known lineage hpass => ?_)).congr
    fun _ => and_iff_right trivial
  · match k with
    | 0 =>
      obtain rfl := Option.some.inj hq
      exact ⟨local_shift c vars.length hlen .minimum nofun _ _, fun _ _ => False, joins_stepMin hlen⟩
    | 1 =>
      obtain rfl := Option.some.inj hq
      exact ⟨local_shift c vars.length hlen .maximum nofun _ _, fun _ _ => False, joins_stepMax hlen⟩
  all_goals
    obtain ⟨s1, h1⟩ := Appends.has_down happ hu h.check (k := 0) rfl rfl
    obtain ⟨s2, h2⟩ := Appends.has_down happ hu h.check (k := 1) rfl rfl
    obtain ⟨hk1, hpos⟩ := window_of_kind hlen h1.sound h1.slot h1.kind
    obtain ⟨hk2, -⟩ := window_of_kind hlen h2.sound h2.slot h2.kind
  · intro parent child hp hc _ _
    have hbefore := h.before_eq ((Appends.enlarges happ).trans hu) known hl hv
    refine congrArg Except.ok (admits_of_counts h hl hv hpos rfl rfl hbefore hσ (fun e he => ?_) fun e he => ?_)
    · exact Measure.Holds.windowElement (v := t.toModel.view .down parent) h1.slot hk1
        (hp _ (down (by decide)) h1.index _ (tracks_stepMin h hlen h1)) he rfl
    · exact Measure.Holds.windowElement (v := t.toModel.view .down parent) h2.slot hk2
        (hp _ (down (by decide)) h2.index _ (tracks_stepMax h hlen h2)) he rfl
  · intro first hfirst
    have hend : first + length - 1 < (scopeIn t.order vars).length := by omega
    -- the layer of the last variable of the stretch
    have e : scopeIn t.order vars = (scopeIn t.order vars).take (first + length - 1) ++
        (scopeIn t.order vars)[first + length - 1] ::
          (scopeIn t.order vars).drop (first + length - 1 + 1) := by
      rw [← List.drop_eq_getElem_cons hend, List.take_append_drop]
    obtain ⟨l, hl, hx, hv, habove, -⟩ := h.exists_layer e
    rw [← hx] at hv
    have hplace : (t.passed vars .down l).length = first + length - 1 := by
      rw [habove, List.length_take]
      omega
    obtain ⟨parent, child, _, _, hp, -, hok⟩ := hpass l hl hv
    have hbefore := h.before_eq ((Appends.enlarges happ).trans hu) known hl hv
    have single : ∀ v, (if (IntSet.singleton v).all members.contains = true then (1 : Int) else 0) =
        weight members v := fun v => by
      rw [IntSet.all_singleton]
      rfl
    have single' : ∀ v, (if (IntSet.singleton v).any members.contains = true then (1 : Int) else 0) =
        weight members v := fun v => by
      rw [IntSet.any_singleton]
      rfl
    refine stretch_of_admits h hl hv hpos rfl rfl hbefore (by dsimp only; omega) (fun e he => ?_)
      (fun e he => ?_) (Except.ok.inj hok)
    · exact windowElement_eq (lineage _ (down (by decide))) h hlen hl (hp _ (down (by decide))) single h1 he
    · exact windowElement_eq (lineage _ (down (by decide))) h hlen hl (hp _ (down (by decide))) single' h2 he

end DecisionDiagrams.Sequence
