import DecisionDiagrams.Proofs.Constraint.Totals

/-! Bounds on a weighted sum let every assignment in the domains of registration pass whose sum lies
between them, as long as the extreme sums fit into 32 bits, and no other one if the states are exact. -/

namespace DecisionDiagrams

namespace IntSet

variable {s : IntSet} {v : Int}

/-- An element lies between the first and the last one. -/
theorem between (hv : v ∈ s) : ∃ lower upper, s.min? = some lower ∧ s.max? = some upper ∧
    lower ≤ v ∧ v ≤ upper := by
  have hne : s.toList ≠ [] := fun h => by
    rw [mem_def, h] at hv
    cases hv
  exact ⟨_, _, List.head?_eq_some_head hne, List.getLast?_eq_some_getLast hne, head_le hv hne,
    le_getLast hv hne⟩

end IntSet

namespace Sum

open Spec

/-- The term of a variable lies between those of its bounds, whatever the sign of the weight. -/
theorem mul_between {w lower upper v : Int} (h1 : lower ≤ v) (h2 : v ≤ upper) :
    min (w * lower) (w * upper) ≤ w * v ∧ w * v ≤ max (w * lower) (w * upper) := by
  rcases Int.le_total 0 w with hw | hw
  · have := Int.mul_le_mul_of_nonneg_left h1 hw
    have := Int.mul_le_mul_of_nonneg_left h2 hw
    omega
  · have := Int.mul_le_mul_of_nonpos_left hw h1
    have := Int.mul_le_mul_of_nonpos_left hw h2
    omega

/-- The summand of a variable, which is empty off the scope. -/
def summandOf (domains : Domains) (vars : List Var) (weights : List Int) (x : Var) : Summand :=
  match (vars.zip weights).find? (·.1 == x), domains.get? x with
  | some (_, weight), some d => Summand.ofBounds weight d.lower d.upper
  | _, _ => {}

theorem summandsOf_eq (domains : Domains) (order : Array Var) (vars : List Var) (weights : List Int) :
    summandsOf domains order vars weights = order.toList.map (summandOf domains vars weights) := rfl

/-- The weighted sum of the variables under an assignment. -/
def sumOf (vars : List Var) (weights : List Int) (σ : Var → Int) : Int :=
  ((vars.zip weights).map fun p => p.2 * σ p.1).sum

theorem sumOf_congr {vars : List Var} (weights : List Int) {σ τ : Var → Int} (h : ∀ x ∈ vars, σ x = τ x) :
    sumOf vars weights σ = sumOf vars weights τ := by
  unfold sumOf
  rw [List.map_congr_left fun p hp => by rw [h p.1 (List.of_mem_zip hp).1]]

section

variable {domains : Domains} {vars : List Var} {weights : List Int} {σ : Var → Int} {x : Var}

/-- The term of a variable. -/
def termOf (domains : Domains) (vars : List Var) (weights : List Int) (σ : Var → Int) (x : Var) : Int :=
  (summandOf domains vars weights x).weight * σ x

theorem summandOf_of_not_mem (hx : x ∉ vars) : summandOf domains vars weights x = {} := by
  unfold summandOf
  have : (vars.zip weights).find? (·.1 == x) = none := by
    rw [List.find?_eq_none]
    intro p hp he
    rw [beq_iff_eq] at he
    exact hx (he ▸ (List.of_mem_zip (a := p.1) (b := p.2) hp).1)
  rw [this]

theorem summandOf_of_mem (hv : vars.Nodup) (h : Known domains vars σ) {p : Var × Int}
    (hp : p ∈ vars.zip weights) : (summandOf domains vars weights p.1).weight = p.2 ∧
      (summandOf domains vars weights p.1).least ≤ p.2 * σ p.1 ∧
      p.2 * σ p.1 ≤ (summandOf domains vars weights p.1).greatest := by
  obtain ⟨d, hd, hmem⟩ := h.get? (List.of_mem_zip (a := p.1) (b := p.2) hp).1
  have hfind : (vars.zip weights).find? (·.1 == p.1) = some p := by
    cases hq : (vars.zip weights).find? (·.1 == p.1) with
    | none => exact absurd (List.find?_eq_none.1 hq p hp) (by simp)
    | some q =>
      have hqp : q.1 = p.1 := by simpa using List.find?_some hq
      have hq' := List.mem_of_find?_eq_some hq
      obtain ⟨i, hi, ei⟩ := List.getElem_of_mem hp
      obtain ⟨j, hj, ej⟩ := List.getElem_of_mem hq'
      rw [List.length_zip] at hi hj
      rw [List.getElem_zip] at ei ej
      have hiv : i < vars.length := by omega
      have hjv : j < vars.length := by omega
      have e : vars[j] = vars[i] := by
        rw [← ei, ← ej] at hqp
        exact hqp
      obtain rfl := (hv.getElem_inj_iff).1 e
      rw [← ei, ← ej]
  unfold summandOf
  rw [hfind, hd]
  obtain ⟨h1, h2⟩ := mul_between (w := p.2) (IntSet.head_le hmem d.nonempty)
    (IntSet.le_getLast hmem d.nonempty)
  exact ⟨rfl, h1, h2⟩

theorem exists_zip (hlen : vars.length = weights.length) (hx : x ∈ vars) :
    ∃ p ∈ vars.zip weights, p.1 = x := by
  rw [← List.map_fst_zip (Nat.le_of_eq hlen)] at hx
  exact List.mem_map.1 hx

theorem termOf_bounds (hv : vars.Nodup) (hlen : vars.length = weights.length)
    (h : Known domains vars σ) (hx : x ∈ vars) :
    (summandOf domains vars weights x).least ≤ termOf domains vars weights σ x ∧
      termOf domains vars weights σ x ≤ (summandOf domains vars weights x).greatest := by
  obtain ⟨p, hp, rfl⟩ := exists_zip hlen hx
  obtain ⟨h1, h2, h3⟩ := summandOf_of_mem hv h hp
  unfold termOf
  rw [h1]
  exact ⟨h2, h3⟩

theorem totalOf_termOf (hv : vars.Nodup) (hlen : vars.length = weights.length)
    (h : Known domains vars σ) :
    totalOf (termOf domains vars weights σ) vars = sumOf vars weights σ := by
  unfold totalOf sumOf
  conv_lhs => rw [← List.map_fst_zip (Nat.le_of_eq hlen), List.map_map]
  congr 1
  refine List.map_congr_left fun p hp => ?_
  show (summandOf domains (List.map Prod.fst (vars.zip weights)) weights p.1).weight * σ p.1 = _
  rw [List.map_fst_zip (Nat.le_of_eq hlen), (summandOf_of_mem hv h hp).1]

end

/-! ### Registration -/

/-- The sum of the terms which are negative at least, and of those which are positive at most. -/
def leastSum (domains : Domains) (vars : List Var) (weights : List Int) (xs : List Var) : Int :=
  totalOf (fun x => min (summandOf domains vars weights x).least 0) xs

def greatestSum (domains : Domains) (vars : List Var) (weights : List Int) (xs : List Var) : Int :=
  totalOf (fun x => max (summandOf domains vars weights x).greatest 0) xs

/-- The extreme sums of the scope fit into 32 bits. -/
def Fits (domains : Domains) (vars : List Var) (weights : List Int) : Prop :=
  minInt32 ≤ leastSum domains vars weights vars ∧ greatestSum domains vars weights vars ≤ maxInt32

/-- What a bound of the partial sums is registered as. -/
def property (c : ScopeId) (least greatest : Int) (r : Relaxation)
    (run : StepFacts → IntSet → View → View) : Property where
  constraint := c
  kind := .integer 0 least greatest
  relaxation := r
  rule := .transition [] fun input values out => .ok (run input values out)

/-- The least value which a bound is stored as. -/
def leastOf (ts : List Summand) : Int := clamp ((ts.map fun t => min t.least 0).foldl (· + ·) 0)

/-- The greatest value which a bound is stored as. -/
def greatestOf (ts : List Summand) : Int :=
  clamp ((ts.map fun t => max t.greatest 0).foldl (· + ·) 0)

theorem appends_register (domains : Domains) (vars : List Var) (weights : List Int)
    (lower upper : Int) {r s : Spec} {c : ScopeId} (hs : Spec.addScope "sum" vars r = (c, s))
    {ts : List Summand} (ht : summandsOf domains s.branchVars vars weights = ts) :
    After (register domains vars weights lower upper) (fun _ u => Appends c s u
      [property c (leastOf ts) (greatestOf ts) .minimum
          (stepMin ts.toArray (s.properties.down.size + 0)),
        property c (leastOf ts) (greatestOf ts) .maximum
          (stepMax ts.toArray (s.properties.down.size + 1))]
      [property c (leastOf ts) (greatestOf ts) .minimum
          (stepMin ts.toArray (s.properties.up.size + 0)),
        property c (leastOf ts) (greatestOf ts) .maximum
          (stepMax ts.toArray (s.properties.up.size + 1))]
      [fun arc => .ok (admits ⟨ts.toArray, (suffixes ts).1.toArray, lower, upper,
        s.properties.down.size + 0, s.properties.down.size + 1, s.properties.up.size + 0,
        s.properties.up.size + 1⟩ arc)]) r := by
  subst ht
  unfold register
  refine after_bind.2 ((after_addScope hs).2 (after_bind.2 (after_get.2 ?_)))
  refine after_bind.2 ((Appends.refl c s).declareDown fun _ h => ?_)
  refine after_bind.2 (h.declareDown fun _ h => ?_)
  refine after_bind.2 (h.declareUp fun _ h => ?_)
  refine after_bind.2 (h.declareUp fun _ h => ?_)
  refine after_bind.2 (h.transitionDown (by simp) fun _ h => ?_)
  refine after_bind.2 (h.transitionDown (by simp) fun _ h => ?_)
  refine after_bind.2 (h.transitionUp (by simp) fun _ h => ?_)
  refine after_bind.2 (h.transitionUp (by simp) fun _ h => ?_)
  refine after_bind.2 (h.arcCheck fun _ h => ?_)
  exact h.splitPriority fun _ h => h

/-! ### Partial sums -/

theorem suffixes_spec : ∀ ts : List Summand,
    (suffixes ts).2 = ((ts.map (·.least)).sum, (ts.map (·.greatest)).sum) ∧
      ∀ l < ts.length, (suffixes ts).1[l]? =
        some (((ts.drop (l + 1)).map (·.least)).sum, ((ts.drop (l + 1)).map (·.greatest)).sum)
  | [] => ⟨rfl, nofun⟩
  | t :: rest => by
    obtain ⟨htotal, hbelow⟩ := suffixes_spec rest
    unfold suffixes
    dsimp only
    refine ⟨?_, fun l hl => ?_⟩
    · rw [htotal, List.map_cons, List.map_cons, List.sum_cons, List.sum_cons, Int.add_comm,
        Int.add_comm t.greatest]
    · cases l with
      | zero =>
        rw [List.getElem?_cons_zero, htotal]
        rfl
      | succ l =>
        rw [List.getElem?_cons_succ]
        exact hbelow l (Nat.lt_of_succ_lt_succ hl)

section

variable {domains : Domains} {vars : List Var} {weights : List Int} {σ : Var → Int} {s t : Spec}
  {c : ScopeId} {l : Nat} {d : Direction}

/-- The summands of the layers, as they were when the constraint was registered. -/
theorem summand_of_layer (h : t.Hosts c vars) (g : Enlarges s t) (known : ∀ x ∈ vars, x ∈ s.order)
    (hl : l < t.branchVars.size) (hv : t.toModel.var l ∈ vars) :
    (summandsOf domains s.branchVars vars weights).toArray.getD l {} =
      summandOf domains vars weights (t.toModel.var l) := by
  have hlt := h.lt_size g known hl hv
  obtain ⟨rest, hrest⟩ := g.branchVars
  rw [summandsOf_eq, Array.getD_eq_getD_getElem?, List.getElem?_toArray, List.getElem?_map]
  have e : s.branchVars.toList[l]? = some (t.toModel.var l) := by
    have hget : t.order[l]? = some (t.toModel.var l) := by
      rw [var_toModel t hl]
      exact List.getElem?_eq_getElem _
    unfold order at hget
    rwa [← hrest, List.getElem?_append_left (by simpa using hlt)] at hget
  rw [e]
  rfl

theorem leastSum_le (h : t.Hosts c vars) (hlen : vars.length = weights.length)
    (hk : Known domains vars σ) (d : Direction) (l : Nat) :
    leastSum domains vars weights vars ≤
      t.total vars (termOf domains vars weights σ) d l := by
  have hsub := passed_sublist t vars d l
  have h1 : totalOf (fun x => min (summandOf domains vars weights x).least 0) (t.passed vars d l) ≤
      totalOf (termOf domains vars weights σ) (t.passed vars d l) := by
    refine totalOf_mono fun x hx => ?_
    have hx' := (mem_scopeIn.1 (hsub.subset hx)).2
    have := (termOf_bounds h.nodup hlen hk hx').1
    omega
  have h2 := totalOf_sublist hsub (f := fun x => -min (summandOf domains vars weights x).least 0)
    fun y _ => by omega
  rw [totalOf_neg, totalOf_neg, totalOf_perm h.perm] at h2
  unfold leastSum total
  omega

theorem le_greatestSum (h : t.Hosts c vars) (hlen : vars.length = weights.length)
    (hk : Known domains vars σ) (d : Direction) (l : Nat) :
    t.total vars (termOf domains vars weights σ) d l ≤ greatestSum domains vars weights vars := by
  have hsub := passed_sublist t vars d l
  have h1 : totalOf (termOf domains vars weights σ) (t.passed vars d l) ≤
      totalOf (fun x => max (summandOf domains vars weights x).greatest 0) (t.passed vars d l) := by
    refine totalOf_mono fun x hx => ?_
    have hx' := (mem_scopeIn.1 (hsub.subset hx)).2
    have := (termOf_bounds h.nodup hlen hk hx').2
    omega
  have h2 := totalOf_sublist hsub (f := fun x => max (summandOf domains vars weights x).greatest 0)
    fun y _ => by omega
  rw [totalOf_perm h.perm] at h2
  unfold greatestSum total
  omega

theorem totalOf_order (h : t.Hosts c vars) (g : Enlarges s t) (known : ∀ x ∈ vars, x ∈ s.order)
    {f : Var → Int} (hf : ∀ x, x ∉ vars → f x = 0) : totalOf f s.order = totalOf f vars := by
  have hn : s.order.Nodup := h.ordered.nodup.sublist g.branchVars.sublist
  rw [totalOf_scopeIn hf, totalOf_perm (scopeIn_perm hn h.nodup known)]

theorem leastSum_le_zero (domains : Domains) (vars : List Var) (weights : List Int) :
    leastSum domains vars weights vars ≤ 0 := by
  have hneg : 0 ≤ totalOf (fun x => -min (summandOf domains vars weights x).least 0) vars :=
    totalOf_nonneg fun y _ => by omega
  rw [totalOf_neg] at hneg
  unfold leastSum
  omega

theorem zero_le_greatestSum (domains : Domains) (vars : List Var) (weights : List Int) :
    0 ≤ greatestSum domains vars weights vars := totalOf_nonneg fun y _ => by omega

/-- The least value is the least sum, cut off at 32 bits. -/
theorem leastOf_eq (h : t.Hosts c vars) (g : Enlarges s t) (known : ∀ x ∈ vars, x ∈ s.order) :
    leastOf (summandsOf domains s.branchVars vars weights) =
      max minInt32 (leastSum domains vars weights vars) := by
  have e : ((summandsOf domains s.branchVars vars weights).map fun t => min t.least 0).foldl
      (· + ·) 0 = leastSum domains vars weights vars := by
    rw [← List.sum_eq_foldl, summandsOf_eq, List.map_map]
    exact totalOf_order h g known fun x hx => by
      rw [Function.comp_apply, summandOf_of_not_mem hx]
      rfl
  have hle := leastSum_le_zero domains vars weights
  unfold leastOf clamp
  rw [e]
  unfold maxInt32
  omega

theorem greatestOf_eq (h : t.Hosts c vars) (g : Enlarges s t) (known : ∀ x ∈ vars, x ∈ s.order) :
    greatestOf (summandsOf domains s.branchVars vars weights) =
      min maxInt32 (greatestSum domains vars weights vars) := by
  have e : ((summandsOf domains s.branchVars vars weights).map fun t => max t.greatest 0).foldl
      (· + ·) 0 = greatestSum domains vars weights vars := by
    rw [← List.sum_eq_foldl, summandsOf_eq, List.map_map]
    exact totalOf_order h g known fun x hx => by
      rw [Function.comp_apply, summandOf_of_not_mem hx]
      rfl
  have hle := zero_le_greatestSum domains vars weights
  unfold greatestOf clamp
  rw [e]
  unfold minInt32 maxInt32
  omega

/-- The number can be stored in 32 bits. -/
def Short (x : Int) : Prop := minInt32 ≤ x ∧ x ≤ maxInt32

/-- All partial sums of an assignment are short if the extreme ones are. -/
theorem short_of_fits (h : t.Hosts c vars) (hlen : vars.length = weights.length)
    (hk : Known domains vars σ) (hfit : Fits domains vars weights) (d : Direction) (l : Nat) :
    Short (t.total vars (termOf domains vars weights σ) d l) :=
  ⟨Int.le_trans hfit.1 (leastSum_le h hlen hk d l), Int.le_trans (le_greatestSum h hlen hk d l) hfit.2⟩

variable {i : Nat} {slot : Slot}

theorem extremes_between (summand : Summand) {values : IntSet} {v : Int} (hv : v ∈ values) :
    (summand.extremes values).1 ≤ summand.weight * v ∧
      summand.weight * v ≤ (summand.extremes values).2 := by
  obtain ⟨lower, upper, h1, h2, h3, h4⟩ := IntSet.between hv
  unfold Summand.extremes
  rw [h1, h2]
  exact mul_between h3 h4

theorem tracks_stepMin (h : t.Hosts c vars) (g : Enlarges s t) (known : ∀ x ∈ vars, x ∈ s.order)
    (hlen : vars.length = weights.length) (hk : Known domains vars σ)
    (hshort : ∀ l, Short (t.total vars (termOf domains vars weights σ) d l)) {ts : List Summand}
    (ht : summandsOf domains s.branchVars vars weights = ts)
    (hq : t.Has d i (property c (leastOf ts) (greatestOf ts) .minimum (stepMin ts.toArray i)) slot
      fun input values out => .ok (stepMin ts.toArray i input values out)) :
    Tracks t.toModel (t.toModel.labelsOf σ) d i fun b l r =>
      (t.atMost vars (termOf domains vars weights σ) d).Holds slot b l r.bits := by
  subst ht
  have hlo : leastOf (summandsOf domains s.branchVars vars weights) = _ := leastOf_eq h g known
  have hhi : greatestOf (summandsOf domains s.branchVars vars weights) = _ :=
    greatestOf_eq h g known
  have hle := leastSum_le_zero domains vars weights
  have hge := zero_le_greatestSum domains vars weights
  have hmin : minInt32 ≤ 0 := by decide
  have hmax : 0 ≤ maxInt32 := by decide
  refine h.tracks_atMost hq rfl rfl rfl (by omega) (by omega) (fun l => ?_)
    fun {l source combined values target w} hl hv hw => ⟨_, (Except.ok.inj hw).symm, fun hmem => ?_⟩
  · have := leastSum_le h hlen hk d l
    have := (hshort l).1
    omega
  · dsimp only
    rw [summand_of_layer h g known hl hv]
    have hterm := (extremes_between (summandOf domains vars weights (t.toModel.var l)) hmem).1
    change _ ≤ termOf domains vars weights σ (t.toModel.var l) at hterm
    unfold clamp
    omega

theorem tracks_stepMax (h : t.Hosts c vars) (g : Enlarges s t) (known : ∀ x ∈ vars, x ∈ s.order)
    (hlen : vars.length = weights.length) (hk : Known domains vars σ)
    (hshort : ∀ l, Short (t.total vars (termOf domains vars weights σ) d l)) {ts : List Summand}
    (ht : summandsOf domains s.branchVars vars weights = ts)
    (hq : t.Has d i (property c (leastOf ts) (greatestOf ts) .maximum (stepMax ts.toArray i)) slot
      fun input values out => .ok (stepMax ts.toArray i input values out)) :
    Tracks t.toModel (t.toModel.labelsOf σ) d i fun b l r =>
      (t.atLeast vars (termOf domains vars weights σ) d).Holds slot b l r.bits := by
  subst ht
  have hlo : leastOf (summandsOf domains s.branchVars vars weights) = _ := leastOf_eq h g known
  have hhi : greatestOf (summandsOf domains s.branchVars vars weights) = _ :=
    greatestOf_eq h g known
  have hle := leastSum_le_zero domains vars weights
  have hge := zero_le_greatestSum domains vars weights
  have hmin : minInt32 ≤ 0 := by decide
  have hmax : 0 ≤ maxInt32 := by decide
  refine h.tracks_atLeast hq rfl rfl rfl (by omega) (by omega) (fun l => ?_)
    fun {l source combined values target w} hl hv hw => ⟨_, (Except.ok.inj hw).symm, fun hmem => ?_⟩
  · have := le_greatestSum h hlen hk d l
    have := (hshort l).2
    omega
  · dsimp only
    rw [summand_of_layer h g known hl hv]
    have hterm := (extremes_between (summandOf domains vars weights (t.toModel.var l)) hmem).2
    change termOf domains vars weights σ (t.toModel.var l) ≤ _ at hterm
    unfold clamp
    omega

/-- The bounds of registration for what the terms of the layers below add up to. -/
theorem below_eq (h : t.Hosts c vars) (g : Enlarges s t) (known : ∀ x ∈ vars, x ∈ s.order)
    {ts : List Summand} (ht : summandsOf domains s.branchVars vars weights = ts)
    (hl : l < t.branchVars.size) (hv : t.toModel.var l ∈ vars) :
    (suffixes ts).1.toArray.getD l (0, 0) =
      (totalOf (fun x => (summandOf domains vars weights x).least) (t.passed vars .up (l + 1)),
        totalOf (fun x => (summandOf domains vars weights x).greatest) (t.passed vars .up (l + 1))) := by
  have hlt := h.lt_size g known hl hv
  have hlen' : l < ts.length := by
    rw [← ht, summandsOf_eq, List.length_map]
    exact hlt
  have hoff : ∀ x, x ∉ vars → (summandOf domains vars weights x).least = 0 ∧
      (summandOf domains vars weights x).greatest = 0 := fun x hx => by
    rw [summandOf_of_not_mem hx]
    exact ⟨rfl, rfl⟩
  rw [h.passed_up_of_enlarges g known hl hv, ← totalOf_scopeIn (fun x hx => (hoff x hx).1),
    ← totalOf_scopeIn (fun x hx => (hoff x hx).2), Array.getD_eq_getD_getElem?, List.getElem?_toArray,
    (suffixes_spec ts).2 l hlen', ← ht, summandsOf_eq, ← List.map_drop, List.map_map, List.map_map]
  rfl

/-- What the terms of the layers below add up to lies between the bounds of registration. -/
theorem below_between (h : t.Hosts c vars) (g : Enlarges s t) (known : ∀ x ∈ vars, x ∈ s.order)
    (hlen : vars.length = weights.length) (hk : Known domains vars σ) {ts : List Summand}
    (ht : summandsOf domains s.branchVars vars weights = ts) (hl : l < t.branchVars.size)
    (hv : t.toModel.var l ∈ vars) :
    ((suffixes ts).1.toArray.getD l (0, 0)).1 ≤
        t.total vars (termOf domains vars weights σ) .up (l + 1) ∧
      t.total vars (termOf domains vars weights σ) .up (l + 1) ≤
        ((suffixes ts).1.toArray.getD l (0, 0)).2 := by
  have hmem : ∀ x ∈ t.passed vars .up (l + 1), x ∈ vars := fun x hx =>
    (mem_scopeIn.1 ((passed_sublist t vars .up (l + 1)).subset hx)).2
  rw [below_eq h g known ht hl hv]
  exact ⟨totalOf_mono fun x hx => (termOf_bounds h.nodup hlen hk (hmem x hx)).1,
    totalOf_mono fun x hx => (termOf_bounds h.nodup hlen hk (hmem x hx)).2⟩

/-- The states from which two tracked properties are read bound the partial sum. -/
theorem total_between (h : t.Hosts c vars) (g : Enlarges s t) (known : ∀ x ∈ vars, x ∈ s.order)
    (hlen : vars.length = weights.length) (hk : Known domains vars σ)
    (hshort : ∀ l, Short (t.total vars (termOf domains vars weights σ) d l)) {ts : List Summand}
    (ht : summandsOf domains s.branchVars vars weights = ts) {i j : Nat} {slot slot' : Slot}
    (hmin : t.Has d i (property c (leastOf ts) (greatestOf ts) .minimum (stepMin ts.toArray i)) slot
      fun input values out => .ok (stepMin ts.toArray i input values out))
    (hmax : t.Has d j (property c (leastOf ts) (greatestOf ts) .maximum (stepMax ts.toArray j)) slot'
      fun input values out => .ok (stepMax ts.toArray j input values out)) {x : State}
    (tracked : ∀ i, t.toModel.Tracked (t.toModel.labelsOf σ) true d l i x) :
    (t.toModel.view d.side x).integer i ≤ t.total vars (termOf domains vars weights σ) d l ∧
      t.total vars (termOf domains vars weights σ) d l ≤ (t.toModel.view d.side x).integer j := by
  have least := tracked i hmin.index _ (tracks_stepMin h g known hlen hk hshort ht hmin)
  have greatest := tracked j hmax.index _ (tracks_stepMax h g known hlen hk hshort ht hmax)
  exact ⟨(Measure.Holds.integer (v := t.toModel.view d.side x) hmin.slot hmin.kind least).2 rfl,
    (Measure.Holds.integer (v := t.toModel.view d.side x) hmax.slot hmax.kind greatest).2 rfl⟩

end

/-- The two properties of a direction write nothing but themselves. -/
theorem local_pair {c : ScopeId} {least greatest : Int} {terms : Array Summand} {n : Nat} :
    ∀ k (q : Property), [property c least greatest .minimum (stepMin terms (n + 0)),
      property c least greatest .maximum (stepMax terms (n + 1))][k]? = some q → q.Local (n + k)
  | 0, _, rfl => .of_total rfl nofun fun hl => View.writes_setInteger hl _ _
  | 1, _, rfl => .of_total rfl nofun fun hl => View.writes_setInteger hl _ _

/-- A sum contributes a test which lets an assignment pass whose sum is within the bounds and all of
whose partial sums are short. -/
theorem contributes_register_of {H : List Var → Prop} (domains : Domains) (vars : List Var)
    (weights : List Int) (lower upper : Int) (r : Spec) {σ : Var → Int}
    (hlen : vars.length = weights.length) (hk : Known domains vars σ)
    (hH : ∀ t c, Hosts t c vars → H t.order →
      (∀ d l, Short (t.total vars (termOf domains vars weights σ) d l)) ∧
        lower ≤ sumOf vars weights σ ∧ sumOf vars weights σ ≤ upper) :
    Contributes σ H r (register domains vars weights lower upper r).2 := by
  obtain ⟨⟨c, s⟩, hs⟩ : ∃ p, Spec.addScope "sum" vars r = p := ⟨_, rfl⟩
  obtain ⟨ts, ht⟩ : ∃ ts, summandsOf domains s.branchVars vars weights = ts := ⟨_, rfl⟩
  have happ := appends_register domains vars weights lower upper hs ht
  have hscoped := scoped_addScope "sum" vars r
  have hfirst := Contributes.addScope σ (fun _ => True) "sum" vars r
  rw [hs] at hscoped hfirst
  refine (hfirst.trans (Appends.contributes happ hscoped local_pair local_pair
    fun t hu h known hH' check hcheck l hl hv => ?_)).mono fun _ h => ⟨trivial, h⟩
  obtain rfl := List.mem_singleton.1 hcheck
  obtain ⟨hshort, hsum⟩ := hH t c h hH'
  have g : Enlarges s t := (Appends.enlarges happ).trans hu
  obtain ⟨s1, h1⟩ := Appends.has_down happ hu h.check (k := 0) rfl rfl
  obtain ⟨s2, h2⟩ := Appends.has_down happ hu h.check (k := 1) rfl rfl
  obtain ⟨s3, h3⟩ := Appends.has_up happ hu h.check (k := 0) rfl rfl
  obtain ⟨s4, h4⟩ := Appends.has_up happ hu h.check (k := 1) rfl rfl
  intro parent combined childUp childCombined hp hup he
  have above := total_between h g known hlen hk (hshort _) ht h1 h2 hp
  dsimp only [Direction.side] at above
  have hsplit := h.total_split (termOf domains vars weights σ) hl hv
  rw [totalOf_termOf h.nodup hlen hk] at hsplit
  have hbelow := below_between h g known hlen hk ht hl hv
  have hsummand : ts.toArray.getD l {} = summandOf domains vars weights (t.toModel.var l) := by
    rw [← ht]
    exact summand_of_layer h g known hl hv
  have hfalse := Except.ok.inj he
  unfold admits at hfalse
  dsimp only at hfalse
  rw [hsummand] at hfalse
  cases hchild : childUp with
  | none =>
    subst hchild
    simp only [Option.map_none, Bool.and_eq_false_iff, decide_eq_false_iff_not] at hfalse
    change ¬ _ + termOf domains vars weights σ (t.toModel.var l) + _ ≤ _ ∨
      ¬ lower ≤ _ + termOf domains vars weights σ (t.toModel.var l) + _ at hfalse
    omega
  | some up =>
    subst hchild
    have under := total_between h g known hlen hk (hshort _) ht h3 h4 (hup up rfl)
    dsimp only [Direction.side] at under
    simp only [Option.map_some, Bool.and_eq_false_iff, decide_eq_false_iff_not] at hfalse
    change ¬ _ + termOf domains vars weights σ (t.toModel.var l) + _ ≤ _ ∨
      ¬ lower ≤ _ + termOf domains vars weights σ (t.toModel.var l) + _ at hfalse
    omega

/-- A sum within its bounds contributes a test which lets the assignment pass. -/
theorem contributes_register (domains : Domains) (vars : List Var) (weights : List Int)
    (lower upper : Int) (r : Spec) {σ : Var → Int} (hlen : vars.length = weights.length)
    (hk : Known domains vars σ) (hfit : Fits domains vars weights) :
    Contributes σ (fun _ => lower ≤ sumOf vars weights σ ∧ sumOf vars weights σ ≤ upper) r
      (register domains vars weights lower upper r).2 :=
  contributes_register_of domains vars weights lower upper r hlen hk fun _ _ h hsum =>
    ⟨short_of_fits h hlen hk hfit, hsum⟩

/-! ### Exact sums -/

@[simp] theorem extremes_singleton (summand : Summand) (v : Int) :
    summand.extremes (.singleton v) = (summand.weight * v, summand.weight * v) := by
  simp [Summand.extremes, IntSet.singleton, IntSet.min?, IntSet.max?]

/-- The least and the greatest term of a bundle are those of two of its labels. -/
theorem exists_extremes (summand : Summand) {values : IntSet} (hne : ∃ v, v ∈ values) :
    (∃ v ∈ values, (summand.extremes values).1 = summand.weight * v) ∧
      ∃ v ∈ values, (summand.extremes values).2 = summand.weight * v := by
  obtain ⟨v, hv⟩ := hne
  obtain ⟨lower, upper, h1, h2, -, -⟩ := IntSet.between hv
  have m1 : lower ∈ values := List.mem_of_head? h1
  have m2 : upper ∈ values := List.mem_of_getLast? h2
  unfold Summand.extremes
  rw [h1, h2]
  dsimp only
  constructor
  · rcases Int.le_total (summand.weight * lower) (summand.weight * upper) with hle | hle
    · exact ⟨lower, m1, Int.min_eq_left hle⟩
    · exact ⟨upper, m2, Int.min_eq_right hle⟩
  · rcases Int.le_total (summand.weight * lower) (summand.weight * upper) with hle | hle
    · exact ⟨upper, m2, Int.max_eq_right hle⟩
    · exact ⟨lower, m1, Int.max_eq_left hle⟩

theorem joins_stepMin {c : ScopeId} {least greatest : Int} {terms : Array Summand} {i : Nat}
    {V : Var → Int → Prop} : (property c least greatest .minimum (stepMin terms i)).Joins i V :=
  .of_integer (g := fun l x values => clamp (x + ((terms.getD l {}).extremes values).1)) rfl rfl rfl
    (fun l _ _ hne => by
      obtain ⟨v, hv, e⟩ := (exists_extremes (terms.getD l {}) hne).1
      exact ⟨v, hv, by rw [e, extremes_singleton]⟩)
    fun l x values v hv => by
      have hle : Relaxation.minimum.Below ((terms.getD l {}).extremes (.singleton v)).1
          ((terms.getD l {}).extremes values).1 := by
        rw [extremes_singleton]
        exact (extremes_between (terms.getD l {}) hv).1
      exact (hle.add x).clamp _ _

theorem joins_stepMax {c : ScopeId} {least greatest : Int} {terms : Array Summand} {i : Nat}
    {V : Var → Int → Prop} : (property c least greatest .maximum (stepMax terms i)).Joins i V :=
  .of_integer (g := fun l x values => clamp (x + ((terms.getD l {}).extremes values).2)) rfl rfl rfl
    (fun l _ _ hne => by
      obtain ⟨v, hv, e⟩ := (exists_extremes (terms.getD l {}) hne).2
      exact ⟨v, hv, by rw [e, extremes_singleton]⟩)
    fun l x values v hv => by
      have hle : Relaxation.maximum.Below ((terms.getD l {}).extremes (.singleton v)).2
          ((terms.getD l {}).extremes values).2 := by
        rw [extremes_singleton]
        exact (extremes_between (terms.getD l {}) hv).2
      exact (hle.add x).clamp _ _

/-- The two properties of a direction belong to the constraint and join the labels. -/
theorem joins_pair {c : ScopeId} {least greatest : Int} {terms : Array Summand} {n : Nat} {V : Var → Int → Prop} :
    ∀ k (q : Property), [property c least greatest .minimum (stepMin terms (n + 0)),
      property c least greatest .maximum (stepMax terms (n + 1))][k]? = some q → q.constraint = c ∧ q.Joins (n + k) V
  | 0, _, rfl => ⟨rfl, joins_stepMin⟩
  | 1, _, rfl => ⟨rfl, joins_stepMax⟩

theorem joined_register {D : Var → Int → Prop} {s : Spec} (h : s.Joined D) (domains : Domains)
    (vars : List Var) (weights : List Int) (lower upper : Int) :
    (register domains vars weights lower upper s).2.Joined D := by
  obtain ⟨⟨c, u⟩, hu⟩ : ∃ p, Spec.addScope "sum" vars s = p := ⟨_, rfl⟩
  have happ := appends_register domains vars weights lower upper hu rfl
  have hscoped := scoped_addScope "sum" vars s
  have hadd := h.addScope "sum" vars
  rw [hu] at hscoped hadd
  exact hadd.appends happ hscoped joins_pair joins_pair

section

variable {domains : Domains} {vars : List Var} {weights : List Int} {σ : Var → Int} {S : Nat → State} {s t : Spec} {c : ScopeId} {ts : List Summand} {l i : Nat}
  {slot : Slot} {r : State}

theorem clamp_of_short {x : Int} (h : Short x) : clamp x = x := by
  unfold Short at h
  unfold clamp
  omega

/-- The bounds of registration hold for all partial sums which are short. -/
theorem total_bounds (h : t.Hosts c vars) (g : Enlarges s t) (known : ∀ x ∈ vars, x ∈ s.order)
    (hlen : vars.length = weights.length) (hk : Known domains vars σ)
    (hfit : Fits domains vars weights)
    (ht : summandsOf domains s.branchVars vars weights = ts) (d : Direction) (l : Nat) :
    leastOf ts ≤ t.total vars (termOf domains vars weights σ) d l ∧
      t.total vars (termOf domains vars weights σ) d l ≤ greatestOf ts := by
  subst ht
  rw [leastOf_eq h g known, greatestOf_eq h g known]
  have h1 := leastSum_le h hlen hk d l
  have h2 := le_greatestSum h hlen hk d l
  have h3 := short_of_fits h hlen hk hfit d l
  unfold Short at h3
  omega

theorem range_contains_zero (h : t.Hosts c vars) (g : Enlarges s t) (known : ∀ x ∈ vars, x ∈ s.order)
    (ht : summandsOf domains s.branchVars vars weights = ts) : leastOf ts ≤ 0 ∧ 0 ≤ greatestOf ts := by
  subst ht
  rw [leastOf_eq h g known, greatestOf_eq h g known]
  have h1 := leastSum_le_zero domains vars weights
  have h2 := zero_le_greatestSum domains vars weights
  have hmin : minInt32 ≤ 0 := by decide
  have hmax : 0 ≤ maxInt32 := by decide
  omega

variable (a : Along σ t S) (h : t.Hosts c vars) (g : Enlarges s t)
  (known : ∀ x ∈ vars, x ∈ s.order) (hlen : vars.length = weights.length)
  (hk : Known domains vars σ) (hfit : Fits domains vars weights)
  (ht : summandsOf domains s.branchVars vars weights = ts) (hl : l < t.branchVars.size)
  (hr : ∀ i, t.toModel.Alike .down i (S l) r)
include h g known hlen hk hfit ht

/-- The sum after a layer of the scope is not cut off. -/
theorem clamp_total (hl : l < t.branchVars.size) (hv : t.toModel.var l ∈ vars) :
    clamp (t.total vars (termOf domains vars weights σ) .down l +
        (ts.toArray.getD l {}).weight * σ (t.toModel.var l)) =
      t.total vars (termOf domains vars weights σ) .down l +
        termOf domains vars weights σ (t.toModel.var l) := by
  have hnext : t.total vars (termOf domains vars weights σ) .down (l + 1) = _ :=
    total_target (d := .down) hl hv
  have hshort := short_of_fits h hlen hk hfit .down (l + 1)
  rw [hnext] at hshort
  change Short (_ + t.total vars (termOf domains vars weights σ) .down l) at hshort
  rw [← ht, summand_of_layer h g known hl hv]
  change clamp (_ + termOf domains vars weights σ (t.toModel.var l)) = _
  rw [Int.add_comm] at hshort
  exact clamp_of_short hshort

include a hl hr

theorem integer_stepMin (hq : t.Has .down i
      (property c (leastOf ts) (greatestOf ts) .minimum (stepMin ts.toArray i)) slot
      fun input values out => .ok (stepMin ts.toArray i input values out)) :
    (t.toModel.view .down r).integer i = t.total vars (termOf domains vars weights σ) .down l := by
  obtain ⟨h1, h2⟩ := range_contains_zero h g known ht
  refine (a.lineage i).integer_eq h hq rfl rfl h1 h2 (total_bounds h g known hlen hk hfit ht .down)
    (fun hl hv hs hw => ?_) hl (hr i)
  rw [← Except.ok.inj hw]
  unfold stepMin
  dsimp only
  rw [hs, extremes_singleton, clamp_total h g known hlen hk hfit ht hl hv]

theorem integer_stepMax (hq : t.Has .down i
      (property c (leastOf ts) (greatestOf ts) .maximum (stepMax ts.toArray i)) slot
      fun input values out => .ok (stepMax ts.toArray i input values out)) :
    (t.toModel.view .down r).integer i = t.total vars (termOf domains vars weights σ) .down l := by
  obtain ⟨h1, h2⟩ := range_contains_zero h g known ht
  refine (a.lineage i).integer_eq h hq rfl rfl h1 h2 (total_bounds h g known hlen hk hfit ht .down)
    (fun hl hv hs hw => ?_) hl (hr i)
  rw [← Except.ok.inj hw]
  unfold stepMax
  dsimp only
  rw [hs, extremes_singleton, clamp_total h g known hlen hk hfit ht hl hv]

end

/-- A sum decides whether it is within its bounds: on the last layer of the scope nothing is missing. -/
theorem decides_register (domains : Domains) (vars : List Var)
    (weights : List Int) (lower upper : Int) (r : Spec) {σ : Var → Int}
    (hlen : vars.length = weights.length) (hk : Known domains vars σ)
    (hfit : Fits domains vars weights) :
    Decides σ (fun _ => lower ≤ sumOf vars weights σ ∧ sumOf vars weights σ ≤ upper) r
      (register domains vars weights lower upper r).2 := by
  obtain ⟨⟨c, s⟩, hs⟩ : ∃ p, Spec.addScope "sum" vars r = p := ⟨_, rfl⟩
  obtain ⟨ts, ht⟩ : ∃ ts, summandsOf domains s.branchVars vars weights = ts := ⟨_, rfl⟩
  have happ := appends_register domains vars weights lower upper hs ht
  have hscoped := scoped_addScope "sum" vars r
  have hfirst := Decides.addScope σ "sum" vars r
  rw [hs] at hscoped hfirst
  refine (hfirst.trans (Appends.decides happ hscoped fun t S hu h known a hpass => ?_)).mono
    fun _ => And.right
  have g : Enlarges s t := (Appends.enlarges happ).trans hu
  obtain ⟨s1, h1⟩ := Appends.has_down happ hu h.check (k := 0) rfl rfl
  obtain ⟨s2, h2⟩ := Appends.has_down happ hu h.check (k := 1) rfl rfl
  obtain ⟨s3, h3⟩ := Appends.has_up happ hu h.check (k := 0) rfl rfl
  obtain ⟨s4, h4⟩ := Appends.has_up happ hu h.check (k := 1) rfl rfl
  obtain ⟨l, hl, hv, -, hlast⟩ := h.exists_last
  obtain ⟨r, up, hr, hup, hok⟩ := hpass _ (List.mem_singleton.2 rfl) l hl hv
  have e1 := integer_stepMin a h g known hlen hk hfit ht hl hr h1
  have e2 := integer_stepMax a h g known hlen hk hfit ht hl hr h2
  obtain ⟨hlo, hhi⟩ := range_contains_zero h g known ht
  have hsplit := h.total_split (termOf domains vars weights σ) hl hv
  have hbelow : t.total vars (termOf domains vars weights σ) .up (l + 1) = 0 := by
    unfold total
    rw [hlast]
    rfl
  rw [hbelow, totalOf_termOf h.nodup hlen hk] at hsplit
  have hadmits := Except.ok.inj hok
  unfold admits at hadmits
  dsimp only at hadmits
  rw [← ht, summand_of_layer h g known hl hv, ht] at hadmits
  cases hchild : up with
  | none =>
    subst hchild
    simp only [Option.map_none, Bool.and_eq_true, decide_eq_true_eq] at hadmits
    change _ + termOf domains vars weights σ (t.toModel.var l) + _ ≤ _ ∧
      lower ≤ _ + termOf domains vars weights σ (t.toModel.var l) + _ at hadmits
    rw [below_eq h g known ht hl hv, hlast, e1, e2] at hadmits
    change _ + 0 ≤ upper ∧ lower ≤ _ + 0 at hadmits
    omega
  | some u =>
    subst hchild
    have e3 := h.integer_of_clear h3 rfl rfl hlo hhi hlast (hup u rfl _)
    have e4 := h.integer_of_clear h4 rfl rfl hlo hhi hlast (hup u rfl _)
    simp only [Option.map_some, Bool.and_eq_true, decide_eq_true_eq] at hadmits
    change _ + termOf domains vars weights σ (t.toModel.var l) + _ ≤ _ ∧
      lower ≤ _ + termOf domains vars weights σ (t.toModel.var l) + _ at hadmits
    rw [e1, e2, e3, e4] at hadmits
    omega

/-! ### Partial sums of one assignment -/

/-- The part of the weighted sum which some of the variables make up. -/
def partialSum (vars : List Var) (weights : List Int) (σ : Var → Int) (xs : List Var) : Int :=
  (((vars.zip weights).filter fun p => xs.contains p.1).map fun p => p.2 * σ p.1).sum

/-- What the variables above and below each layer make up can be stored in 32 bits. -/
def Representable (vars : List Var) (weights : List Int) (order : List Var) (σ : Var → Int) : Prop :=
  ∀ l, Short (partialSum vars weights σ (order.take l)) ∧
    Short (partialSum vars weights σ (order.drop l))

theorem totalOf_eq_partialSum {domains : Domains} {vars : List Var} {weights : List Int}
    {σ : Var → Int} (hv : vars.Nodup) (hlen : vars.length = weights.length)
    (hk : Known domains vars σ) {xs : List Var} (hxs : xs.Nodup) :
    totalOf (termOf domains vars weights σ) (scopeIn xs vars) = partialSum vars weights σ xs := by
  have hperm : (scopeIn xs vars).Perm (vars.filter fun x => xs.contains x) := by
    refine (List.perm_ext_iff_of_nodup (hxs.filter _) (hv.filter _)).2 fun x => ?_
    rw [← scopeIn, mem_scopeIn, List.mem_filter, List.contains_iff_mem, and_comm]
  rw [totalOf_perm hperm]
  unfold totalOf partialSum
  have hfst := List.map_fst_zip (Nat.le_of_eq hlen)
  have hfilter : (vars.filter fun x => xs.contains x) =
      ((vars.zip weights).filter fun p => xs.contains p.1).map Prod.fst := by
    conv_lhs => rw [← hfst, List.filter_map]
    rfl
  rw [hfilter, List.map_map]
  congr 1
  refine List.map_congr_left fun p hp => ?_
  show (summandOf domains vars weights p.1).weight * σ p.1 = _
  rw [(summandOf_of_mem hv hk (List.mem_filter.1 hp).1).1]

theorem Representable.short {domains : Domains} {vars : List Var} {weights : List Int}
    {σ : Var → Int} {t : Spec} {c : ScopeId} (hr : Representable vars weights t.order σ)
    (h : t.Hosts c vars) (hlen : vars.length = weights.length) (hk : Known domains vars σ) :
    ∀ d l, Short (t.total vars (termOf domains vars weights σ) d l)
  | .down, l => by
    have hn : (t.order.take l).Nodup := h.ordered.nodup.sublist (List.take_sublist _ _)
    show Short (totalOf _ (scopeIn (t.order.take l) vars))
    rw [totalOf_eq_partialSum h.nodup hlen hk hn]
    exact (hr l).1
  | .up, l => by
    have hn : (t.order.drop l).Nodup := h.ordered.nodup.sublist (List.drop_sublist _ _)
    show Short (totalOf _ (scopeIn (t.order.drop l) vars))
    rw [totalOf_eq_partialSum h.nodup hlen hk hn]
    exact (hr l).2

end Sum
end DecisionDiagrams
