import DecisionDiagrams.Proofs.Constraint.Deciding
import Mathlib.Algebra.BigOperators.Group.List.Basic
import Mathlib.Algebra.Group.Int.Defs
import Mathlib.Algebra.Ring.Int.Defs

/-! Bounds on a sum with one term for each variable of a scope. An integer which is merged by its
minimum and grows by at most the term of every layer stays below the sum of the terms which were
passed, and one which is merged by its maximum and grows by at least the term stays above. In exact
states, where it grows by the term, it is the sum. -/

namespace DecisionDiagrams

/-- The sum of the terms of some variables. -/
def totalOf (term : Var → Int) (xs : List Var) : Int := (xs.map term).sum

theorem totalOf_perm {term : Var → Int} {xs ys : List Var} (h : xs.Perm ys) :
    totalOf term xs = totalOf term ys := (h.map term).sum_eq

theorem totalOf_cons (term : Var → Int) (x : Var) (xs : List Var) :
    totalOf term (x :: xs) = term x + totalOf term xs := List.sum_cons

theorem totalOf_append (term : Var → Int) (xs ys : List Var) :
    totalOf term (xs ++ ys) = totalOf term xs + totalOf term ys := by
  unfold totalOf
  rw [List.map_append, List.sum_append]

theorem totalOf_mono {f g : Var → Int} : ∀ {xs : List Var}, (∀ x ∈ xs, f x ≤ g x) →
    totalOf f xs ≤ totalOf g xs
  | [], _ => Int.le_refl _
  | x :: xs, h => by
    rw [totalOf_cons, totalOf_cons]
    exact Int.add_le_add (h x List.mem_cons_self)
      (totalOf_mono fun y hy => h y (List.mem_cons_of_mem _ hy))

/-- Terms which are not negative can be left out. -/
theorem totalOf_sublist {f : Var → Int} {xs ys : List Var} (h : xs.Sublist ys)
    (hf : ∀ y ∈ ys, 0 ≤ f y) : totalOf f xs ≤ totalOf f ys := by
  induction h with
  | slnil => exact Int.le_refl _
  | cons y _ ih =>
    rw [totalOf_cons]
    have := hf y List.mem_cons_self
    have := ih fun z hz => hf z (List.mem_cons_of_mem _ hz)
    omega
  | cons_cons y _ ih =>
    rw [totalOf_cons, totalOf_cons]
    have := ih fun z hz => hf z (List.mem_cons_of_mem _ hz)
    omega

theorem totalOf_nonneg {f : Var → Int} {xs : List Var} (h : ∀ x ∈ xs, 0 ≤ f x) : 0 ≤ totalOf f xs :=
  totalOf_sublist (List.nil_sublist xs) h

theorem totalOf_neg (f : Var → Int) (xs : List Var) :
    totalOf (fun x => -f x) xs = -totalOf f xs := by
  induction xs with
  | nil => rfl
  | cons x xs ih =>
    rw [totalOf_cons, totalOf_cons, ih]
    omega

/-- Variables without a term can be left out. -/
theorem totalOf_scopeIn {f : Var → Int} {vars : List Var} (hf : ∀ x, x ∉ vars → f x = 0)
    (xs : List Var) : totalOf f xs = totalOf f (scopeIn xs vars) := by
  induction xs with
  | nil => rfl
  | cons x xs ih =>
    unfold scopeIn at *
    by_cases hx : x ∈ vars
    · rw [List.filter_cons_of_pos (by simpa using hx), totalOf_cons, totalOf_cons, ih]
    · rw [List.filter_cons_of_neg (by simpa using hx), totalOf_cons, hf x hx, Int.zero_add, ih]

namespace Spec

variable {t : Spec} {c : ScopeId} {vars : List Var} {d : Direction} {i : Nat} {q : Property}
  {s : Slot} {run : StepFacts → IntSet → View → Checked View} {term : Var → Int} {σ : Var → Int}
  {lo hi : Int}

/-- The sum of the terms which were passed on the way to a layer. -/
def total (t : Spec) (vars : List Var) (term : Var → Int) (d : Direction) (l : Nat) : Int :=
  totalOf term (t.passed vars d l)

theorem total_start (t : Spec) (vars : List Var) (term : Var → Int) (d : Direction) :
    t.total vars term d (d.start t.toModel) = 0 := by
  unfold total
  rw [passed_start]
  rfl

theorem total_target {l : Nat} (hl : l < t.branchVars.size) (hv : t.toModel.var l ∈ vars) :
    t.total vars term d (d.target l) = term (t.toModel.var l) + t.total vars term d (d.source l) := by
  unfold total
  rw [totalOf_perm (passed_perm hl hv d), totalOf_cons]

theorem total_idle {l : Nat} (hl : l < t.branchVars.size) (hv : t.toModel.var l ∉ vars) :
    t.total vars term d (d.target l) = t.total vars term d (d.source l) := by
  unfold total
  rw [passed_eq hl hv]

/-- The terms above a layer of the scope, its own and those below. -/
theorem Hosts.total_split (h : t.Hosts c vars) (term : Var → Int) {l : Nat}
    (hl : l < t.branchVars.size) (hv : t.toModel.var l ∈ vars) : totalOf term vars =
      t.total vars term .down l + term (t.toModel.var l) + t.total vars term .up (l + 1) := by
  unfold total
  rw [← totalOf_perm h.perm, scopeIn_split hl hv, totalOf_append, totalOf_cons]
  omega

def atMost (t : Spec) (vars : List Var) (term : Var → Int) (d : Direction) : Measure where
  own l _ x := x ≤ t.total vars term d l

def atLeast (t : Spec) (vars : List Var) (term : Var → Int) (d : Direction) : Measure where
  own l _ x := t.total vars term d l ≤ x

theorem Has.initial_integer (hq : t.Has d i q s run) (hk : q.kind = .integer 0 lo hi) (hlo : lo ≤ 0)
    (hhi : 0 ≤ hi) : max s.lower (min s.upper s.kind.initial) = 0 := by
  have hk' := hq.kind.trans hk
  have h1 : s.lower = lo := by simp [Slot.lower, hk']
  have h2 : s.upper = hi := by simp [Slot.upper, hk']
  have h3 : s.kind.initial = 0 := by simp [Kind.initial, hk']
  omega

theorem Hosts.tracks_atMost (h : t.Hosts c vars) (hq : t.Has d i q s run) (hc : q.constraint = c)
    (hk : q.kind = .integer 0 lo hi) (hr : q.relaxation = .minimum) (hlo : lo ≤ 0) (hhi : 0 ≤ hi)
    (hbound : ∀ l, lo ≤ t.total vars term d l)
    (hrun : ∀ {l source combined values target w}, l < t.branchVars.size → t.toModel.var l ∈ vars →
      run ⟨source, combined, l, t.toModel.var l⟩ values target = .ok w →
      ∃ x, w = target.setInteger i x ∧ (t.toModel.labelsOf σ l ∈ values →
        x ≤ max lo (source.integer i + term (t.toModel.var l)))) :
    Tracks t.toModel (t.toModel.labelsOf σ) d i fun b l r =>
      (t.atMost vars term d).Holds s b l r.bits := by
  have hk' : s.kind = .integer 0 lo hi := hq.kind.trans hk
  refine Measure.tracks hq (by rw [hk]; rfl) ?_ (fun e he => ?_) (Or.inl fun _ _ _ => trivial)
    (fun l hl hi' e x => ⟨id, ?_⟩) ?_
  · rw [hr]
    intro l e x y hx _
    exact Int.le_trans (Int.min_le_left x y) hx
  · rw [hq.initial_integer hk hlo hhi]
    show 0 ≤ t.total vars term d _
    exact Int.le_of_eq (total_start t vars term d).symm
  · rw [h.mem_active hq hc hl] at hi'
    show x ≤ t.total vars term d _ → x ≤ t.total vars term d _
    rw [total_idle hl hi']
    exact id
  · intro b l source combined values target w hl hi' hb hs hw
    rw [h.mem_active hq hc hl] at hi'
    obtain ⟨x, rfl, hx⟩ := hrun hl hi' hw
    refine Measure.holds_setInteger (v := t.toModel.view d.side target) hq.sound hq.slot hk' trivial
      fun hb' => ?_
    have hx := hx (hb hb')
    have hs : _ ≤ t.total vars term d _ :=
      (Measure.Holds.integer (v := t.toModel.view d.side source) hq.slot hk' hs).2 hb'
    have hlow := hbound (d.target l)
    show max lo (min hi x) ≤ t.total vars term d (d.target l)
    rw [total_target hl hi'] at hlow ⊢
    omega

theorem Hosts.tracks_atLeast (h : t.Hosts c vars) (hq : t.Has d i q s run) (hc : q.constraint = c)
    (hk : q.kind = .integer 0 lo hi) (hr : q.relaxation = .maximum) (hlo : lo ≤ 0) (hhi : 0 ≤ hi)
    (hbound : ∀ l, t.total vars term d l ≤ hi)
    (hrun : ∀ {l source combined values target w}, l < t.branchVars.size → t.toModel.var l ∈ vars →
      run ⟨source, combined, l, t.toModel.var l⟩ values target = .ok w →
      ∃ x, w = target.setInteger i x ∧ (t.toModel.labelsOf σ l ∈ values →
        min hi (source.integer i + term (t.toModel.var l)) ≤ x)) :
    Tracks t.toModel (t.toModel.labelsOf σ) d i fun b l r =>
      (t.atLeast vars term d).Holds s b l r.bits := by
  have hk' : s.kind = .integer 0 lo hi := hq.kind.trans hk
  refine Measure.tracks hq (by rw [hk]; rfl) ?_ (fun e he => ?_) (Or.inl fun _ _ _ => trivial)
    (fun l hl hi' e x => ⟨id, ?_⟩) ?_
  · rw [hr]
    intro l e x y hx _
    exact Int.le_trans hx (Int.le_max_left x y)
  · rw [hq.initial_integer hk hlo hhi]
    show t.total vars term d _ ≤ 0
    exact Int.le_of_eq (total_start t vars term d)
  · rw [h.mem_active hq hc hl] at hi'
    show t.total vars term d _ ≤ x → t.total vars term d _ ≤ x
    rw [total_idle hl hi']
    exact id
  · intro b l source combined values target w hl hi' hb hs hw
    rw [h.mem_active hq hc hl] at hi'
    obtain ⟨x, rfl, hx⟩ := hrun hl hi' hw
    refine Measure.holds_setInteger (v := t.toModel.view d.side target) hq.sound hq.slot hk' trivial
      fun hb' => ?_
    have hx := hx (hb hb')
    have hs : t.total vars term d _ ≤ _ :=
      (Measure.Holds.integer (v := t.toModel.view d.side source) hq.slot hk' hs).2 hb'
    have hhigh := hbound (d.target l)
    show t.total vars term d (d.target l) ≤ max lo (min hi x)
    rw [total_target hl hi'] at hhigh ⊢
    omega

/-! ### Exact sums -/

def exactly (t : Spec) (vars : List Var) (term : Var → Int) : Measure where
  own l _ x := x = t.total vars term .down l

/-- An integer which grows by the terms of the layers is their sum. -/
theorem Lineage.integer_eq {S : Nat → State} (a : Lineage σ t i S)
    (h : t.Hosts c vars) (hq : t.Has .down i q s run) (hc : q.constraint = c)
    (hk : q.kind = .integer 0 lo hi) (hlo : lo ≤ 0) (hhi : 0 ≤ hi)
    (hbounds : ∀ l, lo ≤ t.total vars term .down l ∧ t.total vars term .down l ≤ hi)
    (hrun : ∀ {l} {source target w : View}, l < t.branchVars.size → t.toModel.var l ∈ vars →
      source.integer i = t.total vars term .down l →
      run ⟨source, none, l, t.toModel.var l⟩ (.singleton (σ (t.toModel.var l))) target = .ok w →
      w = target.setInteger i (t.total vars term .down l + term (t.toModel.var l)))
    {l : Nat} {r : State} (hl : l < t.branchVars.size)
    (hr : t.toModel.Alike .down i (S l) r) :
    (t.toModel.view .down r).integer i = t.total vars term .down l := by
  have hk' : s.kind = .integer 0 lo hi := hq.kind.trans hk
  have hold : (t.exactly vars term).Holds s true l r.bits := by
    refine a.holds hq (by rw [hk]; rfl) (fun _ _ _ => trivial) (fun e he => ?_)
      (fun l hl hi' e x => ?_) (fun {l source target w} hl hi' hs hw => ?_) hl hr
    · rw [hq.initial_integer hk hlo hhi]
      exact (total_start t vars term .down).symm
    · rw [h.mem_active hq hc hl] at hi'
      show x = t.total vars term .down l → x = t.total vars term .down (l + 1)
      rw [show t.total vars term .down (l + 1) = t.total vars term .down l from
        total_idle (d := .down) hl hi']
      exact id
    · rw [h.mem_active hq hc hl] at hi'
      have hs : _ = t.total vars term .down l :=
        (Measure.Holds.integer (v := t.toModel.view .down source) hq.slot hk' hs).2 rfl
      obtain rfl := hrun hl hi' hs hw
      refine Measure.holds_setInteger (v := t.toModel.view .down target) hq.sound hq.slot hk' trivial
        fun _ => ?_
      have hb := hbounds (l + 1)
      show max lo (min hi _) = t.total vars term .down (l + 1)
      rw [show t.total vars term .down (l + 1) = _ from total_target (d := .down) hl hi'] at hb ⊢
      show max lo (min hi (t.total vars term .down l + _)) = _ + t.total vars term .down l
      change lo ≤ _ + t.total vars term .down l ∧ _ + t.total vars term .down l ≤ hi at hb
      omega
  exact (Measure.Holds.integer (v := t.toModel.view .down r) hq.slot hk' hold).2 rfl

/-- Nothing was added below the last layer of a scope. -/
theorem Hosts.integer_of_clear (h : t.Hosts c vars) (hq : t.Has .up i q s run) (hc : q.constraint = c)
    (hk : q.kind = .integer 0 lo hi) (hlo : lo ≤ 0) (hhi : 0 ≤ hi) {l : Nat} {u : State}
    (hlast : t.passed vars .up l = []) (hclear : t.toModel.Clear l i u) :
    (t.toModel.view .up u).integer i = 0 := by
  have hk' : s.kind = .integer 0 lo hi := hq.kind.trans hk
  have hn := hq.sound.numeric hq.slot (by rw [hk']; rfl)
  have halike := hclear fun k hlk hk => h.idle_behind hq hc hlast hlk hk
  have hinit := hq.initial.congr (w := t.toModel.view .up u) (halike s hq.slot)
  unfold View.Initial at hinit
  rw [if_neg (by rw [hn.isSet]; exact Bool.false_ne_true)] at hinit
  have hzero := hinit 0 (by simp [Slot.elements, hk'])
  rw [hq.initial_integer hk hlo hhi] at hzero
  have hupper : s.upper = hi := by simp [Slot.upper, hk']
  rw [View.integer_eq (v := t.toModel.view .up u) hq.slot hk' (by omega), hzero]

end Spec
end DecisionDiagrams
