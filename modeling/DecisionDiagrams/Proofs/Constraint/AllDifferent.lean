import DecisionDiagrams.Proofs.Constraint.Encoding
import DecisionDiagrams.Proofs.State.Sets
import Mathlib.Data.List.Induction
import Mathlib.Data.List.Nodup
import Mathlib.Data.List.Perm.Subperm

/-! Variables which have to be different let every assignment in the domains of registration pass which
takes different values, and no other one if the states are exact. -/

namespace DecisionDiagrams.AllDifferent

open Spec

/-! ### Elements -/

theorem foldl_min_le : ∀ (r : List Int) (x : Int), r.foldl min x ≤ x ∧ ∀ a ∈ r, r.foldl min x ≤ a
  | [], x => ⟨Int.le_refl x, nofun⟩
  | b :: r, x => by
    rw [List.foldl_cons]
    obtain ⟨h1, h2⟩ := foldl_min_le r (min x b)
    refine ⟨by omega, fun a ha => ?_⟩
    rcases List.mem_cons.1 ha with rfl | ha
    · omega
    · exact h2 a ha

theorem le_foldl_max : ∀ (r : List Int) (x : Int), x ≤ r.foldl max x ∧ ∀ a ∈ r, a ≤ r.foldl max x
  | [], x => ⟨Int.le_refl x, nofun⟩
  | b :: r, x => by
    rw [List.foldl_cons]
    obtain ⟨h1, h2⟩ := le_foldl_max r (max x b)
    refine ⟨by omega, fun a ha => ?_⟩
    rcases List.mem_cons.1 ha with rfl | ha
    · omega
    · exact h2 a ha

theorem leastOf_le {l : List Int} {a : Int} (h : a ∈ l) : leastOf l ≤ a := by
  cases l with
  | nil => cases h
  | cons x r =>
    rcases List.mem_cons.1 h with rfl | h
    · exact (foldl_min_le r _).1
    · exact (foldl_min_le r x).2 a h

theorem le_greatestOf {l : List Int} {a : Int} (h : a ∈ l) : a ≤ greatestOf l := by
  cases l with
  | nil => cases h
  | cons x r =>
    rcases List.mem_cons.1 h with rfl | h
    · exact (le_foldl_max r _).1
    · exact (le_foldl_max r x).2 a h

/-- The smallest value of the domains. -/
def offsetOf (domains : Domains) (vars : List Var) : Int :=
  leastOf ((vars.filterMap domains.get?).map (·.lower))

/-- The number of elements from the smallest to the largest value of the domains. -/
def capacityOf (domains : Domains) (vars : List Var) : Nat :=
  (max (greatestOf ((vars.filterMap domains.get?).map (·.upper)) - offsetOf domains vars + 1) 1).toNat

section

variable {domains : Domains} {vars : List Var} {σ : Var → Int} {x y : Var}

theorem offset_le {v : Int} (hx : x ∈ vars) (hc : domains.contains x v = true) :
    offsetOf domains vars ≤ v ∧ v ≤ greatestOf ((vars.filterMap domains.get?).map (·.upper)) := by
  have hknown : Known domains [x] fun _ => v := fun y hy => by rwa [List.mem_singleton.1 hy]
  obtain ⟨d, hd, hmem⟩ := hknown.get? (List.mem_singleton.2 rfl)
  have hd' : d ∈ vars.filterMap domains.get? := List.mem_filterMap.2 ⟨x, hx, hd⟩
  exact ⟨Int.le_trans (leastOf_le (List.mem_map_of_mem hd')) (IntSet.head_le hmem d.nonempty),
    Int.le_trans (IntSet.le_getLast hmem d.nonempty) (le_greatestOf (List.mem_map_of_mem hd'))⟩

theorem value_between (h : Known domains vars σ) (hx : x ∈ vars) :
    offsetOf domains vars ≤ σ x ∧
      σ x ≤ greatestOf ((vars.filterMap domains.get?).map (·.upper)) := offset_le hx (h x hx)

theorem element_lt (h : Known domains vars σ) (hx : x ∈ vars) :
    element (offsetOf domains vars) (σ x) < capacityOf domains vars := by
  have := value_between h hx
  unfold element capacityOf
  omega

/-- Different values of the domains have different elements. -/
theorem element_inj (h : Known domains vars σ) (hx : x ∈ vars) (hy : y ∈ vars)
    (e : element (offsetOf domains vars) (σ x) = element (offsetOf domains vars) (σ y)) :
    σ x = σ y := by
  have := value_between h hx
  have := value_between h hy
  unfold element at e
  omega

end

/-! ### Registration -/

/-- What a set of taken values is registered as. -/
def setProperty (c : ScopeId) (capacity : Nat) (r : Relaxation)
    (run : StepFacts → IntSet → View → View) : Property where
  constraint := c
  kind := .set capacity
  relaxation := r
  rule := .transition [] fun input values out => .ok (run input values out)

/-- What the number of assigned variables is registered as. -/
def countProperty (c : ScopeId) (size i : Nat) : Property where
  constraint := c
  kind := .integer 0 0 size
  relaxation := .minimum
  rule := .transition [] fun input values out => .ok (stepCount i input values out)

theorem appends_register (domains : Domains) (vars : List Var) {r s : Spec} {c : ScopeId}
    (hs : Spec.addScope "all_different" vars r = (c, s)) {offset : Int} {capacity : Nat}
    (ho : offsetOf domains vars = offset) (hc : capacityOf domains vars = capacity) :
    After (register domains vars) (fun _ u => Appends c s u
      [setProperty c capacity .intersection (stepCertain offset (s.properties.down.size + 0)),
        setProperty c capacity .union (stepPossible offset (s.properties.down.size + 1)),
        countProperty c vars.length (s.properties.down.size + 2)]
      [setProperty c capacity .intersection (stepCertain offset (s.properties.up.size + 0)),
        setProperty c capacity .union (stepPossible offset (s.properties.up.size + 1))]
      [fun arc => .ok (admits ⟨offset, vars.length, s.properties.down.size + 0,
        s.properties.down.size + 1, s.properties.down.size + 2, s.properties.up.size + 0,
        s.properties.up.size + 1⟩ arc)]) r := by
  subst ho hc
  unfold register
  refine after_bind.2 ((after_addScope hs).2 ?_)
  refine after_bind.2 ((Appends.refl c s).declareDown fun _ h => ?_)
  refine after_bind.2 (h.declareDown fun _ h => ?_)
  refine after_bind.2 (h.declareDown fun _ h => ?_)
  refine after_bind.2 (h.declareUp fun _ h => ?_)
  refine after_bind.2 (h.declareUp fun _ h => ?_)
  refine after_bind.2 (h.transitionDown (by simp) fun _ h => ?_)
  refine after_bind.2 (h.transitionUp (by simp) fun _ h => ?_)
  refine after_bind.2 (h.transitionDown (by simp) fun _ h => ?_)
  refine after_bind.2 (h.transitionUp (by simp) fun _ h => ?_)
  refine after_bind.2 (h.transitionDown (by simp) fun _ h => ?_)
  refine after_bind.2 (h.arcCheck fun _ h => ?_)
  refine after_bind.2 (h.splitPriority fun _ h => ?_)
  exact h.equivalenceKey fun _ h => h

/-! ### Taken values -/

section

variable {t : Spec} {c : ScopeId} {vars : List Var} {d : Direction} {i l capacity : Nat} {s : Slot}
  {offset : Int} {σ : Var → Int}

/-- The element of the value of a passed variable. -/
def Taken (t : Spec) (vars : List Var) (σ : Var → Int) (offset : Int) (d : Direction) (l e : Nat) :
    Prop := ∃ x ∈ t.passed vars d l, element offset (σ x) = e

theorem not_taken_start (t : Spec) (vars : List Var) (σ : Var → Int) (offset : Int) (d : Direction)
    (e : Nat) : ¬ Taken t vars σ offset d (d.start t.toModel) e := by
  rintro ⟨x, hx, -⟩
  rw [passed_start] at hx
  cases hx

theorem taken_idle (hl : l < t.branchVars.size) (hv : t.toModel.var l ∉ vars) (e : Nat) :
    Taken t vars σ offset d (d.source l) e ↔ Taken t vars σ offset d (d.target l) e := by
  unfold Taken
  rw [passed_eq hl hv]

theorem taken_target (hl : l < t.branchVars.size) (hv : t.toModel.var l ∈ vars) (e : Nat) :
    Taken t vars σ offset d (d.target l) e ↔
      element offset (σ (t.toModel.var l)) = e ∨ Taken t vars σ offset d (d.source l) e := by
  unfold Taken
  constructor
  · rintro ⟨x, hx, he⟩
    rcases List.mem_cons.1 ((passed_perm hl hv d).mem_iff.1 hx) with rfl | hx
    · exact Or.inl he
    · exact Or.inr ⟨x, hx, he⟩
  · rintro (he | ⟨x, hx, he⟩)
    · exact ⟨_, (passed_perm hl hv d).mem_iff.2 List.mem_cons_self, he⟩
    · exact ⟨x, (passed_perm hl hv d).mem_iff.2 (List.mem_cons_of_mem _ hx), he⟩

theorem tracks_stepCertain (h : t.Hosts c vars)
    (hq : t.Has d i (setProperty c capacity .intersection (stepCertain offset i)) s
      fun input values out => .ok (stepCertain offset i input values out)) :
    Tracks t.toModel (t.toModel.labelsOf σ) d i fun b l r =>
      Bounds .intersection (Taken t vars σ offset d) s b l r.bits := by
  refine Bounds.tracks hq rfl (Or.inr rfl) (not_taken_start t vars σ offset d)
    (fun l hl hi' e => ?_) ?_
  · rw [h.mem_active hq rfl hl] at hi'
    exact taken_idle hl hi' e
  · intro b l source combined values target w hl hi' hb hs hw hb' e he
    rw [h.mem_active hq rfl hl] at hi'
    obtain rfl := Except.ok.inj hw
    have hs := hs hb'
    have hmem : σ (t.toModel.var l) ∈ values := hb hb'
    unfold stepCertain at he
    rw [View.mem_setSet (v := t.toModel.view d.side target) hq.slot hq.kind] at he
    dsimp only at he
    rw [View.set_eq (v := t.toModel.view d.side source) hq.slot hq.kind] at he
    have taken : e ∈ (((t.toModel.view d.side target).set i).overwrite
        ⟨s.readSet source.bits, capacity⟩).contents → Taken t vars σ offset d (d.target l) e :=
      fun hm => (taken_target hl hi' e).2 (Or.inr (hs e (IndexSet.mem_cut.1 hm).2))
    obtain ⟨-, he⟩ := he
    split at he
    · rename_i v hsingle
      rcases SetView.mem_insert.1 he with he | ⟨rfl, -⟩
      · exact taken he
      · rw [IntSet.mem_def, hsingle, List.mem_singleton] at hmem
        exact (taken_target hl hi' _).2 (Or.inl (hmem ▸ rfl))
    · exact taken he

theorem mem_foldl_insert {e : Nat} (vs : List Int) {s : SetView}
    (h : e ∈ s.contents ∨ e < s.capacity ∧ ∃ v ∈ vs, element offset v = e) :
    e ∈ (vs.foldl (fun s v => s.insert (element offset v)) s).contents := by
  induction vs generalizing s with
  | nil => exact h.resolve_right fun ⟨_, v, hv, _⟩ => nomatch hv
  | cons v vs ih =>
    rw [List.foldl_cons]
    apply ih
    rw [SetView.mem_insert, SetView.capacity_insert]
    rcases h with h | ⟨hlt, v', hv', rfl⟩
    · exact Or.inl (Or.inl h)
    · rcases List.mem_cons.1 hv' with rfl | hv'
      · exact Or.inl (Or.inr ⟨rfl, hlt⟩)
      · exact Or.inr ⟨hlt, v', hv', rfl⟩

/-- The words of a set hold its elements. -/
theorem lt_setBits {e : Nat} (hk : s.kind = .set capacity) (he : e < capacity) : e < s.setBits := by
  have : s.setBits = Layout.roundUp capacity := by
    unfold Slot.setBits Slot.setWords Slot.width
    rw [hk]
    rfl
  rw [this]
  exact Nat.lt_of_lt_of_le he (Layout.le_roundUp _)

theorem tracks_stepPossible (h : t.Hosts c vars)
    (hq : t.Has d i (setProperty c capacity .union (stepPossible offset i)) s
      fun input values out => .ok (stepPossible offset i input values out))
    (hlt : ∀ x ∈ vars, element offset (σ x) < capacity) :
    Tracks t.toModel (t.toModel.labelsOf σ) d i fun b l r =>
      Bounds .union (Taken t vars σ offset d) s b l r.bits := by
  refine Bounds.tracks hq rfl (Or.inl rfl) (not_taken_start t vars σ offset d)
    (fun l hl hi' e => ?_) ?_
  · rw [h.mem_active hq rfl hl] at hi'
    exact taken_idle hl hi' e
  · intro b l source combined values target w hl hi' hb hs hw hb' e he
    rw [h.mem_active hq rfl hl] at hi'
    obtain rfl := Except.ok.inj hw
    have hs := hs hb'
    have hmem : σ (t.toModel.var l) ∈ values := hb hb'
    unfold stepPossible
    rw [View.mem_setSet (v := t.toModel.view d.side target) hq.slot hq.kind]
    dsimp only
    rw [View.set_eq (v := t.toModel.view d.side source) hq.slot hq.kind,
      View.set_eq (v := t.toModel.view d.side target) hq.slot hq.kind]
    have hbits : s.setBits = wordsFor capacity * wordBits := by
      unfold Slot.setBits Slot.setWords Slot.width
      rw [hq.kind]
      rfl
    rcases (taken_target hl hi' e).1 he with rfl | he
    · have hcap := hlt _ hi'
      exact ⟨lt_setBits hq.kind hcap, mem_foldl_insert _ (Or.inr ⟨hcap, _, hmem, rfl⟩)⟩
    · have hin := hs e he
      have hlow := (Slot.mem_readSet.1 hin).1
      refine ⟨hlow, mem_foldl_insert _ (Or.inl (IndexSet.mem_cut.2 ⟨?_, hin⟩))⟩
      rw [hbits] at hlow
      exact hlow

/-- The number of passed variables, in all states. -/
def assigned (t : Spec) (vars : List Var) : Measure where
  all l _ x := x = ((t.passed vars .down l).length : Int)
  own _ _ _ := True

theorem tracks_stepCount (h : t.Hosts c vars) (hq : t.Has .down i (countProperty c vars.length i) s
      fun input values out => .ok (stepCount i input values out)) :
    Tracks t.toModel (t.toModel.labelsOf σ) .down i fun b l r =>
      (assigned t vars).Holds s b l r.bits := by
  refine Measure.tracks hq rfl (fun _ _ => trivial) (fun _ _ => trivial)
    (Or.inr ⟨rfl, fun e he => ?_⟩) (fun l hl hi' e x => ⟨?_, id⟩) ?_
  · have hk := hq.kind
    have h1 : s.lower = 0 := by simp [Slot.lower, hk, countProperty]
    have h2 : s.upper = vars.length := by simp [Slot.upper, hk, countProperty]
    have h3 : s.kind.initial = 0 := by simp [Kind.initial, hk, countProperty]
    show _ = ((t.passed vars .down 0).length : Int)
    rw [show t.passed vars .down 0 = [] from passed_start t vars .down, h1, h2, h3]
    show max 0 (min (vars.length : Int) 0) = 0
    omega
  · rw [h.mem_active hq rfl hl] at hi'
    show x = ((t.passed vars .down (Direction.down.source l)).length : Int) →
      x = ((t.passed vars .down (Direction.down.target l)).length : Int)
    rw [passed_eq hl hi']
    exact id
  · intro b l source combined values target w hl hi' hb hs hw
    rw [h.mem_active hq rfl hl] at hi'
    obtain rfl := Except.ok.inj hw
    have hs : _ = ((t.passed vars .down l).length : Int) :=
      (Measure.Holds.integer (v := t.toModel.view .down source) hq.slot hq.kind hs).1
    refine Measure.holds_setInteger (v := t.toModel.view .down target) hq.sound hq.slot hq.kind ?_
      fun _ => trivial
    have hle := h.length_passed_le .down (l + 1)
    show max 0 (min (vars.length : Int) ((t.toModel.view .down source).integer i + 1)) =
      ((t.passed vars .down (l + 1)).length : Int)
    rw [passed_down_succ hl hi', List.length_append, List.length_singleton] at hle ⊢
    omega

end

/-! ### Sizes -/

section

variable {s u : SetView} {L : List Nat} {e : Nat}

/-- A set has at least as many elements as a list of different ones of them. -/
theorem length_le_size {s : IndexSet} (hn : L.Nodup) (h : ∀ e ∈ L, e ∈ s) : L.length ≤ s.size :=
  (List.subperm_of_subset hn fun e he => IndexSet.mem_toList.2 (h e he)).length_le

theorem length_le_sizeWithout (hn : L.Nodup) (h : ∀ a ∈ L, a ∈ s.contents) (he : e ∉ L) :
    L.length ≤ s.sizeWithout e := by
  unfold SetView.sizeWithout SetView.size
  cases hc : s.contains e with
  | false => exact length_le_size hn h
  | true =>
    have : (e :: L).length ≤ s.contents.size := by
      refine length_le_size (List.nodup_cons.2 ⟨he, hn⟩) fun a ha => ?_
      rcases List.mem_cons.1 ha with rfl | ha
      · exact (SetView.contains_iff.1 hc).2
      · exact h a ha
    rw [List.length_cons] at this
    show _ ≤ _ - 1
    omega

theorem length_le_unionSize (hc : s.capacity = u.capacity) (hn : L.Nodup)
    (h : ∀ a ∈ L, a < s.capacity ∧ (a ∈ s.contents ∨ a ∈ u.contents)) :
    L.length ≤ s.unionSize u := by
  unfold SetView.unionSize
  refine length_le_size hn fun a ha => ?_
  obtain ⟨hlt, hin⟩ := h a ha
  exact IndexSet.mem_cut.2 ⟨SetView.lt_sharedBits (SetView.lt_words hlt) (SetView.lt_words (hc ▸ hlt)),
    IndexSet.mem_union.2 hin⟩

end

/-- The sets of a state bound the taken elements from both sides. -/
structure Sides (certain possible : SetView) (capacity : Nat) (L : List Nat) : Prop where
  atMost : ∀ {e}, certain.contains e = true → e ∈ L
  atLeast : ∀ e ∈ L, e ∈ possible.contents
  room : possible.capacity = capacity
  below : ∀ e ∈ L, e < capacity

theorem Sides.passes {certain possible : SetView} {capacity e : Nat} {L : List Nat}
    (h : Sides certain possible capacity L) (hn : L.Nodup) (he : e ∉ L) :
    ¬ (certain.contains e || decide (possible.sizeWithout e < L.length)) = true := by
  rw [Bool.or_eq_true, decide_eq_true_eq]
  rintro (hc | hlt)
  · exact he (h.atMost hc)
  · exact Nat.not_le.2 hlt (length_le_sizeWithout hn h.atLeast he)

/-- There are enough values for the variables above, below and of the layer. -/
theorem Sides.enough {certain certain' possible possible' : SetView} {capacity e : Nat}
    {A B : List Nat} (h : Sides certain possible capacity A) (g : Sides certain' possible' capacity B)
    (hn : (A ++ e :: B).Nodup) : (A ++ e :: B).length ≤ possible.unionSize possible' +
      if (!possible.contains e && !possible'.contains e) = true then 1 else 0 := by
  have hcap : possible.capacity = possible'.capacity := h.room.trans g.room.symm
  have hsides : ∀ a ∈ A ++ B, a < possible.capacity ∧
      (a ∈ possible.contents ∨ a ∈ possible'.contents) := by
    intro a ha
    rw [h.room]
    rcases List.mem_append.1 ha with ha | ha
    · exact ⟨h.below a ha, Or.inl (h.atLeast a ha)⟩
    · exact ⟨g.below a ha, Or.inr (g.atLeast a ha)⟩
  rw [List.nodup_middle, List.nodup_cons] at hn
  rw [List.length_append, List.length_cons]
  split_ifs with hnew
  · have := length_le_unionSize hcap hn.2 hsides
    rw [List.length_append] at this
    omega
  · have hin : e < possible.capacity ∧ (e ∈ possible.contents ∨ e ∈ possible'.contents) := by
      by_contra hno
      refine hnew ?_
      rw [Bool.and_eq_true, Bool.not_eq_true', Bool.not_eq_true', ← Bool.not_eq_true,
        ← Bool.not_eq_true, SetView.contains_iff, SetView.contains_iff, ← hcap]
      exact ⟨fun hc => hno ⟨hc.1, Or.inl hc.2⟩, fun hc => hno ⟨hc.1, Or.inr hc.2⟩⟩
    have := length_le_unionSize (L := e :: (A ++ B)) hcap (List.nodup_cons.2 hn) fun a ha => by
      rcases List.mem_cons.1 ha with rfl | ha
      · exact hin
      · exact hsides a ha
    rw [List.length_cons, List.length_append] at this
    omega

/-- The sets of a state of which everything tracked holds. -/
theorem sides_of_tracked {t : Spec} {c : ScopeId} {vars : List Var} {d : Direction}
    {i j l capacity : Nat} {s s' : Slot} {offset : Int} {σ : Var → Int} {v : View}
    (h : t.Hosts c vars) (hlt : ∀ x ∈ vars, element offset (σ x) < capacity)
    (hlay : v.layout = t.toModel.layout d.side)
    (hti : t.toModel.Tracked (t.toModel.labelsOf σ) true d l i v.state)
    (htj : t.toModel.Tracked (t.toModel.labelsOf σ) true d l j v.state)
    (hi : t.Has d i (setProperty c capacity .intersection (stepCertain offset i)) s
      fun input values out => .ok (stepCertain offset i input values out))
    (hj : t.Has d j (setProperty c capacity .union (stepPossible offset j)) s'
      fun input values out => .ok (stepPossible offset j input values out)) :
    Sides (v.set i) (v.set j) capacity
      ((t.passed vars d l).map fun x => element offset (σ x)) := by
  have hi' : v.slot? i = some s := (congrArg (Layout.slot? · i) hlay).trans hi.slot
  have hj' : v.slot? j = some s' := (congrArg (Layout.slot? · j) hlay).trans hj.slot
  have b1 := hti hi.index _ (tracks_stepCertain h hi) rfl
  have b2 := htj hj.index _ (tracks_stepPossible h hj hlt) rfl
  refine ⟨fun {e} he => ?_, fun e he => ?_, ?_, fun e he => ?_⟩
  · rw [View.set_eq hi' hi.kind] at he
    exact List.mem_map.2 (b1 e (SetView.contains_iff.1 he).2)
  · rw [View.set_eq hj' hj.kind]
    exact b2 e (List.mem_map.1 he)
  · rw [View.set_eq hj' hj.kind]
  · obtain ⟨x, hx, rfl⟩ := List.mem_map.1 he
    exact hlt x (mem_scopeIn.1 ((passed_sublist t vars d l).subset hx)).2

/-- An arc passes between sets which bound the taken elements, if all elements are different. -/
theorem admits_of_sides {k : Values} {arc : ArcFacts} (capacity : Nat) {A B : List Nat}
    (hn : (A ++ element k.offset arc.value :: B).Nodup)
    (hsize : (A ++ element k.offset arc.value :: B).length = k.scopeSize)
    (above : Sides (arc.parentDown.set k.certainAbove) (arc.parentDown.set k.possibleAbove) capacity A)
    (assigned : (arc.parentDown.integer k.assignedAbove).toNat = A.length)
    (below : ∀ up, arc.childUp = some up →
      Sides (up.set k.certainBelow) (up.set k.possibleBelow) capacity B) : admits k arc = true := by
  obtain ⟨hA, hrest, hdisj⟩ := List.nodup_append.1 hn
  obtain ⟨hBe, hB⟩ := List.nodup_cons.1 hrest
  have hAe : element k.offset arc.value ∉ A := fun hm => hdisj _ hm _ List.mem_cons_self rfl
  unfold admits
  dsimp only
  rw [assigned, if_neg (above.passes hA hAe)]
  cases hchild : arc.childUp with
  | none => rfl
  | some up =>
    have hafter : k.scopeSize - (A.length + 1) = B.length := by
      rw [← hsize, List.length_append, List.length_cons]
      omega
    dsimp only
    rw [hafter, if_neg ((below up hchild).passes hB hBe), decide_eq_true_eq, ← hsize]
    exact above.enough (below up hchild) hn

/-! ### Bundles -/

section

variable {capacity i e : Nat} {s : Slot} {offset : Int} {f : StepFacts} {values : IntSet}
  {o : View}

theorem setBits_eq (hk : s.kind = .set capacity) : s.setBits = wordsFor capacity * wordBits := by
  unfold Slot.setBits Slot.setWords Slot.width
  rw [hk]
  rfl

theorem mem_taken (hin : f.source.slot? i = some s) (hout : o.slot? i = some s)
    (hk : s.kind = .set capacity) : e ∈ ((o.set i).overwrite (f.source.set i)).contents ↔
      e ∈ s.readSet f.source.state.bits := by
  rw [View.set_eq hin hk, View.set_eq hout hk]
  refine IndexSet.mem_cut.trans (and_iff_right_of_imp fun he => ?_)
  show e < wordsFor capacity * wordBits
  rw [← setBits_eq hk]
  exact (Slot.mem_readSet.1 he).1

theorem mem_foldl_insert_iff (vs : List Int) {s : SetView} :
    e ∈ (vs.foldl (fun s v => s.insert (element offset v)) s).contents ↔
      e ∈ s.contents ∨ e < s.capacity ∧ ∃ v ∈ vs, element offset v = e := by
  refine ⟨fun h => ?_, mem_foldl_insert vs⟩
  induction vs generalizing s with
  | nil => exact Or.inl h
  | cons v vs ih =>
    rcases ih h with h | ⟨hlt, u, hu, he⟩
    · rcases SetView.mem_insert.1 h with h | ⟨he, hlt⟩
      · exact Or.inl h
      · exact Or.inr ⟨hlt, v, List.mem_cons_self, he.symm⟩
    · exact Or.inr ⟨SetView.capacity_insert ▸ hlt, u, List.mem_cons_of_mem _ hu, he⟩

theorem mem_stepPossible (hin : f.source.slot? i = some s) (hout : o.slot? i = some s)
    (hk : s.kind = .set capacity) :
    e ∈ s.readSet (stepPossible offset i f values o).state.bits ↔
      e ∈ s.readSet f.source.state.bits ∨ e < capacity ∧ ∃ v ∈ values, element offset v = e := by
  have hcap : ((o.set i).overwrite (f.source.set i)).capacity = capacity := by
    rw [View.set_eq hout hk]
    rfl
  unfold stepPossible
  rw [View.mem_setSet hout hk, mem_foldl_insert_iff, mem_taken hin hout hk, hcap]
  exact and_iff_right_of_imp fun h => h.elim (fun h => (Slot.mem_readSet.1 h).1) fun h => lt_setBits hk h.1

theorem mem_stepCertain (hin : f.source.slot? i = some s) (hout : o.slot? i = some s)
    (hk : s.kind = .set capacity) :
    e ∈ s.readSet (stepCertain offset i f values o).state.bits ↔
      e ∈ s.readSet f.source.state.bits ∨
        e < capacity ∧ ∃ v, values.toList = [v] ∧ element offset v = e := by
  have hcap : ((o.set i).overwrite (f.source.set i)).capacity = capacity := by
    rw [View.set_eq hout hk]
    rfl
  unfold stepCertain
  rw [View.mem_setSet hout hk]
  have hlow : e ∈ s.readSet f.source.state.bits ∨
      e < capacity ∧ (∃ v, values.toList = [v] ∧ element offset v = e) → e < s.setBits :=
    fun h => h.elim (fun h => (Slot.mem_readSet.1 h).1) fun h => lt_setBits hk h.1
  refine Iff.trans (and_congr_right fun _ => ?_) (and_iff_right_of_imp hlow)
  split
  · rename_i v hv
    rw [SetView.mem_insert, mem_taken hin hout hk, hcap, and_comm]
    refine or_congr_right (and_congr_right fun _ => ⟨fun h => ⟨v, hv, h.symm⟩, ?_⟩)
    rintro ⟨u, hu, h⟩
    obtain rfl := List.singleton_inj.1 (hv.symm.trans hu)
    exact h.symm
  · rename_i hno
    rw [mem_taken hin hout hk]
    exact (or_iff_left fun h => hno _ h.2.choose_spec.1).symm

theorem mem_stepCertain_singleton {v : Int} (hin : f.source.slot? i = some s)
    (hout : o.slot? i = some s) (hk : s.kind = .set capacity) :
    e ∈ s.readSet (stepCertain offset i f (.singleton v) o).state.bits ↔
      e ∈ s.readSet f.source.state.bits ∨ e < capacity ∧ element offset v = e := by
  rw [mem_stepCertain hin hout hk]
  refine or_congr_right (and_congr_right fun _ => ⟨?_, fun h => ⟨v, rfl, h⟩⟩)
  rintro ⟨u, hu, h⟩
  obtain rfl := List.singleton_inj.1 hu
  exact h

end

section

variable {c : ScopeId} {capacity i : Nat} {offset : Int} {V : Var → Int → Prop}

theorem agree_readSet {s : Slot} (hk : s.kind = .set capacity) {a b : Nat} :
    s.agree a b = true ↔ ∀ e, e ∈ s.readSet a ↔ e ∈ s.readSet b := by
  rw [Slot.agree_iff, if_pos (by rw [hk]; rfl)]

/-- A bundle makes every element possible which one of its labels makes possible. -/
theorem joins_stepPossible : (setProperty c capacity .union (stepPossible offset i)).Joins i V where
  fits := rfl
  total h layout source target s c l x values hl hs hk := by
    obtain ⟨-, rfl⟩ := Rule.transition.inj h
    exact ⟨_, rfl⟩
  least h layout source source' target X s c c' l x values w hl hs hk ha hne _ hw := by
    obtain ⟨-, rfl⟩ := Rule.transition.inj h
    obtain rfl := Except.ok.inj hw
    have hk : s.kind = .set capacity := hk
    have hsource : ∀ e, e ∈ s.readSet source.bits ↔ e ∈ s.readSet source'.bits :=
      (agree_readSet hk).1 ha
    have one : ∀ (target' : State) (v : Int) e, e ∈ s.readSet
        (stepPossible offset i ⟨⟨layout, source'⟩, c', l, x⟩ (.singleton v) ⟨layout, target'⟩).state.bits ↔
        e ∈ s.readSet source'.bits ∨ e < capacity ∧ element offset v = e := fun target' v e =>
      (mem_stepPossible (f := ⟨⟨layout, source'⟩, c', l, x⟩) (o := ⟨layout, target'⟩) hs hs hk).trans (by simp)
    have several : ∀ e, e ∈ s.readSet
        (stepPossible offset i ⟨⟨layout, source⟩, c, l, x⟩ values ⟨layout, target⟩).state.bits ↔
        e ∈ s.readSet source.bits ∨ e < capacity ∧ ∃ v ∈ values, element offset v = e := fun e =>
      mem_stepPossible (f := ⟨⟨layout, source⟩, c, l, x⟩) (o := ⟨layout, target⟩) hs hs hk
    constructor
    · intro hX v hv target' w' hw' e he
      obtain rfl := Except.ok.inj hw'
      refine hX e ((several e).2 (((one target' v e).1 he).imp (hsource e).2 fun h => ⟨h.1, v, hv, h.2⟩))
    · intro hX e he
      rcases (several e).1 he with he | ⟨hlt, v, hv, he⟩
      · obtain ⟨v, hv⟩ := hne
        exact hX v hv target _ rfl e ((one target v e).2 (Or.inl ((hsource e).1 he)))
      · exact hX v hv target _ rfl e ((one target v e).2 (Or.inr ⟨hlt, he⟩))

/-- Different labels have different elements, so an element is certain behind all labels of a bundle only
if it was certain before, or if the bundle has a single label. -/
theorem joins_stepCertain (inj : ∀ {x u v}, V x u → V x v → element offset u = element offset v →
    u = v) : (setProperty c capacity .intersection (stepCertain offset i)).Joins i V where
  fits := rfl
  total h layout source target s c l x values hl hs hk := by
    obtain ⟨-, rfl⟩ := Rule.transition.inj h
    exact ⟨_, rfl⟩
  least h layout source source' target X s c c' l x values w hl hs hk ha hne hV hw := by
    obtain ⟨-, rfl⟩ := Rule.transition.inj h
    obtain rfl := Except.ok.inj hw
    have hk : s.kind = .set capacity := hk
    have hsource : ∀ e, e ∈ s.readSet source.bits ↔ e ∈ s.readSet source'.bits :=
      (agree_readSet hk).1 ha
    have one : ∀ (target' : State) (v : Int) e, e ∈ s.readSet
        (stepCertain offset i ⟨⟨layout, source'⟩, c', l, x⟩ (.singleton v) ⟨layout, target'⟩).state.bits ↔
        e ∈ s.readSet source'.bits ∨ e < capacity ∧ element offset v = e := fun target' v e =>
      mem_stepCertain_singleton (f := ⟨⟨layout, source'⟩, c', l, x⟩) (o := ⟨layout, target'⟩) hs hs hk
    have several : ∀ e, e ∈ s.readSet
        (stepCertain offset i ⟨⟨layout, source⟩, c, l, x⟩ values ⟨layout, target⟩).state.bits ↔
        e ∈ s.readSet source.bits ∨ e < capacity ∧ ∃ v, values.toList = [v] ∧ element offset v = e := fun e =>
      mem_stepCertain (f := ⟨⟨layout, source⟩, c, l, x⟩) (o := ⟨layout, target⟩) hs hs hk
    constructor
    · intro hX v hv target' w' hw' e he
      obtain rfl := Except.ok.inj hw'
      refine (one target' v e).2 (((several e).1 (hX e he)).imp (hsource e).1 fun ⟨hlt, u, hu, h⟩ => ⟨hlt, ?_⟩)
      rw [IntSet.mem_def, hu] at hv
      rwa [List.mem_singleton.1 hv]
    · intro hX e he
      have each : ∀ v ∈ values, e ∈ s.readSet source'.bits ∨ e < capacity ∧ element offset v = e :=
        fun v hv => (one target v e).1 (hX v hv target _ rfl e he)
      refine (several e).2 ?_
      obtain ⟨v, hv⟩ := hne
      rcases each v hv with h | ⟨hlt, hve⟩
      · exact Or.inl ((hsource e).2 h)
      · by_cases single : values.toList = [v]
        · exact Or.inr ⟨hlt, v, single, hve⟩
        · -- another label does not lead to the same element
          obtain ⟨u, hu, hne⟩ := IntSet.exists_ne hv single
          rcases each u hu with h | ⟨-, hue⟩
          · exact Or.inl ((hsource e).2 h)
          · have known : ∀ y ∈ values, V x y := fun y hy => (hV y hy).resolve_right fun h => by
              rw [h, IntSet.mem_singleton] at hu hv
              exact hne (hu.trans hv.symm)
            exact absurd (inj (known u hu) (known v hv) (hue.trans hve.symm)) hne

end

theorem joins_stepCount {c : ScopeId} {size i : Nat} {V : Var → Int → Prop} :
    (countProperty c size i).Joins i V :=
  .of_integer (g := fun _ x _ => x + 1) rfl rfl rfl (fun _ _ _ ⟨v, hv⟩ => ⟨v, hv, rfl⟩)
    fun _ _ _ _ _ => .refl _ _

theorem joined_register {D : Var → Int → Prop} {s : Spec} (h : s.Joined D) (domains : Domains)
    (vars : List Var) (known : ∀ x ∈ vars, ∀ v, D x v → domains.contains x v = true) :
    (register domains vars s).2.Joined D := by
  obtain ⟨⟨c, u⟩, hu⟩ : ∃ p, Spec.addScope "all_different" vars s = p := ⟨_, rfl⟩
  obtain ⟨offset, ho⟩ : ∃ o, offsetOf domains vars = o := ⟨_, rfl⟩
  obtain ⟨capacity, hcap⟩ : ∃ n, capacityOf domains vars = n := ⟨_, rfl⟩
  have happ := appends_register domains vars hu ho hcap
  have hscoped := scoped_addScope "all_different" vars s
  have hadd := h.addScope "all_different" vars
  rw [hu] at hscoped hadd
  have inj : ∀ {x u v}, x ∈ vars ∧ D x u → x ∈ vars ∧ D x v → element offset u = element offset v →
      u = v := fun {x u v} hu hv e => by
    have h1 := (offset_le hu.1 (known x hu.1 u hu.2)).1
    have h2 := (offset_le hv.1 (known x hv.1 v hv.2)).1
    rw [ho] at h1 h2
    unfold element at e
    omega
  refine hadd.appends happ hscoped (fun k q hq => ?_) fun k q hq => ?_
  · match k with
    | 0 =>
      obtain rfl := Option.some.inj hq
      exact ⟨rfl, joins_stepCertain inj⟩
    | 1 =>
      obtain rfl := Option.some.inj hq
      exact ⟨rfl, joins_stepPossible⟩
    | 2 =>
      obtain rfl := Option.some.inj hq
      exact ⟨rfl, joins_stepCount⟩
  · match k with
    | 0 =>
      obtain rfl := Option.some.inj hq
      exact ⟨rfl, joins_stepCertain inj⟩
    | 1 =>
      obtain rfl := Option.some.inj hq
      exact ⟨rfl, joins_stepPossible⟩

/-- The certain elements are those of the values which were taken. -/
theorem mem_certain {σ : Var → Int} {S : Nat → State} {t : Spec} {c : ScopeId}
    {vars : List Var} {capacity i l e : Nat} {offset : Int} {s : Slot} {u : State}
    (a : Lineage σ t i S) (h : t.Hosts c vars) (hlt : ∀ x ∈ vars, element offset (σ x) < capacity)
    (hq : t.Has .down i (setProperty c capacity .intersection (stepCertain offset i)) s
      fun input values out => .ok (stepCertain offset i input values out))
    (hl : l < t.branchVars.size) (hu : t.toModel.Alike .down i (S l) u) :
    e ∈ s.readSet u.bits ↔ Taken t vars σ offset .down l e := by
  have hset : s.kind.isSet = true := by rw [hq.kind]; rfl
  refine a.pin hq (ψ := fun l x => ∀ e, e ∈ s.readSet x ↔ Taken t vars σ offset .down l e)
    (fun ha hx e => ?_) (fun e => ?_) (fun {l x} hl hi hx e => ?_)
    (fun {l source target w} hl hi hs hw e => ?_) hl hu e
  · rw [Slot.agree_iff, if_pos hset] at ha
    rw [← ha e, hx e]
  · have hinit := hq.initial
    unfold View.Initial at hinit
    rw [if_pos hset] at hinit
    exact iff_of_false (hinit e) (not_taken_start t vars σ offset .down e)
  · rw [h.mem_active hq rfl hl] at hi
    exact (hx e).trans (taken_idle hl hi e)
  · rw [h.mem_active hq rfl hl] at hi
    obtain rfl := Except.ok.inj hw
    rw [mem_stepCertain_singleton (f := ⟨t.toModel.view .down source, none, l, t.toModel.var l⟩)
      (o := t.toModel.view .down target) hq.slot hq.slot hq.kind]
    refine Iff.trans ?_ (taken_target (d := .down) hl hi e).symm
    rw [or_comm]
    refine or_congr (and_iff_right_of_imp ?_) (hs e)
    rintro rfl
    exact hlt _ hi

/-- Values are different if each differs from those before it. -/
theorem nodup_map_of_splits {σ : Var → Int} {xs : List Var}
    (h : ∀ above x below, xs = above ++ x :: below → ∀ y ∈ above, σ y ≠ σ x) : (xs.map σ).Nodup := by
  induction xs using List.reverseRecOn with
  | nil => exact List.nodup_nil
  | append_singleton xs x ih =>
    rw [List.map_append, List.map_singleton, List.nodup_append]
    refine ⟨ih fun above y below e z hz => h above y (below ++ [x]) (by simp [e]) z hz,
      List.nodup_singleton _, fun u hu w hw => ?_⟩
    obtain ⟨y, hy, rfl⟩ := List.mem_map.1 hu
    rw [List.mem_singleton.1 hw]
    exact h xs x [] rfl y hy

theorem own_setProperty {c : ScopeId} {capacity i : Nat} {offset : Int} {q : Property}
    (h : q = setProperty c capacity .intersection (stepCertain offset i) ∨
      q = setProperty c capacity .union (stepPossible offset i)) : q.Local i ∧ ∃ V, q.Joins i V := by
  rcases h with rfl | rfl
  · exact ⟨.of_total rfl nofun fun _ => View.writes_setSet _ _ _, fun _ _ => False,
      joins_stepCertain False.elim⟩
  · exact ⟨.of_total rfl nofun fun _ => View.writes_setSet _ _ _, fun _ _ => False, joins_stepPossible⟩

/-- If the values are different, so are the elements of the layers above and below and the one of a layer. -/
theorem nodup_elements {domains : Domains} {σ : Var → Int} {t : Spec} {c : ScopeId} {vars : List Var} {l : Nat}
    {offset : Int} (h : t.Hosts c vars) (hk : Known domains vars σ) (ho : offsetOf domains vars = offset)
    (hσ : (vars.map σ).Nodup) (hl : l < t.branchVars.size) (hv : t.toModel.var l ∈ vars) :
    ((t.passed vars .down l).map (fun x => element offset (σ x)) ++ element offset (σ (t.toModel.var l)) ::
      (t.passed vars .up (l + 1)).map fun x => element offset (σ x)).Nodup := by
  have hperm := h.perm
  rw [scopeIn_split hl hv] at hperm
  rw [← List.map_cons (f := fun x => element offset (σ x)), ← List.map_append, (hperm.map _).nodup_iff]
  refine List.Nodup.map_on (fun x hx y hy hxy => ?_) h.nodup
  rw [← ho] at hxy
  exact List.inj_on_of_nodup_map hσ hx hy (element_inj hk hx hy hxy)

/-- The test of a scope lets its values pass if they are different, and decides on every layer whether the value
differs from those above. -/
theorem encodes_register (domains : Domains) (vars : List Var) (r : Spec) {σ : Var → Int}
    (hk : Known domains vars σ) :
    Encodes σ (fun _ => (vars.map σ).Nodup) r (register domains vars r).2 := by
  obtain ⟨⟨c, s⟩, hs⟩ : ∃ p, Spec.addScope "all_different" vars r = p := ⟨_, rfl⟩
  obtain ⟨offset, ho⟩ : ∃ o, offsetOf domains vars = o := ⟨_, rfl⟩
  obtain ⟨capacity, hcap⟩ : ∃ n, capacityOf domains vars = n := ⟨_, rfl⟩
  have happ := appends_register domains vars hs ho hcap
  have hscoped := scoped_addScope "all_different" vars r
  have hfirst := Encodes.addScope σ "all_different" vars r
  rw [hs] at hscoped hfirst
  have hlt : ∀ x ∈ vars, element offset (σ x) < capacity := fun x hx => by
    rw [← ho, ← hcap]
    exact element_lt hk hx
  have down : ∀ {k}, k < 3 → Owned s (register domains vars r).2 .down (s.properties.down.size + k) :=
    fun hk => Appends.owned_down happ hk
  have up : ∀ {k}, k < 2 → Owned s (register domains vars r).2 .up (s.properties.up.size + k) :=
    fun hk => Appends.owned_up happ hk
  refine (hfirst.trans (Appends.encodes happ hscoped (fun k q hq => ?_) (fun k q hq => ?_)
    (fun t hu h known hσ l hl hv => ?_) fun t S hu h known lineage hpass => ?_)).congr
    fun _ => and_iff_right trivial
  · match k with
    | 0 => exact own_setProperty (.inl (Option.some.inj hq).symm)
    | 1 => exact own_setProperty (.inr (Option.some.inj hq).symm)
    | 2 =>
      obtain rfl := Option.some.inj hq
      exact ⟨.of_total rfl nofun fun hl => View.writes_setInteger hl _ _, fun _ _ => False, joins_stepCount⟩
  · match k with
    | 0 => exact own_setProperty (.inl (Option.some.inj hq).symm)
    | 1 => exact own_setProperty (.inr (Option.some.inj hq).symm)
  · obtain ⟨s1, h1⟩ := Appends.has_down happ hu h.check (k := 0) rfl rfl
    obtain ⟨s2, h2⟩ := Appends.has_down happ hu h.check (k := 1) rfl rfl
    obtain ⟨s3, h3⟩ := Appends.has_down happ hu h.check (k := 2) rfl rfl
    obtain ⟨s4, h4⟩ := Appends.has_up happ hu h.check (k := 0) rfl rfl
    obtain ⟨s5, h5⟩ := Appends.has_up happ hu h.check (k := 1) rfl rfl
    intro parent child hp hc _ _
    refine congrArg Except.ok (admits_of_sides capacity
      (nodup_elements h hk ho hσ hl hv) ?_ ?_ ?_ fun r hr => ?_)
    · have hsize := h.perm.length_eq
      rw [scopeIn_split hl hv, List.length_append, List.length_cons] at hsize
      rw [List.length_append, List.length_cons, List.length_map, List.length_map]
      exact hsize
    · exact sides_of_tracked (v := t.toModel.view .down parent) h hlt rfl (hp _ (down (by decide)))
        (hp _ (down (by decide))) h1 h2
    · have hcount : _ = ((t.passed vars .down l).length : Int) :=
        (Measure.Holds.integer (v := t.toModel.view .down parent) h3.slot h3.kind
          (hp _ (down (by decide)) h3.index _ (tracks_stepCount h h3))).1
      rw [hcount, List.length_map, Int.toNat_natCast]
    · obtain ⟨r, hchild, rfl⟩ := Option.map_eq_some_iff.1 hr
      exact sides_of_tracked (v := t.toModel.view .up r) h hlt rfl (hc r hchild _ (up (by decide)))
        (hc r hchild _ (up (by decide))) h4 h5
  · obtain ⟨s1, h1⟩ := Appends.has_down happ hu h.check (k := 0) rfl rfl
    rw [← (h.perm.map σ).nodup_iff]
    refine nodup_map_of_splits fun above x below e y hy hyx => ?_
    obtain ⟨l, hl, rfl, hv, rfl, -⟩ := h.exists_layer e
    obtain ⟨parent, child, _, _, hp, -, hok⟩ := hpass l hl hv
    have hadmits := Except.ok.inj hok
    unfold admits at hadmits
    dsimp only at hadmits
    rw [if_pos] at hadmits
    · cases hadmits
    · rw [Bool.or_eq_true]
      refine Or.inl ?_
      rw [View.set_eq (v := t.toModel.view .down parent) h1.slot h1.kind, SetView.contains_iff]
      exact ⟨hlt _ hv, (mem_certain (lineage _ (down (by decide))) h hlt h1 hl
        (hp _ (down (by decide)))).2 ⟨y, hy, by rw [hyx]; rfl⟩⟩

end DecisionDiagrams.AllDifferent
