import DecisionDiagrams.Proofs.Spec.Order
import DecisionDiagrams.Proofs.Spec.Readers

/-! Rules which write what they are for from what they declare to read. What becomes of a property along a
label then depends on the declared reads alone, whatever else is in the state, and whatever stood where
the result is written to. -/

namespace DecisionDiagrams

/-! ### Properties which differ -/

/-- What differs between two states has other bits in them. -/
theorem Layout.mem_difference {l : Layout} {i : Nat} {s t : State} :
    i ∈ l.difference s t ↔ ∃ slot, l.slot? i = some slot ∧ slot.agree s.bits t.bits = false := by
  unfold difference
  split_ifs with e
  · refine iff_of_false IndexSet.not_mem_empty ?_
    rintro ⟨slot, -, h⟩
    rw [e, Slot.agree_self] at h
    cases h
  rw [IndexSet.mem_foldl_iff
    (P := fun j => j = i ∧ ∃ slot, l.slot? i = some slot ∧ slot.agree s.bits t.bits = false) fun acc j => ?_]
  · rw [or_iff_right IndexSet.not_mem_empty]
    refine ⟨fun ⟨j, _, _, h⟩ => h, fun ⟨slot, hs, h⟩ => ⟨i, ?_, rfl, slot, hs, h⟩⟩
    exact List.mem_range.2 (Array.getElem?_eq_some_iff.1 hs).1
  · cases hs : l.slot? j with
    | none =>
      refine (or_iff_left ?_).symm
      rintro ⟨rfl, slot, hslot, -⟩
      cases hs.symm.trans hslot
    | some slot =>
      dsimp only
      split_ifs with ha
      · refine (or_iff_left ?_).symm
        rintro ⟨rfl, slot', hslot, h⟩
        obtain rfl := Option.some.inj (hs.symm.trans hslot)
        cases ha.symm.trans h
      · rw [IndexSet.mem_insert, or_comm]
        refine or_congr_right ⟨?_, fun h => h.1.symm⟩
        rintro rfl
        exact ⟨rfl, slot, hs, Bool.eq_false_iff.2 ha⟩

/-- What differs between two states does not read the same. -/
theorem Model.mem_difference {m : Model} {side : Side} {i : Nat} {s t : State} :
    i ∈ (m.layout side).difference s t ↔ ¬ m.Alike side i s t := by
  refine Layout.mem_difference.trans ?_
  unfold Model.Alike
  push Not
  simp only [Bool.eq_false_iff, ne_eq]

/-! ### Models -/

namespace Model

variable {m : Model} {d : Direction} {i j l : Nat} {s s' t t' r : State} {v : Int}

/-- Computing another property leaves property `i` alone. -/
structure Apart (m : Model) (d : Direction) (i : Nat) : Prop where
  stepped : ∀ {l source combined values target j r}, i ≠ j →
    m.stepProperty d l source combined values target j = .ok r → m.Alike d.side i target r

theorem Separate.apart (hm : m.Separate d) (i : Nat) : m.Apart d i := ⟨hm.stepped⟩

namespace Apart

variable {source target r : State} {combined : Option State} {values : IntSet}

/-- A listed property was computed at some point, and the others are as they were. -/
theorem of_foldl_step (hm : m.Apart d i) : ∀ (which : List Nat) {target r : State},
    which.foldlM (m.stepProperty d l source combined values) target = .ok r →
    (i ∈ which → ∃ t' r', m.stepProperty d l source combined values t' i = .ok r' ∧
      m.Alike d.side i r' r) ∧ (i ∉ which → m.Alike d.side i target r)
  | [], target, r, h => by
    obtain rfl := Except.ok.inj h
    exact ⟨nofun, fun _ => .refl _ _ _ _⟩
  | j :: which, target, r, h => by
    rw [List.foldlM_cons] at h
    obtain ⟨mid, hmid, h⟩ := Checked.bind_eq_ok.1 h
    obtain ⟨h1, h2⟩ := hm.of_foldl_step which h
    refine ⟨fun hi => ?_, fun hi => ?_⟩
    · by_cases hw : i ∈ which
      · exact h1 hw
      · obtain rfl := (List.mem_cons.1 hi).resolve_right hw
        exact ⟨target, mid, hmid, h2 hw⟩
    · obtain ⟨hne, hw⟩ := not_or.1 (fun h => hi (List.mem_cons.2 h))
      exact (hm.stepped hne hmid).trans (h2 hw)

theorem of_stepInto (hm : m.Apart d i) {which : IndexSet}
    (h : m.stepInto d l source combined values which target = .ok r) :
    (i ∈ which → ∃ t' r', m.stepProperty d l source combined values t' i = .ok r' ∧
      m.Alike d.side i r' r) ∧ (i ∉ which → m.Alike d.side i target r) := by
  obtain ⟨h1, h2⟩ := hm.of_foldl_step which.toList h
  exact ⟨fun hi => h1 (IndexSet.mem_toList.2 hi), fun hi => h2 fun hw => hi (IndexSet.mem_toList.1 hw)⟩

theorem of_step (hm : m.Apart d i) (h : m.step d l source combined values = .ok r) :
    (i ∈ m.active d l → ∃ t' r', m.stepProperty d l source combined values t' i = .ok r' ∧
      m.Alike d.side i r' r) ∧ (i ∉ m.active d l → m.Alike d.side i source r) := by
  unfold step at h
  obtain ⟨reached, hreached, h⟩ := Checked.bind_eq_ok.1 h
  obtain rfl := Except.ok.inj h
  obtain ⟨h1, h2⟩ := hm.of_stepInto hreached
  refine ⟨fun hi => ?_, fun hi => (h2 hi).trans (.of_bits rfl)⟩
  obtain ⟨t', r', hr', ha⟩ := h1 hi
  exact ⟨t', r', hr', ha.trans (.of_bits rfl)⟩

end Apart

/-- Whether property `i`, behind layer `l`, depends on property `j` before it. -/
def Looks (m : Model) (d : Direction) (l i j : Nat) : Prop :=
  j = i ∧ i ∉ m.active d l ∨ i ∈ m.readers d.side j d.side ∧ i ∈ m.active d l

/-- The property of `t` is what a label makes of the state `s`. -/
def Yields (m : Model) (d : Direction) (l : Nat) (s : State) (v : Int) (i : Nat) (t : State) : Prop :=
  ∃ combined target r, m.stepProperty d l s combined (.singleton v) target i = .ok r ∧
    m.Alike d.side i r t

theorem Yields.of_alike (h : m.Yields d l s v i t) (ha : m.Alike d.side i t t') : m.Yields d l s v i t' := by
  obtain ⟨combined, target, r, hr, hrt⟩ := h
  exact ⟨combined, target, r, hr, hrt.trans ha⟩

/-- What the transitions over the labels of a layer see. -/
def stepFacts (m : Model) (d : Direction) (l : Nat) (s : State) (combined : Option State) : StepFacts :=
  ⟨m.view d.side s, combined.map (m.view .combined), l, m.var l⟩

/-- What a label makes of property `i` depends on what the property looks at, and on nothing else. -/
structure Certain (m : Model) (d : Direction) (i : Nat) : Prop where
  determined : ∀ {l s s' combined v target r}, (∀ j, m.Looks d l i j → m.Alike d.side j s s') →
    m.stepProperty d l s combined (.singleton v) target i = .ok r → ∀ combined' target',
    ∃ r', m.stepProperty d l s' combined' (.singleton v) target' i = .ok r' ∧ m.Alike d.side i r r'
  idle : ∀ {l s}, i ∉ m.active d l → ∀ combined values target,
    ∃ r, m.stepProperty d l s combined values target i = .ok r ∧ m.Alike d.side i s r

namespace Certain

variable (h : m.Certain d i)
include h

theorem yields_congr (hs : ∀ j, m.Looks d l i j → m.Alike d.side j s s') (hy : m.Yields d l s v i t) :
    m.Yields d l s' v i t := by
  obtain ⟨combined, target, r, hr, ha⟩ := hy
  obtain ⟨r', hr', ha'⟩ := h.determined hs hr combined target
  exact ⟨combined, target, r', hr', ha'.symm.trans ha⟩

theorem yields_unique (hy : m.Yields d l s v i t) (hy' : m.Yields d l s v i t') :
    m.Alike d.side i t t' := by
  obtain ⟨combined, target, r, hr, ha⟩ := hy
  obtain ⟨combined', target', r', hr', ha'⟩ := hy'
  obtain ⟨r'', hr'', e⟩ := h.determined (fun _ _ => .refl _ _ _ _) hr combined' target'
  obtain rfl := Except.ok.inj (hr'.symm.trans hr'')
  exact ha.symm.trans (e.trans ha')

theorem yields_idle (hi : i ∉ m.active d l) (s : State) (v : Int) : m.Yields d l s v i s := by
  obtain ⟨r, hr, ha⟩ := h.idle hi none (.singleton v) s
  exact ⟨none, s, r, hr, ha.symm⟩

/-- A whole transition leads where the label leads. -/
theorem yields_step (ha : m.Apart d i) {combined : Option State}
    (hr : m.step d l s combined (.singleton v) = .ok r) : m.Yields d l s v i r := by
  obtain ⟨h1, h2⟩ := ha.of_step hr
  by_cases hi : i ∈ m.active d l
  · obtain ⟨target, r', hr', ha⟩ := h1 hi
    exact ⟨combined, target, r', hr', ha⟩
  · exact (h.yields_idle hi s v).of_alike (h2 hi)

/-- What is above the value to which a label leads. -/
theorem below_iff_yields (hm : m.Lattice d.side) (hy : m.Yields d l s v i t) :
    m.Below d.side i t t' ↔ ∀ u, m.Yields d l s v i u → m.Below d.side i u t' :=
  ⟨fun ht _ hu => (hm.below_congr (h.yields_unique hu hy)).2 ht, fun hall => hall t hy⟩

theorem exists_stepProperty (hy : m.Yields d l s v i t) (combined : Option State) (target : State) :
    ∃ r, m.stepProperty d l s combined (.singleton v) target i = .ok r := by
  obtain ⟨_, _, _, hr, -⟩ := hy
  obtain ⟨r, hr, -⟩ := h.determined (fun _ _ => .refl _ _ _ _) hr combined target
  exact ⟨r, hr⟩

end Certain

/-- What a label makes of the properties depends on what they look at, and on nothing else. -/
structure Declared (m : Model) (d : Direction) : Prop extends m.Separate d, m.Lattice d.side where
  certain : ∀ i, m.Certain d i

namespace Declared

variable (h : m.Declared d)
include h

theorem yields_congr (hs : ∀ j, m.Looks d l i j → m.Alike d.side j s s') (hy : m.Yields d l s v i t) :
    m.Yields d l s' v i t := (h.certain i).yields_congr hs hy

theorem yields_unique (hy : m.Yields d l s v i t) (hy' : m.Yields d l s v i t') :
    m.Alike d.side i t t' := (h.certain i).yields_unique hy hy'

theorem yields_idle (hi : i ∉ m.active d l) (s : State) (v : Int) : m.Yields d l s v i s :=
  (h.certain i).yields_idle hi s v

theorem yields_step {combined : Option State} (hr : m.step d l s combined (.singleton v) = .ok r)
    (i : Nat) : m.Yields d l s v i r := (h.certain i).yields_step (h.toSeparate.apart i) hr

theorem yields_stepInto {combined : Option State} {which : IndexSet} {target : State}
    (hr : m.stepInto d l s combined (.singleton v) which target = .ok r) (hi : i ∈ which) :
    m.Yields d l s v i r := by
  obtain ⟨target', r', hr', ha⟩ := ((h.toSeparate.apart i).of_stepInto hr).1 hi
  exact ⟨combined, target', r', hr', ha⟩

/-- If every property can be computed, the whole state can. -/
theorem exists_step (hy : ∀ i, ∃ t, m.Yields d l s v i t) (combined : Option State) :
    ∃ r, m.step d l s combined (.singleton v) = .ok r := by
  obtain ⟨r, hr⟩ := Checked.exists_foldlM
    (fun target j => (h.certain j).exists_stepProperty (hy j).choose_spec combined target) (m.active d l).toList s
  exact ⟨_, by unfold Model.step Model.stepInto; rw [hr]; rfl⟩

end Declared

/-- The state which the labels lead to, one transition after the other. `beside` says which combined
states the transitions are given. -/
def follow (m : Model) (beside : State → Option State) : Nat → State → List Int → Checked State
  | _, s, [] => .ok s
  | l, s, v :: vs => do
    let next ← m.step .down l s (beside s) (.singleton v)
    m.follow beside (l + 1) next vs

end Model

/-! ### Specifications -/

/-- The transitions of down states write their own properties, from the properties which they declare to
read and their own; built-in relaxations merge them. Combined states and flags are not looked at. -/
structure Spec.Declared (t : Spec) : Prop where
  own : ∀ {i} {q : Property}, t.properties.down[i]? = some q → q.Local i
  determined : ∀ {i} {q : Property}, t.properties.down[i]? = some q →
    ∀ {reads run}, q.rule = .transition reads run → ∀ {x y : StepFacts} {values : IntSet} {a b w : View},
    x.source.layout = t.toModel.layout .down → y.source.layout = t.toModel.layout .down →
    x.layer = y.layer → x.var = y.var →
    (∀ j, j = i ∨ ⟨.down, j⟩ ∈ reads → t.toModel.Alike .down j x.source.state y.source.state) →
    a.layout = t.toModel.layout .down → b.layout = t.toModel.layout .down →
    run x values a = .ok w → ∃ w', run y values b = .ok w' ∧ t.toModel.Alike .down i w.state w'.state

namespace Spec

variable {t : Spec} {d : Direction} {i l : Nat}

theorem agree_copy {layout : Layout} (hl : layout.Sound) {s : Slot} (hs : layout.slot? i = some s)
    (target source : Nat) : s.agree source (s.copy target source) = true := by
  rw [Slot.agree_iff]
  cases hset : s.kind.isSet with
  | true =>
    rw [if_pos rfl]
    exact fun e => (Slot.readSet_copy hset target source).symm
  | false =>
    rw [if_neg Bool.false_ne_true]
    exact fun e he => ((hl.numeric hs hset).readElement_copy target source he).symm

/-- A property which is not computed on a layer is taken over. -/
theorem exists_stepProperty_idle (hc : t.check = .ok ()) (hi : i ∉ t.toModel.active d l)
    (s : State) (combined : Option State) (values : IntSet) (target : State) :
    ∃ r, t.toModel.stepProperty d l s combined values target i = .ok r ∧
      t.toModel.Alike d.side i s r := by
  unfold Model.stepProperty
  dsimp only
  rw [if_neg (show ¬ IndexSet.contains _ i = true from hi)]
  cases hs : (t.toModel.layout d.side).slot? i with
  | none => exact ⟨_, rfl, fun slot hslot => by cases hs.symm.trans hslot⟩
  | some slot =>
    refine ⟨_, rfl, fun slot' hslot => ?_⟩
    obtain rfl := Option.some.inj (hs.symm.trans hslot)
    exact agree_copy (sound_layout hc d.side) hs _ _

/-- A property is certain if its transition over one label depends on the property and on what it declares to read
on its side. -/
theorem certain_of_determined (hc : t.check = .ok ()) (h : ∀ {q : Property}, (t.properties.get d.side)[i]? = some q →
    ∀ {reads run}, q.rule = .transition reads run → ∀ {l : Nat} {v : Int} {s s' target : State}
      {combined : Option State} {w : View}, (∀ j, j = i ∨ ⟨d.side, j⟩ ∈ reads → t.toModel.Alike d.side j s s') →
    run (t.toModel.stepFacts d l s combined) (.singleton v) (t.toModel.view d.side target) = .ok w →
    ∀ combined' target', ∃ w', run (t.toModel.stepFacts d l s' combined') (.singleton v)
      (t.toModel.view d.side target') = .ok w' ∧ t.toModel.Alike d.side i w.state w'.state) :
    t.toModel.Certain d i where
  determined := by
    intro l s s' combined v target r hs hr combined' target'
    by_cases hi : i ∈ t.toModel.active d l
    · obtain ⟨q, hq, htrans, -⟩ := (mem_active (lt_of_mem_active hi)).1 hi
      obtain ⟨reads, run, hrule⟩ := Rule.exists_of_isTransition htrans
      obtain ⟨w, hw, rfl⟩ := stepProperty_active hq hi hr hrule
      have same : ∀ j, j = i ∨ ⟨d.side, j⟩ ∈ reads → t.toModel.Alike d.side j s s' := by
        intro j hj slot hslot
        obtain ⟨q', hq', -⟩ := property_of_slot hslot
        have hj' : i ∈ t.toModel.readers d.side j d.side := by
          refine mem_readers.2 ⟨(Array.getElem?_eq_some_iff.1 hq').1, mem_readersOf.2 ⟨q, hq, ?_⟩⟩
          rw [hrule]
          rcases hj with rfl | hj
          · exact Or.inl ⟨rfl, rfl⟩
          · exact Or.inr hj
        exact hs j (Or.inr ⟨hj', hi⟩) slot hslot
      obtain ⟨w', hw', ha⟩ := h hq hrule same hw combined' target'
      exact ⟨w'.state, stepProperty_of_run hq hi hrule hw', ha⟩
    · obtain ⟨r', hr', ha'⟩ := exists_stepProperty_idle hc hi s' combined' (.singleton v) target'
      obtain ⟨r₀, hr₀, ha₀⟩ := exists_stepProperty_idle hc hi s combined (.singleton v) target
      obtain rfl := Except.ok.inj (hr.symm.trans hr₀)
      exact ⟨r', hr', ha₀.symm.trans ((hs i (Or.inl ⟨rfl, hi⟩)).trans ha')⟩
  idle hi := exists_stepProperty_idle hc hi _

/-- The model of a specification whose rules keep to what they declare. -/
theorem Declared.model (h : t.Declared) (hc : t.check = .ok ()) : t.toModel.Declared .down where
  toSeparate := separate hc h.own
  toLattice := lattice hc fun hq => (h.own hq).builtIn
  certain i := by
    refine certain_of_determined hc fun hq reads run hrule l v s s' target combined w same hw combined' target' => ?_
    exact h.determined hq hrule (x := t.toModel.stepFacts .down l s combined)
      (y := t.toModel.stepFacts .down l s' combined') (a := t.toModel.view .down target)
      (b := t.toModel.view .down target') rfl rfl rfl rfl same rfl rfl hw

end Spec
end DecisionDiagrams
