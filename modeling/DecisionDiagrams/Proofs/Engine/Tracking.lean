import DecisionDiagrams.Proofs.Engine.Covering
import DecisionDiagrams.Proofs.Spec.Compiled

/-! Certificates from the properties of a specification. A predicate is tracked by a property if it is
taken over from layer to layer and by merging; all predicates which are tracked together make a
certificate as soon as the tests of arcs let the labels pass where they hold. Numbers which are merged
by their minimum or maximum and sets which are merged by union or intersection are tracked by what
their rules do on the layers of the constraint. -/

namespace DecisionDiagrams

/-! ### Rules of one property -/

/-- The rule of a property writes this property only, and its values are merged element by element or
by a set operation. -/
structure Property.Local (q : Property) (i : Nat) : Prop where
  writes : ∀ {reads run}, q.rule = .transition reads run → ∀ {input values v w s},
    v.layout.Sound → v.slot? i = some s → s.kind = q.kind → run input values v = .ok w →
    v.Writes i w
  builtIn : ∀ merge, q.relaxation ≠ .custom merge

/-- A rule which always comes to an end and writes one property. -/
theorem Property.Local.of_total {q : Property} {i : Nat} {reads : List PropertyRef}
    {run : StepFacts → IntSet → View → View}
    (hrule : q.rule = .transition reads fun input values out => .ok (run input values out))
    (hr : ∀ merge, q.relaxation ≠ .custom merge)
    (hw : ∀ {input values} {v : View}, v.layout.Sound → v.Writes i (run input values v)) : q.Local i := by
  refine ⟨fun e input values v w s hl _ _ hrun => ?_, hr⟩
  obtain ⟨-, rfl⟩ := Rule.transition.inj (hrule.symm.trans e)
  obtain rfl := Except.ok.inj hrun
  exact hw hl

theorem Rule.exists_of_isTransition {rule : Rule} (h : rule.isTransition = true) :
    ∃ reads run, rule = .transition reads run := by
  cases rule with
  | transition reads run => exact ⟨reads, run, rfl⟩
  | keep => cases h
  | combine => cases h

namespace Spec

variable {t : Spec} {i j : Nat} {side : Side} {d : Direction} {l : Nat} {q : Property}

/-- The rules write their own properties, and there are no tests of nodes. -/
structure Local (t : Spec) : Prop where
  property : ∀ {side i} {q : Property}, (t.properties.get side)[i]? = some q → q.Local i
  nodeChecks : t.nodeChecks = #[]

theorem rule_toModel (t : Spec) (side : Side) (i : Nat) : t.toModel.rule side i =
    match (t.properties.get side)[i]? with
    | some q => q.rule
    | none => .keep := rfl

theorem relaxation_toModel (hq : (t.properties.get side)[i]? = some q) :
    t.toModel.relaxation? side i = some q.relaxation := by
  unfold Model.relaxation?
  rw [show (t.toModel.properties.get side)[i]? = some q from hq]

theorem relaxation_eq_none (h : (t.properties.get side)[i]? = none) : t.toModel.relaxation? side i = none := by
  unfold Model.relaxation?
  rw [show (t.toModel.properties.get side)[i]? = none from h]

/-- A property is computed by its transition on the layers of its constraint. -/
theorem stepProperty_active (hq : (t.properties.get d.side)[i]? = some q)
    (hi : i ∈ t.toModel.active d l) {source target r : State} {combined : Option State}
    {values : IntSet} (h : t.toModel.stepProperty d l source combined values target i = .ok r)
    {reads run} (hr : q.rule = .transition reads run) : ∃ w,
      run ⟨t.toModel.view d.side source, combined.map (t.toModel.view .combined), l,
        t.toModel.var l⟩ values (t.toModel.view d.side target) = .ok w ∧ w.state = r := by
  unfold Model.stepProperty at h
  dsimp only at h
  rw [if_pos (show IndexSet.contains _ i = true from hi), rule_toModel, hq] at h
  dsimp only at h
  rw [hr] at h
  dsimp only at h
  revert h
  cases run _ values _ with
  | error e => exact nofun
  | ok w => exact fun h => ⟨w, rfl, Except.ok.inj h⟩

/-- What the transition of a property gives is what the property becomes. -/
theorem stepProperty_of_run (hq : (t.properties.get d.side)[i]? = some q) (hi : i ∈ t.toModel.active d l)
    {source target : State} {combined : Option State} {values : IntSet} {reads run}
    (hr : q.rule = .transition reads run) {w : View}
    (hw : run ⟨t.toModel.view d.side source, combined.map (t.toModel.view .combined), l,
      t.toModel.var l⟩ values (t.toModel.view d.side target) = .ok w) :
    t.toModel.stepProperty d l source combined values target i = .ok w.state := by
  unfold Model.stepProperty
  dsimp only
  rw [if_pos (show IndexSet.contains _ i = true from hi), rule_toModel, hq]
  dsimp only
  rw [hr]
  exact congrArg (Except.map View.state) hw

theorem stepProperty_idle (hi : i ∉ t.toModel.active d l) {source target r : State}
    {combined : Option State} {values : IntSet}
    (h : t.toModel.stepProperty d l source combined values target i = .ok r) {s : Slot}
    (hs : (t.toModel.layout d.side).slot? i = some s) :
    r = { target with bits := s.copy target.bits source.bits } := by
  unfold Model.stepProperty at h
  dsimp only at h
  rw [if_neg (show ¬ IndexSet.contains _ i = true from hi), hs] at h
  exact (Except.ok.inj h).symm

/-- A rule which writes its own property leaves the others alone. -/
theorem alike_stepped (hc : t.check = .ok ()) (h : ∀ {q : Property},
    (t.properties.get d.side)[j]? = some q → q.Local j) {source target r : State} {combined : Option State}
    {values : IntSet} (hne : i ≠ j)
    (hr : t.toModel.stepProperty d l source combined values target j = .ok r) :
    t.toModel.Alike d.side i target r := by
  intro slot hslot
  have hsound := sound_layout hc d.side
  cases hq : (t.properties.get d.side)[j]? with
  | none =>
    have hout : (t.toModel.layout d.side).slot? j = none := by
      by_contra hn
      obtain ⟨s, hs⟩ := Option.ne_none_iff_exists'.1 hn
      obtain ⟨q, hq', -⟩ := property_of_slot hs
      rw [hq] at hq'
      cases hq'
    have e : r = target := by
      unfold Model.stepProperty at hr
      dsimp only at hr
      rw [rule_toModel, hq, hout] at hr
      split_ifs at hr <;> exact (Except.ok.inj hr).symm
    rw [e]
    exact slot.agree_self _
  | some q =>
    obtain ⟨s, hs, hk⟩ := slot_of_property hq
    by_cases hi : j ∈ t.toModel.active d l
    · cases hrule : q.rule with
      | transition reads run =>
        obtain ⟨w, hw, rfl⟩ := stepProperty_active hq hi hr hrule
        have hwrites := (h hq).writes hrule (v := t.toModel.view d.side target) hsound hs
          hk hw
        exact hwrites.agree hsound hne hslot
      | keep =>
        unfold Model.stepProperty at hr
        dsimp only at hr
        rw [if_pos (show IndexSet.contains _ j = true from hi), rule_toModel, hq] at hr
        dsimp only at hr
        rw [hrule] at hr
        rw [← Except.ok.inj hr]
        exact slot.agree_self _
      | combine =>
        unfold Model.stepProperty at hr
        dsimp only at hr
        rw [if_pos (show IndexSet.contains _ j = true from hi), rule_toModel, hq] at hr
        dsimp only at hr
        rw [hrule] at hr
        rw [← Except.ok.inj hr]
        exact slot.agree_self _
    · rw [stepProperty_idle hi hr hs]
      exact Slot.agree_of_outside (hsound.valid i slot hslot) (hsound.apart hne hslot hs)
        (Slot.outside_copy (hsound.valid j s hs) _ _)

/-- Rules which write their own properties leave the others alone. -/
theorem separate (hc : t.check = .ok ()) (h : ∀ {i} {q : Property},
    (t.properties.get d.side)[i]? = some q → q.Local i) : t.toModel.Separate d where
  stepped hne hr := alike_stepped hc h hne hr

/-- Merging one property leaves the others alone. -/
theorem alike_merged (hc : t.check = .ok ()) {side : Side} (h : ∀ {q : Property},
    (t.properties.get side)[j]? = some q → ∀ merge, q.relaxation ≠ .custom merge) {other target r : State}
    (hne : i ≠ j) (hr : t.toModel.mergeProperty side other target j = .ok r) :
    t.toModel.Alike side i target r := by
  intro slot hslot
  have hsound := sound_layout hc side
  have apart : ∀ {s}, (t.toModel.layout side).slot? j = some s → ∀ {b : Nat},
      s.Outside target.bits b → slot.agree target.bits b = true := fun hs _ ho =>
    Slot.agree_of_outside (hsound.valid i slot hslot) (hsound.apart hne hslot hs) ho
  have numbers : ∀ {s : Slot} (_ : (t.toModel.layout side).slot? j = some s)
      (pick : Nat → Nat → Nat), slot.agree target.bits (s.mergeNumbers pick target.bits other.bits) =
        true := by
    intro s hs pick
    refine apart hs ?_
    cases hset : s.kind.isSet with
    | true =>
      rw [Slot.mergeNumbers_of_isSet hset]
      exact .refl _ _
    | false => exact Slot.outside_mergeNumbers (hsound.numeric hs hset) _ _ _
  unfold Model.mergeProperty at hr
  split at hr
  · rename_i s _ hs
    rw [← Except.ok.inj hr]
    exact numbers hs _
  · rename_i s _ hs
    rw [← Except.ok.inj hr]
    exact numbers hs _
  · rename_i s _ hs
    rw [← Except.ok.inj hr]
    exact apart hs (Slot.outside_mergeSet _ _ _ _)
  · rename_i s _ hs
    rw [← Except.ok.inj hr]
    exact apart hs (Slot.outside_mergeSet _ _ _ _)
  · rename_i merge hrel
    cases hq : (t.properties.get side)[j]? with
    | none =>
      rw [relaxation_eq_none hq] at hrel
      cases hrel
    | some q =>
      rw [relaxation_toModel hq] at hrel
      exact absurd (Option.some.inj hrel) (h hq merge)
  · rw [← Except.ok.inj hr]
    exact slot.agree_self _

theorem Local.plain (h : t.Local) (hc : t.check = .ok ()) : t.toModel.Plain where
  stepped := (separate hc h.property).stepped
  merged := alike_merged hc fun hq => (h.property hq).builtIn
  nodeChecks := by
    show t.nodeChecks.toList = []
    rw [h.nodeChecks]

end Spec

/-! ### Tracked predicates -/

/-- The layer whose states are given from the start. -/
def Direction.start (m : Model) : Direction → Nat
  | .down => 0
  | .up => m.depth

/-- What property `i` says of states, of all of a layer and of those which the labels pass through, and
how it is taken over. -/
structure Tracks (m : Model) (σ : Nat → Int) (d : Direction) (i : Nat)
    (φ : Bool → Nat → State → Prop) : Prop where
  weaken : ∀ {l s}, φ true l s → φ false l s
  congr : ∀ {b l s t}, m.Alike d.side i s t → φ b l s → φ b l t
  start : φ true (d.start m) (m.fresh d.side)
  blank : d = .up → ∀ l, φ false l (m.fresh .up)
  hasUp : d = .up → m.hasUp = true
  kept : ∀ {b l s}, l < m.depth → i ∉ m.active d l → φ b (d.source l) s → φ b (d.target l) s
  stepped : ∀ {b l source combined values target r}, l < m.depth → (b = true → σ l ∈ values) →
    φ b (d.source l) source → m.stepProperty d l source combined values target i = .ok r →
    φ b (d.target l) r
  merged : ∀ {b c l s t r}, φ b l s → φ c l t → m.mergeProperty d.side t s i = .ok r → φ (b || c) l r

/-- Everything which a registered property tracks holds of the state. -/
def Model.Tracked (m : Model) (σ : Nat → Int) (b : Bool) (d : Direction) (l i : Nat) (s : State) :
    Prop :=
  i < (m.properties.get d.side).size → ∀ φ, Tracks m σ d i φ → φ b l s

/-- A test lets the labels pass between states of which everything tracked holds. -/
def Model.Lets (m : Model) (σ : Nat → Int) (l : Nat) (check : ArcFacts → Checked Bool) : Prop :=
  ∀ parent combined childUp childCombined, (∀ i, m.Tracked σ true .down l i parent) →
    (∀ up, childUp = some up → ∀ i, m.Tracked σ true .up (l + 1) i up) →
    check ⟨m.view .down parent, combined, childUp.map (m.view .up), childCombined, l, σ l⟩ ≠ .ok false

theorem Checked.allM_ne_false {α : Type} {check : α → Checked Bool} : ∀ {cs : List α},
    (∀ c ∈ cs, check c ≠ .ok false) → cs.allM check ≠ .ok false
  | [], _ => nofun
  | c :: cs, h => by
    rw [List.allM_cons]
    have hc := h c List.mem_cons_self
    have ih := allM_ne_false fun c' hc' => h c' (List.mem_cons_of_mem _ hc')
    cases e : check c with
    | error f => exact nofun
    | ok b =>
      cases b with
      | true => exact ih
      | false => exact absurd e hc

/-- The tracked predicates are a certificate for labels which all tests let pass. -/
def Model.certificate (m : Model) (σ : Nat → Int)
    (lets : ∀ l < m.depth, ∀ check ∈ (m.rules l).arcChecks, m.Lets σ l check) : Certificate m σ where
  holds := m.Tracked σ
  weaken h hi φ hφ := hφ.weaken (h hi φ hφ)
  congr ha h hi φ hφ := hφ.congr ha (h hi φ hφ)
  absent hle hi := absurd hi (Nat.not_lt.2 hle)
  root i _ φ hφ := hφ.start
  sink i _ φ hφ := hφ.start
  blank l i _ φ hφ := hφ.blank rfl l
  idle hup l i _ φ hφ := by
    rw [hφ.hasUp rfl] at hup
    cases hup
  kept hl hi h hlt φ hφ := hφ.kept hl hi (h hlt φ hφ)
  stepped hl hv h hr hlt φ hφ := hφ.stepped hl hv (h hlt φ hφ) hr
  merged h g hr hlt φ hφ := hφ.merged (h hlt φ hφ) (g hlt φ hφ) hr
  admits hl hp hu := Checked.allM_ne_false fun check hc => lets _ hl check hc _ _ _ _ hp hu

/-! ### Numbers and sets -/

/-- A registered property with a transition. -/
structure Spec.Has (t : Spec) (d : Direction) (i : Nat) (q : Property) (s : Slot)
    (run : StepFacts → IntSet → View → Checked View) : Prop where
  check : t.check = .ok ()
  property : (t.properties.get d.side)[i]? = some q
  slot : (t.toModel.layout d.side).slot? i = some s
  kind : s.kind = q.kind
  rule : ∃ reads, q.rule = .transition reads run

namespace Spec.Has

variable {t : Spec} {d : Direction} {i : Nat} {q : Property} {s : Slot}
  {run : StepFacts → IntSet → View → Checked View}

theorem index (h : t.Has d i q s run) : i < (t.toModel.properties.get d.side).size :=
  (Array.getElem?_eq_some_iff.1 h.property).1

theorem sound (h : t.Has d i q s run) : (t.toModel.layout d.side).Sound := sound_layout h.check _

theorem hasUp (h : t.Has d i q s run) (hd : d = .up) : t.toModel.hasUp = true := by
  subst hd
  obtain ⟨reads, hr⟩ := h.rule
  unfold Model.hasUp
  rw [Array.any_eq_true']
  exact ⟨q, Array.mem_of_getElem? h.property, by rw [hr]; rfl⟩

theorem initial (h : t.Has d i q s run) : View.Initial (t.toModel.view d.side (t.toModel.fresh d.side)) s := by
  rw [fresh_toModel]
  exact Layout.initial_fresh h.sound h.slot

end Spec.Has

/-- What is said of the elements of a number or window on each layer. -/
structure Measure where
  /-- Of all states. -/
  all : Nat → Nat → Int → Prop := fun _ _ _ => True
  /-- Of the states which the labels pass through. -/
  own : Nat → Nat → Int → Prop

namespace Measure

variable {t : Spec} {σ : Nat → Int} {d : Direction} {i : Nat} {q : Property} {s : Slot}
  {run : StepFacts → IntSet → View → Checked View} (M : Measure)

/-- The elements are numbers of the range with the properties. -/
def Holds (s : Slot) (b : Bool) (l : Nat) (bits : Nat) : Prop :=
  ∀ e < s.elements, s.number bits e ≤ s.upper ∧ M.all l e (s.number bits e) ∧
    (b = true → M.own l e (s.number bits e))

/-- A merge takes over what is said of the labels from either side. -/
def Merges : Relaxation → Prop
  | .minimum => ∀ {l e x y}, M.own l e x → M.all l e y → M.own l e (min x y)
  | .maximum => ∀ {l e x y}, M.own l e x → M.all l e y → M.own l e (max x y)
  | _ => False

variable {M}

theorem holds_congr {b : Bool} {l x y : Nat}
    (he : ∀ e < s.elements, s.readElement x e = s.readElement y e) (h : M.Holds s b l x) :
    M.Holds s b l y := by
  intro e hlt
  have : s.number y e = s.number x e := by
    unfold Slot.number
    rw [he e hlt]
  rw [this]
  exact h e hlt

/-- What is said on one layer is said on another which asks for less. -/
theorem Holds.mono {b : Bool} {l l' x : Nat} (h : M.Holds s b l x)
    (less : ∀ e y, (M.all l e y → M.all l' e y) ∧ (M.own l e y → M.own l' e y)) : M.Holds s b l' x := by
  intro e he
  obtain ⟨top, all, own⟩ := h e he
  exact ⟨top, (less e _).1 all, fun hb => (less e _).2 (own hb)⟩

theorem holds_pick {pick : Nat → Nat → Nat} {choose : Int → Int → Int} (hn : s.Numeric)
    (hp : ∀ x y, pick x y = x ∨ pick x y = y)
    (hc : ∀ (x y : Nat) (z : Int), z + (pick x y : Int) = choose (z + x) (z + y))
    (comm : ∀ x y, choose x y = choose y x)
    (hm : ∀ {l e x y}, M.own l e x → M.all l e y → M.own l e (choose x y)) {b c : Bool}
    {l x y : Nat} (hx : M.Holds s b l x) (hy : M.Holds s c l y) :
    M.Holds s (b || c) l (s.mergeNumbers pick x y) := by
  intro e he
  have h1 := hx e he
  have h2 := hy e he
  have key : s.number (s.mergeNumbers pick x y) e = choose (s.number x e) (s.number y e) := by
    unfold Slot.number
    rw [hn.readElement_mergeNumbers hp x y he, hc]
  have same : s.number (s.mergeNumbers pick x y) e = s.number x e ∨
      s.number (s.mergeNumbers pick x y) e = s.number y e := by
    unfold Slot.number
    rw [hn.readElement_mergeNumbers hp x y he]
    exact (hp _ _).imp (congrArg _ <| congrArg _ ·) (congrArg _ <| congrArg _ ·)
  refine ⟨?_, ?_, fun hbc => ?_⟩
  · rcases same with e | e <;> rw [e]
    · exact h1.1
    · exact h2.1
  · rcases same with e | e <;> rw [e]
    · exact h1.2.1
    · exact h2.2.1
  · rw [key]
    rcases Bool.or_eq_true_iff.1 hbc with hb | hb
    · exact hm (h1.2.2 hb) h2.2.1
    · rw [comm]
      exact hm (h2.2.2 hb) h1.2.1

/-- A number is tracked if its initial value fits, and its rule takes over what is said. -/
theorem tracks (h : t.Has d i q s run) (hset : q.kind.isSet = false) (hm : M.Merges q.relaxation)
    (hstart : ∀ e < s.elements, M.own (d.start t.toModel) e (max s.lower (min s.upper s.kind.initial)))
    (hall : (∀ l e x, M.all l e x) ∨ d = .down ∧
      ∀ e < s.elements, M.all 0 e (max s.lower (min s.upper s.kind.initial)))
    (hkept : ∀ l < t.toModel.depth, i ∉ t.toModel.active d l → ∀ e x,
      (M.all (d.source l) e x → M.all (d.target l) e x) ∧
        (M.own (d.source l) e x → M.own (d.target l) e x))
    (hstep : ∀ {b l source combined values target w}, l < t.toModel.depth →
      i ∈ t.toModel.active d l → (b = true → σ l ∈ values) → M.Holds s b (d.source l) source.bits →
      run ⟨t.toModel.view d.side source, combined, l, t.toModel.var l⟩ values
        (t.toModel.view d.side target) = .ok w → M.Holds s b (d.target l) w.state.bits) :
    Tracks t.toModel σ d i fun b l r => M.Holds s b l r.bits := by
  have hn : s.Numeric := h.sound.numeric h.slot (h.kind ▸ hset)
  have hinit : ∀ e < s.elements, s.number (t.toModel.fresh d.side).bits e =
      max s.lower (min s.upper s.kind.initial) := by
    have := h.initial
    unfold View.Initial at this
    rw [if_neg (by rw [hn.isSet]; exact Bool.false_ne_true)] at this
    exact this
  have hle := hn.lower_le_upper
  constructor
  · intro l r hr e he
    obtain ⟨h1, h2, -⟩ := hr e he
    exact ⟨h1, h2, nofun⟩
  · intro b l r r' ha
    refine holds_congr ?_
    have := ha s h.slot
    rw [Slot.agree_iff, if_neg (by rw [hn.isSet]; exact Bool.false_ne_true)] at this
    exact this
  · intro e he
    rw [hinit e he]
    refine ⟨by omega, ?_, fun _ => hstart e he⟩
    rcases hall with hall | ⟨rfl, hall⟩
    · exact hall _ _ _
    · exact hall e he
  · rintro rfl l e he
    rw [show s.number (t.toModel.fresh .up).bits e = _ from hinit e he]
    refine ⟨by omega, ?_, nofun⟩
    rcases hall with hall | ⟨hd, -⟩
    · exact hall _ _ _
    · cases hd
  · exact h.hasUp
  · exact fun hl hi hr => hr.mono (hkept _ hl hi)
  · intro b l source combined values target r hl hv hs hr
    by_cases hi : i ∈ t.toModel.active d l
    · obtain ⟨reads, hrule⟩ := h.rule
      obtain ⟨w, hw, rfl⟩ := Spec.stepProperty_active h.property hi hr hrule
      exact hstep hl hi hv hs hw
    · rw [Spec.stepProperty_idle hi hr h.slot]
      exact holds_congr (x := source.bits) (fun e he => (hn.readElement_copy _ _ he).symm) (hs.mono (hkept l hl hi))
  · intro b c l x y r hx hy hr
    unfold Model.mergeProperty at hr
    rw [Spec.relaxation_toModel h.property, h.slot] at hr
    cases hrel : q.relaxation <;> rw [hrel] at hr hm
    · rw [← Except.ok.inj hr]
      exact holds_pick hn (fun x y => by omega) (fun x y z => by omega) Int.min_comm hm hx hy
    · rw [← Except.ok.inj hr]
      exact holds_pick hn (fun x y => by omega) (fun x y z => by omega) Int.max_comm hm hx hy
    · exact hm.elim
    · exact hm.elim
    · exact hm.elim

/-! Reading and writing what is tracked. -/

section

variable {v : View} {b : Bool} {l e : Nat}

theorem Holds.integer {a lo hi : Int} (hs : v.slot? i = some s) (hk : s.kind = .integer a lo hi)
    (h : M.Holds s b l v.state.bits) :
    M.all l 0 (v.integer i) ∧ (b = true → M.own l 0 (v.integer i)) := by
  obtain ⟨hle, h⟩ := h 0 (by simp [Slot.elements, hk])
  rwa [View.integer_eq hs hk hle]

theorem holds_setInteger {a lo hi : Int} (hl : v.layout.Sound) (hs : v.slot? i = some s)
    (hk : s.kind = .integer a lo hi) {x : Int} (hall : M.all l 0 (max lo (min hi x)))
    (hown : b = true → M.own l 0 (max lo (min hi x))) :
    M.Holds s b l (v.setInteger i x).state.bits := by
  have hn : s.Numeric := hl.numeric hs (by rw [hk]; rfl)
  have hle := hn.lower_le_upper
  have hlo : s.lower = lo := by simp [Slot.lower, hk]
  have hhi : s.upper = hi := by simp [Slot.upper, hk]
  intro e he
  obtain rfl : e = 0 := by simpa [Slot.elements, hk] using he
  rw [View.number_setInteger hl hs hk]
  exact ⟨by omega, hall, hown⟩

theorem Holds.flag {x : Bool} (hs : v.slot? i = some s) (hk : s.kind = .flag x)
    (h : M.Holds s b l v.state.bits) : b = true → M.own l 0 ((v.flag i).toNat : Int) := by
  obtain ⟨hle, -, h⟩ := h 0 (by simp [Slot.elements, hk])
  have hge := s.lower_le_number v.state.bits 0
  have hlo : s.lower = 0 := by simp [Slot.lower, hk]
  have hhi : s.upper = 1 := by simp [Slot.upper, hk]
  have hf := View.flag_eq hs hk
  have e : ((v.flag i).toNat : Int) = s.number v.state.bits 0 := by
    cases hv : v.flag i with
    | true =>
      rw [hf.1 hv]
      rfl
    | false =>
      have : s.number v.state.bits 0 ≠ 1 := fun h1 => by
        rw [hf.2 h1] at hv
        cases hv
      show (0 : Int) = _
      omega
  rwa [e]

theorem holds_setFlag {y : Bool} (hs : v.slot? i = some s)
    (hk : s.kind = .flag y) {x : Bool} (hall : ∀ z, M.all l 0 z)
    (hown : b = true → M.own l 0 (x.toNat : Int)) : M.Holds s b l (v.setFlag i x).state.bits := by
  intro e he
  obtain rfl : e = 0 := by simpa [Slot.elements, hk] using he
  have hhi : s.upper = 1 := by simp [Slot.upper, hk]
  rw [View.number_setFlag hs hk]
  refine ⟨?_, hall _, hown⟩
  rw [hhi]
  cases x <;> decide

theorem Holds.windowElement {length : Nat} {a lo hi : Int} (hs : v.slot? i = some s)
    (hk : s.kind = .window length a lo hi) (h : M.Holds s b l v.state.bits) (he : e < length) :
    b = true → M.own l e (v.windowElement i e) := by
  obtain ⟨hle, -, h⟩ := h e (by simpa [Slot.elements, hk] using he)
  rwa [View.windowElement_eq hs hk hle]

end

end Measure

/-- What is said of a set for the labels: which elements it has at least, if it is merged by union, or at
most, if it is merged by intersection. -/
def Bounds (r : Relaxation) (R : Nat → Nat → Prop) (s : Slot) (b : Bool) (l : Nat) (bits : Nat) :
    Prop :=
  b = true → ∀ e,
    match r with
    | .union => R l e → e ∈ s.readSet bits
    | .intersection => e ∈ s.readSet bits → R l e
    | _ => True

namespace Bounds

variable {t : Spec} {σ : Nat → Int} {d : Direction} {i : Nat} {q : Property} {s : Slot}
  {run : StepFacts → IntSet → View → Checked View} {R : Nat → Nat → Prop}

/-- What is said of a set depends on its elements only. -/
theorem congr {r : Relaxation} {b : Bool} {l l' x y : Nat} (hr : r = .union ∨ r = .intersection)
    (hR : ∀ e, R l e ↔ R l' e) (hxy : ∀ e, e ∈ s.readSet x ↔ e ∈ s.readSet y) (h : Bounds r R s b l x) :
    Bounds r R s b l' y := by
  intro hb e
  have he := h hb e
  rcases hr with rfl | rfl
  · exact fun inside => (hxy e).1 (he ((hR e).2 inside))
  · exact fun inside => (hR e).1 (he ((hxy e).2 inside))

/-- The merge of two sets keeps what is said of either. -/
theorem merged {b c : Bool} {l : Nat} {x y r : State} (h : t.Has d i q s run) (hset : s.kind.isSet = true)
    (hrel : q.relaxation = .union ∨ q.relaxation = .intersection) (hx : Bounds q.relaxation R s b l x.bits)
    (hy : Bounds q.relaxation R s c l y.bits) (hr : t.toModel.mergeProperty d.side y x i = .ok r) :
    Bounds q.relaxation R s (b || c) l r.bits := by
  unfold Model.mergeProperty at hr
  rw [Spec.relaxation_toModel h.property, h.slot] at hr
  intro hbc e
  rcases hrel with hq | hq <;> rw [hq] at hr hx hy ⊢ <;> obtain rfl := Except.ok.inj hr
  · intro he
    apply (Slot.mem_mergeSet hset _ _).2
    rcases Bool.or_eq_true_iff.1 hbc with hb | hc
    · have := hx hb e he
      exact ⟨(Slot.mem_readSet.1 this).1, IndexSet.mem_union.2 (Or.inl this)⟩
    · have := hy hc e he
      exact ⟨(Slot.mem_readSet.1 this).1, IndexSet.mem_union.2 (Or.inr this)⟩
  · intro he
    obtain ⟨inX, inY⟩ := IndexSet.mem_inter.1 ((Slot.mem_mergeSet hset _ _).1 he).2
    rcases Bool.or_eq_true_iff.1 hbc with hb | hc
    · exact hx hb e inX
    · exact hy hc e inY

/-- A set is tracked if its rule takes over what is said. -/
theorem tracks (h : t.Has d i q s run) (hset : q.kind.isSet = true)
    (hrel : q.relaxation = .union ∨ q.relaxation = .intersection)
    (hstart : ∀ e, ¬ R (d.start t.toModel) e)
    (hkept : ∀ l < t.toModel.depth, i ∉ t.toModel.active d l → ∀ e,
      R (d.source l) e ↔ R (d.target l) e)
    (hstep : ∀ {b l source combined values target w}, l < t.toModel.depth →
      i ∈ t.toModel.active d l → (b = true → σ l ∈ values) →
      Bounds q.relaxation R s b (d.source l) source.bits →
      run ⟨t.toModel.view d.side source, combined, l, t.toModel.var l⟩ values
        (t.toModel.view d.side target) = .ok w → Bounds q.relaxation R s b (d.target l) w.state.bits) :
    Tracks t.toModel σ d i fun b l r => Bounds q.relaxation R s b l r.bits := by
  have hset' : s.kind.isSet = true := h.kind ▸ hset
  have hinit : ∀ e, e ∉ s.readSet (t.toModel.fresh d.side).bits := by
    have := h.initial
    unfold View.Initial at this
    rw [if_pos hset'] at this
    exact this
  constructor
  · exact fun _ => nofun
  · intro b l x y ha
    have same := ha s h.slot
    rw [Slot.agree_iff, if_pos hset'] at same
    exact congr hrel (fun _ => Iff.rfl) same
  · intro _ e
    rcases hrel with hr | hr <;> rw [hr]
    · exact fun he => absurd he (hstart e)
    · exact fun he => absurd he (hinit e)
  · exact fun _ _ => nofun
  · exact h.hasUp
  · exact fun hl hi => congr hrel (hkept _ hl hi) fun _ => Iff.rfl
  · intro b l source combined values target r hl hv hs hr
    by_cases hi : i ∈ t.toModel.active d l
    · obtain ⟨reads, hrule⟩ := h.rule
      obtain ⟨w, hw, rfl⟩ := Spec.stepProperty_active h.property hi hr hrule
      exact hstep hl hi hv hs hw
    · rw [Spec.stepProperty_idle hi hr h.slot]
      exact congr hrel (hkept l hl hi) (fun e => (Slot.readSet_copy hset' _ _).symm) hs
  · exact merged h hset' hrel

end Bounds

end DecisionDiagrams
