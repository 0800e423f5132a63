import DecisionDiagrams.Proofs.Spec.Declared
import DecisionDiagrams.Proofs.Spec.Registered

/-! Rules by which a bundle of labels leads where its labels lead one by one, merged. The transition over one
label always gives a result, which depends on nothing but the property itself; over several labels the
result is the least value above those of the labels. -/

namespace DecisionDiagrams

/-! ### Reading one property -/

theorem Slot.agree_of_number {s : Slot} {a b : Nat} (hs : s.kind.isSet = false)
    (h : ∀ e < s.elements, s.number a e = s.number b e) : s.agree a b = true := by
  rw [Slot.agree_iff, if_neg (by rw [hs]; exact Bool.false_ne_true)]
  intro e he
  have := h e he
  unfold Slot.number at this
  omega

theorem Slot.number_of_agree {s : Slot} {a b e : Nat} (hs : s.kind.isSet = false)
    (h : s.agree a b = true) (he : e < s.elements) : s.readElement a e = s.readElement b e := by
  rw [Slot.agree_iff, if_neg (by rw [hs]; exact Bool.false_ne_true)] at h
  exact h e he

namespace View

variable {v w : View} {i : Nat} {s : Slot}

theorem integer_congr (hv : v.slot? i = some s) (hw : w.slot? i = some s)
    (h : s.agree v.state.bits w.state.bits = true) : v.integer i = w.integer i := by
  unfold integer
  rw [hv, hw]
  dsimp only
  cases hk : s.kind with
  | integer a lo hi =>
    dsimp only
    rw [Slot.number_of_agree (by rw [hk]; rfl) h (by simp [Slot.elements, hk])]
  | _ => rfl

theorem flag_congr (hv : v.slot? i = some s) (hw : w.slot? i = some s)
    (h : s.agree v.state.bits w.state.bits = true) : v.flag i = w.flag i := by
  unfold flag
  rw [hv, hw]
  dsimp only
  cases hk : s.kind with
  | flag b =>
    dsimp only
    rw [Slot.number_of_agree (by rw [hk]; rfl) h (by simp [Slot.elements, hk])]
  | _ => rfl

theorem windowElement_congr (hv : v.slot? i = some s) (hw : w.slot? i = some s)
    (h : s.agree v.state.bits w.state.bits = true) {e : Nat} (he : e < s.elements) :
    v.windowElement i e = w.windowElement i e := by
  unfold windowElement
  rw [hv, hw]
  dsimp only
  cases hk : s.kind with
  | window length a lo hi =>
    dsimp only
    rw [Slot.number_of_agree (by rw [hk]; rfl) h he]
  | _ => rfl

/-- Equal integers make the property equal. -/
theorem agree_setInteger (hv : v.layout.Sound) (hw : w.layout.Sound) (hvs : v.slot? i = some s)
    (hws : w.slot? i = some s) {a lo hi : Int} (hk : s.kind = .integer a lo hi) (x : Int) :
    s.agree (v.setInteger i x).state.bits (w.setInteger i x).state.bits = true := by
  refine Slot.agree_of_number (by rw [hk]; rfl) fun e he => ?_
  obtain rfl : e = 0 := by simpa [Slot.elements, hk] using he
  rw [number_setInteger hv hvs hk, number_setInteger hw hws hk]

theorem agree_setFlag (hvs : v.slot? i = some s) (hws : w.slot? i = some s) {b : Bool}
    (hk : s.kind = .flag b) (x : Bool) :
    s.agree (v.setFlag i x).state.bits (w.setFlag i x).state.bits = true := by
  refine Slot.agree_of_number (by rw [hk]; rfl) fun e he => ?_
  obtain rfl : e = 0 := by simpa [Slot.elements, hk] using he
  rw [number_setFlag hvs hk, number_setFlag hws hk]

/-- The elements of a window belong to the words of the state. -/
theorem reaches_of_lt (hl : v.layout.Sound) (hs : v.slot? i = some s) (hset : s.kind.isSet = false)
    {e : Nat} (he : e < s.elements) : v.reaches i e = true := by
  have hn := hl.numeric hs hset
  have h1 := hn.elementOffset_le_finish he
  have h2 := hl.within i s hs
  have h3 := hn.width_pos
  unfold reaches
  rw [hs, decide_eq_true_eq, Layout.words, wordsFor, wordBits]
  omega

theorem elementAt_of_lt (hl : v.layout.Sound) (hs : v.slot? i = some s)
    (hset : s.kind.isSet = false) {e : Nat} (he : e < s.elements) (h32 : e < 0x100000000) :
    v.elementAt i e = .ok (v.windowElement i e) := by
  unfold elementAt
  dsimp only
  rw [windowPlace_natCast h32, if_pos (reaches_of_lt hl hs hset he)]

theorem putElementAt_of_lt (hl : v.layout.Sound) (hs : v.slot? i = some s)
    (hset : s.kind.isSet = false) {e : Nat} (he : e < s.elements) (h32 : e < 0x100000000) (x : Int) :
    v.putElementAt i e x = .ok (v.setWindowElement i e x) := by
  unfold putElementAt
  dsimp only
  rw [windowPlace_natCast h32, if_pos (reaches_of_lt hl hs hset he)]

/-- A window can be moved. -/
theorem exists_moveBack {length : Nat} {a lo hi : Int} {source : View}
    (hk : s.kind = .window length a lo hi) (h32 : length < 0x100000000)
    (hsl : source.layout.Sound) (hss : source.slot? i = some s) : ∀ {n : Nat} {v : View},
    v.layout.Sound → v.slot? i = some s → n < length → ∃ w, source.moveBack i i n v = .ok w
  | 0, v, _, _, _ => ⟨v, rfl⟩
  | count + 1, v, hl, hs, hc => by
    have hset : s.kind.isSet = false := by rw [hk]; rfl
    have hel : s.elements = length := by simp [Slot.elements, hk]
    have hget := elementAt_of_lt hsl hss hset (e := count) (by omega) (by omega)
    have hput : v.putElementAt i ((count : Int) + 1) (source.windowElement i count) =
        .ok (v.setWindowElement i (count + 1) (source.windowElement i count)) :=
      putElementAt_of_lt hl hs hset (e := count + 1) (by omega) (by omega) _
    have hw := writes_setWindowElement (e := count + 1) hl hs (by omega)
      (source.windowElement i count)
    obtain ⟨w, hw'⟩ := exists_moveBack hk h32 hsl hss (n := count)
      (v := v.setWindowElement i (count + 1) (source.windowElement i count)) (by rw [hw.1]; exact hl)
      ((hw.slot? i).trans hs) (by omega)
    refine ⟨w, ?_⟩
    unfold moveBack
    rw [hget]
    show (v.putElementAt i ((count : Int) + 1) _ >>= fun out => source.moveBack i i count out) = _
    rw [hput]
    exact hw'

theorem exists_shiftIn {length : Nat} {a lo hi : Int} {source : View}
    (hk : s.kind = .window length a lo hi) (h32 : length < 0x100000000) (hpos : 0 < length)
    (hsl : source.layout.Sound) (hss : source.slot? i = some s) (hl : v.layout.Sound)
    (hs : v.slot? i = some s) (x : Int) : ∃ w, source.shiftIn i i length x v = .ok w := by
  obtain ⟨moved, hm⟩ := exists_moveBack hk h32 hsl hss (n := length - 1) hl hs (by omega)
  have hw := (moveBack_ok hk h32 hl hs (by omega) hm).1
  have hset : s.kind.isSet = false := by rw [hk]; rfl
  refine ⟨moved.setWindowElement i 0 x, ?_⟩
  unfold shiftIn
  rw [hm]
  exact putElementAt_of_lt (e := 0) (by rw [hw.1]; exact hl) ((hw.slot? i).trans hs) hset
    (by simp [Slot.elements, hk]; omega) (by decide) x

end View

/-- States which are alike in a property have the same number there. -/
theorem Model.Alike.integer {m : Model} {side : Side} {i : Nat} {s t : State} (h : m.Alike side i s t) :
    (m.view side s).integer i = (m.view side t).integer i := by
  cases hs : (m.layout side).slot? i with
  | none =>
    have absent : ∀ u, (m.view side u).slot? i = none := fun _ => hs
    unfold View.integer
    rw [absent, absent]
  | some slot => exact View.integer_congr (v := m.view side s) (w := m.view side t) hs hs (h slot hs)

/-! ### Rules -/

/-- The transition of a property reads the property alone and always gives a result. Over several labels
this is the least value above the results over one label. `V` says which labels the variables have. -/
structure Property.Joins (q : Property) (i : Nat) (V : Var → Int → Prop) : Prop where
  fits : q.relaxation.supports q.kind = true
  total : ∀ {reads run}, q.rule = .transition reads run → ∀ {layout : Layout} {source target : State}
    {s : Slot} {c l x} {values : IntSet}, layout.Sound → layout.slot? i = some s → s.kind = q.kind →
    ∃ w, run ⟨⟨layout, source⟩, c, l, x⟩ values ⟨layout, target⟩ = .ok w
  least : ∀ {reads run}, q.rule = .transition reads run → ∀ {layout : Layout}
    {source source' target : State} {X : Nat} {s : Slot} {c c' l x} {values : IntSet} {w : View},
    layout.Sound → layout.slot? i = some s → s.kind = q.kind →
    s.agree source.bits source'.bits = true → (∃ v, v ∈ values) →
    (∀ v ∈ values, V x v ∨ values = .singleton v) →
    run ⟨⟨layout, source⟩, c, l, x⟩ values ⟨layout, target⟩ = .ok w →
    (s.Below q.relaxation w.state.bits X ↔ ∀ v ∈ values, ∀ target' w',
      run ⟨⟨layout, source'⟩, c', l, x⟩ (.singleton v) ⟨layout, target'⟩ = .ok w' →
      s.Below q.relaxation w'.state.bits X)

namespace Property.Joins

variable {q : Property} {i : Nat} {V : Var → Int → Prop} {reads : List PropertyRef}

/-- Over one label the result is the same from equal values, whatever else is in the states. -/
theorem agree {run : StepFacts → IntSet → View → Checked View} (h : q.Joins i V)
    (hrule : q.rule = .transition reads run) {layout : Layout} {source source' target target' : State}
    {s : Slot} {c c' l x} {v : Int} {w w' : View} (hl : layout.Sound) (hs : layout.slot? i = some s)
    (hk : s.kind = q.kind) (ha : s.agree source.bits source'.bits = true)
    (hw : run ⟨⟨layout, source⟩, c, l, x⟩ (.singleton v) ⟨layout, target⟩ = .ok w)
    (hw' : run ⟨⟨layout, source'⟩, c', l, x⟩ (.singleton v) ⟨layout, target'⟩ = .ok w') :
    s.agree w.state.bits w'.state.bits = true := by
  have fits : q.relaxation.supports s.kind = true := hk ▸ h.fits
  have hv : v ∈ IntSet.singleton v := IntSet.mem_singleton.2 rfl
  have one : ∀ u ∈ IntSet.singleton v, V x u ∨ IntSet.singleton v = .singleton u := fun u hu =>
    Or.inr (IntSet.mem_singleton.1 hu ▸ rfl)
  have self : ∀ a, s.Below q.relaxation a a := fun a => Slot.below_of_agree fits (s.agree_self a)
  refine Slot.agree_of_below fits ?_ ?_
  · exact (h.least hrule hl hs hk (Slot.agree_symm ha) ⟨v, hv⟩ one hw').1 (self _) v hv _ _ hw
  · exact (h.least hrule hl hs hk ha ⟨v, hv⟩ one hw).1 (self _) v hv _ _ hw'

/-- It is enough that a bundle leads where one of its labels leads, and that this is above where the others
lead. -/
theorem of_pick {run : StepFacts → IntSet → View → Checked View} (hrule : q.rule = .transition reads run)
    (fits : q.relaxation.supports q.kind = true)
    (total : ∀ {layout : Layout} {source target : State} {s : Slot} {c l x} {values : IntSet},
      layout.Sound → layout.slot? i = some s → s.kind = q.kind →
      ∃ w, run ⟨⟨layout, source⟩, c, l, x⟩ values ⟨layout, target⟩ = .ok w)
    (pick : ∀ {layout : Layout} {source source' target target' : State} {s : Slot} {c c' l x}
      {values : IntSet}, layout.Sound → layout.slot? i = some s → s.kind = q.kind →
      s.agree source.bits source'.bits = true → (∃ v, v ∈ values) →
      ∃ v ∈ values, ∀ w w', run ⟨⟨layout, source⟩, c, l, x⟩ values ⟨layout, target⟩ = .ok w →
        run ⟨⟨layout, source'⟩, c', l, x⟩ (.singleton v) ⟨layout, target'⟩ = .ok w' →
        s.agree w.state.bits w'.state.bits = true)
    (bound : ∀ {layout : Layout} {source source' target target' : State} {s : Slot} {c c' l x}
      {values : IntSet} {v : Int} {w w' : View}, layout.Sound → layout.slot? i = some s →
      s.kind = q.kind → s.agree source.bits source'.bits = true → v ∈ values →
      run ⟨⟨layout, source⟩, c, l, x⟩ values ⟨layout, target⟩ = .ok w →
      run ⟨⟨layout, source'⟩, c', l, x⟩ (.singleton v) ⟨layout, target'⟩ = .ok w' →
      s.Below q.relaxation w'.state.bits w.state.bits) : q.Joins i V where
  fits := fits
  total h layout source target s c l x values hl hs hk := by
    obtain ⟨-, rfl⟩ := Rule.transition.inj (hrule.symm.trans h)
    exact total hl hs hk
  least h layout source source' target X s c c' l x values w hl hs hk ha hne _ hw := by
    obtain ⟨-, rfl⟩ := Rule.transition.inj (hrule.symm.trans h)
    refine ⟨fun hX v hv target' w' hw' => (bound hl hs hk ha hv hw hw').trans hX, fun hX => ?_⟩
    obtain ⟨v, hv, same⟩ : ∃ v ∈ values, ∀ w w',
        run ⟨⟨layout, source⟩, c, l, x⟩ values ⟨layout, target⟩ = .ok w →
        run ⟨⟨layout, source'⟩, c', l, x⟩ (.singleton v) ⟨layout, target⟩ = .ok w' →
        s.agree w.state.bits w'.state.bits = true := pick hl hs hk ha hne
    obtain ⟨w', hw'⟩ : ∃ w', run ⟨⟨layout, source'⟩, c', l, x⟩ (.singleton v) ⟨layout, target⟩ = .ok w' :=
      total hl hs hk
    exact (Slot.below_of_agree (hk ▸ fits) (same w w' hw hw')).trans (hX v hv target w' hw')

/-- An integer which is set to a number made of the old one and of the labels. -/
theorem of_integer {g : Nat → Int → IntSet → Int} {a lo hi : Int}
    (hrule : q.rule = .transition reads fun input values out =>
      .ok (out.setInteger i (g input.layer (input.source.integer i) values)))
    (hk : q.kind = .integer a lo hi) (fits : q.relaxation.supports q.kind = true)
    (pick : ∀ l x {values : IntSet}, (∃ v, v ∈ values) →
      ∃ v ∈ values, g l x values = g l x (.singleton v))
    (bound : ∀ l x {values : IntSet} {v : Int}, v ∈ values →
      q.relaxation.Below (g l x (.singleton v)) (g l x values)) : q.Joins i V := by
  refine .of_pick hrule fits (fun _ _ _ => ⟨_, rfl⟩)
    (fun {layout source source' target target' s c c' l x values} hl hs hks ha hne => ?_)
    fun {layout source source' target target' s c c' l x values v w w'} hl hs hks ha hv hw hw' => ?_
  · have same := View.integer_congr (v := ⟨layout, source⟩) (w := ⟨layout, source'⟩) hs hs ha
    obtain ⟨v, hv, e⟩ := pick l ((⟨layout, source'⟩ : View).integer i) hne
    refine ⟨v, hv, fun w w' hw hw' => ?_⟩
    obtain rfl := Except.ok.inj hw
    obtain rfl := Except.ok.inj hw'
    dsimp only
    rw [same, e]
    exact View.agree_setInteger (v := ⟨layout, target⟩) (w := ⟨layout, target'⟩) hl hl hs hs
      (hks.trans hk) _
  · have same := View.integer_congr (v := ⟨layout, source⟩) (w := ⟨layout, source'⟩) hs hs ha
    obtain rfl := Except.ok.inj hw
    obtain rfl := Except.ok.inj hw'
    have kind : s.kind = .integer a lo hi := hks.trans hk
    refine Slot.below_of_number (hks ▸ fits) (by rw [kind]; rfl) fun e he => ?_
    obtain rfl : e = 0 := by simpa [Slot.elements, kind] using he
    dsimp only
    rw [View.number_setInteger (v := ⟨layout, target⟩) hl hs kind,
      View.number_setInteger (v := ⟨layout, target'⟩) hl hs kind, same]
    exact (bound l _ hv).clamp lo hi

/-- A flag which is set to what is made of the old one and of the labels. -/
theorem of_flag {g : Bool → IntSet → Bool} {b : Bool}
    (hrule : q.rule = .transition reads fun input values out =>
      .ok (out.setFlag i (g (input.source.flag i) values)))
    (hk : q.kind = .flag b) (fits : q.relaxation.supports q.kind = true)
    (pick : ∀ x {values : IntSet}, (∃ v, v ∈ values) →
      ∃ v ∈ values, g x values = g x (.singleton v))
    (bound : ∀ x {values : IntSet} {v : Int}, v ∈ values →
      q.relaxation.Below (g x (.singleton v)).toNat (g x values).toNat) : q.Joins i V := by
  refine .of_pick hrule fits (fun _ _ _ => ⟨_, rfl⟩)
    (fun {layout source source' target target' s c c' l x values} hl hs hks ha hne => ?_)
    fun {layout source source' target target' s c c' l x values v w w'} hl hs hks ha hv hw hw' => ?_
  · have same := View.flag_congr (v := ⟨layout, source⟩) (w := ⟨layout, source'⟩) hs hs ha
    obtain ⟨v, hv, e⟩ := pick ((⟨layout, source'⟩ : View).flag i) hne
    refine ⟨v, hv, fun w w' hw hw' => ?_⟩
    obtain rfl := Except.ok.inj hw
    obtain rfl := Except.ok.inj hw'
    dsimp only
    rw [same, e]
    exact View.agree_setFlag (v := ⟨layout, target⟩) (w := ⟨layout, target'⟩) hs hs (hks.trans hk) _
  · have same := View.flag_congr (v := ⟨layout, source⟩) (w := ⟨layout, source'⟩) hs hs ha
    obtain rfl := Except.ok.inj hw
    obtain rfl := Except.ok.inj hw'
    have kind : s.kind = .flag b := hks.trans hk
    refine Slot.below_of_number (hks ▸ fits) (by rw [kind]; rfl) fun e he => ?_
    obtain rfl : e = 0 := by simpa [Slot.elements, kind] using he
    dsimp only
    rw [View.number_setFlag (v := ⟨layout, target⟩) hs kind,
      View.number_setFlag (v := ⟨layout, target'⟩) hs kind, same]
    exact bound _ hv

end Property.Joins

/-! ### Models -/

/-- Over a bundle of labels property `i` becomes the least value above what the labels make of it. `B` says which
bundles of labels a layer has. -/
structure Model.Sums (m : Model) (d : Direction) (B : Nat → IntSet → Prop) (i : Nat) : Prop
    extends m.Certain d i where
  grouped : ∀ {l s combined values target r X}, l < m.depth → (∃ v, v ∈ values) → B l values →
    m.stepProperty d l s combined values target i = .ok r →
    (m.Below d.side i r X ↔ ∀ v ∈ values, ∀ t, m.Yields d l s v i t → m.Below d.side i t X)

/-- A property which is certain sums up what single labels make of it. -/
theorem Model.Certain.sums {m : Model} {d : Direction} {i : Nat} (h : m.Certain d i) (hm : m.Lattice d.side) :
    m.Sums d (fun _ values => ∃ v, values = .singleton v) i where
  toCertain := h
  grouped := by
    rintro l s combined _ target r X - - ⟨v, rfl⟩ hr
    rw [h.below_iff_yields hm ⟨combined, target, r, hr, .refl _ _ _ _⟩]
    simp only [IntSet.mem_singleton, forall_eq]

/-- Over a bundle of labels a property becomes the least value above what the labels make of it. The labels
of a layer are those for which `D` holds. -/
structure Model.Joined (m : Model) (d : Direction) (D : Nat → Int → Prop) : Prop
    extends m.Declared d where
  total : ∀ l s v i, ∃ t, m.Yields d l s v i t
  grouped : ∀ {l i s combined values target r X}, l < m.depth → (∃ v, v ∈ values) →
    (∀ v ∈ values, D l v) → m.stepProperty d l s combined values target i = .ok r →
    (m.Below d.side i r X ↔ ∀ v ∈ values, ∀ t, m.Yields d l s v i t → m.Below d.side i t X)

/-- Transitions over one label always give a result, and in the properties for which `P` holds it depends on what
these look at, and on nothing else. -/
structure Model.Sure (m : Model) (d : Direction) (P : Nat → Prop) : Prop
    extends m.Separate d, m.Lattice d.side where
  total : ∀ l s combined v, ∃ r, m.step d l s combined (.singleton v) = .ok r
  certain : ∀ i, P i → m.Certain d i

theorem Model.Joined.sure {m : Model} {d : Direction} {D : Nat → Int → Prop} (h : m.Joined d D) :
    m.Sure d fun _ => True where
  toSeparate := h.toSeparate
  toLattice := h.toLattice
  total l s combined v := h.exists_step (h.total l s v) combined
  certain i _ := h.certain i

theorem Model.Joined.sums {m : Model} {d : Direction} {D : Nat → Int → Prop} (h : m.Joined d D) (i : Nat) :
    m.Sums d (fun l values => ∀ v ∈ values, D l v) i where
  toCertain := h.certain i
  grouped hl hne hD hr := h.grouped hl hne hD hr

/-! ### Exact states along labels -/

namespace Model

/-- Down states along labels, each computed from the one above. -/
structure Follows (m : Model) (σ : Nat → Int) (S : Nat → State) : Prop where
  start : ∀ i, m.Alike .down i (m.fresh .down) (S 0)
  next : ∀ {l}, l + 1 < m.depth → ∀ i, m.Yields .down l (S l) (σ l) i (S (l + 1))

/-- A property which no layer from `l` on computes is as in a fresh state. -/
def Clear (m : Model) (l i : Nat) (u : State) : Prop :=
  (∀ k, l ≤ k → k < m.depth → i ∉ m.active .up k) → m.Alike .up i (m.fresh .up) u

/-- A test lets the label of a layer pass, for the state above and some state below. -/
def Passes (m : Model) (σ : Nat → Int) (S : Nat → State) (l : Nat)
    (check : ArcFacts → Checked Bool) : Prop :=
  ∃ s up, (∀ i, m.Alike .down i (S l) s) ∧ (∀ u, up = some u → ∀ i, m.Clear (l + 1) i u) ∧
    check ⟨m.view .down s, none, up.map (m.view .up), none, l, σ l⟩ = .ok true

end Model

/-! ### Specifications -/

namespace Spec

variable {t : Spec} {D : Var → Int → Prop} {d : Direction} {i l : Nat} {q : Property}

/-- Every property of down and up states joins the labels of the variables of its constraint. -/
structure Joined (D : Var → Int → Prop) (t : Spec) : Prop where
  property : ∀ (d : Direction) {i} {q : Property}, (t.properties.get d.side)[i]? = some q →
    ∃ name vars, t.scopes[q.constraint]? = some ⟨name, vars⟩ ∧
      q.Joins i fun x v => x ∈ vars ∧ D x v

section

variable (hc : t.check = .ok ())
  (hj : ∀ {q : Property}, (t.properties.get d.side)[i]? = some q → ∃ V, q.Joins i V)
include hc hj

/-- A property which joins labels can be computed. -/
theorem exists_stepProperty_of_joins (l : Nat) (source : State) (combined : Option State) (values : IntSet)
    (target : State) : ∃ r, t.toModel.stepProperty d l source combined values target i = .ok r := by
  by_cases hi : i ∈ t.toModel.active d l
  · obtain ⟨q, hq, htrans, -⟩ := (mem_active (lt_of_mem_active hi)).1 hi
    obtain ⟨reads, run, hrule⟩ := Rule.exists_of_isTransition htrans
    obtain ⟨slot, hslot, hk⟩ := slot_of_property hq
    obtain ⟨V, hj⟩ := hj hq
    obtain ⟨w, hw⟩ : ∃ w, run ⟨t.toModel.view d.side source, combined.map (t.toModel.view .combined), l,
        t.toModel.var l⟩ values (t.toModel.view d.side target) = .ok w :=
      hj.total hrule (sound_layout hc d.side) hslot hk
    exact ⟨w.state, stepProperty_of_run hq hi hrule hw⟩
  · obtain ⟨r, hr, -⟩ := exists_stepProperty_idle hc hi source combined values target
    exact ⟨r, hr⟩

/-- What it becomes depends on the property alone. -/
theorem alike_stepProperty_of_joins (hi : i ∈ t.toModel.active d l)
    {source source' target target' r r' : State} {combined combined' : Option State} {v : Int}
    (hs : t.toModel.Alike d.side i source source')
    (hr : t.toModel.stepProperty d l source combined (.singleton v) target i = .ok r)
    (hr' : t.toModel.stepProperty d l source' combined' (.singleton v) target' i = .ok r') :
    t.toModel.Alike d.side i r r' := by
  intro slot hslot
  obtain ⟨q, hq, htrans, -⟩ := (mem_active (lt_of_mem_active hi)).1 hi
  obtain ⟨reads, run, hrule⟩ := Rule.exists_of_isTransition htrans
  obtain ⟨slot', hslot', hk⟩ := slot_of_property hq
  obtain rfl := Option.some.inj (hslot'.symm.trans hslot)
  obtain ⟨V, hj⟩ := hj hq
  obtain ⟨w, hw, rfl⟩ := stepProperty_active hq hi hr hrule
  obtain ⟨w', hw', rfl⟩ := stepProperty_active hq hi hr' hrule
  exact hj.agree hrule (sound_layout hc d.side) hslot hk (hs slot' hslot) hw hw'

end

namespace Joined

variable (h : t.Joined D) (hc : t.check = .ok ())
include h

theorem joins {q : Property} (hq : (t.properties.get d.side)[i]? = some q) : ∃ V, q.Joins i V := by
  obtain ⟨_, _, _, hj⟩ := h.property d hq
  exact ⟨_, hj⟩

include hc

theorem exists_yields (d : Direction) (l : Nat) (s : State) (v : Int) (i : Nat) :
    ∃ u, t.toModel.Yields d l s v i u := by
  obtain ⟨r, hr⟩ := exists_stepProperty_of_joins hc h.joins l s none (.singleton v) s
  exact ⟨r, none, s, r, hr, .refl _ _ _ _⟩

theorem declared (hlocal : t.Local) (d : Direction) : t.toModel.Declared d where
  toSeparate := separate hc hlocal.property
  toLattice := lattice hc fun hq => (hlocal.property hq).builtIn
  certain i := by
    refine certain_of_determined hc fun hq reads run hrule l v s s' target combined w same hw combined' target' => ?_
    obtain ⟨slot, hslot, hk⟩ := slot_of_property hq
    obtain ⟨V, hj⟩ := h.joins hq
    have hl := sound_layout hc d.side
    obtain ⟨w', hw'⟩ : ∃ w', run (t.toModel.stepFacts d l s' combined') (.singleton v)
        (t.toModel.view d.side target') = .ok w' := hj.total hrule hl hslot hk
    refine ⟨w', hw', fun slot' hslot' => ?_⟩
    obtain rfl := Option.some.inj (hslot.symm.trans hslot')
    exact hj.agree hrule hl hslot hk (same i (Or.inl rfl) slot hslot) hw hw'

/-- The model of a specification whose properties join labels. -/
theorem model (hlocal : t.Local) (ho : t.Ordered) (d : Direction) :
    t.toModel.Joined d fun l => D (t.toModel.var l) where
  toDeclared := h.declared hc hlocal d
  total := h.exists_yields hc d
  grouped := by
    intro l i s combined values target r X hl hne hD hr
    by_cases hi : i ∈ t.toModel.active d l
    · obtain ⟨q, hq, htrans, hcov⟩ := (mem_active hl).1 hi
      obtain ⟨reads, run, hrule⟩ := Rule.exists_of_isTransition htrans
      obtain ⟨slot, hslot, hk⟩ := slot_of_property hq
      obtain ⟨name, vars, hscope, hj⟩ := h.property d hq
      obtain ⟨w, hw, rfl⟩ := stepProperty_active hq hi hr hrule
      have below : ∀ a, t.toModel.Below d.side i a X ↔ slot.Below q.relaxation a.bits X.bits := fun a =>
        below_iff hq hslot
      have hleast : ∀ combined', slot.Below q.relaxation w.state.bits X.bits ↔ ∀ v ∈ values, ∀ target' w',
          run ⟨t.toModel.view d.side s, combined', l, t.toModel.var l⟩ (.singleton v)
            ⟨t.toModel.layout d.side, target'⟩ = .ok w' →
          slot.Below q.relaxation w'.state.bits X.bits := fun _ =>
        hj.least hrule (sound_layout hc d.side) hslot hk (slot.agree_self _) hne
          (fun v hv => Or.inl ⟨(ho.covers_iff hscope hl).1 hcov, hD v hv⟩) hw
      simp only [below]
      constructor
      · rintro hX v hv u ⟨combined', target', r', hr', ha⟩
        obtain ⟨w', hw', rfl⟩ := stepProperty_active hq hi hr' hrule
        have := (hleast _).1 hX v hv _ _ hw'
        exact (Slot.below_of_agree (hk ▸ hj.fits) (Slot.agree_symm (ha slot hslot))).trans this
      · refine fun hX => (hleast none).2 fun v hv target' w' hw' => hX v hv w'.state ?_
        have hrun : t.toModel.stepProperty d l s none (.singleton v) target' i = .ok w'.state :=
          stepProperty_of_run hq hi hrule hw'
        exact ⟨none, target', w'.state, hrun, .refl _ _ _ _⟩
    · have hdecl := h.declared hc hlocal d
      obtain ⟨r', hr', ha⟩ := exists_stepProperty_idle hc hi s combined values target
      obtain rfl := Except.ok.inj (hr.symm.trans hr')
      rw [hdecl.below_congr ha.symm]
      refine ⟨fun hX v _ u hu => ?_, fun hX => ?_⟩
      · exact (hdecl.below_congr (hdecl.yields_unique (hdecl.yields_idle hi s v) hu)).1 hX
      · obtain ⟨v, hv⟩ := hne
        exact hX v hv s (hdecl.yields_idle hi s v)

end Joined
end Spec

end DecisionDiagrams
