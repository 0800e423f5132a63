import DecisionDiagrams.Proofs.Spec.Appends
import DecisionDiagrams.Proofs.Spec.Registered
import DecisionDiagrams.Proofs.Spec.Tuples

/-! A specification to which more is registered. If its rules read and write its own properties and
what is registered afterwards leaves these alone, then on its layers the states of both have the same
first properties. So a tuple leads to the same of them, whether the specification is compiled alone
or with what came later. -/

namespace DecisionDiagrams

/-! ### Views of two layouts -/

namespace View

/-- Two states have the same flag and, seen through their layouts, the same first `n` properties. -/
structure Shows (n : Nat) (v w : View) : Prop where
  relaxed : v.state.relaxed = w.state.relaxed
  slot : ∀ i < n, v.slot? i = w.slot? i
  agree : ∀ i < n, ∀ s, v.slot? i = some s → s.agree v.state.bits w.state.bits = true

variable {n : Nat} {u v w : View}

theorem Shows.symm (h : v.Shows n w) : w.Shows n v :=
  ⟨h.relaxed.symm, fun i hi => (h.slot i hi).symm,
    fun i hi s hs => Slot.agree_symm (h.agree i hi s ((h.slot i hi).trans hs))⟩

theorem Shows.trans (h : u.Shows n v) (g : v.Shows n w) : u.Shows n w :=
  ⟨h.relaxed.trans g.relaxed, fun i hi => (h.slot i hi).trans (g.slot i hi), fun i hi s hs =>
    Slot.agree_trans (h.agree i hi s hs) (g.agree i hi s ((h.slot i hi).symm.trans hs))⟩

theorem mk_layout (h : w.layout = v.layout) : (⟨v.layout, w.state⟩ : View) = w := by
  rw [← h]

/-- An integer among the first properties is read the same. -/
theorem Shows.integer (h : v.Shows n w) {i : Nat} (hi : i < n) : v.integer i = w.integer i := by
  unfold View.integer
  rw [← h.slot i hi]
  cases hs : v.slot? i with
  | none => rfl
  | some s =>
    dsimp only
    cases hk : s.kind with
    | integer a lo hi' =>
      have ha := h.agree i hi s hs
      rw [Slot.agree_iff, if_neg (by rw [hk]; exact Bool.false_ne_true)] at ha
      dsimp only
      rw [ha 0 (by simp [Slot.elements, hk])]
    | flag => rfl
    | set => rfl
    | window => rfl

theorem relaxed_setInteger (v : View) (i : Nat) (x : Int) :
    (v.setInteger i x).state.relaxed = v.state.relaxed := by
  unfold setInteger
  split
  · split <;> rfl
  · rfl

/-- Writing the same integer to one of the first properties leaves them the same. -/
theorem Shows.setInteger (h : v.Shows n w) (hv : v.layout.Sound) (hw : w.layout.Sound) {i : Nat}
    (hi : i < n) (x : Int) : (v.setInteger i x).Shows n (w.setInteger i x) := by
  have hwv := writes_setInteger hv i x
  have hww := writes_setInteger hw i x
  refine ⟨?_, fun j hj => ?_, fun j hj s hs => ?_⟩
  · rw [relaxed_setInteger, relaxed_setInteger]
    exact h.relaxed
  · rw [hwv.slot?, hww.slot?]
    exact h.slot j hj
  · rw [hwv.slot?] at hs
    have hs' : w.slot? j = some s := (h.slot j hj).symm.trans hs
    have ha := h.agree j hj s hs
    by_cases e : j = i
    · subst e
      by_cases hk : ∃ a lo hi, s.kind = .integer a lo hi
      · obtain ⟨a, lo, hi, hk⟩ := hk
        rw [Slot.agree_iff, if_neg (by rw [hk]; exact Bool.false_ne_true)]
        intro e he
        obtain rfl : e = 0 := by simpa [Slot.elements, hk] using he
        have h1 := number_setInteger hv hs hk x
        have h2 := number_setInteger hw hs' hk x
        exact Int.ofNat.inj (Int.add_left_cancel (h1.trans h2.symm))
      · -- a property which is no integer stays as it is
        have same : ∀ {u : View}, u.slot? j = some s → u.setInteger j x = u := by
          intro u hu
          unfold View.setInteger
          rw [hu]
          dsimp only
          split
          · rename_i a lo hi hk'
            exact absurd ⟨a, lo, hi, hk'⟩ hk
          · rfl
        rw [same hs, same hs']
        exact ha
    · exact Slot.agree_trans (Slot.agree_symm (hwv.agree hv e hs))
        (Slot.agree_trans ha (hww.agree hw e hs'))

/-- Writing a later property leaves the first ones alone. -/
theorem shows_setInteger (hv : v.layout.Sound) {i : Nat} (hi : n ≤ i) (x : Int) :
    v.Shows n (v.setInteger i x) := by
  have hw := writes_setInteger hv i x
  exact ⟨(relaxed_setInteger v i x).symm, fun j _ => (hw.slot? j).symm,
    fun j hj s hs => hw.agree hv (Nat.ne_of_lt (Nat.lt_of_lt_of_le hj hi)) hs⟩

theorem relaxed_initialise (v : View) (i : Nat) :
    (v.initialise i).state.relaxed = v.state.relaxed ∧ (v.initialise i).layout = v.layout := by
  have window : ∀ (es : List Nat) (x : Int) (u : View), u.state.relaxed = v.state.relaxed ∧
      u.layout = v.layout →
      (es.foldl (fun v e => v.setWindowElement i e x) u).state.relaxed = v.state.relaxed ∧
      (es.foldl (fun v e => v.setWindowElement i e x) u).layout = v.layout := by
    intro es x
    induction es with
    | nil => exact fun _ h => h
    | cons e es ih =>
      intro u h
      rw [List.foldl_cons]
      refine ih _ ?_
      unfold setWindowElement
      split
      · split <;> exact h
      · exact h
  unfold initialise
  split
  · split
    · unfold setFlag
      split
      · split <;> exact ⟨rfl, rfl⟩
      · exact ⟨rfl, rfl⟩
    · unfold setInteger
      split
      · split <;> exact ⟨rfl, rfl⟩
      · exact ⟨rfl, rfl⟩
    · unfold setSet
      split
      · split <;> exact ⟨rfl, rfl⟩
      · exact ⟨rfl, rfl⟩
    · exact window _ _ v ⟨rfl, rfl⟩
  · exact ⟨rfl, rfl⟩

end View

namespace Layout

theorem relaxed_fresh (l : Layout) : l.fresh.relaxed = false := by
  unfold fresh
  have : ∀ (is : List Nat) (v : View), v.state.relaxed = false →
      (is.foldl View.initialise v).state.relaxed = false := by
    intro is
    induction is with
    | nil => exact fun _ h => h
    | cons i is ih => exact fun v h => ih _ ((v.relaxed_initialise i).1.trans h)
  exact this _ _ rfl

theorem slots_foldl_push (ks : List Kind) (l : Layout) :
    l.slots.toList <+: (ks.foldl push l).slots.toList := by
  induction ks generalizing l with
  | nil => exact List.prefix_refl _
  | cons k ks ih =>
    refine List.IsPrefix.trans ?_ (ih (l.push k))
    unfold push
    rw [Array.toList_push]
    exact List.prefix_append _ _

/-- More properties do not move the first ones. -/
theorem slot?_ofKinds_of_prefix {ks ls : List Kind} (h : ks <+: ls) {i : Nat} (hi : i < ks.length) :
    (ofKinds ls).slot? i = (ofKinds ks).slot? i := by
  obtain ⟨more, rfl⟩ := h
  have hsize : (ofKinds ks).slots.toList.length = ks.length := by
    have := congrArg List.length (kinds_foldl_push ks {})
    simpa [ofKinds] using this
  obtain ⟨rest, hrest⟩ := slots_foldl_push more (ofKinds ks)
  unfold slot?
  rw [show ofKinds (ks ++ more) = more.foldl push (ofKinds ks) from List.foldl_append,
    ← Array.getElem?_toList, ← Array.getElem?_toList, ← hrest, List.getElem?_append_left]
  omega

/-- Fresh states of layouts with the same first slots have the same first properties. -/
theorem shows_fresh {l k : Layout} (hl : l.Sound) (hk : k.Sound) {n : Nat}
    (h : ∀ i < n, l.slot? i = k.slot? i) : View.Shows n ⟨l, l.fresh⟩ ⟨k, k.fresh⟩ := by
  refine ⟨by rw [relaxed_fresh, relaxed_fresh], h, fun i hi s hs => ?_⟩
  have h1 := initial_fresh hl hs
  have h2 := initial_fresh hk ((h i hi).symm.trans hs)
  unfold View.Initial at h1 h2
  rw [Slot.agree_iff]
  split_ifs at h1 h2 ⊢
  · exact fun e => iff_of_false (h1 e) (h2 e)
  · intro e he
    have := (h1 e he).trans (h2 e he).symm
    unfold Slot.number at this
    exact Int.ofNat.inj (Int.add_left_cancel this)

end Layout

/-- What is seen of combined states, unless none of their properties is looked at. -/
def CombinedShows (n : Nat) : Option View → Option View → Prop
  | some v, some w => v.Shows n w
  | none, none => True
  | _, _ => n = 0

/-- Two transitions see the same of the first properties, on the same layer. -/
structure StepFacts.Shows (down combined : Nat) (x y : StepFacts) : Prop where
  source : x.source.Shows down y.source
  combined : CombinedShows combined x.combined y.combined
  layer : x.layer = y.layer
  var : x.var = y.var

namespace Spec

/-! ### Closed specifications -/

/-- The number of registered properties of a state. -/
def count (s : Spec) (side : Side) : Nat := (s.properties.get side).size

/-- The rules for down and combined states read and write registered properties only, which belong to
registered constraints. -/
structure Closed (s : Spec) : Prop where
  owned : ∀ {side : Side} {i : Nat} {q : Property}, (s.properties.get side)[i]? = some q →
    q.constraint < s.scopes.size
  transition : ∀ {i : Nat} {q : Property} {reads run}, s.properties.down[i]? = some q →
    q.rule = .transition reads run → ∀ {x y values v w r}, v.layout.Sound → w.layout.Sound →
    x.Shows (s.count .down) (s.count .combined) y → v.Shows (s.count .down) w →
    run x values v = .ok r → ∃ r', run y values w = .ok r' ∧
      View.Shows (s.count .down) ⟨v.layout, r.state⟩ ⟨w.layout, r'.state⟩
  combine : ∀ {i : Nat} {q : Property} {reads run}, s.properties.combined[i]? = some q →
    q.rule = .combine reads run → ∀ {d e u f v w r}, v.layout.Sound → w.layout.Sound →
    d.Shows (s.count .down) e → u.Shows (s.count .up) f → v.Shows (s.count .combined) w →
    run d u v = .ok r → ∃ r', run e f w = .ok r' ∧
      View.Shows (s.count .combined) ⟨v.layout, r.state⟩ ⟨w.layout, r'.state⟩

/-- More is registered whose rules leave the properties of `s` alone. -/
structure Beside (s t : Spec) : Prop extends Enlarges s t where
  transition : ∀ {i : Nat} {q : Property} {reads run}, s.count .down ≤ i →
    t.properties.down[i]? = some q → q.rule = .transition reads run → ∀ {x values v r},
    v.layout.Sound → run x values v = .ok r → v.Shows (s.count .down) ⟨v.layout, r.state⟩
  combine : ∀ {i : Nat} {q : Property} {reads run}, s.count .combined ≤ i →
    t.properties.combined[i]? = some q → q.rule = .combine reads run → ∀ {d u v r},
    v.layout.Sound → run d u v = .ok r → v.Shows (s.count .combined) ⟨v.layout, r.state⟩

theorem ordered_of_registered {s : Spec} (h : s.Registered) : s.Ordered := by
  induction h with
  | start => exact ⟨List.nodup_nil, nofun⟩
  | scope _ name vars ih => exact ih.addScope name vars
  | @adjust s _ p f ih =>
    have e : (Spec.adjust p f s).2.scopes = s.scopes := by
      show (if p.index < (s.properties.get p.side).size then _ else _ : Spec).scopes = _
      split_ifs <;> rfl
    constructor
    · rw [branchVars_adjust]
      exact ih.nodup
    · rw [branchVars_adjust, e]
      exact ih.known
  | property _ _ _ _ _ ih => exact ⟨ih.nodup, ih.known⟩
  | arcCheck _ _ _ ih => exact ⟨ih.nodup, ih.known⟩
  | nodeCheck _ _ ih => exact ⟨ih.nodup, ih.known⟩
  | splitPriority _ _ ih => exact ⟨ih.nodup, ih.known⟩
  | candidatePriority _ _ ih => exact ⟨ih.nodup, ih.known⟩
  | equivalenceKey _ _ ih => exact ⟨ih.nodup, ih.known⟩

namespace Enlarges

variable {s t : Spec} (h : Enlarges s t)
include h

theorem getElem?_property {side : Side} {i : Nat} (hi : i < s.count side) :
    (t.properties.get side)[i]? = (s.properties.get side)[i]? := by
  obtain ⟨more, e⟩ := h.properties side
  rw [← Array.getElem?_toList, ← Array.getElem?_toList, ← e, List.getElem?_append_left hi]

theorem slot? {side : Side} {i : Nat} (hi : i < s.count side) :
    (t.toModel.layout side).slot? i = (s.toModel.layout side).slot? i := by
  rw [layout_toModel, layout_toModel]
  refine Layout.slot?_ofKinds_of_prefix ((h.properties side).map _) ?_
  rw [List.length_map]
  exact hi

theorem sound (hc : t.check = .ok ()) (side : Side) : (s.toModel.layout side).Sound := by
  refine ⟨?_, fun i k hk => ?_⟩
  · rw [layout_toModel]
    exact Layout.spaced_ofKinds _
  · obtain ⟨q, hq, -⟩ := property_of_slot hk
    have hi : i < s.count side := (Array.getElem?_eq_some_iff.1 hq).1
    exact (sound_layout hc side).valid i k ((h.slot? hi).trans hk)

/-- States of both show the same first properties when they are fresh. -/
theorem shows_fresh (hc : t.check = .ok ()) (side : Side) : View.Shows (s.count side)
    (t.toModel.view side (t.toModel.fresh side)) (s.toModel.view side (s.toModel.fresh side)) := by
  rw [fresh_toModel, fresh_toModel]
  exact Layout.shows_fresh (sound_layout hc side) (h.sound hc side) fun _ hi => h.slot? hi

theorem layerOf_eq {x : Var} (hx : x ∈ s.branchVars.toList) : t.layerOf x = s.layerOf x := by
  obtain ⟨more, e⟩ := h.branchVars
  unfold layerOf
  rw [← e, List.idxOf_append_of_mem hx]

theorem size_le : s.branchVars.size ≤ t.branchVars.size := h.branchVars.length_le

theorem var_eq {l : Nat} (hl : l < s.branchVars.size) : t.toModel.var l = s.toModel.var l := by
  obtain ⟨more, e⟩ := h.branchVars
  unfold Model.var
  show t.branchVars.getD l 0 = s.branchVars.getD l 0
  rw [Array.getD_eq_getD_getElem?, Array.getD_eq_getD_getElem?, ← Array.getElem?_toList,
    ← Array.getElem?_toList, ← e, List.getElem?_append_left (by simpa using hl)]

/-- A registered constraint covers the same layers. -/
theorem covers_iff (ho : s.Ordered) {c : ScopeId} (hc : c < s.scopes.size) {l : Nat} :
    covers t.coverage c l = true ↔ covers s.coverage c l = true := by
  have hscope : t.scopes[c]? = s.scopes[c]? := by
    obtain ⟨more, e⟩ := h.scopes
    rw [← Array.getElem?_toList, ← Array.getElem?_toList, ← e, List.getElem?_append_left hc]
  rw [Spec.covers_iff, Spec.covers_iff, hscope]
  refine exists_congr fun k => and_congr_right fun hk => exists_congr fun x =>
    and_congr_right fun hx => ?_
  rw [h.layerOf_eq (ho.known k (Array.mem_toList_iff.2 (Array.mem_of_getElem? hk)) x hx)]

/-- The properties of `s` are computed on the same layers. -/
theorem mem_active (ho : s.Ordered) (hs : s.Closed) {l i : Nat} (hl : l < s.branchVars.size)
    {d : Direction} (hi : i < s.count d.side) :
    i ∈ t.toModel.active d l ↔ i ∈ s.toModel.active d l := by
  rw [Spec.mem_active (Nat.lt_of_lt_of_le hl h.size_le), Spec.mem_active hl, h.getElem?_property hi]
  refine exists_congr fun q => and_congr_right fun hq => and_congr_right fun _ => ?_
  exact h.covers_iff ho (hs.owned hq)

end Enlarges

end Spec

theorem Checked.map_eq_ok {α β : Type} {f : α → β} {x : Checked α} {b : β} :
    x.map f = .ok b ↔ ∃ a, x = .ok a ∧ f a = b := by
  cases x with
  | ok a =>
    show Except.ok (f a) = .ok b ↔ _
    simp
  | error e =>
    refine ⟨nofun, ?_⟩
    rintro ⟨a, ha, -⟩
    cases ha

/-- A computation along a list, of which another one does the steps below `n`, while the others leave
alone what is related. -/
theorem Checked.simulates {σ τ : Type} {R : σ → τ → Prop} {f : σ → Nat → Checked σ}
    {g : τ → Nat → Checked τ} {n : Nat} : ∀ (is : List Nat) {a b : σ} {c : τ},
    (∀ i ∈ is, i < n → ∀ {a c a'}, R a c → f a i = .ok a' → ∃ c', g c i = .ok c' ∧ R a' c') →
    (∀ i ∈ is, n ≤ i → ∀ {a c a'}, R a c → f a i = .ok a' → R a' c) →
    is.foldlM f a = .ok b → R a c →
    ∃ d, (is.filter (· < n)).foldlM g c = .ok d ∧ R b d
  | [], a, b, c, _, _, h, hR => by
    obtain rfl := Except.ok.inj h
    exact ⟨c, rfl, hR⟩
  | i :: is, a, b, c, hlow, hhigh, h, hR => by
    rw [List.foldlM_cons] at h
    obtain ⟨a', ha, h⟩ := Checked.bind_eq_ok.1 h
    have later := fun {c'} => simulates (c := c') is (fun j hj => hlow j (List.mem_cons_of_mem _ hj))
      (fun j hj => hhigh j (List.mem_cons_of_mem _ hj)) h
    by_cases hi : i < n
    · obtain ⟨c', hc, hR'⟩ := hlow i List.mem_cons_self hi hR ha
      obtain ⟨d, hd, hR''⟩ := later hR'
      rw [List.filter_cons_of_pos (by simpa using hi), List.foldlM_cons]
      exact ⟨d, Checked.bind_eq_ok.2 ⟨c', hc, hd⟩, hR''⟩
    · rw [List.filter_cons_of_neg (by simpa using hi)]
      exact later (hhigh i List.mem_cons_self (Nat.not_lt.1 hi) hR ha)

namespace Spec.Beside

variable {s t : Spec} {l : Nat} {source source' combined combined' : State}
  {c c' : Option State} {values : IntSet} {r : State}

/-! ### Steps -/

/-- The transition of one of the first properties computes the same of them. -/
theorem stepProperty_first (h : Beside s t) (hc : t.check = .ok ()) (ho : s.Ordered) (hs : s.Closed)
    (hl : l < s.branchVars.size)
    (hfacts : StepFacts.Shows (s.count .down) (s.count .combined)
      ⟨t.toModel.view .down source, c.map (t.toModel.view .combined), l, t.toModel.var l⟩
      ⟨s.toModel.view .down source', c'.map (s.toModel.view .combined), l, s.toModel.var l⟩)
    {i : Nat} (hi : i ∈ t.toModel.active .down l) (hlt : i < s.count .down) {a a' b : State}
    (hab : (t.toModel.view .down a).Shows (s.count .down) (s.toModel.view .down b))
    (ha : t.toModel.stepProperty .down l source c values a i = .ok a') :
    ∃ b', s.toModel.stepProperty .down l source' c' values b i = .ok b' ∧
      (t.toModel.view .down a').Shows (s.count .down) (s.toModel.view .down b') := by
  obtain ⟨q, hq, htr, -⟩ := (mem_active (Nat.lt_of_lt_of_le hl h.size_le)).1 hi
  obtain ⟨reads, run, hrule⟩ := Rule.exists_of_isTransition htr
  have hq' : s.properties.down[i]? = some q :=
    (h.getElem?_property hlt).symm.trans hq
  obtain ⟨out, hout, rfl⟩ := stepProperty_active hq hi ha hrule
  obtain ⟨out', hout', hoo⟩ := hs.transition hq' hrule (sound_layout hc .down) (h.sound hc .down)
    hfacts hab hout
  refine ⟨out'.state, ?_, hoo⟩
  unfold Model.stepProperty
  dsimp only
  rw [if_pos (show IndexSet.contains _ i = true from
      (h.mem_active ho hs hl (d := .down) hlt).1 hi), rule_toModel,
    show (s.properties.get Direction.down.side)[i]? = some q from hq']
  dsimp only
  rw [hrule]
  dsimp only
  exact Checked.map_eq_ok.2 ⟨out', hout', rfl⟩

/-- The transition of a later property leaves the first ones alone. -/
theorem stepProperty_later (h : Beside s t) (hc : t.check = .ok ()) (hl : l < t.branchVars.size)
    {i : Nat} (hi : i ∈ t.toModel.active .down l) (hge : s.count .down ≤ i) {a a' : State}
    (ha : t.toModel.stepProperty .down l source c values a i = .ok a') :
    (t.toModel.view .down a').Shows (s.count .down) (t.toModel.view .down a) := by
  obtain ⟨q, hq, htr, -⟩ := (mem_active hl).1 hi
  obtain ⟨reads, run, hrule⟩ := Rule.exists_of_isTransition htr
  obtain ⟨out, hout, rfl⟩ := stepProperty_active hq hi ha hrule
  exact (h.transition hge hq hrule (sound_layout hc .down) hout).symm

/-- A step over the same values computes the same of the first properties. -/
theorem step (h : Beside s t) (hc : t.check = .ok ()) (ho : s.Ordered) (hs : s.Closed)
    (hl : l < s.branchVars.size)
    (hsource : (t.toModel.view .down source).Shows (s.count .down) (s.toModel.view .down source'))
    (hcomb : CombinedShows (s.count .combined) (c.map (t.toModel.view .combined))
      (c'.map (s.toModel.view .combined)))
    (hr : t.toModel.step .down l source c values = .ok r) :
    ∃ r', s.toModel.step .down l source' c' values = .ok r' ∧
      (t.toModel.view .down r).Shows (s.count .down) (s.toModel.view .down r') := by
  have active : (s.toModel.active .down l).toList =
      (t.toModel.active .down l).toList.filter (· < s.count .down) := by
    refine IndexSet.toList_filter_lt fun i => ⟨fun hi => ?_, fun hi => ?_⟩
    · obtain ⟨q, hq, -⟩ := (mem_active hl).1 hi
      have hlt : i < s.count .down := (Array.getElem?_eq_some_iff.1 hq).1
      exact ⟨(h.mem_active ho hs hl (d := .down) hlt).2 hi, hlt⟩
    · exact (h.mem_active ho hs hl (d := .down) hi.2).1 hi.1
  unfold Model.step at hr
  obtain ⟨reached, hreached, hr⟩ := Checked.bind_eq_ok.1 hr
  obtain rfl := Except.ok.inj hr
  have sim := Checked.simulates
    (R := fun a b => (t.toModel.view .down a).Shows (s.count .down) (s.toModel.view .down b))
    (f := t.toModel.stepProperty .down l source c values)
    (g := s.toModel.stepProperty .down l source' c' values) _
    (fun i hi hlt _ _ _ hab ha => h.stepProperty_first hc ho hs hl
      ⟨hsource, hcomb, rfl, h.var_eq hl⟩ (IndexSet.mem_toList.1 hi) hlt hab ha)
    (fun i hi hge _ _ _ hab ha => (h.stepProperty_later hc (Nat.lt_of_lt_of_le hl h.size_le)
      (IndexSet.mem_toList.1 hi) hge ha).trans hab) hreached hsource
  rw [← active] at sim
  obtain ⟨reached', hreached', hshows⟩ := sim
  refine ⟨{ reached' with relaxed := source'.relaxed || decide (1 < values.size) }, ?_, ?_⟩
  · unfold Model.step Model.stepInto
    exact Checked.bind_eq_ok.2 ⟨reached', hreached', rfl⟩
  · refine ⟨?_, hshows.slot, hshows.agree⟩
    show (source.relaxed || _) = (source'.relaxed || _)
    rw [show source.relaxed = source'.relaxed from hsource.relaxed]

/-- What is combined from the same down properties and fresh up states shows the same first
properties. -/
theorem derive (h : Beside s t) (hc : t.check = .ok ()) (hs : s.Closed)
    (hsource : (t.toModel.view .down source).Shows (s.count .down) (s.toModel.view .down source'))
    (hr : t.toModel.derive source (t.toModel.fresh .up) = .ok r) :
    ∃ r', s.toModel.derive source' (s.toModel.fresh .up) = .ok r' ∧
      (t.toModel.view .combined r).Shows (s.count .combined) (s.toModel.view .combined r') := by
  have all : (s.toModel.everyProperty .combined).toList =
      (t.toModel.everyProperty .combined).toList.filter (· < s.count .combined) := by
    have hle : s.count .combined ≤ t.count .combined := (h.properties .combined).length_le
    refine IndexSet.toList_filter_lt fun i => ?_
    rw [Model.everyProperty, Model.everyProperty, IndexSet.mem_below, IndexSet.mem_below]
    exact ⟨fun hi => ⟨Nat.lt_of_lt_of_le hi hle, hi⟩, And.right⟩
  unfold Model.derive Model.deriveInto at hr ⊢
  rw [all]
  refine Checked.simulates
    (R := fun a b => (t.toModel.view .combined a).Shows (s.count .combined)
      (s.toModel.view .combined b)) _ (fun i _ hlt a b a' hab ha => ?_)
    (fun i _ hge a b a' hab ha => ?_) hr (h.shows_fresh hc .combined)
  · rw [rule_toModel, h.getElem?_property hlt] at ha
    rw [rule_toModel]
    cases hq : (s.properties.get .combined)[i]? with
    | none =>
      rw [hq] at ha
      exact ⟨b, rfl, Except.ok.inj ha ▸ hab⟩
    | some q =>
      rw [hq] at ha
      dsimp only at ha ⊢
      cases hrule : q.rule with
      | keep =>
        rw [hrule] at ha
        exact ⟨b, rfl, Except.ok.inj ha ▸ hab⟩
      | transition =>
        rw [hrule] at ha
        exact ⟨b, rfl, Except.ok.inj ha ▸ hab⟩
      | combine reads run =>
        rw [hrule] at ha
        dsimp only at ha ⊢
        obtain ⟨out, hout, rfl⟩ := Checked.map_eq_ok.1 ha
        obtain ⟨out', hout', hoo⟩ := hs.combine hq hrule (sound_layout hc .combined)
          (h.sound hc .combined) hsource (h.shows_fresh hc .up) hab hout
        exact ⟨out'.state, Checked.map_eq_ok.2 ⟨out', hout', rfl⟩, hoo⟩
  · rw [rule_toModel] at ha
    cases hq : (t.properties.get .combined)[i]? with
    | none =>
      rw [hq] at ha
      exact Except.ok.inj ha ▸ hab
    | some q =>
      rw [hq] at ha
      dsimp only at ha
      cases hrule : q.rule with
      | keep =>
        rw [hrule] at ha
        exact Except.ok.inj ha ▸ hab
      | transition =>
        rw [hrule] at ha
        exact Except.ok.inj ha ▸ hab
      | combine reads run =>
        rw [hrule] at ha
        obtain ⟨out, hout, rfl⟩ := Checked.map_eq_ok.1 ha
        exact (h.combine hge hq hrule (sound_layout hc .combined) hout).symm.trans hab

/-- While no up states are in use, the combined states known beside the same down properties show the
same first properties. -/
theorem besides (h : Beside s t) (hc : t.check = .ok ()) (hs : s.Closed)
    (known : t.toModel.hasUp = false)
    (hsource : (t.toModel.view .down source).Shows (s.count .down) (s.toModel.view .down source'))
    (hr : t.toModel.besides source = .ok c) :
    ∃ c', s.toModel.besides source' = .ok c' ∧ CombinedShows (s.count .combined)
      (c.map (t.toModel.view .combined)) (c'.map (s.toModel.view .combined)) := by
  have known' : s.toModel.hasUp = false := by
    obtain ⟨more, e⟩ := h.properties .up
    have ht : t.properties.up.toList.any (·.rule.isTransition) = false := by
      rw [Array.any_toList]
      exact known
    rw [show t.properties.up.toList = s.properties.up.toList ++ more from e.symm,
      List.any_append, Bool.or_eq_false_iff, Array.any_toList] at ht
    exact ht.1
  have hle : s.count .combined ≤ t.count .combined := (h.properties .combined).length_le
  have has : ∀ u : Spec, u.toModel.hasCombined = true ↔ 0 < u.count .combined := fun u => by
    show (!u.properties.combined.isEmpty) = true ↔ 0 < u.properties.combined.size
    rw [Array.isEmpty]
    simp [Nat.pos_iff_ne_zero]
  unfold Model.besides at hr ⊢
  rw [known] at hr
  rw [known']
  by_cases hsc : 0 < s.count .combined
  · have hs' : s.toModel.hasCombined = true := (has s).2 hsc
    have ht' : t.toModel.hasCombined = true := (has t).2 (by omega)
    rw [ht'] at hr
    rw [hs']
    obtain ⟨r, hder, rfl⟩ := Checked.map_eq_ok.1 hr
    obtain ⟨r', hr', hshows⟩ := h.derive hc hs hsource hder
    exact ⟨some r', Checked.map_eq_ok.2 ⟨r', hr', rfl⟩, hshows⟩
  · have hs' : s.toModel.hasCombined = false := by
      rw [← Bool.not_eq_true, has]
      exact hsc
    refine ⟨none, by rw [hs']; rfl, ?_⟩
    cases c with
    | none => trivial
    | some r => exact Nat.eq_zero_of_not_pos hsc

/-- On the layers of `s` values lead to states with the same first properties. -/
theorem reach (h : Beside s t) (hc : t.check = .ok ()) (ho : s.Ordered) (hs : s.Closed)
    (known : t.toModel.hasUp = false) : ∀ (vs : List Int) {l : Nat} {source source' r : State},
    l + vs.length ≤ s.branchVars.size →
    (t.toModel.view .down source).Shows (s.count .down) (s.toModel.view .down source') →
    t.toModel.reach l source vs = .ok r → ∃ r', s.toModel.reach l source' vs = .ok r' ∧
      (t.toModel.view .down r).Shows (s.count .down) (s.toModel.view .down r')
  | [], _, _, source', _, _, hsource, hr => by
    obtain rfl := Except.ok.inj hr
    exact ⟨source', rfl, hsource⟩
  | v :: vs, l, _, _, _, hl, hsource, hr => by
    rw [List.length_cons] at hl
    obtain ⟨c, next, hbes, hstep, hr⟩ := Model.reach_cons.1 hr
    obtain ⟨c', hbes', hcomb⟩ := h.besides hc hs known hsource hbes
    obtain ⟨next', hstep', hnext⟩ := h.step hc ho hs (by omega) hsource hcomb hstep
    obtain ⟨r', hr', hshows⟩ := reach h hc ho hs known vs (by omega) hnext hr
    exact ⟨r', Model.reach_cons.2 ⟨c', next', hbes', hstep', hr'⟩, hshows⟩

end Spec.Beside

end DecisionDiagrams
