import DecisionDiagrams.Proofs.Engine.Tracking
import DecisionDiagrams.Proofs.Sets.Elements

/-! How relaxed the values of a property are. Relaxing moves numbers down or up, and makes sets larger or
smaller. In this order the merge of two values is the least value above both, so it does not matter in
which order, or how often, the states are merged which a state stands for. -/

namespace DecisionDiagrams

/-! ### Numbers -/

/-- The number `y` is at least as relaxed as the number `x`. -/
def Relaxation.Below : Relaxation → Int → Int → Prop
  | .minimum, x, y => y ≤ x
  | .maximum, x, y => x ≤ y
  | _, x, y => x = y

namespace Relaxation.Below

variable {r : Relaxation} {x y : Int}

theorem refl (r : Relaxation) (x : Int) : r.Below x x := by
  cases r <;> simp only [Relaxation.Below] <;> omega

theorem add (h : r.Below x y) (z : Int) : r.Below (z + x) (z + y) := by
  cases r <;> simp only [Relaxation.Below] at h ⊢ <;> omega

/-- Moving numbers into a range keeps their order. -/
theorem clamp (h : r.Below x y) (lo hi : Int) :
    r.Below (max lo (min hi x)) (max lo (min hi y)) := by
  cases r <;> simp only [Relaxation.Below] at h ⊢ <;> omega

end Relaxation.Below

/-! ### Stored values -/

namespace Slot

variable {s : Slot} {r : Relaxation} {a b c : Nat}

/-- The value of the property in `b` is at least as relaxed as the one in `a`. -/
def Below (s : Slot) : Relaxation → Nat → Nat → Prop
  | .minimum, a, b => ∀ e < s.elements, s.readElement b e ≤ s.readElement a e
  | .maximum, a, b => ∀ e < s.elements, s.readElement a e ≤ s.readElement b e
  | .union, a, b => ∀ e ∈ s.readSet a, e ∈ s.readSet b
  | .intersection, a, b => ∀ e ∈ s.readSet b, e ∈ s.readSet a
  | .custom _, a, b => s.agree a b = true

theorem Below.trans (h : s.Below r a b) (g : s.Below r b c) : s.Below r a c := by
  cases r with
  | minimum => exact fun e he => Nat.le_trans (g e he) (h e he)
  | maximum => exact fun e he => Nat.le_trans (h e he) (g e he)
  | union => exact fun e he => g e (h e he)
  | intersection => exact fun e he => h e (g e he)
  | custom => exact agree_trans h g

theorem below_of_agree (hr : r.supports s.kind = true) (h : s.agree a b = true) : s.Below r a b := by
  cases r with
  | custom => exact h
  | minimum | maximum =>
    rw [agree_iff, if_neg (by simpa [Relaxation.supports] using hr)] at h
    exact fun e he => by rw [h e he]
  | union | intersection =>
    rw [agree_iff, if_pos (by simpa [Relaxation.supports] using hr)] at h
    intro e he
    simpa only [h e] using he

theorem agree_of_below (hr : r.supports s.kind = true) (h : s.Below r a b) (g : s.Below r b a) :
    s.agree a b = true := by
  cases r with
  | custom => exact h
  | minimum =>
    rw [agree_iff, if_neg (by simpa [Relaxation.supports] using hr)]
    exact fun e he => Nat.le_antisymm (g e he) (h e he)
  | maximum =>
    rw [agree_iff, if_neg (by simpa [Relaxation.supports] using hr)]
    exact fun e he => Nat.le_antisymm (h e he) (g e he)
  | union =>
    rw [agree_iff, if_pos (by simpa [Relaxation.supports] using hr)]
    exact fun e => ⟨h e, g e⟩
  | intersection =>
    rw [agree_iff, if_pos (by simpa [Relaxation.supports] using hr)]
    exact fun e => ⟨g e, h e⟩

/-- Stored numbers are in the order of the values. -/
theorem below_of_number (hr : r.supports s.kind = true) (hs : s.kind.isSet = false)
    (h : ∀ e < s.elements, r.Below (s.number a e) (s.number b e)) : s.Below r a b := by
  unfold number at h
  cases r with
  | minimum => exact fun e he => Int.ofNat_le.1 (Int.le_of_add_le_add_left (h e he))
  | maximum => exact fun e he => Int.ofNat_le.1 (Int.le_of_add_le_add_left (h e he))
  | union | intersection => cases hs.symm.trans hr
  | custom =>
    rw [Below, agree_iff, if_neg (by rw [hs]; exact Bool.false_ne_true)]
    exact fun e he => Int.ofNat_inj.1 (Int.add_left_cancel (h e he))

end Slot

/-! ### Models -/

/-- The property of `t` is at least as relaxed as the one of `s`. -/
def Model.Below (m : Model) (side : Side) (i : Nat) (s t : State) : Prop :=
  ∀ slot r, (m.layout side).slot? i = some slot → m.relaxation? side i = some r →
    slot.Below r s.bits t.bits

/-- Merging a property gives the least value above both values, and leaves the other properties alone. -/
structure Model.Lattice (m : Model) (side : Side) : Prop where
  below : ∀ {i s t}, m.Alike side i s t → m.Below side i s t
  alike : ∀ {i s t}, m.Below side i s t → m.Below side i t s → m.Alike side i s t
  merged : ∀ {other target i j r}, i ≠ j → m.mergeProperty side other target j = .ok r →
    m.Alike side i target r
  least : ∀ {i s t r X}, m.mergeProperty side t s i = .ok r →
    (m.Below side i r X ↔ m.Below side i s X ∧ m.Below side i t X)
  joins : ∀ t s i, ∃ r, m.mergeProperty side t s i = .ok r
  absent : ∀ {i s t}, (m.properties.get side).size ≤ i → m.Alike side i s t

namespace Model

variable {m : Model} {side : Side} {i : Nat} {s t u X r : State}

theorem Alike.symm (h : m.Alike side i s t) : m.Alike side i t s :=
  fun slot hs => Slot.agree_symm (h slot hs)

theorem Alike.trans (h : m.Alike side i s t) (g : m.Alike side i t u) : m.Alike side i s u :=
  fun slot hs => Slot.agree_trans (h slot hs) (g slot hs)

theorem Below.trans (h : m.Below side i s t) (g : m.Below side i t u) : m.Below side i s u :=
  fun slot r hs hr => (h slot r hs hr).trans (g slot r hs hr)

namespace Lattice

variable (h : m.Lattice side)
include h

theorem refl (i : Nat) (s : State) : m.Below side i s s := h.below (.refl _ _ _ _)

theorem below_congr (hs : m.Alike side i s t) : m.Below side i s X ↔ m.Below side i t X :=
  ⟨(h.below hs.symm).trans, (h.below hs).trans⟩

/-- Values are the same if the same values are above them. -/
theorem alike_of_iff (hst : ∀ X, m.Below side i s X ↔ m.Below side i t X) : m.Alike side i s t :=
  h.alike ((hst t).2 (h.refl i t)) ((hst s).1 (h.refl i s))

theorem least_foldl : ∀ (js : List Nat) {s : State}, js.foldlM (m.mergeProperty side t) s = .ok r →
    (m.Below side i r X ↔ m.Below side i s X ∧ (i ∈ js → m.Below side i t X))
  | [], s, hr => by
    obtain rfl := Except.ok.inj hr
    exact (and_iff_left nofun).symm
  | j :: js, s, hr => by
    rw [List.foldlM_cons] at hr
    obtain ⟨mid, hmid, hr⟩ := Checked.bind_eq_ok.1 hr
    rw [least_foldl js hr, List.mem_cons]
    by_cases e : i = j
    · subst e
      rw [h.least hmid, and_assoc]
      exact and_congr_right fun _ => ⟨fun ⟨ht, _⟩ _ => ht, fun ht => ⟨ht (Or.inl rfl), fun _ => ht (Or.inl rfl)⟩⟩
    · rw [h.below_congr (h.merged e hmid).symm, or_iff_right e]

/-- The merge is the least state above both in the listed properties, and as before in the others. -/
theorem least_mergeListed {which : IndexSet} (hr : m.mergeListed side which s t = .ok r) :
    m.Below side i r X ↔ m.Below side i s X ∧ (i ∈ which → m.Below side i t X) := by
  rw [← IndexSet.mem_toList]
  exact h.least_foldl which.toList hr

theorem exists_mergeListed (which : IndexSet) (s t : State) :
    ∃ r, m.mergeListed side which s t = .ok r :=
  Checked.exists_foldlM (fun acc j => h.joins t acc j) which.toList s

/-- All properties of states are merged. -/
theorem least_everyProperty (hr : m.mergeListed side (m.everyProperty side) s t = .ok r) :
    m.Below side i r X ↔ m.Below side i s X ∧ m.Below side i t X := by
  rw [h.least_mergeListed hr]
  refine and_congr_right fun _ => ⟨fun ht => ?_, fun ht _ => ht⟩
  by_cases hi : i < (m.properties.get side).size
  · exact ht (IndexSet.mem_below.2 hi)
  · exact h.below (h.absent (Nat.not_lt.1 hi))

/-- The merge of states is the least one above all of them in the listed properties, and as the first one
in the others. -/
theorem least_mergeInto {which : IndexSet} {first : State} {rest : List State} {out : State × Bool}
    (hout : m.mergeInto side which first rest = .ok out) : m.Below side i out.1 X ↔
      m.Below side i first X ∧ (i ∈ which → ∀ s ∈ rest, m.Below side i s X) := by
  have fold : ∀ (rest : List State) {acc out : State × Bool}, rest.foldlM (fun acc s => do
        if s = acc.1 ∧ s = first then return acc
        return (← m.mergeListed side which acc.1 s, true)) acc = (.ok out : Checked _) →
      (m.Below side i out.1 X ↔
        m.Below side i acc.1 X ∧ (i ∈ which → ∀ s ∈ rest, m.Below side i s X)) := by
    intro rest
    induction rest with
    | nil =>
      intro acc out hout
      obtain rfl := Except.ok.inj hout
      exact (and_iff_left fun _ => nofun).symm
    | cons s rest ih =>
      intro acc out hout
      rw [List.foldlM_cons] at hout
      obtain ⟨mid, hmid, hout⟩ := Checked.bind_eq_ok.1 hout
      -- the states above the accumulated one are those above it and `s`
      have hstep : m.Below side i mid.1 X ↔
          m.Below side i acc.1 X ∧ (i ∈ which → m.Below side i s X) := by
        split_ifs at hmid with e
        · obtain rfl := Except.ok.inj hmid
          rw [e.1]
          exact (and_iff_left_of_imp fun h _ => h).symm
        · obtain ⟨merged, hmerged, hmid⟩ := Checked.bind_eq_ok.1 hmid
          obtain rfl := Except.ok.inj hmid
          exact h.least_mergeListed hmerged
      rw [ih hout, hstep, and_assoc]
      refine and_congr_right fun _ => ⟨fun h hi => ?_, fun h => ⟨fun hi => ?_, fun hi => ?_⟩⟩
      · exact List.forall_mem_cons.2 ⟨h.1 hi, h.2 hi⟩
      · exact (List.forall_mem_cons.1 (h hi)).1
      · exact (List.forall_mem_cons.1 (h hi)).2
  exact fold rest hout

/-- The merge of states which agree on a property agrees with them. -/
theorem alike_mergeListed {which : IndexSet} (hs : m.Alike side i s X) (ht : m.Alike side i t X)
    (hr : m.mergeListed side which s t = .ok r) : m.Alike side i r X := by
  refine h.alike_of_iff fun Y => ?_
  rw [h.least_mergeListed hr, h.below_congr hs, h.below_congr ht]
  exact and_iff_left_of_imp fun hX _ => hX

theorem alike_mergeInto {which : IndexSet} {first : State} {rest : List State} {out : State × Bool}
    (hfirst : m.Alike side i first X) (hrest : ∀ s ∈ rest, m.Alike side i s X)
    (hout : m.mergeInto side which first rest = .ok out) : m.Alike side i out.1 X := by
  refine h.alike_of_iff fun Y => ?_
  rw [h.least_mergeInto hout, h.below_congr hfirst]
  exact and_iff_left_of_imp fun hX _ s hs => (h.below_congr (hrest s hs)).2 hX

end Lattice

/-- If no other state was met, all states are the first one. -/
theorem eq_of_mergeInto {which : IndexSet} {first r : State} {rest : List State}
    (h : m.mergeInto side which first rest = .ok (r, false)) : r = first ∧ ∀ s ∈ rest, s = first := by
  have fold : ∀ (rest : List State) {acc : State × Bool}, rest.foldlM (fun acc s => do
        if s = acc.1 ∧ s = first then return acc
        return (← m.mergeListed side which acc.1 s, true)) acc = (.ok (r, false) : Checked _) →
      acc = (r, false) ∧ ∀ s ∈ rest, s = first := by
    intro rest
    induction rest with
    | nil =>
      intro acc hout
      exact ⟨Except.ok.inj hout, nofun⟩
    | cons s rest ih =>
      intro acc hout
      rw [List.foldlM_cons] at hout
      obtain ⟨mid, hmid, hout⟩ := Checked.bind_eq_ok.1 hout
      obtain ⟨rfl, hall⟩ := ih hout
      split_ifs at hmid with e
      · refine ⟨Except.ok.inj hmid, fun u hu => ?_⟩
        rcases List.mem_cons.1 hu with rfl | hu
        · exact e.2
        · exact hall u hu
      · obtain ⟨merged, -, hmid⟩ := Checked.bind_eq_ok.1 hmid
        cases hmid
  obtain ⟨h1, h2⟩ := fold rest h
  exact ⟨(Prod.mk.inj h1).1.symm, h2⟩

end Model

/-! ### Specifications -/

namespace Spec

variable {t : Spec} {i : Nat} {side : Side} {q : Property}

theorem supports_of_check (h : t.check = .ok ()) (hq : q ∈ (t.properties.get side).toList) :
    q.relaxation.supports q.kind = true := by
  have := (check_eq_ok h).2 side q hq
  unfold checkProperty at this
  dsimp only at this
  split_ifs at this with hv hr
  simpa using hr

theorem least_numbers {layout : Layout} (hl : layout.Sound) {s : Slot} (hs : layout.slot? i = some s)
    (hset : s.kind.isSet = false) {pick : Nat → Nat → Nat} (hp : ∀ x y, pick x y = x ∨ pick x y = y)
    {R : Nat → Nat → Prop} (hR : ∀ x y z, R (pick x y) z ↔ R x z ∧ R y z) {a b c : Nat} :
    (∀ e < s.elements, R (s.readElement (s.mergeNumbers pick a b) e) (s.readElement c e)) ↔
      (∀ e < s.elements, R (s.readElement a e) (s.readElement c e)) ∧
        ∀ e < s.elements, R (s.readElement b e) (s.readElement c e) := by
  rw [← forall₂_and]
  refine forall₂_congr fun e he => ?_
  rw [(hl.numeric hs hset).readElement_mergeNumbers hp a b he, hR]

/-- How relaxed a registered property is can be read off its slot. -/
theorem below_iff (hq : (t.properties.get side)[i]? = some q) {slot : Slot}
    (hslot : (t.toModel.layout side).slot? i = some slot) {a b : State} :
    t.toModel.Below side i a b ↔ slot.Below q.relaxation a.bits b.bits := by
  refine ⟨fun h => h slot _ hslot (relaxation_toModel hq), fun h slot' r hs hr => ?_⟩
  obtain rfl := Option.some.inj (hslot.symm.trans hs)
  obtain rfl := Option.some.inj ((relaxation_toModel hq).symm.trans hr)
  exact h

/-- What a built-in relaxation merges is below whatever both states are below. -/
theorem least_mergeProperty (hc : t.check = .ok ()) {side : Side} (h : ∀ {i : Nat} {q : Property},
    (t.properties.get side)[i]? = some q → ∀ merge, q.relaxation ≠ .custom merge) {i : Nat} {s u r X : State}
    (hr : t.toModel.mergeProperty side u s i = .ok r) :
    t.toModel.Below side i r X ↔ t.toModel.Below side i s X ∧ t.toModel.Below side i u X := by
  have hsound := sound_layout hc side
  cases hslot : (t.toModel.layout side).slot? i with
  | none =>
    have trivially : ∀ a, t.toModel.Below side i a X := fun _ _ _ hs _ => by cases hslot.symm.trans hs
    exact iff_of_true (trivially r) ⟨trivially s, trivially u⟩
  | some slot =>
    obtain ⟨q, hq, hk⟩ := property_of_slot hslot
    have hfit := supports_of_check hc (Array.mem_toList_iff.2 (Array.mem_of_getElem? hq))
    rw [← hk] at hfit
    rw [below_iff hq hslot, below_iff hq hslot, below_iff hq hslot]
    unfold Model.mergeProperty at hr
    rw [relaxation_toModel hq, hslot] at hr
    cases hrel : q.relaxation <;> rw [hrel] at hr hfit
    · rw [← Except.ok.inj hr]
      exact least_numbers hsound hslot (by simpa [Relaxation.supports] using hfit) (fun x y => by omega)
        (R := fun x y => y ≤ x) fun x y z => by omega
    · rw [← Except.ok.inj hr]
      exact least_numbers hsound hslot (by simpa [Relaxation.supports] using hfit) (fun x y => by omega)
        (R := fun x y => x ≤ y) fun x y z => by omega
    · rw [← Except.ok.inj hr]
      simp only [Slot.Below, Slot.mem_mergeSet hfit, IndexSet.mem_union]
      refine ⟨fun h => ⟨fun e he => h e ⟨(Slot.mem_readSet.1 he).1, Or.inl he⟩,
        fun e he => h e ⟨(Slot.mem_readSet.1 he).1, Or.inr he⟩⟩, fun h e he => ?_⟩
      exact he.2.elim (h.1 e) (h.2 e)
    · rw [← Except.ok.inj hr]
      simp only [Slot.Below, Slot.mem_mergeSet hfit, IndexSet.mem_inter]
      refine ⟨fun h => ⟨fun e he => (h e he).2.1, fun e he => (h e he).2.2⟩, fun h e he => ?_⟩
      exact ⟨(Slot.mem_readSet.1 he).1, h.1 e he, h.2 e he⟩
    · rename_i merge
      exact absurd hrel (h hq merge)

/-- Built-in relaxations merge to the least value above. -/
theorem lattice (hc : t.check = .ok ()) {side : Side} (h : ∀ {i : Nat} {q : Property},
    (t.properties.get side)[i]? = some q → ∀ merge, q.relaxation ≠ .custom merge) :
    t.toModel.Lattice side where
  below := by
    intro i s u ha slot r hslot hr
    obtain ⟨q, hq, hk⟩ := property_of_slot hslot
    obtain rfl := Option.some.inj ((relaxation_toModel hq).symm.trans hr)
    exact Slot.below_of_agree (hk ▸ supports_of_check hc (Array.mem_toList_iff.2 (Array.mem_of_getElem? hq)))
      (ha slot hslot)
  alike := by
    intro i s u hs hu slot hslot
    obtain ⟨q, hq, hk⟩ := property_of_slot hslot
    exact Slot.agree_of_below (hk ▸ supports_of_check hc (Array.mem_toList_iff.2 (Array.mem_of_getElem? hq)))
      (hs slot _ hslot (relaxation_toModel hq)) (hu slot _ hslot (relaxation_toModel hq))
  merged := alike_merged hc h
  least := least_mergeProperty hc h
  joins := by
    intro u s i
    unfold Model.mergeProperty
    split
    · exact ⟨_, rfl⟩
    · exact ⟨_, rfl⟩
    · exact ⟨_, rfl⟩
    · exact ⟨_, rfl⟩
    · rename_i merge hrel
      cases hq : (t.properties.get side)[i]? with
      | none => cases (relaxation_eq_none hq).symm.trans hrel
      | some q =>
        rw [relaxation_toModel hq] at hrel
        exact absurd (Option.some.inj hrel) (h hq merge)
    · exact ⟨_, rfl⟩
  absent := by
    intro i s u hi slot hslot
    obtain ⟨q, hq, -⟩ := property_of_slot hslot
    exact absurd (Array.getElem?_eq_some_iff.1 hq).1 (Nat.not_lt.2 hi)

end Spec
end DecisionDiagrams
