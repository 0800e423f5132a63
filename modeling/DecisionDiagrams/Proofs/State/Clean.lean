import DecisionDiagrams.Proofs.Spec.Declared
import DecisionDiagrams.Proofs.Spec.Merging
import DecisionDiagrams.Proofs.State.ReadBack

/-! States without stray bits. Between the properties there are bits which belong to none of them, and the last
word of a set has bits behind its capacity. Nothing is ever written there, whether a property is written, copied
from another state or merged with it. So two states have the same bits as soon as every property reads the same. -/

namespace DecisionDiagrams

namespace Layout

variable {l : Layout} {s : Slot} {i a b : Nat}

theorem Sound.alters_copy (hl : l.Sound) (hs : l.slot? i = some s) (ha : s.InRange a) (hb : s.InRange b) :
    s.Alters a (s.copy a b) where
  kept k hk := by
    cases hset : s.kind.isSet with
    | true =>
      unfold Slot.copy
      rw [if_pos hset]
      exact Slot.testBit_writeSet hset ha (fun e he => hb.lt_width hset he) hk
    | false =>
      -- Copying is merging where the other number is always taken.
      have e : s.copy a b = s.mergeNumbers (fun _ y => y) a b := by
        rw [Slot.copy_of_not_isSet hset, Slot.mergeNumbers_eq]
      rw [e]
      exact Slot.testBit_mergeNumbers hset _ b hk
  inRange := hb.congr (Spec.agree_copy hl hs a b)

/-! ### Whole states -/

/-- Every property has values of its range, and no other bit is set. -/
structure Clean (l : Layout) (a : Nat) : Prop where
  inRange : ∀ i s, l.slot? i = some s → s.InRange a
  held : ∀ k, a.testBit k = true → ∃ i s, l.slot? i = some s ∧ s.Holds k

theorem clean_zero (hl : l.Sound) : l.Clean 0 where
  inRange i s hs := by
    unfold Slot.InRange
    split_ifs with hset
    · intro e he
      have := (Slot.mem_readSet.1 he).2
      simp at this
    · intro e he
      exact View.ranged_zero hl i s hs e he
  held k hk := by simp at hk

theorem Clean.alters (hl : l.Sound) (h : l.Clean a) (hs : l.slot? i = some s) (g : s.Alters a b) : l.Clean b where
  inRange j t ht := by
    by_cases hij : j = i
    · subst hij
      obtain rfl := Option.some.inj (hs.symm.trans ht)
      exact g.inRange
    · have ha := Slot.agree_of_outside (hl.valid j t ht) (hl.apart hij ht hs) (g.outside (hl.valid i s hs))
      exact (h.inRange j t ht).congr ha
  held k hk := by
    by_cases hin : s.Holds k
    · exact ⟨i, s, hs, hin⟩
    · exact h.held k ((g.kept k hin).symm.trans hk)

/-- Without stray bits, states are the same if all properties have the same bits. -/
theorem Clean.eq_iff (ha : l.Clean a) (hb : l.Clean b) :
    a = b ↔ ∀ i s, l.slot? i = some s → s.agree a b = true := by
  constructor
  · rintro rfl i s -
    exact s.agree_self a
  · intro h
    refine Nat.eq_of_testBit_eq fun k => ?_
    by_cases hk : ∃ i s, l.slot? i = some s ∧ s.Holds k
    · obtain ⟨i, s, hs, hin⟩ := hk
      exact Slot.testBit_of_agree (h i s hs) hin
    · rw [Bool.eq_false_iff.2 (mt (ha.held k) hk), Bool.eq_false_iff.2 (mt (hb.held k) hk)]

/-- Every number of a property can be read. -/
theorem exists_cell {e : Nat} (hs : l.slot? i = some s) (he : e < s.elements) : ∃ c : Cell, c.within l = true ∧
    c.index = i ∧ ∀ x : State, s.number x.bits e ≤ s.upper → View.read ⟨l, x⟩ c = s.number x.bits e := by
  have slot : ∀ x, View.slot? ⟨l, x⟩ i = some s := fun _ => hs
  cases hk : s.kind with
  | flag b =>
    obtain rfl : e = 0 := by simpa [Slot.elements, hk] using he
    have hf : l.slotOf? i .flag = some s := slotOf?_eq_some.2 ⟨hs, by rw [hk]; rfl⟩
    refine ⟨.flag i, by simp [Cell.within, hf], rfl, fun x _ => ?_⟩
    have hlt : s.readElement x.bits 0 < 2 := by simpa [Slot.width, hk, Kind.width] using s.readElement_lt x.bits 0
    have hnum : s.number x.bits 0 = s.readElement x.bits 0 := by simp [Slot.number, Slot.lower, hk]
    have hflag := View.flag_eq (slot x) hk
    rw [hnum] at hflag ⊢
    show (View.flag ⟨l, x⟩ i).toInt = _
    cases hv : View.flag ⟨l, x⟩ i with
    | true => exact (hflag.1 hv).symm
    | false =>
      have hne : ((s.readElement x.bits 0 : Nat) : Int) ≠ 1 := fun h => by simp [hflag.2 h] at hv
      simp only [Bool.toInt_false]
      omega
  | integer y lo hi =>
    obtain rfl : e = 0 := by simpa [Slot.elements, hk] using he
    have hf : l.slotOf? i .integer = some s := slotOf?_eq_some.2 ⟨hs, by rw [hk]; rfl⟩
    exact ⟨.integer i, by simp [Cell.within, hf], rfl, fun x hx => View.integer_eq (slot x) hk hx⟩
  | set c => simp [Slot.elements, hk] at he
  | window length y lo hi =>
    have hf : l.slotOf? i .window = some s := slotOf?_eq_some.2 ⟨hs, by rw [hk]; rfl⟩
    exact ⟨.element i e, by simp [Cell.within, hf, he], rfl, fun x hx => View.windowElement_eq (slot x) hk hx⟩

/-- A property has the same bits if everything which can be read of it is the same. -/
theorem agree_iff_read {x y : State} (hs : l.slot? i = some s) (hx : s.InRange x.bits) (hy : s.InRange y.bits) :
    s.agree x.bits y.bits = true ↔
      ∀ c : Cell, c.within l = true → c.index = i → View.read ⟨l, x⟩ c = View.read ⟨l, y⟩ c := by
  constructor
  · rintro h c hc rfl
    refine (View.read_congr (v := ⟨l, x⟩) (w := ⟨l, y⟩) hc rfl fun t ht => ?_).symm
    obtain rfl := Option.some.inj (hs.symm.trans ht)
    exact h
  intro h
  rw [Slot.agree_iff]
  split_ifs with hset
  · -- Elements from the capacity on are in neither set, and the others can be read.
    obtain ⟨c, hk⟩ := Slot.exists_capacity hset
    have hf : l.slotOf? i .set = some s := slotOf?_eq_some.2 ⟨hs, by rw [hk]; rfl⟩
    have member : ∀ z : State, s.InRange z.bits → ∀ e,
        View.read ⟨l, z⟩ (.member i e) = (decide (e ∈ s.readSet z.bits)).toInt := by
      intro z hz e
      have hle : e ∈ s.readSet z.bits → e < c := fun he => by simpa [Slot.width, hk, Kind.width] using hz.lt_width hset he
      refine congrArg Bool.toInt (Bool.eq_iff_iff.2 ?_)
      rw [View.set_eq (v := ⟨l, z⟩) hs hk, SetView.contains_iff, decide_eq_true_iff]
      exact and_iff_right_of_imp hle
    intro e
    have same := h (.member i e) (by simp [Cell.within, hf]) rfl
    rw [member x hx, member y hy] at same
    by_cases h1 : e ∈ s.readSet x.bits <;> by_cases h2 : e ∈ s.readSet y.bits <;> simp_all
  · intro e he
    unfold Slot.InRange at hx hy
    rw [if_neg hset] at hx hy
    obtain ⟨c, hc, hi, hread⟩ := exists_cell hs he
    have same := h c hc hi
    rw [hread x (hx e he), hread y (hy e he)] at same
    unfold Slot.number at same
    omega

end Layout
end DecisionDiagrams
