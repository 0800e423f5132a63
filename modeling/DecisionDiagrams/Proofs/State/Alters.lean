import DecisionDiagrams.Proofs.Spec.Merging
import DecisionDiagrams.Proofs.State.Buffer

/-! What a change of one property can do. It is a change of bits which belong to elements of the property, and the
values are of their range afterwards. This holds of every write, as long as sets are combined with sets of the same
capacity, and of every merge. -/

namespace DecisionDiagrams

namespace Slot

variable {s : Slot} {a b e k n : Nat}

theorem isSet_of_lt_elements (he : e < s.elements) : s.kind.isSet = false := by
  unfold elements at he
  cases hk : s.kind with
  | set => simp [hk] at he
  | flag | integer | window => rfl

/-- The change is to elements of the property, and these have values of its range afterwards. -/
structure Alters (s : Slot) (a b : Nat) : Prop where
  kept : ∀ k, ¬ s.Holds k → b.testBit k = a.testBit k
  inRange : s.InRange b

theorem Holds.bounds (hv : s.kind.isValid = true) (h : s.Holds k) : s.offset ≤ k ∧ k < s.finish := by
  unfold Holds at h
  split_ifs at h with hs
  · have hw := s.width_le_setBits
    rw [finish_of_isSet hs]
    omega
  · obtain ⟨e, he, hlo, hhi⟩ := h
    have hn : s.Numeric := ⟨hv, by simpa using hs⟩
    have hle := hn.elementOffset_le_finish he
    have hge := s.offset_le_elementOffset e
    omega

theorem Alters.outside (hv : s.kind.isValid = true) (h : s.Alters a b) : s.Outside a b := by
  intro k
  by_cases hk : s.Holds k
  · exact Or.inr (hk.bounds hv)
  · exact Or.inl (h.kept k hk).symm

theorem Numeric.alters_writeElement (hn : s.Numeric) (he : e < s.elements) (ha : s.InRange a)
    (hlt : n < 2 ^ s.width) (hle : s.lower + (n : Int) ≤ s.upper) : s.Alters a (s.writeElement a e n) where
  kept k hk := by
    unfold Holds at hk
    rw [if_neg (by simp [hn.isSet])] at hk
    unfold writeElement
    rw [Field.testBit_write, if_neg fun h => hk ⟨e, he, h⟩]
  inRange := by
    unfold InRange number at *
    rw [if_neg (by simp [hn.isSet])] at *
    intro f hf
    by_cases hef : e = f
    · subst hef
      rwa [readElement_writeElement hlt]
    · rw [hn.readElement_writeElement_ne hef]
      exact ha f hf

theorem alters_writeSet (hs : s.kind.isSet = true) (ha : s.InRange a) {x : IndexSet} (hx : ∀ e ∈ x, e < s.width) :
    s.Alters a (s.writeSet a x) where
  kept _ hk := testBit_writeSet hs ha hx hk
  inRange := by
    unfold InRange
    rw [if_pos hs]
    intro e he
    exact hx e (mem_readSet_writeSet.1 he).2

theorem alters_merge (hv : s.kind.isValid = true) {r : Relaxation} (hr : r.supports s.kind = true) (ha : s.InRange a)
    (hb : s.InRange b) : s.Alters a (s.merge r a b) where
  kept _ hk := testBit_merge hr ha hb hk
  inRange := inRange_merge hv hr ha hb

end Slot

/-! ### Writing -/

/-- A set is combined with one of the same capacity, which has no elements from there on. -/
def SetEdit.matches (capacity : Nat) : SetEdit → Bool
  | .join t | .meet t | .overwrite t => t.capacity == capacity && t.contents.isSubset (.below capacity)
  | _ => true

/-- Sets are combined with sets of the same capacity. -/
def Write.matches (l : Layout) : Write → Bool
  | .set i edit => (l.slot? i).any fun s => edit.matches s.width
  | _ => true

theorem Write.matches_of_not_isSet {l : Layout} {x : Write} {s : Slot} (hx : x.fits l = true)
    (hs : l.slot? x.index = some s) (hset : s.kind.isSet = false) : x.matches l = true := by
  cases x with
  | flag | integer | element => rfl
  | set i edit =>
    obtain ⟨t, hf, -⟩ := (Option.any_eq_true _ _).1 hx
    obtain ⟨ht, hk⟩ := Layout.kind_of_set hf
    obtain rfl := Option.some.inj (hs.symm.trans ht)
    simp [hk, Kind.isSet] at hset

theorem SetEdit.lt_capacity {y : SetView} {edit : SetEdit} (hm : edit.matches y.capacity = true)
    (hy : ∀ e ∈ y.contents, e < y.capacity) : ∀ e ∈ (edit.apply y).contents, e < y.capacity := by
  have operand : ∀ {t : SetView}, (t.capacity == y.capacity && t.contents.isSubset (.below y.capacity)) = true →
      ∀ e ∈ t.contents, e < y.capacity := by
    intro t ht e he
    exact IndexSet.mem_below.1 (IndexSet.isSubset_iff.1 (Bool.and_eq_true_iff.1 ht).2 e he)
  intro e he
  cases edit with
  | insert f => exact (SetView.mem_insert.1 he).elim (hy e) fun h => h.1 ▸ h.2
  | erase f => exact hy e (SetView.mem_erase.1 he).1
  | clear => exact absurd he SetView.not_mem_clear
  | join t => exact (SetView.mem_join.1 he).elim (hy e) fun h => operand hm e h.2
  | meet t => exact hy e (SetView.mem_meet.1 he).1
  | overwrite t => exact operand hm e (SetView.mem_overwrite.1 he).2

namespace View

open Layout

variable {v : View} {s : Slot} {i : Nat}

/-- A write is to elements of its property. -/
theorem alters_perform (hl : v.layout.Sound) {x : Write} (hx : x.fits v.layout = true)
    (hm : x.matches v.layout = true) (hs : v.slot? x.index = some s) (hr : s.InRange v.state.bits) :
    s.Alters v.state.bits (v.perform x).state.bits := by
  have number : ∀ {e x}, e < s.elements → s.Alters v.state.bits (s.writeElement v.state.bits e (s.encode x)) := by
    intro e x he
    have hn : s.Numeric := hl.numeric hs (Slot.isSet_of_lt_elements he)
    have hle := hn.lower_le_upper
    refine hn.alters_writeElement he hr (Slot.encode_lt hn x) ?_
    unfold Slot.encode
    omega
  cases x with
  | flag i x =>
    obtain ⟨t, b, -, ht, hk⟩ := exists_flag hx
    obtain rfl := Option.some.inj (hs.symm.trans ht)
    have hn : s.Numeric := hl.numeric hs (by rw [hk]; rfl)
    have hle : x.toNat ≤ 1 := Bool.toNat_le x
    simp only [perform, setFlag, show v.slot? i = some s from hs, hk]
    apply hn.alters_writeElement (by simp [Slot.elements, hk]) hr
    · simp only [Slot.width, hk, Kind.width]
      omega
    · simp only [Slot.lower, Slot.upper, hk]
      omega
  | integer i x =>
    obtain ⟨t, y, lo, hi, -, ht, hk⟩ := exists_integer hx
    obtain rfl := Option.some.inj (hs.symm.trans ht)
    simp only [perform, setInteger, show v.slot? i = some s from hs, hk]
    exact number (by simp [Slot.elements, hk])
  | element i e x =>
    obtain ⟨t, hf, he⟩ := (Option.any_eq_true _ _).1 hx
    obtain ⟨ht, y, lo, hi, hk⟩ := kind_of_window hf
    obtain rfl := Option.some.inj (hs.symm.trans ht)
    simp only [perform, setWindowElement, show v.slot? i = some s from hs, hk]
    exact number (of_decide_eq_true he)
  | set i edit =>
    obtain ⟨t, hf, -⟩ := (Option.any_eq_true _ _).1 hx
    obtain ⟨ht, hk⟩ := kind_of_set hf
    obtain rfl := Option.some.inj (hs.symm.trans ht)
    have hset : s.kind.isSet = true := by rw [hk]; rfl
    have hm : edit.matches s.width = true := by simpa [Write.matches, show v.layout.slot? i = some s from hs] using hm
    simp only [perform, setSet, View.set, show v.slot? i = some s from hs, hk]
    exact Slot.alters_writeSet hset hr (SetEdit.lt_capacity hm fun e he => hr.lt_width hset he)

end View

end DecisionDiagrams
