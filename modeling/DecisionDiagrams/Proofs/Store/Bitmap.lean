import DecisionDiagrams.Store
import Mathlib.Data.Finset.Sort
import Mathlib.Data.Int.ConditionallyCompleteOrder
import Mathlib.Data.Int.Interval
import Mathlib.Order.ConditionallyCompleteLattice.Basic
import Mathlib.Tactic.Common

/-! Stored domains and the sets of integers they stand for. The marks, the bounds and the size of a domain
say the same thing three times; while values are taken out one by one the bounds are behind, which is what
`Loose` allows and what moving the bounds repairs. -/

namespace DecisionDiagrams

/-- The bounds, the size, the membership and the iteration of a domain are those of the set `D`. -/
structure Depicts (D : Finset ℤ) (lower upper : ℤ) (size : ℕ) (contains : ℤ → Bool) (values : List ℤ) :
    Prop where
  least : IsLeast (D : Set ℤ) lower
  greatest : IsGreatest (D : Set ℤ) upper
  size : size = D.card
  contains : ∀ v, contains v = true ↔ v ∈ D
  values : values = D.sort

namespace IntSet

variable {s : IntSet} {D : Finset ℤ}

theorem sort_toFinset (s : IntSet) : s.toList.toFinset.sort = s.toList :=
  (List.toFinset_sort _ s.increasing.nodup).2 (s.increasing.imp le_of_lt)

/-- An increasing list is the only one with its elements. -/
theorem toList_eq_sort (h : ∀ v, v ∈ s ↔ v ∈ D) : s.toList = D.sort := by
  have hD : s.toList.toFinset = D := by
    ext v
    rw [List.mem_toFinset]
    exact h v
  rw [← hD, sort_toFinset]

theorem size_eq_card (h : ∀ v, v ∈ s ↔ v ∈ D) : s.size = D.card := by
  rw [size, toList_eq_sort h, Finset.length_sort]

theorem isLeast_of_head? (h : ∀ v, v ∈ s ↔ v ∈ D) {lo : ℤ} (hlo : s.toList.head? = some lo) :
    IsLeast (D : Set ℤ) lo := by
  obtain ⟨rest, e⟩ := List.head?_eq_some_iff.1 hlo
  have hs := s.increasing
  rw [e, List.pairwise_cons] at hs
  refine ⟨(h lo).1 (by rw [mem_def, e]; exact List.mem_cons_self), fun v hv => ?_⟩
  have hv := (h v).2 hv
  rw [mem_def, e, List.mem_cons] at hv
  rcases hv with rfl | hv
  · exact le_rfl
  · exact (hs.1 v hv).le

theorem isGreatest_of_getLast? (h : ∀ v, v ∈ s ↔ v ∈ D) {hi : ℤ} (hhi : s.toList.getLast? = some hi) :
    IsGreatest (D : Set ℤ) hi := by
  obtain ⟨rest, e⟩ := List.getLast?_eq_some_iff.1 hhi
  have hs := s.increasing
  rw [e, List.pairwise_append] at hs
  refine ⟨(h hi).1 (by rw [mem_def, e]; simp), fun v hv => ?_⟩
  have hv := (h v).2 hv
  rw [mem_def, e, List.mem_append, List.mem_singleton] at hv
  rcases hv with hv | rfl
  · exact (hs.2.2 v hv hi (List.mem_singleton_self hi)).le
  · exact le_rfl

end IntSet

namespace Bitmap

variable {d : Bitmap} {D E : Finset ℤ} {u v lo hi : ℤ}

/-- The marks within the bounds are those of the elements of `E`, of which there are as many as the size
says. The bounds may be further apart than they have to be. -/
structure Loose (d : Bitmap) (E : Finset ℤ) : Prop where
  within : ∀ v ∈ E, d.lower ≤ v ∧ v ≤ d.upper
  marks : ∀ v, d.lower ≤ v → v ≤ d.upper → (d.marks v = true ↔ v ∈ E)
  size : d.size = E.card
  offset : d.offset ≤ d.lower
  room : d.upper < d.offset + d.present.size

/-- The domain stands for `D`: the bounds are values as well. -/
structure Represents (d : Bitmap) (D : Finset ℤ) : Prop extends d.Loose D where
  lower : d.lower ∈ D
  upper : d.upper ∈ D

theorem Loose.contains (h : d.Loose E) : d.contains v = true ↔ v ∈ E := by
  simp only [Bitmap.contains, Bool.and_eq_true, decide_eq_true_eq]
  constructor
  · rintro ⟨⟨hl, hu⟩, hm⟩
    exact (h.marks v hl hu).1 hm
  · intro hv
    obtain ⟨hl, hu⟩ := h.within v hv
    exact ⟨⟨hl, hu⟩, (h.marks v hl hu).2 hv⟩

theorem Loose.values (h : d.Loose E) : d.values = E.sort := by
  refine IntSet.toList_eq_sort (s := (IntSet.range d.lower d.upper).filter d.contains) fun v => ?_
  rw [IntSet.mem_filter, IntSet.mem_range, h.contains]
  exact and_iff_right_of_imp (h.within v)

theorem Represents.depicts (h : d.Represents D) : Depicts D d.lower d.upper d.size d.contains d.values where
  least := ⟨h.lower, fun v hv => (h.within v hv).1⟩
  greatest := ⟨h.upper, fun v hv => (h.within v hv).2⟩
  size := h.size
  contains _ := h.contains
  values := h.values

/-- Values from the offset on have places of their own. -/
theorem place_eq_iff (hu : d.offset ≤ u) (hv : d.offset ≤ v) : d.place u = d.place v ↔ u = v := by
  unfold place
  omega

theorem Loose.offset_le (h : d.Loose E) (hv : v ∈ E) : d.offset ≤ v :=
  h.offset.trans (h.within v hv).1

theorem Loose.place_lt (h : d.Loose E) (hv : v ∈ E) : d.place v < d.present.size := by
  have := h.offset_le hv
  have := h.room
  have := (h.within v hv).2
  unfold place
  omega

theorem marks_unmark (hv : d.offset ≤ v) (hu : d.offset ≤ u) :
    (d.unmark v).marks u = (decide (u ≠ v) && d.marks u) := by
  have hp := place_eq_iff hv hu
  show (d.present.setIfInBounds (d.place v) false).getD (d.place u) false = _
  rw [Array.getD_eq_getD_getElem?, Array.getElem?_setIfInBounds]
  by_cases e : v = u
  · subst e
    rw [if_pos rfl]
    split_ifs <;> simp
  · rw [if_neg (mt hp.1 e), ← Array.getD_eq_getD_getElem?, decide_eq_true (Ne.symm e), Bool.true_and]
    rfl

/-- Taking the mark of an element away takes the element away. -/
theorem Loose.unmark (h : d.Loose E) (hv : v ∈ E) : (d.unmark v).Loose (E.erase v) where
  within u hu := h.within u (Finset.mem_of_mem_erase hu)
  marks u hl hu := by
    rw [marks_unmark (h.offset_le hv) (h.offset.trans hl), Finset.mem_erase, ← h.marks u hl hu, Bool.and_eq_true,
      decide_eq_true_eq]
  size := by rw [Finset.card_erase_of_mem hv, ← h.size]; rfl
  offset := h.offset
  room := by
    have : (d.unmark v).present.size = d.present.size := Array.size_setIfInBounds
    rw [this]
    exact h.room

/-- Setting the mark again brings back the very same domain. -/
theorem Loose.remark_unmark (h : d.Loose E) (hv : v ∈ E) : (d.unmark v).remark v = d := by
  have hp := h.place_lt hv
  have hmark : d.present[d.place v] = true := by
    have := (h.marks v (h.within v hv).1 (h.within v hv).2).2 hv
    unfold Bitmap.marks at this
    rwa [Array.getD_eq_getD_getElem?, Array.getElem?_eq_getElem hp, Option.getD_some] at this
  have hsize : d.size - 1 + 1 = d.size := by
    have := Finset.card_pos.2 ⟨v, hv⟩
    have := h.size
    omega
  have hrow : (d.present.setIfInBounds (d.place v) false).setIfInBounds (d.place v) true = d.present := by
    refine Array.ext_getElem? fun i => ?_
    rw [Array.setIfInBounds_setIfInBounds, Array.getElem?_setIfInBounds]
    by_cases e : d.place v = i
    · rw [if_pos e, if_pos hp, ← e, Array.getElem?_eq_getElem hp, hmark]
    · rw [if_neg e]
  calc (d.unmark v).remark v
      = { d with
          present := (d.present.setIfInBounds (d.place v) false).setIfInBounds (d.place v) true
          size := d.size - 1 + 1 } := rfl
    _ = d := by rw [hrow, hsize]

theorem Loose.marked (h : d.Loose E) :
    v ∈ (IntSet.range d.lower d.upper).filter d.marks ↔ v ∈ E := by
  rw [IntSet.mem_filter, IntSet.mem_range]
  constructor
  · rintro ⟨⟨hl, hu⟩, hm⟩
    exact (h.marks v hl hu).1 hm
  · intro hv
    obtain ⟨hl, hu⟩ := h.within v hv
    exact ⟨⟨hl, hu⟩, (h.marks v hl hu).2 hv⟩

theorem Loose.isLeast_firstMarked (h : d.Loose E) (hE : E.Nonempty) : IsLeast (E : Set ℤ) d.firstMarked := by
  refine IntSet.isLeast_of_head? (fun _ => h.marked) ?_
  have hs : ((IntSet.range d.lower d.upper).toList.find? d.marks).isSome := by
    obtain ⟨v, hv⟩ := hE
    obtain ⟨hl, hu⟩ := h.within v hv
    exact List.find?_isSome.2 ⟨v, IntSet.mem_range.2 ⟨hl, hu⟩, (h.marks v hl hu).2 hv⟩
  obtain ⟨lo, e⟩ := Option.isSome_iff_exists.1 hs
  rw [firstMarked, IntSet.filter, List.head?_filter, e, Option.getD_some]

theorem Loose.isGreatest_lastMarked (h : d.Loose E) (hE : E.Nonempty) :
    IsGreatest (E : Set ℤ) d.lastMarked := by
  refine IntSet.isGreatest_of_getLast? (fun _ => h.marked) ?_
  have hs : ((IntSet.range d.lower d.upper).toList.reverse.find? d.marks).isSome := by
    obtain ⟨v, hv⟩ := hE
    obtain ⟨hl, hu⟩ := h.within v hv
    exact List.find?_isSome.2 ⟨v, List.mem_reverse.2 (IntSet.mem_range.2 ⟨hl, hu⟩), (h.marks v hl hu).2 hv⟩
  obtain ⟨hi, e⟩ := Option.isSome_iff_exists.1 hs
  rw [lastMarked, IntSet.filter, List.getLast?_eq_head?_reverse, ← List.filter_reverse, List.head?_filter, e,
    Option.getD_some]

/-- Moving the bounds to the outermost marks makes them values. -/
theorem Loose.tightened (h : d.Loose E) (hE : E.Nonempty) :
    (d.withBounds d.firstMarked d.lastMarked).Represents E := by
  have hl := h.isLeast_firstMarked hE
  have hu := h.isGreatest_lastMarked hE
  have first := h.within _ hl.1
  have last := h.within _ hu.1
  exact
    { within := fun v hv => ⟨hl.2 hv, hu.2 hv⟩
      marks := fun v h1 h2 => h.marks v (first.1.trans h1) (h2.trans last.2)
      size := h.size
      offset := h.offset.trans first.1
      room := last.2.trans_lt h.room
      lower := hl.1
      upper := hu.1 }

theorem forall_mem_erase {vs : List ℤ} (hv : v ∉ vs) (hvs : ∀ u ∈ v :: vs, u ∈ E) : ∀ u ∈ vs, u ∈ E.erase v :=
  fun u hu => Finset.mem_erase.2 ⟨fun e => hv (e ▸ hu), hvs u (List.mem_cons_of_mem _ hu)⟩

/-- Taking out several elements, one after another. -/
theorem Loose.foldl_unmark {vs : List ℤ} (h : d.Loose E) (hnodup : vs.Nodup) (hvs : ∀ v ∈ vs, v ∈ E) :
    (vs.foldl (fun d v => d.unmark v) d).Loose (E \ vs.toFinset) := by
  induction vs generalizing d E with
  | nil => simpa using h
  | cons v vs ih =>
    rw [List.nodup_cons] at hnodup
    have := ih (h.unmark (hvs v List.mem_cons_self)) hnodup.2 (forall_mem_erase hnodup.1 hvs)
    rwa [List.foldl_cons, List.toFinset_cons, Finset.sdiff_insert, ← Finset.erase_sdiff_comm]

/-! ### New domains -/

/-- The integers from `lo` to `hi`. -/
def interval (lo hi : ℤ) : Finset ℤ := (Finset.range (hi - lo + 1).toNat).image fun k : ℕ => lo + k

theorem mem_interval {v : ℤ} : v ∈ interval lo hi ↔ lo ≤ v ∧ v ≤ hi := by
  simp only [interval, Finset.mem_image, Finset.mem_range]
  refine ⟨?_, fun h => ⟨(v - lo).toNat, by omega, by omega⟩⟩
  rintro ⟨k, hk, rfl⟩
  omega

theorem card_interval : (interval lo hi).card = (hi - lo + 1).toNat := by
  rw [interval, Finset.card_image_of_injective _ fun j k h => by omega, Finset.card_range]

theorem nonempty_interval : (interval lo hi).Nonempty ↔ lo ≤ hi :=
  ⟨fun ⟨_, hv⟩ => (mem_interval.1 hv).1.trans (mem_interval.1 hv).2, fun h => ⟨lo, mem_interval.2 ⟨le_rfl, h⟩⟩⟩

/-- A range of all values of `D` can be created. -/
def narrow (D : Finset ℤ) : Bool := decide (∀ u ∈ D, ∀ v ∈ D, v - u < widest)

theorem narrow_iff (hlo : IsLeast (D : Set ℤ) lo) (hhi : IsGreatest (D : Set ℤ) hi) :
    narrow D = true ↔ hi - lo + 1 ≤ widest := by
  simp only [narrow, decide_eq_true_eq]
  constructor
  · intro h
    have := h lo hlo.1 hi hhi.1
    omega
  · intro h u hu v hv
    have := hlo.2 hu
    have := hhi.2 hv
    omega

theorem ofRange?_represents (h : ofRange? lo hi = some d) : d.Represents (interval lo hi) := by
  unfold ofRange? at h
  split_ifs at h with hw
  obtain rfl := Option.some.inj h
  have hwidth : (Array.replicate (hi - lo + 1).toNat true).size = (hi - lo + 1).toNat := Array.size_replicate
  exact
    { within := fun v hv => mem_interval.1 hv
      marks := fun v hl hu => by
        have hp : (v - lo).toNat < (hi - lo + 1).toNat := by dsimp only at hl hu; omega
        have hm : (Array.replicate (hi - lo + 1).toNat true).getD (v - lo).toNat false = true := by
          rw [Array.getD_eq_getD_getElem?, Array.getElem?_replicate, if_pos hp, Option.getD_some]
        exact iff_of_true hm (mem_interval.2 ⟨hl, hu⟩)
      size := card_interval.symm
      offset := le_rfl
      room := by dsimp only; rw [hwidth]; omega
      lower := mem_interval.2 ⟨le_rfl, hw.1⟩
      upper := mem_interval.2 ⟨hw.1, le_rfl⟩ }

theorem ofRange?_isSome :
    (ofRange? lo hi).isSome = true ↔ (interval lo hi).Nonempty ∧ narrow (interval lo hi) = true := by
  unfold ofRange?
  rw [nonempty_interval]
  by_cases h : lo ≤ hi
  · have hl : IsLeast (interval lo hi : Set ℤ) lo := ⟨mem_interval.2 ⟨le_rfl, h⟩, fun v hv => (mem_interval.1 hv).1⟩
    have hu : IsGreatest (interval lo hi : Set ℤ) hi := ⟨mem_interval.2 ⟨h, le_rfl⟩, fun v hv => (mem_interval.1 hv).2⟩
    rw [narrow_iff hl hu]
    split_ifs with hw
    · exact iff_of_true rfl hw
    · exact iff_of_false (by simp) hw
  · rw [if_neg fun hw => h hw.1]
    exact iff_of_false (by simp) fun hw => h hw.1

/-- The marks set for a list of values are those of its values. -/
theorem getD_foldl_mark {vs : List ℤ} {row : Array Bool} {i : ℕ} (hi : i < row.size) :
    (vs.foldl (fun row v => row.setIfInBounds (v - lo).toNat true) row).getD i false = true ↔
      row.getD i false = true ∨ ∃ v ∈ vs, (v - lo).toNat = i := by
  induction vs generalizing row with
  | nil => simp
  | cons v vs ih =>
    have hi' : i < (row.setIfInBounds (v - lo).toNat true).size := by rwa [Array.size_setIfInBounds]
    rw [List.foldl_cons, ih hi', Array.getD_eq_getD_getElem?, Array.getElem?_setIfInBounds]
    by_cases e : (v - lo).toNat = i
    · rw [if_pos e, if_pos (e ▸ hi)]
      exact iff_of_true (.inl rfl) (.inr ⟨v, List.mem_cons_self, e⟩)
    · rw [if_neg e, ← Array.getD_eq_getD_getElem?]
      refine or_congr_right ⟨fun ⟨u, hu, hp⟩ => ⟨u, List.mem_cons_of_mem _ hu, hp⟩, fun ⟨u, hu, hp⟩ => ?_⟩
      rcases List.mem_cons.1 hu with rfl | hu
      · exact absurd hp e
      · exact ⟨u, hu, hp⟩

theorem size_foldl_mark {vs : List ℤ} {row : Array Bool} :
    (vs.foldl (fun row v => row.setIfInBounds (v - lo).toNat true) row).size = row.size := by
  induction vs generalizing row with
  | nil => rfl
  | cons v vs ih => rw [List.foldl_cons, ih, Array.size_setIfInBounds]

theorem mem_ofList_iff {vs : List ℤ} (v : ℤ) : v ∈ IntSet.ofList vs ↔ v ∈ vs.toFinset := by
  rw [IntSet.mem_ofList, List.mem_toFinset]

theorem ofValues?_represents {vs : List ℤ} (h : ofValues? vs = some d) : d.Represents vs.toFinset := by
  unfold ofValues? at h
  dsimp only at h
  split at h
  · rename_i lo hi hlo hhi
    split_ifs at h with hw
    obtain rfl := Option.some.inj h
    have least := IntSet.isLeast_of_head? mem_ofList_iff hlo
    have greatest := IntSet.isGreatest_of_getLast? mem_ofList_iff hhi
    have hle := least.2 greatest.1
    exact
      { within := fun v hv => ⟨least.2 hv, greatest.2 hv⟩
        marks := fun v hl hu => by
          have hp : (v - lo).toNat < (Array.replicate (hi - lo + 1).toNat false).size := by
            rw [Array.size_replicate]; dsimp only at hl hu; omega
          have hblank : (Array.replicate (hi - lo + 1).toNat false).getD (v - lo).toNat false ≠ true := by
            rw [Array.getD_eq_getD_getElem?, Array.getElem?_replicate]
            split_ifs <;> exact Bool.false_ne_true
          refine (getD_foldl_mark hp).trans ?_
          rw [or_iff_right hblank, ← mem_ofList_iff]
          refine ⟨fun ⟨u, hmem, e⟩ => ?_, fun hv => ⟨v, hv, rfl⟩⟩
          have := least.2 ((mem_ofList_iff u).1 hmem)
          obtain rfl : u = v := by dsimp only at hl; omega
          exact hmem
        size := IntSet.size_eq_card mem_ofList_iff
        offset := le_rfl
        room := by dsimp only; rw [size_foldl_mark, Array.size_replicate]; omega
        lower := least.1
        upper := greatest.1 }
  · cases h

theorem ofValues?_isSome {vs : List ℤ} :
    (ofValues? vs).isSome = true ↔ vs.toFinset.Nonempty ∧ narrow vs.toFinset = true := by
  unfold ofValues?
  dsimp only
  split
  · rename_i lo hi hlo hhi
    have least := IntSet.isLeast_of_head? mem_ofList_iff hlo
    have greatest := IntSet.isGreatest_of_getLast? mem_ofList_iff hhi
    rw [narrow_iff least greatest]
    split_ifs with hw
    · exact iff_of_true rfl ⟨⟨lo, least.1⟩, hw⟩
    · exact iff_of_false (by simp) fun h => hw h.2
  · rename_i hnone
    refine iff_of_false (by simp) ?_
    rintro ⟨⟨v, hv⟩, -⟩
    have hne := List.ne_nil_of_mem ((mem_ofList_iff v).2 hv)
    exact hnone _ _ (List.head?_eq_some_head hne) (List.getLast?_eq_some_getLast hne)

end Bitmap
end DecisionDiagrams
