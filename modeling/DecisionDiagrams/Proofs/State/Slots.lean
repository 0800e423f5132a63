import DecisionDiagrams.Spec.Validity
import Mathlib.Algebra.Group.Nat.Defs
import Mathlib.Tactic.SplitIfs

/-! The bits of a property. Its elements have fields of their own inside its slot, and the slots of a
layout share no bits. So what is written to one property is read back, and no other one changes. -/

namespace DecisionDiagrams

namespace Kind

/-- The number every element has in a fresh state. -/
def initial : Kind → Int
  | .flag b => b.toNat
  | .integer x _ _ | .window _ x _ _ => x
  | .set _ => 0

theorem one_le_widthOfRange (lower upper : Int) : 1 ≤ widthOfRange lower upper := by
  unfold widthOfRange
  dsimp only
  split_ifs <;> omega

theorem span_lt (lower upper : Int) : (upper - lower).toNat < 2 ^ widthOfRange lower upper := by
  unfold widthOfRange
  dsimp only
  split_ifs with h
  · omega
  · exact Nat.lt_log2_self

theorem widthOfRange_le {lower upper : Int} (h : rangeFits lower upper = true) :
    widthOfRange lower upper ≤ 32 := by
  unfold rangeFits at h
  rw [Bool.and_eq_true, decide_eq_true_eq, decide_eq_true_eq] at h
  unfold widthOfRange
  dsimp only
  split_ifs with hs
  · omega
  · have : (upper - lower).toNat < 2 ^ 32 := by omega
    have := (Nat.log2_lt hs).2 this
    omega

end Kind

namespace Slot

variable {s t : Slot} {a b c e f n k : Nat}

/-- The first bit behind the slot. -/
def finish (s : Slot) : Nat := s.offset + Layout.extent s.kind

/-- The numbers differ in bits of the slot only. -/
def Outside (s : Slot) (a b : Nat) : Prop :=
  ∀ k, a.testBit k = b.testBit k ∨ s.offset ≤ k ∧ k < s.finish

/-- The slots share no bits. -/
def Apart (s t : Slot) : Prop := s.finish ≤ t.offset ∨ t.finish ≤ s.offset

theorem Outside.refl (s : Slot) (a : Nat) : s.Outside a a := fun _ => Or.inl rfl

theorem Outside.trans (h : s.Outside a b) (g : s.Outside b c) : s.Outside a c := by
  intro k
  rcases h k with hk | hk
  · exact (g k).imp_left hk.trans
  · exact Or.inr hk

/-- A number and its elements, one by one. -/
structure Numeric (s : Slot) : Prop where
  valid : s.kind.isValid = true
  isSet : s.kind.isSet = false

theorem Numeric.width_pos (h : s.Numeric) : 1 ≤ s.width := by
  unfold width Kind.width
  have := h.isSet
  cases hk : s.kind with
  | set c =>
    rw [hk] at this
    cases this
  | flag => exact Nat.le_refl 1
  | integer => exact Kind.one_le_widthOfRange _ _
  | window => exact Kind.one_le_widthOfRange _ _

theorem Numeric.width_le (h : s.Numeric) : s.width ≤ 32 := by
  have hv := h.valid
  unfold width Kind.width
  unfold Kind.isValid at hv
  have := h.isSet
  cases hk : s.kind with
  | set c =>
    rw [hk] at this
    cases this
  | flag => exact Nat.le_of_ble_eq_true rfl
  | integer _ lower upper =>
    rw [hk] at hv
    exact Kind.widthOfRange_le hv
  | window _ _ lower upper =>
    rw [hk] at hv
    exact Kind.widthOfRange_le (Bool.and_eq_true_iff.1 hv).2

theorem Numeric.perWord_pos (h : s.Numeric) : 0 < wordBits / s.width :=
  Nat.div_pos (Nat.le_trans h.width_le (by decide)) h.width_pos

theorem Numeric.perWord_mul_le (s : Slot) : wordBits / s.width * s.width ≤ wordBits :=
  Nat.div_mul_le_self _ _

theorem offset_le_elementOffset (s : Slot) (e : Nat) : s.offset ≤ s.elementOffset e := by
  unfold elementOffset
  dsimp only
  omega

/-- The field of an element ends within the words up to its own. -/
theorem Numeric.elementOffset_add_width_le (h : s.Numeric) (e : Nat) :
    s.elementOffset e + s.width ≤ s.offset + (e / (wordBits / s.width) + 1) * wordBits := by
  unfold elementOffset
  dsimp only
  have hm : e % (wordBits / s.width) + 1 ≤ wordBits / s.width := Nat.mod_lt _ h.perWord_pos
  have := Nat.le_trans (Nat.mul_le_mul_right s.width hm) (Numeric.perWord_mul_le s)
  rw [Nat.add_mul, Nat.one_mul] at this ⊢
  omega

theorem Numeric.elementOffset_lt (h : s.Numeric) (hlt : e < f) :
    s.elementOffset e + s.width ≤ s.elementOffset f := by
  rcases Nat.lt_or_eq_of_le (Nat.div_le_div_right (c := wordBits / s.width) (Nat.le_of_lt hlt))
    with hd | hd
  · have h1 := h.elementOffset_add_width_le e
    have h2 := Nat.mul_le_mul_right wordBits hd
    refine Nat.le_trans h1 ?_
    unfold elementOffset
    dsimp only
    rw [Nat.succ_mul] at h2
    rw [Nat.add_mul]
    omega
  · have hm : e % (wordBits / s.width) + 1 ≤ f % (wordBits / s.width) := by
      have he := Nat.div_add_mod e (wordBits / s.width)
      have hf := Nat.div_add_mod f (wordBits / s.width)
      rw [hd] at he
      omega
    have := Nat.mul_le_mul_right s.width hm
    unfold elementOffset
    dsimp only
    rw [hd]
    rw [Nat.add_mul, Nat.one_mul] at this
    omega

/-- Different elements have disjoint fields. -/
theorem Numeric.disjoint (h : s.Numeric) (hne : e ≠ f) :
    s.elementOffset e + s.width ≤ s.elementOffset f ∨
      s.elementOffset f + s.width ≤ s.elementOffset e := by
  rcases Nat.lt_or_gt_of_ne hne with hlt | hlt
  · exact Or.inl (h.elementOffset_lt hlt)
  · exact Or.inr (h.elementOffset_lt hlt)

/-- The fields of the elements lie in the slot. -/
theorem Numeric.elementOffset_le_finish (h : s.Numeric) (he : e < s.elements) :
    s.elementOffset e + s.width ≤ s.finish := by
  have hset := h.isSet
  unfold finish Layout.extent
  unfold elements at he
  cases hk : s.kind with
  | set c =>
    rw [hk] at hset
    cases hset
  | flag =>
    rw [hk] at he
    obtain rfl : e = 0 := Nat.lt_one_iff.1 he
    simp [elementOffset, width, hk]
  | integer =>
    rw [hk] at he
    obtain rfl : e = 0 := Nat.lt_one_iff.1 he
    simp [elementOffset, width, hk]
  | window length =>
    rw [hk] at he
    dsimp only at he ⊢
    refine Nat.le_trans (h.elementOffset_add_width_le e) ?_
    have hw : s.width = s.kind.width := rfl
    rw [← hk, ← hw]
    have hp := h.perWord_pos
    have hd : e / (wordBits / s.width) + 1 ≤
        (length + wordBits / s.width - 1) / (wordBits / s.width) := by
      rw [← Nat.add_div_right _ hp]
      exact Nat.div_le_div_right (by omega)
    exact Nat.add_le_add_left (Nat.mul_le_mul_right _ hd) _

theorem finish_of_isSet (h : s.kind.isSet = true) : s.finish = s.offset + s.setBits := by
  unfold finish Layout.extent setBits setWords width
  cases hk : s.kind with
  | set c => rfl
  | flag => rw [hk] at h; cases h
  | integer => rw [hk] at h; cases h
  | window => rw [hk] at h; cases h

/-! ### Writing -/

theorem outside_write {offset width : Nat} (h1 : s.offset ≤ offset) (h2 : offset + width ≤ s.finish)
    (a v : Nat) : s.Outside a (Field.write a offset width v) := by
  intro k
  rw [Field.testBit_write]
  split_ifs with hk
  · exact Or.inr ⟨Nat.le_trans h1 hk.1, Nat.lt_of_lt_of_le hk.2 h2⟩
  · exact Or.inl rfl

theorem Numeric.outside_writeElement (h : s.Numeric) (he : e < s.elements) (a v : Nat) :
    s.Outside a (s.writeElement a e v) :=
  outside_write (s.offset_le_elementOffset e) (h.elementOffset_le_finish he) a v

theorem outside_writeSet (h : s.kind.isSet = true) (a : Nat) (v : IndexSet) :
    s.Outside a (s.writeSet a v) :=
  outside_write (Nat.le_refl _) (Nat.le_of_eq (finish_of_isSet h).symm) a v.bits

theorem readElement_lt (s : Slot) (a e : Nat) : s.readElement a e < 2 ^ s.width := by
  rw [← Nat.one_shiftLeft]
  exact Field.read_lt _ _ _

theorem readElement_writeElement {v : Nat} (hv : v < 2 ^ s.width) (a e : Nat) :
    s.readElement (s.writeElement a e v) e = v := by
  unfold readElement writeElement
  rw [Field.read_write_self, Nat.one_shiftLeft, Nat.mod_eq_of_lt hv]

theorem Numeric.readElement_writeElement_ne (h : s.Numeric) (hne : e ≠ f) (a v : Nat) :
    s.readElement (s.writeElement a e v) f = s.readElement a f := by
  unfold readElement writeElement
  exact Field.read_write_of_disjoint (h.disjoint hne).symm

theorem mem_readSet : e ∈ s.readSet a ↔ e < s.setBits ∧ a.testBit (s.offset + e) = true := by
  unfold readSet
  rw [IndexSet.mem_def, Field.testBit_read, Bool.and_eq_true, decide_eq_true_eq]

theorem mem_readSet_writeSet {v : IndexSet} :
    e ∈ s.readSet (s.writeSet a v) ↔ e < s.setBits ∧ e ∈ v := by
  rw [mem_readSet]
  refine and_congr_right fun he => ?_
  unfold writeSet
  rw [Field.testBit_write, if_pos (by omega), IndexSet.mem_def, Nat.add_sub_cancel_left]

/-- Writing an element after the other of what is computed from its old value. -/
def rewrite (s : Slot) (g : Nat → Nat → Nat) (n a : Nat) : Nat :=
  (List.range n).foldl (fun t e => s.writeElement t e (g e (s.readElement t e))) a

theorem rewrite_succ (s : Slot) (g : Nat → Nat → Nat) (n a : Nat) :
    s.rewrite g (n + 1) a =
      s.writeElement (s.rewrite g n a) n (g n (s.readElement (s.rewrite g n a) n)) := by
  unfold rewrite
  rw [List.range_succ, List.foldl_append]
  rfl

theorem Numeric.readElement_rewrite (h : s.Numeric) {g : Nat → Nat → Nat}
    (hg : ∀ e x, x < 2 ^ s.width → g e x < 2 ^ s.width) (a e : Nat) : ∀ n,
    s.readElement (s.rewrite g n a) e =
      if e < n then g e (s.readElement a e) else s.readElement a e
  | 0 => rfl
  | n + 1 => by
    rw [rewrite_succ]
    have ih := h.readElement_rewrite hg a e n
    by_cases hn : n = e
    · subst hn
      rw [readElement_writeElement (hg _ _ (readElement_lt _ _ _)), ih, if_neg (Nat.lt_irrefl _),
        if_pos (Nat.lt_succ_self _)]
    · rw [h.readElement_writeElement_ne hn, ih]
      have : e < n ↔ e < n + 1 := by omega
      simp only [this]

theorem Numeric.outside_rewrite (h : s.Numeric) (g : Nat → Nat → Nat) (a : Nat) : ∀ {n},
    n ≤ s.elements → s.Outside a (s.rewrite g n a)
  | 0, _ => .refl _ _
  | n + 1, hn => by
    rw [rewrite_succ]
    exact (h.outside_rewrite g a (Nat.le_of_succ_le hn)).trans (h.outside_writeElement hn _ _)

/-! ### Copying and merging -/

theorem copy_of_not_isSet (h : s.kind.isSet = false) (a b : Nat) :
    s.copy a b = s.rewrite (fun e _ => s.readElement b e) s.elements a := by
  unfold copy
  rw [if_neg (by simp [h])]
  rfl

theorem mergeNumbers_eq (s : Slot) (pick : Nat → Nat → Nat) (a b : Nat) :
    s.mergeNumbers pick a b = s.rewrite (fun e x => pick x (s.readElement b e)) s.elements a := rfl

theorem Numeric.readElement_copy (h : s.Numeric) (a b : Nat) (he : e < s.elements) :
    s.readElement (s.copy a b) e = s.readElement b e := by
  rw [copy_of_not_isSet h.isSet, h.readElement_rewrite (fun e _ _ => readElement_lt s b e),
    if_pos he]

theorem readSet_copy (h : s.kind.isSet = true) (a b : Nat) : e ∈ s.readSet (s.copy a b) ↔
    e ∈ s.readSet b := by
  unfold copy
  rw [if_pos h, mem_readSet_writeSet, mem_readSet]
  exact and_self_left

theorem outside_copy (h : s.kind.isValid = true) (a b : Nat) : s.Outside a (s.copy a b) := by
  cases hs : s.kind.isSet with
  | true =>
    unfold copy
    rw [if_pos hs]
    exact outside_writeSet hs a _
  | false =>
    rw [copy_of_not_isSet hs]
    exact (Numeric.mk h hs).outside_rewrite _ a (Nat.le_refl _)

theorem Numeric.readElement_mergeNumbers (h : s.Numeric) {pick : Nat → Nat → Nat}
    (hp : ∀ x y, pick x y = x ∨ pick x y = y) (a b : Nat) (he : e < s.elements) :
    s.readElement (s.mergeNumbers pick a b) e = pick (s.readElement a e) (s.readElement b e) := by
  rw [mergeNumbers_eq, h.readElement_rewrite (fun e x hx => ?_), if_pos he]
  rcases hp x (s.readElement b e) with e1 | e1 <;> rw [e1]
  · exact hx
  · exact readElement_lt s b e

theorem outside_mergeNumbers (h : s.Numeric) (pick : Nat → Nat → Nat) (a b : Nat) :
    s.Outside a (s.mergeNumbers pick a b) := by
  rw [mergeNumbers_eq]
  exact h.outside_rewrite _ a (Nat.le_refl _)

theorem mergeNumbers_of_isSet (h : s.kind.isSet = true) (pick : Nat → Nat → Nat) (a b : Nat) :
    s.mergeNumbers pick a b = a := by
  unfold mergeNumbers elements
  cases hk : s.kind with
  | set c => rfl
  | flag => rw [hk] at h; cases h
  | integer => rw [hk] at h; cases h
  | window => rw [hk] at h; cases h

theorem mem_mergeSet (h : s.kind.isSet = true) {pick : IndexSet → IndexSet → IndexSet} (a b : Nat) :
    e ∈ s.readSet (s.mergeSet pick a b) ↔ e < s.setBits ∧ e ∈ pick (s.readSet a) (s.readSet b) := by
  unfold mergeSet
  rw [if_pos h, mem_readSet_writeSet]

theorem outside_mergeSet (s : Slot) (pick : IndexSet → IndexSet → IndexSet) (a b : Nat) :
    s.Outside a (s.mergeSet pick a b) := by
  unfold mergeSet
  split_ifs with h
  · exact outside_writeSet h a _
  · exact .refl _ _

/-! ### Other slots -/

theorem agree_iff : s.agree a b = true ↔
    if s.kind.isSet = true then ∀ e, e ∈ s.readSet a ↔ e ∈ s.readSet b
    else ∀ e < s.elements, s.readElement a e = s.readElement b e := by
  unfold agree
  split_ifs with h
  · rw [beq_iff_eq]
    refine ⟨fun h e => h ▸ Iff.rfl, fun h => ?_⟩
    refine congrArg IndexSet.mk (Nat.eq_of_testBit_eq fun i => Bool.eq_iff_iff.2 (h i))
  · simp

theorem agree_symm (h : s.agree a b = true) : s.agree b a = true := by
  rw [agree_iff] at h ⊢
  split_ifs at h ⊢
  · exact fun e => (h e).symm
  · exact fun e he => (h e he).symm

theorem agree_trans (h : s.agree a b = true) (g : s.agree b c = true) : s.agree a c = true := by
  rw [agree_iff] at h g ⊢
  split_ifs at h g ⊢
  · exact fun e => (h e).trans (g e)
  · exact fun e he => (h e he).trans (g e he)

theorem agree_of_outside (hv : s.kind.isValid = true) (ha : s.Apart t) (h : t.Outside a b) :
    s.agree a b = true := by
  have bit : ∀ k, s.offset ≤ k → k < s.finish → a.testBit k = b.testBit k := by
    intro k h1 h2
    refine (h k).resolve_right fun h3 => ?_
    unfold Apart at ha
    omega
  rw [agree_iff]
  split_ifs with hs
  · intro e
    rw [mem_readSet, mem_readSet]
    refine and_congr_right fun he => ?_
    rw [bit _ (by omega) (by rw [finish_of_isSet hs]; omega)]
  · intro e he
    have hn : s.Numeric := ⟨hv, by simpa using hs⟩
    have hle := hn.elementOffset_le_finish he
    have hge := s.offset_le_elementOffset e
    refine Nat.eq_of_testBit_eq fun i => ?_
    unfold readElement
    rw [Field.testBit_read, Field.testBit_read]
    by_cases hi : i < s.width
    · rw [bit _ (by omega) (by omega)]
    · simp [hi]

/-! ### Numbers -/

/-- The number of an element, as long as the stored distance belongs to the range. -/
def number (s : Slot) (a e : Nat) : Int := s.lower + (s.readElement a e : Int)

theorem lower_le_number (s : Slot) (a e : Nat) : s.lower ≤ s.number a e := by
  unfold number
  omega

theorem decode_readElement (h : s.number a e ≤ s.upper) :
    s.decode (s.readElement a e) = s.number a e := if_pos h

theorem Numeric.lower_le_upper (h : s.Numeric) : s.lower ≤ s.upper := by
  have hv := h.valid
  have hs := h.isSet
  unfold lower upper
  unfold Kind.isValid Kind.rangeFits at hv
  cases hk : s.kind with
  | set c => exact absurd hs (by rw [hk]; nofun)
  | flag => exact Int.le.intro 1 rfl
  | integer =>
    rw [hk] at hv
    simp only [Bool.and_eq_true, decide_eq_true_eq] at hv
    exact hv.1
  | window =>
    rw [hk] at hv
    simp only [Bool.and_eq_true, decide_eq_true_eq] at hv
    exact hv.2.1

theorem encode_lt (h : s.Numeric) (v : Int) : s.encode v < 2 ^ s.width := by
  have hlu := h.lower_le_upper
  have hs := h.isSet
  have hle : s.encode v ≤ (s.upper - s.lower).toNat := by
    unfold encode
    omega
  refine Nat.lt_of_le_of_lt hle ?_
  unfold upper lower width Kind.width
  cases hk : s.kind with
  | set c => exact absurd hs (by rw [hk]; nofun)
  | flag => exact Nat.lt_of_sub_eq_succ rfl
  | integer => exact Kind.span_lt _ _
  | window => exact Kind.span_lt _ _

/-- A number is stored after moving it into the range. -/
theorem Numeric.number_writeElement (h : s.Numeric) (a e : Nat) (v : Int) :
    s.number (s.writeElement a e (s.encode v)) e = max s.lower (min s.upper v) := by
  have := h.lower_le_upper
  unfold number
  rw [readElement_writeElement (encode_lt h v)]
  unfold encode
  omega

end Slot

/-! ### Layouts -/

namespace Layout

theorem le_roundUp (n : Nat) : n ≤ roundUp n := by
  unfold roundUp wordsFor wordBits
  omega

theorem le_start (n : Nat) (k : Kind) : n ≤ start n k := by
  unfold start
  split
  · split_ifs
    · exact le_roundUp n
    · exact Nat.le_refl n
  · split_ifs
    · exact le_roundUp n
    · exact Nat.le_refl n
  · exact le_roundUp n
  · exact le_roundUp n

/-- The slots follow each other and end before the last used bit. -/
structure Spaced (l : Layout) : Prop where
  within : ∀ i s, l.slot? i = some s → s.finish ≤ l.bits
  ordered : ∀ i j s t, i < j → l.slot? i = some s → l.slot? j = some t → s.finish ≤ t.offset

theorem Spaced.push {l : Layout} (h : l.Spaced) (k : Kind) : (l.push k).Spaced := by
  have cases : ∀ i s, (l.push k).slot? i = some s →
      (i < l.slots.size ∧ l.slot? i = some s) ∨ (i = l.slots.size ∧ s = ⟨k, start l.bits k⟩) := by
    intro i s hs
    unfold Layout.push slot? at hs
    rw [Array.getElem?_push] at hs
    split_ifs at hs with e
    · exact Or.inr ⟨e, (Option.some.inj hs).symm⟩
    · exact Or.inl ⟨(Array.getElem?_eq_some_iff.1 hs).1, hs⟩
  have hle := le_start l.bits k
  constructor
  · intro i s hs
    rcases cases i s hs with ⟨-, hs⟩ | ⟨-, rfl⟩
    · have := h.within i s hs
      show _ ≤ start l.bits k + extent k
      omega
    · exact Nat.le_refl _
  · intro i j s t hij hs ht
    rcases cases i s hs with ⟨-, hs⟩ | ⟨hi, -⟩
    · rcases cases j t ht with ⟨-, ht⟩ | ⟨-, rfl⟩
      · exact h.ordered i j s t hij hs ht
      · exact Nat.le_trans (h.within i s hs) hle
    · rcases cases j t ht with ⟨hj, -⟩ | ⟨hj, -⟩ <;> omega

theorem spaced_ofKinds (ks : List Kind) : (ofKinds ks).Spaced := by
  unfold ofKinds
  have start : Spaced {} := by
    constructor
    · intro i s hs
      cases hs
    · intro i j s t _ hs
      cases hs
  revert start
  generalize ({} : Layout) = l
  induction ks generalizing l with
  | nil => exact id
  | cons k ks ih => exact fun h => ih (l.push k) (h.push k)

theorem kinds_foldl_push (ks : List Kind) (l : Layout) :
    (ks.foldl push l).slots.toList.map Slot.kind = l.slots.toList.map Slot.kind ++ ks := by
  induction ks generalizing l with
  | nil => simp
  | cons k ks ih =>
    rw [List.foldl_cons, ih]
    simp [push]

/-- The slots have the kinds they were made for. -/
theorem kind_ofKinds (ks : List Kind) (i : Nat) :
    ((ofKinds ks).slot? i).map Slot.kind = ks[i]? := by
  have h := kinds_foldl_push ks {}
  unfold ofKinds slot?
  rw [← Array.getElem?_toList, ← List.getElem?_map, h]
  rfl

theorem Spaced.apart {l : Layout} (h : l.Spaced) {i j : Nat} {s t : Slot} (hne : i ≠ j)
    (hs : l.slot? i = some s) (ht : l.slot? j = some t) : s.Apart t := by
  rcases Nat.lt_or_gt_of_ne hne with hlt | hlt
  · exact Or.inl (h.ordered i j s t hlt hs ht)
  · exact Or.inr (h.ordered j i t s hlt ht hs)

end Layout

end DecisionDiagrams
