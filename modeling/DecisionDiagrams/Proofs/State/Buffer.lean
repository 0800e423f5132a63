import DecisionDiagrams.Proofs.State.Sets
import DecisionDiagrams.Proofs.State.Words
import DecisionDiagrams.Proofs.State.Writes

/-! A state in its words shows the same as the number which the words spell. In a layout of valid kinds every
element lies in one word and every set in whole words, all of them words of the state. So nothing which fits the
layout is refused, whatever is read is what the number gives, and after a change the words spell the changed
number. -/

namespace DecisionDiagrams

open Words

/-! ### Where properties lie -/

/-- Each element lies in one word, and a set begins with a word. -/
structure Slot.Aligned (s : Slot) : Prop where
  element : ∀ e < s.elements, s.elementOffset e % wordBits + s.width ≤ wordBits
  set : s.kind.isSet = true → s.offset % wordBits = 0

theorem Slot.Numeric.aligned_window {s : Slot} (hn : s.Numeric) (h : s.offset % wordBits = 0) (e : Nat) :
    s.elementOffset e % wordBits + s.width ≤ wordBits := by
  have hm : e % (wordBits / s.width) + 1 ≤ wordBits / s.width := Nat.mod_lt _ hn.perWord_pos
  have hle := Nat.le_trans (Nat.mul_le_mul_right s.width hm) (Slot.Numeric.perWord_mul_le s)
  rw [Nat.add_mul, Nat.one_mul] at hle
  have hp := hn.width_pos
  unfold Slot.elementOffset
  dsimp only
  generalize e % (wordBits / s.width) * s.width = r at hle ⊢
  generalize e / (wordBits / s.width) = q
  unfold wordBits at *
  omega

theorem Layout.roundUp_mod (n : Nat) : roundUp n % wordBits = 0 := Nat.mul_mod_left _ _

theorem Slot.aligned_start {k : Kind} (hv : k.isValid = true) (n : Nat) :
    (Slot.mk k (Layout.start n k)).Aligned := by
  have scalar : k.isSet = false → (Slot.mk k (Layout.start n k)).elements = 1 →
      Layout.start n k = (if n % wordBits + k.width > wordBits then Layout.roundUp n else n) →
      (Slot.mk k (Layout.start n k)).Aligned := by
    intro hs he hstart
    have hn : (Slot.mk k (Layout.start n k)).Numeric := ⟨hv, hs⟩
    have hw : k.width ≤ 32 := hn.width_le
    refine ⟨fun e h => ?_, fun h => absurd (hs.symm.trans h) Bool.false_ne_true⟩
    obtain rfl : e = 0 := by omega
    have zero : (Slot.mk k (Layout.start n k)).elementOffset 0 = Layout.start n k := by simp [Slot.elementOffset]
    rw [zero, hstart]
    show _ + k.width ≤ _
    split_ifs with h
    · rw [Layout.roundUp_mod]
      unfold wordBits
      omega
    · omega
  cases hk : k with
  | flag => exact hk ▸ scalar (by rw [hk]; rfl) (by rw [hk]; rfl) (by rw [hk]; rfl)
  | integer => exact hk ▸ scalar (by rw [hk]; rfl) (by rw [hk]; rfl) (by rw [hk]; rfl)
  | set c => exact ⟨fun e he => absurd he (Nat.not_lt_zero e), fun _ => Layout.roundUp_mod n⟩
  | window length x lo hi =>
    have hn : (Slot.mk (.window length x lo hi) (Layout.start n (.window length x lo hi))).Numeric :=
      ⟨hk ▸ hv, rfl⟩
    exact ⟨fun e _ => hn.aligned_window (Layout.roundUp_mod n) e, fun _ => Layout.roundUp_mod n⟩

namespace Layout

/-- The properties lie one behind the other in whole words, and offsets have no more than 32 bits. -/
structure Packed (l : Layout) : Prop extends l.Sound where
  aligned : ∀ i s, l.slot? i = some s → s.Aligned
  narrow : l.bits < 2 ^ 32

theorem slot?_push {l : Layout} {k : Kind} {i : Nat} {s : Slot} (h : (l.push k).slot? i = some s) :
    l.slot? i = some s ∨ s = ⟨k, start l.bits k⟩ := by
  unfold push slot? at h
  rw [Array.getElem?_push] at h
  split_ifs at h with e
  · exact Or.inr (Option.some.inj h).symm
  · exact Or.inl h

theorem started_foldl_push (ks : List Kind) : ∀ {l : Layout} {i : Nat} {s : Slot},
    (ks.foldl push l).slot? i = some s →
      l.slot? i = some s ∨ s.kind ∈ ks ∧ ∃ n, s = ⟨s.kind, start n s.kind⟩ := by
  induction ks with
  | nil => exact Or.inl
  | cons k ks ih =>
    intro l i s h
    rcases ih h with h | ⟨hm, hn⟩
    · rcases slot?_push h with h | rfl
      · exact Or.inl h
      · exact Or.inr ⟨List.mem_cons_self, _, rfl⟩
    · exact Or.inr ⟨List.mem_cons_of_mem _ hm, hn⟩

theorem packed_ofKinds {ks : List Kind} (hv : ∀ k ∈ ks, k.isValid = true) (h : (ofKinds ks).bits < 2 ^ 32) :
    (ofKinds ks).Packed := by
  have started : ∀ i s, (ofKinds ks).slot? i = some s → s.kind ∈ ks ∧ ∃ n, s = ⟨s.kind, start n s.kind⟩ :=
    fun i s hs => (started_foldl_push ks hs).resolve_left nofun
  refine ⟨⟨spaced_ofKinds ks, fun i s hs => hv _ (started i s hs).1⟩, fun i s hs => ?_, h⟩
  obtain ⟨hm, n, e⟩ := started i s hs
  rw [e]
  exact Slot.aligned_start (hv _ hm) n

end Layout

/-- The words are those of a state of the layout and spell the number. -/
structure Layout.Stores (l : Layout) (ws : Array Word) (a : Nat) : Prop where
  size : ws.size = l.words
  spells : Spells ws a

theorem Layout.stores_blank (l : Layout) : l.Stores l.blank 0 := ⟨Array.size_replicate, spells_blank _⟩

/-! ### Elements and sets -/

section

variable {l : Layout} {s : Slot} {i e a b : Nat} {ws vs part : Array Word} (hl : l.Packed)
  (hs : l.slot? i = some s)
include hl hs

theorem Layout.Packed.finish_le : s.finish ≤ l.words * wordBits :=
  Nat.le_trans (hl.within i s hs) (Layout.le_roundUp l.bits)

theorem Layout.Packed.place? (hn : s.Numeric) (he : e < s.elements) :
    s.place? e = some (s.elementOffset e) ∧ s.elementOffset e / wordBits < l.words := by
  have hle := hn.elementOffset_le_finish he
  have hpos := hn.width_pos
  have hfin := hl.finish_le hs
  have hbits := hl.within i s hs
  have hnarrow := hl.narrow
  refine ⟨if_neg ?_, (Nat.div_lt_iff_lt_mul (by decide)).2 (by omega)⟩
  rintro (h | h | h)
  · omega
  · exact Nat.ne_of_gt hn.perWord_pos h
  · simp only [UInt32.size] at h
    omega

theorem Layout.Stores.element? (h : l.Stores ws a) (hn : s.Numeric) (he : e < s.elements) :
    ∃ w, s.element? ws e = some w ∧ w.toNat = s.readElement a e := by
  obtain ⟨hp, hlt⟩ := hl.place? hs hn he
  obtain ⟨w, hw, hread⟩ := h.spells.readBits? (by rwa [h.size]) ((hl.aligned i s hs).element e he)
  exact ⟨w, by simp [Slot.element?, hp, hw], hread⟩

theorem Layout.Stores.putElement? (h : l.Stores ws a) (hn : s.Numeric) (he : e < s.elements) (v : Word) :
    ∃ vs, s.putElement? ws e v = some vs ∧ l.Stores vs (s.writeElement a e v.toNat) := by
  obtain ⟨hp, hlt⟩ := hl.place? hs hn he
  obtain ⟨vs, hvs, hsize, hspell⟩ := h.spells.writeBits? (by rwa [h.size]) ((hl.aligned i s hs).element e he) v
  exact ⟨vs, by simp [Slot.putElement?, hp, hvs], hsize.trans h.size, hspell⟩

theorem Layout.Packed.set_le (hset : s.kind.isSet = true) :
    s.offset / wordBits * wordBits = s.offset ∧ s.offset / wordBits + s.setWords ≤ l.words := by
  have hmod := (hl.aligned i s hs).set hset
  have hfin := hl.finish_le hs
  rw [Slot.finish_of_isSet hset] at hfin
  unfold Slot.setBits at hfin
  unfold wordBits at *
  omega

theorem Layout.Stores.part? (h : l.Stores ws a) (hset : s.kind.isSet = true) :
    ∃ part, s.part? ws = some part ∧ part.size = s.setWords ∧ Spells part (s.readSet a).bits := by
  obtain ⟨hoff, hle⟩ := hl.set_le hs hset
  have hsize := h.size
  refine ⟨_, if_pos (by omega), by rw [Array.size_extract]; omega, fun k => ?_⟩
  rw [bit_extract, hoff, h.spells]
  exact (Field.testBit_read a s.offset s.setBits k).symm

theorem Layout.Stores.putPart (h : l.Stores ws a) (hset : s.kind.isSet = true) (hsize : part.size = s.setWords)
    {x : IndexSet} (hx : Spells part x.bits) : l.Stores (s.putPart ws part) (s.writeSet a x) := by
  obtain ⟨hoff, hle⟩ := hl.set_le hs hset
  refine ⟨Array.size_mapIdx.trans h.size, fun k => ?_⟩
  unfold Slot.writeSet
  rw [Field.testBit_write]
  rcases Nat.lt_or_ge (k / wordBits) ws.size with hk | hk
  · have hget := Array.getElem?_eq_getElem hk
    unfold Slot.putPart
    rw [bit_mapIdx _ _ hk]
    by_cases hin : s.offset / wordBits ≤ k / wordBits ∧ k / wordBits - s.offset / wordBits < part.size
    · have hsub : (k - s.offset) / wordBits = k / wordBits - s.offset / wordBits := by unfold wordBits at *; omega
      have hmod : (k - s.offset) % wordBits = k % wordBits := by unfold wordBits at *; omega
      rw [if_pos hin.1, if_pos (by unfold Slot.setBits wordBits at *; omega), ← hx (k - s.offset),
        bit_of_getElem? hsub (Array.getElem?_eq_getElem hin.2), hmod, Array.getD_eq_getD_getElem?,
        Array.getElem?_eq_getElem hin.2, Option.getD_some]
    · have outside : ¬ (s.offset ≤ k ∧ k < s.offset + s.setBits) := by unfold Slot.setBits wordBits at *; omega
      rw [if_neg outside, ← h.spells k, bit_of_getElem? rfl hget]
      split_ifs with h1
      · rw [Array.getD_eq_getD_getElem?, Array.getElem?_eq_none (by omega), Option.getD_none]
      · rfl
  · have hge : l.words * wordBits ≤ k := by
      have := h.size ▸ hk
      unfold wordBits at *
      omega
    rw [bit_of_ge (by rw [Slot.putPart, Array.size_mapIdx, h.size]; exact hge),
      if_neg (by unfold Slot.setBits wordBits at *; omega), ← h.spells k, bit_of_ge (by rw [h.size]; exact hge)]

end

/-! ### Changing sets -/

theorem Word.getLsbD_single {j : Nat} (hj : j < wordBits) (i : Nat) :
    ((1 : Word) <<< j).getLsbD i = decide (i = j) := by
  rw [show (1 : Word) = 1#64 from rfl, ← BitVec.twoPow_eq, BitVec.getLsbD_twoPow]
  refine Bool.eq_iff_iff.2 ?_
  simp only [Bool.and_eq_true, decide_eq_true_eq]
  exact ⟨fun h => h.2.symm, fun h => ⟨hj, h.symm⟩⟩

theorem Word.and_single_ne_zero {j : Nat} (hj : j < wordBits) (w : Word) :
    (w &&& (1 : Word) <<< j != 0) = w.getLsbD j := by
  have hne : BitVec.twoPow 64 j ≠ 0#64 := by
    intro h
    have := congrArg (fun x => x.getLsbD j) h
    rw [BitVec.getLsbD_twoPow, BitVec.getLsbD_zero, decide_eq_true rfl, Bool.and_true] at this
    exact of_decide_eq_false this hj
  rw [show (1 : Word) = 1#64 from rfl, ← BitVec.twoPow_eq, BitVec.and_twoPow]
  cases w.getLsbD j with
  | true => exact bne_iff_ne.2 hne
  | false => exact bne_self_eq_false _

theorem Words.size_toWords (t : SetView) : t.toWords.size = t.words := Array.size_ofFn

theorem Words.bit_toWords (t : SetView) (k : Nat) :
    bit t.toWords k = true ↔ k < t.words * wordBits ∧ k ∈ t.contents := by
  have hsize := size_toWords t
  rcases Nat.lt_or_ge k (t.words * wordBits) with hk | hk
  · have hq : k / wordBits < t.words := (Nat.div_lt_iff_lt_mul (by decide)).2 hk
    have hget : t.toWords[k / wordBits]? =
        some (BitVec.ofNat 64 (t.contents.bits >>> (k / wordBits * wordBits))) := by
      rw [Array.getElem?_eq_getElem (hsize.symm ▸ hq)]
      simp [SetView.toWords]
    have hmod : k % wordBits < 64 := Nat.mod_lt _ (by decide)
    rw [bit_of_getElem? rfl hget, BitVec.getLsbD_ofNat, Nat.testBit_shiftRight, Nat.mul_comm, Nat.div_add_mod,
      decide_eq_true hmod, Bool.true_and]
    exact (and_iff_right hk).symm
  · rw [bit_of_ge (hsize.symm ▸ hk)]
    exact iff_of_false Bool.false_ne_true fun h => Nat.not_lt.2 hk h.1

namespace Words

variable {part : Array Word} {x : IndexSet} {a c e : Nat}

theorem Spells.contains? (h : Spells part x.bits) (hsize : part.size = wordsFor c) (e : Nat) :
    contains? c part e = some ((SetView.mk x c).contains e) := by
  unfold Words.contains? SetView.contains
  by_cases he : e < c
  · have hq : e / wordBits < part.size := by
      rw [hsize]
      unfold wordsFor wordBits
      omega
    have hget := Array.getElem?_eq_getElem hq
    have hbit : part[e / wordBits].getLsbD (e % wordBits) = x.contains e :=
      (bit_of_getElem? rfl hget).symm.trans (h e)
    rw [if_pos he, hget]
    simp only [Option.bind_eq_bind, Option.bind_some, Word.shiftLeft?_mod]
    rw [Word.and_single_ne_zero (Nat.mod_lt e (by decide)), hbit, decide_eq_true he, Bool.true_and]
    rfl
  · rw [if_neg he]
    simp [he]

/-- Setting the bit of an element to `v`. -/
theorem Spells.changeWord? (h : Spells part a) (hsize : part.size = wordsFor c) {f : Word → Word → Word} {v : Bool}
    (hf : ∀ w {j}, j < wordBits → ∀ i < wordBits, (f w ((1 : Word) <<< j)).getLsbD i = if i = j then v else w.getLsbD i) :
    ∃ vs, changeWord? c part e f = some vs ∧ vs.size = part.size ∧
      ∀ k, bit vs k = if k = e ∧ e < c then v else a.testBit k := by
  unfold Words.changeWord?
  by_cases he : e < c
  · have hq : e / wordBits < part.size := by
      rw [hsize]
      unfold wordsFor wordBits
      omega
    have hget := Array.getElem?_eq_getElem hq
    rw [if_pos he, hget]
    refine ⟨_, by simp only [Option.bind_eq_bind, Option.bind_some, Word.shiftLeft?_mod]; rfl, by simp, fun k => ?_⟩
    rw [bit_setIfInBounds hq]
    split_ifs with h1 h2 h2
    · rw [hf _ (Nat.mod_lt _ (by decide)) _ (Nat.mod_lt _ (by decide)), if_pos (by rw [h2.1])]
    · have hne : k % wordBits ≠ e % wordBits := fun h3 => h2 ⟨by unfold wordBits at *; omega, he⟩
      rw [hf _ (Nat.mod_lt _ (by decide)) _ (Nat.mod_lt _ (by decide)), if_neg hne, ← h k, bit_of_getElem? h1 hget]
    · exact absurd (by rw [h2.1]) h1
    · exact h k
  · rw [if_neg he]
    exact ⟨part, rfl, rfl, fun k => by rw [if_neg fun h2 => he h2.2]; exact h k⟩

end Words

/-- A set can be copied into one which has as many words. -/
def SetEdit.fits (capacity : Nat) : SetEdit → Bool
  | .overwrite t => t.words == wordsFor capacity
  | _ => true

namespace Words

variable {part other : Array Word} {x : IndexSet} {c k : Nat}

theorem spells_iff : Spells part x.bits ↔ ∀ k, bit part k = true ↔ k ∈ x :=
  forall_congr' fun _ => Bool.eq_iff_iff

theorem size_combine (f : Word → Word → Word) (d : Word) : (combine f d part other).size = part.size :=
  Array.size_mapIdx

theorem bit_combine {f : Word → Word → Word} {g : Bool → Bool → Bool}
    (hf : ∀ w u i, (f w u).getLsbD i = g (w.getLsbD i) (u.getLsbD i)) (d : Word)
    (hk : k < part.size * wordBits) : bit (combine f d part other) k =
      g (bit part k) (if k < other.size * wordBits then bit other k else d.getLsbD (k % wordBits)) := by
  have hq : k / wordBits < part.size := (Nat.div_lt_iff_lt_mul (by decide)).2 hk
  unfold combine
  rw [bit_mapIdx _ _ hq, hf, bit_of_getElem? rfl (Array.getElem?_eq_getElem hq)]
  congr 1
  unfold bit
  rw [Array.getD_eq_getD_getElem?, Array.getD_eq_getD_getElem?]
  split_ifs with h
  · rw [Array.getElem?_eq_getElem ((Nat.div_lt_iff_lt_mul (by decide)).2 h), Option.getD_some, Option.getD_some]
  · rw [Array.getElem?_eq_none ((Nat.le_div_iff_mul_le (by decide)).2 (Nat.le_of_not_lt h)), Option.getD_none]

theorem Spells.lt_of_mem (h : Spells part x.bits) (hk : k ∈ x) : k < part.size * wordBits := by
  refine Nat.lt_of_not_le fun hge => ?_
  have := (spells_iff.1 h k).2 hk
  rw [bit_of_ge hge] at this
  cases this

/-- The shared bits of a set with a given number of words. -/
theorem sharedBits_eq (hsize : part.size = wordsFor c) (t : SetView) :
    (SetView.mk x c).sharedBits t = min part.size t.words * wordBits := by
  rw [hsize]
  rfl

theorem Spells.insert (h : Spells part x.bits) (hsize : part.size = wordsFor c) (e : Nat) :
    ∃ vs, Words.changeWord? c part e (fun w bit => w ||| bit) = some vs ∧ vs.size = part.size ∧
      Spells vs ((SetView.mk x c).insert e).contents.bits := by
  obtain ⟨vs, hvs, hs, hbit⟩ := h.changeWord? hsize (e := e) (v := true) (f := fun w bit => w ||| bit)
    fun w j hj i _ => by
      rw [BitVec.getLsbD_or, Word.getLsbD_single hj]
      split_ifs with hij <;> simp [hij]
  refine ⟨vs, hvs, hs, spells_iff.2 fun k => Iff.trans ?_ SetView.mem_insert.symm⟩
  rw [hbit]
  split_ifs with hk
  · exact iff_of_true rfl (Or.inr ⟨hk.1, hk.1 ▸ hk.2⟩)
  · refine Iff.trans ?_ (or_iff_left ?_).symm
    · exact Iff.rfl
    · rintro ⟨rfl, hlt⟩
      exact hk ⟨rfl, hlt⟩

theorem Spells.erase (h : Spells part x.bits) (hsize : part.size = wordsFor c) (e : Nat) :
    ∃ vs, Words.changeWord? c part e (fun w bit => w &&& ~~~bit) = some vs ∧ vs.size = part.size ∧
      Spells vs ((SetView.mk x c).erase e).contents.bits := by
  obtain ⟨vs, hvs, hs, hbit⟩ := h.changeWord? hsize (e := e) (v := false) (f := fun w bit => w &&& ~~~bit)
    fun w j hj i hi => by
      rw [BitVec.getLsbD_and, BitVec.getLsbD_not, Word.getLsbD_single hj]
      split_ifs with hij <;> simp [hij, show i < 64 from hi]
  refine ⟨vs, hvs, hs, spells_iff.2 fun k => Iff.trans ?_ SetView.mem_erase.symm⟩
  rw [hbit]
  split_ifs with hk
  · exact iff_of_false id fun hm => hm.2 ⟨hk.1, hk.1 ▸ hk.2⟩
  · refine Iff.trans ?_ (and_iff_left ?_).symm
    · exact Iff.rfl
    · rintro ⟨rfl, hlt⟩
      exact hk ⟨rfl, hlt⟩

theorem spells_cleared (part : Array Word) : Spells (part.map fun _ => 0) IndexSet.empty.bits := by
  refine spells_iff.2 fun k => iff_of_false ?_ IndexSet.not_mem_empty
  unfold bit
  rw [Array.getD_eq_getD_getElem?, Array.getElem?_map]
  cases part[k / wordBits]? <;> simp

theorem Spells.join (h : Spells part x.bits) (hsize : part.size = wordsFor c) (t : SetView) :
    Spells (Words.combine (· ||| ·) 0 part t.toWords) ((SetView.mk x c).join t).contents.bits := by
  have hx := spells_iff.1 h
  refine spells_iff.2 fun k => Iff.trans ?_ SetView.mem_join.symm
  rw [sharedBits_eq hsize]
  rcases Nat.lt_or_ge k (part.size * wordBits) with hk | hk
  · rw [bit_combine (g := or) (fun _ _ _ => BitVec.getLsbD_or) 0 hk, Bool.or_eq_true, hx]
    refine or_congr_right ?_
    rw [size_toWords]
    split_ifs with ht
    · rw [bit_toWords]
      exact and_congr_left' (by unfold wordBits at *; omega)
    · exact iff_of_false (by simp) fun hm => ht (by unfold wordBits at *; omega)
  · rw [bit_of_ge (by rwa [size_combine])]
    refine iff_of_false Bool.false_ne_true (not_or.2 ⟨fun hm => ?_, fun hm => ?_⟩)
    · exact absurd (h.lt_of_mem hm) (Nat.not_lt.2 hk)
    · unfold wordBits at *
      omega

theorem Spells.meet (h : Spells part x.bits) (hsize : part.size = wordsFor c) (t : SetView) :
    Spells (Words.combine (· &&& ·) (BitVec.allOnes 64) part t.toWords)
      ((SetView.mk x c).meet t).contents.bits := by
  have hx := spells_iff.1 h
  refine spells_iff.2 fun k => Iff.trans ?_ SetView.mem_meet.symm
  rw [sharedBits_eq hsize]
  rcases Nat.lt_or_ge k (part.size * wordBits) with hk | hk
  · rw [bit_combine (g := and) (fun _ _ _ => BitVec.getLsbD_and) _ hk, Bool.and_eq_true, hx]
    refine and_congr_right fun _ => ?_
    rw [size_toWords]
    split_ifs with ht
    · rw [bit_toWords, and_iff_right ht]
      exact (imp_iff_right (by unfold wordBits at *; omega)).symm
    · have hmod : k % wordBits < 64 := Nat.mod_lt _ (by decide)
      refine iff_of_true (by rw [BitVec.getLsbD_allOnes]; exact decide_eq_true hmod) fun hm => absurd ?_ ht
      unfold wordBits at *
      omega
  · rw [bit_of_ge (by rwa [size_combine])]
    exact iff_of_false Bool.false_ne_true fun hm => absurd (h.lt_of_mem hm.1) (Nat.not_lt.2 hk)

/-- A changed set keeps its words, and they spell the changed contents. -/
theorem Spells.edit? (h : Spells part x.bits) (hsize : part.size = wordsFor c) {edit : SetEdit}
    (hfit : edit.fits c = true) : ∃ vs, Words.edit? c part edit = some vs ∧ vs.size = part.size ∧
      Spells vs (edit.apply ⟨x, c⟩).contents.bits := by
  cases edit with
  | insert e => exact h.insert hsize e
  | erase e => exact h.erase hsize e
  | clear => exact ⟨_, rfl, Array.size_map, spells_cleared part⟩
  | join t => exact ⟨_, rfl, size_combine _ _, h.join hsize t⟩
  | meet t => exact ⟨_, rfl, size_combine _ _, h.meet hsize t⟩
  | overwrite t =>
    have hw : t.words = wordsFor c := beq_iff_eq.1 hfit
    have hs : t.toWords.size = part.size := by rw [size_toWords, hw, hsize]
    refine ⟨_, if_pos hs, hs, spells_iff.2 fun k => Iff.trans ?_ SetView.mem_overwrite.symm⟩
    rw [bit_toWords, hw]
    rfl

end Words

/-! ### What fits a layout -/

/-- The property has the form which is written, there is such an element, and a set is copied from one with as many
words. -/
def Write.fits (l : Layout) : Write → Bool
  | .flag i _ => (l.slotOf? i .flag).isSome
  | .integer i _ => (l.slotOf? i .integer).isSome
  | .element i e _ => (l.slotOf? i .window).any fun s => decide (e < s.elements)
  | .set i edit => (l.slotOf? i .set).any fun s => edit.fits s.width

/-- The property has the form which is read, and there is such an element. -/
def Cell.within (l : Layout) : Cell → Bool
  | .flag i => (l.slotOf? i .flag).isSome
  | .integer i => (l.slotOf? i .integer).isSome
  | .element i e => (l.slotOf? i .window).any fun s => decide (e < s.elements)
  | .member i _ => (l.slotOf? i .set).isSome

def Write.index : Write → Nat
  | .flag i _ | .integer i _ | .element i _ _ | .set i _ => i

def Cell.index : Cell → Nat
  | .flag i | .integer i | .element i _ | .member i _ => i

def Write.form : Write → Form
  | .flag .. => .flag
  | .integer .. => .integer
  | .element .. => .window
  | .set .. => .set

def Cell.form : Cell → Form
  | .flag _ => .flag
  | .integer _ => .integer
  | .element .. => .window
  | .member .. => .set

theorem Layout.slotOf?_eq_some {l : Layout} {i : Nat} {form : Form} {s : Slot} :
    l.slotOf? i form = some s ↔ l.slot? i = some s ∧ s.kind.form = form := by
  unfold slotOf?
  rw [Option.filter_eq_some_iff, decide_eq_true_iff]

namespace Layout

variable {l : Layout} {i : Nat} {s : Slot}

theorem exists_flag (h : (l.slotOf? i .flag).isSome = true) :
    ∃ s b, l.slotOf? i .flag = some s ∧ l.slot? i = some s ∧ s.kind = .flag b := by
  obtain ⟨s, hf⟩ := Option.isSome_iff_exists.1 h
  obtain ⟨hs, hform⟩ := slotOf?_eq_some.1 hf
  cases hk : s.kind with
  | flag b => exact ⟨s, b, hf, hs, hk⟩
  | integer | set | window => exact absurd hform (by rw [hk]; nofun)

theorem exists_integer (h : (l.slotOf? i .integer).isSome = true) :
    ∃ s x lo hi, l.slotOf? i .integer = some s ∧ l.slot? i = some s ∧ s.kind = .integer x lo hi := by
  obtain ⟨s, hf⟩ := Option.isSome_iff_exists.1 h
  obtain ⟨hs, hform⟩ := slotOf?_eq_some.1 hf
  cases hk : s.kind with
  | integer x lo hi => exact ⟨s, x, lo, hi, hf, hs, hk⟩
  | flag | set | window => exact absurd hform (by rw [hk]; nofun)

theorem kind_of_set (h : l.slotOf? i .set = some s) : l.slot? i = some s ∧ s.kind = .set s.width := by
  obtain ⟨hs, hform⟩ := slotOf?_eq_some.1 h
  refine ⟨hs, ?_⟩
  unfold Slot.width
  cases hk : s.kind with
  | set c => rfl
  | flag | integer | window => exact absurd hform (by rw [hk]; nofun)

theorem kind_of_window (h : l.slotOf? i .window = some s) :
    l.slot? i = some s ∧ ∃ x lo hi, s.kind = .window s.elements x lo hi := by
  obtain ⟨hs, hform⟩ := slotOf?_eq_some.1 h
  refine ⟨hs, ?_⟩
  unfold Slot.elements
  cases hk : s.kind with
  | window length x lo hi => exact ⟨x, lo, hi, rfl⟩
  | flag | integer | set => exact absurd hform (by rw [hk]; nofun)

end Layout

/-! ### Reading and writing -/

section

variable {l : Layout} {s : Slot} {i : Nat} {v : View} {ws : Array Word}

theorem Slot.Numeric.toNat_ofNat {n : Nat} (hn : s.Numeric) (h : n < 2 ^ s.width) :
    (BitVec.ofNat 64 n).toNat = n := by
  rw [BitVec.toNat_ofNat]
  refine Nat.mod_eq_of_lt (Nat.lt_of_lt_of_le h (Nat.pow_le_pow_right (by decide) ?_))
  exact Nat.le_trans hn.width_le (by decide)

theorem Layout.Stores.perform? (hl : l.Packed) (h : l.Stores ws v.state.bits) (hv : v.layout = l) {w : Write}
    (hw : w.fits l = true) : ∃ vs, l.perform? ws w = some vs ∧ l.Stores vs (v.perform w).state.bits := by
  subst hv
  cases w with
  | flag i x =>
    obtain ⟨s, b, hf, hs, hk⟩ := exists_flag hw
    have hslot : v.slot? i = some s := hs
    have hn : s.Numeric := hl.numeric hs (by rw [hk]; rfl)
    have hx : x.toNat < 2 ^ s.width := by
      rw [Slot.width, hk]
      exact Bool.toNat_lt x
    obtain ⟨vs, hvs, hst⟩ := h.putElement? hl hs hn (e := 0) (by simp [Slot.elements, hk]) (BitVec.ofNat 64 x.toNat)
    rw [hn.toNat_ofNat hx] at hst
    refine ⟨vs, by simp [Layout.perform?, hf, hvs], ?_⟩
    simp only [View.perform, View.setFlag, hslot, hk]
    exact hst
  | integer i x =>
    obtain ⟨s, y, lo, hi, hf, hs, hk⟩ := exists_integer hw
    have hslot : v.slot? i = some s := hs
    have hn : s.Numeric := hl.numeric hs (by rw [hk]; rfl)
    obtain ⟨vs, hvs, hst⟩ := h.putElement? hl hs hn (e := 0) (by simp [Slot.elements, hk])
      (BitVec.ofNat 64 (s.encode x))
    rw [hn.toNat_ofNat (Slot.encode_lt hn x)] at hst
    refine ⟨vs, by simp [Layout.perform?, hf, hvs], ?_⟩
    simp only [View.perform, View.setInteger, hslot, hk]
    exact hst
  | element i e x =>
    obtain ⟨s, hf, he⟩ := (Option.any_eq_true _ _).1 hw
    obtain ⟨hs, y, lo, hi, hk⟩ := kind_of_window hf
    have hslot : v.slot? i = some s := hs
    have hn : s.Numeric := hl.numeric hs (by rw [hk]; rfl)
    obtain ⟨vs, hvs, hst⟩ := h.putElement? hl hs hn (of_decide_eq_true he) (BitVec.ofNat 64 (s.encode x))
    rw [hn.toNat_ofNat (Slot.encode_lt hn x)] at hst
    refine ⟨vs, by simp [Layout.perform?, hf, of_decide_eq_true he, hvs], ?_⟩
    simp only [View.perform, View.setWindowElement, hslot, hk]
    exact hst
  | set i edit =>
    obtain ⟨s, hf, he⟩ := (Option.any_eq_true _ _).1 hw
    obtain ⟨hs, hk⟩ := kind_of_set hf
    have hslot : v.slot? i = some s := hs
    have hset : s.kind.isSet = true := by rw [hk]; rfl
    obtain ⟨part, hpart, hsize, hspell⟩ := h.part? hl hs hset
    obtain ⟨vs, hvs, hsize', hspell'⟩ := hspell.edit? hsize he
    refine ⟨s.putPart ws vs, by simp [Layout.perform?, hf, hpart, hvs], ?_⟩
    have hst := h.putPart hl hs hset (hsize'.trans hsize) hspell'
    simp only [View.perform, View.setSet, View.set, hslot, hk]
    exact hst

theorem Layout.Stores.read? (hl : l.Packed) (h : l.Stores ws v.state.bits) (hv : v.layout = l) {c : Cell}
    (hc : c.within l = true) : l.read? ws c = some (v.read c) := by
  subst hv
  cases c with
  | flag i =>
    obtain ⟨s, b, hf, hs, hk⟩ := exists_flag hc
    have hslot : v.slot? i = some s := hs
    have hn : s.Numeric := hl.numeric hs (by rw [hk]; rfl)
    obtain ⟨w, hw, hread⟩ := h.element? hl hs hn (e := 0) (by simp [Slot.elements, hk])
    have hone : (w == 1) = (s.readElement v.state.bits 0 == 1) := by
      rw [Bool.eq_iff_iff, beq_iff_eq, beq_iff_eq, ← hread, ← BitVec.toNat_inj]
      rfl
    simp only [Layout.read?, hf, Option.bind_eq_bind, Option.bind_some, hw, View.read, View.flag, hslot, hk, hone]
    rfl
  | integer i =>
    obtain ⟨s, y, lo, hi, hf, hs, hk⟩ := exists_integer hc
    have hslot : v.slot? i = some s := hs
    have hn : s.Numeric := hl.numeric hs (by rw [hk]; rfl)
    obtain ⟨w, hw, hread⟩ := h.element? hl hs hn (e := 0) (by simp [Slot.elements, hk])
    simp only [Layout.read?, hf, Option.bind_eq_bind, Option.bind_some, hw, View.read, View.integer, hslot, hk, hread]
    rfl
  | element i e =>
    obtain ⟨s, hf, he⟩ := (Option.any_eq_true _ _).1 hc
    obtain ⟨hs, y, lo, hi, hk⟩ := kind_of_window hf
    have hslot : v.slot? i = some s := hs
    have hn : s.Numeric := hl.numeric hs (by rw [hk]; rfl)
    obtain ⟨w, hw, hread⟩ := h.element? hl hs hn (of_decide_eq_true he)
    simp only [Layout.read?, hf, Option.bind_eq_bind, Option.bind_some, hw, View.read, View.windowElement, hslot, hk,
      hread]
    rfl
  | member i e =>
    obtain ⟨s, hf⟩ := Option.isSome_iff_exists.1 hc
    obtain ⟨hs, hk⟩ := kind_of_set hf
    have hslot : v.slot? i = some s := hs
    have hset : s.kind.isSet = true := by rw [hk]; rfl
    obtain ⟨part, hpart, hsize, hspell⟩ := h.part? hl hs hset
    have hin : contains? s.width part e = some ((SetView.mk (s.readSet v.state.bits) s.width).contains e) :=
      hspell.contains? hsize e
    simp only [Layout.read?, hf, Option.bind_eq_bind, Option.bind_some, hpart, hin, View.read, View.set, hslot, hk]
    rfl

end

end DecisionDiagrams
