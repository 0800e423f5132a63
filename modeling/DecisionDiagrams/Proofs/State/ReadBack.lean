import DecisionDiagrams.Proofs.State.Alters
import Mathlib.Data.List.Induction

/-! What is read from a state is what was last written there. A write gives values to some cells and leaves all
others as they are; so after any number of writes a cell holds the last value which it was given, moved into the
range of its property, and the lowest one if it was given none. The words of the state do the same, and no access
fails. -/

namespace DecisionDiagrams

/-! ### What a write gives -/

/-- Whether the element is in the set afterwards, unless this depends on whether it was. -/
def SetEdit.gives : SetEdit → Nat → Option Bool
  | .insert e, f => if f = e then some true else none
  | .erase e, f => if f = e then some false else none
  | .clear, _ => some false
  | .join t, f => if f < t.words * wordBits ∧ f ∈ t.contents then some true else none
  | .meet t, f => if f < t.words * wordBits ∧ f ∉ t.contents then some false else none
  | .overwrite t, f => some (t.contents.contains f)

/-- The number, moved into the range of the property. -/
def Layout.clamp (l : Layout) (i : Nat) (x : Int) : Option Int :=
  (l.slot? i).map fun s => max s.lower (min s.upper x)

/-- The value which a cell has afterwards, whatever it was before. Elements from the capacity of a set on are
given none. -/
def Write.gives (l : Layout) : Write → Cell → Option Int
  | .flag i x, .flag j => if i = j then some x.toInt else none
  | .integer i x, .integer j => if i = j then l.clamp i x else none
  | .element i e x, .element j f => if i = j ∧ e = f then l.clamp i x else none
  | .set i edit, .member j f =>
    if i = j ∧ (l.slot? i).any (fun s => decide (f < s.width)) then (edit.gives f).map Bool.toInt else none
  | _, _ => none

/-- Whether the write is to the property, or to the element of a window, which the cell belongs to. -/
def Write.touches : Write → Cell → Bool
  | .flag i _, .flag j => i == j
  | .integer i _, .integer j => i == j
  | .element i e _, .element j f => i == j && e == f
  | .set i _, .member j _ => i == j
  | _, _ => false

/-- What a cell holds before anything is written. -/
def Cell.blank (l : Layout) : Cell → Int
  | .integer i | .element i _ => ((l.slot? i).map Slot.lower).getD 0
  | .flag _ | .member .. => 0

/-- The last value which the cell was given. -/
def Cell.lastWritten (l : Layout) (writes : List Write) (c : Cell) : Int :=
  (writes.reverse.findSome? fun w => w.gives l c).getD (c.blank l)

theorem Cell.lastWritten_append (l : Layout) (writes : List Write) (w : Write) (c : Cell) :
    c.lastWritten l (writes ++ [w]) = (w.gives l c).getD (c.lastWritten l writes) := by
  unfold lastWritten
  rw [List.reverse_append, List.reverse_singleton, List.singleton_append, List.findSome?_cons]
  cases w.gives l c <;> rfl

theorem Write.gives_of_not_touches {l : Layout} {w : Write} {c : Cell} (h : w.touches c = false) :
    w.gives l c = none := by
  cases w <;> cases c <;> simp_all [touches, gives]

theorem Slot.readElement_zero (s : Slot) (e : Nat) : s.readElement 0 e = 0 := by
  unfold readElement
  rw [Field.read_eq, Nat.zero_shiftRight, Nat.zero_mod]

/-! ### Properties -/

namespace View

open Layout

variable {v w : View} {s : Slot} {c : Cell}

/-- A write changes one property. -/
theorem writes_perform (hl : v.layout.Sound) {x : Write} (hx : x.fits v.layout = true) :
    v.Writes x.index (v.perform x) := by
  cases x with
  | flag i x => exact writes_setFlag hl i x
  | integer i x => exact writes_setInteger hl i x
  | element i e x =>
    obtain ⟨s, hf, he⟩ := (Option.any_eq_true _ _).1 hx
    exact writes_setWindowElement hl (kind_of_window hf).1 (of_decide_eq_true he) x
  | set i edit => exact writes_setSet v i _

/-- A cell is read from the bits of its property. -/
theorem read_congr (hc : c.within v.layout = true) (hw : w.layout = v.layout)
    (h : ∀ s, v.slot? c.index = some s → s.agree v.state.bits w.state.bits = true) : w.read c = v.read c := by
  have other : ∀ {i}, w.slot? i = v.slot? i := congrArg (Layout.slot? · _) hw
  have numbers : ∀ {s}, v.slot? c.index = some s → s.kind.isSet = false → ∀ e < s.elements,
      s.readElement w.state.bits e = s.readElement v.state.bits e := by
    intro s hs hset e he
    have := Slot.agree_iff.1 (h s hs)
    rw [if_neg (by rw [hset]; nofun)] at this
    exact (this e he).symm
  cases c with
  | flag i =>
    obtain ⟨s, b, -, hs, hk⟩ := exists_flag hc
    have hslot : v.slot? i = some s := hs
    simp only [read, flag, other, hslot, hk,
      numbers hslot (by rw [hk]; rfl) 0 (by simp [Slot.elements, hk])]
  | integer i =>
    obtain ⟨s, x, lo, hi, -, hs, hk⟩ := exists_integer hc
    have hslot : v.slot? i = some s := hs
    simp only [read, integer, other, hslot, hk,
      numbers hslot (by rw [hk]; rfl) 0 (by simp [Slot.elements, hk])]
  | element i e =>
    obtain ⟨s, hf, he⟩ := (Option.any_eq_true _ _).1 hc
    obtain ⟨hs, x, lo, hi, hk⟩ := kind_of_window hf
    have hslot : v.slot? i = some s := hs
    simp only [read, windowElement, other, hslot, hk,
      numbers hslot (by rw [hk]; rfl) e (of_decide_eq_true he)]
  | member i e =>
    obtain ⟨s, hf⟩ := Option.isSome_iff_exists.1 hc
    obtain ⟨hs, hk⟩ := kind_of_set hf
    have hslot : v.slot? i = some s := hs
    have hsame := Slot.agree_iff.1 (h s hslot)
    rw [if_pos (by rw [hk]; rfl)] at hsame
    have e : s.readSet w.state.bits = s.readSet v.state.bits :=
      congrArg IndexSet.mk (Nat.eq_of_testBit_eq fun k => Bool.eq_iff_iff.2 (hsame k).symm)
    simp only [read, set, other, hslot, hk, e]

theorem layout_perform (v : View) (x : Write) : (v.perform x).layout = v.layout := by
  cases x <;> simp only [perform, setFlag, setInteger, setWindowElement, setSet] <;>
    (repeat' split) <;> rfl

theorem relaxed_perform (v : View) (x : Write) : (v.perform x).state.relaxed = v.state.relaxed := by
  cases x <;> simp only [perform, setFlag, setInteger, setWindowElement, setSet] <;>
    (repeat' split) <;> rfl

/-! ### One write -/

theorem exists_slot_of_fits {l : Layout} {x : Write} (h : x.fits l = true) :
    ∃ s, l.slotOf? x.index x.form = some s := by
  cases x with
  | flag | integer => exact Option.isSome_iff_exists.1 h
  | element | set =>
    obtain ⟨s, hf, -⟩ := (Option.any_eq_true _ _).1 h
    exact ⟨s, hf⟩

theorem exists_slot_of_within {l : Layout} {c : Cell} (h : c.within l = true) :
    ∃ s, l.slotOf? c.index c.form = some s := by
  cases c with
  | flag | integer | member => exact Option.isSome_iff_exists.1 h
  | element =>
    obtain ⟨s, hf, -⟩ := (Option.any_eq_true _ _).1 h
    exact ⟨s, hf⟩

/-- The cells of a property which is written are of the form which is written. -/
theorem form_eq {l : Layout} {x : Write} {c : Cell} (hx : x.fits l = true) (hc : c.within l = true)
    (h : c.index = x.index) : c.form = x.form := by
  obtain ⟨s, hs⟩ := exists_slot_of_within hc
  obtain ⟨t, ht⟩ := exists_slot_of_fits hx
  rw [h] at hs
  obtain ⟨hs, hsf⟩ := slotOf?_eq_some.1 hs
  obtain ⟨ht, htf⟩ := slotOf?_eq_some.1 ht
  obtain rfl := Option.some.inj (hs.symm.trans ht)
  exact hsf.symm.trans htf

variable (hl : v.layout.Sound)

theorem flag_setFlag {i : Nat} {b : Bool} (hs : v.slot? i = some s) (hk : s.kind = .flag b) (x : Bool) :
    (v.setFlag i x).flag i = x := by
  have hs' : (v.setFlag i x).slot? i = some s := (congrArg (Layout.slot? · i) (layout_perform v (.flag i x))).trans hs
  rw [Bool.eq_iff_iff, flag_eq hs' hk, number_setFlag hs hk]
  cases x <;> decide

include hl

theorem integer_setInteger {i : Nat} {y lo hi : Int} (hs : v.slot? i = some s) (hk : s.kind = .integer y lo hi)
    (x : Int) : (v.setInteger i x).integer i = max s.lower (min s.upper x) := by
  have hs' : (v.setInteger i x).slot? i = some s :=
    (congrArg (Layout.slot? · i) (layout_perform v (.integer i x))).trans hs
  have hlo : s.lower = lo := by simp [Slot.lower, hk]
  have hhi : s.upper = hi := by simp [Slot.upper, hk]
  have hle := (hl.numeric hs (by rw [hk]; rfl)).lower_le_upper
  have hnum := number_setInteger hl hs hk x
  rw [integer_eq hs' hk (by rw [hnum]; omega), hnum, hlo, hhi]

theorem windowElement_setWindowElement {i length : Nat} {y lo hi : Int} (hs : v.slot? i = some s)
    (hk : s.kind = .window length y lo hi) (e f : Nat) (x : Int) : (v.setWindowElement i e x).windowElement i f =
      if e = f then max s.lower (min s.upper x) else v.windowElement i f := by
  have hs' : (v.setWindowElement i e x).slot? i = some s :=
    (congrArg (Layout.slot? · i) (layout_perform v (.element i e x))).trans hs
  have hn : s.Numeric := hl.numeric hs (by rw [hk]; rfl)
  have hlo : s.lower = lo := by simp [Slot.lower, hk]
  have hhi : s.upper = hi := by simp [Slot.upper, hk]
  have hle := hn.lower_le_upper
  split_ifs with h
  · have hnum := number_setWindowElement hl hs hk e f x
    rw [if_pos h.symm] at hnum
    rw [windowElement_eq hs' hk (by rw [hnum]; omega), hnum, hlo, hhi]
  · have hsame : s.readElement (v.setWindowElement i e x).state.bits f = s.readElement v.state.bits f := by
      simp only [setWindowElement, hs, hk]
      exact hn.readElement_writeElement_ne h _ _
    unfold windowElement
    rw [hs', hs]
    dsimp only
    rw [hsame]

omit hl

theorem mem_apply {y : SetView} {edit : SetEdit} {f : Nat} (hf : f < y.capacity) :
    f ∈ (edit.apply y).contents ↔ (edit.gives f).getD (y.contents.contains f) = true := by
  have hw := SetView.lt_words hf
  have shared : ∀ t : SetView, f < y.sharedBits t ↔ f < t.words * wordBits := by
    intro t
    unfold SetView.sharedBits wordBits at *
    omega
  cases edit with
  | insert e =>
    refine SetView.mem_insert.trans ?_
    simp only [SetEdit.gives]
    split_ifs with h
    · exact iff_of_true (Or.inr ⟨h, hf⟩) rfl
    · exact or_iff_left fun hm => h hm.1
  | erase e =>
    refine SetView.mem_erase.trans ?_
    simp only [SetEdit.gives]
    split_ifs with h
    · exact iff_of_false (fun hm => hm.2 ⟨h, hf⟩) Bool.false_ne_true
    · exact and_iff_left fun hm => h hm.1
  | clear => exact iff_of_false SetView.not_mem_clear Bool.false_ne_true
  | join t =>
    refine SetView.mem_join.trans ?_
    rw [shared]
    simp only [SetEdit.gives]
    split_ifs with h
    · exact iff_of_true (Or.inr h) rfl
    · exact or_iff_left h
  | meet t =>
    refine SetView.mem_meet.trans ?_
    rw [shared]
    simp only [SetEdit.gives]
    split_ifs with h
    · exact iff_of_false (fun hm => h.2 (hm.2 h.1)) Bool.false_ne_true
    · exact and_iff_left fun hm => by_contra fun hn => h ⟨hm, hn⟩
  | overwrite t =>
    refine SetView.mem_overwrite.trans ?_
    exact and_iff_right hw

theorem contains_setSet {i : Nat} (hs : v.slot? i = some s) (hk : s.kind = .set s.width) (edit : SetEdit) (f : Nat) :
    ((v.setSet i (edit.apply (v.set i))).set i).contains f =
      if f < s.width then (edit.gives f).getD ((v.set i).contains f) else (v.set i).contains f := by
  have hs' : (v.setSet i (edit.apply (v.set i))).slot? i = some s :=
    (congrArg (Layout.slot? · i) (layout_perform v (.set i edit))).trans hs
  have hset : v.set i = ⟨s.readSet v.state.bits, s.width⟩ := set_eq hs hk
  rw [set_eq hs' hk, hset]
  split_ifs with hf
  · have hbits : f < s.setBits := Nat.lt_of_lt_of_le hf (by unfold Slot.setBits Slot.setWords wordsFor wordBits; omega)
    have hcontains : (SetView.mk (s.readSet v.state.bits) s.width).contains f = (s.readSet v.state.bits).contains f := by
      unfold SetView.contains
      rw [decide_eq_true hf, Bool.true_and]
    rw [hcontains, Bool.eq_iff_iff, SetView.contains_iff, ← mem_apply (y := ⟨s.readSet v.state.bits, s.width⟩) hf]
    refine (and_iff_right hf).trans ((mem_setSet hs hk _).trans ?_)
    exact and_iff_right hbits
  · unfold SetView.contains
    rw [decide_eq_false hf, Bool.false_and, Bool.false_and]

include hl

/-- After a write a cell holds what it is given, and otherwise what it held before. -/
theorem read_perform {x : Write} (hx : x.fits v.layout = true) (hc : c.within v.layout = true) :
    (v.perform x).read c = (x.gives v.layout c).getD (v.read c) := by
  by_cases hi : c.index = x.index
  · have hform := form_eq hx hc hi
    obtain ⟨s, hf⟩ := exists_slot_of_fits hx
    cases x with
    | flag i x =>
      cases c with
      | flag j =>
        obtain rfl : j = i := hi
        obtain ⟨s, b, -, hs, hk⟩ := exists_flag hx
        simp only [perform, read, Write.gives, if_true, Option.getD_some, flag_setFlag (v := v) hs hk]
      | integer | element | member => cases hform
    | integer i x =>
      cases c with
      | integer j =>
        obtain rfl : j = i := hi
        obtain ⟨s, y, lo, hi, -, hs, hk⟩ := exists_integer hx
        simp only [perform, read, Write.gives, if_true, Layout.clamp, hs, Option.map_some, Option.getD_some,
          integer_setInteger hl hs hk]
      | flag | element | member => cases hform
    | element i e x =>
      cases c with
      | element j f =>
        obtain rfl : j = i := hi
        obtain ⟨s, hf, -⟩ := (Option.any_eq_true _ _).1 hx
        obtain ⟨hs, y, lo, hi, hk⟩ := kind_of_window hf
        simp only [perform, read, Write.gives, true_and, Layout.clamp, hs, Option.map_some,
          windowElement_setWindowElement hl hs hk]
        split_ifs <;> rfl
      | flag | integer | member => cases hform
    | set i edit =>
      cases c with
      | member j f =>
        obtain rfl : j = i := hi
        have hf : v.layout.slotOf? j .set = some s := hf
        obtain ⟨hs, hk⟩ := kind_of_set hf
        simp only [perform, read, Write.gives, true_and, hs, Option.any_some, decide_eq_true_eq,
          contains_setSet (v := v) hs hk]
        split_ifs
        · cases edit.gives f <;> rfl
        · rfl
      | flag | integer | element => cases hform
  · have htouch : x.touches c = false := by
      refine Bool.eq_false_iff.2 fun h => hi ?_
      cases x <;> cases c <;> simp_all [Write.touches, Write.index, Cell.index]
    rw [Write.gives_of_not_touches htouch, Option.getD_none]
    exact read_congr hc (layout_perform v x) fun s hs => (writes_perform hl hx).agree hl hi hs

/-! ### Ranges -/

omit hl

/-- Every number is one of its range. -/
def Ranged (v : View) : Prop :=
  ∀ i s, v.slot? i = some s → ∀ e < s.elements, s.number v.state.bits e ≤ s.upper

include hl

theorem Ranged.perform (hr : v.Ranged) {x : Write} (hx : x.fits v.layout = true) : (v.perform x).Ranged := by
  intro i s hs e he
  have hs : v.slot? i = some s := (congrArg (Layout.slot? · i) (layout_perform v x)).symm.trans hs
  have hset : s.kind.isSet = false := Slot.isSet_of_lt_elements he
  have before : s.InRange v.state.bits := by
    unfold Slot.InRange
    rw [if_neg (by simp [hset])]
    exact hr i s hs
  have after : s.InRange (v.perform x).state.bits := by
    by_cases hi : i = x.index
    · subst hi
      exact (alters_perform hl hx (Write.matches_of_not_isSet hx hs hset) hs before).inRange
    · exact before.congr ((writes_perform hl hx).agree hl hi hs)
  unfold Slot.InRange at after
  rw [if_neg (by simp [hset])] at after
  exact after e he

omit hl

theorem ranged_zero {l : Layout} (hl : l.Sound) : Ranged ⟨l, .zero⟩ := by
  intro i s hs e he
  have hset : s.kind.isSet = false := Slot.isSet_of_lt_elements he
  have := (hl.numeric hs hset).lower_le_upper
  show s.lower + ((s.readElement 0 e : Nat) : Int) ≤ s.upper
  rw [Slot.readElement_zero]
  omega

theorem read_zero {l : Layout} (hl : l.Sound) (hc : c.within l = true) : read ⟨l, .zero⟩ c = c.blank l := by
  have decode : ∀ {s : Slot} {e}, s.Numeric → s.decode (s.readElement State.zero.bits e) = s.lower := by
    intro s e hn
    have := hn.lower_le_upper
    show s.decode (s.readElement 0 e) = _
    rw [Slot.readElement_zero, Slot.decode]
    simp [this]
  cases c with
  | flag i =>
    obtain ⟨s, b, -, hs, hk⟩ := exists_flag hc
    have hslot : View.slot? ⟨l, .zero⟩ i = some s := hs
    have hz : s.readElement State.zero.bits 0 = 0 := Slot.readElement_zero s 0
    simp only [read, flag, hslot, hk, hz]
    rfl
  | integer i =>
    obtain ⟨s, x, lo, hi, -, hs, hk⟩ := exists_integer hc
    have hslot : View.slot? ⟨l, .zero⟩ i = some s := hs
    simp only [read, integer, hslot, hk, decode (hl.numeric hs (by rw [hk]; rfl)), Cell.blank, hs, Option.map_some,
      Option.getD_some]
  | element i e =>
    obtain ⟨s, hf, -⟩ := (Option.any_eq_true _ _).1 hc
    obtain ⟨hs, x, lo, hi, hk⟩ := kind_of_window hf
    have hslot : View.slot? ⟨l, .zero⟩ i = some s := hs
    simp only [read, windowElement, hslot, hk, decode (hl.numeric hs (by rw [hk]; rfl)), Cell.blank, hs,
      Option.map_some, Option.getD_some]
  | member i e =>
    obtain ⟨s, hf⟩ := Option.isSome_iff_exists.1 hc
    obtain ⟨hs, hk⟩ := kind_of_set hf
    have hslot : View.slot? ⟨l, .zero⟩ i = some s := hs
    have hempty : (View.set ⟨l, .zero⟩ i).contains e = false := by
      rw [set_eq hslot hk]
      refine Bool.eq_false_iff.2 fun h => ?_
      have := (Slot.mem_readSet.1 (SetView.contains_iff.1 h).2).2
      rw [State.zero, Nat.zero_testBit] at this
      cases this
    simp only [read, hempty]
    rfl

/-! ### Any number of writes -/

/-- After any number of writes every cell holds the last value which it was given. -/
theorem foldl_perform {l : Layout} (hl : l.Sound) (writes : List Write) (hw : ∀ w ∈ writes, w.fits l = true) :
    (writes.foldl perform ⟨l, .zero⟩).layout = l ∧ (writes.foldl perform ⟨l, .zero⟩).Ranged ∧
      ∀ c, c.within l = true → (writes.foldl perform ⟨l, .zero⟩).read c = c.lastWritten l writes := by
  induction writes using List.reverseRecOn with
  | nil => exact ⟨rfl, ranged_zero hl, fun c hc => read_zero hl hc⟩
  | append_singleton writes x ih =>
    obtain ⟨hlay, hr, hread⟩ := ih fun w h => hw w (List.mem_append_left _ h)
    have hx : x.fits l = true := hw x (by simp)
    rw [List.foldl_append, List.foldl_cons, List.foldl_nil]
    generalize writes.foldl perform ⟨l, .zero⟩ = v at hlay hr hread ⊢
    subst hlay
    refine ⟨layout_perform v x, hr.perform hl hx, fun c hc => ?_⟩
    rw [read_perform hl hx hc, hread c hc, Cell.lastWritten_append]

end View

namespace Layout

variable {l : Layout} {v : View} {ws : Array Word}

/-- Any number of writes are done on the words as on the number. -/
theorem Stores.performAll? (hl : l.Packed) : ∀ {writes : List Write} {v : View} {ws : Array Word},
    l.Stores ws v.state.bits → v.layout = l → (∀ w ∈ writes, w.fits l = true) →
      ∃ vs, writes.foldlM l.perform? ws = some vs ∧ l.Stores vs (writes.foldl View.perform v).state.bits
  | [], v, ws, h, _, _ => ⟨ws, rfl, h⟩
  | w :: writes, v, ws, h, hv, hw => by
    obtain ⟨us, hus, hst⟩ := h.perform? hl hv (hw w List.mem_cons_self)
    obtain ⟨vs, hvs, hst⟩ := hst.performAll? hl ((View.layout_perform v w).trans hv)
      fun w' h' => hw w' (List.mem_cons_of_mem _ h')
    exact ⟨vs, by rw [List.foldlM_cons, hus]; exact hvs, hst⟩

/-- In a layout of valid kinds whose offsets have no more than 32 bits, whatever fits it can be written to the words
of a blank state, in any order and any number of times, and read again. A cell holds the last value which it was
given, moved into the range; every stored number belongs to the range; and a write leaves alone what it does not
touch. No access fails, and the number which the words spell shows the same. -/
theorem reads_last_written {ks : List Kind} (hks : ofKinds ks = l) (hv : ∀ k ∈ ks, k.isValid = true)
    (hbits : l.bits < 2 ^ 32) {writes : List Write} (hw : ∀ w ∈ writes, w.fits l = true) :
    ∃ ws, writes.foldlM l.perform? l.blank = some ws ∧
      (∀ c : Cell, c.within l = true → l.read? ws c = some (c.lastWritten l writes) ∧
        (writes.foldl View.perform ⟨l, .zero⟩).read c = c.lastWritten l writes) ∧
      (∀ i s, l.slot? i = some s → ∀ e < s.elements,
        ∃ n, s.element? ws e = some n ∧ s.lower + (n.toNat : Int) ≤ s.upper) ∧
      ∀ w : Write, w.fits l = true → ∃ vs, l.perform? ws w = some vs ∧
        ∀ c : Cell, c.within l = true → w.touches c = false → l.read? vs c = l.read? ws c := by
  have hl : l.Packed := hks ▸ packed_ofKinds hv (hks ▸ hbits)
  obtain ⟨ws, hws, hst⟩ := Stores.performAll? hl (v := ⟨l, .zero⟩) l.stores_blank rfl hw
  obtain ⟨hlay, hr, hread⟩ := View.foldl_perform hl.toSound writes hw
  generalize writes.foldl View.perform ⟨l, .zero⟩ = v at hst hlay hr hread
  subst hlay
  refine ⟨ws, hws, fun c hc => ⟨?_, hread c hc⟩, fun i s hs e he => ?_, fun w hfit => ?_⟩
  · rw [hst.read? hl rfl hc, hread c hc]
  · have hset : s.kind.isSet = false := Slot.isSet_of_lt_elements he
    obtain ⟨n, hn, he'⟩ := hst.element? hl hs (hl.numeric hs hset) he
    exact ⟨n, hn, he' ▸ hr i s hs e he⟩
  · obtain ⟨vs, hvs, hst'⟩ := hst.perform? hl rfl hfit
    refine ⟨vs, hvs, fun c hc hout => ?_⟩
    rw [hst'.read? hl (View.layout_perform v w) hc, hst.read? hl rfl hc, View.read_perform hl.toSound hfit hc,
      Write.gives_of_not_touches hout, Option.getD_none]

/-- A number, a set of two words, a flag, a window of two words and a set below 0. The last writes to the number and
to the window are out of range, and two of the elements put into sets are not below their capacities. -/
theorem reads_last_written_assorted :
    let l := ofKinds [.integer 0 (-5) 5, .set 70, .flag false, .window 12 0 (-100) 100, .set 0]
    ∃ ws, [Write.integer 0 3, .element 3 11 (-7), .set 1 (.insert 69), .flag 2 true, .set 1 (.insert 70),
        .set 4 (.insert 0), .integer 0 9, .element 3 11 200, .set 1 (.join ⟨.below 3, 10⟩)].foldlM l.perform? l.blank =
        some ws ∧
      l.read? ws (.integer 0) = some 5 ∧ l.read? ws (.element 3 11) = some 100 ∧ l.read? ws (.element 3 5) = some (-100) ∧
      l.read? ws (.flag 2) = some 1 ∧ l.read? ws (.member 1 69) = some 1 ∧ l.read? ws (.member 1 70) = some 0 ∧
      l.read? ws (.member 1 2) = some 1 ∧ l.read? ws (.member 4 0) = some 0 := by
  intro l
  have hw : ∀ w ∈ [Write.integer 0 3, .element 3 11 (-7), .set 1 (.insert 69), .flag 2 true, .set 1 (.insert 70),
      .set 4 (.insert 0), .integer 0 9, .element 3 11 200, .set 1 (.join ⟨.below 3, 10⟩)], w.fits l = true := by
    decide +kernel
  obtain ⟨ws, hws, read, -, -⟩ := reads_last_written (l := l) rfl (by decide +kernel) (by decide +kernel) hw
  refine ⟨ws, hws, ?_, ?_, ?_, ?_, ?_, ?_, ?_, ?_⟩ <;>
    refine (read _ (by decide +kernel)).1.trans (congrArg some ?_) <;> decide +kernel

end Layout

end DecisionDiagrams
