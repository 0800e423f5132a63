import DecisionDiagrams.Proofs.State.Slots
import DecisionDiagrams.Proofs.Work.Outcome

/-! Reading and writing properties of a state with a sound layout: what a property is after it was
written, that the others stay as they are, and what a fresh state contains. -/

namespace DecisionDiagrams

/-- The slots are in order, and the kinds make sense. -/
structure Layout.Sound (l : Layout) : Prop extends l.Spaced where
  valid : ∀ i s, l.slot? i = some s → s.kind.isValid = true

theorem Layout.Sound.numeric {l : Layout} (h : l.Sound) {i : Nat} {s : Slot}
    (hs : l.slot? i = some s) (hk : s.kind.isSet = false) : s.Numeric := ⟨h.valid i s hs, hk⟩

namespace View

variable {v w u : View} {i j e : Nat} {s t : Slot} {x : Int}

/-- The state differs at most in property `i`. -/
def Writes (i : Nat) (v w : View) : Prop :=
  w.layout = v.layout ∧ (v.slot? i = none → w = v) ∧
    ∀ s, v.slot? i = some s → s.Outside v.state.bits w.state.bits

theorem Writes.refl (i : Nat) (v : View) : v.Writes i v :=
  ⟨rfl, fun _ => rfl, fun s _ => .refl s _⟩

theorem Writes.slot? (h : v.Writes i w) (j : Nat) : w.slot? j = v.slot? j :=
  congrArg (Layout.slot? · j) h.1

theorem Writes.trans (h : v.Writes i w) (g : w.Writes i u) : v.Writes i u := by
  refine ⟨g.1.trans h.1, fun hn => ?_, fun s hs => ?_⟩
  · have e := h.2.1 hn
    rw [← e] at hn ⊢
    exact g.2.1 hn
  · exact (h.2.2 s hs).trans (g.2.2 s ((h.slot? i).trans hs))

theorem writes_withBits (hs : v.slot? i = some s) {b : Nat} (h : s.Outside v.state.bits b) :
    v.Writes i (v.withBits b) := by
  refine ⟨rfl, fun hn => ?_, fun t ht => ?_⟩
  · rw [hs] at hn
    cases hn
  · obtain rfl := Option.some.inj (hs.symm.trans ht)
    exact h

/-- The other properties read the same. -/
theorem Writes.agree (h : v.Writes j w) (hl : v.layout.Sound) (hne : i ≠ j)
    (hs : v.slot? i = some s) : s.agree v.state.bits w.state.bits = true := by
  cases ht : v.slot? j with
  | none =>
    rw [h.2.1 ht, Slot.agree_iff]
    split_ifs
    · exact fun _ => Iff.rfl
    · exact fun _ _ => rfl
  | some t => exact Slot.agree_of_outside (hl.valid i s hs) (hl.apart hne hs ht) (h.2.2 t ht)

theorem writes_setInteger (hl : v.layout.Sound) (i : Nat) (x : Int) :
    v.Writes i (v.setInteger i x) := by
  unfold setInteger
  split
  · rename_i s hs
    split
    · rename_i hk
      have hn : s.Numeric := hl.numeric hs (by rw [hk]; rfl)
      exact writes_withBits hs (hn.outside_writeElement (by simp [Slot.elements, hk]) _ _)
    · exact .refl i v
  · exact .refl i v

theorem writes_setFlag (hl : v.layout.Sound) (i : Nat) (x : Bool) : v.Writes i (v.setFlag i x) := by
  unfold setFlag
  split
  · rename_i s hs
    split
    · rename_i hk
      have hn : s.Numeric := hl.numeric hs (by rw [hk]; rfl)
      exact writes_withBits hs (hn.outside_writeElement (by simp [Slot.elements, hk]) _ _)
    · exact .refl i v
  · exact .refl i v

theorem writes_setSet (v : View) (i : Nat) (x : SetView) : v.Writes i (v.setSet i x) := by
  unfold setSet
  split
  · rename_i s hs
    split
    · rename_i hk
      exact writes_withBits hs (Slot.outside_writeSet (by rw [hk]; rfl) _ _)
    · exact .refl i v
  · exact .refl i v

theorem writes_setWindowElement (hl : v.layout.Sound) (hs : v.slot? i = some s)
    (he : e < s.elements) (x : Int) : v.Writes i (v.setWindowElement i e x) := by
  unfold setWindowElement
  rw [hs]
  dsimp only
  split
  · rename_i hk
    have hn : s.Numeric := hl.numeric hs (by rw [hk]; rfl)
    exact writes_withBits hs (hn.outside_writeElement he _ _)
  · exact .refl i v

/-! ### What is read -/

theorem integer_eq {a lo hi : Int} (hs : v.slot? i = some s) (hk : s.kind = .integer a lo hi)
    (h : s.number v.state.bits 0 ≤ s.upper) : v.integer i = s.number v.state.bits 0 := by
  unfold integer
  rw [hs]
  dsimp only
  rw [hk]
  exact Slot.decode_readElement h

theorem flag_eq {b : Bool} (hs : v.slot? i = some s) (hk : s.kind = .flag b) :
    v.flag i = true ↔ s.number v.state.bits 0 = 1 := by
  unfold flag Slot.number Slot.lower
  rw [hs]
  dsimp only
  rw [hk]
  simp only [beq_iff_eq]
  omega

theorem windowElement_eq {length : Nat} {a lo hi : Int} (hs : v.slot? i = some s)
    (hk : s.kind = .window length a lo hi) (h : s.number v.state.bits e ≤ s.upper) :
    v.windowElement i e = s.number v.state.bits e := by
  unfold windowElement
  rw [hs]
  dsimp only
  rw [hk]
  exact Slot.decode_readElement h

theorem set_eq {c : Nat} (hs : v.slot? i = some s) (hk : s.kind = .set c) :
    v.set i = ⟨s.readSet v.state.bits, c⟩ := by
  unfold set
  rw [hs]
  dsimp only
  rw [hk]

/-! ### What is written -/

theorem number_setInteger {a lo hi : Int} (hl : v.layout.Sound) (hs : v.slot? i = some s)
    (hk : s.kind = .integer a lo hi) (x : Int) :
    s.number (v.setInteger i x).state.bits 0 = max lo (min hi x) := by
  have hn : s.Numeric := hl.numeric hs (by rw [hk]; rfl)
  have h := hn.number_writeElement v.state.bits 0 x
  unfold setInteger
  rw [hs]
  dsimp only
  rw [hk]
  have hlo : s.lower = lo := by simp [Slot.lower, hk]
  have hhi : s.upper = hi := by simp [Slot.upper, hk]
  rw [hlo, hhi] at h
  exact h

theorem number_setFlag {b : Bool} (hs : v.slot? i = some s) (hk : s.kind = .flag b) (x : Bool) :
    s.number (v.setFlag i x).state.bits 0 = (x.toNat : Int) := by
  have hw : s.width = 1 := by simp [Slot.width, hk, Kind.width]
  have hlt : x.toNat < 2 ^ s.width := by
    rw [hw]
    exact Bool.toNat_lt x
  unfold setFlag
  rw [hs]
  dsimp only
  rw [hk]
  show s.lower + ((s.readElement (s.writeElement _ 0 x.toNat) 0 : Nat) : Int) = _
  rw [Slot.readElement_writeElement hlt]
  simp [Slot.lower, hk]

theorem number_setWindowElement {length : Nat} {a lo hi : Int} (hl : v.layout.Sound)
    (hs : v.slot? i = some s) (hk : s.kind = .window length a lo hi) (e f : Nat) (x : Int) :
    s.number (v.setWindowElement i e x).state.bits f =
      if f = e then max lo (min hi x) else s.number v.state.bits f := by
  have hn : s.Numeric := hl.numeric hs (by rw [hk]; rfl)
  have hlo : s.lower = lo := by simp [Slot.lower, hk]
  have hhi : s.upper = hi := by simp [Slot.upper, hk]
  unfold setWindowElement
  rw [hs]
  dsimp only
  rw [hk]
  show s.number (s.writeElement v.state.bits e (s.encode x)) f = _
  split_ifs with hf
  · rw [hf, hn.number_writeElement, hlo, hhi]
  · unfold Slot.number
    rw [hn.readElement_writeElement_ne (Ne.symm hf)]

theorem mem_setSet {c : Nat} (hs : v.slot? i = some s) (hk : s.kind = .set c) (x : SetView) :
    e ∈ s.readSet (v.setSet i x).state.bits ↔ e < s.setBits ∧ e ∈ x.contents := by
  unfold setSet
  rw [hs]
  dsimp only
  rw [hk]
  exact Slot.mem_readSet_writeSet

/-! ### Windows -/

theorem putElementAt_ok {n : Nat} (hn : n < 0x100000000) (h : v.putElementAt i n x = .ok w) :
    w = v.setWindowElement i n x := by
  unfold putElementAt at h
  dsimp only at h
  rw [windowPlace_natCast hn] at h
  split_ifs at h
  exact (Except.ok.inj h).symm

theorem elementAt_ok {n : Nat} (hn : n < 0x100000000) (h : v.elementAt i n = .ok x) :
    x = v.windowElement i n := by
  unfold elementAt at h
  dsimp only at h
  rw [windowPlace_natCast hn] at h
  split_ifs at h
  exact (Except.ok.inj h).symm

/-- A window moves back by one place, up to the place `count`. -/
theorem moveBack_ok {length : Nat} {a lo hi : Int} {source : View}
    (hk : s.kind = .window length a lo hi) (hlen : length < 0x100000000) : ∀ {count : Nat} {v : View},
    v.layout.Sound → v.slot? i = some s → count < length → source.moveBack i j count v = .ok w →
    v.Writes i w ∧ ∀ e, s.number w.state.bits e =
      if 1 ≤ e ∧ e ≤ count then max lo (min hi (source.windowElement j (e - 1)))
      else s.number v.state.bits e
  | 0, v, _, _, _, h => by
    obtain rfl := Except.ok.inj h
    refine ⟨.refl i v, fun e => ?_⟩
    rw [if_neg (by omega)]
  | count + 1, v, hl, hs, hc, h => by
    unfold moveBack at h
    obtain ⟨x, hx, h⟩ := Checked.bind_eq_ok.1 h
    obtain ⟨next, hnext, h⟩ := Checked.bind_eq_ok.1 h
    obtain rfl := elementAt_ok (by omega) hx
    obtain rfl := putElementAt_ok (n := count + 1) (by omega) (by exact_mod_cast hnext)
    have he : s.elements = length := by simp [Slot.elements, hk]
    have hw := writes_setWindowElement hl hs (e := count + 1) (by omega)
      (source.windowElement j count)
    have ih := moveBack_ok hk hlen (hw.1 ▸ hl) ((hw.slot? i).trans hs) (by omega) h
    refine ⟨hw.trans ih.1, fun e => ?_⟩
    rw [ih.2 e, number_setWindowElement hl hs hk]
    by_cases h1 : e = count + 1
    · subst h1
      rw [if_neg (by omega), if_pos rfl, if_pos (by omega), Nat.add_sub_cancel]
    · have : (1 ≤ e ∧ e ≤ count) ↔ (1 ≤ e ∧ e ≤ count + 1) := by omega
      simp only [this, if_neg h1]

/-- The elements of a window move back by one place, and a new one is put in front. -/
theorem shiftIn_ok {length : Nat} {a lo hi : Int} {source : View}
    (hk : s.kind = .window length a lo hi) (hlen : length < 0x100000000) (hpos : 0 < length)
    (hl : v.layout.Sound) (hs : v.slot? i = some s) (h : source.shiftIn i j length x v = .ok w) :
    v.Writes i w ∧ ∀ e < length, s.number w.state.bits e =
      max lo (min hi (if e = 0 then x else source.windowElement j (e - 1))) := by
  unfold shiftIn at h
  obtain ⟨moved, hmoved, h⟩ := Checked.bind_eq_ok.1 h
  obtain ⟨hw, hnum⟩ := moveBack_ok hk hlen hl hs (by omega) hmoved
  obtain rfl := putElementAt_ok (n := 0) (by omega) (by exact_mod_cast h)
  have he : s.elements = length := by simp [Slot.elements, hk]
  have hl' : moved.layout.Sound := hw.1 ▸ hl
  have hs' := (hw.slot? i).trans hs
  refine ⟨hw.trans (writes_setWindowElement hl' hs' (by omega) x), fun e he => ?_⟩
  rw [number_setWindowElement hl' hs' hk]
  split_ifs with h0
  · rfl
  · rw [hnum, if_pos (by omega)]

/-! ### Fresh states -/

/-- The property has its initial value. -/
def Initial (v : View) (s : Slot) : Prop :=
  if s.kind.isSet = true then ∀ e, e ∉ s.readSet v.state.bits
  else ∀ e < s.elements, s.number v.state.bits e = max s.lower (min s.upper s.kind.initial)

theorem Initial.congr (h : v.Initial s) (ha : s.agree v.state.bits w.state.bits = true) :
    w.Initial s := by
  unfold Initial at *
  rw [Slot.agree_iff] at ha
  split_ifs at * with hs
  · exact fun e he => h e ((ha e).2 he)
  · intro e he
    rw [← h e he]
    unfold Slot.number
    rw [ha e he]

theorem initialise_window {length : Nat} {a lo hi : Int} (hl : v.layout.Sound)
    (hs : v.slot? i = some s) (hk : s.kind = .window length a lo hi) : ∀ n ≤ length,
    v.Writes i ((List.range n).foldl (fun v e => v.setWindowElement i e a) v) ∧ ∀ e < n,
      s.number ((List.range n).foldl (fun v e => v.setWindowElement i e a) v).state.bits e =
        max lo (min hi a)
  | 0, _ => ⟨.refl i v, nofun⟩
  | n + 1, hn => by
    obtain ⟨hw, hnum⟩ := initialise_window hl hs hk n (by omega)
    rw [List.range_succ, List.foldl_append]
    have hl' := hw.1 ▸ hl
    have hs' := (hw.slot? i).trans hs
    have he : s.elements = length := by simp [Slot.elements, hk]
    refine ⟨hw.trans (writes_setWindowElement hl' hs' (by omega) a), fun e hlt => ?_⟩
    show s.number (View.setWindowElement _ i n a).state.bits e = _
    rw [number_setWindowElement hl' hs' hk]
    split_ifs with h
    · rfl
    · exact hnum e (by omega)

theorem initialise_spec (hl : v.layout.Sound) (i : Nat) :
    v.Writes i (v.initialise i) ∧ ∀ s, v.slot? i = some s → (v.initialise i).Initial s := by
  unfold initialise
  cases hs : v.slot? i with
  | none => exact ⟨.refl i v, nofun⟩
  | some s =>
    dsimp only
    have own : ∀ {w : View}, v.Writes i w → w.Initial s →
        v.Writes i w ∧ ∀ t, some s = some t → w.Initial t := by
      intro w hw hi
      refine ⟨hw, fun t ht => ?_⟩
      obtain rfl := Option.some.inj ht
      exact hi
    cases hk : s.kind with
    | flag b =>
      refine own (writes_setFlag hl i b) ?_
      unfold Initial
      simp only [hk, Kind.isSet, Bool.false_eq_true, if_false, Slot.elements, Nat.lt_one_iff]
      rintro e rfl
      rw [number_setFlag hs hk]
      cases b <;> simp only [Slot.lower, Slot.upper, hk, Kind.initial] <;> decide
    | integer x lo hi =>
      refine own (writes_setInteger hl i x) ?_
      unfold Initial
      simp only [hk, Kind.isSet, Bool.false_eq_true, if_false, Slot.elements, Nat.lt_one_iff]
      rintro e rfl
      rw [number_setInteger hl hs hk]
      simp [Slot.lower, Slot.upper, hk, Kind.initial]
    | set c =>
      refine own (writes_setSet v i _) ?_
      unfold Initial
      simp only [hk, Kind.isSet, if_true]
      intro e he
      exact IndexSet.not_mem_empty ((mem_setSet hs hk _).1 he).2
    | window length x lo hi =>
      obtain ⟨hw, hnum⟩ := initialise_window hl hs hk length (Nat.le_refl _)
      refine own hw ?_
      unfold Initial
      simp only [hk, Kind.isSet, Bool.false_eq_true, if_false, Slot.elements]
      intro e he
      rw [hnum e he]
      simp [Slot.lower, Slot.upper, hk, Kind.initial]

end View

namespace Layout

open View

variable {l : Layout} {i : Nat} {s : Slot}

theorem foldl_initialise (hl : l.Sound) : ∀ n,
    ((List.range n).foldl View.initialise ⟨l, State.zero⟩).layout = l ∧
      ∀ i < n, ∀ s, l.slot? i = some s →
        ((List.range n).foldl View.initialise ⟨l, State.zero⟩).Initial s
  | 0 => ⟨rfl, nofun⟩
  | n + 1 => by
    obtain ⟨hlay, hinit⟩ := foldl_initialise hl n
    rw [List.range_succ, List.foldl_append]
    generalize (List.range n).foldl View.initialise ⟨l, State.zero⟩ = v at hlay hinit ⊢
    obtain ⟨hw, hown⟩ := initialise_spec (hlay.symm ▸ hl) n
    refine ⟨hw.1.trans hlay, fun i hi s hs => ?_⟩
    subst hlay
    by_cases h : i = n
    · subst h
      exact hown s hs
    · exact (hinit i (by omega) s hs).congr (hw.agree hl h hs)

/-- Every property of a fresh state has its initial value. -/
theorem initial_fresh (hl : l.Sound) (hs : l.slot? i = some s) :
    View.Initial ⟨l, l.fresh⟩ s := by
  have hi : i < l.size := (Array.getElem?_eq_some_iff.1 hs).1
  have h := (foldl_initialise hl l.size).2 i hi s hs
  exact h

end Layout

end DecisionDiagrams
