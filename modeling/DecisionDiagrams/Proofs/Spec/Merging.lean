import DecisionDiagrams.Proofs.Spec.Order

/-! What merging states comes to. States are merged as packed bits, field by field and word by word. Read
back, every listed property of the result is the minimum, the maximum, the union or the intersection of
its values in all the states, in whichever order and however often these come, and no bit outside the
listed properties has changed. -/

namespace DecisionDiagrams

/-! ### Values -/

/-- The value of a property, as rules read it. -/
inductive Value
  | absent
  | flag (b : Bool)
  | integer (x : Int)
  | set (xs : SetView)
  | window (xs : List Int)
deriving DecidableEq

def View.value (v : View) (i : Nat) : Value :=
  match v.kind? i with
  | some (.flag _) => .flag (v.flag i)
  | some (.integer ..) => .integer (v.integer i)
  | some (.set _) => .set (v.set i)
  | some (.window ..) => .window (v.windowToList i)
  | none => .absent

namespace Relaxation

/-- The merge of two values: their minimum or maximum, element by element for windows, their union or
their intersection. -/
def join : Relaxation → Value → Value → Value
  | .minimum, .flag a, .flag b => .flag (a && b)
  | .minimum, .integer x, .integer y => .integer (min x y)
  | .minimum, .window xs, .window ys => .window (List.zipWith min xs ys)
  | .maximum, .flag a, .flag b => .flag (a || b)
  | .maximum, .integer x, .integer y => .integer (max x y)
  | .maximum, .window xs, .window ys => .window (List.zipWith max xs ys)
  | .union, .set s, .set t => .set { s with contents := s.contents.union t.contents }
  | .intersection, .set s, .set t => .set { s with contents := s.contents.inter t.contents }
  | _, x, _ => x

/-- The second value stands for the first one as well. -/
def Covers (r : Relaxation) : Value → Value → Prop
  | .flag a, .flag b => r.Below a.toNat b.toNat
  | .integer x, .integer y => r.Below x y
  | .window xs, .window ys => List.Forall₂ r.Below xs ys
  | .set s, .set t =>
    match r with
    | .union => ∀ e ∈ s.contents, e ∈ t.contents
    | .intersection => ∀ e ∈ t.contents, e ∈ s.contents
    | _ => False
  | _, _ => False

end Relaxation

namespace Slot

variable {s : Slot} {r : Relaxation} {a b k n : Nat}

def value (s : Slot) (a : Nat) : Value :=
  match s.kind with
  | .flag _ => .flag (s.readElement a 0 == 1)
  | .integer .. => .integer (s.decode (s.readElement a 0))
  | .set capacity => .set ⟨s.readSet a, capacity⟩
  | .window length .. => .window ((List.range length).map fun e => s.decode (s.readElement a e))

/-- The stored numbers stand for values of the range, and a set has no elements from its capacity on. -/
def InRange (s : Slot) (a : Nat) : Prop :=
  if s.kind.isSet = true then ∀ e ∈ s.readSet a, e < s.width
  else ∀ e < s.elements, s.number a e ≤ s.upper

instance : Decidable (s.InRange a) :=
  if h : s.kind.isSet = true then
    decidable_of_iff (∀ e ∈ (s.readSet a).toList, e < s.width) (by simp [InRange, h])
  else decidable_of_iff (∀ e < s.elements, s.number a e ≤ s.upper) (by simp [InRange, h])

/-- The bit belongs to an element of the property. -/
def Holds (s : Slot) (k : Nat) : Prop :=
  if s.kind.isSet = true then s.offset ≤ k ∧ k < s.offset + s.width
  else ∃ e < s.elements, s.elementOffset e ≤ k ∧ k < s.elementOffset e + s.width

/-- Merges a property with a built-in relaxation. -/
def merge (s : Slot) : Relaxation → Nat → Nat → Nat
  | .minimum, a, b => s.mergeNumbers min a b
  | .maximum, a, b => s.mergeNumbers max a b
  | .union, a, b => s.mergeSet IndexSet.union a b
  | .intersection, a, b => s.mergeSet IndexSet.inter a b
  | .custom _, a, _ => a

theorem width_le_setBits (s : Slot) : s.width ≤ s.setBits := by
  unfold setBits setWords wordsFor wordBits
  omega

/-! ### Values which read the same -/

theorem value_congr (h : s.agree a b = true) : s.value a = s.value b := by
  rw [agree_iff] at h
  unfold value
  cases hk : s.kind with
  | flag =>
    rw [if_neg (by rw [hk]; exact Bool.false_ne_true)] at h
    dsimp only
    rw [h 0 (by simp [elements, hk])]
  | integer =>
    rw [if_neg (by rw [hk]; exact Bool.false_ne_true)] at h
    dsimp only
    rw [h 0 (by simp [elements, hk])]
  | set c =>
    rw [if_pos (by rw [hk]; rfl)] at h
    have e : s.readSet a = s.readSet b :=
      congrArg IndexSet.mk (Nat.eq_of_testBit_eq fun i => Bool.eq_iff_iff.2 (h i))
    dsimp only
    rw [e]
  | window length =>
    rw [if_neg (by rw [hk]; exact Bool.false_ne_true)] at h
    refine congrArg Value.window (List.map_congr_left fun e he => ?_)
    rw [h e (by simpa [elements, hk] using he)]

theorem InRange.congr (hr : s.InRange a) (h : s.agree a b = true) : s.InRange b := by
  rw [agree_iff] at h
  unfold InRange number at *
  split_ifs at * with hs
  · exact fun e he => hr e ((h e).2 he)
  · intro e he
    rw [← h e he]
    exact hr e he

/-- The bits of a property are determined by what is read. -/
theorem testBit_of_agree (h : s.agree a b = true) (hk : s.Holds k) : a.testBit k = b.testBit k := by
  rw [agree_iff] at h
  unfold Holds at hk
  split_ifs at h hk with hs
  · have hw := s.width_le_setBits
    have := h (k - s.offset)
    rw [mem_readSet, mem_readSet, Nat.add_sub_cancel' hk.1] at this
    exact Bool.eq_iff_iff.2 ((and_congr_right_iff.1 this) (by omega))
  · obtain ⟨e, he, hlo, hhi⟩ := hk
    have bit : ∀ c, (s.readElement c e).testBit (k - s.elementOffset e) = c.testBit k := by
      intro c
      unfold readElement
      rw [Field.testBit_read, Nat.add_sub_cancel' hlo, decide_eq_true (by omega), Bool.true_and]
    rw [← bit a, ← bit b, h e he]

/-! ### One merge -/

theorem testBit_rewrite (s : Slot) (g : Nat → Nat → Nat) (a : Nat) : ∀ {n},
    (∀ e < n, ¬ (s.elementOffset e ≤ k ∧ k < s.elementOffset e + s.width)) →
      (s.rewrite g n a).testBit k = a.testBit k
  | 0, _ => rfl
  | n + 1, h => by
    rw [rewrite_succ]
    unfold writeElement
    rw [Field.testBit_write, if_neg (h n (Nat.lt_succ_self n))]
    exact s.testBit_rewrite g a fun e he => h e (Nat.lt_succ_of_lt he)

theorem testBit_mergeNumbers (hs : s.kind.isSet = false) (pick : Nat → Nat → Nat) (b : Nat)
    (hk : ¬ s.Holds k) : (s.mergeNumbers pick a b).testBit k = a.testBit k := by
  unfold Holds at hk
  rw [if_neg (by rw [hs]; exact Bool.false_ne_true)] at hk
  rw [mergeNumbers_eq]
  exact s.testBit_rewrite _ a fun e he hin => hk ⟨e, he, hin⟩

theorem InRange.lt_width (h : s.InRange a) (hs : s.kind.isSet = true) {e : Nat} (he : e ∈ s.readSet a) :
    e < s.width := by
  unfold InRange at h
  rw [if_pos hs] at h
  exact h e he

/-- The bits behind the capacity of a set are zero, and they stay zero. -/
theorem testBit_writeSet (hs : s.kind.isSet = true) (ha : s.InRange a) {x : IndexSet}
    (hx : ∀ e ∈ x, e < s.width) (hk : ¬ s.Holds k) : (s.writeSet a x).testBit k = a.testBit k := by
  unfold Holds at hk
  rw [if_pos hs] at hk
  unfold writeSet
  rw [Field.testBit_write]
  split_ifs with hin
  · have hw : ¬ k - s.offset < s.width := by omega
    have old : k - s.offset ∈ s.readSet a ↔ a.testBit k = true := by
      rw [mem_readSet, Nat.add_sub_cancel' hin.1]
      exact and_iff_right (by omega)
    exact Bool.eq_iff_iff.2 (iff_of_false (fun h => hw (hx _ h)) fun h => hw (ha.lt_width hs (old.2 h)))
  · rfl

theorem testBit_mergeSet (hs : s.kind.isSet = true) {pick : IndexSet → IndexSet → IndexSet}
    (hpick : ∀ x y e, e ∈ pick x y → e ∈ x ∨ e ∈ y) (ha : s.InRange a) (hb : s.InRange b)
    (hk : ¬ s.Holds k) : (s.mergeSet pick a b).testBit k = a.testBit k := by
  unfold mergeSet
  rw [if_pos hs]
  exact testBit_writeSet hs ha (fun e he => (hpick _ _ e he).elim (ha.lt_width hs) (hb.lt_width hs)) hk

/-- A merge changes bits of the elements only. -/
theorem testBit_merge (hr : r.supports s.kind = true) (ha : s.InRange a) (hb : s.InRange b)
    (hk : ¬ s.Holds k) : (s.merge r a b).testBit k = a.testBit k := by
  cases r with
  | minimum => exact testBit_mergeNumbers (by simpa [Relaxation.supports] using hr) min b hk
  | maximum => exact testBit_mergeNumbers (by simpa [Relaxation.supports] using hr) max b hk
  | union => exact testBit_mergeSet hr (fun _ _ _ => IndexSet.mem_union.1) ha hb hk
  | intersection =>
    exact testBit_mergeSet hr (fun _ _ _ h => Or.inl (IndexSet.mem_inter.1 h).1) ha hb hk
  | custom => rfl

/-- Stored numbers are in the order of the values. -/
theorem decode_pick {pick : Nat → Nat → Nat} {op : Int → Int → Int}
    (hop : ∀ x y : Nat, s.lower + (pick x y : Int) = op (s.lower + x) (s.lower + y))
    (hp : ∀ x y, pick x y = x ∨ pick x y = y) {x y : Nat} (hx : s.lower + (x : Int) ≤ s.upper)
    (hy : s.lower + (y : Int) ≤ s.upper) : s.decode (pick x y) = op (s.decode x) (s.decode y) := by
  have hle : s.lower + (pick x y : Int) ≤ s.upper := by
    rcases hp x y with e | e <;> rw [e]
    · exact hx
    · exact hy
  have plain : ∀ {z : Nat}, s.lower + (z : Int) ≤ s.upper → s.decode z = s.lower + z := fun h => if_pos h
  rw [plain hx, plain hy, plain hle, hop]

theorem decode_mergeNumbers (hn : s.Numeric) {pick : Nat → Nat → Nat} {op : Int → Int → Int}
    (hop : ∀ x y : Nat, s.lower + (pick x y : Int) = op (s.lower + x) (s.lower + y))
    (hp : ∀ x y, pick x y = x ∨ pick x y = y) (ha : s.InRange a) (hb : s.InRange b) {e : Nat}
    (he : e < s.elements) : s.decode (s.readElement (s.mergeNumbers pick a b) e) =
      op (s.decode (s.readElement a e)) (s.decode (s.readElement b e)) := by
  unfold InRange at ha hb
  rw [if_neg (by rw [hn.isSet]; exact Bool.false_ne_true)] at ha hb
  rw [hn.readElement_mergeNumbers hp a b he, decode_pick hop hp (ha e he) (hb e he)]

theorem value_mergeSet {c : Nat} (hk : s.kind = .set c) {pick : IndexSet → IndexSet → IndexSet}
    (hpick : ∀ x y e, e ∈ pick x y → e ∈ x ∨ e ∈ y) :
    s.value (s.mergeSet pick a b) = .set ⟨pick (s.readSet a) (s.readSet b), c⟩ := by
  have hs : s.kind.isSet = true := by rw [hk]; rfl
  have e : s.readSet (s.mergeSet pick a b) = pick (s.readSet a) (s.readSet b) := by
    refine congrArg IndexSet.mk (Nat.eq_of_testBit_eq fun i => Bool.eq_iff_iff.2 ?_)
    refine (mem_mergeSet (e := i) hs a b).trans ?_
    exact and_iff_right_of_imp fun h => (hpick _ _ _ h).elim (fun h => (mem_readSet.1 h).1)
      fun h => (mem_readSet.1 h).1
  unfold value
  rw [hk]
  dsimp only
  rw [e]

theorem beq_one_min {x y : Nat} (hx : x < 2) (hy : y < 2) :
    (min x y == 1) = ((x == 1) && (y == 1)) := by
  rw [Bool.eq_iff_iff, Bool.and_eq_true, beq_iff_eq, beq_iff_eq, beq_iff_eq]
  omega

theorem beq_one_max {x y : Nat} (hx : x < 2) (hy : y < 2) :
    (max x y == 1) = ((x == 1) || (y == 1)) := by
  rw [Bool.eq_iff_iff, Bool.or_eq_true, beq_iff_eq, beq_iff_eq, beq_iff_eq]
  omega

/-- Numbers are merged as values if the merge of stored numbers is the merge of what they stand for. -/
theorem value_mergeNumbers {pick : Nat → Nat → Nat} {op : Int → Int → Int} {both : Bool → Bool → Bool}
    (flags : ∀ x y, r.join (.flag x) (.flag y) = .flag (both x y))
    (integers : ∀ x y, r.join (.integer x) (.integer y) = .integer (op x y))
    (windows : ∀ xs ys, r.join (.window xs) (.window ys) = .window (List.zipWith op xs ys))
    (hboth : ∀ {x y}, x < 2 → y < 2 → (pick x y == 1) = both (x == 1) (y == 1))
    (hop : ∀ x y : Nat, s.lower + (pick x y : Int) = op (s.lower + x) (s.lower + y))
    (hp : ∀ x y, pick x y = x ∨ pick x y = y) (hn : s.Numeric) (ha : s.InRange a)
    (hb : s.InRange b) : s.value (s.mergeNumbers pick a b) = r.join (s.value a) (s.value b) := by
  have decoded : ∀ {e}, e < s.elements → _ := decode_mergeNumbers hn hop hp ha hb
  unfold value
  cases hk : s.kind with
  | flag =>
    have h2 : ∀ c, s.readElement c 0 < 2 := fun c => by
      simpa [width, hk, Kind.width] using s.readElement_lt c 0
    dsimp only
    rw [flags, hn.readElement_mergeNumbers hp a b (by simp [elements, hk]), hboth (h2 a) (h2 b)]
  | integer =>
    dsimp only
    rw [integers, decoded (by simp [elements, hk])]
  | set c => exact absurd hn.isSet (by simp [hk, Kind.isSet])
  | window length =>
    dsimp only
    rw [windows, List.zipWith_map, List.zipWith_self]
    exact congrArg Value.window (List.map_congr_left fun e he =>
      decoded (by simpa [elements, hk] using he))

theorem exists_capacity (h : s.kind.isSet = true) : ∃ c, s.kind = .set c := by
  cases hk : s.kind with
  | set c => exact ⟨c, rfl⟩
  | flag | integer | window => exact absurd h (by rw [hk]; exact Bool.false_ne_true)

/-- The value after a merge is the merge of the values. -/
theorem value_merge (hv : s.kind.isValid = true) (hr : r.supports s.kind = true)
    (hc : ∀ f, r ≠ .custom f) (ha : s.InRange a) (hb : s.InRange b) :
    s.value (s.merge r a b) = r.join (s.value a) (s.value b) := by
  have set : ∀ {c}, s.kind = .set c → ∀ x, s.value x = .set ⟨s.readSet x, c⟩ := by
    intro c hk x
    unfold value
    rw [hk]
  cases r with
  | minimum =>
    exact value_mergeNumbers (fun _ _ => rfl) (fun _ _ => rfl) (fun _ _ => rfl) beq_one_min
      (fun x y => by omega) (fun x y => by omega) ⟨hv, by simpa [Relaxation.supports] using hr⟩ ha hb
  | maximum =>
    exact value_mergeNumbers (fun _ _ => rfl) (fun _ _ => rfl) (fun _ _ => rfl) beq_one_max
      (fun x y => by omega) (fun x y => by omega) ⟨hv, by simpa [Relaxation.supports] using hr⟩ ha hb
  | union =>
    obtain ⟨c, hk⟩ := exists_capacity hr
    rw [set hk a, set hk b]
    exact value_mergeSet hk fun _ _ _ => IndexSet.mem_union.1
  | intersection =>
    obtain ⟨c, hk⟩ := exists_capacity hr
    rw [set hk a, set hk b]
    exact value_mergeSet hk fun _ _ _ h => Or.inl (IndexSet.mem_inter.1 h).1
  | custom f => exact absurd rfl (hc f)

/-- Merging stays within the range. -/
theorem inRange_merge (hv : s.kind.isValid = true) (hr : r.supports s.kind = true)
    (ha : s.InRange a) (hb : s.InRange b) : s.InRange (s.merge r a b) := by
  have numbers : s.kind.isSet = false → ∀ {pick : Nat → Nat → Nat},
      (∀ x y, pick x y = x ∨ pick x y = y) → s.InRange (s.mergeNumbers pick a b) := by
    intro hs pick hp
    unfold InRange number at *
    rw [if_neg (by rw [hs]; exact Bool.false_ne_true)] at *
    intro e he
    rw [(Numeric.mk hv hs).readElement_mergeNumbers hp a b he]
    rcases hp (s.readElement a e) (s.readElement b e) with h | h <;> rw [h]
    · exact ha e he
    · exact hb e he
  have sets : s.kind.isSet = true → ∀ {pick : IndexSet → IndexSet → IndexSet},
      (∀ x y e, e ∈ pick x y → e ∈ x ∨ e ∈ y) → s.InRange (s.mergeSet pick a b) := by
    intro hs pick hp
    unfold InRange at *
    rw [if_pos hs] at *
    intro e he
    exact (hp _ _ _ ((mem_mergeSet hs a b).1 he).2).elim (ha e) (hb e)
  cases r with
  | minimum => exact numbers (by simpa [Relaxation.supports] using hr) fun x y => by omega
  | maximum => exact numbers (by simpa [Relaxation.supports] using hr) fun x y => by omega
  | union => exact sets hr fun _ _ _ => IndexSet.mem_union.1
  | intersection => exact sets hr fun _ _ _ h => Or.inl (IndexSet.mem_inter.1 h).1
  | custom => exact ha

/-- What is above in the order of stored values stands for both values. -/
theorem covers_of_below (hr : r.supports s.kind = true) (hc : ∀ f, r ≠ .custom f) (ha : s.InRange a)
    (hb : s.InRange b) (h : s.Below r a b) : r.Covers (s.value a) (s.value b) := by
  cases hs : s.kind.isSet with
  | true =>
    obtain ⟨c, hk⟩ := exists_capacity hs
    unfold value
    rw [hk]
    cases r with
    | minimum | maximum => exact absurd hr (by rw [hk]; exact Bool.false_ne_true)
    | union | intersection => exact h
    | custom f => exact absurd rfl (hc f)
  | false =>
    have hle : ∀ e < s.elements,
        r.Below (s.decode (s.readElement a e)) (s.decode (s.readElement b e)) := by
      unfold InRange at ha hb
      rw [if_neg (by rw [hs]; exact Bool.false_ne_true)] at ha hb
      intro e he
      rw [decode_readElement (ha e he), decode_readElement (hb e he)]
      unfold number
      cases r with
      | minimum | maximum =>
        have := h e he
        simp only [Relaxation.Below]
        omega
      | union | intersection => cases hs.symm.trans hr
      | custom f => exact absurd rfl (hc f)
    unfold value
    cases hk : s.kind with
    | flag =>
      have stored : ∀ c, (((s.readElement c 0 == 1).toNat : Nat) : Int) = s.decode (s.readElement c 0) := by
        intro c
        have h2 : s.readElement c 0 < 2 := by
          simpa [width, hk, Kind.width] using s.readElement_lt c 0
        have : s.decode (s.readElement c 0) = s.number c 0 := by
          refine decode_readElement ?_
          simp only [number, lower, upper, hk]
          omega
        rw [this]
        unfold number lower
        rw [hk]
        rcases (by omega : s.readElement c 0 = 0 ∨ s.readElement c 0 = 1) with e | e <;> rw [e] <;> rfl
      dsimp only [Relaxation.Covers]
      rw [stored a, stored b]
      exact hle 0 (by simp [elements, hk])
    | integer => exact hle 0 (by simp [elements, hk])
    | set c => exact absurd hs (by simp [hk, Kind.isSet])
    | window length =>
      refine List.forall₂_map_left_iff.2 (List.forall₂_map_right_iff.2 (List.forall₂_same.2 ?_))
      exact fun e he => hle e (by simpa [elements, hk] using he)

end Slot

/-! ### States -/

theorem View.value_eq {v : View} {i : Nat} {s : Slot} (hs : v.slot? i = some s) :
    v.value i = s.value v.state.bits := by
  have kind : v.kind? i = some s.kind := by
    unfold View.kind?
    rw [hs]
  unfold View.value Slot.value
  rw [kind]
  cases hk : s.kind with
  | flag | integer | set => simp only [View.flag, View.integer, View.set, hs, hk]
  | window length =>
    have element : v.windowElement i = fun e => s.decode (s.readElement v.state.bits e) := by
      funext e
      simp only [View.windowElement, hs, hk]
    simp only [View.windowToList, View.windowLength, hs, hk, element]

theorem View.value_absent {v : View} {i : Nat} (hs : v.slot? i = none) : v.value i = .absent := by
  unfold View.value View.kind?
  rw [hs]

namespace Model

variable {m : Model} {side : Side} {i j k : Nat} {js : List Nat} {s o r X : State}

/-- Every property of the state has a value of its range. -/
def InRange (m : Model) (side : Side) (s : State) : Prop :=
  ∀ i slot, (m.layout side).slot? i = some slot → slot.InRange s.bits

instance : Decidable (m.InRange side s) :=
  decidable_of_iff (∀ slot ∈ (m.layout side).slots.toList, slot.InRange s.bits) <| by
    simp only [InRange, Layout.slot?, Array.mem_toList_iff, Array.mem_iff_getElem?]
    exact ⟨fun h i slot hs => h slot ⟨i, hs⟩, fun h slot ⟨i, hs⟩ => h i slot hs⟩

/-- The bit belongs to one of the listed properties. -/
def Holds (m : Model) (side : Side) (which : IndexSet) (k : Nat) : Prop :=
  ∃ i ∈ which, ∃ slot, (m.layout side).slot? i = some slot ∧ slot.Holds k

/-- What the state `r` is if the listed properties of the states in `rest` are merged into `first`: these
have the merged values, and nothing else has changed. -/
structure Merged (m : Model) (side : Side) (which : IndexSet) (first : State) (rest : List State)
    (r : State) : Prop where
  value : ∀ i ∈ which, ∀ relax, m.relaxation? side i = some relax → (m.view side r).value i =
    (rest.map fun s => (m.view side s).value i).foldl relax.join ((m.view side first).value i)
  kept : ∀ i, i ∉ which → (m.view side r).value i = (m.view side first).value i
  bits : ∀ k, ¬ m.Holds side which k → r.bits.testBit k = first.bits.testBit k
  relaxed : r.relaxed = first.relaxed
  inRange : m.InRange side r

/-- The state `r` is `s` with the listed properties of `o` merged into it. -/
structure Absorbs (m : Model) (side : Side) (js : List Nat) (s o r : State) : Prop where
  value : ∀ i ∈ js, ∀ relax, m.relaxation? side i = some relax →
    (m.view side r).value i = relax.join ((m.view side s).value i) ((m.view side o).value i)
  kept : ∀ i, i ∉ js → (m.view side r).value i = (m.view side s).value i
  bits : ∀ k, (∀ i ∈ js, ∀ slot, (m.layout side).slot? i = some slot → ¬ slot.Holds k) →
    r.bits.testBit k = s.bits.testBit k
  relaxed : r.relaxed = s.relaxed
  inRange : m.InRange side r

theorem mergeProperty_eq {slot : Slot} {relax : Relaxation} (hr : m.relaxation? side i = some relax)
    (hb : ∀ f, relax ≠ .custom f) (hs : (m.layout side).slot? i = some slot) :
    m.mergeProperty side o s i = .ok { s with bits := slot.merge relax s.bits o.bits } := by
  unfold mergeProperty
  rw [hr, hs]
  cases relax with
  | custom f => exact absurd rfl (hb f)
  | minimum | maximum | union | intersection => rfl

theorem value_alike (h : m.Alike side i s o) :
    (m.view side s).value i = (m.view side o).value i := by
  cases hs : (m.layout side).slot? i with
  | none => rw [View.value_absent (show (m.view side s).slot? i = none from hs),
      View.value_absent (show (m.view side o).slot? i = none from hs)]
  | some slot =>
    rw [View.value_eq (show (m.view side s).slot? i = some slot from hs),
      View.value_eq (show (m.view side o).slot? i = some slot from hs)]
    exact Slot.value_congr (h slot hs)

theorem Absorbs.nil (h : m.InRange side s) : m.Absorbs side [] s o s where
  value := nofun
  kept _ _ := rfl
  bits _ _ := rfl
  relaxed := rfl
  inRange := h

theorem Absorbs.append {t : State} (h : m.Absorbs side [j] s o t) (hj : j ∉ js)
    (g : m.Absorbs side js t o r) : m.Absorbs side (j :: js) s o r where
  value i hi relax hr := by
    rcases List.mem_cons.1 hi with rfl | hi
    · rw [g.kept i hj, h.value i List.mem_cons_self relax hr]
    · rw [g.value i hi relax hr, h.kept i]
      rintro hij
      exact hj (List.mem_singleton.1 hij ▸ hi)
  kept i hi := by
    rw [List.mem_cons, not_or] at hi
    rw [g.kept i hi.2, h.kept i (by simpa using hi.1)]
  bits k hk := by
    rw [g.bits k fun i hi => hk i (List.mem_cons_of_mem _ hi)]
    refine h.bits k fun i hi => hk i ?_
    rw [List.mem_singleton.1 hi]
    exact List.mem_cons_self
  relaxed := g.relaxed.trans h.relaxed
  inRange := g.inRange

theorem Merged.nil {which : IndexSet} (h : m.InRange side s) : m.Merged side which s [] s where
  value _ _ _ _ := rfl
  kept _ _ := rfl
  bits _ _ := rfl
  relaxed := rfl
  inRange := h

theorem Merged.cons {which : IndexSet} {rest : List State} {t : State}
    (h : m.Absorbs side which.toList s o t) (g : m.Merged side which t rest r) :
    m.Merged side which s (o :: rest) r where
  value i hi relax hr := by
    rw [g.value i hi relax hr, h.value i (IndexSet.mem_toList.2 hi) relax hr, List.map_cons,
      List.foldl_cons]
  kept i hi := (g.kept i hi).trans (h.kept i (mt IndexSet.mem_toList.1 hi))
  bits k hk := by
    refine (g.bits k hk).trans (h.bits k fun i hi slot hs hin => hk ?_)
    exact ⟨i, IndexSet.mem_toList.1 hi, slot, hs, hin⟩
  relaxed := g.relaxed.trans h.relaxed
  inRange := g.inRange

/-- A merge of states is above all of them in the listed properties, and the least one there. -/
theorem Lattice.least_foldlM (h : m.Lattice side) {which : IndexSet} : ∀ {rest : List State} {first : State},
    rest.foldlM (m.mergeListed side which) first = .ok r → (m.Below side i r X ↔
      m.Below side i first X ∧ (i ∈ which → ∀ s ∈ rest, m.Below side i s X))
  | [], first, hr => by
    obtain rfl := Except.ok.inj hr
    exact (and_iff_left fun _ => nofun).symm
  | s :: rest, first, hr => by
    rw [List.foldlM_cons] at hr
    obtain ⟨mid, hmid, hr⟩ := Checked.bind_eq_ok.1 hr
    rw [h.least_foldlM hr, h.least_mergeListed hmid, and_assoc]
    simp only [List.forall_mem_cons, imp_and]

/-- Merging the same states in another order gives the same. -/
theorem Lattice.alike_of_same (h : m.Lattice side) {which : IndexSet} {first other t : State}
    {rest others : List State} (hr : rest.foldlM (m.mergeListed side which) first = .ok r)
    (ht : others.foldlM (m.mergeListed side which) other = .ok t)
    (hsame : ∀ s, s ∈ first :: rest ↔ s ∈ other :: others) (hi : i ∈ which) :
    m.Alike side i r t := by
  refine h.alike_of_iff fun X => ?_
  have all : ∀ {a : State} {l : List State} {u : State}, l.foldlM (m.mergeListed side which) a = .ok u →
      (m.Below side i u X ↔ ∀ s ∈ a :: l, m.Below side i s X) := by
    intro a l u hu
    rw [h.least_foldlM hu, List.forall_mem_cons]
    exact and_congr_right fun _ => ⟨fun g => g hi, fun g _ => g⟩
  rw [all hr, all ht]
  exact forall_congr' fun s => by rw [hsame]

end Model

namespace Spec

variable {t : Spec} {side : Side} {i j : Nat} {s o r : State}

/-- A property with a relaxation has a slot. -/
theorem slot_of_relaxation {relax : Relaxation} (h : t.toModel.relaxation? side i = some relax) :
    ∃ slot, (t.toModel.layout side).slot? i = some slot := by
  unfold Model.relaxation? at h
  cases hq : (t.toModel.properties.get side)[i]? with
  | none =>
    rw [hq] at h
    cases h
  | some q =>
    obtain ⟨slot, hs, -⟩ := slot_of_property hq
    exact ⟨slot, hs⟩

variable (hc : t.check = .ok ()) (hb : ∀ {i : Nat} {q : Property},
  (t.properties.get side)[i]? = some q → ∀ merge, q.relaxation ≠ .custom merge)
include hc hb

/-- What is known of a slot of a checked specification without merges of its own. -/
theorem fits {slot : Slot} (hs : (t.toModel.layout side).slot? i = some slot) :
    ∃ relax, t.toModel.relaxation? side i = some relax ∧ slot.kind.isValid = true ∧
      relax.supports slot.kind = true ∧ ∀ merge, relax ≠ .custom merge := by
  obtain ⟨q, hq, hk⟩ := property_of_slot hs
  exact ⟨q.relaxation, relaxation_toModel hq, (sound_layout hc side).valid i slot hs,
    hk ▸ supports_of_check hc (Array.mem_toList_iff.2 (Array.mem_of_getElem? hq)), hb hq⟩

/-- Merging one property merges its bits, and leaves those of the other properties alone. -/
theorem absorbs_mergeProperty (hs : t.toModel.InRange side s) (ho : t.toModel.InRange side o)
    (hr : t.toModel.mergeProperty side o s j = .ok r) : t.toModel.Absorbs side [j] s o r := by
  cases hslot : (t.toModel.layout side).slot? j with
  | none =>
    have hnone : t.toModel.relaxation? side j = none := by
      refine Option.eq_none_iff_forall_ne_some.2 fun relax h => ?_
      obtain ⟨slot, hs⟩ := slot_of_relaxation h
      cases hslot.symm.trans hs
    have e : r = s := by
      unfold Model.mergeProperty at hr
      rw [hnone] at hr
      exact (Except.ok.inj hr).symm
    subst e
    refine ⟨fun i hi relax hrelax => ?_, fun _ _ => rfl, fun _ _ => rfl, rfl, hs⟩
    rw [List.mem_singleton.1 hi, hnone] at hrelax
    cases hrelax
  | some slot =>
    obtain ⟨relax, hrelax, hv, hfit, hbuilt⟩ := fits hc hb hslot
    have e : r = { s with bits := slot.merge relax s.bits o.bits } := by
      rw [Model.mergeProperty_eq hrelax hbuilt hslot] at hr
      exact (Except.ok.inj hr).symm
    have hin := hs j slot hslot
    have hin' := ho j slot hslot
    have others : ∀ i, i ≠ j → t.toModel.Alike side i s r := fun i hij =>
      alike_merged hc (fun hq => hb hq) hij hr
    refine ⟨fun i hi relax' hr' => ?_, fun i hi => ?_, fun k hk => ?_, ?_, fun i slot' hs' => ?_⟩
    · obtain rfl := List.mem_singleton.1 hi
      obtain rfl := Option.some.inj (hrelax.symm.trans hr')
      have stored : ∀ x, (t.toModel.view side x).value i = slot.value x.bits := fun x =>
        View.value_eq (v := t.toModel.view side x) hslot
      rw [stored, stored, stored, e]
      exact Slot.value_merge hv hfit hbuilt hin hin'
    · exact (Model.value_alike (others i (by simpa using hi))).symm
    · rw [e]
      exact Slot.testBit_merge hfit hin hin' (hk j List.mem_cons_self slot hslot)
    · rw [e]
    · by_cases hij : i = j
      · subst hij
        obtain rfl := Option.some.inj (hslot.symm.trans hs')
        rw [e]
        exact Slot.inRange_merge hv hfit hin hin'
      · exact (hs i slot' hs').congr (others i hij slot' hs')

theorem absorbs_foldlM (ho : t.toModel.InRange side o) : ∀ {js : List Nat} {s r : State}, js.Nodup →
      t.toModel.InRange side s → js.foldlM (t.toModel.mergeProperty side o) s = .ok r →
        t.toModel.Absorbs side js s o r
  | [], s, r, _, hs, hr => by
    obtain rfl := Except.ok.inj hr
    exact .nil hs
  | j :: js, s, r, hnd, hs, hr => by
    rw [List.foldlM_cons] at hr
    obtain ⟨mid, hmid, hr⟩ := Checked.bind_eq_ok.1 hr
    have first := absorbs_mergeProperty hc hb hs ho hmid
    obtain ⟨hj, hnd⟩ := List.nodup_cons.1 hnd
    exact first.append hj (absorbs_foldlM ho hnd first.inRange hr)

/-- A merge of states gives the listed properties the merged values. -/
theorem merged_foldlM {which : IndexSet} : ∀ {rest : List State} {first r : State},
    (∀ s ∈ first :: rest, t.toModel.InRange side s) →
      rest.foldlM (t.toModel.mergeListed side which) first = .ok r →
        t.toModel.Merged side which first rest r
  | [], first, r, hin, hr => by
    obtain rfl := Except.ok.inj hr
    exact .nil (hin first List.mem_cons_self)
  | s :: rest, first, r, hin, hr => by
    rw [List.foldlM_cons] at hr
    obtain ⟨mid, hmid, hr⟩ := Checked.bind_eq_ok.1 hr
    have hnd : which.toList.Nodup := which.pairwise_toList.imp Nat.ne_of_lt
    have one := absorbs_foldlM hc hb (hin s (by simp)) hnd (hin first List.mem_cons_self) hmid
    refine .cons one (merged_foldlM (fun u hu => ?_) hr)
    rcases List.mem_cons.1 hu with rfl | hu
    · exact one.inRange
    · exact hin u (by simp [hu])

/-- A merge covers the states it is made from. -/
theorem covers_foldlM {which : IndexSet} {rest : List State} {first r : State}
    (hin : ∀ s ∈ first :: rest, t.toModel.InRange side s) (hout : t.toModel.InRange side r)
    (hr : rest.foldlM (t.toModel.mergeListed side which) first = .ok r) (hi : i ∈ which)
    {relax : Relaxation} (hrelax : t.toModel.relaxation? side i = some relax) (hs : s ∈ first :: rest) :
    relax.Covers ((t.toModel.view side s).value i) ((t.toModel.view side r).value i) := by
  have hl : t.toModel.Lattice side := lattice hc hb
  have above : t.toModel.Below side i s r := by
    have := (hl.least_foldlM hr (i := i)).1 (hl.refl i r)
    exact (List.mem_cons.1 hs).elim (fun e => e ▸ this.1) (this.2 hi s)
  obtain ⟨slot, hslot⟩ := slot_of_relaxation hrelax
  obtain ⟨relax', hrelax', -, hfit, hbuilt⟩ := fits hc hb hslot
  obtain rfl := Option.some.inj (hrelax.symm.trans hrelax')
  have stored : ∀ x, (t.toModel.view side x).value i = slot.value x.bits := fun x =>
    View.value_eq (v := t.toModel.view side x) hslot
  rw [stored, stored]
  exact Slot.covers_of_below hfit hbuilt (hin s hs i slot hslot) (hout i slot hslot)
    (above slot relax hslot hrelax)

/-- Merging states of a specification without merges of its own always gives a result. Its listed
properties have the minimum, maximum, union or intersection of the values of all the states and so cover
each of them. They are the same for every list with the same members, up to the bit, and no other property
and no other bit changes. -/
theorem merge_order_free (which : IndexSet)
    {first other : State} {rest others : List State}
    (hin : ∀ s ∈ first :: rest, t.toModel.InRange side s)
    (hsame : ∀ s, s ∈ first :: rest ↔ s ∈ other :: others) :
    ∃ r u, rest.foldlM (t.toModel.mergeListed side which) first = .ok r ∧
      others.foldlM (t.toModel.mergeListed side which) other = .ok u ∧
      t.toModel.Merged side which first rest r ∧ t.toModel.Merged side which other others u ∧
      (∀ i ∈ which, ∀ relax, t.toModel.relaxation? side i = some relax → ∀ s ∈ first :: rest,
        relax.Covers ((t.toModel.view side s).value i) ((t.toModel.view side r).value i)) ∧
      (∀ i ∈ which, (t.toModel.view side r).value i = (t.toModel.view side u).value i) ∧
      (∀ k, t.toModel.Holds side which k → r.bits.testBit k = u.bits.testBit k) ∧
      (first = other → r = u) := by
  have hl : t.toModel.Lattice side := lattice hc hb
  have total : ∀ acc s, ∃ x, t.toModel.mergeListed side which acc s = .ok x :=
    fun acc s => hl.exists_mergeListed which acc s
  obtain ⟨r, hr⟩ := Checked.exists_foldlM total rest first
  obtain ⟨u, hu⟩ := Checked.exists_foldlM total others other
  have hin' : ∀ s ∈ other :: others, t.toModel.InRange side s := fun s hs => hin s ((hsame s).2 hs)
  have one := merged_foldlM hc hb hin hr
  have two := merged_foldlM hc hb hin' hu
  have alike : ∀ i ∈ which, t.toModel.Alike side i r u := fun i hi => hl.alike_of_same hr hu hsame hi
  have bits : ∀ k, t.toModel.Holds side which k → r.bits.testBit k = u.bits.testBit k := by
    rintro k ⟨i, hi, slot, hs, hk⟩
    exact Slot.testBit_of_agree (alike i hi slot hs) hk
  refine ⟨r, u, hr, hu, one, two, fun i hi relax hrelax s hs => ?_, fun i hi => Model.value_alike (alike i hi),
    bits, fun e => ?_⟩
  · exact covers_foldlM hc hb hin one.inRange hr hi hrelax hs
  · -- outside the listed properties both are the first state, which is the same
    have same : r.bits = u.bits := by
      refine Nat.eq_of_testBit_eq fun k => ?_
      by_cases hk : t.toModel.Holds side which k
      · exact bits k hk
      · rw [one.bits k hk, two.bits k hk, e]
    exact congrArg₂ State.mk same (by rw [one.relaxed, two.relaxed, e])

end Spec

/-! A set between numbers and windows which fill more than one word. -/

namespace Assorted

/-- One property of each kind, each with another relaxation or the same one as another kind. -/
def spec : Spec where
  branchVars := #[0]
  scopes := #[⟨"assorted", [0]⟩]
  properties := .mk #[
    { constraint := 0, kind := .integer 0 (-5) 5, relaxation := .minimum },
    { constraint := 0, kind := .set 70, relaxation := .union },
    { constraint := 0, kind := .flag false, relaxation := .maximum },
    { constraint := 0, kind := .window 12 0 (-100) 100, relaxation := .maximum },
    { constraint := 0, kind := .set 3, relaxation := .intersection }] #[] #[]

def first : State := spec.toModel.fresh .down

def second : State :=
  let v := (spec.toModel.view .down first).setInteger 0 (-4)
  let v := v.setSet 1 ((v.set 1).insert 69)
  let v := v.setFlag 2 true
  (v.setWindowElement 3 11 (-7)).state

def third : State :=
  let v := (spec.toModel.view .down first).setInteger 0 3
  let v := v.setSet 1 ((v.set 1).insert 2)
  let v := v.setWindowElement 3 0 5
  (v.setSet 4 ((v.set 4).insert 1)).state

/-- The first four properties are merged, in two orders and once with a repetition. -/
theorem merged_twice : ∃ r u,
    [second, third].foldlM (spec.toModel.mergeListed .down (IndexSet.below 4)) first = .ok r ∧
      [first, third, second].foldlM (spec.toModel.mergeListed .down (IndexSet.below 4)) third = .ok u ∧
      (spec.toModel.view .down r).value 0 = .integer (-4) ∧
      (spec.toModel.view .down r).value 1 = .set ⟨(IndexSet.empty.insert 2).insert 69, 70⟩ ∧
      (spec.toModel.view .down r).value 2 = .flag true ∧
      (spec.toModel.view .down r).value 3 = .window [5, 0, 0, 0, 0, 0, 0, 0, 0, 0, 0, 0] ∧
      ∀ i ∈ IndexSet.below 4,
        (spec.toModel.view .down r).value i = (spec.toModel.view .down u).value i := by
  have builtIn : ∀ {i : Nat} {q : Property}, spec.properties.down[i]? = some q →
      ∀ merge, q.relaxation ≠ .custom merge := by
    intro i q hq merge e
    have hmem : q ∈ spec.properties.down.toList := Array.mem_toList_iff.2 (Array.mem_of_getElem? hq)
    simp only [spec, List.mem_cons, List.not_mem_nil, or_false] at hmem
    rcases hmem with rfl | rfl | rfl | rfl | rfl <;> cases e
  have members : ∀ s, s ∈ [first, second, third] ↔ s ∈ [third, first, third, second] := by
    intro s
    simp only [List.mem_cons, List.not_mem_nil, or_false]
    grind
  have inRange : ∀ s ∈ [first, second, third], spec.toModel.InRange .down s := by decide +kernel
  obtain ⟨r, u, hr, hu, one, -, -, same, -, -⟩ := Spec.merge_order_free (by decide +kernel) builtIn
    (IndexSet.below 4) inRange members
  refine ⟨r, u, hr, hu, ?_, ?_, ?_, ?_, same⟩
  · exact (one.value 0 (by decide +kernel) .minimum rfl).trans (by decide +kernel)
  · exact (one.value 1 (by decide +kernel) .union rfl).trans (by decide +kernel)
  · exact (one.value 2 (by decide +kernel) .maximum rfl).trans (by decide +kernel)
  · exact (one.value 3 (by decide +kernel) .maximum rfl).trans (by decide +kernel)

end Assorted

end DecisionDiagrams
