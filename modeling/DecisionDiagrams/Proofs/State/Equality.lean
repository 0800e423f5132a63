import DecisionDiagrams.Proofs.State.Clean

/-! Equality of stored states is equality of what is read. States are compared, hashed and searched for differences
by their words, which include bits of no property. Since no write, copy or merge ever sets one of these, two states
have the same words if and only if every property reads the same in both, and what is found to differ between them
is what reads differently. -/

namespace DecisionDiagrams

open Words

/-! ### Loops which cannot fail -/

theorem List.allM_eq_some {α : Type} {f : α → Option Bool} {g : α → Bool} {xs : List α}
    (h : ∀ x ∈ xs, f x = some (g x)) : xs.allM f = some (xs.all g) := by
  induction xs with
  | nil => rfl
  | cons x xs ih =>
    rw [List.allM, h x List.mem_cons_self, ih fun y hy => h y (List.mem_cons_of_mem _ hy)]
    cases hx : g x <;> simp [hx]

theorem List.foldlM_eq_some {α β : Type} {f : β → α → Option β} {g : β → α → β} {xs : List α}
    (h : ∀ acc, ∀ x ∈ xs, f acc x = some (g acc x)) (acc : β) : xs.foldlM f acc = some (xs.foldl g acc) := by
  induction xs generalizing acc with
  | nil => rfl
  | cons x xs ih =>
    rw [List.foldlM_cons, h acc x List.mem_cons_self, List.foldl_cons]
    exact ih (fun acc y hy => h acc y (List.mem_cons_of_mem _ hy)) _

/-! ### Comparing, copying and merging words -/

namespace Word

theorem toNat_smaller (x y : Word) : (smaller x y).toNat = min x.toNat y.toNat := by
  unfold smaller
  split_ifs with h <;> rw [BitVec.le_def] at h <;> omega

theorem toNat_larger (x y : Word) : (larger x y).toNat = max x.toNat y.toNat := by
  unfold larger
  split_ifs with h <;> rw [BitVec.le_def] at h <;> omega

end Word

/-- Sets of as many words are combined bit by bit. -/
theorem Words.Spells.combine {part other : Array Word} {x y z : IndexSet} {f : Word → Word → Word}
    {g : Bool → Bool → Bool} (h : Spells part x.bits) (h' : Spells other y.bits) (hsize : other.size = part.size)
    (hf : ∀ w u i, (f w u).getLsbD i = g (w.getLsbD i) (u.getLsbD i)) (hg : g false false = false)
    (hz : ∀ k, z.bits.testBit k = g (x.bits.testBit k) (y.bits.testBit k)) :
    Spells (Words.combine f 0 part other) z.bits := by
  intro k
  rw [hz, ← h, ← h']
  by_cases hk : k < part.size * wordBits
  · rw [bit_combine hf 0 hk, if_pos (by rwa [hsize])]
  · rw [bit_of_ge (by rw [size_combine]; omega), bit_of_ge (by omega), bit_of_ge (by rw [hsize]; omega), hg]

/-- Merges a property with a built-in relaxation. -/
def Slot.merge? (s : Slot) : Relaxation → Array Word → Array Word → Option (Array Word)
  | .minimum, ws, vs => s.mergeNumbers? Word.smaller ws vs
  | .maximum, ws, vs => s.mergeNumbers? Word.larger ws vs
  | .union, ws, vs => s.mergeSet? (· ||| ·) ws vs
  | .intersection, ws, vs => s.mergeSet? (· &&& ·) ws vs
  | .custom _, ws, _ => some ws

namespace Layout

variable {l : Layout} {s : Slot} {i a b : Nat} {ws vs : Array Word} (hl : l.Packed) (hs : l.slot? i = some s)
include hl hs

theorem Stores.agree? (h : l.Stores ws a) (h' : l.Stores vs b) : s.agree? ws vs = some (s.agree a b) := by
  unfold Slot.agree? Slot.agree
  split_ifs with hset
  · obtain ⟨part, hpart, hsize, hspell⟩ := h.part? hl hs hset
    obtain ⟨other, hother, hsize', hspell'⟩ := h'.part? hl hs hset
    have same : (part == other) = (s.readSet a == s.readSet b) := by
      rw [Bool.eq_iff_iff, beq_iff_eq, beq_iff_eq, hspell.eq_iff hspell' (hsize.trans hsize'.symm)]
      exact ⟨congrArg IndexSet.mk, congrArg IndexSet.bits⟩
    simp [hpart, hother, same]
  · apply List.allM_eq_some
    intro e he
    have he := List.mem_range.1 he
    have hn := hl.numeric hs (Slot.isSet_of_lt_elements he)
    obtain ⟨w, hw, hread⟩ := h.element? hl hs hn he
    obtain ⟨u, hu, hread'⟩ := h'.element? hl hs hn he
    have same : (w == u) = (s.readElement a e == s.readElement b e) := by
      rw [Bool.eq_iff_iff, beq_iff_eq, beq_iff_eq, ← hread, ← hread', BitVec.toNat_inj]
    simp [hw, hu, same]

omit hl hs in
/-- Elements which are written one after the other on the words are so on the number. -/
theorem Stores.rewrite? {f : Array Word → Nat → Option (Array Word)} {g : Nat → Nat → Nat}
    (step : ∀ {ws a e}, l.Stores ws a → e < s.elements →
      ∃ vs, f ws e = some vs ∧ l.Stores vs (s.writeElement a e (g e (s.readElement a e))))
    (h : l.Stores ws a) {n : Nat} (hn : n ≤ s.elements) :
    ∃ vs, (List.range n).foldlM f ws = some vs ∧ l.Stores vs (s.rewrite g n a) := by
  induction n with
  | zero => exact ⟨ws, rfl, h⟩
  | succ n ih =>
    obtain ⟨us, hus, hst⟩ := ih (Nat.le_of_succ_le hn)
    obtain ⟨vs, hvs, hst⟩ := step hst hn
    refine ⟨vs, ?_, by rwa [Slot.rewrite_succ]⟩
    rw [List.range_succ, List.foldlM_append, hus]
    simp [hvs]

theorem Stores.copy? (h : l.Stores ws a) (h' : l.Stores vs b) :
    ∃ us, s.copy? ws vs = some us ∧ l.Stores us (s.copy a b) := by
  unfold Slot.copy?
  split_ifs with hset
  · obtain ⟨part, hpart, hsize, hspell⟩ := h'.part? hl hs hset
    refine ⟨s.putPart ws part, by simp [hpart], ?_⟩
    unfold Slot.copy
    rw [if_pos hset]
    exact h.putPart hl hs hset hsize hspell
  · have hset : s.kind.isSet = false := Bool.eq_false_iff.2 hset
    have hn := hl.numeric hs hset
    rw [Slot.copy_of_not_isSet hset]
    refine Stores.rewrite? (fun {us c e} hst he => ?_) h (Nat.le_refl _)
    obtain ⟨w, hw, hread⟩ := h'.element? hl hs hn he
    obtain ⟨rs, hrs, hst⟩ := hst.putElement? hl hs hn he w
    exact ⟨rs, by simp [hw, hrs], hread ▸ hst⟩

theorem Stores.mergeNumbers? (h : l.Stores ws a) (h' : l.Stores vs b) (hn : s.Numeric) {pick : Word → Word → Word}
    {op : Nat → Nat → Nat} (hpick : ∀ w u, (pick w u).toNat = op w.toNat u.toNat) :
    ∃ us, s.mergeNumbers? pick ws vs = some us ∧ l.Stores us (s.mergeNumbers op a b) := by
  rw [Slot.mergeNumbers_eq]
  refine Stores.rewrite? (fun {us c e} hst he => ?_) h (Nat.le_refl _)
  obtain ⟨w, hw, hread⟩ := hst.element? hl hs hn he
  obtain ⟨u, hu, hread'⟩ := h'.element? hl hs hn he
  obtain ⟨rs, hrs, hst⟩ := hst.putElement? hl hs hn he (pick w u)
  refine ⟨rs, by simp [hw, hu, hrs], ?_⟩
  rwa [hpick, hread, hread'] at hst

theorem Stores.mergeSet? (h : l.Stores ws a) (h' : l.Stores vs b) (hset : s.kind.isSet = true)
    {pick : Word → Word → Word} {both : Bool → Bool → Bool} {op : IndexSet → IndexSet → IndexSet}
    (hpick : ∀ w u i, (pick w u).getLsbD i = both (w.getLsbD i) (u.getLsbD i)) (hboth : both false false = false)
    (hop : ∀ x y k, (op x y).bits.testBit k = both (x.bits.testBit k) (y.bits.testBit k)) :
    ∃ us, s.mergeSet? pick ws vs = some us ∧ l.Stores us (s.mergeSet op a b) := by
  obtain ⟨part, hpart, hsize, hspell⟩ := h.part? hl hs hset
  obtain ⟨other, hother, hsize', hspell'⟩ := h'.part? hl hs hset
  have hspell := hspell.combine hspell' (hsize'.trans hsize.symm) hpick hboth (hop (s.readSet a) (s.readSet b))
  refine ⟨s.putPart ws (combine pick 0 part other), by simp [Slot.mergeSet?, hset, hpart, hother], ?_⟩
  unfold Slot.mergeSet
  rw [if_pos hset]
  exact h.putPart hl hs hset ((size_combine _ _).trans hsize) hspell

theorem Stores.merge? (h : l.Stores ws a) (h' : l.Stores vs b) {r : Relaxation} (hr : r.supports s.kind = true) :
    ∃ us, s.merge? r ws vs = some us ∧ l.Stores us (s.merge r a b) := by
  cases r with
  | minimum =>
    exact h.mergeNumbers? hl hs h' (hl.numeric hs (by simpa [Relaxation.supports] using hr)) Word.toNat_smaller
  | maximum =>
    exact h.mergeNumbers? hl hs h' (hl.numeric hs (by simpa [Relaxation.supports] using hr)) Word.toNat_larger
  | union =>
    exact h.mergeSet? hl hs h' hr (fun _ _ _ => BitVec.getLsbD_or) rfl fun _ _ _ => Nat.testBit_or ..
  | intersection =>
    exact h.mergeSet? hl hs h' hr (fun _ _ _ => BitVec.getLsbD_and) rfl fun _ _ _ => Nat.testBit_and ..
  | custom => exact ⟨ws, rfl, h⟩

omit hs in
/-- What is found to differ is what differs as a number, whatever words are hashed to. -/
theorem Stores.difference? {x y : Buffer} {u v : State} (h : l.Stores x.words u.bits) (h' : l.Stores y.words v.bits)
    (hash : x.words = y.words → x.digest = y.digest) : x.difference? l y = some (l.difference u v) := by
  have same : x.digest = y.digest ∧ x.words = y.words ↔ u.bits = v.bits := by
    rw [and_iff_right_of_imp hash]
    exact h.spells.eq_iff h'.spells (h.size.trans h'.size.symm)
  unfold Buffer.difference? Layout.difference
  simp only [same]
  split_ifs
  · rfl
  · apply List.foldlM_eq_some
    intro acc i hi
    obtain ⟨s, hs⟩ : ∃ s, l.slot? i = some s := ⟨_, Array.getElem?_eq_getElem (List.mem_range.1 hi)⟩
    simp [hs, h.agree? hl hs h']

end Layout

namespace Buffer

variable {a b : Buffer} {hash : Array Word → Word}

/-- Digests of the same words are the same, so they never tell states apart. -/
theorem same_rehash_iff :
    (a.rehash hash).same (b.rehash hash) = true ↔ a.relaxed = b.relaxed ∧ a.words = b.words := by
  simp only [same, rehash, Bool.and_eq_true, beq_iff_eq]
  constructor
  · rintro ⟨⟨-, hrel⟩, hw⟩
    exact ⟨hrel, hw⟩
  · rintro ⟨hrel, hw⟩
    exact ⟨⟨congrArg hash hw, hrel⟩, hw⟩

theorem key_eq_of_same (h : a.same b = true) : a.key = b.key := by
  simp only [same, Bool.and_eq_true, beq_iff_eq] at h
  simp only [key, h.1.1, h.1.2]

end Buffer

/-! ### Making states -/

/-- How a state is made from a blank one: properties are written, taken over from another state or merged with
those of another state, and the state is marked as relaxed or as exact. -/
inductive Recipe
  | blank
  | write (r : Recipe) (x : Write)
  | copy (r : Recipe) (i : Nat) (source : Recipe)
  | merge (r : Recipe) (i : Nat) (relax : Relaxation) (other : Recipe)
  | mark (r : Recipe) (relaxed : Bool)

namespace Recipe

variable {l : Layout} {p q : Recipe}

def state (l : Layout) : Recipe → State
  | .blank => .zero
  | .write r x => (View.perform ⟨l, r.state l⟩ x).state
  | .copy r i source =>
    match l.slot? i with
    | some s => { r.state l with bits := s.copy (r.state l).bits (source.state l).bits }
    | none => r.state l
  | .merge r i relax other =>
    match l.slot? i with
    | some s => { r.state l with bits := s.merge relax (r.state l).bits (other.state l).bits }
    | none => r.state l
  | .mark r relaxed => { r.state l with relaxed }

def buffer? (l : Layout) : Recipe → Option Buffer
  | .blank => some ⟨l.blank, 0, false⟩
  | .write r x => do
    let b ← r.buffer? l
    return { b with words := ← l.perform? b.words x }
  | .copy r i source => do
    let b ← r.buffer? l
    let other ← source.buffer? l
    let s ← l.slot? i
    return { b with words := ← s.copy? b.words other.words }
  | .merge r i relax other => do
    let b ← r.buffer? l
    let other ← other.buffer? l
    let s ← l.slot? i
    return { b with words := ← s.merge? relax b.words other.words }
  | .mark r relaxed => do
    let b ← r.buffer? l
    return { b with relaxed }

/-- Writes fit the layout, sets are combined with sets of the same capacity, and properties are merged as their kind
allows. -/
def fits (l : Layout) : Recipe → Bool
  | .blank => true
  | .write r x => x.fits l && x.matches l && r.fits l
  | .copy r i source => (l.slot? i).isSome && source.fits l && r.fits l
  | .merge r i relax other => (l.slot? i).any (fun s => relax.supports s.kind) && other.fits l && r.fits l
  | .mark r _ => r.fits l

/-- No bit is set which does not belong to a property. -/
theorem clean (hl : l.Sound) (hp : p.fits l = true) : l.Clean (p.state l).bits := by
  induction p with
  | blank => exact Layout.clean_zero hl
  | write r x ih =>
    simp only [fits, Bool.and_eq_true] at hp
    obtain ⟨⟨hx, hm⟩, hr⟩ := hp
    obtain ⟨s, hf⟩ := View.exists_slot_of_fits hx
    have hs := (Layout.slotOf?_eq_some.1 hf).1
    have hc := ih hr
    exact hc.alters hl hs (View.alters_perform (v := ⟨l, r.state l⟩) hl hx hm hs (hc.inRange _ s hs))
  | copy r i source ihr ihs =>
    simp only [fits, Bool.and_eq_true] at hp
    obtain ⟨⟨hi, hsource⟩, hr⟩ := hp
    obtain ⟨s, hs⟩ := Option.isSome_iff_exists.1 hi
    have hc := ihr hr
    simp only [state, hs]
    exact hc.alters hl hs (hl.alters_copy hs (hc.inRange i s hs) ((ihs hsource).inRange i s hs))
  | merge r i relax other ihr iho =>
    simp only [fits, Bool.and_eq_true] at hp
    obtain ⟨⟨hi, hother⟩, hr⟩ := hp
    obtain ⟨s, hs, hrelax⟩ := (Option.any_eq_true _ _).1 hi
    have hc := ihr hr
    simp only [state, hs]
    exact hc.alters hl hs
      (Slot.alters_merge (hl.valid i s hs) hrelax (hc.inRange i s hs) ((iho hother).inRange i s hs))
  | mark r relaxed ih => exact ih hp

/-- Nothing fails, and the words are those of the number. -/
theorem exists_buffer (hl : l.Packed) (hp : p.fits l = true) : ∃ b, p.buffer? l = some b ∧
    l.Stores b.words (p.state l).bits ∧ b.relaxed = (p.state l).relaxed := by
  induction p with
  | blank => exact ⟨_, rfl, l.stores_blank, rfl⟩
  | write r x ih =>
    simp only [fits, Bool.and_eq_true] at hp
    obtain ⟨b, hb, hst, hrel⟩ := ih hp.2
    obtain ⟨vs, hvs, hst⟩ := Layout.Stores.perform? (v := ⟨l, r.state l⟩) hl hst rfl hp.1.1
    refine ⟨{ b with words := vs }, by simp [buffer?, hb, hvs], hst, ?_⟩
    exact hrel.trans (View.relaxed_perform ⟨l, r.state l⟩ x).symm
  | copy r i source ihr ihs =>
    simp only [fits, Bool.and_eq_true] at hp
    obtain ⟨s, hs⟩ := Option.isSome_iff_exists.1 hp.1.1
    obtain ⟨b, hb, hst, hrel⟩ := ihr hp.2
    obtain ⟨c, hc, hst', -⟩ := ihs hp.1.2
    obtain ⟨vs, hvs, hst⟩ := hst.copy? hl hs hst'
    simp only [state, hs]
    exact ⟨{ b with words := vs }, by simp [buffer?, hb, hc, hs, hvs], hst, hrel⟩
  | merge r i relax other ihr iho =>
    simp only [fits, Bool.and_eq_true] at hp
    obtain ⟨s, hs, hrelax⟩ := (Option.any_eq_true _ _).1 hp.1.1
    obtain ⟨b, hb, hst, hrel⟩ := ihr hp.2
    obtain ⟨c, hc, hst', -⟩ := iho hp.1.2
    obtain ⟨vs, hvs, hst⟩ := hst.merge? hl hs hst' hrelax
    simp only [state, hs]
    exact ⟨{ b with words := vs }, by simp [buffer?, hb, hc, hs, hvs], hst, hrel⟩
  | mark r relaxed ih =>
    obtain ⟨b, hb, hst, -⟩ := ih hp
    exact ⟨{ b with relaxed }, by simp [buffer?, hb], hst, rfl⟩

/-- The same bits in the number are the same readings. -/
theorem bits_eq_iff (hl : l.Sound) (hp : p.fits l = true) (hq : q.fits l = true) :
    (p.state l).bits = (q.state l).bits ↔
      ∀ c : Cell, c.within l = true → View.read ⟨l, p.state l⟩ c = View.read ⟨l, q.state l⟩ c := by
  have hcp := clean hl hp
  have hcq := clean hl hq
  rw [hcp.eq_iff hcq]
  constructor
  · intro h c hc
    obtain ⟨s, hf⟩ := View.exists_slot_of_within hc
    have hs := (Layout.slotOf?_eq_some.1 hf).1
    exact (Layout.agree_iff_read hs (hcp.inRange _ s hs) (hcq.inRange _ s hs)).1 (h _ s hs) c hc rfl
  · intro h i s hs
    exact (Layout.agree_iff_read hs (hcp.inRange i s hs) (hcq.inRange i s hs)).2 fun c hc _ => h c hc

theorem mem_difference_iff (hl : l.Sound) (hp : p.fits l = true) (hq : q.fits l = true) {i : Nat} :
    i ∈ l.difference (p.state l) (q.state l) ↔ ∃ c : Cell, c.index = i ∧ c.within l = true ∧
      View.read ⟨l, p.state l⟩ c ≠ View.read ⟨l, q.state l⟩ c := by
  have agree : ∀ {i s}, l.slot? i = some s → _ := fun {i s} hs =>
    Layout.agree_iff_read hs ((clean hl hp).inRange i s hs) ((clean hl hq).inRange i s hs)
  rw [Layout.mem_difference]
  constructor
  · rintro ⟨s, hs, h⟩
    by_contra hno
    push Not at hno
    exact Bool.eq_false_iff.1 h ((agree hs).2 fun c hc hi => hno c hi hc)
  · rintro ⟨c, rfl, hc, hne⟩
    obtain ⟨s, hf⟩ := View.exists_slot_of_within hc
    have hs := (Layout.slotOf?_eq_some.1 hf).1
    exact ⟨s, hs, Bool.eq_false_iff.2 fun h => hne ((agree hs).1 h c hc rfl)⟩

/-- Two states of a layout of valid kinds whose offsets have no more than 32 bits, each made from a blank one without
any failure and then hashed. They compare equal, and then hash equal, if and only if they are marked alike and
everything which can be read is the same in both. What is found to differ is what reads differently, and this is
nothing only if the words are the same. The states which the words spell show the same. -/
theorem same_iff_read_same {ks : List Kind} (hks : Layout.ofKinds ks = l) (hv : ∀ k ∈ ks, k.isValid = true)
    (hbits : l.bits < 2 ^ 32) (hp : p.fits l = true) (hq : q.fits l = true) (hash : Array Word → Word) :
    ∃ a b d, p.buffer? l = some a ∧ q.buffer? l = some b ∧
      (∀ c : Cell, c.within l = true → l.read? a.words c = some (View.read ⟨l, p.state l⟩ c) ∧
        l.read? b.words c = some (View.read ⟨l, q.state l⟩ c)) ∧
      ((a.rehash hash).same (b.rehash hash) = true ↔
        a.relaxed = b.relaxed ∧ ∀ c : Cell, c.within l = true → l.read? a.words c = l.read? b.words c) ∧
      ((a.rehash hash).same (b.rehash hash) = true → (a.rehash hash).key = (b.rehash hash).key) ∧
      (a.rehash hash).difference? l (b.rehash hash) = some d ∧
      (∀ i, i ∈ d ↔
        ∃ c : Cell, c.index = i ∧ c.within l = true ∧ l.read? a.words c ≠ l.read? b.words c) ∧
      (d.isEmpty = true ↔ a.words = b.words) ∧
      (p.state l = q.state l ↔ (a.rehash hash).same (b.rehash hash) = true) ∧
      l.difference (p.state l) (q.state l) = d := by
  have hl : l.Packed := hks ▸ Layout.packed_ofKinds hv (hks ▸ hbits)
  obtain ⟨a, ha, hsta, hra⟩ := exists_buffer hl hp
  obtain ⟨b, hb, hstb, hrb⟩ := exists_buffer hl hq
  have hreada : ∀ c : Cell, c.within l = true → l.read? a.words c = some (View.read ⟨l, p.state l⟩ c) :=
    fun c hc => Layout.Stores.read? (v := ⟨l, p.state l⟩) hl hsta rfl hc
  have hreadb : ∀ c : Cell, c.within l = true → l.read? b.words c = some (View.read ⟨l, q.state l⟩ c) :=
    fun c hc => Layout.Stores.read? (v := ⟨l, q.state l⟩) hl hstb rfl hc
  have hread : ∀ c : Cell, c.within l = true → (l.read? a.words c = l.read? b.words c ↔
      View.read ⟨l, p.state l⟩ c = View.read ⟨l, q.state l⟩ c) := by
    intro c hc
    rw [hreada c hc, hreadb c hc, Option.some_inj]
  have hwords : a.words = b.words ↔ (p.state l).bits = (q.state l).bits :=
    hsta.spells.eq_iff hstb.spells (hsta.size.trans hstb.size.symm)
  have hdiff : (a.rehash hash).difference? l (b.rehash hash) = some (l.difference (p.state l) (q.state l)) :=
    Layout.Stores.difference? hl hsta hstb (congrArg hash)
  have hall : a.words = b.words ↔ ∀ c : Cell, c.within l = true → l.read? a.words c = l.read? b.words c := by
    rw [hwords, bits_eq_iff hl.toSound hp hq]
    exact forall₂_congr fun c hc => (hread c hc).symm
  have hmem : ∀ i, i ∈ l.difference (p.state l) (q.state l) ↔
      ∃ c : Cell, c.index = i ∧ c.within l = true ∧ l.read? a.words c ≠ l.read? b.words c := by
    intro i
    rw [mem_difference_iff hl.toSound hp hq]
    exact exists_congr fun c => and_congr_right fun _ => and_congr_right fun hc => not_congr (hread c hc).symm
  refine ⟨a, b, _, ha, hb, fun c hc => ⟨hreada c hc, hreadb c hc⟩, by rw [Buffer.same_rehash_iff, hall],
    Buffer.key_eq_of_same, hdiff, hmem, ?_, ?_, rfl⟩
  · rw [IndexSet.isEmpty_iff, hall]
    constructor
    · intro h c hc
      by_contra hne
      exact h c.index ((hmem _).2 ⟨c, rfl, hc, hne⟩)
    · intro h i hi
      obtain ⟨c, -, hc, hne⟩ := (hmem i).1 hi
      exact hne (h c hc)
  · rw [Buffer.same_rehash_iff, hwords, hra, hrb]
    constructor
    · intro h
      rw [h]
      exact ⟨rfl, rfl⟩
    · rintro ⟨h1, h2⟩
      rw [← State.code_inj, State.code, State.code, h1, h2]

/-- The first two states are made in different ways. One has its number from a write, and an element which its set
cannot hold is ignored; the other has it from a merge, and its set is taken over from a blank state. In the third one
another element is in the set, and it is marked. -/
theorem same_iff_read_same_assorted :
    let l := Layout.ofKinds [.integer 0 (-5) 5, .set 70, .flag false, .window 3 0 (-100) 100]
    let p := Recipe.blank.write (.integer 0 3) |>.write (.element 3 1 250) |>.write (.set 1 (.insert 70))
    let q := Recipe.blank.write (.set 1 (.insert 69)) |>.write (.element 3 1 100) |>.copy 1 .blank
      |>.merge 0 .maximum (Recipe.blank.write (.integer 0 3))
    let r := (q.write (.set 1 (.join ⟨.below 1, 70⟩))).mark true
    (∃ a b, p.buffer? l = some a ∧ q.buffer? l = some b ∧
      ((a.rehash fun ws => ws[0]!).same (b.rehash fun ws => ws[0]!)) = true) ∧
      ∃ a b d, q.buffer? l = some a ∧ r.buffer? l = some b ∧
        ((a.rehash fun ws => ws[0]!).same (b.rehash fun ws => ws[0]!)) = false ∧
        (a.rehash fun ws => ws[0]!).difference? l (b.rehash fun ws => ws[0]!) = some d ∧ d.toList = [1] := by
  intro l p q r
  have hp : p.fits l = true := by decide +kernel
  have hq : q.fits l = true := by decide +kernel
  have hr : r.fits l = true := by decide +kernel
  constructor
  · obtain ⟨a, b, d, ha, hb, -, -, -, -, -, -, hsame, -⟩ := same_iff_read_same (l := l) (p := p) (q := q) rfl
      (by decide +kernel) (by decide +kernel) hp hq fun ws => ws[0]!
    exact ⟨a, b, ha, hb, hsame.1 (by decide +kernel)⟩
  · obtain ⟨a, b, d, ha, hb, -, -, -, hd, -, -, hsame, rfl⟩ := same_iff_read_same (l := l) (p := q) (q := r) rfl
      (by decide +kernel) (by decide +kernel) hq hr fun ws => ws[0]!
    exact ⟨a, b, _, ha, hb, Bool.eq_false_iff.2 (mt hsame.2 (by decide +kernel)), hd, by decide +kernel⟩

end Recipe

end DecisionDiagrams
