import DecisionDiagrams.State.Buffer
import DecisionDiagrams.Proofs.State.Slots
import Mathlib.Tactic.Common

/-! Words which spell a number. A field that lies in one word is read from the words as it is read from the
number, and writing it to the words writes it to the number. The same holds for a run of words. -/

namespace DecisionDiagrams

namespace Word

theorem testBit_toNat (w : Word) (i : Nat) : w.toNat.testBit i = w.getLsbD i := BitVec.testBit_toNat w

theorem shiftRight?_mod (w : Word) (n : Nat) :
    shiftRight? w (n % wordBits) = some (w >>> (n % wordBits)) :=
  if_pos (Nat.mod_lt _ (by decide))

theorem shiftLeft?_mod (w : Word) (n : Nat) :
    shiftLeft? w (n % wordBits) = some (w <<< (n % wordBits)) :=
  if_pos (Nat.mod_lt _ (by decide))

theorem lowest?_spec (width : Nat) :
    ∃ m, lowest? width = some m ∧ ∀ i, m.getLsbD i = decide (i < wordBits ∧ i < width) := by
  unfold lowest? shiftLeft?
  split_ifs with h
  · refine ⟨_, rfl, fun i => ?_⟩
    have hlt : 2 ^ width < 2 ^ 64 := Nat.pow_lt_pow_right (by decide) h
    have hpos : 0 < 2 ^ width := Nat.two_pow_pos width
    have e : ((1 : Word) <<< width - 1).toNat = 2 ^ width - 1 := by
      have one : ((1 : Word) <<< width).toNat = 2 ^ width := by
        rw [BitVec.toNat_shiftLeft, show (1 : Word).toNat = 1 from rfl, Nat.one_shiftLeft, Nat.mod_eq_of_lt hlt]
      rw [BitVec.toNat_sub, one, show (1 : Word).toNat = 1 from rfl]
      omega
    rw [← testBit_toNat, e, Nat.testBit_two_pow_sub_one]
    refine decide_eq_decide.2 ?_
    omega
  · refine ⟨_, rfl, fun i => ?_⟩
    rw [BitVec.getLsbD_allOnes]
    refine decide_eq_decide.2 ?_
    unfold wordBits at *
    omega

end Word

namespace Words

variable {ws vs part : Array Word} {a b n : Nat} {offset width k : Nat}

def bit (ws : Array Word) (k : Nat) : Bool := (ws.getD (k / wordBits) 0).getLsbD (k % wordBits)

/-- The bits of the number are those of the words, one word behind the other. -/
def Spells (ws : Array Word) (a : Nat) : Prop := ∀ k, bit ws k = a.testBit k

theorem bit_of_getElem? {w : Word} {i : Nat} (hk : k / wordBits = i) (h : ws[i]? = some w) :
    bit ws k = w.getLsbD (k % wordBits) := by
  unfold bit
  rw [Array.getD_eq_getD_getElem?, hk, h, Option.getD_some]

theorem bit_of_ge (h : ws.size * wordBits ≤ k) : bit ws k = false := by
  have : ws[k / wordBits]? = none :=
    Array.getElem?_eq_none ((Nat.le_div_iff_mul_le (by decide)).2 h)
  unfold bit
  rw [Array.getD_eq_getD_getElem?, this]
  exact BitVec.getLsbD_zero

theorem spells_blank (n : Nat) : Spells (Array.replicate n 0) 0 := by
  intro k
  unfold bit
  rw [Array.getD_eq_getD_getElem?, Array.getElem?_replicate, Nat.zero_testBit]
  split_ifs <;> exact BitVec.getLsbD_zero

theorem Spells.eq (h : Spells ws a) (g : Spells ws b) : a = b :=
  Nat.eq_of_testBit_eq fun k => (h k).symm.trans (g k)

/-- As many words with the same bits are the same words. -/
theorem Spells.words_eq (h : Spells ws a) (g : Spells vs a) (hs : ws.size = vs.size) : ws = vs := by
  refine Array.ext hs fun i hi hj => BitVec.eq_of_getLsbD_eq fun j hj' => ?_
  have hd : (i * wordBits + j) / wordBits = i := by unfold wordBits; omega
  have hm : (i * wordBits + j) % wordBits = j := by unfold wordBits; omega
  have e := (h (i * wordBits + j)).trans (g (i * wordBits + j)).symm
  rw [bit_of_getElem? hd (Array.getElem?_eq_getElem hi), bit_of_getElem? hd (Array.getElem?_eq_getElem hj), hm] at e
  exact e

theorem Spells.eq_iff (h : Spells ws a) (g : Spells vs b) (hs : ws.size = vs.size) : ws = vs ↔ a = b :=
  ⟨fun e => h.eq (e ▸ g), fun e => h.words_eq (e ▸ g) hs⟩

/-! ### Fields -/

theorem Spells.readBits? (h : Spells ws a) (hk : offset / wordBits < ws.size)
    (hw : offset % wordBits + width ≤ wordBits) :
    ∃ w, readBits? ws offset width = some w ∧ w.toNat = Field.read a offset width := by
  obtain ⟨m, hm, hbits⟩ := Word.lowest?_spec width
  have hget := Array.getElem?_eq_getElem hk
  refine ⟨(ws[offset / wordBits] >>> (offset % wordBits)) &&& m, ?_, Nat.eq_of_testBit_eq fun i => ?_⟩
  · simp [Words.readBits?, hget, hm, Word.shiftRight?_mod]
  rw [Word.testBit_toNat, BitVec.getLsbD_and, BitVec.getLsbD_ushiftRight, hbits, Field.testBit_read]
  by_cases hi : i < width
  · have hd : (offset + i) / wordBits = offset / wordBits := by unfold wordBits at *; omega
    have hmod : (offset + i) % wordBits = offset % wordBits + i := by unfold wordBits at *; omega
    have hlt : i < wordBits := by omega
    rw [← h (offset + i), bit_of_getElem? hd hget, hmod]
    simp [hi, hlt]
  · simp [hi]

theorem bit_setIfInBounds (hk : offset < ws.size) (w : Word) : bit (ws.setIfInBounds offset w) k =
    if k / wordBits = offset then w.getLsbD (k % wordBits) else bit ws k := by
  unfold bit
  rw [Array.getD_eq_getD_getElem?, Array.getD_eq_getD_getElem?, Array.getElem?_setIfInBounds]
  by_cases h : offset = k / wordBits
  · rw [if_pos h, if_pos h.symm, if_pos hk, Option.getD_some]
  · rw [if_neg h, if_neg (Ne.symm h)]

theorem Spells.writeBits? (h : Spells ws a) (hk : offset / wordBits < ws.size)
    (hw : offset % wordBits + width ≤ wordBits) (v : Word) :
    ∃ vs, writeBits? ws offset width v = some vs ∧ vs.size = ws.size ∧
      Spells vs (Field.write a offset width v.toNat) := by
  obtain ⟨m, hm, hbits⟩ := Word.lowest?_spec width
  have hget := Array.getElem?_eq_getElem hk
  refine ⟨_, by simp only [Words.writeBits?, hget, hm, Word.shiftLeft?_mod]; rfl, by simp, fun k => ?_⟩
  rw [bit_setIfInBounds hk, Field.testBit_write]
  split_ifs with h1 h2 h2
  · have hsub : k % wordBits - offset % wordBits = k - offset := by unfold wordBits at *; omega
    have hle : ¬ k % wordBits < offset % wordBits := by unfold wordBits at *; omega
    have hlt : k % wordBits < 64 := Nat.mod_lt _ (by decide)
    have hin : k - offset < wordBits ∧ k - offset < width := by unfold wordBits at *; omega
    simp only [BitVec.getLsbD_or, BitVec.getLsbD_and, BitVec.getLsbD_not, BitVec.getLsbD_shiftLeft, hbits, hsub,
      Word.testBit_toNat]
    simp [hle, hlt, hin]
  · have hout : k % wordBits < offset % wordBits ∨ ¬ k % wordBits - offset % wordBits < width := by
      unfold wordBits at *
      omega
    have hlt : k % wordBits < 64 := Nat.mod_lt _ (by decide)
    rw [← h k, bit_of_getElem? h1 hget]
    simp only [BitVec.getLsbD_or, BitVec.getLsbD_and, BitVec.getLsbD_not, BitVec.getLsbD_shiftLeft, hbits]
    rcases hout with hout | hout <;> simp [hout, hlt]
  · unfold wordBits at *
    omega
  · exact h k

/-! ### Runs of words -/

theorem bit_extract (ws : Array Word) (first count k : Nat) : bit (ws.extract first (first + count)) k =
    (decide (k < count * wordBits) && bit ws (first * wordBits + k)) := by
  have hd : (first * wordBits + k) / wordBits = first + k / wordBits := by unfold wordBits; omega
  have hm : (first * wordBits + k) % wordBits = k % wordBits := by unfold wordBits; omega
  have hlt : decide (k < count * wordBits) = decide (k / wordBits < count) :=
    decide_eq_decide.2 (Nat.div_lt_iff_lt_mul (by decide)).symm
  unfold bit
  rw [Array.getD_eq_getD_getElem?, Array.getD_eq_getD_getElem?, Array.getElem?_extract, hd, hm, hlt]
  generalize k / wordBits = q
  by_cases hk : q < count
  · by_cases hs : first + q < ws.size
    · rw [if_pos (by omega)]
      simp [hk]
    · rw [if_neg (by omega), Array.getElem?_eq_none (by omega)]
      simp
  · rw [if_neg (by omega)]
    simp [hk]

theorem bit_mapIdx (ws : Array Word) (f : Nat → Word → Word) (hk : k / wordBits < ws.size) :
    bit (ws.mapIdx f) k = (f (k / wordBits) ws[k / wordBits]).getLsbD (k % wordBits) :=
  bit_of_getElem? rfl (by rw [Array.getElem?_mapIdx, Array.getElem?_eq_getElem hk, Option.map_some])

end Words

end DecisionDiagrams
