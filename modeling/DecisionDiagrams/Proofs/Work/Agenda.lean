import DecisionDiagrams.Diagram.Agenda
import DecisionDiagrams.Proofs.Graph.Operations

/-! What waits on an agenda after a note or after a layer was emptied, and what is known of the layers
from the one which is nearest to the root or to the sink. -/

namespace DecisionDiagrams.Agenda

theorem mem_note {n : NodeId} {r : Demand} {e : NodeId × Demand} : ∀ {l : Waiting},
    e ∈ l.note n r → e ∈ l ∨ e.1 = n
  | [], h => Or.inr (congrArg Prod.fst (List.mem_singleton.1 h))
  | (m, q) :: rest, h => by
    unfold Waiting.note at h
    split_ifs at h with hm
    · rcases List.mem_cons.1 h with rfl | h
      · exact Or.inr hm
      · exact Or.inl (List.mem_cons_of_mem _ h)
    · rcases List.mem_cons.1 h with rfl | h
      · exact Or.inl List.mem_cons_self
      · exact (mem_note h).imp_left (List.mem_cons_of_mem _)

theorem get_modify (a : Agenda) (d e : Direction) (f : Array Waiting → Array Waiting) :
    (a.modify d f).get e = if e = d then f (a.get e) else a.get e := by
  cases d <;> cases e <;> rfl

theorem waiting_modify (a : Agenda) (d e : Direction) (l k : Nat) {f : Waiting → Waiting} :
    (a.modify d (·.modify l f)).waiting e k =
      if e = d ∧ k = l ∧ l < (a.get d).size then f (a.waiting e k) else a.waiting e k := by
  unfold waiting
  rw [get_modify]
  by_cases he : e = d
  · subst he
    rw [if_pos rfl]
    by_cases hl : l < (a.get e).size
    · have := getD_modify (a.get e) f l k (Or.inl hl)
      rw [show (default : Waiting) = [] from rfl] at this
      rw [this]
      by_cases hk : k = l <;> simp [hk, hl]
    · have hid : (a.get e).modify l f = a.get e := by
        refine Array.ext Array.size_modify fun i h1 h2 => ?_
        rw [Array.getElem_modify, if_neg fun e : l = i => hl (e ▸ h2)]
      rw [hid, if_neg fun h => hl h.2.2]
  · rw [if_neg he, if_neg fun h => he h.1]

/-- Notes for another direction or layer are not seen. -/
theorem waiting_note (a : Agenda) {d e : Direction} {n : NodeId} {l k : Nat} {r : Demand}
    (h : r.isEmpty = true ∨ ¬ (e = d ∧ k = l)) : (a.note d n l r).waiting e k = a.waiting e k := by
  unfold note
  split_ifs with hr
  · rfl
  · rw [waiting_modify, if_neg fun hk => (h.resolve_left hr) ⟨hk.1, hk.2.1⟩]

theorem mem_waiting_note {a : Agenda} {d e : Direction} {n : NodeId} {l k : Nat} {r : Demand}
    {x : NodeId × Demand} (h : x ∈ (a.note d n l r).waiting e k) :
    x ∈ a.waiting e k ∨ x.1 = n ∧ e = d ∧ k = l := by
  unfold note at h
  split_ifs at h with hr
  · exact Or.inl h
  · rw [waiting_modify] at h
    split_ifs at h with hk
    · exact (mem_note h).imp_right fun hn => ⟨hn, hk.1, hk.2.1⟩
    · exact Or.inl h

theorem waiting_clearLayer_self (a : Agenda) (d : Direction) (l : Nat) :
    (a.clearLayer d l).waiting d l = [] := by
  unfold clearLayer
  rw [waiting_modify]
  split_ifs with h
  · rfl
  · have : ¬ l < (a.get d).size := fun hl => h ⟨rfl, rfl, hl⟩
    unfold waiting
    exact Array.getD_eq_getD_getElem?.trans (by rw [Array.getElem?_eq_none (Nat.not_lt.1 this)]; rfl)

theorem waiting_clearLayer_of_ne (a : Agenda) {d e : Direction} {l k : Nat} (h : ¬ (e = d ∧ k = l)) :
    (a.clearLayer d l).waiting e k = a.waiting e k := by
  unfold clearLayer
  rw [waiting_modify, if_neg fun hk => h ⟨hk.1, hk.2.1⟩]

theorem waiting_empty (layers : Nat) (d : Direction) (l : Nat) :
    (Agenda.empty layers).waiting d l = [] := by
  unfold waiting
  cases d <;> by_cases h : l < layers <;> simp [empty, get, h]

theorem waiting_eq_nil_of_size_le {a : Agenda} {d : Direction} {l : Nat} (h : (a.get d).size ≤ l) :
    a.waiting d l = [] := by
  unfold waiting
  exact Array.getD_eq_getD_getElem?.trans (by rw [Array.getElem?_eq_none h]; rfl)

theorem isPending_iff {a : Agenda} {d : Direction} {l : Nat} :
    a.isPending d l = true ↔ a.waiting d l ≠ [] := by
  unfold isPending
  cases a.waiting d l <;> simp

theorem lt_of_waiting {a : Agenda} {d : Direction} {l : Nat} (h : a.waiting d l ≠ []) :
    l < (a.get d).size := Nat.lt_of_not_le fun hl => h (waiting_eq_nil_of_size_le hl)

theorem waiting_of_deepest_eq_none {a : Agenda} {d : Direction} (h : a.deepest d = none) (l : Nat) :
    a.waiting d l = [] := by
  by_contra hw
  unfold deepest at h
  have := List.find?_eq_none.1 h l (by simpa using lt_of_waiting hw)
  exact this (isPending_iff.2 hw)

theorem waiting_of_deepest_eq_some {a : Agenda} {d : Direction} {l : Nat} (h : a.deepest d = some l) :
    a.waiting d l ≠ [] := isPending_iff.1 (List.find?_some h)

theorem le_of_deepest_eq_some {a : Agenda} {d : Direction} {l k : Nat} (h : a.deepest d = some l)
    (hk : a.waiting d k ≠ []) : k ≤ l := by
  unfold deepest at h
  have hlt := lt_of_waiting hk
  generalize (a.get d).size = n at h hlt
  induction n with
  | zero => cases hlt
  | succ n ih =>
    rw [List.range_succ, List.reverse_append, List.reverse_singleton, List.singleton_append,
      List.find?_cons] at h
    split at h
    · obtain rfl := Option.some.inj h
      omega
    · rename_i hn
      refine ih h ?_
      rcases Nat.lt_or_eq_of_le (Nat.le_of_lt_succ hlt) with hlt | rfl
      · exact hlt
      · exact absurd (isPending_iff.2 hk) (by rw [hn]; simp)

theorem waiting_of_shallowest_eq_none {a : Agenda} {d : Direction} (h : a.shallowest d = none)
    (l : Nat) : a.waiting d l = [] := by
  by_contra hw
  unfold shallowest at h
  have := List.find?_eq_none.1 h l (by simpa using lt_of_waiting hw)
  exact this (isPending_iff.2 hw)

theorem waiting_of_shallowest_eq_some {a : Agenda} {d : Direction} {l : Nat}
    (h : a.shallowest d = some l) : a.waiting d l ≠ [] := isPending_iff.1 (List.find?_some h)

theorem le_of_shallowest_eq_some {a : Agenda} {d : Direction} {l k : Nat}
    (h : a.shallowest d = some l) (hk : a.waiting d k ≠ []) : l ≤ k := by
  unfold shallowest at h
  rw [List.find?_range_eq_some] at h
  by_contra hlt
  have := h.2.2 k (by omega)
  rw [isPending_iff.2 hk] at this
  cases this

theorem isEmpty_iff {a : Agenda} : a.isEmpty = true ↔ ∀ d l, a.waiting d l = [] := by
  have all : ∀ {d : Direction}, (a.get d).all (·.isEmpty) = true ↔ ∀ l, a.waiting d l = [] := by
    intro d
    rw [Array.all_eq_true]
    refine ⟨fun h l => ?_, fun h l hl => ?_⟩
    · by_contra hw
      have hlt := lt_of_waiting hw
      refine hw ?_
      have := h l hlt
      unfold waiting
      rwa [Array.getD, dif_pos hlt, ← List.isEmpty_iff]
    · have := h l
      unfold waiting at this
      rw [Array.getD, dif_pos hl] at this
      rw [List.isEmpty_iff]
      exact this
  unfold isEmpty
  rw [Bool.and_eq_true]
  refine ⟨fun h d => ?_, fun h => ⟨all.2 (h .down), all.2 (h .up)⟩⟩
  cases d
  · exact all.1 h.1
  · exact all.1 h.2

end DecisionDiagrams.Agenda

/-! ### What is covered -/

namespace DecisionDiagrams

namespace Demand

/-- Whether a property, or the flag, is looked at again on demand. -/
def Covers : Demand → Option Nat → Prop
  | .full, _ => True
  | .only which, some i => i ∈ which
  | .only _, none => True

variable {q r : Demand} {o : Option Nat}

theorem Covers.join_left (h : q.Covers o) : (q.join r).Covers o := by
  cases q <;> cases r <;> cases o <;> simp only [join, Covers] at h ⊢
  exact IndexSet.mem_union.2 (Or.inl h)

theorem Covers.join_right (h : r.Covers o) : (q.join r).Covers o := by
  cases q <;> cases r <;> cases o <;> simp only [join, Covers] at h ⊢
  exact IndexSet.mem_union.2 (Or.inr h)

end Demand

namespace Waiting

/-- Some entry of a node covers a property. -/
def Covers (l : Waiting) (n : NodeId) (o : Option Nat) : Prop := ∃ r, (n, r) ∈ l ∧ r.Covers o

variable {n : NodeId} {r : Demand} {o : Option Nat}

theorem covers_note_self (hr : r.Covers o) : ∀ l : Waiting, (l.note n r).Covers n o
  | [] => ⟨r, List.mem_cons_self, hr⟩
  | (m, q) :: rest => by
    unfold note
    split_ifs with hm
    · exact ⟨q.join r, hm ▸ List.mem_cons_self, hr.join_right⟩
    · obtain ⟨q', hq, h⟩ := covers_note_self hr rest
      exact ⟨q', List.mem_cons_of_mem _ hq, h⟩

theorem Covers.note {m : NodeId} : ∀ {l : Waiting}, l.Covers m o → (l.note n r).Covers m o
  | [], ⟨_, hq, _⟩ => by cases hq
  | (k, q) :: rest, ⟨q', hq, h⟩ => by
    unfold Waiting.note
    split_ifs with hk
    · rcases List.mem_cons.1 hq with e | hq
      · obtain ⟨rfl, rfl⟩ := Prod.mk.inj e
        exact ⟨_, List.mem_cons_self, h.join_left⟩
      · exact ⟨q', List.mem_cons_of_mem _ hq, h⟩
    · rcases List.mem_cons.1 hq with e | hq
      · exact ⟨q', e ▸ List.mem_cons_self, h⟩
      · obtain ⟨q'', hq'', h''⟩ := Covers.note (l := rest) ⟨q', hq, h⟩
        exact ⟨q'', List.mem_cons_of_mem _ hq'', h''⟩

end Waiting

namespace Agenda

/-- Whatever is covered by `a` is covered by `b`. -/
structure Extends (a b : Agenda) : Prop where
  size : ∀ d, (b.get d).size = (a.get d).size
  covers : ∀ {d l n o}, (a.waiting d l).Covers n o → (b.waiting d l).Covers n o

theorem Extends.refl (a : Agenda) : Extends a a := ⟨fun _ => rfl, id⟩

theorem Extends.trans {a b c : Agenda} (h : Extends a b) (k : Extends b c) : Extends a c :=
  ⟨fun d => (k.size d).trans (h.size d), fun hc => k.covers (h.covers hc)⟩

theorem size_modify (a : Agenda) (d e : Direction) (l : Nat) (f : Waiting → Waiting) :
    ((a.modify d (·.modify l f)).get e).size = (a.get e).size := by
  rw [get_modify]
  split_ifs
  · exact Array.size_modify
  · rfl

theorem extends_note (a : Agenda) (d : Direction) (n : NodeId) (l : Nat) (r : Demand) :
    a.Extends (a.note d n l r) := by
  unfold note
  split_ifs
  · exact .refl a
  · refine ⟨fun e => size_modify a d e l _, fun {e k m o} h => ?_⟩
    rw [waiting_modify]
    split_ifs
    · exact h.note
    · exact h

theorem covers_note_self {a : Agenda} {d : Direction} {n : NodeId} {l : Nat} {r : Demand}
    {o : Option Nat} (hl : l < (a.get d).size) (hr : r.isEmpty = false) (ho : r.Covers o) :
    ((a.note d n l r).waiting d l).Covers n o := by
  unfold note
  rw [if_neg (by rw [hr]; simp), waiting_modify, if_pos ⟨rfl, rfl, hl⟩]
  exact Waiting.covers_note_self ho _

end Agenda
end DecisionDiagrams
