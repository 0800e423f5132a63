import DecisionDiagrams.Proofs.Sets.Elements
import DecisionDiagrams.Proofs.Spec.Joins

/-! Combined states which follow from the down and the up state of their node. If every combine function writes
its own property from what it declares to read, a combined property only has to be computed again after one of
its declared reads changed; the properties which are left as they are follow from the new states as well. -/

namespace DecisionDiagrams

/-! ### Models -/

namespace Model

variable {m : Model} {down up down' up' target old new r s t : State} {i j : Nat} {which : IndexSet}

/-- Computes one combined property of a node. -/
def combineProperty (m : Model) (down up target : State) (i : Nat) : Checked State :=
  match m.rule .combined i with
  | .combine _ run =>
    (run (m.view .down down) (m.view .up up) (m.view .combined target)).map (·.state)
  | _ => .ok target

theorem deriveInto_eq : m.deriveInto down up which target =
    which.toList.foldlM (m.combineProperty down up) target := rfl

/-- Whether a combined property is computed at all. -/
def Combines (m : Model) (i : Nat) : Prop := ∃ reads run, m.rule .combined i = .combine reads run

theorem combineProperty_of_not (h : ¬ m.Combines i) : m.combineProperty down up target i = .ok target := by
  unfold combineProperty
  split
  · rename_i reads run e
    exact absurd ⟨reads, run, e⟩ h
  · rfl

/-- Every combined property can be computed. What becomes of it depends on the properties which it reads, and
neither on what stood in its place nor on other combined properties. -/
structure Combining (m : Model) : Prop where
  total : ∀ down up target i, ∃ r, m.combineProperty down up target i = .ok r
  apart : ∀ {down up target i j r}, i ≠ j → m.combineProperty down up target j = .ok r →
    m.Alike .combined i target r
  determined : ∀ {down up down' up' target target' i r r'}, m.Combines i →
    (∀ j, i ∈ m.readers .down j .combined → m.Alike .down j down down') →
    (∀ j, i ∈ m.readers .up j .combined → m.Alike .up j up up') →
    m.combineProperty down up target i = .ok r → m.combineProperty down' up' target' i = .ok r' →
    m.Alike .combined i r r'

/-- The property of the combined state `s` is the one which follows from a down and an up state. -/
def Ensues (m : Model) (down up : State) (i : Nat) (s : State) : Prop :=
  ∃ r, m.combineProperty down up (m.fresh .combined) i = .ok r ∧ m.Alike .combined i r s

namespace Ensues

theorem of_alike (h : m.Ensues down up i s) (ha : m.Alike .combined i s t) : m.Ensues down up i t := by
  obtain ⟨r, hr, hs⟩ := h
  exact ⟨r, hr, hs.trans ha⟩

theorem unique (h : m.Ensues down up i s) (k : m.Ensues down up i t) : m.Alike .combined i s t := by
  obtain ⟨r, hr, hs⟩ := h
  obtain ⟨r', hr', ht⟩ := k
  obtain rfl := Except.ok.inj (hr.symm.trans hr')
  exact hs.symm.trans ht

/-- What is not computed keeps its fresh value, whatever the down and the up state are. -/
theorem of_not_combines (h : m.Ensues down up i s) (hi : ¬ m.Combines i) : m.Ensues down' up' i s := by
  obtain ⟨r, hr, hs⟩ := h
  rw [combineProperty_of_not hi] at hr
  exact ⟨r, (combineProperty_of_not hi).trans hr, hs⟩

end Ensues

namespace Combining

variable (hm : m.Combining)
include hm

theorem ensues_congr (h : m.Ensues down up i s)
    (hdown : ∀ j, i ∈ m.readers .down j .combined → m.Alike .down j down down')
    (hup : ∀ j, i ∈ m.readers .up j .combined → m.Alike .up j up up') : m.Ensues down' up' i s := by
  by_cases hi : m.Combines i
  · obtain ⟨r, hr, hs⟩ := h
    obtain ⟨r', hr'⟩ := hm.total down' up' (m.fresh .combined) i
    exact ⟨r', hr', (hm.determined hi hdown hup hr hr').symm.trans hs⟩
  · exact h.of_not_combines hi

theorem ensues_combineProperty (hi : m.Combines i) (h : m.combineProperty down up target i = .ok r) :
    m.Ensues down up i r := by
  obtain ⟨r', hr'⟩ := hm.total down up (m.fresh .combined) i
  exact ⟨r', hr', hm.determined hi (fun _ _ => .refl _ _ _ _) (fun _ _ => .refl _ _ _ _) hr' h⟩

/-- The listed properties are computed, and the others are as they were. -/
theorem of_foldlM : ∀ (which : List Nat) {target r : State},
    which.foldlM (m.combineProperty down up) target = .ok r →
    (i ∈ which → m.Combines i → m.Ensues down up i r) ∧
      (i ∉ which ∨ ¬ m.Combines i → m.Alike .combined i target r)
  | [], target, r, h => by
    obtain rfl := Except.ok.inj h
    exact ⟨nofun, fun _ => .refl _ _ _ _⟩
  | j :: which, target, r, h => by
    rw [List.foldlM_cons] at h
    obtain ⟨mid, hmid, h⟩ := Checked.bind_eq_ok.1 h
    obtain ⟨computed, kept⟩ := of_foldlM which h
    refine ⟨fun hi hc => ?_, fun hi => ?_⟩
    · by_cases hw : i ∈ which
      · exact computed hw hc
      · obtain rfl := (List.mem_cons.1 hi).resolve_right hw
        exact (hm.ensues_combineProperty hc hmid).of_alike (kept (Or.inl hw))
    · refine Model.Alike.trans ?_ (kept (hi.imp_left fun hi hw => hi (List.mem_cons_of_mem _ hw)))
      by_cases e : i = j
      · subst e
        have hc : ¬ m.Combines i := hi.resolve_left fun hi => hi List.mem_cons_self
        rw [combineProperty_of_not hc] at hmid
        obtain rfl := Except.ok.inj hmid
        exact .refl _ _ _ _
      · exact hm.apart e hmid

theorem of_deriveInto (h : m.deriveInto down up which target = .ok r) :
    (i ∈ which → m.Combines i → m.Ensues down up i r) ∧
      (i ∉ which ∨ ¬ m.Combines i → m.Alike .combined i target r) := by
  rw [deriveInto_eq] at h
  obtain ⟨computed, kept⟩ := hm.of_foldlM (i := i) which.toList h
  exact ⟨fun hi => computed (IndexSet.mem_toList.2 hi),
    fun hi => kept (hi.imp_left fun hi hw => hi (IndexSet.mem_toList.1 hw))⟩

theorem exists_deriveInto (down up : State) (which : IndexSet) (target : State) :
    ∃ r, m.deriveInto down up which target = .ok r := by
  rw [deriveInto_eq]
  exact Checked.exists_foldlM (fun target i => hm.total down up target i) which.toList target

theorem ensues_derive (h : m.derive down up = .ok r) (i : Nat) : m.Ensues down up i r := by
  obtain ⟨computed, kept⟩ := hm.of_deriveInto (i := i) h
  by_cases hc : m.Combines i
  · refine computed (IndexSet.mem_below.2 ?_) hc
    obtain ⟨reads, run, hrule⟩ := hc
    by_contra hi
    unfold rule at hrule
    rw [Array.getElem?_eq_none (Nat.not_lt.1 hi)] at hrule
    cases hrule
  · exact ⟨_, combineProperty_of_not hc, kept (Or.inr hc)⟩

/-- A combined state follows from a down and an up state if it reads like the one which is computed from them. -/
theorem exists_derive_iff : (∀ i, m.Ensues down up i s) ↔
    ∃ c, m.derive down up = .ok c ∧ ∀ i, m.Alike .combined i c s := by
  constructor
  · intro h
    obtain ⟨c, hc⟩ := hm.exists_deriveInto down up (m.everyProperty .combined) (m.fresh .combined)
    exact ⟨c, hc, fun i => (hm.ensues_derive hc i).unique (h i)⟩
  · rintro ⟨c, hc, ha⟩ i
    exact (hm.ensues_derive hc i).of_alike (ha i)

end Combining

/-! ### Computing again -/

theorem mem_combinedDependents {changedDown changedUp : IndexSet} :
    i ∈ m.combinedDependents changedDown changedUp ↔
      (∃ j ∈ changedDown, i ∈ m.readers .down j .combined) ∨
        ∃ j ∈ changedUp, i ∈ m.readers .up j .combined := by
  unfold combinedDependents
  dsimp only
  rw [IndexSet.mem_foldl_iff (P := fun j => i ∈ m.readers .up j .combined) fun acc j => IndexSet.mem_union,
    IndexSet.mem_foldl_iff (P := fun j => i ∈ m.readers .down j .combined) fun acc j => IndexSet.mem_union]
  simp only [IndexSet.not_mem_empty, false_or, IndexSet.mem_toList]

/-- A property which reads no changed property follows from the new states as it stands. -/
theorem Combining.ensues_of_not_mem (hm : m.Combining) {changedDown changedUp : IndexSet}
    (h : m.Ensues down up i old) (hdown : ∀ j, j ∉ changedDown → m.Alike .down j down down')
    (hup : ∀ j, j ∉ changedUp → m.Alike .up j up up')
    (hi : i ∉ m.combinedDependents changedDown changedUp) : m.Ensues down' up' i old :=
  hm.ensues_congr h
    (fun j hj => hdown j fun hc => hi (mem_combinedDependents.2 (Or.inl ⟨j, hc, hj⟩)))
    (fun j hj => hup j fun hc => hi (mem_combinedDependents.2 (Or.inr ⟨j, hc, hj⟩)))

/-- After the properties which read a changed property were computed again, the combined state follows from the
new down and up state. -/
theorem Combining.ensues_deriveInto (hm : m.Combining) {changedDown changedUp : IndexSet}
    (h : ∀ i, m.Ensues down up i old) (hdown : ∀ j, j ∉ changedDown → m.Alike .down j down down')
    (hup : ∀ j, j ∉ changedUp → m.Alike .up j up up')
    (hnew : m.deriveInto down' up' (m.combinedDependents changedDown changedUp) old = .ok new) (i : Nat) :
    m.Ensues down' up' i new := by
  obtain ⟨computed, kept⟩ := hm.of_deriveInto (i := i) hnew
  by_cases hi : i ∈ m.combinedDependents changedDown changedUp
  · by_cases hc : m.Combines i
    · exact computed hi hc
    · exact ((h i).of_not_combines hc).of_alike (kept (Or.inr hc))
  · exact (hm.ensues_of_not_mem (h i) hdown hup hi).of_alike (kept (Or.inl hi))

end Model

/-! ### Specifications -/

/-- The combine functions always write their own property, and no other one, from the down and up properties
which they declare to read. What stood in the combined state before makes no difference. -/
structure Spec.Combining (t : Spec) : Prop where
  writes : ∀ {i} {q : Property}, t.properties.combined[i]? = some q →
    ∀ {reads run}, q.rule = .combine reads run → ∀ (x : BySide State),
    ∃ w, run (t.toModel.view .down x.down) (t.toModel.view .up x.up) (t.toModel.view .combined x.combined) =
        .ok w ∧ ∀ j, j ≠ i → t.toModel.Alike .combined j x.combined w.state
  determined : ∀ {i} {q : Property}, t.properties.combined[i]? = some q →
    ∀ {reads run}, q.rule = .combine reads run → ∀ {x y : BySide State} {v w : View},
    (∀ r ∈ reads, t.toModel.Alike r.side r.index (x.get r.side) (y.get r.side)) →
    run (t.toModel.view .down x.down) (t.toModel.view .up x.up) (t.toModel.view .combined x.combined) = .ok v →
    run (t.toModel.view .down y.down) (t.toModel.view .up y.up) (t.toModel.view .combined y.combined) = .ok w →
    t.toModel.Alike .combined i v.state w.state

namespace Spec

variable {t : Spec} {i : Nat} {q : Property}

/-- What a combined property declares to read is a property of the down or the up state. -/
theorem reads_of_combined (hc : t.check = .ok ()) (hq : t.properties.combined[i]? = some q)
    {reads : List PropertyRef} {run : View → View → View → Checked View} (hrule : q.rule = .combine reads run)
    {r : PropertyRef} (hr : r ∈ reads) :
    r.side ≠ .combined ∧ i ∈ t.toModel.readers r.side r.index .combined := by
  have hmem : q ∈ (t.properties.get .combined).toList := Array.mem_toList_iff.2 (Array.mem_of_getElem? hq)
  have hread := (check_eq_ok hc).2 .combined q hmem
  have hown : r ∈ q.rule.reads := by
    rw [hrule]
    exact hr
  unfold checkProperty at hread
  dsimp only at hread
  split_ifs at hread with _ _ hreads
  have may := List.all_eq_true.1 (by simpa using hreads) r hown
  rw [hrule] at may
  unfold mayRead at may
  simp only [Bool.and_eq_true, bne_iff_ne, ne_eq, decide_eq_true_eq] at may
  exact ⟨may.1, mem_readers.2 ⟨may.2, mem_readersOf.2 ⟨q, hq, Or.inr hown⟩⟩⟩

theorem exists_combine (hi : t.toModel.Combines i) : ∃ q reads run,
    t.properties.combined[i]? = some q ∧ q.rule = .combine reads run ∧
      ∀ down up target, t.toModel.combineProperty down up target i =
        (run (t.toModel.view .down down) (t.toModel.view .up up) (t.toModel.view .combined target)).map
          (·.state) := by
  obtain ⟨reads, run, hrule⟩ := hi
  have compute : ∀ down up target, t.toModel.combineProperty down up target i =
      (run (t.toModel.view .down down) (t.toModel.view .up up) (t.toModel.view .combined target)).map
        (·.state) := fun down up target => by
    unfold Model.combineProperty
    rw [hrule]
  rw [rule_toModel] at hrule
  cases hq : (t.properties.get .combined)[i]? with
  | none => rw [hq] at hrule; cases hrule
  | some q =>
    rw [hq] at hrule
    exact ⟨q, reads, run, hq, hrule, compute⟩

/-- It is enough that every combined property is an integer which is set to a number made of what it reads. -/
theorem Combining.of_integers (hc : t.check = .ok ()) (h : ∀ {i : Nat} {q : Property},
    t.properties.combined[i]? = some q → ∃ reads, ∃ g : View → View → Int, ∃ a lo hi, q.kind = .integer a lo hi ∧
      (q.rule = .combine reads fun down up out => .ok (out.setInteger i (g down up))) ∧
      ∀ {x y : BySide State}, (∀ r ∈ reads, t.toModel.Alike r.side r.index (x.get r.side) (y.get r.side)) →
        g (t.toModel.view .down x.down) (t.toModel.view .up x.up) =
          g (t.toModel.view .down y.down) (t.toModel.view .up y.up)) : t.Combining where
  writes hq reads run hrule x := by
    obtain ⟨_, g, a, lo, hi, -, hset, -⟩ := h hq
    obtain ⟨-, rfl⟩ := Rule.combine.inj (hset.symm.trans hrule)
    have hl := sound_layout hc .combined
    refine ⟨_, rfl, fun j hj slot hs => ?_⟩
    exact (View.writes_setInteger (v := t.toModel.view .combined x.combined) hl _ _).agree hl hj hs
  determined hq reads run hrule x y v w same hv hw := by
    obtain ⟨_, g, a, lo, hi, kind, hset, congr⟩ := h hq
    obtain ⟨rfl, rfl⟩ := Rule.combine.inj (hset.symm.trans hrule)
    obtain rfl := Except.ok.inj hv
    obtain rfl := Except.ok.inj hw
    intro slot hslot
    obtain ⟨q', hq', hk⟩ := property_of_slot hslot
    obtain rfl := Option.some.inj (hq.symm.trans hq')
    have hl := sound_layout hc .combined
    rw [congr same]
    exact View.agree_setInteger (v := t.toModel.view .combined x.combined)
      (w := t.toModel.view .combined y.combined) hl hl hslot hslot (hk.trans kind) _

/-- The model of a specification whose combine functions keep to what they declare. -/
theorem Combining.model (h : t.Combining) (hc : t.check = .ok ()) : t.toModel.Combining where
  total down up target i := by
    by_cases hi : t.toModel.Combines i
    · obtain ⟨q, reads, run, hq, hrule, compute⟩ := exists_combine hi
      obtain ⟨w, hw, -⟩ := h.writes hq hrule ⟨down, up, target⟩
      exact ⟨w.state, by rw [compute, hw]; rfl⟩
    · exact ⟨target, Model.combineProperty_of_not hi⟩
  apart := by
    intro down up target i j r hne hr
    by_cases hj : t.toModel.Combines j
    · obtain ⟨q, reads, run, hq, hrule, compute⟩ := exists_combine hj
      obtain ⟨w, hw, others⟩ := h.writes hq hrule ⟨down, up, target⟩
      rw [compute, hw] at hr
      obtain rfl := Except.ok.inj hr
      exact others i hne
    · rw [Model.combineProperty_of_not hj] at hr
      obtain rfl := Except.ok.inj hr
      exact .refl _ _ _ _
  determined := by
    intro down up down' up' target target' i r r' hi hdown hup hr hr'
    obtain ⟨q, reads, run, hq, hrule, compute⟩ := exists_combine hi
    obtain ⟨v, hv, -⟩ := h.writes hq hrule ⟨down, up, target⟩
    obtain ⟨w, hw, -⟩ := h.writes hq hrule ⟨down', up', target'⟩
    rw [compute, hv] at hr
    rw [compute, hw] at hr'
    obtain rfl := Except.ok.inj hr
    obtain rfl := Except.ok.inj hr'
    refine h.determined hq hrule (x := ⟨down, up, target⟩) (y := ⟨down', up', target'⟩) (fun r hr => ?_) hv hw
    obtain ⟨side, j⟩ := r
    obtain ⟨hside, hj⟩ := reads_of_combined hc hq hrule hr
    cases side with
    | down => exact hdown j hj
    | up => exact hup j hj
    | combined => exact absurd rfl hside

end Spec
end DecisionDiagrams
