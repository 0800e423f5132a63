import DecisionDiagrams.Proofs.Engine.Founding
import DecisionDiagrams.Proofs.Spec.Joins

/-! What a state is in one property after it was computed from neighbours. Properties which are not on demand
stay as they were; the others are the least values above what the labels make of the neighbours, whether
the labels are taken one by one or in bundles. -/

namespace DecisionDiagrams

open Work

/-- A change which leaves a property alone changes nothing which it depends on. -/
theorem Model.alike_of_unaffected {m : Model} {d : Direction} {l i j : Nat} {s s' : State}
    (h : m.Unaffected d l s s' (some i)) (hj : m.Looks d l i j) : m.Alike d.side j s s' := by
  by_contra hne
  exact h (mem_dependents_iff.2 (Or.inl ⟨j, mem_difference.2 hne, hj⟩))

/-- A transition over several labels gives a property the least value above what the labels make of it,
whether it is computed or taken over. -/
theorem Model.Sums.below_step {m : Model} {d : Direction} {B : Nat → IntSet → Prop} {l i : Nat}
    (hi : m.Sums d B i) (hs : m.Separate d) (hm : m.Lattice d.side) {s r X : State} {combined : Option State}
    {values : IntSet} (hl : l < m.depth) (hne : ∃ v, v ∈ values) (hB : B l values)
    (h : m.step d l s combined values = .ok r) :
    m.Below d.side i r X ↔ ∀ v ∈ values, ∀ t, m.Yields d l s v i t → m.Below d.side i t X := by
  obtain ⟨h1, h2⟩ := (hs.apart i).of_step h
  by_cases ha : i ∈ m.active d l
  · obtain ⟨target, t, ht, hts⟩ := h1 ha
    exact (hm.below_congr hts.symm).trans (hi.grouped hl hne hB ht)
  · obtain ⟨t, ht, hts⟩ := hi.idle ha none values r
    exact (hm.below_congr ((h2 ha).symm.trans hts)).trans (hi.grouped hl hne hB ht)

/-- Either property `i` is computed on demand, or there is no such property. -/
theorem Workspace.demanded_of_covers {p : Plan} {d : Direction} {r : Demand} {i : Nat}
    (h : r.Covers (some i)) :
    i ∈ Workspace.demanded p d r ∨ (p.model.properties.get d.side).size ≤ i := by
  cases r with
  | full =>
    rcases Nat.lt_or_ge i (p.model.properties.get d.side).size with hi | hi
    · exact Or.inl (IndexSet.mem_below.2 hi)
    · exact Or.inr hi
  | only which => exact Or.inl h

namespace Workspace

variable {p : Plan} {w : Workspace} {d : Direction} {B : Nat → IntSet → Prop} {l i : Nat}
  {old new s X : State} {r : Demand} {b : Bundle} {bs : List Bundle}

theorem alike_reached (hm : p.model.Separate d) (h : w.reached p d l old r b = .ok s)
    (hi : ¬ r.Covers (some i)) : p.model.Alike d.side i old s := by
  cases r with
  | full => exact absurd trivial hi
  | only which =>
    change partialFrom p d l old which w b = .ok s at h
    unfold partialFrom at h
    obtain ⟨reached, hreached, h⟩ := Checked.bind_eq_ok.1 h
    obtain rfl := Except.ok.inj h
    exact (((hm.apart _).of_stepInto hreached).2 hi).trans (.of_bits rfl)

/-- What is not on demand stays. -/
theorem alike_arrived (hs : p.model.Separate d) (hm : p.model.Lattice d.side) (hne : bs ≠ [])
    (h : w.arrived p d l bs old r = .ok new) (hi : ¬ r.Covers (some i)) : p.model.Alike d.side i old new := by
  unfold arrived at h
  obtain ⟨states, hstates, h⟩ := Checked.bind_eq_ok.1 h
  have hall := Checked.forall₂_of_mapM hstates
  have stays : ∀ s ∈ states, p.model.Alike d.side i s old := fun s hmem => by
    obtain ⟨b, -, hb⟩ := List.exists_of_forall₂_right hall hmem
    exact (alike_reached hs hb hi).symm
  cases hall with
  | nil => exact absurd rfl hne
  | cons =>
    obtain ⟨out, hout, h⟩ := Checked.bind_eq_ok.1 h
    obtain rfl := Except.ok.inj h
    have same := hm.alike_mergeInto (stays _ List.mem_cons_self)
      (fun s hs => stays s (List.mem_cons_of_mem _ hs)) hout
    exact same.symm.trans (.of_bits rfl)

section

variable (sums : p.model.Sums d B i) (hs : p.model.Separate d) (hm : p.model.Lattice d.side)
include sums hs hm

/-- Along one bundle. -/
theorem below_reached (hl : l < p.model.depth) (hne : ∃ v, v ∈ b.2) (hB : B l b.2)
    (h : w.reached p d l old r b = .ok s) (hi : r.Covers (some i)) :
    p.model.Below d.side i s X ↔ ∀ v ∈ b.2, ∀ t,
      p.model.Yields d l (w.graph.state b.1 d.side) v i t → p.model.Below d.side i t X := by
  cases r with
  | full => exact sums.below_step hs hm hl hne hB h
  | only which =>
    change partialFrom p d l old which w b = .ok s at h
    unfold partialFrom at h
    obtain ⟨reached, hreached, h⟩ := Checked.bind_eq_ok.1 h
    obtain rfl := Except.ok.inj h
    obtain ⟨target, t, ht, hts⟩ := ((hs.apart _).of_stepInto hreached).1 hi
    exact (hm.below_congr (hts.trans (.of_bits rfl)).symm).trans (sums.grouped hl hne hB ht)

/-- What is on demand becomes the least value above what the labels make of the neighbours. -/
theorem below_arrived (hl : l < p.model.depth) (hne : bs ≠ []) (hfill : ∀ b ∈ bs, ∃ v, v ∈ b.2)
    (hB : ∀ b ∈ bs, B l b.2) (h : w.arrived p d l bs old r = .ok new) (hi : r.Covers (some i)) :
    p.model.Below d.side i new X ↔ ∀ b ∈ bs, ∀ v ∈ b.2, ∀ t,
      p.model.Yields d l (w.graph.state b.1 d.side) v i t → p.model.Below d.side i t X := by
  unfold arrived at h
  obtain ⟨states, hstates, h⟩ := Checked.bind_eq_ok.1 h
  have hall := Checked.forall₂_of_mapM hstates
  have each : ∀ {b s}, b ∈ bs → w.reached p d l old r b = .ok s → (p.model.Below d.side i s X ↔
      ∀ v ∈ b.2, ∀ t, p.model.Yields d l (w.graph.state b.1 d.side) v i t →
        p.model.Below d.side i t X) := fun hb hs' =>
    below_reached sums hs hm hl (hfill _ hb) (hB _ hb) hs' hi
  have merged : p.model.Below d.side i new X ↔ ∀ s ∈ states, p.model.Below d.side i s X := by
    cases hall with
    | nil => exact absurd rfl hne
    | cons =>
      obtain ⟨out, hout, h⟩ := Checked.bind_eq_ok.1 h
      obtain rfl := Except.ok.inj h
      refine (hm.below_congr (t := out.1) (.of_bits rfl)).trans ?_
      rw [hm.least_mergeInto hout, List.forall_mem_cons]
      refine and_congr_right fun _ => ⟨fun hrest => ?_, fun hrest _ => hrest⟩
      rcases demanded_of_covers (p := p) (d := d) hi with hd | hd
      · exact hrest hd
      · exact fun s _ => hm.below (hm.absent hd)
  rw [merged]
  constructor
  · intro hX b hb
    obtain ⟨s, hs, hbs⟩ := List.exists_of_forall₂_left hall hb
    exact (each hb hbs).1 (hX s hs)
  · intro hX s hs
    obtain ⟨b, hb, hbs⟩ := List.exists_of_forall₂_right hall hs
    exact (each hb hbs).2 (hX b hb)

end

end Workspace

end DecisionDiagrams
