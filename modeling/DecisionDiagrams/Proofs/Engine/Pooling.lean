import DecisionDiagrams.Proofs.Engine.Drafts
import DecisionDiagrams.Proofs.Engine.Unfailing
import DecisionDiagrams.Proofs.Spec.Merging
import Mathlib.Tactic.IntervalCases

/-! What becomes of the drafts of a layer which has too many. Those with the most arcs are kept, and each of the
others is merged into a kept one, which may already have changed by then. So the drafts fall into groups, one for
each which is kept. Wherever distances send a draft, its arcs are with those of its group afterwards, and every
property with a built-in merge has the merged value of the group. -/

namespace DecisionDiagrams

/-! ### Merging one state into another -/

namespace Model

variable {m : Model} {side : Side} {i : Nat} {relax : Relaxation} {s o : State}

/-- The property is merged by the given built-in relaxation. -/
def MergesBy (m : Model) (side : Side) (i : Nat) (relax : Relaxation) : Prop :=
  m.relaxation? side i = some relax ∧ ∀ f, relax ≠ .custom f

/-- Property `i` has a value of its range. -/
def Fits (m : Model) (side : Side) (i : Nat) (s : State) : Prop :=
  ∀ slot, (m.layout side).slot? i = some slot → slot.InRange s.bits

theorem Fits.congr (h : m.Fits side i s) (ha : m.Alike side i s o) : m.Fits side i o :=
  fun slot hs => (h slot hs).congr (ha slot hs)

end Model

namespace Spec

variable {t : Spec} {side : Side} {i j : Nat} {js : List Nat} {s o r : State} {relax : Relaxation}

/-- A merge of one's own gives a result, and it is responsible for exactly one property. -/
def Responsible (t : Spec) (side : Side) : Prop := ∀ i q, (t.properties.get side)[i]? = some q →
  ∀ merge, q.relaxation = .custom merge → ∀ s o : State,
    ∃ u, merge (t.toModel.view side s) (t.toModel.view side o) = .ok u ∧ (t.toModel.view side s).Writes i u

/-- A similarity of one's own gives a distance, which may be infinite or no number. -/
def Comparable (t : Spec) (side : Side) : Prop := ∀ (i : Nat) (q : Property),
  (t.properties.get side)[i]? = some q → ∀ f, q.similarity = some f → ∀ s o : State,
    ∃ d, f (t.toModel.view side s) (t.toModel.view side o) = .ok d

theorem Responsible.exists_mergeProperty (h : t.Responsible side) (o s : State) (i : Nat) :
    ∃ r, t.toModel.mergeProperty side o s i = .ok r := by
  unfold Model.mergeProperty
  split
  · exact ⟨_, rfl⟩
  · exact ⟨_, rfl⟩
  · exact ⟨_, rfl⟩
  · exact ⟨_, rfl⟩
  · rename_i merge e
    cases hq : (t.properties.get side)[i]? with
    | none =>
      rw [relaxation_eq_none hq] at e
      cases e
    | some q =>
      rw [relaxation_toModel hq] at e
      obtain ⟨u, hu, -⟩ := h i q hq merge (Option.some.inj e) s o
      exact ⟨u.state, by rw [hu]; rfl⟩
  · exact ⟨_, rfl⟩

theorem Comparable.exists_distance (h : t.Comparable side) (s o : State) :
    ∃ d, t.toModel.distance side s o = .ok d := by
  unfold Model.distance
  apply Checked.exists_foldlM
  intro acc i
  split
  · rename_i q slot hq hs
    cases hf : q.similarity with
    | some f =>
      obtain ⟨d, hd⟩ := h i q hq f hf s o
      exact ⟨acc + d, by dsimp only; rw [hd]; rfl⟩
    | none => exact ⟨_, rfl⟩
  · exact ⟨_, rfl⟩

variable (hc : t.check = .ok ()) (ho : t.Responsible side)
include hc ho

/-- Merging one property leaves the others alone, whoever merges it. -/
theorem Responsible.alike (hne : i ≠ j) (hr : t.toModel.mergeProperty side o s j = .ok r) :
    t.toModel.Alike side i s r := by
  by_cases hcustom : ∃ q merge, (t.properties.get side)[j]? = some q ∧ q.relaxation = .custom merge
  · obtain ⟨q, merge, hq, e⟩ := hcustom
    obtain ⟨u, hu, hw⟩ := ho j q hq merge e s o
    unfold Model.mergeProperty at hr
    rw [relaxation_toModel hq, e] at hr
    simp only [hu] at hr
    obtain rfl := Except.ok.inj hr
    exact fun slot hs => hw.agree (sound_layout hc side) hne hs
  · exact alike_merged hc (fun hq merge e => hcustom ⟨_, merge, hq, e⟩) hne hr

theorem Responsible.alike_foldlM (hi : i ∉ js) (hr : js.foldlM (t.toModel.mergeProperty side o) s = .ok r) :
    t.toModel.Alike side i s r := by
  induction js generalizing s with
  | nil =>
    obtain rfl := Except.ok.inj hr
    exact .refl _ _ _ _
  | cons j js ih =>
    rw [List.foldlM_cons] at hr
    obtain ⟨mid, hmid, hr⟩ := Checked.bind_eq_ok.1 hr
    rw [List.mem_cons, not_or] at hi
    exact (ho.alike hc hi.1 hmid).trans (ih hi.2 hr)

omit ho in
theorem merged_property (hb : t.toModel.MergesBy side i relax) (hs : t.toModel.Fits side i s)
    (hother : t.toModel.Fits side i o) (hr : t.toModel.mergeProperty side o s i = .ok r) :
    (t.toModel.view side r).value i =
        relax.join ((t.toModel.view side s).value i) ((t.toModel.view side o).value i) ∧
      t.toModel.Fits side i r := by
  obtain ⟨hrelax, hbuilt⟩ := hb
  obtain ⟨slot, hslot⟩ := slot_of_relaxation hrelax
  obtain ⟨q, hq, hk⟩ := property_of_slot hslot
  have hv := (sound_layout hc side).valid i slot hslot
  have hfit : relax.supports slot.kind = true := by
    rw [hk, ← Option.some.inj ((relaxation_toModel hq).symm.trans hrelax)]
    exact supports_of_check hc (Array.mem_toList_iff.2 (Array.mem_of_getElem? hq))
  have e : r = { s with bits := slot.merge relax s.bits o.bits } := by
    rw [Model.mergeProperty_eq hrelax hbuilt hslot] at hr
    exact (Except.ok.inj hr).symm
  have stored : ∀ x, (t.toModel.view side x).value i = slot.value x.bits := fun x =>
    View.value_eq (v := t.toModel.view side x) hslot
  constructor
  · rw [stored, stored, stored, e]
    exact Slot.value_merge hv hfit hbuilt (hs slot hslot) (hother slot hslot)
  · intro slot' hslot'
    obtain rfl := Option.some.inj (hslot.symm.trans hslot')
    rw [e]
    exact Slot.inRange_merge hv hfit (hs slot hslot) (hother slot hslot)

/-- A property with a built-in relaxation has the merged value, whatever the merges of the other properties do. -/
theorem Responsible.merged_foldlM (hb : t.toModel.MergesBy side i relax) (hi : i ∈ js) (hnd : js.Nodup)
    (hs : t.toModel.Fits side i s) (hother : t.toModel.Fits side i o)
    (hr : js.foldlM (t.toModel.mergeProperty side o) s = .ok r) :
    (t.toModel.view side r).value i =
        relax.join ((t.toModel.view side s).value i) ((t.toModel.view side o).value i) ∧
      t.toModel.Fits side i r := by
  induction js generalizing s with
  | nil => cases hi
  | cons j js ih =>
    rw [List.foldlM_cons] at hr
    obtain ⟨mid, hmid, hrest⟩ := Checked.bind_eq_ok.1 hr
    obtain ⟨hj, hnd⟩ := List.nodup_cons.1 hnd
    by_cases hij : i = j
    · subst hij
      obtain ⟨hval, hin⟩ := merged_property hc hb hs hother hmid
      have ha := ho.alike_foldlM hc hj hrest
      exact ⟨(Model.value_alike ha).symm.trans hval, hin.congr ha⟩
    · have ha := ho.alike hc hij hmid
      rw [Model.value_alike ha]
      exact ih ((List.mem_cons.1 hi).resolve_left hij) hnd (hs.congr ha) hrest

theorem Responsible.merged_all (hb : t.toModel.MergesBy side i relax) (hs : t.toModel.Fits side i s)
    (hother : t.toModel.Fits side i o)
    (hr : t.toModel.mergeListed side (t.toModel.everyProperty side) s o = .ok r) :
    (t.toModel.view side r).value i =
        relax.join ((t.toModel.view side s).value i) ((t.toModel.view side o).value i) ∧
      t.toModel.Fits side i r := by
  refine ho.merged_foldlM hc hb ?_ ((IndexSet.pairwise_toList _).imp Nat.ne_of_lt) hs hother hr
  rw [IndexSet.mem_toList]
  refine IndexSet.mem_below.2 (Nat.lt_of_not_le fun hle => ?_)
  have hnone : t.toModel.relaxation? side i = none := relaxation_eq_none (Array.getElem?_eq_none hle)
  cases hnone.symm.trans hb.1

end Spec

/-! ### Groups of drafts -/

/-- Drafts with more arcs come first, and those with as many stay in order. -/
def byArcs (ds : List Draft) : List Draft := Preference.sort (fun a b => decide (b.arcs.size < a.arcs.size)) ds

/-- A kept draft together with the drafts which were merged into it, in this order. -/
structure Pool where
  first : Draft
  rest : List Draft

namespace Pool

def members (g : Pool) : List Draft := g.first :: g.rest

def add (g : Pool) (d : Draft) : Pool := { g with rest := g.rest ++ [d] }

theorem members_add (g : Pool) (d : Draft) : (g.add d).members = g.members ++ [d] := rfl

/-- What the draft is which the members are merged to. It has the arcs of all of them and no others, and every
property with a built-in relaxation has the merged value. It is marked if there are several members, and otherwise
it is the only one. -/
structure Yields (m : Model) (g : Pool) (d : Draft) : Prop where
  arcs : d.arcs.toList = branches g.members
  value : ∀ i relax, m.MergesBy .down i relax → (m.view .down d.down).value i =
    (g.rest.map fun e => (m.view .down e.down).value i).foldl relax.join ((m.view .down g.first.down).value i)
  relaxed : g.rest ≠ [] → d.down.relaxed = true
  alone : g.rest = [] → d = g.first
  fits : ∀ i relax, m.MergesBy .down i relax → m.Fits .down i d.down

variable {m : Model} {d : Draft}

theorem yields_alone (hd : ∀ i, m.Fits .down i d.down) : Yields m ⟨d, []⟩ d where
  arcs := by simp [members, branches]
  value _ _ _ := rfl
  relaxed h := absurd rfl h
  alone _ := rfl
  fits i _ _ := hd i

end Pool

namespace Spec

variable {t : Spec} (hc : t.check = .ok ()) (ho : t.Responsible .down)
include hc ho

/-- One draft more is merged into the one to which the others of the group were merged before. -/
theorem Responsible.yields_add {g : Pool} {k d : Draft} {merged : State} (h : g.Yields t.toModel k)
    (hd : ∀ i, t.toModel.Fits .down i d.down)
    (hr : t.toModel.mergeListed .down (t.toModel.everyProperty .down) k.down d.down = .ok merged) :
    (g.add d).Yields t.toModel ⟨{ merged with relaxed := true }, k.arcs ++ d.arcs⟩ where
  arcs := by
    rw [Array.toList_append, h.arcs, Pool.members_add]
    simp [branches]
  value i relax hb := by
    have hval := (ho.merged_all hc hb (h.fits i relax hb) (hd i) hr).1
    rw [h.value i relax hb] at hval
    simp only [Pool.add, List.map_append, List.map_cons, List.map_nil, List.foldl_append, List.foldl_cons,
      List.foldl_nil]
    exact hval
  relaxed _ := rfl
  alone e := by simp [Pool.add] at e
  fits i relax hb := (ho.merged_all hc hb (h.fits i relax hb) (hd i) hr).2

/-- Whichever draft is nearest, the one which is absorbed joins its group. -/
theorem Responsible.pooled_absorb {groups : List Pool} {kept r : List Draft} {d : Draft}
    (h : List.Forall₂ (Pool.Yields t.toModel) groups kept) (hne : kept ≠ [])
    (hd : ∀ i, t.toModel.Fits .down i d.down) (hr : t.toModel.absorb kept d = .ok r) :
    ∃ groups', List.Forall₂ (Pool.Yields t.toModel) groups' r ∧
      (groups'.flatMap Pool.members).Perm (groups.flatMap Pool.members ++ [d]) ∧
      groups'.map Pool.first = groups.map Pool.first := by
  unfold Model.absorb at hr
  obtain ⟨o, ho', hr⟩ := Checked.bind_eq_ok.1 hr
  obtain ⟨i, rfl, hlt⟩ := nearest?_lt ho' hne
  dsimp only at hr
  rw [List.getElem?_eq_getElem hlt] at hr
  dsimp only at hr
  obtain ⟨merged, hmerged, hr⟩ := Checked.bind_eq_ok.1 hr
  obtain rfl := Except.ok.inj hr
  obtain ⟨hlen, hget⟩ := List.forall₂_iff_get.1 h
  have hi : i < groups.length := hlen ▸ hlt
  refine ⟨groups.set i (groups[i].add d), List.forall₂_iff_get.2 ⟨by simpa using hlen, fun j h1 h2 => ?_⟩, ?_, ?_⟩
  · simp only [List.get_eq_getElem, List.getElem_set]
    split_ifs with hij
    · exact ho.yields_add hc (hget i hi hlt) hd hmerged
    · exact hget j (by simpa using h1) (by simpa using h2)
  · exact List.perm_flatMap_set (List.getElem?_eq_getElem hi) (Pool.members_add _ _)
  · have hi' : i < (groups.map Pool.first).length := by simpa using hi
    have e : (groups[i].add d).first = (groups.map Pool.first)[i] := by simp [Pool.add]
    rw [List.map_set, e, List.set_getElem_self]

theorem Responsible.pooled_absorbs {excess : List Draft} {groups : List Pool} {kept r : List Draft}
    (h : List.Forall₂ (Pool.Yields t.toModel) groups kept) (hne : kept ≠ [])
    (hd : ∀ d ∈ excess, ∀ i, t.toModel.Fits .down i d.down) (hr : excess.foldlM t.toModel.absorb kept = .ok r) :
    ∃ groups', List.Forall₂ (Pool.Yields t.toModel) groups' r ∧
      (groups'.flatMap Pool.members).Perm (groups.flatMap Pool.members ++ excess) ∧
      groups'.map Pool.first = groups.map Pool.first := by
  induction excess generalizing groups kept with
  | nil =>
    obtain rfl := Except.ok.inj hr
    exact ⟨groups, h, by simp, rfl⟩
  | cons d excess ih =>
    rw [List.foldlM_cons] at hr
    obtain ⟨mid, hmid, hrest⟩ := Checked.bind_eq_ok.1 hr
    obtain ⟨gs, hgs, hperm, hfirst⟩ := ho.pooled_absorb hc h hne (hd d List.mem_cons_self) hmid
    have hne' : mid ≠ [] := by
      rintro rfl
      have := congrArg List.length hfirst
      rw [List.length_map, List.length_map, hgs.length_eq, h.length_eq] at this
      exact hne (List.length_eq_zero_iff.1 this.symm)
    obtain ⟨gs', hgs', hperm', hfirst'⟩ := ih hgs hne' (fun e he => hd e (List.mem_cons_of_mem _ he)) hrest
    refine ⟨gs', hgs', hperm'.trans ?_, hfirst'.trans hfirst⟩
    simpa using hperm.append_right excess

end Spec

/-- Drafts for themselves. -/
theorem Pool.yields_all {m : Model} {ds : List Draft} (hd : ∀ d ∈ ds, ∀ i, m.Fits .down i d.down) :
    List.Forall₂ (Pool.Yields m) (ds.map fun d => ⟨d, []⟩) ds := by
  induction ds with
  | nil => exact .nil
  | cons d ds ih =>
    exact .cons (yields_alone (hd d List.mem_cons_self)) (ih fun e he => hd e (List.mem_cons_of_mem _ he))

theorem Pool.flatMap_members_alone (ds : List Draft) :
    (ds.map fun d => Pool.mk d []).flatMap Pool.members = ds := by
  induction ds with
  | nil => rfl
  | cons d ds ih => simpa [Pool.members] using ih

/-- The arcs of the results are those of all members. -/
theorem Pool.branches_perm {m : Model} {groups : List Pool} {r : List Draft}
    (h : List.Forall₂ (Pool.Yields m) groups r) : branches r = branches (groups.flatMap Pool.members) := by
  induction h with
  | nil => rfl
  | cons hd _ ih =>
    simp only [branches, List.flatMap_cons, List.flatMap_append] at ih ⊢
    rw [ih, hd.arcs]
    rfl

namespace Spec

variable {t : Spec}

/-- The drafts are reduced to as many as may be kept. Those with the most arcs are, the earlier ones first among equals,
and all drafts fall into groups with one kept draft each. Each group yields one draft, which has all its arcs, and
no arc is lost or added. -/
theorem drafts_pooled (hc : t.check = .ok ()) (ho : t.Responsible .down) (hs : t.Comparable .down) {width : Nat}
    (hw : 1 ≤ width) {ds : List Draft} (hds : ∀ d ∈ ds, t.toModel.InRange .down d.down) :
    ∃ r groups, t.toModel.mergeDrafts width ds = .ok (r, ds.length - width) ∧ r.length = min ds.length width ∧
      (branches r).Perm (branches ds) ∧
      List.Forall₂ (Pool.Yields t.toModel) groups r ∧ (groups.flatMap Pool.members).Perm ds ∧
      (groups.map Pool.first).Perm ((byArcs ds).take width) ∧ (byArcs ds).Perm ds ∧
      (byArcs ds).Pairwise (fun a b => b.arcs.size ≤ a.arcs.size) ∧
      ∀ n, (byArcs ds).filter (fun d => d.arcs.size == n) = ds.filter fun d => d.arcs.size == n := by
  have hperm : (byArcs ds).Perm ds := Preference.sort_perm _ ds
  have hfits : ∀ d ∈ ds, ∀ i, t.toModel.Fits .down i d.down := fun d hd i => hds d hd i
  suffices ∃ r groups, t.toModel.mergeDrafts width ds = .ok (r, ds.length - width) ∧
      List.Forall₂ (Pool.Yields t.toModel) groups r ∧ (groups.flatMap Pool.members).Perm ds ∧
      (groups.map Pool.first).Perm ((byArcs ds).take width) by
    obtain ⟨r, groups, hr, hpool, hmem, hfirst⟩ := this
    have hlen := hfirst.length_eq
    rw [List.length_map, hpool.length_eq, List.length_take, hperm.length_eq, Nat.min_comm] at hlen
    refine ⟨r, groups, hr, hlen, ?_, hpool, hmem, hfirst, hperm, Preference.pairwise_sort (fun d : Draft => d.arcs.size) ds,
      fun n => Preference.filter_sort (fun d : Draft => d.arcs.size) n ds⟩
    rw [Pool.branches_perm hpool]
    exact hmem.flatMap_right _
  unfold Model.mergeDrafts
  split_ifs with hle
  · refine ⟨ds, ds.map fun d => ⟨d, []⟩, by rw [Nat.sub_eq_zero_of_le hle]; rfl, Pool.yields_all hfits, ?_, ?_⟩
    · rw [Pool.flatMap_members_alone]
    · rw [List.take_of_length_le (by rw [hperm.length_eq]; exact hle), List.map_map]
      simpa [Function.comp_def] using hperm.symm
  · have total := Model.exists_absorb (m := t.toModel) hs.exists_distance
      fun s o => Checked.exists_foldlM (fun s i => ho.exists_mergeProperty o s i) _ _
    obtain ⟨r, hr⟩ := Checked.exists_foldlM total ((byArcs ds).drop width) ((byArcs ds).take width)
    have hne : (byArcs ds).take width ≠ [] := by
      intro h
      have := congrArg List.length h
      rw [List.length_take, hperm.length_eq, List.length_nil] at this
      omega
    obtain ⟨groups, hpool, hmem, hfirst⟩ := ho.pooled_absorbs hc
      (Pool.yields_all fun d hd => hfits d (hperm.subset (List.mem_of_mem_take hd))) hne
      (fun d hd => hfits d (hperm.subset (List.mem_of_mem_drop hd))) hr
    refine ⟨r, groups, ?_, hpool, ?_, ?_⟩
    · show (do return (← ((byArcs ds).drop width).foldlM t.toModel.absorb ((byArcs ds).take width),
        ((byArcs ds).drop width).length)) = _
      rw [hr, List.length_drop, hperm.length_eq]
      rfl
    · rw [Pool.flatMap_members_alone, List.take_append_drop] at hmem
      exact hmem.trans hperm
    · rw [hfirst, List.map_map]
      simp [Function.comp_def]

end Spec

/-! Four drafts of which two are kept. All distances are infinite, and the merge of the flag is one's own. -/

namespace Crowded

def spec : Spec where
  branchVars := #[0]
  scopes := #[⟨"crowded", [0]⟩]
  properties := .mk #[
    { constraint := 0, kind := .integer 0 (-5) 5, relaxation := .minimum
      similarity := some fun _ _ => .ok (1.0 / 0.0) },
    { constraint := 0, kind := .set 70, relaxation := .union },
    { constraint := 0, kind := .flag false
      relaxation := .custom fun v w => .ok (v.setFlag 2 (v.flag 2 || w.flag 2)) }] #[] #[]

def draft (x : Int) (e : Nat) (arcs : Array Branch) : Draft where
  down :=
    let v := (spec.toModel.view .down (spec.toModel.fresh .down)).setInteger 0 x
    (v.setSet 1 ((v.set 1).insert e)).state
  arcs := arcs

def one : Draft := draft 3 1 #[(0, 0)]

def two : Draft := draft (-2) 69 #[(0, 1), (1, 1)]

def three : Draft := draft 4 2 #[(1, 0), (0, 2)]

def four : Draft := draft 1 5 #[(2, 0)]

theorem checked : spec.check = .ok () := by decide +kernel

theorem responsible : spec.Responsible .down := by
  intro i q hq merge e s o
  obtain ⟨hi, rfl⟩ := Array.getElem?_eq_some_iff.1 hq
  have hi : i < 3 := hi
  interval_cases i
  · cases e
  · cases e
  · obtain rfl := Relaxation.custom.inj e
    exact ⟨_, rfl, View.writes_setFlag (Spec.sound_layout checked .down) 2 _⟩

theorem comparable : spec.Comparable .down := by
  intro i q hq f e s o
  obtain ⟨hi, rfl⟩ := Array.getElem?_eq_some_iff.1 hq
  have hi : i < 3 := hi
  interval_cases i
  · obtain rfl := Option.some.inj e
    exact ⟨_, rfl⟩
  · cases e
  · cases e

theorem drafts_pooled_crowded : ∃ r groups, spec.toModel.mergeDrafts 2 [one, two, three, four] = .ok (r, 2) ∧
    r.length = 2 ∧ (branches r).Perm [(0, 0), (0, 1), (1, 1), (1, 0), (0, 2), (2, 0)] ∧
    List.Forall₂ (Pool.Yields spec.toModel) groups r ∧
    (groups.flatMap Pool.members).Perm [one, two, three, four] ∧ (groups.map Pool.first).Perm [two, three] := by
  have inRange : ∀ d ∈ [one, two, three, four], spec.toModel.InRange .down d.down := by decide +kernel
  obtain ⟨r, groups, hr, hlen, harcs, hpool, hmem, hfirst, -⟩ :=
    Spec.drafts_pooled checked responsible comparable (by decide : 1 ≤ 2) inRange
  exact ⟨r, groups, hr, hlen, harcs, hpool, hmem, hfirst⟩

end Crowded

end DecisionDiagrams
