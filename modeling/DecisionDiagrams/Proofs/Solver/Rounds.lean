import DecisionDiagrams.Proofs.Solver.Announce
import Mathlib.Logic.Relation

/-! What a property of diagrams has to satisfy so that propagation keeps it. It may be lost on layers
whose variable lost a value, and a call of the diagram has to bring it back on the layers it was told
of. Then it holds of all diagrams whenever one of them is called, and when none waits it holds on all
layers, except for changes which were forgotten before. -/

namespace DecisionDiagrams

/-- The assignment is in the product of the domains. -/
def Within (σ : Var → Int) (s : Domains) : Prop := ∀ x < s.size, s.contains x (σ x) = true

/-- The variables of `s` have no other values in `t`. -/
structure Under (s t : Domains) : Prop where
  size : s.size ≤ t.size
  contains : ∀ x < s.size, ∀ v, t.contains x v = true → s.contains x v = true

theorem Under.refl (s : Domains) : Under s s := ⟨Nat.le_refl _, fun _ _ _ h => h⟩

theorem Under.trans {r s t : Domains} (h : Under r s) (k : Under s t) : Under r t :=
  ⟨Nat.le_trans h.size k.size,
    fun x hx v hv => h.contains x hx v (k.contains x (Nat.lt_of_lt_of_le hx h.size) v hv)⟩

theorem Domains.Narrows.under {s t : Domains} (h : s.Narrows t) : Under s t :=
  ⟨Nat.le_of_eq h.size.symm, fun x _ v => h.contains x v⟩

theorem Failure.isConflict_ofStop (i : Nat) (e : Stop) :
    (Failure.ofStop i e).isConflict = e.isConflict := by
  cases e <;> rfl

/-- A property of a diagram beside domains, as far as the layers which are stale allow. -/
abbrev Standing := Plan → (Nat → Prop) → Diagram → Domains → Prop

/-- How a call of a diagram ends: `P` holds except on stale layers, and no accepted assignment is
lost. -/
structure Returns (P : Standing) (accepts : Plan → (Var → Int) → Prop) (p : Plan)
    (stale : Nat → Prop) (s : Domains) (r : Propagated) : Prop where
  built : r.stop = none → r.diagram.built = true
  stands : r.stop = none → P p stale r.diagram r.domains
  narrows : r.stop = none → s.Narrows r.domains
  keeps : r.stop = none → ∀ σ, accepts p σ → Within σ s → Within σ r.domains
  safe : ∀ σ, accepts p σ → Within σ s → ∀ e, r.stop = some e → e.isConflict = false

/-- What propagation needs to keep `P` of diagrams which fit the domains. -/
structure Upheld (fits : Plan → Domains → Prop) (accepts : Plan → (Var → Int) → Prop)
    (P : Standing) : Prop where
  under : ∀ {p s t}, fits p s → Under s t → fits p t
  known : ∀ {p s}, fits p s → ∀ l < p.model.depth, p.model.var l < s.size
  adapt : ∀ {p stale stale' d s t}, P p stale d s →
    (∀ l < p.model.depth, ∀ v, t.contains (p.model.var l) v = true →
      s.contains (p.model.var l) v = true) →
    (∀ l < p.model.depth, stale l → stale' l) →
    (∀ l < p.model.depth, ∀ v, s.contains (p.model.var l) v = true →
      t.contains (p.model.var l) v = false → stale' l) → P p stale' d t
  first : ∀ {p s} fuel lost, fits p s →
    Returns P accepts p (fun _ => False) s ((Diagram.initial p.model).propagate p fuel lost s)
  again : ∀ {p stale d s} fuel lost, fits p s → d.built = true → P p stale d s →
    Returns P accepts p (fun l => stale l ∧ l ∉ lost) s (d.propagate p fuel lost s)
  distinct : ∀ {p s}, fits p s → p.Distinct

theorem Upheld.weaken {fits : Plan → Domains → Prop} {accepts : Plan → (Var → Int) → Prop}
    {P : Standing} (hP : Upheld fits accepts P) {p : Plan} {stale stale' : Nat → Prop} {d : Diagram}
    {s : Domains} (h : P p stale d s) (hs : ∀ l < p.model.depth, stale l → stale' l) :
    P p stale' d s := by
  refine hP.adapt h (fun _ _ _ hv => hv) hs fun l _ v hv hn => ?_
  rw [hv] at hn
  cases hn

namespace Solver

variable {fits : Plan → Domains → Prop} {accepts : Plan → (Var → Int) → Prop} {P : Standing}
variable {F : Var → Prop} {s t : Solver} {i : Nat}

/-- The layers of a diagram on which its property may be lost: the change of the variable was
forgotten, or the diagram was told of it, or will be. -/
def staleAt (F : Var → Prop) (s : Solver) (i : Nat) (p : Plan) (l : Nat) : Prop :=
  F (p.model.var l) ∨ l ∈ s.lostAt i ∨ p.model.var l ∈ s.domains.changed

/-- A diagram has its property, or it waits to be built. -/
def Stands (P : Standing) (F : Var → Prop) (s : Solver) (i : Nat) (p : Plan) (d : Diagram) : Prop :=
  (d.built = true ∧ P p (s.staleAt F i p) d s.domains) ∨
    (d = Diagram.initial p.model ∧ i ∈ s.queue)

structure Kept (fits : Plan → Domains → Prop) (P : Standing) (F : Var → Prop) (s : Solver) :
    Prop where
  paired : s.world.diagrams.size = s.entries.size
  listed : ∀ i, s.lostAt i ≠ [] → i ∈ s.queue
  fits : ∀ i p, s.planAt i = some p → fits p s.domains
  stands : ∀ i p d, s.planAt i = some p → s.world.diagrams[i]? = some d → Stands P F s i p d

theorem Kept.announce (hP : Upheld fits accepts P) (h : Kept fits P F s) :
    Kept fits P (fun x => F x ∧ x ∉ s.domains.changed) s.announce := by
  have hin := informs_announce s
  have hd := domains_announce s
  have hplan : ∀ i, s.announce.planAt i = s.planAt i := hin.plan
  refine ⟨?_, hin.listed h.listed, fun i p hp => ?_, fun i p d hp hdi => ?_⟩
  · rw [diagrams_announce, hin.size]
    exact h.paired
  · rw [hd]
    exact hP.under (h.fits i p (hplan i ▸ hp)) ⟨Nat.le_refl _, fun _ _ _ hv => hv⟩
  · rw [hplan] at hp
    rw [diagrams_announce] at hdi
    have hbuilt : s.announce.builtAt i = d.built := by
      rw [builtAt, diagrams_announce, hdi]
      rfl
    rcases h.stands i p d hp hdi with ⟨hb, hs⟩ | ⟨hini, hq⟩
    · refine Or.inl ⟨hb, hP.adapt hs (fun l _ v hv => ?_) (fun l hl hst => ?_) fun l _ v hv hn => ?_⟩
      · rwa [hd] at hv
      · by_cases hc : p.model.var l ∈ s.domains.changed
        · have ht := told_announce s hc i p l ((hplan i).trans hp)
            ((hP.distinct (h.fits i p hp)).idxOf?_var hl)
          exact Or.inr (Or.inl (ht.2 (hbuilt.trans hb)))
        · rcases hst with hf | hl | hc'
          · exact Or.inl ⟨hf, hc⟩
          · exact Or.inr (Or.inl (hin.lost i l hl))
          · exact absurd hc' hc
      · rw [hd, Domains.contains_settle, hv] at hn
        cases hn
    · exact Or.inr ⟨hini, hin.queue i hq⟩

/-- What a call of diagram `i` with result `r` leaves of the solver. -/
structure Called (s t : Solver) (i : Nat) (r : Propagated) : Prop where
  queue : t.queue = s.queue
  rootFailure : t.rootFailure = s.rootFailure
  kept : t.history.kept = s.history.kept
  domains : t.domains = r.domains
  diagrams : t.world.diagrams = s.world.diagrams.setIfInBounds i r.diagram
  size : t.entries.size = s.entries.size
  plan : ∀ j, t.planAt j = s.planAt j
  lost : ∀ j, t.lostAt j = if j = i then [] else s.lostAt j

theorem called_callDiagram {p : Plan} {d : Diagram} (hp : s.planAt i = some p)
    (hd : s.world.diagrams[i]? = some d) (fuel : Nat) :
    (s.callDiagram fuel i).1 =
      (d.propagate p fuel (s.lostAt i) s.domains).stop.map (Failure.ofStop i) ∧
    Called s (s.callDiagram fuel i).2 i (d.propagate p fuel (s.lostAt i) s.domains) := by
  obtain ⟨e, he, rfl⟩ := Option.map_eq_some_iff.1 hp
  have hi := (Array.getElem?_eq_some_iff.1 he).1
  have hl : s.lostAt i = e.lost := by
    unfold lostAt
    rw [he]
    rfl
  unfold callDiagram
  rw [he, hd, hl]
  refine ⟨rfl, rfl, rfl, rfl, rfl, rfl, Array.size_setIfInBounds, fun j => ?_, fun j => ?_⟩
  · unfold planAt
    dsimp only
    rw [Array.getElem?_setIfInBounds]
    by_cases ij : i = j
    · subst ij
      rw [if_pos rfl, if_pos hi, he]
      rfl
    · rw [if_neg ij]
  · unfold lostAt
    dsimp only
    rw [Array.getElem?_setIfInBounds]
    by_cases ij : i = j
    · subst ij
      rw [if_pos rfl, if_pos hi, if_pos rfl]
      rfl
    · rw [if_neg ij, if_neg (Ne.symm ij)]

/-- The first diagram of the queue is taken out to be called. -/
def dequeue (s : Solver) (rest : List Nat) : Solver := { s with queue := rest }

/-- A successful call of a diagram with the property. -/
theorem Stands.call (hP : Upheld fits accepts P) {p : Plan} {d : Diagram} (hf : fits p s.domains)
    (h : Stands P F s i p d) (settled : s.domains.changed = #[]) (fuel : Nat) :
    Returns P accepts p (fun l => F (p.model.var l)) s.domains
      (d.propagate p fuel (s.lostAt i) s.domains) := by
  have weaken : ∀ {stale : Nat → Prop} {r : Propagated},
      (∀ l, stale l → F (p.model.var l)) → Returns P accepts p stale s.domains r →
      Returns P accepts p (fun l => F (p.model.var l)) s.domains r := by
    intro stale r hst hr
    refine { hr with stands := fun hn => ?_ }
    exact hP.weaken (hr.stands hn) fun l _ hl => hst l hl
  rcases h with ⟨hb, hs⟩ | ⟨rfl, -⟩
  · refine weaken (fun l hl => ?_) (hP.again fuel (s.lostAt i) hf hb hs)
    rcases hl.1 with hl' | hl' | hl'
    · exact hl'
    · exact absurd hl' hl.2
    · rw [settled] at hl'
      exact absurd hl' (Array.not_mem_empty _)
  · exact weaken (fun _ hl => hl.elim) (hP.first fuel (s.lostAt i) hf)

/-- What the rounds of a propagation leave of the solver. -/
structure Progress (s t : Solver) : Prop where
  rootFailure : t.rootFailure = s.rootFailure
  kept : t.history.kept = s.history.kept
  entries : t.entries.size = s.entries.size
  plan : ∀ i, t.planAt i = s.planAt i
  size : t.domains.size = s.domains.size
  contains : ∀ x v, t.domains.contains x v = true → s.domains.contains x v = true

theorem Progress.refl (s : Solver) : Progress s s :=
  ⟨rfl, rfl, rfl, fun _ => rfl, rfl, fun _ _ h => h⟩

theorem Progress.trans {r : Solver} (h : Progress r s) (k : Progress s t) : Progress r t where
  rootFailure := k.rootFailure.trans h.rootFailure
  kept := k.kept.trans h.kept
  entries := k.entries.trans h.entries
  plan i := (k.plan i).trans (h.plan i)
  size := k.size.trans h.size
  contains x v hv := h.contains x v (k.contains x v hv)

theorem progress_announce (s : Solver) : Progress s s.announce := by
  have hin := informs_announce s
  have hd := domains_announce s
  refine ⟨hin.rootFailure, kept_announce s, hin.size, hin.plan, ?_, fun x v hv => ?_⟩
  · rw [hd]
    rfl
  · rwa [hd] at hv

/-- The solver accepts an assignment if all of its diagrams do. -/
def Accepted (accepts : Plan → (Var → Int) → Prop) (s : Solver) (σ : Var → Int) : Prop :=
  ∀ i p, s.planAt i = some p → accepts p σ

theorem Accepted.of_progress {σ : Var → Int} (h : Accepted accepts s σ) (k : Progress s t) :
    Accepted accepts t σ := fun i p hp => h i p ((k.plan i).symm.trans hp)

theorem diagram_of_planAt (h : s.world.diagrams.size = s.entries.size) {p : Plan}
    (hp : s.planAt i = some p) : ∃ d, s.world.diagrams[i]? = some d := by
  obtain ⟨e, he, -⟩ := Option.map_eq_some_iff.1 hp
  have hi := (Array.getElem?_eq_some_iff.1 he).1
  exact ⟨_, Array.getElem?_eq_getElem (h ▸ hi)⟩

theorem callDiagram_of_unknown (hi : s.planAt i = none) (fuel : Nat) :
    s.callDiagram fuel i = (none, s) := by
  have he : s.entries[i]? = none := Option.map_eq_none_iff.1 hi
  unfold callDiagram
  rw [he]

/-- A diagram which does not exist may be taken out of the queue. -/
theorem Kept.dequeue (h : Kept fits P F s) (hp : s.planAt i = none) {rest : List Nat} (hq : s.queue ⊆ i :: rest) :
    Kept fits P F (s.dequeue rest) := by
  have other : ∀ j ∈ s.queue, s.planAt j ≠ none → j ∈ rest := fun j hj hn =>
    (List.mem_cons.1 (hq hj)).resolve_left fun e => hn (e ▸ hp)
  refine ⟨h.paired, fun j hj => other j (h.listed j hj) fun hn => hj ?_, h.fits, fun j p d hpj hd => ?_⟩
  · have he : s.entries[j]? = none := Option.map_eq_none_iff.1 hn
    show ((s.entries[j]?).map (·.lost)).getD [] = []
    rw [he]
    rfl
  · refine (h.stands j p d hpj hd).imp id fun hini => ⟨hini.1, other j hini.2 fun hn => ?_⟩
    exact absurd (hn.symm.trans hpj) nofun

/-- After a call which succeeds, the solver is as good as before, and no accepted assignment is lost.
-/
theorem Kept.turn (hP : Upheld fits accepts P) (h : Kept fits P F s)
    (settled : s.domains.changed = #[]) {rest : List Nat} (hq : s.queue ⊆ i :: rest) {fuel : Nat}
    (hc : (s.dequeue rest).callDiagram fuel i = (none, t)) :
    Kept fits P F t ∧ Progress s t ∧ s.domains.Narrows t.domains ∧
      ∀ σ, (∀ p, s.planAt i = some p → accepts p σ) → Within σ s.domains → Within σ t.domains := by
  cases hp : s.planAt i with
  | none =>
    have hu := callDiagram_of_unknown (s := s.dequeue rest) hp fuel
    obtain ⟨-, rfl⟩ := Prod.mk.inj (hc.symm.trans hu)
    exact ⟨h.dequeue hp hq, ⟨rfl, rfl, rfl, fun _ => rfl, rfl, fun _ _ hv => hv⟩, .refl _, fun _ _ hw => hw⟩
  | some p =>
    obtain ⟨d, hd⟩ := diagram_of_planAt h.paired hp
    obtain ⟨hstop, hcalled⟩ := called_callDiagram (s := s.dequeue rest) hp hd fuel
    rw [hc] at hstop hcalled
    have hret := (h.stands i p d hp hd).call hP (h.fits i p hp) settled fuel
    have hnone : (d.propagate p fuel (s.lostAt i) s.domains).stop = none :=
      Option.map_eq_none_iff.1 hstop.symm
    have hnar : s.domains.Narrows t.domains := by
      rw [hcalled.domains]
      exact hret.narrows hnone
    have hlost : ∀ j, t.lostAt j = if j = i then [] else s.lostAt j := hcalled.lost
    have hplan : ∀ j, t.planAt j = s.planAt j := hcalled.plan
    refine ⟨⟨?_, fun j hj => ?_, fun j q hq => ?_, fun j q e hq' he => ?_⟩,
      ⟨hcalled.rootFailure, hcalled.kept, hcalled.size, hplan, hnar.size, hnar.contains⟩, hnar,
      fun σ ha hw => ?_⟩
    · rw [hcalled.diagrams, Array.size_setIfInBounds, hcalled.size]
      exact h.paired
    · rw [hlost] at hj
      split_ifs at hj with ji
      · exact absurd rfl hj
      · rw [hcalled.queue]
        exact (List.mem_cons.1 (hq (h.listed j hj))).resolve_left ji
    · exact hP.under (h.fits j q ((hplan j).symm.trans hq)) hnar.under
    · rw [hplan] at hq'
      rw [hcalled.diagrams, Array.getElem?_setIfInBounds] at he
      have hi : i < (s.dequeue rest).world.diagrams.size := (Array.getElem?_eq_some_iff.1 hd).1
      by_cases ij : i = j
      · subst ij
        obtain rfl := Option.some.inj (hp.symm.trans hq')
        rw [if_pos rfl, if_pos hi] at he
        obtain rfl := Option.some.inj he
        refine Or.inl ⟨hret.built hnone, ?_⟩
        rw [hcalled.domains]
        exact hP.weaken (hret.stands hnone) fun l _ hl => Or.inl hl
      · rw [if_neg ij] at he
        rcases h.stands j q e hq' he with ⟨hb, hs⟩ | ⟨hini, hw⟩
        · refine Or.inl ⟨hb, hP.adapt hs (fun l _ v hv => hnar.contains _ _ hv) (fun l _ hl => ?_)
            fun l _ v hv hn => Or.inr (Or.inr (hnar.changed _ _ hv hn))⟩
          refine hl.imp id (Or.imp (fun hl => ?_) (hnar.listed _))
          rwa [hlost, if_neg (Ne.symm ij)]
        · refine Or.inr ⟨hini, ?_⟩
          rw [hcalled.queue]
          exact (List.mem_cons.1 (hq hw)).resolve_left (Ne.symm ij)
    · rw [hcalled.domains]
      exact hret.keeps hnone σ (ha p rfl) hw

/-- A failing call does not speak against an accepted assignment. -/
theorem Kept.failing (hP : Upheld fits accepts P) (h : Kept fits P F s)
    (settled : s.domains.changed = #[]) {rest : List Nat} {fuel : Nat} {f : Failure}
    (hc : (s.dequeue rest).callDiagram fuel i = (some f, t)) {σ : Var → Int}
    (ha : ∀ p, s.planAt i = some p → accepts p σ) (hw : Within σ s.domains) : f.isConflict = false := by
  cases hp : s.planAt i with
  | none =>
    have hu := callDiagram_of_unknown (s := s.dequeue rest) hp fuel
    exact absurd (congrArg Prod.fst (hc.symm.trans hu)) (by simp)
  | some p =>
    obtain ⟨d, hd⟩ := diagram_of_planAt h.paired hp
    obtain ⟨hstop, -⟩ := called_callDiagram (s := s.dequeue rest) hp hd fuel
    rw [hc] at hstop
    obtain ⟨e, he, rfl⟩ := Option.map_eq_some_iff.1 hstop.symm
    rw [Failure.isConflict_ofStop]
    exact ((h.stands i p d hp hd).call hP (h.fits i p hp) settled fuel).safe σ (ha p hp) hw e he

/-- A diagram is called with success, and the others are told what changed. -/
def Round (fuel : Nat) (s t : Solver) : Prop :=
  ∃ i rest u, s.queue = i :: rest ∧ (s.dequeue rest).callDiagram fuel i = (none, u) ∧ t = u.announce

abbrev Rounds (fuel : Nat) : Solver → Solver → Prop := Relation.ReflTransGen (Round fuel)

/-- In the propagation which begins at `s`, the diagram `i` is called at `u` and answers `r`. -/
def Calls (s : Solver) (i : Nat) (u : Solver) (r : Option Failure) : Prop :=
  ∃ rest t, Rounds allowance s.announce u ∧ u.queue = i :: rest ∧
    (u.dequeue rest).callDiagram allowance i = (r, t)

/-- The propagation takes rounds until no diagram waits, or until a call fails. -/
theorem rounds_drain (fuel : Nat) : ∀ (steps : Nat) {s t : Solver} {r : Option Failure},
    drain fuel steps s = (r, t) →
    match r with
    | none => Rounds fuel s t ∧ t.queue = []
    | some f => f = .exhausted ∨ ∃ u i rest, Rounds fuel s u ∧ u.queue = i :: rest ∧
        (u.dequeue rest).callDiagram fuel i = (some f, t)
  | 0, s, t, r, h => by
    obtain ⟨rfl, rfl⟩ := Prod.mk.inj h
    exact Or.inl rfl
  | steps + 1, s, t, r, h => by
    unfold drain at h
    split at h
    · rename_i hq
      obtain ⟨rfl, rfl⟩ := Prod.mk.inj h
      exact ⟨.refl, hq⟩
    · rename_i i rest hq
      split at h
      · rename_i u hu
        have first : Round fuel s u.announce := ⟨i, rest, u, hq, hu, rfl⟩
        have ih := rounds_drain fuel steps h
        cases r with
        | none => exact ⟨.head first ih.1, ih.2⟩
        | some f =>
          refine ih.imp id ?_
          rintro ⟨v, j, rest', hv, hq', hf⟩
          exact ⟨v, j, rest', .head first hv, hq', hf⟩
      · rename_i hne
        cases r with
        | none => exact absurd h (hne t)
        | some f => exact Or.inr ⟨s, i, rest, .refl, hq, h⟩

/-- What holds in the middle of a propagation which began at `s`: a forgotten change is only still
forgotten if the variable has all of its values. -/
structure Midway (fits : Plan → Domains → Prop) (P : Standing) (F : Var → Prop) (s t : Solver) :
    Prop where
  settled : t.domains.changed = #[]
  progress : Progress s t
  kept : Kept fits P (fun x => F x ∧ ∀ v, t.domains.contains x v = s.domains.contains x v) t

/-- It does not matter which of the waiting diagrams is called. -/
theorem Midway.wake (hP : Upheld fits accepts P) {v : Solver} (h : Midway fits P F s t)
    {rest : List Nat} (hq : t.queue ⊆ i :: rest) {fuel : Nat}
    (hc : (t.dequeue rest).callDiagram fuel i = (none, v)) :
    Midway fits P F s v.announce ∧ Progress t v.announce ∧
      ∀ σ, (∀ p, t.planAt i = some p → accepts p σ) → Within σ t.domains →
        Within σ v.announce.domains := by
  obtain ⟨hk, hpr, hnar, hw⟩ := h.kept.turn hP h.settled hq hc
  have hd := domains_announce v
  have hstep := hpr.trans (progress_announce v)
  refine ⟨⟨by rw [hd]; rfl, h.progress.trans hstep, ?_⟩, hstep,
    fun σ ha hs => by rw [hd]; exact hw σ ha hs⟩
  have ha := hk.announce hP
  refine { ha with stands := fun j p d hp hdj => ?_ }
  refine (ha.stands j p d hp hdj).imp (fun hb => ⟨hb.1, ?_⟩) id
  refine hP.weaken hb.2 fun l _ hl => hl.imp (fun hf => ⟨hf.1.1, fun x => ?_⟩) id
  rw [hd, Domains.contains_settle, ← hf.1.2 x]
  have hx := hf.2
  cases ht : t.domains.contains (p.model.var l) x with
  | false =>
    refine Bool.eq_false_iff.2 fun hv => ?_
    rw [hnar.contains _ _ hv] at ht
    cases ht
  | true =>
    cases hv : v.domains.contains (p.model.var l) x with
    | true => rfl
    | false => exact absurd (hnar.changed _ _ ht hv) hx

theorem Midway.round (hP : Upheld fits accepts P) {u : Solver} (h : Midway fits P F s t)
    {fuel : Nat} (hr : Round fuel t u) : Midway fits P F s u ∧
      ∀ σ, Accepted accepts t σ → Within σ t.domains → Within σ u.domains := by
  obtain ⟨i, rest, v, hq, hc, rfl⟩ := hr
  obtain ⟨hm, -, hw⟩ := h.wake hP (hq ▸ List.Subset.refl _) hc
  exact ⟨hm, fun σ ha => hw σ (ha i)⟩

theorem Midway.rounds (hP : Upheld fits accepts P) {u : Solver} (h : Midway fits P F s t)
    {fuel : Nat} (hr : Rounds fuel t u) : Midway fits P F s u ∧
      ∀ σ, Accepted accepts t σ → Within σ t.domains → Within σ u.domains := by
  induction hr with
  | refl => exact ⟨h, fun _ _ hw => hw⟩
  | tail _ hlast ih =>
    obtain ⟨hk, hw⟩ := ih
    obtain ⟨hk', hw'⟩ := hk.round hP hlast
    refine ⟨hk', fun σ ha hs => hw' σ ?_ (hw σ ha hs)⟩
    exact fun i p hp => ha i p (by rw [h.progress.plan, ← hk.progress.plan, hp])

theorem Kept.midway (hP : Upheld fits accepts P) (h : Kept fits P F s) :
    Midway fits P (fun x => F x ∧ x ∉ s.domains.changed) s.announce s.announce := by
  refine ⟨by rw [domains_announce]; rfl, .refl _, ?_⟩
  have ha := h.announce hP
  refine { ha with stands := fun i p d hp hd => ?_ }
  refine (ha.stands i p d hp hd).imp (fun hb => ⟨hb.1, ?_⟩) id
  exact hP.weaken hb.2 fun l _ hl => hl.imp (fun hf => ⟨hf, fun _ => rfl⟩) id

/-- What was forgotten before a propagation and still is after it. -/
def stillForgotten (F : Var → Prop) (s t : Solver) (x : Var) : Prop :=
  F x ∧ x ∉ s.domains.changed ∧ ∀ v, t.domains.contains x v = s.domains.contains x v

theorem propagateWithin_eq (hf : s.rootFailure = none) {fuel : Nat} {r : Option Failure}
    (h : s.propagateWithin fuel = (r, t)) :
    ∃ u, drain fuel fuel s.announce = (r, u) ∧ (r = none → t = u) ∧
      t.history = u.history ∧ t.entries = u.entries ∧
      (s.level ≠ 0 → u.level = s.level → t.rootFailure = u.rootFailure ∨ t.rootFailure = none) := by
  unfold propagateWithin at h
  rw [hf] at h
  dsimp only at h
  split at h
  · rename_i u hu
    obtain ⟨rfl, rfl⟩ := Prod.mk.inj h
    exact ⟨u, hu, fun _ => rfl, rfl, rfl, fun _ _ => Or.inl rfl⟩
  · rename_i f u hu
    obtain ⟨rfl, rfl⟩ := Prod.mk.inj h
    exact ⟨u, hu, nofun, rfl, rfl, fun hl hu => Or.inr (if_neg (hu ▸ hl))⟩

theorem propagate_eq (hf : s.rootFailure = none) {r : Option Failure} (h : s.propagate = (r, t)) :
    ∃ u, drain allowance allowance s.announce = (r, u) ∧ (r = none → t = u) ∧
      t.history = u.history ∧ t.entries = u.entries ∧
      (s.level ≠ 0 → u.level = s.level → t.rootFailure = u.rootFailure ∨ t.rootFailure = none) :=
  propagateWithin_eq hf h

/-- A propagation which succeeds leaves no diagram waiting and no change to be told. -/
theorem Kept.propagate (hP : Upheld fits accepts P) (h : Kept fits P F s)
    (hf : s.rootFailure = none) (hs : s.propagate = (none, t)) :
    Kept fits P (stillForgotten F s t) t ∧ t.queue = [] ∧ t.domains.changed = #[] ∧ Progress s t ∧
      ∀ σ, Accepted accepts s σ → Within σ s.domains → Within σ t.domains := by
  obtain ⟨u, hu, ht, -⟩ := propagate_eq hf hs
  obtain rfl := ht rfl
  obtain ⟨hr, hq⟩ := rounds_drain allowance allowance hu
  obtain ⟨hm, hw⟩ := (h.midway hP).rounds hP hr
  have hpr := (progress_announce s).trans hm.progress
  refine ⟨⟨hm.kept.paired, hm.kept.listed, hm.kept.fits, fun i p d hp hd => ?_⟩, hq, hm.settled, hpr,
    fun σ ha hs => hw σ (ha.of_progress (progress_announce s)) ?_⟩
  · refine (hm.kept.stands i p d hp hd).imp (fun hb => ⟨hb.1, ?_⟩) id
    refine hP.weaken hb.2 fun l _ hl => hl.imp (fun hf => ⟨hf.1.1, hf.1.2, fun v => ?_⟩) id
    rw [hf.2 v, domains_announce]
    rfl
  · rwa [domains_announce]

/-- A propagation which fails leaves the checkpoints and the plans as they were, and it reports a
conflict only if no accepted assignment is left. -/
theorem Kept.propagate_failed (hP : Upheld fits accepts P) (h : Kept fits P F s)
    (hf : s.rootFailure = none) {f : Failure} (hs : s.propagate = (some f, t))
    (hc : f.isConflict = true) :
    t.history.kept = s.history.kept ∧ t.entries.size = s.entries.size ∧
      (∀ i, t.planAt i = s.planAt i) ∧ (s.level ≠ 0 → t.rootFailure = none) ∧
      ∀ σ, Accepted accepts s σ → ¬ Within σ s.domains := by
  obtain ⟨u, hu, -, hh, he, hl⟩ := propagate_eq hf hs
  rcases rounds_drain allowance allowance hu with rfl | ⟨v, i, rest, hr, hq, hcall⟩
  · cases hc
  obtain ⟨hm, hw⟩ := (h.midway hP).rounds hP hr
  have hpr := (progress_announce s).trans hm.progress
  have called : u.history.kept = v.history.kept ∧ u.entries.size = v.entries.size ∧
      (∀ i, u.planAt i = v.planAt i) ∧ u.rootFailure = v.rootFailure := by
    cases hp : v.planAt i with
    | none =>
      have hunknown := callDiagram_of_unknown (s := v.dequeue rest) hp allowance
      exact absurd (congrArg Prod.fst (hcall.symm.trans hunknown)) (by simp)
    | some p =>
      obtain ⟨d, hd⟩ := diagram_of_planAt hm.kept.paired hp
      obtain ⟨-, hcd⟩ := called_callDiagram (s := v.dequeue rest) hp hd allowance
      rw [hcall] at hcd
      exact ⟨hcd.kept, hcd.size, hcd.plan, hcd.rootFailure⟩
  obtain ⟨hkept, hsize, hplan, hroot⟩ := called
  refine ⟨?_, ?_, fun j => ?_, fun h0 => ?_, fun σ ha hs => ?_⟩
  · rw [hh, hkept, hpr.kept]
  · rw [he, hsize, hpr.entries]
  · rw [planAt, he, ← planAt, hplan, hpr.plan]
  · have hlevel : u.level = s.level := congrArg List.length (hkept.trans hpr.kept)
    rcases hl h0 hlevel with e | e
    · rw [e, hroot, hpr.rootFailure, hf]
    · exact e
  · have hσ := hw σ (ha.of_progress (progress_announce s)) (by rwa [domains_announce])
    have := hm.kept.failing hP hm.settled hcall ((ha.of_progress hpr) i) hσ
    rw [hc] at this
    cases this

end Solver
end DecisionDiagrams
