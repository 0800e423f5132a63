import DecisionDiagrams.Proofs.Engine.Ending
import DecisionDiagrams.Proofs.Solver.Enumerates

/-! Propagation ends. A call of a diagram ends whatever happened to the diagram before, and it takes a value
from the domains or tells nobody; so the rounds in which diagrams wake each other up end as well. -/

namespace DecisionDiagrams

open Work

/-- A plan of a registered specification with valid options in which no transition declares to read a
combined property. -/
structure Plan.Separate (p : Plan) : Prop where
  made : ∃ t : Spec, t.Plans p ∧ ∀ side, ∀ q ∈ (t.properties.get side).toList,
    q.rule.isTransition = true → ∀ r ∈ q.rule.reads, r.side ≠ .combined

namespace Plan.Separate

variable {p : Plan}

theorem distinct (h : p.Separate) : p.Distinct := h.made.choose_spec.1.distinct

theorem valid (h : p.Separate) : p.options.isValid = true := h.made.choose_spec.1.valid

theorem readsNoCombined (h : p.Separate) : p.model.ReadsNoCombined := by
  obtain ⟨t, ht, hr⟩ := h.made
  rw [← (Spec.compile_eq_ok.1 ht.compiled).2]
  exact Spec.readsNoCombined hr

end Plan.Separate

namespace Diagram

/-- A diagram which was never propagated, or whose graph agrees with itself. -/
def Usable (p : Plan) (d : Diagram) : Prop :=
  d = .initial p.model ∨ d.built = true ∧ ∀ s, Census p (d.workspace p s)

variable {p : Plan} {d : Diagram}

theorem Usable.ready (h : d.Usable p) (s : Domains) : Ready p (d.workspace p s) := by
  have nothing : ∀ g, (Agenda.empty (p.model.depth + 1)).Suits p g := fun g e l x hx => by
    rw [Agenda.waiting_empty] at hx
    cases hx
  rcases h with rfl | ⟨hb, hc⟩
  · exact Or.inr ⟨rfl, tidy_initial p _ s, nothing _⟩
  · exact Or.inl { hc s with built := hb, cached := Memo.sound_empty _, suits := nothing _ }

theorem usable_of_census {w : Workspace} (hc : Census p w) (hb : w.built = true) : w.toDiagram.Usable p :=
  Or.inr ⟨hb, fun _ => hc.congr rfl rfl⟩

/-- How a propagation of a diagram ends. -/
structure Returned (p : Plan) (s : Domains) (r : Propagated) : Prop where
  stop : r.stop ≠ some .exhausted
  usable : (∀ e, r.stop = some e → e.isConflict = true) → r.diagram.Usable p
  dwindles : r.stop = none → s.Dwindles r.domains

theorem terminates_maintain (hp : p.Separate) {w : Workspace} (h : Ready p w) (lost : List Nat) :
    Terminates p (fun k _ => if p.options.isExact then maintainExact p lost else maintainRelaxed p k lost)
      (fun _ w' => Spends w w') w := by
  split_ifs
  · exact .of_wp (wp_maintainExact_filed hp.distinct lost h)
  · exact terminates_maintainRelaxed hp.readsNoCombined hp.distinct hp.valid lost h

theorem finishes_propagate (hp : p.Separate) (hd : d.Usable p) (lost : List Nat) (s : Domains) :
    ∃ r, Finishes (·.stop = some .exhausted) (fun k _ => d.propagate p k lost s) r ∧ Returned p s r := by
  obtain ⟨x, hx, hwp⟩ := terminates_maintain hp (hd.ready s) lost
  let result : EStateM.Result Stop Workspace PUnit → Propagated := fun r =>
    match r with
    | .ok _ w => ⟨none, w.toDiagram, w.domains, w.counters, w.changes.reverse⟩
    | .error stop w => ⟨some stop, w.toDiagram, w.domains, w.counters, w.changes.reverse⟩
  have hfin : Finishes (·.stop = some .exhausted) (fun k _ => d.propagate p k lost s)
      (result (x (d.workspace p s))) :=
    hx.bind (g := fun _ _ r => result r) (.const _ _) (by rintro _ _ _ ⟨w', rfl⟩; rfl)
  refine ⟨_, hfin, ?_⟩
  unfold wp at hwp
  split at hwp
  · rename_i w' e
    rw [e]
    exact ⟨nofun, fun _ => usable_of_census hwp.1.toCensus hwp.1.built, fun _ => hwp.2.dwindles⟩
  · rename_i stop w' e
    rw [e]
    refine ⟨fun h => hwp.1 (Option.some.inj h), fun h => ?_, nofun⟩
    obtain ⟨hc, hb⟩ := hwp.2 (h stop rfl)
    exact usable_of_census hc hb

end Diagram

namespace Solver

/-- The states in which a solver can be: diagrams are enrolled while no checkpoint is open, and propagations
may take any allowance, but must not have been given up or stopped by a rule which cannot go on. Nothing is
asked about conflicts: they need not be followed by a way back. -/
inductive InUse : Solver → Prop
  | start : InUse {}
  | addVariable {s t d x} (use : InUse s) (added : s.addVariable d = .ok (x, t)) : InUse t
  | enrol {s p} (use : InUse s) (separate : p.Separate) (admits : s.Admits p) : InUse (s.enrol p)
  | restrict {s t x keep} (use : InUse s) (restricted : s.restrict x (·.restrict? x keep) = .ok t) : InUse t
  | propagate {s fuel} (use : InUse s)
    (ended : ∀ f, (s.propagateWithin fuel).1 = some f → f.isConflict = true) :
    InUse (s.propagateWithin fuel).2
  | openCheckpoint {s} (use : InUse s) : InUse s.openCheckpoint
  | backtrack {s t target} (use : InUse s) (back : s.backtrack? target = some t) : InUse t

variable {s t : Solver} {i : Nat}

/-- The diagrams of a world can be used by the plans of the solver. -/
structure Holds (s : Solver) (w : World) : Prop where
  size : w.diagrams.size = s.entries.size
  usable : ∀ i p d, s.planAt i = some p → w.diagrams[i]? = some d → d.Usable p

/-- What is known of a solver whatever was done with it. -/
structure Sane (s : Solver) : Prop where
  plans : ∀ i p, s.planAt i = some p → p.Separate
  current : s.Holds s.world
  kept : ∀ w ∈ s.history.kept, s.Holds w
  going : s.rootFailure ≠ some .exhausted

theorem Holds.congr {w w' : World} (h : s.Holds w) (hs : t.entries.size = s.entries.size)
    (hp : ∀ i, t.planAt i = s.planAt i) (hd : w'.diagrams = w.diagrams) : t.Holds w' :=
  ⟨by rw [hd, hs]; exact h.size, fun i p d hi he => h.usable i p d (hp i ▸ hi) (hd ▸ he)⟩

theorem Sane.congr (h : s.Sane) (hs : t.entries.size = s.entries.size) (hp : ∀ i, t.planAt i = s.planAt i)
    (hd : t.world.diagrams = s.world.diagrams) (hk : t.history.kept = s.history.kept)
    (hf : t.rootFailure ≠ some .exhausted) : t.Sane where
  plans i p hi := h.plans i p (hp i ▸ hi)
  current := h.current.congr hs hp hd
  kept w hw := (h.kept w (hk ▸ hw)).congr hs hp rfl
  going := hf

theorem Sane.announce (h : s.Sane) : s.announce.Sane := by
  have hin := informs_announce s
  exact h.congr hin.size hin.plan (diagrams_announce s) (kept_announce s) (hin.rootFailure ▸ h.going)

theorem Sane.called {p : Plan} {r : Propagated} (h : s.Sane) (hp : s.planAt i = some p)
    (hr : r.diagram.Usable p) (hc : Called s t i r) : t.Sane where
  plans j q hj := h.plans j q (hc.plan j ▸ hj)
  current := by
    refine ⟨?_, fun j q d hj hd => ?_⟩
    · rw [hc.diagrams, Array.size_setIfInBounds, hc.size]
      exact h.current.size
    · rw [hc.diagrams, Array.getElem?_setIfInBounds] at hd
      rw [hc.plan] at hj
      split_ifs at hd with e hlt
      · subst e
        obtain rfl := Option.some.inj (hp.symm.trans hj)
        obtain rfl := Option.some.inj hd
        exact hr
      · exact h.current.usable j q d hj hd
  kept w hw := (h.kept w (hc.kept ▸ hw)).congr hc.size hc.plan rfl
  going := hc.rootFailure ▸ h.going

/-- How a call or a propagation ends. -/
structure Concludes (r : Option Failure × Solver) : Prop where
  stop : r.1 ≠ some .exhausted
  sane : (∀ f, r.1 = some f → f.isConflict = true) → r.2.Sane

/-- A call which succeeds leaves the queue alone and changes no domain or takes a value from one. -/
theorem Sane.finishes_call (h : s.Sane) (i : Nat) :
    ∃ r, Finishes (·.1 = some .exhausted) (fun k _ => s.callDiagram k i) r ∧ Concludes r ∧
      (r.1 = none → r.2.queue = s.queue ∧ s.domains.Dwindles r.2.domains) := by
  cases he : s.entries[i]? with
  | none =>
    have e : ∀ k, s.callDiagram k i = (none, s) := fun k => by
      unfold callDiagram
      rw [he]
    simp only [e]
    exact ⟨_, .const _ _, ⟨nofun, fun _ => h⟩, fun _ => ⟨rfl, .refl _⟩⟩
  | some e =>
    have hi := (Array.getElem?_eq_some_iff.1 he).1
    have hi' : i < s.world.diagrams.size := Nat.lt_of_lt_of_eq hi h.current.size.symm
    obtain ⟨d, hd⟩ : ∃ d, s.world.diagrams[i]? = some d := ⟨_, Array.getElem?_eq_getElem hi'⟩
    have hp : s.planAt i = some e.plan := by
      unfold planAt
      rw [he]
      rfl
    obtain ⟨r, hfin, hr⟩ := Diagram.finishes_propagate (h.plans i _ hp) (h.current.usable i _ d hp hd)
      (s.lostAt i) s.domains
    let answered : Propagated → Option Failure × Solver := fun r =>
      (r.stop.map (Failure.ofStop i),
        { s with
          history := s.history.modify fun w =>
            { domains := r.domains, diagrams := w.diagrams.setIfInBounds i r.diagram }
          entries := s.entries.setIfInBounds i { e with lost := [], last := r.counters, total := e.total.add r.counters }
          counters := { s.counters with propagatorCalls := s.counters.propagatorCalls + 1 } })
    have hcall : ∀ k, s.callDiagram k i = answered (d.propagate e.plan k (s.lostAt i) s.domains) := fun k => by
      have hl : s.lostAt i = e.lost := by
        unfold lostAt
        rw [he]
        rfl
      unfold callDiagram
      rw [he, hd, hl]
    have hcalled : Called s (answered r).2 i r := by
      obtain ⟨N, hN⟩ := hfin.always
      have := (called_callDiagram hp hd N).2
      rwa [hcall, hN N le_rfl N le_rfl] at this
    simp only [hcall]
    refine ⟨answered r, hfin.bind (g := fun _ _ r => answered r) (.const _ _) ?_, ⟨fun hstop => ?_,
      fun hf => h.called hp (hr.usable fun e' he' => ?_) hcalled⟩, fun hnone => ⟨hcalled.queue, ?_⟩⟩
    · intro _ _ x hx
      show x.stop.map _ = _
      rw [hx]
      rfl
    · obtain ⟨e', he', hx⟩ := Option.map_eq_some_iff.1 hstop
      refine hr.stop (he'.trans ?_)
      cases e' <;> simp_all [Failure.ofStop]
    · rw [← Failure.isConflict_ofStop i]
      exact hf _ (by show r.stop.map _ = _; rw [he']; rfl)
    · rw [hcalled.domains]
      exact hr.dwindles (Option.map_eq_none_iff.1 hnone)

/-- Without a change there is nothing to tell. -/
theorem queue_announce (h : s.domains.changed = #[]) : s.announce.queue = s.queue := by
  unfold announce
  rw [h]
  rfl

/-- The queue goes on after a call, unless the call failed. -/
def afterCall (k j : Nat) : Option Failure × Solver → Option Failure × Solver
  | (none, t) => drain k j t.announce
  | failed => failed

/-- What a propagation leaves behind when the queue is done. -/
def afterDrain : Option Failure × Solver → Option Failure × Solver
  | (none, t) => (none, t)
  | (some f, t) =>
    (some f,
      { t with
        queue := []
        rootFailure := if t.level = 0 then some f else none
        counters := { t.counters with conflicts := t.counters.conflicts + 1 } })

theorem Sane.finishes_drain (h : s.Sane) (hs : s.domains.changed = #[]) :
    ∃ r, Finishes (·.1 = some .exhausted) (fun k j => drain k j s) r ∧ Concludes r := by
  induction hμ : (toLex (s.domains.total, s.queue.length) : Nat ×ₗ Nat)
    using WellFoundedLT.induction generalizing s with
  | ind μ ih =>
  subst hμ
  cases hq : s.queue with
  | nil =>
    refine ⟨(none, s), .step (fun _ => rfl) ?_, by simp, fun _ => h⟩
    have e : ∀ k j, drain k (j + 1) s = (none, s) := fun k j => by
      unfold drain
      rw [hq]
    simp only [e]
    exact .const _ _
  | cons i rest =>
    have hd : (s.dequeue rest).Sane := h.congr rfl (fun _ => rfl) rfl rfl h.going
    obtain ⟨r, hfin, hr, hok⟩ := hd.finishes_call i
    have e : ∀ k j, drain k (j + 1) s = afterCall k j ((s.dequeue rest).callDiagram k i) := fun k j => by
      conv_lhs => unfold drain
      rw [hq]
      rfl
    have stops : ∀ k j (x : Option Failure × Solver), x.1 = some .exhausted →
        (afterCall k j x).1 = some .exhausted := by
      rintro k j ⟨f, t⟩ rfl
      rfl
    obtain ⟨f, t⟩ := r
    cases f with
    | some f =>
      refine ⟨(some f, t), .step (fun _ => rfl) ?_, hr⟩
      simp only [e]
      exact hfin.bind (.const _ _) stops
    | none =>
      obtain ⟨hqt, hdw⟩ := hok rfl
      have ht : t.Sane := hr.sane (by simp)
      have hdom := domains_announce t
      obtain ⟨r, hfin', hr'⟩ := ih (toLex (t.announce.domains.total, t.announce.queue.length)) (by
        rw [hdom]
        rcases hdw with hsame | hlt
        · have hs' : t.domains.changed = #[] := by rw [hsame]; exact hs
          refine Prod.Lex.toLex_lt_toLex.2 (Or.inr ⟨(congrArg Domains.total hsame :), ?_⟩)
          rw [queue_announce hs', hqt, hq]
          exact Nat.lt_succ_self _
        · exact Prod.Lex.toLex_lt_toLex.2 (Or.inl hlt)) ht.announce (by rw [hdom]; rfl) rfl
      refine ⟨r, .step (fun _ => rfl) ?_, hr'⟩
      simp only [e]
      exact hfin.bind hfin' stops

theorem Sane.finishes_propagateWithin (h : s.Sane) :
    ∃ r, Finishes (·.1 = some .exhausted) (fun k _ => s.propagateWithin k) r ∧ Concludes r := by
  cases hf : s.rootFailure with
  | some f =>
    have e : ∀ k, s.propagateWithin k = (some f, s) := fun k => by
      unfold propagateWithin
      rw [hf]
    simp only [e]
    exact ⟨_, .const _ _, fun h' => h.going (hf.trans h'), fun _ => h⟩
  | none =>
    obtain ⟨r, hfin, hr⟩ := h.announce.finishes_drain (by rw [domains_announce]; rfl)
    have e : ∀ k, s.propagateWithin k = afterDrain (drain k k s.announce) := fun k => by
      unfold propagateWithin
      rw [hf]
      rfl
    simp only [e]
    refine ⟨afterDrain r, hfin.diagonal.bind (g := fun _ _ r => afterDrain r) (.const _ _) ?_, ?_⟩
    · rintro _ _ ⟨f, t⟩ rfl
      rfl
    · obtain ⟨f, t⟩ := r
      cases f with
      | none => exact hr
      | some f =>
        refine ⟨hr.stop, fun hc => ?_⟩
        refine (hr.sane hc).congr rfl (fun _ => rfl) rfl rfl ?_
        show (if t.level = 0 then some f else none) ≠ some .exhausted
        split_ifs
        · exact hr.stop
        · simp

theorem Sane.setDomains (h : s.Sane) (d : Domains) : (s.setDomains d).Sane :=
  h.congr rfl (fun _ => rfl) rfl rfl h.going

theorem Sane.enrol {p : Plan} (h : s.Sane) (hp : p.Separate) (ha : s.Admits p) : (s.enrol p).Sane := by
  have plan : ∀ j q, (s.enrol p).planAt j = some q →
      j = s.entries.size ∧ q = p ∨ s.planAt j = some q := by
    intro j q hj
    unfold planAt Solver.enrol at hj
    rw [Array.getElem?_push] at hj
    split_ifs at hj with e
    · exact Or.inl ⟨e, (Option.some.inj hj).symm⟩
    · exact Or.inr hj
  refine ⟨fun j q hj => ?_, ⟨?_, fun j q d hj hd => ?_⟩, fun w hw => ?_, h.going⟩
  · rcases plan j q hj with ⟨-, rfl⟩ | hj
    · exact hp
    · exact h.plans j q hj
  · show (s.world.diagrams.push _).size = (s.entries.push _).size
    rw [Array.size_push, Array.size_push, h.current.size]
  · change (s.world.diagrams.push (Diagram.initial p.model))[j]? = some d at hd
    rw [Array.getElem?_push, h.current.size] at hd
    rcases plan j q hj with ⟨rfl, rfl⟩ | hj
    · rw [if_pos rfl] at hd
      exact Or.inl (Option.some.inj hd).symm
    · have hlt : j < s.entries.size := by
        obtain ⟨e, he, -⟩ := Option.map_eq_some_iff.1 hj
        exact (Array.getElem?_eq_some_iff.1 he).1
      rw [if_neg (Nat.ne_of_lt hlt)] at hd
      exact h.current.usable j q d hj hd
  · have hk : s.history.kept = [] := List.length_eq_zero_iff.1 ha.level
    change w ∈ s.history.kept at hw
    rw [hk] at hw
    cases hw

theorem Sane.backtrack {target : Nat} (h : s.Sane) (back : s.backtrack? target = some t) : t.Sane := by
  unfold backtrack? at back
  split_ifs at back with hlt
  obtain rfl := Option.some.inj back
  obtain ⟨hcur, hkept⟩ := History.backtrack_forall₂ (R := fun v _ => s.Holds v)
    (List.forall₂_same.2 h.kept) hlt
  have plan : ∀ i, (((s.entries.map fun e => { e with lost := [] })[i]?).map (·.plan)) = s.planAt i :=
    fun i => by
      unfold planAt
      rw [Array.getElem?_map, Option.map_map]
      rfl
  refine ⟨fun i p hi => h.plans i p (plan i ▸ hi), hcur.congr Array.size_map plan rfl,
    fun w hw => ?_, h.going⟩
  exact ((List.forall₂_same.1 hkept) w hw).congr Array.size_map plan rfl

theorem InUse.sane (h : InUse s) : s.Sane := by
  induction h with
  | start =>
    have nothing : ∀ i p, ({} : Solver).planAt i ≠ some p := fun i p h => by
      unfold planAt at h
      simp at h
    exact ⟨fun i p hi => absurd hi (nothing i p), ⟨rfl, fun i p d hi => absurd hi (nothing i p)⟩,
      fun w hw => absurd hw List.not_mem_nil, by simp⟩
  | @addVariable s t d x _ added ih =>
    unfold Solver.addVariable at added
    split_ifs at added
    cases d with
    | none => cases added
    | some d =>
      obtain ⟨-, rfl⟩ := Prod.mk.inj (Except.ok.inj added)
      exact ih.setDomains _
  | enrol _ separate admits ih => exact ih.enrol separate admits
  | @restrict s t x keep _ restricted ih =>
    unfold Solver.restrict at restricted
    split_ifs at restricted
    split at restricted
    · obtain rfl := Except.ok.inj restricted
      exact ih.setDomains _
    · cases restricted
  | @propagate s fuel _ ended ih =>
    obtain ⟨r, hfin, hr⟩ := ih.finishes_propagateWithin
    rcases hfin.same fuel 0 with e | e
    · change s.propagateWithin fuel = r at e
      rw [e] at ended ⊢
      exact hr.sane ended
    · cases ended _ e
  | @openCheckpoint s _ ih =>
    have holds : ∀ {w}, s.Holds w → s.openCheckpoint.Holds w := fun h => h.congr rfl (fun _ => rfl) rfl
    refine ⟨ih.plans, holds ih.current, fun w hw => ?_, ih.going⟩
    rcases List.mem_cons.1 hw with rfl | hw
    · exact holds ih.current
    · exact holds (ih.kept w hw)
  | backtrack _ back ih => exact ih.backtrack back

/-- Propagation ends: from some allowance on it has one and the same result, which is not that it was given
up, and under a smaller allowance it has this result too or is given up. -/
theorem InUse.propagate_finishes (h : InUse s) :
    ∃ r : Option Failure × Solver, r.1 ≠ some .exhausted ∧
      (∃ enough, ∀ fuel ≥ enough, s.propagateWithin fuel = r) ∧
      ∀ fuel, s.propagateWithin fuel = r ∨ (s.propagateWithin fuel).1 = some .exhausted := by
  obtain ⟨r, hfin, hr⟩ := h.sane.finishes_propagateWithin
  obtain ⟨N, hN⟩ := hfin.always
  exact ⟨r, hr.stop, ⟨N, fun fuel hf => hN fuel hf fuel hf⟩, fun fuel => hfin.same fuel 0⟩

end Solver

/-! Two diagrams of width one over the same two variables, which have to differ and then to differ again. -/
namespace Alternating

def narrow : Plan := { model := spec.toModel, options := Options.relaxed 1 }

theorem plans_narrow : spec.Plans narrow := ⟨plans.registered, plans.compiled, rfl⟩

theorem separate_narrow : narrow.Separate := by
  refine ⟨spec, ⟨plans.registered, plans.compiled, rfl⟩, fun side => ?_⟩
  cases side <;> decide +kernel

end Alternating

namespace Solver

theorem InUse.propagate_finishes_alternating :
    ∃ r : Option Failure × Solver, r.1 ≠ some .exhausted ∧
      (∃ enough, ∀ fuel ≥ enough,
        ((Alternating.started.enrol Alternating.narrow).enrol Alternating.narrow).propagateWithin fuel = r) ∧
      ∀ fuel,
        ((Alternating.started.enrol Alternating.narrow).enrol Alternating.narrow).propagateWithin fuel = r ∨
        (((Alternating.started.enrol Alternating.narrow).enrol Alternating.narrow).propagateWithin fuel).1 =
          some .exhausted := by
  have h₁ : ({} : Solver).addVariable (some Alternating.domain) = .ok (0, Alternating.first) := rfl
  have h₂ : Alternating.first.addVariable (some Alternating.domain) = .ok (1, Alternating.started) := rfl
  have admits : Alternating.started.Admits Alternating.narrow := ⟨rfl, rfl, by decide +kernel⟩
  have admits' : (Alternating.started.enrol Alternating.narrow).Admits Alternating.narrow :=
    ⟨rfl, rfl, by decide +kernel⟩
  exact InUse.propagate_finishes ((((InUse.start.addVariable h₁).addVariable h₂).enrol
    Alternating.separate_narrow admits).enrol Alternating.separate_narrow admits')

end Solver

end DecisionDiagrams
