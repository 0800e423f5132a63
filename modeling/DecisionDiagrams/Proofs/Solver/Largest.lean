import DecisionDiagrams.Proofs.Constraint.Tame
import DecisionDiagrams.Proofs.Solver.Solutions
import DecisionDiagrams.Proofs.Solver.Termination
import Mathlib.Order.Bounds.Defs

/-! Library constraints in exact diagrams of their own. Propagation then ends with the largest sub-domains in
which every value is part of a solution of each constraint, or with a conflict if there are none, in whatever
order the constraints were posted and the waiting diagrams are called. -/

namespace DecisionDiagrams

open Work

/-- The values of every variable. -/
def Domains.sets (s : Domains) (x : Var) : Set Int := {v | s.contains x v = true}

/-- Every value of a variable of a constraint is part of an assignment which satisfies the constraint. -/
def Extendable (cs : List Constraint) (T : Var → Set Int) : Prop :=
  ∀ c ∈ cs, ∀ x ∈ c.scope, ∀ v ∈ T x, ∃ σ : Var → Int,
    σ x = v ∧ (∀ y ∈ c.scope, σ y ∈ T y) ∧ c.Holds c.scope σ

theorem Extendable.mono {cs ds : List Constraint} {T : Var → Set Int} (h : Extendable cs T) (hds : ds ⊆ cs) :
    Extendable ds T := fun c hc => h c (hds hc)

/-- Sub-domains of the domains which are extendable for the constraints. -/
structure Closed (cs : List Constraint) (s : Domains) (T : Var → Set Int) : Prop where
  within : ∀ x, T x ⊆ s.sets x
  nonempty : ∀ x < s.size, (T x).Nonempty
  extend : Extendable cs T

/-- What the domains do not have can be left out beyond their size. -/
theorem Extendable.closed {cs : List Constraint} {s : Domains} {T : Var → Set Int} (h : Extendable cs T)
    (known : ∀ c ∈ cs, ∀ x ∈ c.scope, x < s.size) (nonempty : ∀ x < s.size, (T x).Nonempty)
    (within : ∀ x < s.size, T x ⊆ s.sets x) : Closed cs s fun x => T x ∩ s.sets x := by
  refine ⟨fun x v hv => hv.2, fun x hx => ?_, fun c hc x hx v hv => ?_⟩
  · obtain ⟨v, hv⟩ := nonempty x hx
    exact ⟨v, hv, within x hx hv⟩
  · obtain ⟨σ, hσ, hin, hholds⟩ := h c hc x hx v hv.1
    exact ⟨σ, hσ, fun y hy => ⟨hin y hy, within y (known c hc y hy) (hin y hy)⟩, hholds⟩

namespace Closed

variable {cs : List Constraint} {s t : Domains} {T : Var → Set Int}

/-- The assignment can be chosen for all variables, and then every value of every variable is part of one. -/
theorem exists_assignment (h : Closed cs s T) {c : Constraint} (hc : c ∈ cs) (hne : c.scope ≠ [])
    (known : ∀ y ∈ c.scope, y < s.size) {x : Var} {v : Int} (hv : v ∈ T x) :
    ∃ σ : Var → Int, σ x = v ∧ Within σ s ∧ c.Holds c.scope σ := by
  have some_value : ∀ y, ∃ u, y < s.size → u ∈ T y := fun y => by
    by_cases hy : y < s.size
    · obtain ⟨u, hu⟩ := h.nonempty y hy
      exact ⟨u, fun _ => hu⟩
    · exact ⟨0, fun h => absurd h hy⟩
  choose τ hτ using some_value
  obtain ⟨σ, hx, hσ, hholds⟩ : ∃ σ : Var → Int, (x ∈ c.scope → σ x = v) ∧ (∀ y ∈ c.scope, σ y ∈ T y) ∧
      c.Holds c.scope σ := by
    by_cases hx : x ∈ c.scope
    · obtain ⟨σ, hσ⟩ := h.extend c hc x hx v hv
      exact ⟨σ, fun _ => hσ.1, hσ.2⟩
    · obtain ⟨y, hy⟩ := List.exists_mem_of_ne_nil _ hne
      obtain ⟨σ, hσ⟩ := h.extend c hc y hy (τ y) (hτ y (known y hy))
      exact ⟨σ, fun h => absurd h hx, hσ.2⟩
  refine ⟨fun y => if y ∈ c.scope then σ y else Function.update τ x v y, ?_, fun y hy => ?_, ?_⟩
  · dsimp only
    split_ifs with hmem
    · exact hx hmem
    · exact Function.update_self x v τ
  · refine h.within y (?_ : _ ∈ T y)
    dsimp only
    split_ifs with hmem
    · exact hσ y hmem
    · by_cases e : y = x
      · subst e
        rwa [Function.update_self]
      · rw [Function.update_of_ne e]
        exact hτ y hy
  · exact Constraint.holds_congr (fun y hy => (if_pos hy).symm) hholds

/-- Closed sub-domains which are domains themselves are over the same variables. -/
theorem size_eq (h : Closed cs s t.sets) : t.size = s.size := by
  refine Nat.le_antisymm ?_ ?_
  · by_contra hlt
    obtain ⟨v, hv⟩ := Domains.exists_contains (Nat.not_le.1 hlt)
    exact Nat.lt_irrefl _ (Domains.lt_of_contains (h.within _ hv))
  · by_contra hlt
    obtain ⟨v, hv⟩ := h.nonempty _ (Nat.not_le.1 hlt)
    exact Nat.lt_irrefl _ (Domains.lt_of_contains hv)

end Closed

/-- Each library constraint gets an exact diagram of its own. Checkpoints are only opened when no change waits
to be told. -/
def Rules.single : Rules Constraint where
  plan s c p := p.options.maxWidth = none ∧
    (c.InLibrary s.domains ∧ c.registrable s.domains = true ∧ c.malformed? = none) ∧
    (Spec.ofConstraints s.domains [c]).compile = .ok p.model
  opens s := s.domains.changed = #[]

namespace Rules.single

variable {s : Solver} {c : Constraint} {p : Plan}

theorem library (h : Rules.single.plan s c p) : ∀ b ∈ [c], b.InLibrary s.domains ∧
    b.registrable s.domains = true ∧ b.malformed? = none := fun b hb => by
  obtain rfl := List.mem_singleton.1 hb
  exact h.2.1

theorem isExact (h : Rules.single.plan s c p) : p.options.isExact = true := by
  unfold Options.isExact
  rw [h.1]
  rfl

theorem isValid (h : Rules.single.plan s c p) : p.options.isValid = true := by
  unfold Options.isValid
  rw [h.1]
  rfl

theorem plans (h : Rules.single.plan s c p) : (Spec.ofConstraints s.domains [c]).Plans p :=
  ⟨(Spec.tame_ofConstraint h.2.1.1.ruled).registered, h.2.2, isValid h⟩

theorem separate (h : Rules.single.plan s c p) : p.Separate := by
  refine ⟨_, plans h, fun side q hq _ r hr => ?_⟩
  have ht : (Spec.ofConstraints s.domains [c]).Tame := Spec.tame_ofConstraint h.2.1.1.ruled
  cases side with
  | down =>
    rw [(ht.plain .down q (Array.mem_toList_iff.1 hq)).1] at hr
    cases hr
  | up =>
    rw [(ht.plain .up q (Array.mem_toList_iff.1 hq)).1] at hr
    cases hr
  | combined =>
    change q ∈ (Spec.ofConstraints s.domains [c]).properties.combined.toList at hq
    rw [ht.combined] at hq
    cases hq

theorem answers (h : Rules.single.plan s c p) : p.model.Answers :=
  Spec.answers_ofConstraint ⟨h.2.1.1.ruled, h.2.1.2⟩ h.2.2

theorem nodeChecks (h : Rules.single.plan s c p) : p.model.nodeChecks = [] := by
  obtain ⟨hcheck, e⟩ := Spec.compile_eq_ok.1 h.2.2
  rw [← e]
  refine ((Spec.local_of_ruled fun b hb => ?_).plain hcheck).nodeChecks
  exact ⟨(library h b hb).1.ruled, (library h b hb).2⟩

theorem layers (h : Rules.single.plan s c p) :
    p.model.branchVars.toList = c.scope ∧ c.scope.Nodup ∧ c.scope ≠ [] :=
  Spec.branchVars_ofConstraint h.2.1.1.ruled h.2.2

end Rules.single

/-- The assignment satisfies the constraint, whose variables are in the order of the layers. -/
def Constraint.Satisfied (c : Constraint) (σ : Var → Int) : Prop := c.Holds c.scope σ

theorem Rules.single_sustains : Rules.single.Upholds Constraint.Satisfied Certified Sustains := by
  refine Sustains.upheld (fun s c p h => ⟨(Rules.single.plans h).distinct, Rules.single.isValid h⟩)
    fun {c p s σ} hmade hσ hholds => ?_
  obtain ⟨r, hp, -, hu⟩ := hmade
  refine Spec.certificate_of_holds (Rules.single.library hp) hp.2.2 (fun x hx => ?_) fun b hb => ?_
  · exact hu.contains x hx _ (hσ x (Nat.lt_of_lt_of_le hx hu.size))
  · obtain rfl := List.mem_singleton.1 hb
    rw [(Rules.single.layers hp).1]
    exact hholds

theorem Rules.single_enumerates :
    Rules.single.Upholds (fun _ _ => False) (fun _ _ => False) Enumerates :=
  Enumerates.upheld fun _ _ _ h => ⟨(Rules.single.plans h).distinct, Rules.single.isValid h⟩

/-- A plan which was made for a constraint is over known variables. -/
theorem Rules.single.known {c : Constraint} {p : Plan} {s : Domains} (h : Rules.single.Made c p s) :
    ∀ x ∈ c.scope, x < s.size ∧ ∃ l < p.model.depth, p.model.var l = x := by
  obtain ⟨r, hp, hk, hu⟩ := h
  intro x hx
  rw [← (Rules.single.layers hp).1] at hx
  obtain ⟨l, hl, rfl⟩ := List.getElem_of_mem hx
  have hl' : l < p.model.branchVars.size := hl
  have e : p.model.var l = p.model.branchVars.toList[l] := by simp [Model.var, hl']
  rw [← e]
  exact ⟨Nat.lt_of_lt_of_le (hk l hl') hu.size, l, hl', rfl⟩

/-- No rule stops the propagation of an exact diagram whose rules give a result. -/
theorem Diagram.propagate_unfailing {p : Plan} (he : p.options.isExact = true) (hm : p.model.Answers)
    (d : Diagram) (fuel : Nat) (lost : List Nat) (s : Domains) (f : Fault) :
    (d.propagate p fuel lost s).stop ≠ some (.fault f) := by
  have hwp : Work.wp (if p.options.isExact then Work.maintainExact p lost
      else Work.maintainRelaxed p fuel lost) (fun _ _ => True) (fun e _ => ∀ f, e ≠ .fault f)
      (d.workspace p s) := by
    rw [if_pos he]
    exact unfailing_maintainExact hm lost _
  obtain ⟨-, -, -, -, herr⟩ := Diagram.propagate_of_wp hwp
  exact fun hf => herr _ hf f rfl

namespace Solver

/-- The propagation which began at `o` has come to `u`. The diagrams are those of the constraints `cs`. -/
structure Underway (cs : List Constraint) (o u : Solver) : Prop where
  sustains : Midway Rules.single.Fits Sustains (fun _ => False) o u
  enumerates : Midway Rules.single.Fits Enumerates (fun _ => False) o u
  made : ∀ i p, u.planAt i = some p → ∃ c ∈ cs, Rules.single.Made c p u.domains
  enrolled : ∀ c ∈ cs, ∃ i p, u.planAt i = some p ∧ Rules.single.Made c p u.domains

/-- One of the waiting diagrams is called with success, and the others are told what changed. -/
def Wakes (fuel : Nat) (s t : Solver) : Prop :=
  ∃ i rest u, s.queue.Perm (i :: rest) ∧ (s.dequeue rest).callDiagram fuel i = (none, u) ∧ t = u.announce

namespace Underway

variable {cs : List Constraint} {o u v : Solver} {i fuel : Nat} {rest : List Nat} {T : Var → Set Int}

/-- A value of closed sub-domains is part of an assignment in the domains which a diagram accepts. -/
theorem certified (h : Underway cs o u) (hT : Closed cs u.domains T) {x : Var} {w : Int} (hw : w ∈ T x)
    (i : Nat) : ∃ σ : Var → Int, σ x = w ∧ Within σ u.domains ∧
      ∀ p, u.planAt i = some p → Certified p σ := by
  cases hp : u.planAt i with
  | none =>
    obtain ⟨τ, hτ⟩ := Spec.exists_values u.domains
    refine ⟨Function.update τ x w, Function.update_self x w τ, fun y hy => ?_, fun q hq => nomatch hq⟩
    by_cases e : y = x
    · subst e
      rw [Function.update_self]
      exact hT.within y hw
    · rw [Function.update_of_ne e]
      exact hτ y hy
  | some p =>
    obtain ⟨c, hc, hm⟩ := h.made i p hp
    have hne : c.scope ≠ [] := by
      obtain ⟨r, hr, -⟩ := hm
      exact (Rules.single.layers hr).2.2
    obtain ⟨σ, hx, hin, hholds⟩ :=
      hT.exists_assignment hc hne (fun y hy => (Rules.single.known hm y hy).1) hw
    refine ⟨σ, hx, hin, fun q hq => ?_⟩
    obtain rfl := Option.some.inj hq
    exact Rules.single_sustains.accepted hm hin hholds

/-- A call which succeeds leaves closed sub-domains alone. -/
theorem wake (h : Underway cs o u) (hq : u.queue ⊆ i :: rest)
    (hc : (u.dequeue rest).callDiagram fuel i = (none, v)) :
    Underway cs o v.announce ∧ Progress u v.announce ∧
      ∀ T, Closed cs u.domains T → Closed cs v.announce.domains T := by
  obtain ⟨hs, hpr, hkeep⟩ := h.sustains.wake Rules.single_sustains.toUpheld hq hc
  obtain ⟨he, -, -⟩ := h.enumerates.wake Rules.single_enumerates.toUpheld hq hc
  have hu : Under u.domains v.announce.domains :=
    ⟨Nat.le_of_eq hpr.size.symm, fun x _ w hw => hpr.contains x w hw⟩
  refine ⟨⟨hs, he, fun j p hp => ?_, fun c hc => ?_⟩, hpr, fun T hT => ⟨fun x w hw => ?_, fun x hx => ?_,
    hT.extend⟩⟩
  · obtain ⟨c, hc, hm⟩ := h.made j p ((hpr.plan j).symm.trans hp)
    exact ⟨c, hc, hm.under hu⟩
  · obtain ⟨j, p, hp, hm⟩ := h.enrolled c hc
    exact ⟨j, p, (hpr.plan j).trans hp, hm.under hu⟩
  · obtain ⟨σ, rfl, hin, hcert⟩ := h.certified hT hw i
    have hx := Domains.lt_of_contains (hT.within x hw)
    exact hkeep σ hcert hin x (Nat.lt_of_lt_of_eq hx hpr.size.symm)
  · exact hT.nonempty x (Nat.lt_of_lt_of_eq hx hpr.size)

/-- A call which fails reports a conflict, and then there are no closed sub-domains. -/
theorem fails (h : Underway cs o u) {f : Failure}
    (hc : (u.dequeue rest).callDiagram fuel i = (some f, v)) :
    f.isConflict = true ∧ ∀ T, ¬ Closed cs u.domains T := by
  cases hp : u.planAt i with
  | none =>
    have hunknown := callDiagram_of_unknown (s := u.dequeue rest) hp fuel
    exact absurd (congrArg Prod.fst (hc.symm.trans hunknown)) nofun
  | some p =>
    obtain ⟨c, hcs, hm⟩ := h.made i p hp
    obtain ⟨r, hr, -⟩ := id hm
    obtain ⟨d, hd⟩ := diagram_of_planAt h.enumerates.kept.paired hp
    obtain ⟨hstop, -⟩ := called_callDiagram (s := u.dequeue rest) hp hd fuel
    rw [hc] at hstop
    obtain ⟨e, he, rfl⟩ := Option.map_eq_some_iff.1 hstop.symm
    have hconflict : (Failure.ofStop i e).isConflict = true := by
      rw [Failure.isConflict_ofStop]
      have hempties := (Enumerates.call (Rules.single.plans hr).distinct (Rules.single.isExact hr)
        (Rules.single.nodeChecks hr) ((h.enumerates.kept.stands i p d hp hd).imp id And.left) fuel
        (u.lostAt i)).1 e he
      rcases hempties with ⟨f, rfl⟩ | ⟨hconflict, -⟩
      · exact absurd he (Diagram.propagate_unfailing (Rules.single.isExact hr) (Rules.single.answers hr) d
          fuel _ _ f)
      · exact hconflict
    refine ⟨hconflict, fun T hT => ?_⟩
    obtain ⟨y, hy⟩ := List.exists_mem_of_ne_nil _ (Rules.single.layers hr).2.2
    obtain ⟨w, hw⟩ := hT.nonempty y (Rules.single.known hm y hy).1
    obtain ⟨σ, -, hin, hcert⟩ := h.certified hT hw i
    have hno := h.sustains.kept.failing Rules.single_sustains.toUpheld h.sustains.settled hc hcert hin
    rw [hconflict] at hno
    cases hno

/-- When no diagram waits, the domains are closed themselves. -/
theorem closed (h : Underway cs o u) (hq : u.queue = []) :
    Closed cs u.domains u.domains.sets := by
  refine ⟨fun _ => subset_rfl, fun x hx => Domains.exists_contains hx, fun c hc x hx v hv => ?_⟩
  obtain ⟨i, p, hp, hm⟩ := h.enrolled c hc
  obtain ⟨-, l, hl, rfl⟩ := Rules.single.known hm x hx
  obtain ⟨r, hr, hk, hu⟩ := hm
  obtain ⟨d, hd⟩ := diagram_of_planAt h.enumerates.kept.paired hp
  rcases h.enumerates.kept.stands i p d hp hd with ⟨-, hs⟩ | ⟨-, hwaits⟩
  · have current : ∀ k, ¬ u.staleAt (fun x => False ∧ ∀ v, u.domains.contains x v = o.domains.contains x v)
        i p k := by
      rintro k (hf | hl | hc)
      · exact hf.1
      · have := h.enumerates.kept.listed i (List.ne_nil_of_mem hl)
        rw [hq] at this
        cases this
      · rw [h.enumerates.settled] at hc
        exact Array.not_mem_empty _ hc
    have hrep := (hs.2 (Rules.single.isExact hr) (Rules.single.nodeChecks hr)).represents_tuples
      (hs.1.1.weaken fun k hk => current k hk) hs.1.2
    obtain ⟨vs, hvs, hlabel⟩ := (hrep.projection l hl v).1 hv
    obtain ⟨σ, hin, hσ, hholds⟩ := Spec.holds_of_tuple (Rules.single.library hr) hr.2.2
      (fun x hx => ⟨Nat.lt_of_lt_of_le hx hu.size, hu.contains x hx⟩) hvs
    rw [(Rules.single.layers hr).1] at hholds
    refine ⟨σ, Option.some.inj ((hσ l hl).symm.trans hlabel), fun y hy => hin y ?_,
      hholds c (List.mem_singleton.2 rfl)⟩
    exact (Rules.single.known ⟨r, hr, hk, hu⟩ y hy).1
  · rw [hq] at hwaits
    cases hwaits

/-- Whatever is called in whatever order, closed sub-domains are left alone. -/
theorem wakes (h : Underway cs o u) (hr : Relation.ReflTransGen (Wakes fuel) u v) :
    Underway cs o v ∧ Progress u v ∧ ∀ T, Closed cs u.domains T → Closed cs v.domains T := by
  induction hr with
  | refl => exact ⟨h, .refl u, fun _ hT => hT⟩
  | tail _ last ih =>
    obtain ⟨i, rest, t, hq, hc, rfl⟩ := last
    obtain ⟨ht, hpr, hT⟩ := ih
    obtain ⟨hv, hpr', hT'⟩ := ht.wake hq.subset hc
    exact ⟨hv, hpr.trans hpr', fun T h => hT' T (hT T h)⟩

end Underway

theorem wakes_of_rounds {fuel : Nat} {s t : Solver} (h : Rounds fuel s t) :
    Relation.ReflTransGen (Wakes fuel) s t := by
  refine Relation.ReflTransGen.mono (r := Round fuel) (fun _ _ hr => ?_) _ _ h
  obtain ⟨i, rest, u, hq, hc, e⟩ := hr
  exact ⟨i, rest, u, hq ▸ .refl _, hc, e⟩

/-- Sub-domains of the domains as they are now are sub-domains of those before. -/
theorem Progress.closed {cs : List Constraint} {s t : Solver} (h : Progress s t) {T : Var → Set Int}
    (hT : Closed cs t.domains T) : Closed cs s.domains T :=
  ⟨fun x _ hv => h.contains x _ (hT.within x hv),
    fun x hx => hT.nonempty x (Nat.lt_of_lt_of_eq hx h.size.symm), hT.extend⟩

theorem closed_announce {cs : List Constraint} {s : Solver} {T : Var → Set Int} (hT : Closed cs s.domains T) :
    Closed cs s.announce.domains T := by
  rw [domains_announce]
  exact ⟨hT.within, hT.nonempty, hT.extend⟩

/-- The result of a propagation: it is the same from some allowance on, and under a smaller one the
propagation has this result too or is given up. -/
structure Propagates (s : Solver) (r : Option Failure × Solver) : Prop where
  enough : ∃ enough, ∀ fuel ≥ enough, s.propagateWithin fuel = r
  same : ∀ fuel, s.propagateWithin fuel = r ∨ (s.propagateWithin fuel).1 = some .exhausted

theorem Propagates.unique {s : Solver} {r r' : Option Failure × Solver} (h : s.Propagates r)
    (h' : s.Propagates r') : r = r' := by
  obtain ⟨N, hN⟩ := h.enough
  obtain ⟨M, hM⟩ := h'.enough
  exact (hN _ (le_max_left N M)).symm.trans (hM _ (le_max_right N M))

/-- A result of a propagation is a conflict or the largest closed sub-domains, whatever the order of calls. -/
structure Largest (cs : List Constraint) (o : Solver) (r : Option Failure × Solver) : Prop where
  conflict : ∀ f, r.1 = some f → f.isConflict = true
  exists_iff : r.1 = none ↔ ∃ T, Closed cs o.domains T
  greatest : r.1 = none → IsGreatest {T | Closed cs o.domains T} r.2.domains.sets
  ends : ∀ fuel u, Relation.ReflTransGen (Wakes fuel) o.announce u → u.queue = [] →
    r.1 = none ∧ u.domains.sets = r.2.domains.sets
  fails : ∀ fuel u, Relation.ReflTransGen (Wakes fuel) o.announce u → ∀ i rest f v,
    u.queue.Perm (i :: rest) → (u.dequeue rest).callDiagram fuel i = (some f, v) → r.1 ≠ none

namespace Underway

variable {cs : List Constraint} {o u v : Solver} {i fuel : Nat} {rest : List Nat}

theorem isGreatest (h : Underway cs o.announce o.announce) (hr : Relation.ReflTransGen (Wakes fuel) o.announce u)
    (hq : u.queue = []) : IsGreatest {T | Closed cs o.domains T} u.domains.sets := by
  obtain ⟨hu, hpr, hT⟩ := h.wakes hr
  refine ⟨((progress_announce o).trans hpr).closed (hu.closed hq), fun T h x => ?_⟩
  exact (hT T (closed_announce h)).within x

theorem not_closed (h : Underway cs o.announce o.announce) (hr : Relation.ReflTransGen (Wakes fuel) o.announce u)
    {f : Failure} (hc : (u.dequeue rest).callDiagram fuel i = (some f, v)) :
    f.isConflict = true ∧ ∀ T, ¬ Closed cs o.domains T := by
  obtain ⟨hu, -, hT⟩ := h.wakes hr
  obtain ⟨hconflict, hno⟩ := hu.fails hc
  exact ⟨hconflict, fun T h => hno T (hT T (closed_announce h))⟩

theorem largest (h : Underway cs o.announce o.announce) (alive : o.rootFailure = none) (use : InUse o) :
    ∃ r, o.Propagates r ∧ Largest cs o r := by
  obtain ⟨r, hstop, enough, same⟩ := use.propagate_finishes
  refine ⟨r, ⟨enough, same⟩, ?_⟩
  obtain ⟨N, hN⟩ := enough
  obtain ⟨u, hdrain, hu, -⟩ := propagateWithin_eq alive (hN N le_rfl : o.propagateWithin N = (r.1, r.2))
  have hend := rounds_drain N N hdrain
  obtain ⟨f, t⟩ := r
  cases f with
  | none =>
    obtain rfl := hu rfl
    obtain ⟨hr, hq⟩ := hend
    have hg := h.isGreatest (wakes_of_rounds hr) hq
    refine ⟨nofun, iff_of_true rfl ⟨_, hg.1⟩, fun _ => hg, fun _ v hv hq' => ⟨rfl, ?_⟩,
      fun _ v hv i rest f w _ hc => ?_⟩
    · exact (h.isGreatest hv hq').unique hg
    · exact absurd hg.1 ((h.not_closed hv hc).2 _)
  | some f =>
    obtain ⟨v, i, rest, hr, hq, hc⟩ := hend.resolve_left fun e => hstop (congrArg some e)
    obtain ⟨hconflict, hno⟩ := h.not_closed (wakes_of_rounds hr) hc
    refine ⟨fun g hg => ?_, iff_of_false nofun fun ⟨T, hT⟩ => hno T hT, nofun, fun _ w hw hq' => ?_,
      fun _ _ _ _ _ _ _ _ _ => nofun⟩
    · obtain rfl := Option.some.inj hg
      exact hconflict
    · exact absurd (h.isGreatest hw hq').1 (hno _)

end Underway

end Solver

/-- The propagation which begins at `o` is asked for after the run, or is the one of a constraint which is
posted then; `posted` is what was posted. -/
def Story.Begins {β : Type} (R : Rules β) (h : Story β) (s o : Solver) (posted : List β) : Prop :=
  (o = s ∧ posted = h.posted) ∨
    ∃ b p, R.plan s b p ∧ s.Admits p ∧ o = s.enrol p ∧ posted = b :: h.posted

namespace Story.Begins

variable {β : Type} {R : Rules β} {h : Story β} {s o : Solver} {posted : List β}

theorem domains (begins : h.Begins R s o posted) : o.domains = s.domains := by
  rcases begins with ⟨rfl, -⟩ | ⟨b, p, -, -, rfl, -⟩ <;> rfl

theorem subset (begins : h.Begins R s o posted) : h.posted ⊆ posted := by
  rcases begins with ⟨-, rfl⟩ | ⟨b, p, -, -, -, rfl⟩
  · exact List.Subset.refl _
  · exact List.subset_cons_self _ _

theorem starts (begins : h.Begins R s o posted) : s.Starts R o := by
  rcases begins with ⟨rfl, -⟩ | ⟨b, p, hb, ha, rfl, -⟩
  · exact Or.inl rfl
  · exact Or.inr ⟨b, p, hb, ha, rfl⟩

/-- The diagrams are those of what was posted. -/
theorem made {solves : β → (Var → Int) → Prop} {P : Standing} (begins : h.Begins R s o posted)
    (c : Consistent R solves P h s) (calm : h.calm = true) :
    (∀ i p, o.planAt i = some p → ∃ b ∈ posted, R.Made b p o.domains) ∧
      ∀ b ∈ posted, ∃ i p, o.planAt i = some p ∧ R.Made b p o.domains := by
  rcases begins with ⟨rfl, rfl⟩ | ⟨b, p, hb, ha, rfl, rfl⟩
  · exact ⟨(c.current calm).made, (c.current calm).enrolled⟩
  · exact (c.enrol calm hb ha).2

end Story.Begins

namespace Run

variable {h : Story Constraint} {s o t : Solver} {cs : List Constraint}

theorem inUse (run : Run .single h s) : s.InUse := by
  have after : ∀ {s t : Solver} {r : Option Failure}, s.InUse → s.propagate = (r, t) →
      (∀ f, r = some f → f.isConflict = true) → t.InUse := by
    intro s t r use hs hr
    have ended := @Solver.InUse.propagate s Solver.allowance use
    rw [show s.propagateWithin Solver.allowance = (r, t) from hs] at ended
    exact ended hr
  induction run with
  | start => exact .start
  | addVariable _ _ added ih => exact ih.addVariable added
  | post _ _ plan posted ih =>
    obtain ⟨ha, hprop⟩ := Solver.addDiagram_ok posted
    exact after (ih.enrol (Rules.single.separate plan) ha) hprop nofun
  | restrict _ _ restricted ih => exact ih.restrict restricted
  | openCheckpoint _ _ _ ih => exact ih.openCheckpoint
  | backtrack _ back ih => exact ih.backtrack back
  | propagate _ _ done ih => exact after ih done nofun
  | conflict _ _ failed conflict ih =>
    refine after ih failed fun g hg => ?_
    obtain rfl := Option.some.inj hg
    exact conflict

theorem underway (run : Run .single h s) (calm : h.calm = true) (begins : h.Begins .single s o cs) :
    Solver.Underway cs o.announce o.announce ∧ o.rootFailure = none ∧ o.InUse := by
  have hP := Rules.single_sustains
  have starts := begins.starts
  obtain ⟨made, enrolled⟩ := begins.made (run.consistent hP) calm
  have use : o.InUse := by
    rcases begins with ⟨rfl, -⟩ | ⟨b, p, hb, ha, rfl, -⟩
    · exact run.inUse
    · exact run.inUse.enrol (Rules.single.separate hb) ha
  obtain ⟨kept, alive⟩ := run.kept_of_starts hP calm starts
  obtain ⟨kept', -⟩ := run.kept_of_starts Rules.single_enumerates calm starts
  have fresh := (run.nothing_forgotten hP fun _ h => h).1
  have same : (fun x => h.past.current.forgotten x ∧ x ∉ o.domains.changed) = fun _ => False :=
    funext fun x => propext (iff_false_intro fun hx => fresh x hx.1)
  have hmid := kept.midway hP.toUpheld
  have hmid' := kept'.midway Rules.single_enumerates.toUpheld
  rw [same] at hmid hmid'
  have hplan := (Solver.progress_announce o).plan
  have hu : Under o.domains o.announce.domains := by
    rw [Solver.domains_announce]
    exact ⟨Nat.le_refl _, fun _ _ _ hv => hv⟩
  refine ⟨⟨hmid, hmid', fun i p hp => ?_, fun b hb => ?_⟩, alive, use⟩
  · obtain ⟨b, hb, hm⟩ := made i p ((hplan i).symm.trans hp)
    exact ⟨b, hb, hm.under hu⟩
  · obtain ⟨i, p, hp, hm⟩ := enrolled b hb
    exact ⟨i, p, (hplan i).trans hp, hm.under hu⟩

/-- A propagation which succeeds leaves the largest closed sub-domains. -/
theorem isGreatest (run : Run .single h s) (calm : h.calm = true) (begins : h.Begins .single s o cs)
    (hs : o.propagate = (none, t)) : IsGreatest {T | Closed cs o.domains T} t.domains.sets := by
  obtain ⟨hu, alive, use⟩ := run.underway calm begins
  obtain ⟨r, hr, hlargest⟩ := hu.largest alive use
  rcases hr.same Solver.allowance with e | e
  · obtain rfl : (none, t) = r := hs.symm.trans e
    exact hlargest.greatest rfl
  · exact absurd ((congrArg Prod.fst hs).symm.trans e) nofun

theorem known (run : Run .single h s) (calm : h.calm = true) (begins : h.Begins .single s o cs) :
    ∀ c ∈ cs, ∀ x ∈ c.scope, x < s.domains.size := fun c hc x hx => by
  obtain ⟨hu, -, -⟩ := run.underway calm begins
  obtain ⟨i, p, -, hm⟩ := hu.enrolled c hc
  rw [← begins.domains, ← (Solver.progress_announce o).size]
  exact (Rules.single.known hm x hx).1

end Run

/-! ### What the user left -/

/-- The domains have no value which the user did not leave, and they have every value of
extendable sub-domains which the user left. -/
structure Trimmed (cs : List Constraint) (m : Memory) (s : Domains) : Prop where
  left : ∀ x < s.size, ∀ v ∈ s.sets x, m.own x v
  keeps : ∀ T, Extendable cs T → (∀ x < s.size, (T x).Nonempty) →
    (∀ x < s.size, ∀ v ∈ T x, m.own x v) → ∀ x < s.size, T x ⊆ s.sets x

namespace Trimmed

variable {cs ds : List Constraint} {m n : Memory} {s t : Domains}

theorem congr (h : Trimmed cs m s) (hown : n.own = m.own) (hsets : t.sets = s.sets) (hsize : t.size = s.size) :
    Trimmed cs n t := by
  refine ⟨fun x hx v hv => ?_, fun T hT hne hleft x hx => ?_⟩
  · rw [hown]
    exact h.left x (hsize ▸ hx) v (hsets ▸ hv)
  · rw [hsets]
    rw [hsize] at hne hleft hx
    rw [hown] at hleft
    exact h.keeps T hT hne hleft x hx

theorem addVariable (h : Trimmed cs m s) (d : Domain) :
    Trimmed cs { m with own := fun y v => if y = s.size then v ∈ d else m.own y v } (s.add d) := by
  have old : ∀ {x : Var}, x < s.size → x ≠ s.size ∧ (s.add d).sets x = s.sets x := fun hx =>
    ⟨Nat.ne_of_lt hx, Set.ext fun v => Eq.congr_left (Domains.contains_add hx d v)⟩
  refine ⟨fun x hx v hv => ?_, fun T hT hne hleft x hx => ?_⟩
  · rw [Domains.size_add] at hx
    dsimp only
    rcases Nat.lt_succ_iff_lt_or_eq.1 hx with hlt | rfl
    · rw [if_neg (old hlt).1]
      exact h.left x hlt v ((old hlt).2 ▸ hv)
    · rw [if_pos rfl]
      exact (Domains.contains_add_self d v).1 hv
  · rw [Domains.size_add] at hne hleft hx
    rcases Nat.lt_succ_iff_lt_or_eq.1 hx with hlt | rfl
    · rw [(old hlt).2]
      refine h.keeps T hT (fun y hy => hne y (Nat.lt_succ_of_lt hy)) (fun y hy v hv => ?_) x hlt
      have hown := hleft y (Nat.lt_succ_of_lt hy) v hv
      dsimp only at hown
      rwa [if_neg (old hy).1] at hown
    · intro v hv
      have hown := hleft _ hx v hv
      dsimp only at hown
      rw [if_pos rfl] at hown
      exact (Domains.contains_add_self d v).2 hown

theorem restrict (h : Trimmed cs m s) {x : Var} {keep : Int → Bool} {b : Bool}
    (ht : s.restrict? x keep = some (b, t)) :
    Trimmed cs { m with own := fun y v => m.own y v ∧ (y = x → keep v = true) } t := by
  have hsize := (Domains.narrows_restrict? ht).size
  refine ⟨fun y hy v hv => ?_, fun T hT hne hleft y hy v hv => ?_⟩
  · obtain ⟨hin, hkeep⟩ := (Domains.contains_restrict? ht).1 hv
    exact ⟨h.left y (hsize ▸ hy) v hin, hkeep⟩
  · rw [hsize] at hne hleft hy
    refine (Domains.contains_restrict? ht).2 ⟨?_, (hleft y hy v hv).2⟩
    exact h.keeps T hT hne (fun z hz w hw => (hleft z hz w hw).1) y hy hv

/-- Sub-domains which the user left are closed sub-domains of the domains. -/
theorem closed (h : Trimmed ds m s) (hds : ds ⊆ cs) (known : ∀ c ∈ cs, ∀ x ∈ c.scope, x < s.size)
    {T : Var → Set Int} (hT : Extendable cs T) (hne : ∀ x < s.size, (T x).Nonempty)
    (hleft : ∀ x < s.size, ∀ v ∈ T x, m.own x v) :
    (∀ x < s.size, T x ⊆ s.sets x) ∧ Closed cs s fun x => T x ∩ s.sets x := by
  have hin := h.keeps T (hT.mono hds) hne hleft
  exact ⟨hin, hT.closed known hne hin⟩

/-- The largest closed sub-domains are trimmed too, also for more constraints. -/
theorem greatest (h : Trimmed ds m s) (hds : ds ⊆ cs) (known : ∀ c ∈ cs, ∀ x ∈ c.scope, x < s.size)
    (hg : IsGreatest {T | Closed cs s T} t.sets) : Trimmed cs m t := by
  have hsize := Closed.size_eq hg.1
  refine ⟨fun x hx v hv => h.left x (hsize ▸ hx) v (hg.1.within x hv), fun T hT hne hleft x hx v hv => ?_⟩
  rw [hsize] at hne hleft hx
  obtain ⟨hin, hclosed⟩ := h.closed hds known hT hne hleft
  exact hg.2 hclosed x ⟨hv, hin x hx hv⟩

end Trimmed

namespace Run

variable {h : Story Constraint} {s o t : Solver} {cs : List Constraint}

end Run

/-! Two constraints over the same variables are posted in both orders. Only in one of them does the first
propagation already take a value away. -/

namespace Shared

/-- The variables take different values. -/
def different : Constraint := .allDifferent [0, 1]

/-- The second variable is 2. -/
def fixed : Constraint := .among [1] [2] 1 1

def pair : List Constraint := [different, fixed]

def plan (s : Solver) (c : Constraint) : Plan :=
  { model := (Spec.ofConstraints s.domains [c]).toModel, options := Options.exact }

def posted (c : Constraint) : Solver := (Narrow.started.addDiagram (plan Narrow.started c)).2

/-- The second constraint waits to be propagated. -/
def both (c b : Constraint) : Solver := (posted c).enrol (plan (posted c) b)

variable {c b : Constraint}

/-- How the operations below are answered. -/
theorem answers : ∀ c ∈ pair, ((Spec.ofConstraints Narrow.started.domains [c]).check = .ok () ∧
    c.registrable Narrow.started.domains = true ∧
    (Narrow.started.addDiagram (plan Narrow.started c)).1 = .ok 0) ∧
    ((posted c).level = 0 ∧ (posted c).rootFailure.isNone = true ∧ (posted c).domains.size = 2) ∧
    ∀ b ∈ pair, (Spec.ofConstraints (posted c).domains [b]).check = .ok () ∧
      b.registrable (posted c).domains = true ∧
      (∀ l < (plan (posted c) b).model.depth, (plan (posted c) b).model.var l < 2) ∧
      (both c b).propagate.1 = none := by decide +kernel

theorem planned {s : Solver} (hc : c ∈ pair) (checked : (Spec.ofConstraints s.domains [c]).check = .ok ())
    (registrable : c.registrable s.domains = true) : Rules.single.plan s c (plan s c) := by
  refine ⟨rfl, ⟨?_, registrable, ?_⟩, Spec.compile_eq_ok.2 ⟨checked, rfl⟩⟩
  all_goals
    rcases List.mem_pair.1 hc with rfl | rfl
  exacts [trivial, trivial, rfl, rfl]

/-- The values of the two variables. -/
def left (x : Var) (v : Int) : Prop :=
  if x = 1 then v ∈ Narrow.domain else if x = 0 then v ∈ Narrow.domain else False

theorem run_posted (hc : c ∈ pair) (hb : b ∈ pair) : ∃ h : Story Constraint, Run .single h (posted c) ∧
    h.calm = true ∧ h.Begins .single (posted c) (both c b) [b, c] ∧ (both c b).domains.size = 2 ∧
    h.past.current.own = left := by
  obtain ⟨⟨checked, registrable, done⟩, ⟨level, alive, size⟩, second⟩ := answers c hc
  obtain ⟨checked', registrable', known, -⟩ := second b hb
  have h₁ : ({} : Solver).addVariable (some Narrow.domain) = .ok (0, Narrow.first) := rfl
  have h₂ : Narrow.first.addVariable (some Narrow.domain) = .ok (1, Narrow.started) := rfl
  have ended : Narrow.started.addDiagram (plan Narrow.started c) = (.ok 0, posted c) := Prod.fst_eq_iff.1 done
  have admits : (posted c).Admits (plan (posted c) b) :=
    ⟨level, Option.isNone_iff_eq_none.1 alive, fun l hl => size ▸ known l hl⟩
  exact ⟨_, ((Run.start.addVariable rfl h₁).addVariable rfl h₂).post rfl (planned hc checked registrable)
    ended, rfl, Or.inr ⟨b, _, planned hb checked' registrable', admits, rfl, rfl⟩, size, rfl⟩

end Shared

end DecisionDiagrams
