import DecisionDiagrams.Proofs.Solver.Solutions

/-! Sums whose extreme values do not fit into 32 bits. Partial sums are stored in 32 bits; an assignment
all of whose partial sums can be stored is never lost, whatever the bounds, the weights and the domains
are. A partial sum which is cut off is no bound any more, and the assignment may be lost. -/

namespace DecisionDiagrams

/-- An assignment satisfies the constraints, and the numbers which the states of the diagram hold along
it fit into 32 bits. -/
def Posting.Represented (b : Posting) (σ : Var → Int) : Prop :=
  ∀ c ∈ b.constraints, c.Holds b.plan.model.branchVars.toList σ ∧
    c.Representable b.plan.model.branchVars.toList σ

/-- The plans of constraints with rules of their own and with valid options, whatever the extreme sums
are. -/
def Rules.ruled : Rules Posting where
  plan s b p := b.plan = p ∧ p.options.isValid = true ∧
    (∀ c ∈ b.constraints, c.Ruled ∧ c.registrable s.domains = true ∧ c.malformed? = none) ∧
    (Spec.ofConstraints s.domains b.constraints).compile = .ok p.model
  opens _ := True

theorem Rules.ruled_distinct {s : Solver} {b : Posting} {p : Plan} (h : Rules.ruled.plan s b p) :
    p.Distinct := by
  obtain ⟨-, -, hcs, hm⟩ := h
  unfold Plan.Distinct
  rw [← (Spec.compile_eq_ok.1 hm).2]
  exact (Spec.ordered_of_ruled hcs).nodup

theorem Rules.ruled_of_library {s : Solver} {b : Posting} {p : Plan} (h : Rules.library.plan s b p) :
    Rules.ruled.plan s b p := by
  obtain ⟨hb, hv, hcs, hm⟩ := h
  exact ⟨hb, hv, fun c hc => ⟨(hcs c hc).1.ruled, (hcs c hc).2⟩, hm⟩

theorem Rules.ruled_upholds : Rules.ruled.Upholds Posting.Represented Certified Sustains := by
  refine Sustains.upheld (fun s b p h => ⟨Rules.ruled_distinct h, h.2.1⟩)
    fun {b p s σ} hmade hσ hrep => ?_
  obtain ⟨r, ⟨rfl, -, hcs, hm⟩, -, hu⟩ := hmade
  have hin : ∀ x < r.domains.size, r.domains.contains x (σ x) = true := fun x hx =>
    hu.contains x hx _ (hσ x (Nat.lt_of_lt_of_le hx hu.size))
  obtain ⟨hc, e⟩ := Spec.compile_eq_ok.1 hm
  unfold Posting.Represented Certified at *
  rw [← e] at hrep ⊢
  exact Spec.certificate_of_contributes (Spec.contributes_of_ruled hcs hin) hc hrep

/-- An assignment which satisfies everything posted and whose partial sums fit into 32 bits stays in the
domains, is on a path of every diagram, and rules out conflicts. -/
theorem Run.represented_kept {h : Story Posting} {s : Solver} (run : Run .ruled h s)
    (calm : h.calm = true) {σ : Var → Int} (hσ : h.Solution Posting.Represented s σ) :
    Within σ s.domains ∧
    (∀ i p d, s.planAt i = some p → s.world.diagrams[i]? = some d →
      ∃ as, d.graph.IsFullPath p.model.depth as ∧
        d.graph.labels as = p.model.branchVars.toList.map σ) ∧
    (∀ f t, s.propagate = (some f, t) → f.isConflict = false) ∧
    ∀ b p, Rules.ruled.plan s b p → b.Represented σ →
      (s.addDiagram p).1 ≠ .error .infeasibleDiagram ∧
        (s.addDiagram p).1 ≠ .error .infeasibleState :=
  run.kept_of_certified Rules.ruled_upholds calm hσ

/-! Three variables with the weights `M`, `M` and `-M` which have to add up to `M`, for the largest
number `M` of 32 bits. -/
namespace Overflow

def constraints : List Constraint :=
  [.sum [0, 1, 2] [Sum.maxInt32, Sum.maxInt32, -Sum.maxInt32] Sum.maxInt32 Sum.maxInt32]

def bit : Domain := .ofCons 0 [1]

def one : Domain := .ofCons 1 []

/-- Three variables with the same domain. -/
def grown (d : Domain) : Nat → Solver
  | 0 => {}
  | n + 1 => (grown d n).setDomains ((grown d n).domains.add d)

def spec (d : Domain) : Spec := Spec.ofConstraints (grown d 3).domains constraints

def plan (d : Domain) : Plan := { model := (spec d).toModel, options := {} }

def posting (d : Domain) : Posting := ⟨constraints, plan d⟩

def posted : Solver := ((grown bit 3).addDiagram (plan bit)).2

/-- How the operations are answered. -/
theorem answers : (∀ d ∈ [bit, one], (spec d).check = .ok () ∧
      constraints.all (·.registrable (grown d 3).domains) = true) ∧
    (plan bit).model.branchVars.toList = [0, 1, 2] ∧ ((grown bit 3).addDiagram (plan bit)).1 = .ok 0 ∧
    posted.domains.size = 3 ∧
    ((grown one 3).addDiagram (plan one)).1 = .error .infeasibleDiagram := by decide +kernel

theorem planned {d : Domain} (hd : d ∈ [bit, one]) : Rules.ruled.plan (grown d 3) (posting d) (plan d) := by
  obtain ⟨hc, hr⟩ := answers.1 d hd
  have hm : (spec d).compile = .ok (plan d).model := Spec.compile_eq_ok.2 ⟨hc, rfl⟩
  refine ⟨rfl, rfl, fun c hmem => ⟨?_, List.all_eq_true.1 hr c hmem, ?_⟩, hm⟩
  all_goals obtain rfl := List.mem_singleton.1 hmem
  · trivial
  · rfl

theorem size_grown (d : Domain) : ∀ n, (grown d n).domains.size = n ∧ (grown d n).level = 0
  | 0 => ⟨rfl, rfl⟩
  | n + 1 => by
    obtain ⟨hsize, hlevel⟩ := size_grown d n
    refine ⟨?_, hlevel⟩
    show ((grown d n).domains.add d).size = n + 1
    rw [Domains.size_add, hsize]

/-- Before anything is posted, all values of the domains are left. -/
theorem run_grown (d : Domain) : ∀ n, ∃ h : Story Posting, Run .ruled h (grown d n) ∧
    h.calm = true ∧ h.posted = [] ∧ ∀ x < n, ∀ v ∈ d, h.past.current.own x v
  | 0 => ⟨_, .start, rfl, rfl, nofun⟩
  | n + 1 => by
    obtain ⟨h, run, calm, hp, ho⟩ := run_grown d n
    obtain ⟨hsize, hlevel⟩ := size_grown d n
    have added : (grown d n).addVariable (some d) = .ok (n, grown d (n + 1)) := by
      unfold Solver.addVariable
      rw [if_neg (by omega)]
      dsimp only
      rw [hsize]
      rfl
    refine ⟨_, run.addVariable calm added, calm, hp, fun x hx v hv => ?_⟩
    show if x = n then v ∈ d else h.past.current.own x v
    split_ifs with e
    · exact hv
    · exact ho x (by omega) v hv

/-- Only the first variable is one. -/
def first (x : Var) : Int := if x = 0 then 1 else 0

theorem holds_of_sum {d : Domain} {σ : Var → Int}
    (h : Sum.sumOf [0, 1, 2] [Sum.maxInt32, Sum.maxInt32, -Sum.maxInt32] σ = Sum.maxInt32) :
    (posting d).Solved σ := by
  intro c hmem
  obtain rfl := List.mem_singleton.1 hmem
  exact ⟨Int.le_of_eq h.symm, Int.le_of_eq h⟩

theorem represented_first : (posting bit).Represented first := by
  refine fun c hmem => ⟨holds_of_sum (d := bit) (by decide) c hmem, ?_⟩
  obtain rfl := List.mem_singleton.1 hmem
  have hbelow : ∀ l < 4,
      Sum.Short (Sum.partialSum [0, 1, 2] [Sum.maxInt32, Sum.maxInt32, -Sum.maxInt32] first
        ([0, 1, 2].take l)) ∧
      Sum.Short (Sum.partialSum [0, 1, 2] [Sum.maxInt32, Sum.maxInt32, -Sum.maxInt32] first
        ([0, 1, 2].drop l)) := by
    unfold Sum.Short
    decide
  have order : (posting bit).plan.model.branchVars.toList = [0, 1, 2] := answers.2.1
  intro l
  rw [order]
  rcases Nat.lt_or_ge l 4 with hl | hl
  · exact hbelow l hl
  · rw [List.take_of_length_le (by simpa using by omega), List.drop_of_length_le (by simpa using by omega)]
    unfold Sum.Short
    decide

theorem eq_posted : (grown bit 3).addDiagram (plan bit) = (.ok 0, posted) := Prod.fst_eq_iff.1 answers.2.2.1

theorem planAt_posted : posted.planAt 0 = some (plan bit) := by
  have planned : posted.planAt (grown bit 3).entries.size = some (plan bit) := Solver.planAt_of_addDiagram eq_posted
  exact planned

theorem run_posted : ∃ h : Story Posting, Run .ruled h posted ∧ h.calm = true ∧
    h.Solution Posting.Represented posted first := by
  obtain ⟨h, run, calm, hp, ho⟩ := run_grown bit 3
  have planned := planned (d := bit) List.mem_cons_self
  refine ⟨_, run.post calm planned eq_posted, calm, fun b hb => ?_, fun x hx => ?_⟩
  · obtain rfl := List.mem_singleton.1 (hp ▸ hb)
    exact represented_first
  · have hsize := answers.2.2.2.1
    refine ho x (by omega) _ ?_
    unfold first
    split_ifs <;> exact Domain.mem_def.2 (by decide)

end Overflow

theorem Run.represented_kept_overflow : Within Overflow.first Overflow.posted.domains ∧
    ∃ as, ((Overflow.posted.world.diagrams[0]?).getD default).graph.IsFullPath
        ((Overflow.posted.planAt 0).getD (Overflow.plan Overflow.bit)).model.depth as ∧
      ((Overflow.posted.world.diagrams[0]?).getD default).graph.labels as =
        ((Overflow.posted.planAt 0).getD (Overflow.plan Overflow.bit)).model.branchVars.toList.map
          Overflow.first := by
  obtain ⟨h, run, calm, solution⟩ := Overflow.run_posted
  have plan := Lone.eq_some_getD (Option.isSome_of_eq_some Overflow.planAt_posted) (Overflow.plan Overflow.bit)
  have diagram := Solver.diagram_eq_getD run Overflow.planAt_posted default
  obtain ⟨within, path, -⟩ := Run.represented_kept run calm solution
  exact ⟨within, path 0 _ _ plan diagram⟩

/-- A solution whose partial sums do not fit into 32 bits may be lost: with all three variables fixed to
one the sum holds, and posting it reports that it is infeasible. -/
theorem Run.solution_lost :
    ¬ ∀ (h : Story Posting) (s : Solver) (b : Posting) (p : Plan) (σ : Var → Int),
      Run .ruled h s → h.calm = true → h.Solution Posting.Solved s σ → Rules.ruled.plan s b p →
      b.Solved σ → (s.addDiagram p).1 ≠ .error .infeasibleDiagram := by
  intro general
  obtain ⟨h, run, calm, hp, ho⟩ := Overflow.run_grown Overflow.one 3
  have planned := Overflow.planned (d := Overflow.one) (List.mem_cons_of_mem _ List.mem_cons_self)
  refine general h _ _ _ (fun _ => 1) run calm ⟨fun b hb => ?_, fun x hx => ?_⟩ planned
    (Overflow.holds_of_sum (by decide)) Overflow.answers.2.2.2.2
  · rw [hp] at hb
    cases hb
  · rw [(Overflow.size_grown Overflow.one 3).1] at hx
    exact ho x hx 1 (Domain.mem_def.2 (by decide))

end DecisionDiagrams
