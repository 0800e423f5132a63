import DecisionDiagrams.Proofs.Constraint.Library
import DecisionDiagrams.Proofs.Solver.Enumerates
import DecisionDiagrams.Proofs.Solver.Sustains

/-! Relaxed diagrams lose no solution. In every run of a solver over library constraints, the assignments
which the user left and which satisfy everything posted stay in the domains and are labels of a path
in every diagram, and no propagation reports a conflict while there is one. -/

namespace DecisionDiagrams

/-- Constraints which share a diagram, with the plan made of them. -/
structure Posting where
  constraints : List Constraint
  plan : Plan

/-- An assignment satisfies the constraints, read in the order of the layers of the diagram. -/
def Posting.Solved (b : Posting) (σ : Var → Int) : Prop :=
  ∀ c ∈ b.constraints, c.Holds b.plan.model.branchVars.toList σ

/-- The plans of library constraints with valid options. Checkpoints may be opened at any time. -/
def Rules.library : Rules Posting where
  plan s b p := b.plan = p ∧ p.options.isValid = true ∧
    (∀ c ∈ b.constraints, c.InLibrary s.domains ∧ c.registrable s.domains = true ∧
      c.malformed? = none) ∧
    (Spec.ofConstraints s.domains b.constraints).compile = .ok p.model
  opens _ := True

/-- Library constraints make distinct layers. -/
theorem Rules.library_distinct {s : Solver} {b : Posting} {p : Plan} (h : Rules.library.plan s b p) :
    p.Distinct := by
  obtain ⟨-, -, hcs, hm⟩ := h
  unfold Plan.Distinct
  rw [← (Spec.compile_eq_ok.1 hm).2]
  exact (Spec.ordered_ofConstraints hcs).nodup

theorem Rules.library_upholds : Rules.library.Upholds Posting.Solved Certified Sustains := by
  refine Sustains.upheld (fun s b p h => ⟨Rules.library_distinct h, h.2.1⟩)
    fun {b p s σ} hmade hσ hsolved => ?_
  obtain ⟨r, ⟨rfl, -, hcs, hm⟩, -, hu⟩ := hmade
  refine Spec.certificate_of_holds hcs hm (fun x hx => ?_) hsolved
  exact hu.contains x hx _ (hσ x (Nat.lt_of_lt_of_le hx hu.size))

/-! Two variables in 1 and 2 which have to be different, in a diagram of width one. The value 1 is
assigned to the first of them. -/
namespace Narrow

def constraints : List Constraint := [.allDifferent [0, 1]]

def domain : Domain := .ofCons 1 [2]

def first : Solver := ({} : Solver).setDomains (Domains.add {} domain)

def started : Solver := first.setDomains (first.domains.add domain)

def spec : Spec := Spec.ofConstraints started.domains constraints

def plan : Plan := { model := spec.toModel, options := { maxWidth := some 1, construction := .widthOne } }

def posted : Solver := (started.addDiagram plan).2

def assigned : Solver := (posted.assign 0 1).toOption.getD posted

/-- The first variable is 1 and the second one is 2. -/
def solution (x : Var) : Int := x + 1

/-- How the operations are answered. -/
theorem answers : (spec.check = .ok () ∧ ∀ c ∈ constraints, c.registrable started.domains = true) ∧
    (started.addDiagram plan).1 = .ok 0 ∧ (posted.assign 0 1).toOption.isSome = true ∧ assigned.domains.size = 2 ∧
    assigned.propagate.1 = none ∧ assigned.propagate.2.domains.values 0 = [1] ∧
    assigned.propagate.2.domains.values 1 = [2] := by decide +kernel

theorem planned : Rules.library.plan started ⟨constraints, plan⟩ plan := by
  have hspec : Spec.ofConstraints started.domains constraints = spec := rfl
  refine ⟨rfl, rfl, fun c hc => ?_, ?_⟩
  rotate_left
  · show (Spec.ofConstraints started.domains constraints).compile = _
    rw [hspec]
    exact Spec.compile_eq_ok.2 ⟨answers.1.1, rfl⟩
  have registrable := answers.1.2 c hc
  obtain rfl := List.mem_singleton.1 hc
  exact ⟨trivial, registrable, rfl⟩

theorem eq_posted : started.addDiagram plan = (.ok 0, posted) := Prod.fst_eq_iff.1 answers.2.1

theorem assign_posted : posted.assign 0 1 = .ok assigned := Lone.eq_ok_getD answers.2.2.1

theorem planAt_assigned : assigned.planAt 0 = some plan := by
  have before : posted.planAt started.entries.size = some plan := Solver.planAt_of_addDiagram eq_posted
  rw [Solver.planAt_of_restrict assign_posted]
  exact before

theorem run_assigned : ∃ h : Story Posting, Run .library h assigned ∧ h.calm = true ∧
    h.Solution Posting.Solved assigned solution := by
  have h₁ : ({} : Solver).addVariable (some domain) = .ok (0, first) := rfl
  have h₂ : first.addVariable (some domain) = .ok (1, started) := rfl
  refine ⟨_, (((Run.start.addVariable rfl h₁).addVariable rfl h₂).post rfl planned
    eq_posted).restrict rfl assign_posted, rfl, fun b hb => ?_, fun x hx => ?_⟩
  · obtain rfl := List.mem_singleton.1 hb
    intro c hc
    obtain rfl := List.mem_singleton.1 hc
    show ([0, 1].map solution).Nodup
    decide
  · rw [answers.2.2.2.1] at hx
    have hx : x = 0 ∨ x = 1 := by omega
    rcases hx with rfl | rfl
    · exact ⟨Domain.mem_def.2 (by decide), fun _ => rfl⟩
    · exact ⟨Domain.mem_def.2 (by decide), nofun⟩

end Narrow

end DecisionDiagrams
