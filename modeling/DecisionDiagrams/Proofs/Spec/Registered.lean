import DecisionDiagrams.Solver.Post
import DecisionDiagrams.Proofs.Work.Tidy
import Mathlib.Data.List.Nodup

/-! Specifications which come about by registering. Their layers have different variables, whatever
the scopes and rules are, and so a plan made from one is distinct. -/

namespace DecisionDiagrams

namespace Spec

theorem nodup_addVariables : ∀ (vars : List Var) (layers : Array Var), layers.toList.Nodup →
    (vars.foldl (fun vs x => if vs.contains x then vs else vs.push x) layers).toList.Nodup
  | [], _, h => h
  | x :: vars, layers, h => by
    rw [List.foldl_cons]
    refine nodup_addVariables vars _ ?_
    split_ifs with hx
    · exact h
    · rw [Array.toList_push, List.nodup_append]
      refine ⟨h, List.nodup_singleton x, fun y hy z hz e => hx ?_⟩
      rw [List.mem_singleton] at hz
      rw [Array.contains_iff_mem, ← Array.mem_toList_iff, ← hz, ← e]
      exact hy

/-- What the operations of registration make of the empty specification. -/
inductive Registered : Spec → Prop
  | start : Registered {}
  | scope {s} (h : Registered s) (name : String) (vars : List Var) :
    Registered (addScope name vars s).2
  | property {s} (h : Registered s) (c : ScopeId) (side : Side) (kind : Kind) (r : Relaxation) :
    Registered (declareProperty c side kind r s).2
  | adjust {s} (h : Registered s) (p : PropertyRef) (f : Property → Property) :
    Registered (adjust p f s).2
  | arcCheck {s} (h : Registered s) (c : ScopeId) (check : ArcFacts → Checked Bool) :
    Registered (addArcCheck c check s).2
  | nodeCheck {s} (h : Registered s) (check : NodeFacts → Checked Bool) :
    Registered (addNodeCheck check s).2
  | splitPriority {s} (h : Registered s) (f : NodeFacts → Checked Int) :
    Registered (addSplitPriority f s).2
  | candidatePriority {s} (h : Registered s) (f : CandidateFacts → Checked Int) :
    Registered (addCandidatePriority f s).2
  | equivalenceKey {s} (h : Registered s) (f : View → Checked Int) :
    Registered (addEquivalenceKey f s).2

theorem branchVars_adjust (p : PropertyRef) (f : Property → Property) (s : Spec) :
    (adjust p f s).2.branchVars = s.branchVars := by
  show (if p.index < (s.properties.get p.side).size then _ else _ : Spec).branchVars = _
  split_ifs <;> rfl

theorem Registered.nodup {s : Spec} (h : s.Registered) : s.branchVars.toList.Nodup := by
  induction h with
  | start => exact List.nodup_nil
  | scope _ name vars ih => exact nodup_addVariables vars _ ih
  | property _ _ _ _ _ ih => exact ih
  | adjust _ p f ih =>
    rw [branchVars_adjust]
    exact ih
  | arcCheck _ _ _ ih => exact ih
  | nodeCheck _ _ ih => exact ih
  | splitPriority _ _ ih => exact ih
  | candidatePriority _ _ ih => exact ih
  | equivalenceKey _ _ ih => exact ih

theorem compile_eq_ok {s : Spec} {m : Model} :
    s.compile = .ok m ↔ s.check = .ok () ∧ s.toModel = m := by
  unfold compile
  cases s.check with
  | ok u => simp [bind, Except.bind, pure, Except.pure]
  | error e => simp [bind, Except.bind]

end Spec

/-- A plan made from a registered specification with valid options. -/
structure Spec.Plans (s : Spec) (p : Plan) : Prop where
  registered : s.Registered
  compiled : s.compile = .ok p.model
  valid : p.options.isValid = true

theorem Spec.Plans.distinct {s : Spec} {p : Plan} (h : s.Plans p) : p.Distinct := by
  have e := (Spec.compile_eq_ok.1 h.compiled).2
  unfold Plan.Distinct
  rw [← e]
  exact h.registered.nodup

end DecisionDiagrams
