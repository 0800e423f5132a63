import DecisionDiagrams.Proofs.Constraint.Tame
import DecisionDiagrams.Proofs.Solver.Slender
import DecisionDiagrams.Proofs.Spec.Registered
import DecisionDiagrams.Proofs.Work.Ledger

/-! The statistics of propagation. Whatever a call of a diagram does and however it ends, what it counts agrees
with the diagram and the domains before and after it; and what is kept for a diagram are the sums over all of
its calls, also over those whose effects were taken back. -/

namespace DecisionDiagrams

open Work

/-! ### One call -/

/-- A call of a diagram with everything it depends on. -/
structure Call where
  index : Nat
  plan : Plan
  diagram : Diagram
  domains : Domains
  fuel : Nat
  /-- The layers whose variable lost a value since the last call. -/
  lost : List Nat

namespace Call

def outcome (c : Call) : Propagated := c.diagram.propagate c.plan c.fuel c.lost c.domains

/-- What a call counts agrees with what it does. -/
structure Balanced (c : Call) : Prop where
  /-- The nodes afterwards are those from before and the created ones without the deleted ones. -/
  nodes : c.outcome.diagram.graph.liveNodes.length + c.outcome.counters.nodesDeleted =
    c.diagram.graph.liveNodes.length + c.outcome.counters.nodesCreated
  /-- The values which left the domains of the diagram are counted. -/
  values : c.plan.choices c.outcome.domains + c.outcome.counters.valuesRemoved = c.plan.choices c.domains
  created : c.outcome.counters.nodesSplit ≤ c.outcome.counters.nodesCreated
  budget : c.outcome.counters.nodesSplit ≤ c.plan.options.budget
  reboots : c.outcome.counters.reboots ≤ c.outcome.counters.candidatesPruned

end Call

theorem Ledger.along {p : Plan} (hp : p.Distinct) {kind : Edit.Kind} {a b : Workspace}
    (path : Relation.ReflTransGen (Edits p kind) a b) (h : Orderly p a) : Orderly p b ∧ Ledger p a b :=
  Edits.along (fun _ _ _ fits orderly ledger => ledger.trans (.edit hp orderly.toCensus fits)) path h (.refl p a)

theorem Call.balanced {c : Call} (hp : c.plan.Distinct) (held : c.diagram.Held c.plan) : c.Balanced := by
  obtain ⟨u, w, underway, hd, hs, hk, -⟩ := held.propagate c.fuel c.lost c.domains
  obtain ⟨orderly, built⟩ := Ledger.along hp underway.building (held.orderly c.domains)
  have ledger := built.trans (Ledger.along hp underway.refining orderly).2
  have graph : w.graph = c.outcome.diagram.graph := congrArg Diagram.graph hd
  have counters : w.counters = c.outcome.counters := hk
  have start : (c.diagram.workspace c.plan c.domains).counters = { propagations := 1 } := rfl
  constructor
  case nodes =>
    have := ledger.nodes
    rw [graph, counters, start] at this
    exact this
  case values =>
    have := ledger.values
    rw [hs, counters, start] at this
    exact this
  case created =>
    have := ledger.splits
    rw [counters, start] at this
    simpa using this
  case budget =>
    have := underway.fair.paid
    rw [hk] at this
    exact Nat.le_of_add_right_le this
  case reboots => exact counters ▸ underway.fair.reboots

/-! ### All calls -/

namespace Solver

/-- The solver came about by these calls of its diagrams, the first one first, and by steps which call none. -/
inductive Logged : List Call → Solver → Prop
  | start : Logged [] {}
  | enrol {calls s p} : Logged calls s → s.Admits p → Logged calls (s.enrol p)
  | announce {calls s} : Logged calls s → Logged calls s.announce
  | call {calls s i e d} (fuel : Nat) : Logged calls s → s.entries[i]? = some e →
    s.world.diagrams[i]? = some d →
    Logged (calls ++ [⟨i, e.plan, d, s.domains, fuel, e.lost⟩]) (s.callDiagram fuel i).2
  | setDomains {calls s} (t : Domains) : Logged calls s → Logged calls (s.setDomains t)
  | openCheckpoint {calls s} : Logged calls s → Logged calls s.openCheckpoint
  | backtrack {calls s t target} : Logged calls s → s.backtrack? target = some t → Logged calls t
  /-- The queue, the failure at the root and the counts of the solver itself say nothing of calls. -/
  | aside {calls s t} : Logged calls s → t.history = s.history → t.entries = s.entries → Logged calls t

variable {s t : Solver} {calls : List Call}

theorem Logged.callDiagram (h : Logged calls s) (fuel i : Nat) :
    ∃ calls', Logged calls' (s.callDiagram fuel i).2 := by
  cases he : s.entries[i]? with
  | none =>
    rw [callDiagram_of_unknown (by rw [planAt, he]; rfl)]
    exact ⟨calls, h⟩
  | some e =>
    cases hd : s.world.diagrams[i]? with
    | none =>
      refine ⟨calls, ?_⟩
      unfold Solver.callDiagram
      rw [he, hd]
      exact h
    | some d => exact ⟨_, h.call fuel he hd⟩

theorem exists_logged_propagate (h : ∃ calls, Logged calls s) : ∃ calls, Logged calls s.propagate.2 := by
  obtain ⟨calls, h⟩ := h
  unfold Solver.propagate propagateWithin
  split
  · exact ⟨calls, h⟩
  · have drained := drain_keeps (I := fun u => ∃ calls, Logged calls u) allowance
      (fun u ⟨calls, hu⟩ => ⟨calls, hu.announce⟩)
      (fun u i rest ⟨_, hu⟩ _ => (hu.aside (t := u.dequeue rest) rfl rfl).callDiagram allowance i) allowance
      ⟨calls, h.announce⟩
    split <;> rename_i hd <;> rw [hd] at drained
    · exact drained
    · obtain ⟨calls, hu⟩ := drained
      exact ⟨calls, hu.aside rfl rfl⟩

/-- Whatever is done with a solver, it is done by calls of diagrams and steps which call none. -/
theorem exists_logged_perform (h : ∃ calls, Logged calls s) (o : Operation) :
    ∃ calls, Logged calls (s.perform o).2 := by
  refine perform_keeps (I := fun u => ∃ calls, Logged calls u) (fun u p hu => ?_)
    (fun _ t ⟨calls, hu⟩ => ⟨calls, hu.setDomains t⟩) (fun _ => exists_logged_propagate)
    (fun _ ⟨calls, hu⟩ => ⟨calls, hu.openCheckpoint⟩)
    (fun _ _ _ ⟨calls, hu⟩ back => ⟨calls, hu.backtrack back⟩) h o
  rcases addDiagram_cases u p with ⟨admits, e⟩ | ⟨e, -⟩
  · obtain ⟨calls, hu⟩ := hu
    rw [e]
    exact exists_logged_propagate ⟨calls, hu.enrol admits⟩
  · rw [e]
    exact hu

theorem performAll_add (s : Solver) (os : List Operation) (p : Plan) :
    s.performAll (os ++ [.add p]) = ((s.performAll os).addDiagram p).2 := by
  rw [performAll_append]
  rfl

theorem exists_logged_performAll (os : List Operation) (h : ∃ calls, Logged calls s) :
    ∃ calls, Logged calls (s.performAll os) := by
  induction os generalizing s with
  | nil => exact h
  | cons o os ih => exact ih (exists_logged_perform h o)

theorem Logged.everywhere {I : Plan → Diagram → Prop} (hI : Endures I) (h : Logged calls s) :
    Everywhere I s := by
  induction h with
  | start => exact Arises.start.everywhere hI
  | enrol _ admits ih => exact ih.enrol hI admits
  | announce _ ih => exact ih.announce
  | call fuel _ _ _ ih => exact ih.callDiagram hI fuel _
  | setDomains t _ ih => exact ih.setDomains t
  | openCheckpoint _ ih => exact ih.openCheckpoint
  | backtrack _ back ih => exact ih.backtrack back
  | aside _ history entries ih =>
    refine ih.congr (by rw [history]) ?_ (by rw [entries]) fun i => by rw [planAt, planAt, entries]
    rw [world, world, history]

/-- What propagations keep of diagrams holds where they are called. -/
theorem Logged.holds {I : Plan → Diagram → Prop} (hI : Endures I) (h : Logged calls s) :
    ∀ c ∈ calls, I c.plan c.diagram := by
  induction h with
  | start => exact fun c hc => absurd hc List.not_mem_nil
  | @call calls s i e d fuel h he hd ih =>
    intro c hc
    rcases List.mem_append.1 hc with hc | hc
    · exact ih c hc
    · obtain rfl := List.mem_singleton.1 hc
      have planned : s.planAt i = some e.plan := by rw [planAt, he]; rfl
      exact (h.everywhere hI).holds i e.plan planned s.world (Or.inl rfl) d hd
  | enrol _ _ ih | announce _ ih | setDomains _ _ ih | openCheckpoint _ ih | backtrack _ _ ih
  | aside _ _ _ ih => exact ih

theorem Logged.balanced (h : Logged calls s) : ∀ c ∈ calls, c.plan.Distinct → c.Balanced := fun c hc hp =>
  Call.balanced hp (h.holds Diagram.endures_held c hc)

end Solver

/-! ### The sums over all calls -/

namespace Counters

/-- What is counted under a name. -/
def read (c : Counters) (name : String) : Nat := (c.entries.lookup name).getD 0

theorem lookup_add (name : String) (parts : List (String × Nat × Nat)) :
    ((parts.map fun e => (e.1, e.2.1 + e.2.2)).lookup name).getD 0 =
      ((parts.map fun e => (e.1, e.2.1)).lookup name).getD 0 +
        ((parts.map fun e => (e.1, e.2.2)).lookup name).getD 0 := by
  induction parts with
  | nil => rfl
  | cons e parts ih =>
    simp only [List.map_cons, List.lookup_cons]
    cases name == e.1 with
    | true => rfl
    | false => exact ih

/-- Counters are added field by field. -/
theorem read_add (a b : Counters) (name : String) : (a.add b).read name = a.read name + b.read name :=
  lookup_add name (List.zipWith (fun (x y : String × Nat) => (x.1, x.2, y.2)) a.entries b.entries)

theorem read_zero (name : String) : ({} : Counters).read name = 0 := by
  have twice : ({} : Counters).read name = ({} : Counters).read name + ({} : Counters).read name :=
    read_add {} {} name
  omega

end Counters

/-- What the calls of a diagram counted under a name, added up. -/
def Call.sum (calls : List Call) (i : Nat) (name : String) : Nat :=
  ((calls.filter fun c => c.index = i).map fun c => c.outcome.counters.read name).sum

theorem Call.sum_append (calls : List Call) (c : Call) (i : Nat) (name : String) :
    Call.sum (calls ++ [c]) i name =
      Call.sum calls i name + if c.index = i then c.outcome.counters.read name else 0 := by
  unfold Call.sum
  rw [List.filter_append, List.map_append, List.sum_append]
  split_ifs with h <;> simp [h]

namespace Solver

variable {s t : Solver} {calls : List Call} {i : Nat}

/-- What is kept of the calls of a diagram. -/
def totalAt (s : Solver) (i : Nat) : Option Counters := (s.entries[i]?).map (·.total)

theorem totalAt_foldl {α : Type} {f : Solver → α → Solver} (h : ∀ s a, (f s a).totalAt i = s.totalAt i)
    (l : List α) (s : Solver) : (l.foldl f s).totalAt i = s.totalAt i := by
  induction l generalizing s with
  | nil => rfl
  | cons a l ih => exact (ih (f s a)).trans (h s a)

theorem totalAt_announceTo (x : Var) (s : Solver) (j : Nat) : (announceTo x s j).totalAt i = s.totalAt i := by
  unfold announceTo
  split
  · rfl
  · rename_i e he
    split
    · rfl
    · dsimp only
      rw [totalAt, entries_lineUp]
      split_ifs
      · rw [Array.getElem?_setIfInBounds]
        by_cases ji : j = i
        · subst ji
          rw [if_pos rfl, if_pos (Array.getElem?_eq_some_iff.1 he).1, totalAt, he]
          rfl
        · rw [if_neg ji]
          rfl
      · rfl

theorem totalAt_announce (s : Solver) : s.announce.totalAt i = s.totalAt i :=
  totalAt_foldl (fun s x => totalAt_foldl (totalAt_announceTo x) _ s) _ _

theorem totalAt_callDiagram {e : Entry} {d : Diagram} (he : s.entries[i]? = some e)
    (hd : s.world.diagrams[i]? = some d) (fuel j : Nat) : (s.callDiagram fuel i).2.totalAt j =
      if j = i then some (e.total.add (d.propagate e.plan fuel e.lost s.domains).counters)
      else s.totalAt j := by
  have hi := (Array.getElem?_eq_some_iff.1 he).1
  unfold Solver.callDiagram totalAt
  rw [he, hd]
  dsimp only
  rw [Array.getElem?_setIfInBounds]
  by_cases ij : i = j
  · rw [if_pos ij, if_pos hi, if_pos ij.symm]
    rfl
  · rw [if_neg ij, if_neg (Ne.symm ij)]

theorem totalAt_backtrack? {target : Nat} (back : s.backtrack? target = some t) : t.totalAt i = s.totalAt i := by
  rw [totalAt, entries_backtrack? back, Array.getElem?_map, Option.map_map]
  rfl

/-- What is kept of the diagrams accounts for the calls. -/
structure Accounts (calls : List Call) (s : Solver) : Prop where
  known : ∀ c ∈ calls, s.planAt c.index = some c.plan
  total : ∀ i k, s.totalAt i = some k → ∀ name, k.read name = Call.sum calls i name

theorem Accounts.congr (h : Accounts calls s) (plan : ∀ i, t.planAt i = s.planAt i)
    (total : ∀ i, t.totalAt i = s.totalAt i) : Accounts calls t :=
  ⟨fun c hc => (plan _).trans (h.known c hc), fun i k hk => h.total i k ((total i).symm.trans hk)⟩

/-- A new diagram was not called yet. -/
theorem Accounts.enrol (h : Accounts calls s) (p : Plan) : Accounts calls (s.enrol p) := by
  have entry : ∀ i, (s.enrol p).entries[i]? = if i = s.entries.size then some { plan := p } else s.entries[i]? :=
    fun _ => Array.getElem?_push
  have index : ∀ c ∈ calls, c.index < s.entries.size := by
    intro c hc
    obtain ⟨e, he, -⟩ := Option.map_eq_some_iff.1 (h.known c hc)
    exact (Array.getElem?_eq_some_iff.1 he).1
  refine ⟨fun c hc => ?_, fun i k hk name => ?_⟩
  · rw [planAt, entry, if_neg (Nat.ne_of_lt (index c hc))]
    exact h.known c hc
  · rw [totalAt, entry] at hk
    split_ifs at hk with hi
    · obtain rfl := Option.some.inj hk
      have none : calls.filter (fun c => c.index = i) = [] := by
        refine List.filter_eq_nil_iff.2 fun c hc e => Nat.ne_of_lt (index c hc) ?_
        rw [of_decide_eq_true e, hi]
      rw [Call.sum, none]
      exact Counters.read_zero name
    · exact h.total i k hk name

theorem Logged.accounts (h : Logged calls s) : Accounts calls s := by
  induction h with
  | start => exact ⟨fun c hc => absurd hc List.not_mem_nil, fun i k hk => by cases hk⟩
  | @enrol calls s p _ _ ih => exact ih.enrol p
  | @announce calls s _ ih =>
    exact ih.congr (informs_announce s).plan fun _ => totalAt_announce s
  | @call calls s i e d fuel h he hd ih =>
    have planned : s.planAt i = some e.plan := by rw [planAt, he]; rfl
    refine ⟨fun c hc => ?_, fun j k hk name => ?_⟩
    · rw [planAt_callDiagram]
      rcases List.mem_append.1 hc with hc | hc
      · exact ih.known c hc
      · obtain rfl := List.mem_singleton.1 hc
        exact planned
    · rw [totalAt_callDiagram he hd] at hk
      rw [Call.sum_append]
      dsimp only
      split_ifs at hk with ji
      · subst ji
        obtain rfl := Option.some.inj hk
        rw [if_pos rfl, Counters.read_add, ih.total j e.total (by rw [totalAt, he]; rfl)]
        rfl
      · rw [if_neg (Ne.symm ji), ih.total j k hk, Nat.add_zero]
  | setDomains t _ ih => exact ih.congr (fun _ => rfl) fun _ => rfl
  | openCheckpoint _ ih => exact ih.congr (fun _ => rfl) fun _ => rfl
  | backtrack _ back ih => exact ih.congr (fun _ => planAt_backtrack? back) fun _ => totalAt_backtrack? back
  | aside _ _ entries ih =>
    exact ih.congr (fun i => by rw [planAt, planAt, entries]) fun i => by rw [totalAt, totalAt, entries]

/-- Whatever operations are made, the solver comes about by calls of its diagrams. Each of them, whether it
succeeds or fails, counts what it does to the diagram and to the domains, for any specification and any options;
and the numbers which are kept for a diagram are the sums over all of its calls, one name like the other. -/
theorem statistics_balance :
    (∀ os : List Operation, ∃ calls, Logged calls (({} : Solver).performAll os)) ∧
    ∀ calls s, Logged calls s →
      (∀ c ∈ calls, s.planAt c.index = some c.plan ∧
        ∀ spec : Spec, spec.Registered → spec.compile = .ok c.plan.model → c.Balanced) ∧
      ∀ i e, s.entries[i]? = some e → ∀ name, e.total.read name = Call.sum calls i name := by
  refine ⟨fun os => exists_logged_performAll os ⟨[], .start⟩, fun calls s h => ⟨fun c hc => ?_, fun i e he name => ?_⟩⟩
  · refine ⟨h.accounts.known c hc, fun spec registered compiled => h.balanced c hc ?_⟩
    unfold Plan.Distinct
    rw [← (Spec.compile_eq_ok.1 compiled).2]
    exact registered.nodup
  · exact h.accounts.total i e.total (by rw [totalAt, he]; rfl) name

end Solver

/-! The first of three variables is set to 2 before it is posted that they differ. -/
namespace Refined

def requests : List Operation := operations.take 3 ++ [.restrict 0 (· == 2)]

def started : Solver := ({} : Solver).performAll requests

def spec : Spec := Spec.ofConstraints started.domains [.allDifferent [0, 1, 2]]

def shared : Plan := { model := spec.toModel, options := options }

def posted : Solver := (started.addDiagram shared).2

theorem answers : spec.check = .ok () ∧ (started.addDiagram shared).1 = .ok 0 ∧ started.entries.size = 0 ∧
    posted.entries.size = 1 := by decide +kernel

theorem eq_posted : started.addDiagram shared = (.ok 0, posted) := Prod.fst_eq_iff.1 answers.2.1

theorem planAt_posted : posted.planAt 0 = some shared := by
  have plan := Solver.planAt_of_addDiagram eq_posted
  rwa [answers.2.2.1] at plan

theorem performAll_posted : ({} : Solver).performAll (requests ++ [.add shared]) = posted := by
  have after : (started.addDiagram shared).2 = posted := by rw [eq_posted]
  rw [Solver.performAll_add]
  exact after

end Refined

/-- Two calls create five nodes, one of them by splitting, and take two values out of the domains. -/
theorem Solver.statistics_balance_refined : ∃ calls, Solver.Logged calls Refined.posted ∧
    (∀ c ∈ calls, c.Balanced) ∧ Call.sum calls 0 "num_propagations" = 2 ∧
    Call.sum calls 0 "num_nodes_created" = 5 ∧ Call.sum calls 0 "num_nodes_split" = 1 ∧
    Call.sum calls 0 "num_values_removed" = 2 := by
  obtain ⟨logs, facts⟩ := Solver.statistics_balance
  obtain ⟨calls, h⟩ := logs (Refined.requests ++ [.add Refined.shared])
  rw [Refined.performAll_posted] at h
  obtain ⟨balanced, totals⟩ := facts calls Refined.posted h
  have first : 0 < Refined.posted.entries.size := by
    rw [Refined.answers.2.2.2]
    exact Nat.one_pos
  have entry := Lone.eq_some_getD (Option.isSome_of_eq_some (Array.getElem?_eq_getElem first)) default
  refine ⟨calls, h, fun c hc => ?_, ?_⟩
  · obtain ⟨plan, counted⟩ := balanced c hc
    have index : c.index = 0 := by
      obtain ⟨e, he, -⟩ := Option.map_eq_some_iff.1 plan
      have := (Array.getElem?_eq_some_iff.1 he).1
      rw [Refined.answers.2.2.2] at this
      exact Nat.lt_one_iff.1 this
    rw [index, Refined.planAt_posted] at plan
    have ruled : (Constraint.allDifferent [0, 1, 2]).Ruled := trivial
    refine counted Refined.spec (Spec.tame_ofConstraint ruled).registered ?_
    rw [← Option.some.inj plan]
    exact Spec.compile_eq_ok.2 ⟨Refined.answers.1, rfl⟩
  · simp only [← totals 0 _ entry]
    decide +kernel

end DecisionDiagrams
