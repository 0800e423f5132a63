import DecisionDiagrams.Proofs.Solver.Rounds
import DecisionDiagrams.Solver.Post
import Mathlib.Data.List.Forall2

/-! Runs of a solver, with what a user remembers of them: what was posted, the domains as they were
restricted by hand, and the variables with a change which was forgotten on the way back to a
checkpoint before any diagram was told of it. After a conflict a run goes back to a checkpoint. What
propagation keeps of diagrams holds of them throughout a run, also in the worlds which are kept. -/

namespace DecisionDiagrams

namespace History

variable {α β : Type}

theorem backtrack_forall₂ {R : α → β → Prop} {g : History α} {h : History β}
    (hk : List.Forall₂ R g.kept h.kept) {target : Nat} (lt : target < h.level) :
    R (g.backtrack target).current (h.backtrack target).current ∧
      List.Forall₂ R (g.backtrack target).kept (h.backtrack target).kept := by
  have hlen : g.level = h.level := hk.length_eq
  have hd := List.forall₂_drop (h.level - (target + 1)) hk
  have hpos : (h.kept.drop (h.level - (target + 1))).length = target + 1 := by
    rw [List.length_drop]
    have : h.kept.length = h.level := rfl
    omega
  unfold backtrack
  rw [hlen]
  cases eg : g.kept.drop (h.level - (target + 1)) with
  | nil =>
    rw [eg] at hd
    rw [List.forall₂_nil_left_iff.1 hd] at hpos
    cases hpos
  | cons a as =>
    cases eh : h.kept.drop (h.level - (target + 1)) with
    | nil =>
      rw [eh] at hpos
      cases hpos
    | cons b bs =>
      rw [eg, eh, List.forall₂_cons] at hd
      dsimp only
      rw [if_pos lt, if_pos lt]
      exact hd

end History

namespace Domains

theorem contains_add {s : Domains} {x : Var} (hx : x < s.size) (d : Domain) (v : Int) :
    (s.add d).contains x v = s.contains x v := by
  rw [Bool.eq_iff_iff, contains_iff, contains_iff]
  show (∃ e, (s.domains.push d)[x]? = some e ∧ v ∈ e) ↔ _
  have hne : x ≠ s.domains.size := Nat.ne_of_lt hx
  rw [Array.getElem?_push, if_neg hne]

theorem contains_add_self {s : Domains} (d : Domain) (v : Int) :
    (s.add d).contains s.size v = true ↔ v ∈ d := by
  rw [contains_iff]
  show (∃ e, (s.domains.push d)[s.domains.size]? = some e ∧ v ∈ e) ↔ _
  rw [Array.getElem?_push, if_pos rfl]
  simp

theorem size_add (s : Domains) (d : Domain) : (s.add d).size = s.size + 1 := Array.size_push _

end Domains

/-- Which runs are looked at: the plans of what is posted, and when a checkpoint may be opened. -/
structure Rules (β : Type) where
  plan : Solver → β → Plan → Prop
  opens : Solver → Prop

/-- What a checkpoint brings back of the memory of a run. -/
structure Memory where
  /-- The values which the restrictions by hand left. -/
  own : Var → Int → Prop
  /-- The variables with a forgotten change. -/
  forgotten : Var → Prop

/-- What is remembered of a run. -/
structure Story (β : Type) where
  posted : List β := []
  past : History Memory := { current := ⟨fun _ _ => False, fun _ => False⟩ }
  /-- Whether the last propagation met no conflict. -/
  calm : Bool := true

namespace Story

variable {β : Type}

/-- A propagation from `s` to `t` reminds of every change of a variable whose values it changes. -/
def propagated (h : Story β) (s t : Solver) : Story β :=
  { h with past := h.past.modify fun m =>
    { m with forgotten := Solver.stillForgotten m.forgotten s t } }

/-- The changes which were listed in the world `w` are not told any more. -/
def returned (h : Story β) (target : Nat) (w : World) : Story β :=
  { h with
    past := (h.past.backtrack target).modify fun m =>
      { m with forgotten := fun x => m.forgotten x ∨ x ∈ w.domains.changed }
    calm := true }

end Story

/-- Values are assigned, removed and bounded by restrictions. A propagation which gives up ends a
run, and so does a conflict while no checkpoint is open. -/
inductive Run {β : Type} (R : Rules β) : Story β → Solver → Prop
  | start : Run R {} {}
  | addVariable {h s t d x} (run : Run R h s) (calm : h.calm = true)
    (added : s.addVariable (some d) = .ok (x, t)) :
    Run R { h with past := h.past.modify fun m =>
      { m with own := fun y v => if y = x then v ∈ d else m.own y v } } t
  | post {h s t b p i} (run : Run R h s) (calm : h.calm = true) (plan : R.plan s b p)
    (posted : s.addDiagram p = (.ok i, t)) :
    Run R { h.propagated s t with posted := b :: h.posted } t
  | restrict {h s t x keep} (run : Run R h s) (calm : h.calm = true)
    (restricted : s.restrict x (·.restrict? x keep) = .ok t) :
    Run R { h with past := h.past.modify fun m =>
      { m with own := fun y v => m.own y v ∧ (y = x → keep v = true) } } t
  | openCheckpoint {h s} (run : Run R h s) (calm : h.calm = true) (opens : R.opens s) :
    Run R { h with past := h.past.openCheckpoint } s.openCheckpoint
  | backtrack {h s t target} (run : Run R h s) (back : s.backtrack? target = some t) :
    Run R (h.returned target (s.history.backtrack target).current) t
  | propagate {h s t} (run : Run R h s) (calm : h.calm = true) (done : s.propagate = (none, t)) :
    Run R (h.propagated s t) t
  | conflict {h s t f} (run : Run R h s) (calm : h.calm = true)
    (failed : s.propagate = (some f, t)) (conflict : f.isConflict = true) :
    Run R { h with calm := false } t

theorem Model.var_lt_of_all {m : Model} {count l : Nat}
    (h : ¬ (!m.branchVars.all fun x => decide (x < count)) = true) (hl : l < m.depth) : m.var l < count := by
  rw [Bool.not_eq_true', Bool.not_eq_false] at h
  exact of_decide_eq_true (Array.all_eq_true_iff_forall_mem.1 h _ (Model.var_mem hl))

theorem PostError.ofFailure_eq_infeasibleDiagram {f : Failure} :
    PostError.ofFailure f = .infeasibleDiagram ↔ f.isConflict = true := by
  cases f <;> simp [ofFailure, Failure.isConflict]

theorem PostError.ofFailure_ne_infeasibleState (f : Failure) : PostError.ofFailure f ≠ .infeasibleState := by
  cases f <;> simp [ofFailure]

namespace Solver

/-- The solver with one more diagram, which waits to be built. -/
def enrol (s : Solver) (p : Plan) : Solver :=
  { s with
    history := s.history.modify fun w =>
      { w with diagrams := w.diagrams.push (Diagram.initial p.model) }
    entries := s.entries.push { plan := p }
    queue := (s.lineUp s.entries.size).queue }

/-- The answer to posting after the new diagram was propagated. -/
def answer (i : Nat) : Option Failure → Except PostError Nat
  | none => .ok i
  | some f => .error (.ofFailure f)

/-- A diagram is only added while no checkpoint is open, after no failure, over known variables. -/
structure Admits (s : Solver) (p : Plan) : Prop where
  level : s.level = 0
  rootFailure : s.rootFailure = none
  known : ∀ l < p.model.depth, p.model.var l < s.domains.size

variable {s t : Solver} {p : Plan} {i : Nat}

theorem lineUp_push (s : Solver) (p : Plan) :
    ({ s with
      history := s.history.modify fun w =>
        { w with diagrams := w.diagrams.push (Diagram.initial p.model) }
      entries := s.entries.push { plan := p } } : Solver).lineUp s.entries.size = s.enrol p := by
  unfold lineUp enrol lineUp
  dsimp only
  split_ifs <;> rfl

theorem addDiagram_cases (s : Solver) (p : Plan) :
    (Admits s p ∧ s.addDiagram p =
      (answer s.entries.size (s.enrol p).propagate.1, (s.enrol p).propagate.2)) ∨
    (s.addDiagram p).2 = s ∧ ((s.addDiagram p).1 = .error .unknownVariable ∨
      (s.addDiagram p).1 = .error .notAtRoot ∧ s.level ≠ 0 ∨
      (s.addDiagram p).1 = .error .infeasibleState ∧ s.rootFailure.isSome = true) := by
  unfold addDiagram
  split_ifs with hl hf hk
  · exact Or.inr ⟨rfl, Or.inr (Or.inl ⟨rfl, hl⟩)⟩
  · exact Or.inr ⟨rfl, Or.inr (Or.inr ⟨rfl, hf⟩)⟩
  · exact Or.inr ⟨rfl, Or.inl rfl⟩
  · refine Or.inl ⟨⟨not_not.1 hl, by simpa using hf, fun l hl => ?_⟩, ?_⟩
    · exact Model.var_lt_of_all hk hl
    · dsimp only
      rw [lineUp_push]
      split <;> rename_i hu <;> rw [hu] <;> rfl

theorem addDiagram_ok (h : s.addDiagram p = (.ok i, t)) :
    Admits s p ∧ (s.enrol p).propagate = (none, t) := by
  rcases addDiagram_cases s p with ⟨ha, e⟩ | ⟨-, e | ⟨e, -⟩ | ⟨e, -⟩⟩
  · rw [e, Prod.mk.injEq] at h
    refine ⟨ha, Prod.ext ?_ h.2⟩
    cases f : (s.enrol p).propagate.1 with
    | none => rfl
    | some f => rw [f] at h; cases h.1
  all_goals
    rw [h] at e
    cases e

theorem addDiagram_infeasible (h : (s.addDiagram p).1 = .error .infeasibleDiagram) :
    Admits s p ∧ ∃ f t, (s.enrol p).propagate = (some f, t) ∧ f.isConflict = true := by
  rcases addDiagram_cases s p with ⟨ha, e⟩ | ⟨-, e | ⟨e, -⟩ | ⟨e, -⟩⟩
  · rw [e] at h
    refine ⟨ha, ?_⟩
    change answer _ _ = _ at h
    cases hf : (s.enrol p).propagate.1 with
    | none => rw [hf] at h; cases h
    | some f =>
      rw [hf] at h
      exact ⟨f, _, Prod.ext hf rfl, PostError.ofFailure_eq_infeasibleDiagram.1 (Except.error.inj h)⟩
  all_goals
    rw [h] at e
    cases e

end Solver

end DecisionDiagrams
