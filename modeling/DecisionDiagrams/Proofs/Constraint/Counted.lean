import DecisionDiagrams.Proofs.Constraint.Tame

/-! Counting constraints are encoded, whatever shares their diagram. Between exact states their tests say
whether the counts lie within the bounds; a label which takes part in a satisfying assignment passes between
all states which stand for the labels above and below. -/

namespace DecisionDiagrams

namespace Constraint

/-- The constraint bounds how often its variables take some values. -/
def Counts : Constraint → Prop
  | .among .. | .cardinality .. => True
  | _ => False

variable {c : Constraint} {domains : Domains} {s t : Spec}

/-- Counting constraints are encoded exactly, and soundly where states stand for several labels. `s` was
registered before the constraint and `t` is everything that shares its diagram; the other constraints compute
and merge properties of their own. The labels of an assignment lead to states if the other rules give results. -/
theorem counted (hc : c.Counts) (hs : s.Registered) (ht : t.Registered)
    (later : Spec.Enlarges (c.register domains s).2 t) (hcheck : t.check = .ok ())
    (guarded : t.Guarded s (c.register domains s).2) (σ : Var → Int) :
    (∀ a ∈ Spec.testsSince s (c.register domains s).2, ∀ arc, ∃ passes, a.2 arc = .ok passes) ∧
    ((∀ l < t.toModel.depth, ∀ i, ¬ Spec.Owned s (c.register domains s).2 .down i → ∀ source v target,
        ∃ r, t.toModel.stepProperty .down l source none (.singleton v) target i = .ok r) →
      ∃ S, t.toModel.Descends (t.toModel.labelsOf σ) S) ∧
    (∀ S, t.toModel.Descends (t.toModel.labelsOf σ) S → ∀ asides,
      t.Passing s (c.register domains s).2 σ S asides ↔ c.Holds t.order σ) ∧
    (c.Holds t.order σ → t.Admitting s (c.register domains s).2 σ) := by
  refine Spec.Encodes.sound_and_exact (H := fun order => c.Holds order σ) ?_ hs ht later hcheck guarded
  cases c with
  | among vars values lower upper => exact Counting.encodes_registerAmong vars values lower upper s σ
  | cardinality vars values lower upper => exact Counting.encodes_registerCardinality vars _ s σ
  | _ => exact hc.elim

/-! A cardinality stands between a precedence, which gives two variables their layers, and another count. -/
namespace Between

def first : Constraint := .precedence [1, 0] 1 2

def cardinality : Constraint := .cardinality [0, 2] [1, 2] [1, 0] [1, 1]

def last : Constraint := .among [2, 0, 3] [1] 0 1

/-- What is registered before the cardinality. -/
def before : Spec := .ofConstraints {} [first]

/-- What is registered with the cardinality. -/
def upTo : Spec := (cardinality.register {} before).2

def all : Spec := .ofConstraints {} [first, cardinality, last]

theorem checked : all.check = .ok () := by decide +kernel

theorem ruled : ∀ c ∈ [first, cardinality, last],
    c.Ruled ∧ c.registrable {} = true ∧ c.malformed? = none := by
  intro c hc
  simp only [List.mem_cons, List.not_mem_nil, or_false] at hc
  rcases hc with rfl | rfl | rfl <;> exact ⟨trivial, rfl, rfl⟩

theorem registered_before : before.Registered := (Spec.registered_of_ruled (p := [first]) ruled).1

theorem registered_all : all.Registered := (Spec.registered_of_ruled (p := [first]) ruled).2

theorem later : Spec.Enlarges upTo all := Spec.enlarges_ofConstraints (p := [first]) ruled

theorem guarded : all.Guarded before upTo := Spec.guarded_ofConstraints (p := [first]) ruled checked

theorem answers (l : Nat) (source : State) (v : Int) (target : State) (i : Nat) :
    ∃ r, all.toModel.stepProperty .down l source none (.singleton v) target i = .ok r :=
  Spec.exists_stepProperty_ofConstraints (p := [first]) (d := .down) ruled checked l source v target i

end Between

/-- The values 1 and 2 pass, and twice the value 1 does not. -/
theorem counted_between :
    ∃ S, Between.all.toModel.Descends (Between.all.toModel.labelsOf fun x => if x = 0 then 1 else 2) S ∧
      (∀ asides, Between.all.Passing Between.before Between.upTo (fun x => if x = 0 then 1 else 2) S asides) ∧
      Between.all.Admitting Between.before Between.upTo (fun x => if x = 0 then 1 else 2) ∧
    ∃ T, Between.all.toModel.Descends (Between.all.toModel.labelsOf fun _ => 1) T ∧
      ∀ asides, ¬ Between.all.Passing Between.before Between.upTo (fun _ => 1) T asides := by
  have given := counted (c := Between.cardinality) trivial Between.registered_before Between.registered_all
    Between.later Between.checked Between.guarded
  obtain ⟨-, lead, exact₁, sound⟩ := given fun x => if x = 0 then 1 else 2
  obtain ⟨-, lead', exact₂, -⟩ := given fun _ => 1
  obtain ⟨S, hS⟩ := lead fun l _ i _ source v target => Between.answers l source v target i
  obtain ⟨T, hT⟩ := lead' fun l _ i _ source v target => Between.answers l source v target i
  have holds : Between.cardinality.Holds Between.all.order fun x => if x = 0 then 1 else 2 := by
    intro v hv
    simp only [List.zip_cons_cons, List.zip_nil_right, List.mem_cons, List.not_mem_nil, or_false] at hv
    rcases hv with rfl | rfl <;> decide
  refine ⟨S, hS, fun asides => (exact₁ S hS asides).2 holds, sound holds, T, hT, fun asides hpass => ?_⟩
  have := (exact₂ T hT asides).1 hpass (1, 1, 1) List.mem_cons_self
  exact absurd this (by decide)

end Constraint
end DecisionDiagrams
