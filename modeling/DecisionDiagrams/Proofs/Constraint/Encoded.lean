import DecisionDiagrams.Proofs.Constraint.Tame

/-! Sequences, different values and precedences are encoded, whatever shares their diagram. Between exact states
their tests say whether an assignment satisfies the constraint, and a label of an assignment which does passes
between all states which stand for the labels above and below. In each theorem `s` was registered before the
constraint and `t` is everything that shares its diagram; the others compute and merge properties of their own. -/

namespace DecisionDiagrams

/-- A test passes the label of a layer behind all states which stand for the labels above, whatever is known from
below. -/
def Model.PassesBehind (m : Model) (σ : Nat → Int) (l : Nat) (check : ArcFacts → Checked Bool) : Prop :=
  ∀ (P : Set (List Int)) (parent : State), m.Gathers .down l P parent → m.trace σ .down l ∈ P →
    ∀ above child below, check ⟨m.view .down parent, above, child, below, l, σ l⟩ = .ok true

namespace Constraint

variable {c : Constraint} {domains : Domains} {s t : Spec} {vars : List Var}

/-! For the cases below, a constraint stands between a precedence, which gives two variables their layers, and a
count. -/
namespace Flanked

def first : Constraint := .precedence [1, 0] 1 2

def last : Constraint := .among [2, 0, 3] [1] 0 1

/-- What is registered before the constraint. -/
def before (domains : Domains) : Spec := .ofConstraints domains [first]

/-- What is registered with the constraint. -/
def upTo (domains : Domains) (c : Constraint) : Spec := (c.register domains (before domains)).2

def all (domains : Domains) (c : Constraint) : Spec := .ofConstraints domains [first, c, last]

/-- The labels lead to states between which the tests of the constraint pass. -/
def Accepts (domains : Domains) (c : Constraint) (σ : Var → Int) : Prop :=
  ∃ S, (all domains c).toModel.Descends ((all domains c).toModel.labelsOf σ) S ∧
    ∀ asides, (all domains c).Passing (before domains) (upTo domains c) σ S asides

/-- The labels lead to states between which a test of the constraint does not pass. -/
def Rejects (domains : Domains) (c : Constraint) (σ : Var → Int) : Prop :=
  ∃ S, (all domains c).toModel.Descends ((all domains c).toModel.labelsOf σ) S ∧
    ∀ asides, ¬ (all domains c).Passing (before domains) (upTo domains c) σ S asides

section

variable (hc : c.Ruled ∧ c.registrable domains = true ∧ c.malformed? = none)
include hc

theorem ruled : ∀ b ∈ [first] ++ c :: [last], b.Ruled ∧ b.registrable domains = true ∧ b.malformed? = none := by
  intro b hb
  simp only [List.cons_append, List.nil_append, List.mem_cons, List.not_mem_nil, or_false] at hb
  rcases hb with rfl | rfl | rfl
  · exact ⟨trivial, rfl, rfl⟩
  · exact hc
  · exact ⟨trivial, rfl, rfl⟩

theorem registered_before : (before domains).Registered :=
  (Spec.registered_of_ruled (p := [first]) (q := [last]) (ruled hc)).1

theorem registered_all : (all domains c).Registered :=
  (Spec.registered_of_ruled (p := [first]) (q := [last]) (ruled hc)).2

theorem later : Spec.Enlarges (upTo domains c) (all domains c) :=
  Spec.enlarges_ofConstraints (p := [first]) (q := [last]) (ruled hc)

variable (hcheck : (all domains c).check = .ok ())
include hcheck

theorem guarded : (all domains c).Guarded (before domains) (upTo domains c) :=
  Spec.guarded_ofConstraints (p := [first]) (q := [last]) (ruled hc) hcheck

theorem answers (l : Nat) (source : State) (v : Int) (target : State) (i : Nat) :
    ∃ r, (all domains c).toModel.stepProperty .down l source none (.singleton v) target i = .ok r :=
  Spec.exists_stepProperty_ofConstraints (p := [first]) (q := [last]) (d := .down) (ruled hc) hcheck l source v
    target i

variable {σ : Var → Int} {H : Prop}
  (lead : (∀ l < (all domains c).toModel.depth, ∀ i, ¬ Spec.Owned (before domains) (upTo domains c) .down i →
      ∀ source v target, ∃ r, (all domains c).toModel.stepProperty .down l source none (.singleton v) target i =
        .ok r) → ∃ S, (all domains c).toModel.Descends ((all domains c).toModel.labelsOf σ) S)
  (passing_iff : ∀ S, (all domains c).toModel.Descends ((all domains c).toModel.labelsOf σ) S → ∀ asides,
    (all domains c).Passing (before domains) (upTo domains c) σ S asides ↔ H)
include lead passing_iff

theorem accepts_of (h : H) : Accepts domains c σ := by
  obtain ⟨S, hS⟩ := lead fun l _ i _ source v target => answers hc hcheck l source v target i
  exact ⟨S, hS, fun asides => (passing_iff S hS asides).2 h⟩

theorem rejects_of (h : ¬ H) : Rejects domains c σ := by
  obtain ⟨S, hS⟩ := lead fun l _ i _ source v target => answers hc hcheck l source v target i
  exact ⟨S, hS, fun asides hpass => h ((passing_iff S hS asides).1 hpass)⟩

end

def sequence : Constraint := .sequence [0, 1, 2] 2 [1] 1 1

def oneToThree : Domain := .ofCons 1 [2, 3]

def roots : Domains := { domains := #[oneToThree, oneToThree, oneToThree] }

def allDifferent : Constraint := .allDifferent [0, 2]

def precedence : Constraint := .mandatoryPrecedence [0, 2] 1 2

/-- The specifications pass the check, and the precedence before the constraint gives the layers their order. -/
theorem checked : ((all {} sequence).check = .ok () ∧ scopeIn (all {} sequence).order [0, 1, 2] = [1, 0, 2]) ∧
    (all roots allDifferent).check = .ok () ∧
    (all {} precedence).check = .ok () ∧ scopeIn (all {} precedence).order [0, 2] = [0, 2] := by decide +kernel

end Flanked

/-- Sequences are encoded exactly, and soundly where states stand for several labels. They look at the state above
alone, and hold of everything if the scope is shorter than a window. -/
theorem sequence_encoded {length : Nat} {members : List Int} {lower upper : Int}
    (hc : c = .sequence vars length members lower upper) (hlen : length < 0x100000000) (hs : s.Registered)
    (ht : t.Registered) (later : Spec.Enlarges (c.register domains s).2 t) (hcheck : t.check = .ok ())
    (guarded : t.Guarded s (c.register domains s).2) (σ : Var → Int) :
    (∀ a ∈ Spec.testsSince s (c.register domains s).2, ∀ arc, ∃ passes, a.2 arc = .ok passes) ∧
    ((∀ l < t.toModel.depth, ∀ i, ¬ Spec.Owned s (c.register domains s).2 .down i → ∀ source v target,
        ∃ r, t.toModel.stepProperty .down l source none (.singleton v) target i = .ok r) →
      ∃ S, t.toModel.Descends (t.toModel.labelsOf σ) S) ∧
    (∀ S, t.toModel.Descends (t.toModel.labelsOf σ) S → ∀ asides,
      t.Passing s (c.register domains s).2 σ S asides ↔
        Sequence.Balanced members length lower upper σ (scopeIn t.order vars)) ∧
    (Sequence.Balanced members length lower upper σ (scopeIn t.order vars) →
      ∀ a ∈ Spec.testsSince s (c.register domains s).2, ∀ l < t.branchVars.size,
        Spec.covers t.coverage a.1 l = true → t.toModel.PassesBehind (t.toModel.labelsOf σ) l a.2) ∧
    (vars.length < length → Sequence.Balanced members length lower upper σ (scopeIn t.order vars)) := by
  subst hc
  have h := Sequence.encodes_register vars hlen members lower upper s σ
  obtain ⟨decided, descends, passing_iff, admits⟩ := h.sound_and_exact hs ht later hcheck guarded
  refine ⟨decided, descends, passing_iff, fun hσ a ha l hl hcov P parent hP htrace above child below => ?_,
    fun hshort i hi => ?_⟩
  · have hpass := admits hσ a ha l hl hcov P parent none hP htrace nofun above below
    obtain ⟨scope, k, e⟩ := Sequence.testsSince_register vars length members lower upper s
    rw [show a = _ from List.mem_singleton.1 (e ▸ ha)] at hpass ⊢
    exact hpass
  · have hle : (scopeIn t.order vars).length ≤ vars.length :=
      length_scopeIn_le (Spec.ordered_of_registered ht).nodup
    change i + length ≤ (scopeIn t.order vars).length at hi
    omega

namespace Flanked

theorem ruled_sequence : sequence.Ruled ∧ sequence.registrable {} = true ∧ sequence.malformed? = none :=
  ⟨show 2 < 0x100000000 by decide, rfl, rfl⟩

end Flanked

/-- Every second variable may take the value 1, but not all of them. -/
theorem sequence_encoded_flanked :
    Flanked.Accepts {} Flanked.sequence (fun x => if x = 0 then 2 else 1) ∧
      Flanked.Rejects {} Flanked.sequence fun _ => 1 := by
  have given := sequence_encoded (c := Flanked.sequence) rfl (by decide)
    (Flanked.registered_before Flanked.ruled_sequence) (Flanked.registered_all Flanked.ruled_sequence)
    (Flanked.later Flanked.ruled_sequence) Flanked.checked.1.1
    (Flanked.guarded Flanked.ruled_sequence Flanked.checked.1.1)
  obtain ⟨-, lead, iff₁, -⟩ := given fun x => if x = 0 then 2 else 1
  obtain ⟨-, lead', iff₂, -⟩ := given fun _ => 1
  rw [Flanked.checked.1.2] at iff₁ iff₂
  refine ⟨Flanked.accepts_of Flanked.ruled_sequence Flanked.checked.1.1 lead iff₁ fun i hi => ?_,
    Flanked.rejects_of Flanked.ruled_sequence Flanked.checked.1.1 lead' iff₂ fun h => ?_⟩
  · obtain rfl | rfl : i = 0 ∨ i = 1 := by
      change i + 2 ≤ 3 at hi
      omega
    · decide
    · decide
  · have hfirst := h 0 (Nat.le_succ 2)
    exact absurd hfirst.2 (by decide)

namespace Flanked

end Flanked

/-- The constraint says in which order its variables take two values. -/
def Precedes : Constraint → Prop
  | .precedence .. | .mandatoryPrecedence .. => True
  | _ => False

/-- Precedences are encoded exactly, and soundly where states stand for several labels, with respect to the order
of the layers. -/
theorem precedence_encoded (hc : c.Precedes) (hs : s.Registered) (ht : t.Registered)
    (later : Spec.Enlarges (c.register domains s).2 t) (hcheck : t.check = .ok ())
    (guarded : t.Guarded s (c.register domains s).2) (σ : Var → Int) :
    (∀ a ∈ Spec.testsSince s (c.register domains s).2, ∀ arc, ∃ passes, a.2 arc = .ok passes) ∧
    ((∀ l < t.toModel.depth, ∀ i, ¬ Spec.Owned s (c.register domains s).2 .down i → ∀ source v target,
        ∃ r, t.toModel.stepProperty .down l source none (.singleton v) target i = .ok r) →
      ∃ S, t.toModel.Descends (t.toModel.labelsOf σ) S) ∧
    (∀ S, t.toModel.Descends (t.toModel.labelsOf σ) S → ∀ asides,
      t.Passing s (c.register domains s).2 σ S asides ↔ c.Holds t.order σ) ∧
    (c.Holds t.order σ → t.Admitting s (c.register domains s).2 σ) := by
  refine Spec.Encodes.sound_and_exact (H := fun order => c.Holds order σ) ?_ hs ht later hcheck guarded
  cases c with
  | precedence vars before after => exact Precedence.encodes_registerValue vars before after s σ
  | mandatoryPrecedence vars before after => exact Precedence.encodes_registerMandatory vars before after s σ
  | _ => exact hc.elim

namespace Flanked

theorem ruled_precedence : precedence.Ruled ∧ precedence.registrable {} = true ∧ precedence.malformed? = none :=
  ⟨trivial, rfl, rfl⟩

theorem holds_precedence : precedence.Holds (all {} precedence).order fun x => if x = 0 then 1 else 2 := by
  refine ⟨fun above x below e hx => ?_, fun above x below e hx => ?_⟩
  · rw [checked.2.2.2] at e
    cases above with
    | nil =>
      obtain ⟨rfl, -⟩ := List.cons.inj e
      cases hx
    | cons a above =>
      obtain ⟨rfl, -⟩ := List.cons.inj e
      exact ⟨0, List.mem_cons_self, rfl⟩
  · rw [checked.2.2.2] at e
    cases above with
    | nil =>
      obtain ⟨-, hbelow⟩ := List.cons.inj e
      exact ⟨2, hbelow ▸ List.mem_cons_self, rfl⟩
    | cons a above =>
      obtain ⟨-, hrest⟩ := List.cons.inj e
      have hx' : x ∈ [2] := hrest ▸ List.mem_append_right _ List.mem_cons_self
      rw [List.mem_singleton.1 hx'] at hx
      cases hx

end Flanked

/-- The value 1 may be followed by the value 2, and must be. -/
theorem precedence_encoded_flanked :
    Flanked.Accepts {} Flanked.precedence (fun x => if x = 0 then 1 else 2) ∧
      (Flanked.all {} Flanked.precedence).Admitting (Flanked.before {}) (Flanked.upTo {} Flanked.precedence)
        (fun x => if x = 0 then 1 else 2) ∧
      Flanked.Rejects {} Flanked.precedence fun _ => 1 := by
  have given := precedence_encoded (c := Flanked.precedence) trivial
    (Flanked.registered_before Flanked.ruled_precedence) (Flanked.registered_all Flanked.ruled_precedence)
    (Flanked.later Flanked.ruled_precedence) Flanked.checked.2.2.1
    (Flanked.guarded Flanked.ruled_precedence Flanked.checked.2.2.1)
  obtain ⟨-, lead, iff₁, sound⟩ := given fun x => if x = 0 then 1 else 2
  obtain ⟨-, lead', iff₂, -⟩ := given fun _ => 1
  refine ⟨Flanked.accepts_of Flanked.ruled_precedence Flanked.checked.2.2.1 lead iff₁
      Flanked.holds_precedence, sound Flanked.holds_precedence,
    Flanked.rejects_of Flanked.ruled_precedence Flanked.checked.2.2.1 lead' iff₂ fun h => ?_⟩
  obtain ⟨y, hy, -⟩ := h.2 [0] 2 [] Flanked.checked.2.2.2 rfl
  cases hy

end Constraint
end DecisionDiagrams
