import DecisionDiagrams.Proofs.Constraint.AllDifferent
import DecisionDiagrams.Proofs.Constraint.Precedence
import DecisionDiagrams.Proofs.Constraint.Sequence
import DecisionDiagrams.Proofs.Constraint.Sum

/-! What the constraints with rules of their own mean, that a diagram made of them has a certificate for
every assignment which satisfies them, and that exact states along any other assignment make a test
fail. -/

namespace DecisionDiagrams

namespace Constraint

/-- An assignment satisfies a constraint. The layers of the diagram are in the given order, in which
sequences and precedences are read. -/
def Holds (order : List Var) (σ : Var → Int) : Constraint → Prop
  | .allDifferent vars => (vars.map σ).Nodup
  | .among vars values lower upper =>
    lower ≤ Counting.countOf values σ vars ∧ Counting.countOf values σ vars ≤ upper
  | .cardinality vars values lower upper => ∀ v ∈ values.zip (lower.zip upper),
    v.2.1 ≤ Counting.countOf [v.1] σ vars ∧ Counting.countOf [v.1] σ vars ≤ v.2.2
  | .sequence vars length values lower upper =>
    Sequence.Balanced values length lower upper σ (scopeIn order vars)
  | .sum vars weights lower upper =>
    lower ≤ Sum.sumOf vars weights σ ∧ Sum.sumOf vars weights σ ≤ upper
  | .precedence vars before after => Precedence.Preceded before after σ (scopeIn order vars)
  | .mandatoryPrecedence vars before after =>
    Precedence.Preceded before after σ (scopeIn order vars) ∧
      Precedence.Answered before after σ (scopeIn order vars)
  | .custom _ => True

/-- The constraint has rules of its own, the extreme sums over the domains fit into 32 bits, and so do
the places of a window. -/
def InLibrary (domains : Domains) : Constraint → Prop
  | .sum vars weights _ _ => Sum.Fits domains vars weights
  | .sequence _ length _ _ _ => length < 0x100000000
  | .custom _ => False
  | _ => True

variable {domains : Domains} {σ : Var → Int}

theorem known_of_all {vars : List Var}
    (h : (vars.all fun x => decide (x < domains.size)) = true)
    (hσ : ∀ x < domains.size, domains.contains x (σ x) = true) : Known domains vars σ :=
  fun x hx => hσ x (of_decide_eq_true (List.all_eq_true.1 h x hx))

/-- The constraint has rules of its own, and the places of a window fit into 32 bits. -/
def Ruled : Constraint → Prop
  | .sequence _ length _ _ _ => length < 0x100000000
  | .custom _ => False
  | _ => True

/-- The numbers which the states of the constraint hold along the assignment fit into 32 bits. -/
def Representable (order : List Var) (σ : Var → Int) : Constraint → Prop
  | .sum vars weights _ _ => Sum.Representable vars weights order σ
  | _ => True

theorem length_weights {vars : List Var} {weights : List Int} {lower upper : Int}
    (hm : (Constraint.sum vars weights lower upper).malformed? = none) :
    vars.length = weights.length := by
  unfold malformed? at hm
  dsimp only at hm
  split_ifs at hm with h
  exact h

/-- Whatever bounds no sum is encoded by its tests. -/
theorem encodes {c : Constraint} (hl : c.Ruled)
    (hsum : ∀ vars weights lower upper, c ≠ .sum vars weights lower upper) (hr : c.registrable domains = true)
    (hσ : ∀ x < domains.size, domains.contains x (σ x) = true) (s : Spec) :
    Spec.Encodes σ (fun order => c.Holds order σ) s (c.register domains s).2 := by
  cases c with
  | allDifferent vars => exact AllDifferent.encodes_register domains vars s (known_of_all hr hσ)
  | among vars values lower upper => exact Counting.encodes_registerAmong vars values lower upper s σ
  | cardinality vars values lower upper =>
    exact Counting.encodes_registerCardinality vars (values.zip (lower.zip upper)) s σ
  | sequence vars length values lower upper =>
    exact Sequence.encodes_register vars hl values lower upper s σ
  | sum vars weights lower upper => exact absurd rfl (hsum vars weights lower upper)
  | precedence vars before after => exact Precedence.encodes_registerValue vars before after s σ
  | mandatoryPrecedence vars before after => exact Precedence.encodes_registerMandatory vars before after s σ
  | custom c => exact hl.elim

/-- A constraint contributes tests which let the assignments pass that satisfy it and keep their
numbers within 32 bits. -/
theorem contributes_of_representable {c : Constraint} (hl : c.Ruled)
    (hr : c.registrable domains = true) (hm : c.malformed? = none)
    (hσ : ∀ x < domains.size, domains.contains x (σ x) = true) (s : Spec) :
    Spec.Contributes σ (fun order => c.Holds order σ ∧ c.Representable order σ) s
      (c.register domains s).2 := by
  cases c with
  | sum vars weights lower upper =>
    have hlen := length_weights hm
    have hk := known_of_all hr hσ
    exact Sum.contributes_register_of domains vars weights lower upper s hlen hk
      fun t c h ho => ⟨ho.2.short h hlen hk, ho.1⟩
  | _ => exact (encodes hl nofun hr hσ s).contributes.mono fun _ => And.left

theorem InLibrary.ruled {c : Constraint} (h : c.InLibrary domains) : c.Ruled := by
  cases c with
  | sequence => exact h
  | custom => exact h
  | _ => exact trivial

/-- A constraint contributes tests which let the assignments pass that satisfy it. -/
theorem contributes {c : Constraint} (hl : c.InLibrary domains) (hr : c.registrable domains = true)
    (hm : c.malformed? = none) (hσ : ∀ x < domains.size, domains.contains x (σ x) = true) (s : Spec) :
    Spec.Contributes σ (fun order => c.Holds order σ) s (c.register domains s).2 := by
  cases c with
  | sum vars weights lower upper =>
    exact Sum.contributes_register domains vars weights lower upper s (length_weights hm)
      (known_of_all hr hσ) hl
  | _ => exact (contributes_of_representable hl.ruled hr hm hσ s).mono fun _ h => ⟨h, trivial⟩

/-- The properties of a constraint join the labels of the domains. -/
theorem joined {c : Constraint} (hl : c.Ruled) (hr : c.registrable domains = true) {s : Spec}
    (h : s.Joined fun x v => domains.contains x v = true) :
    (c.register domains s).2.Joined fun x v => domains.contains x v = true := by
  cases c with
  | allDifferent vars => exact AllDifferent.joined_register h domains vars fun _ _ _ => id
  | among vars values lower upper => exact Counting.joined_registerAmong h vars values lower upper
  | cardinality vars values lower upper => exact Counting.joined_registerCardinality h vars _
  | sequence vars length values lower upper => exact Sequence.joined_register h vars hl values lower upper
  | sum vars weights lower upper => exact Sum.joined_register h domains vars weights lower upper
  | precedence vars before after => exact Precedence.joined_registerValue h vars before after
  | mandatoryPrecedence vars before after => exact Precedence.joined_registerMandatory h vars before after
  | custom c => exact hl.elim

/-- A constraint decides whether an assignment satisfies it. -/
theorem decides {c : Constraint} (hl : c.InLibrary domains) (hr : c.registrable domains = true)
    (hm : c.malformed? = none) (hσ : ∀ x < domains.size, domains.contains x (σ x) = true) (s : Spec) :
    Spec.Decides σ (fun order => c.Holds order σ) s (c.register domains s).2 := by
  cases c with
  | sum vars weights lower upper =>
    exact Sum.decides_register domains vars weights lower upper s (length_weights hm)
      (known_of_all hr hσ) hl
  | _ => exact (encodes hl.ruled nofun hr hσ s).toDecides

end Constraint

namespace Spec

variable {domains : Domains} {cs : List Constraint} {σ : Var → Int}

theorem ofConstraints_append (domains : Domains) (cs ds : List Constraint) :
    ofConstraints domains (cs ++ ds) = (ds.forM (·.register domains) (ofConstraints domains cs)).2 :=
  forM_append cs ds {}

theorem ofConstraints_concat (domains : Domains) (cs : List Constraint) (c : Constraint) :
    ofConstraints domains (cs ++ [c]) = (c.register domains (ofConstraints domains cs)).2 :=
  ofConstraints_append domains cs [c]

theorem contributes_ofConstraints (hcs : ∀ c ∈ cs, c.InLibrary domains ∧
      c.registrable domains = true ∧ c.malformed? = none)
    (hσ : ∀ x < domains.size, domains.contains x (σ x) = true) :
    Contributes σ (fun order => ∀ c ∈ cs, c.Holds order σ) {} (ofConstraints domains cs) :=
  Contributes.forM (I := fun _ => True) cs (fun c hc s _ =>
    ⟨Constraint.contributes (hcs c hc).1 (hcs c hc).2.1 (hcs c hc).2.2 hσ s, trivial⟩) trivial

theorem decides_ofConstraints (hcs : ∀ c ∈ cs, c.InLibrary domains ∧
      c.registrable domains = true ∧ c.malformed? = none)
    (hσ : ∀ x < domains.size, domains.contains x (σ x) = true) :
    Decides σ (fun order => ∀ c ∈ cs, c.Holds order σ) {} (ofConstraints domains cs) :=
  Decides.forM (I := fun _ => True) cs (fun c hc s _ =>
    ⟨Constraint.decides (hcs c hc).1 (hcs c hc).2.1 (hcs c hc).2.2 hσ s, trivial⟩) trivial

theorem ordered_empty : Ordered {} := ⟨List.nodup_nil, nofun⟩

theorem local_empty : Local {} := by
  refine ⟨fun {side i q} hq => ?_, rfl⟩
  cases side <;> cases hq

theorem contributes_of_ruled (hcs : ∀ c ∈ cs, c.Ruled ∧ c.registrable domains = true ∧
      c.malformed? = none) (hσ : ∀ x < domains.size, domains.contains x (σ x) = true) :
    Contributes σ (fun order => ∀ c ∈ cs, c.Holds order σ ∧ c.Representable order σ) {}
      (ofConstraints domains cs) :=
  Contributes.forM (I := fun _ => True) cs (fun c hc s _ =>
    ⟨Constraint.contributes_of_representable (hcs c hc).1 (hcs c hc).2.1 (hcs c hc).2.2 hσ s,
      trivial⟩) trivial

/-- No domain is empty. -/
theorem exists_values (domains : Domains) :
    ∃ σ : Var → Int, ∀ x < domains.size, domains.contains x (σ x) = true := by
  have hne : ∀ x, ∃ v, x < domains.size → domains.contains x v = true := fun x => by
    by_cases hx : x < domains.size
    · obtain ⟨v, hv⟩ := Domains.exists_contains hx
      exact ⟨v, fun _ => hv⟩
    · exact ⟨0, fun h => absurd h hx⟩
  choose σ hσ using hne
  exact ⟨σ, hσ⟩

/-- Constraints with rules of their own give every variable one layer. -/
theorem ordered_of_ruled (hcs : ∀ c ∈ cs, c.Ruled ∧ c.registrable domains = true ∧
      c.malformed? = none) : (ofConstraints domains cs).Ordered := by
  obtain ⟨σ, hσ⟩ := exists_values domains
  exact (contributes_of_ruled hcs hσ).ordered ordered_empty

theorem ordered_ofConstraints (hcs : ∀ c ∈ cs, c.InLibrary domains ∧
      c.registrable domains = true ∧ c.malformed? = none) : (ofConstraints domains cs).Ordered :=
  ordered_of_ruled fun c hc => ⟨(hcs c hc).1.ruled, (hcs c hc).2⟩

/-- The model of what contributes soundly has a certificate. -/
theorem certificate_of_contributes {t : Spec} {H : List Var → Prop} (hall : Contributes σ H {} t)
    (hc : t.check = .ok ()) (hold : H t.order) :
    t.toModel.Plain ∧ Nonempty (Certificate t.toModel (t.toModel.labelsOf σ)) := by
  have hadm := hall.admits t (.refl t) hc (hall.ordered ordered_empty) hold ordered_empty nofun
  refine ⟨(hall.writes local_empty).plain hc, ⟨t.toModel.certificate _ fun l hl check hcheck => ?_⟩⟩
  rw [arcChecks_toModel hl] at hcheck
  obtain ⟨a, ha, rfl⟩ := List.mem_map.1 hcheck
  obtain ⟨hmem, hcov⟩ := List.mem_filter.1 ha
  exact hadm a hmem l hl hcov

/-- The model of library constraints has a certificate for what satisfies them all. -/
theorem certificate_of_holds {m : Model} (hcs : ∀ c ∈ cs, c.InLibrary domains ∧
      c.registrable domains = true ∧ c.malformed? = none)
    (hm : (ofConstraints domains cs).compile = .ok m)
    (hσ : ∀ x < domains.size, domains.contains x (σ x) = true)
    (hold : ∀ c ∈ cs, c.Holds m.branchVars.toList σ) :
    m.Plain ∧ Nonempty (Certificate m (m.labelsOf σ)) := by
  obtain ⟨hc, rfl⟩ := compile_eq_ok.1 hm
  exact certificate_of_contributes (contributes_ofConstraints hcs hσ) hc hold

/-! ### Bundles and exact states -/

theorem joined_of_ruled (hcs : ∀ c ∈ cs, c.Ruled ∧ c.registrable domains = true) :
    (ofConstraints domains cs).Joined fun x v => domains.contains x v = true :=
  forM_keeps (I := fun s => s.Joined fun x v => domains.contains x v = true) cs
    (fun c hc _ hs => Constraint.joined (hcs c hc).1 (hcs c hc).2 hs) (joined_empty _)

theorem local_of_ruled (hcs : ∀ c ∈ cs, c.Ruled ∧ c.registrable domains = true ∧
      c.malformed? = none) : (ofConstraints domains cs).Local := by
  obtain ⟨σ, hσ⟩ := exists_values domains
  exact (contributes_of_ruled hcs hσ).writes local_empty

/-- In the model of constraints with rules of their own, bundles of values join their labels. -/
theorem joined_ofConstraints {m : Model} (hcs : ∀ c ∈ cs, c.Ruled ∧ c.registrable domains = true ∧
      c.malformed? = none) (hm : (ofConstraints domains cs).compile = .ok m) (d : Direction) :
    m.Joined d fun l v => domains.contains (m.var l) v = true := by
  obtain ⟨hc, rfl⟩ := compile_eq_ok.1 hm
  have hjoined := joined_of_ruled fun c hc => ⟨(hcs c hc).1, (hcs c hc).2.1⟩
  exact hjoined.model hc (local_of_ruled hcs) (ordered_of_ruled hcs) d

/-- If all tests let the labels pass between exact states, the constraints hold. -/
theorem holds_of_passes {m : Model} {S : Nat → State} (hcs : ∀ c ∈ cs, c.InLibrary domains ∧
      c.registrable domains = true ∧ c.malformed? = none)
    (hm : (ofConstraints domains cs).compile = .ok m)
    (hσ : ∀ x < domains.size, domains.contains x (σ x) = true) (hS : m.Follows (m.labelsOf σ) S)
    (hpass : ∀ l < m.depth, ∀ check ∈ (m.rules l).arcChecks, m.Passes (m.labelsOf σ) S l check) :
    ∀ c ∈ cs, c.Holds m.branchVars.toList σ := by
  have hjoined := joined_ofConstraints (fun c hc => ⟨(hcs c hc).1.ruled, (hcs c hc).2⟩) hm .down
  have hd := decides_ofConstraints (σ := σ) hcs hσ
  have ho := ordered_ofConstraints hcs
  obtain ⟨hc, rfl⟩ := compile_eq_ok.1 hm
  refine hd.decides _ S (Contributes.refl σ (fun _ => True) _).enlarges
    ⟨hc, ho, hjoined.toDeclared, hS⟩ ordered_empty fun a ha l hl hcov => hpass l hl _ ?_
  rw [arcChecks_toModel hl]
  exact List.mem_map_of_mem (List.mem_filter.2 ⟨ha, hcov⟩)

end Spec
end DecisionDiagrams
