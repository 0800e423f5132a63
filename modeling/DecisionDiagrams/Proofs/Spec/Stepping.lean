import DecisionDiagrams.Proofs.Spec.Joins

/-! Transitions which always write their property, from the property itself and from what they declare to read.
Combined properties may be among what is read; the other properties depend on the states of one side alone. -/

namespace DecisionDiagrams

/-- Every transition gives a result, whatever it is given, and writes nothing but its property. What it writes
depends on the property and on what the transition declares to read. Built-in relaxations merge the properties. -/
structure Spec.Stepping (t : Spec) : Prop where
  own : ∀ {d : Direction} {i : Nat} {q : Property}, (t.properties.get d.side)[i]? = some q → q.Local i
  writes : ∀ {d : Direction} {i : Nat} {q : Property}, (t.properties.get d.side)[i]? = some q →
    ∀ {reads run}, q.rule = .transition reads run → ∀ l s combined values target,
    ∃ w, run (t.toModel.stepFacts d l s combined) values (t.toModel.view d.side target) = .ok w
  determined : ∀ {d : Direction} {i : Nat} {q : Property}, (t.properties.get d.side)[i]? = some q →
    ∀ {reads run}, q.rule = .transition reads run →
    ∀ {l s s' combined combined' values target target' v w},
    (∀ j, j = i ∨ ⟨d.side, j⟩ ∈ reads → t.toModel.Alike d.side j s s') →
    (∀ j, ⟨.combined, j⟩ ∈ reads → Option.Rel (t.toModel.Alike .combined j) combined combined') →
    run (t.toModel.stepFacts d l s combined) values (t.toModel.view d.side target) = .ok v →
    run (t.toModel.stepFacts d l s' combined') values (t.toModel.view d.side target') = .ok w →
    t.toModel.Alike d.side i v.state w.state

namespace Spec

variable {t : Spec} {d : Direction} {i : Nat}

/-- The property does not declare to read a combined property. -/
def Unmixed (t : Spec) (side : Side) (i : Nat) : Prop :=
  ∀ q, (t.properties.get side)[i]? = some q → ∀ r ∈ q.rule.reads, r.side ≠ .combined

/-- It is enough that every property is an integer which is set to a number made of what the transition reads. -/
theorem Stepping.of_integers (hc : t.check = .ok ()) (h : ∀ {d : Direction} {i : Nat} {q : Property},
    (t.properties.get d.side)[i]? = some q → (∀ merge, q.relaxation ≠ .custom merge) ∧
      ∃ reads, ∃ g : StepFacts → IntSet → Int, ∃ a lo hi, q.kind = .integer a lo hi ∧
        (q.rule = .transition reads fun x values out => .ok (out.setInteger i (g x values))) ∧
        ∀ {l s s' combined combined'}, (∀ j, j = i ∨ ⟨d.side, j⟩ ∈ reads → t.toModel.Alike d.side j s s') →
          (∀ j, ⟨.combined, j⟩ ∈ reads → Option.Rel (t.toModel.Alike .combined j) combined combined') →
          g (t.toModel.stepFacts d l s combined) = g (t.toModel.stepFacts d l s' combined')) : t.Stepping where
  own hq := by
    obtain ⟨builtIn, reads, g, a, lo, hi, -, hrule, -⟩ := h hq
    exact .of_total hrule builtIn fun hl => View.writes_setInteger hl _ _
  writes hq reads run hrule l s combined values target := by
    obtain ⟨-, _, g, a, lo, hi, -, hset, -⟩ := h hq
    obtain ⟨-, rfl⟩ := Rule.transition.inj (hset.symm.trans hrule)
    exact ⟨_, rfl⟩
  determined {d i q} hq reads run hrule l s s' combined combined' values target target' v w hs hcomb hv hw := by
    obtain ⟨-, _, g, a, lo, hi, kind, hset, same⟩ := h hq
    obtain ⟨rfl, rfl⟩ := Rule.transition.inj (hset.symm.trans hrule)
    obtain rfl := Except.ok.inj hv
    obtain rfl := Except.ok.inj hw
    intro slot hslot
    obtain ⟨q', hq', hk⟩ := property_of_slot hslot
    obtain rfl := Option.some.inj (hq.symm.trans hq')
    have hl := sound_layout hc d.side
    rw [same hs hcomb]
    exact View.agree_setInteger (v := t.toModel.view d.side target) (w := t.toModel.view d.side target') hl hl hslot
      hslot (hk.trans kind) _

namespace Stepping

variable (h : t.Stepping) (hc : t.check = .ok ())
include h hc

theorem certain (hi : t.Unmixed d.side i) : t.toModel.Certain d i := by
  refine certain_of_determined hc fun hq reads run hrule l v s s' target combined w same hw combined' target' => ?_
  obtain ⟨w', hw'⟩ := h.writes hq hrule l s' combined' (.singleton v) target'
  refine ⟨w', hw', h.determined hq hrule same (fun j hj => absurd rfl (hi _ hq ⟨.combined, j⟩ ?_)) hw hw'⟩
  rw [hrule]
  exact hj

theorem exists_stepProperty (l : Nat) (s : State) (combined : Option State) (values : IntSet) (target : State)
    (i : Nat) : ∃ r, t.toModel.stepProperty d l s combined values target i = .ok r := by
  by_cases hi : i ∈ t.toModel.active d l
  · obtain ⟨q, hq, htrans, -⟩ := (mem_active (lt_of_mem_active hi)).1 hi
    obtain ⟨reads, run, hrule⟩ := Rule.exists_of_isTransition htrans
    obtain ⟨w, hw⟩ := h.writes hq hrule l s combined values target
    exact ⟨w.state, stepProperty_of_run hq hi hrule hw⟩
  · obtain ⟨r, hr, -⟩ := exists_stepProperty_idle hc hi s combined values target
    exact ⟨r, hr⟩

/-- The model of a specification whose transitions keep to what they declare. -/
theorem sure (d : Direction) : t.toModel.Sure d (t.Unmixed d.side) where
  toSeparate := separate hc h.own
  toLattice := lattice hc fun hq => (h.own hq).builtIn
  total l s combined v := by
    obtain ⟨r, hr⟩ := Checked.exists_foldlM
      (fun target j => h.exists_stepProperty hc l s combined (.singleton v) target j) (t.toModel.active d l).toList s
    exact ⟨_, by unfold Model.step Model.stepInto; rw [hr]; rfl⟩
  certain _ hi := h.certain hc hi

end Stepping
end Spec
end DecisionDiagrams
