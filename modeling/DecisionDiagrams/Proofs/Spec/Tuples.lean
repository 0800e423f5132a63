import DecisionDiagrams.Proofs.Work.Outcome
import Mathlib.Data.Set.Basic

/-! What a model says without any diagram. A tuple of values, one for each layer, is evaluated from the
root on: the down transition over each value gives the next state, as long as the tests of the layer
accept the value. The tests see what an exact diagram knows while it is built: no up state but the
one of the sink, and combined states only if no up states are in use. -/

namespace DecisionDiagrams.Model

/-- The combined state which belongs to a down state while no up state is known. -/
def besides (m : Model) (down : State) : Checked (Option State) :=
  if !m.hasUp && m.hasCombined then some <$> m.derive down (m.fresh .up) else .ok none

/-- The up state of the children on the next layer, as far as it is known from the start. -/
def ahead (m : Model) (layer : Nat) : Option State :=
  if layer + 1 = m.depth then some (m.fresh .up) else none

/-- Whether the values `vs` of the layers from `layer` on are accepted, starting from a down state. -/
def admits (m : Model) : Nat → State → List Int → Checked Bool
  | _, _, [] => .ok true
  | layer, down, v :: vs => do
    let combined ← m.besides down
    if ← m.arcPasses layer v down combined (m.ahead layer) none then
      let next ← m.step .down layer down combined (.singleton v)
      m.admits (layer + 1) next vs
    else return false

/-- The accepted tuples in the product of the domains. -/
def tuples (m : Model) (s : Domains) : Set (List Int) :=
  {vs | vs.length = m.depth ∧ (∀ l v, vs[l]? = some v → s.contains (m.var l) v = true) ∧
    m.admits 0 (m.fresh .down) vs = .ok true}

/-- The tests accept a value, which leads from one down state to another. -/
def Leads (m : Model) (layer : Nat) (s : State) (v : Int) (t : State) : Prop :=
  ∃ combined, m.besides s = .ok combined ∧
    m.arcPasses layer v s combined (m.ahead layer) none = .ok true ∧
    m.step .down layer s combined (.singleton v) = .ok t

theorem admits_cons {m : Model} {layer : Nat} {s : State} {v : Int} {vs : List Int} :
    m.admits layer s (v :: vs) = .ok true ↔
      ∃ t, m.Leads layer s v t ∧ m.admits (layer + 1) t vs = .ok true := by
  rw [admits, Checked.bind_eq_ok]
  constructor
  · rintro ⟨combined, hc, h⟩
    obtain ⟨passes, hp, h⟩ := Checked.bind_eq_ok.1 h
    cases passes with
    | false => cases h
    | true =>
      obtain ⟨t, ht, h⟩ := Checked.bind_eq_ok.1 h
      exact ⟨t, ⟨combined, hc, hp, ht⟩, h⟩
  · rintro ⟨t, ⟨combined, hc, hp, ht⟩, h⟩
    refine ⟨combined, hc, ?_⟩
    rw [hp]
    refine Checked.bind_eq_ok.2 ⟨true, rfl, ?_⟩
    rw [if_pos rfl]
    exact Checked.bind_eq_ok.2 ⟨t, ht, h⟩

/-- The states from `s` on, when those after it are given. -/
def preceded (s : State) (after : Nat → State) : Nat → State
  | 0 => s
  | k + 1 => after k

/-- Accepted values lead from state to state. -/
theorem exists_leads {m : Model} : ∀ {layer : Nat} {s : State} {vs : List Int},
    m.admits layer s vs = .ok true → ∃ S : Nat → State, S 0 = s ∧
      ∀ k v, vs[k]? = some v → m.Leads (layer + k) (S k) v (S (k + 1))
  | _, s, [], _ => ⟨fun _ => s, rfl, by simp⟩
  | layer, s, v :: vs, h => by
    obtain ⟨t, ht, h⟩ := admits_cons.1 h
    obtain ⟨S, rfl, hS⟩ := exists_leads h
    refine ⟨preceded s S, rfl, fun k u hu => ?_⟩
    cases k with
    | zero =>
      obtain rfl := Option.some.inj hu
      exact ht
    | succ k =>
      rw [show layer + (k + 1) = layer + 1 + k by omega]
      exact hS k u hu

/-- The down state to which values lead from a layer on, whether the tests accept them or not. -/
def reach (m : Model) : Nat → State → List Int → Checked State
  | _, s, [] => .ok s
  | layer, s, v :: vs => do
    let combined ← m.besides s
    let next ← m.step .down layer s combined (.singleton v)
    m.reach (layer + 1) next vs

theorem reach_cons {m : Model} {layer : Nat} {s t : State} {v : Int} {vs : List Int} :
    m.reach layer s (v :: vs) = .ok t ↔ ∃ combined next, m.besides s = .ok combined ∧
      m.step .down layer s combined (.singleton v) = .ok next ∧
      m.reach (layer + 1) next vs = .ok t := by
  rw [reach]
  simp only [Checked.bind_eq_ok]
  constructor
  · rintro ⟨c, hc, n, hn, h⟩
    exact ⟨c, n, hc, hn, h⟩
  · rintro ⟨c, n, hc, hn, h⟩
    exact ⟨c, hc, n, hn, h⟩

theorem tuples_mono {m : Model} {s t : Domains}
    (h : ∀ l < m.depth, ∀ v, t.contains (m.var l) v = true → s.contains (m.var l) v = true) :
    m.tuples t ⊆ m.tuples s := by
  rintro vs ⟨hl, hv, ha⟩
  refine ⟨hl, fun l v e => h l ?_ v (hv l v e), ha⟩
  rw [← hl]
  exact (List.getElem?_eq_some_iff.1 e).1

end DecisionDiagrams.Model
