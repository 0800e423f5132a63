import DecisionDiagrams.Proofs.Engine.Layering

/-! A propagation which succeeds leaves a diagram and domains which agree: every value of a domain is
the label of an arc of its layer, and every label is in the domain, except on layers whose lost
values the diagram was not told of. -/

namespace DecisionDiagrams

open Work Cascade

variable {p : Plan} {stale : Nat → Prop} {w w' : Workspace}

theorem tidies_growLayer (hp : p.Distinct) {width : Option Nat} (hw : width ≠ some 0) {layer : Nat}
    (hl : layer < p.model.depth) : Tidies p stale (growLayer p width layer) w := fun ht =>
  wp.mono (wp_growLayer hw hl ht)
    (fun _ _ ⟨_, _, ht₁, hlayered, hs, _⟩ => ⟨Steps.tidy hp hs ht₁,
      hlayered.laid.evolves.toEvolves.trans (.of_shrinks (Steps.shrinks hs ht₁.toCensus))⟩)
    fun _ _ _ => trivial

/-- A tidy workspace in which every value of a domain has an arc. -/
def Settled (p : Plan) (stale : Nat → Prop) (w w' : Workspace) : Prop :=
  Tidy p stale [] w' ∧ Evolves w w' ∧ Supported p (List.range p.model.depth) w'

/-- Every propagation ends by taking out the values without an arc. -/
theorem wp_enforceSupports_settled (hp : p.Distinct) (h : Upkept p stale w w') :
    wp (enforceSupports p) (fun _ => Settled p stale w) (fun _ _ => True) w' :=
  wp.mono (wp_enforceSupports hp w') (fun _ _ k => ⟨k.1.tidy h.1, h.2.trans k.1.evolves, k.2⟩) fun _ _ _ => trivial

theorem wp_grow (hp : p.Distinct) {width : Option Nat} (hw : width ≠ some 0)
    (ht : Tidy p stale [] w) :
    wp (grow p width) (fun _ w' => Settled p stale w w' ∧ w'.built = true) (fun _ _ => True) w := by
  have start : Upkept p stale w w.opened := ⟨ht.congr rfl rfl rfl ht.cached, .of_graph rfl (.refl _) id fun _ => rfl⟩
  have root : ∀ states, Upkept p stale w.opened (w.opened.addNode 0 states).2 := fun states =>
    ⟨start.1.addNode (Nat.zero_le _) states, (Adds.addNode 0 states w.opened).toEvolves⟩
  refine wp.mono (wp_grow_of (fun _ => Upkept p stale w.opened) (Upkept p stale w.opened) (fun _ => trivial)
    (fun states _ => root states) (fun l hl w' h => (tidies_growLayer hp hw hl).goesOn h)
    (fun w' _ h => (tidies_testNodes hp).goesOn h) (fun _ _ h => h) fun w' h => wp_enforceSupports_settled hp h)
    (fun _ w' k => ⟨⟨k.1, start.2.trans k.2.1, k.2.2⟩, k.2.1.built rfl⟩) fun _ _ k => k

theorem Options.firstWidth_ne_zero {o : Options} (h : o.isValid = true) :
    o.firstWidth ≠ some 0 := by
  have hm : o.maxWidth ≠ some 0 := by simpa [Options.isValid] using h
  unfold Options.firstWidth
  split
  · exact hm
  · cases o.maxWidth <;> simp

/-- The layers which still wait for their domain after the layers `lost` of a built diagram were
enforced. -/
def remaining (stale : Nat → Prop) (built : Bool) (lost : List Nat) (l : Nat) : Prop :=
  stale l ∧ ¬ (built = true ∧ l ∈ lost)

/-- The domains of the listed layers are enforced. -/
theorem wp_enforceDomains_upkept (hp : p.Distinct) {b : Bool} {lost : List Nat} {v : Workspace} (hb : w'.built = true)
    (h : Upkept p stale v w') : wp (enforceDomains p lost)
      (fun _ w'' => Upkept p (remaining stale b lost) v w'' ∧ w''.built = true) (fun _ _ => True) w' :=
  wp.mono (wp_enforceDomains hp h.1 lost)
    (fun _ _ k => ⟨⟨k.1.weaken fun _ hl => ⟨hl.1, fun h => hl.2 h.2⟩, h.2.trans k.2⟩, k.2.built hb⟩) fun _ _ _ => trivial

theorem wp_maintainExact (hp : p.Distinct) (lost : List Nat) (ht : Tidy p stale [] w) :
    wp (maintainExact p lost)
      (fun _ w' => Settled p (remaining stale w.built lost) w w' ∧ w'.built = true)
      (fun _ _ => True) w := by
  refine wp_maintainExact_of (fun w' => Upkept p (remaining stale w.built lost) w w' ∧ w'.built = true) (fun new => ?_)
    (fun old => wp_enforceDomains_upkept hp old ⟨ht, .refl w⟩) fun w' h => ?_
  · exact wp_grow hp (by simp) (ht.weaken fun l hl => ⟨hl, fun h => absurd (new.symm.trans h.1) nofun⟩)
  · exact wp.mono (wp.and (wp_enforceSupports_settled hp h.1) (tidies_enforceSupports hp h.1.1))
      (fun _ _ k => ⟨k.1, k.2.2.built h.2⟩) fun _ _ _ => trivial

theorem wp_maintainRelaxed (hp : p.Distinct) (ho : p.options.isValid = true) (fuel : Nat)
    (lost : List Nat) (ht : Tidy p stale [] w) :
    wp (maintainRelaxed p fuel lost)
      (fun _ w' => Settled p (remaining stale w.built lost) w w' ∧ w'.built = true)
      (fun _ _ => True) w := by
  let I : (Nat → Prop) → Workspace → Prop := fun stale w' => Upkept p stale w w' ∧ w'.built = true
  have on : ∀ {x : Work PUnit} {stale' w'}, Tidies p stale' x w' → I stale' w' →
      wp x (fun _ => I stale') (fun _ _ => True) w' := fun hx h =>
    wp.mono (hx h.1.1) (fun _ _ k => ⟨⟨k.1, h.1.2.trans k.2⟩, k.2.built h.2⟩) fun _ _ _ => trivial
  refine wp_maintainRelaxed_of (I stale) (I stale) (I (remaining stale w.built lost)) (I (remaining stale w.built lost))
    (fun _ => ?_) (fun _ _ h => on (tidies_completeNodes hp) h) (fun _ _ h => h) (fun old => ⟨⟨ht, .refl w⟩, old⟩)
    (fun _ h => wp_enforceDomains_upkept hp h.2 h.1) (fun _ h _ => on (tidies_passes hp fuel fuel 0) h)
    (fun _ _ h _ => h) fun w' h => ?_
  · exact wp.mono (wp_grow hp (Options.firstWidth_ne_zero ho) ht) (fun _ _ k => ⟨⟨k.1.1, k.1.2.1⟩, k.2⟩) fun _ _ k => k
  · exact wp.mono (wp.and (wp_enforceSupports_settled hp h.1) (on (tidies_enforceSupports hp) h))
      (fun _ _ k => ⟨k.1, k.2.2⟩) fun _ _ _ => trivial

end DecisionDiagrams
