import DecisionDiagrams.Proofs.Engine.Agreement
import DecisionDiagrams.Proofs.Engine.Lasting

/-! Every pass comes to an end. Steps which ask for an allowance need only a finite one, and then a larger
one changes nothing. What is left to be used up goes down with every round which leaves something waiting;
while it stays as it is, the passes only go forward. -/

namespace DecisionDiagrams

open Work

/-- What is done with two allowances comes to an end: from some allowances on it always has the result `r`,
and under smaller ones it has this result too or is given up. -/
structure Finishes {ρ : Type} (gaveUp : ρ → Prop) (f : Nat → Nat → ρ) (r : ρ) : Prop where
  same : ∀ k j, f k j = r ∨ gaveUp (f k j)
  always : ∃ N, ∀ k ≥ N, ∀ j ≥ N, f k j = r

namespace Finishes

variable {ρ σ : Type} {gaveUp : ρ → Prop} {gaveUp' : σ → Prop} {f : Nat → Nat → ρ} {r : ρ}

theorem const (gaveUp : ρ → Prop) (r : ρ) : Finishes gaveUp (fun _ _ => r) r :=
  ⟨fun _ _ => Or.inl rfl, 0, fun _ _ _ _ => rfl⟩

theorem bind {g : Nat → Nat → ρ → σ} {t : σ} (hf : Finishes gaveUp f r)
    (hg : Finishes gaveUp' (fun k j => g k j r) t) (stops : ∀ k j x, gaveUp x → gaveUp' (g k j x)) :
    Finishes gaveUp' (fun k j => g k j (f k j)) t := by
  obtain ⟨N, hN⟩ := hf.always
  obtain ⟨M, hM⟩ := hg.always
  refine ⟨fun k j => ?_, max N M, fun k hk j hj => ?_⟩
  · rcases hf.same k j with h | h
    · rw [h]
      exact hg.same k j
    · exact Or.inr (stops k j _ h)
  · rw [hN k (le_trans (le_max_left _ _) hk) j (le_trans (le_max_left _ _) hj)]
    exact hM k (le_trans (le_max_right _ _) hk) j (le_trans (le_max_right _ _) hj)

/-- The second allowance pays for one more step. -/
theorem step (h₀ : ∀ k, gaveUp (f k 0)) (h : Finishes gaveUp (fun k j => f k (j + 1)) r) :
    Finishes gaveUp f r := by
  obtain ⟨N, hN⟩ := h.always
  refine ⟨fun k j => ?_, N + 1, fun k hk j hj => ?_⟩
  · cases j with
    | zero => exact Or.inr (h₀ k)
    | succ j => exact h.same k j
  · obtain ⟨i, rfl⟩ : ∃ i, j = i + 1 := ⟨j - 1, by omega⟩
    exact hN k (by omega) i (by omega)

/-- Both allowances are the same. -/
theorem diagonal (h : Finishes gaveUp f r) : Finishes gaveUp (fun k _ => f k k) r := by
  obtain ⟨N, hN⟩ := h.always
  exact ⟨fun k _ => h.same k k, N, fun k hk _ _ => hN k hk k hk⟩

end Finishes

/-- The step was given up for want of an allowance. -/
def GaveUp {α : Type} (r : EStateM.Result Stop Workspace α) : Prop := ∃ w', r = .error .exhausted w'

/-- A step which comes to an end and does not stop for want of an allowance. -/
def Terminates {α : Type} (p : Plan) (f : Nat → Nat → Work α) (Q : α → Workspace → Prop) (w : Workspace) :
    Prop :=
  ∃ x : Work α, Finishes GaveUp (fun k j => f k j w) (x w) ∧ wp x (fun a w' => Filed p w' ∧ Q a w') (Halts p) w

/-- A step of a propagation of a built diagram which comes to an end. -/
def Ends {α : Type} (p : Plan) (f : Nat → Nat → Work α) (Q : α → Workspace → Prop) (w : Workspace) : Prop :=
  Filed p w → Terminates p f Q w

/-- Goes on after a result, unless it is a failure. -/
def resume {α β : Type} (g : α → Work β) : EStateM.Result Stop Workspace α → EStateM.Result Stop Workspace β
  | .ok a w' => g a w'
  | .error e w' => .error e w'

section

variable {α β : Type} {p : Plan} {w : Workspace} {f : Nat → Nat → Work α} {Q : α → Workspace → Prop}
  {S : β → Workspace → Prop}

theorem Terminates.of_wp {x : Work α} (h : wp x (fun a w' => Filed p w' ∧ Q a w') (Halts p) w) :
    Terminates p (fun _ _ => x) Q w := ⟨x, .const GaveUp (x w), h⟩

theorem Terminates.bind {g : Nat → Nat → α → Work β} (h : Terminates p f Q w)
    (hg : ∀ a w', Filed p w' → Q a w' → Terminates p (fun k j => g k j a) S w') :
    Terminates p (fun k j => f k j >>= g k j) S w := by
  obtain ⟨x, hx, h⟩ := h
  have steps : (fun k j => (f k j >>= g k j) w) = fun k j => resume (g k j) (f k j w) := by
    funext k j
    show EStateM.bind (f k j) (g k j) w = _
    unfold EStateM.bind
    cases f k j w <;> rfl
  have stops : ∀ k j r, GaveUp r → GaveUp (resume (g k j) r) := by
    rintro k j r ⟨w', rfl⟩
    exact ⟨w', rfl⟩
  unfold wp at h
  split at h
  · rename_i a w' e
    obtain ⟨y, hy, k⟩ := hg a w' h.1 h.2
    refine ⟨fun _ => y w', ?_, k⟩
    rw [steps]
    refine hx.bind ?_ stops
    rw [e]
    exact hy
  · rename_i e' w' e
    refine ⟨fun _ => .error e' w', ?_, h⟩
    rw [steps]
    refine hx.bind ?_ stops
    rw [e]
    exact .const _ _

theorem Terminates.get_bind {g : Nat → Nat → Workspace → Work β}
    (h : Terminates p (fun k j => g k j w) S w) : Terminates p (fun k j => get >>= g k j) S w := h

namespace Ends

theorem of_lasts {x : Work α} (h : Lasts p x Q w) : Ends p (fun _ _ => x) Q w := fun hw => .of_wp (h hw)

theorem mono {Q' : α → Workspace → Prop} (h : Ends p f Q w) (hQ : ∀ a w', Filed p w' → Q a w' → Q' a w') :
    Ends p f Q' w := fun hw => by
  obtain ⟨x, hx, h⟩ := h hw
  exact ⟨x, hx, wp.mono h (fun a w' k => ⟨k.1, hQ a w' k.1 k.2⟩) fun _ _ k => k⟩

theorem bind {g : Nat → Nat → α → Work β} (h : Ends p f Q w)
    (hg : ∀ a w', Filed p w' → Q a w' → Ends p (fun k j => g k j a) S w') :
    Ends p (fun k j => f k j >>= g k j) S w := fun hw =>
  (h hw).bind fun a w' hw' ha => hg a w' hw' ha hw'

theorem lasts_bind {x : Work α} {g : Nat → Nat → α → Work β} (h : Lasts p x Q w)
    (hg : ∀ a w', Filed p w' → Q a w' → Ends p (fun k j => g k j a) S w') :
    Ends p (fun k j => x >>= g k j) S w := (of_lasts h).bind hg

theorem pure {a : α} (h : Q a w) : Ends p (fun _ _ => Pure.pure a) Q w := of_lasts (.pure h)

theorem get_bind {g : Nat → Nat → Workspace → Work β} (h : Filed p w → Ends p (fun k j => g k j w) S w) :
    Ends p (fun k j => get >>= g k j) S w := fun hw => h hw hw

theorem lift_bind {c : Checked α} {g : Nat → Nat → α → Work β}
    (h : ∀ a, c = .ok a → Ends p (fun k j => g k j a) S w) : Ends p (fun k j => liftM c >>= g k j) S w := by
  refine lasts_bind (Q := fun a w' => w' = w ∧ c = .ok a) (fun hw => ?_) fun a w' _ hc => ?_
  · rw [wp_lift]
    exact ⟨fun a ha => ⟨hw, rfl, ha⟩, fun f _ => halts_fault f w⟩
  · obtain ⟨rfl, hc⟩ := hc
    exact h a hc

theorem ite {c : Prop} [Decidable c] {f g : Nat → Nat → Work α} (hf : c → Ends p f Q w)
    (hg : ¬ c → Ends p g Q w) : Ends p (fun k j => if c then f k j else g k j) Q w := by
  split_ifs with h
  · exact hf h
  · exact hg h

theorem step (h₀ : ∀ k, GaveUp (f k 0 w)) (h : Ends p (fun k j => f k (j + 1)) Q w) : Ends p f Q w :=
  fun hw => by
    obtain ⟨x, hx, h⟩ := h hw
    exact ⟨x, .step h₀ hx, h⟩

theorem diagonal (h : Ends p f Q w) : Ends p (fun k _ => f k k) Q w := fun hw => by
  obtain ⟨x, hx, h⟩ := h hw
  exact ⟨x, hx.diagonal, h⟩

end Ends

end

section

variable {p : Plan} {w : Workspace}

/-! ### Splitting -/

/-- The number of nodes of a layer which were not tried yet. -/
def untried (w : Workspace) (layer : Nat) (tried : List NodeId) : Nat :=
  ((w.graph.layer layer).toList.toFinset \ tried.toFinset).card

theorem untried_lt {layer : Nat} {tried : List NodeId} {n : NodeId}
    (h : n ∈ splittable w layer tried) : untried w layer (n :: tried) < untried w layer tried := by
  have hn : n ∉ tried := by
    have := (List.mem_filter.1 h).2
    simp only [Bool.and_eq_true] at this
    simpa using this.2
  have hm : n ∈ (w.graph.layer layer).toList := (List.mem_filter.1 h).1
  refine Finset.card_lt_card (Finset.ssubset_iff.2 ⟨n, by simp, fun m hm' => ?_⟩)
  rcases Finset.mem_insert.1 hm' with rfl | hm'
  · exact Finset.mem_sdiff.2 ⟨List.mem_toFinset.2 hm, fun h => hn (List.mem_toFinset.1 h)⟩
  · simp only [Finset.mem_sdiff, List.toFinset_cons, Finset.mem_insert, not_or] at hm'
    exact Finset.mem_sdiff.2 ⟨hm'.1, hm'.2.2⟩

/-- What is still to be done when a node of the layer was tried: something was used up, or there is a node less
to be tried. -/
theorem tryRank_lt {layer : Nat} {tried : List NodeId} {n : NodeId} {w' : Workspace}
    (hn : n ∈ splittable w layer tried) (he : Ebbs (beyond .down layer) w w') :
    (toLex (w'.potential, untried w' layer (n :: tried)) : (Nat ×ₗ Nat) ×ₗ Nat) <
      toLex (w.potential, untried w layer tried) := by
  rcases he.falls with hlt | hlevel
  · exact Prod.Lex.toLex_lt_toLex.2 (Or.inl hlt)
  · have same : untried w' layer (n :: tried) = untried w layer (n :: tried) := by
      unfold untried Graph.layer
      rw [hlevel.layers]
    refine Prod.Lex.toLex_lt_toLex.2 (Or.inr ⟨hlevel.potential, ?_⟩)
    rw [same]
    exact untried_lt hn

theorem lasts_candidatesOf {n : NodeId} {layer : Nat} {tried : List NodeId} (hn : n ∈ splittable w layer tried) :
    Lasts p (candidatesOf p n layer) (fun cs w' => Quiet p w w' ∧ Bundled p layer n cs w') w := by
  intro hw
  obtain ⟨hact, hlay⟩ := hw.wf.mem_layer.1 (mem_splittable hn)
  refine wp.mono (lasts_computes (fun h => computes_candidatesOf h.cached n layer) hw) (fun cs w' k => ?_)
    fun _ _ k => k
  exact ⟨k.1, k.2.1, .quiet ⟨hact, hlay, pos_of_mem_splittable hw.wf hn, k.2.2⟩ k.2.1⟩

theorem goes_splitOffs {n : NodeId} {layer : Nat} (cs : List Candidate) (hc : ∀ c ∈ cs, c.Enters layer n w) :
    Goes p Spends (cs.forM (splitOff p n layer)) w :=
  .forM _ fun c hm _ _ he => Lasts.mono (lasts_splitOff ((hc c hm).evolves he.toEvolves)) fun _ _ _ k => k.1

/-- If some bundle becomes a node of its own, something was used up. -/
theorem lasts_splitOffs {n : NodeId} {layer : Nat} {cs : List Candidate} (hcs : cs ≠ [])
    (hb : 0 < w.budget) (hc : ∀ c ∈ cs, c.Enters layer n w) :
    Lasts p (cs.forM (splitOff p n layer)) (fun _ w' => Spends w w' ∧ w'.budget < w.budget) w := by
  obtain ⟨c, cs, rfl⟩ := List.exists_cons_of_ne_nil hcs
  refine .bind (f := fun _ => cs.forM (splitOff p n layer)) (lasts_splitOff (hc c List.mem_cons_self))
    fun _ _ _ k => ?_
  refine Lasts.mono (goes_splitOffs cs fun d hd => (hc d (List.mem_cons_of_mem _ hd)).evolves k.1.toEvolves)
    fun _ w'' _ l => ⟨k.1.trans l, ?_⟩
  have := l.budget
  omega

/-- Of the bundles of a node some become nodes of their own; if it is none of them, nothing happens. -/
theorem lasts_splitSome {n : NodeId} {layer : Nat} {ds : List Candidate} (room : Nat)
    (hc : ∀ c ∈ ds, c.Enters layer n w) (hr : room ≤ w.budget) :
    Lasts p ((ds.take room).forM (splitOff p n layer)) (fun _ w' => Ebbs (beyond .down layer) w w') w := by
  by_cases hnil : ds.take room = []
  · rw [hnil]
    exact .pure (.refl w)
  · have hpos : 0 < w.budget := by
      have : room ≠ 0 := fun h => hnil (by rw [h, List.take_zero])
      omega
    exact (lasts_splitOffs hnil hpos fun c hm => hc c (List.mem_of_mem_take hm)).mono fun _ _ _ k => k.1.ebbs k.2

/-- What is done with a node which is tried ends, if what is done after it does. -/
theorem ends_tryNode (hm : p.model.ReadsNoCombined) {layer maxWidth : Nat} {tried : List NodeId} {n : NodeId}
    {next : Nat → Work (Option Nat)} (hn : n ∈ splittable w layer tried)
    (later : ∀ {w'}, Ebbs (beyond .down layer) w w' → Ends p (fun _ j => next j) (fun next w'' =>
      Ebbs (beyond .down layer) w w'' ∧ (next ≠ none → w''.potential < w.potential)) w') :
    Ends p (fun _ j => tryNode p layer maxWidth (next j) n) (fun next w' =>
      Ebbs (beyond .down layer) w w' ∧ (next ≠ none → w'.potential < w.potential)) w := by
  unfold tryNode
  refine .lasts_bind (lasts_candidatesOf hn) fun cs w₁ hw₁ k => ?_
  obtain ⟨hq, hb⟩ := k
  have he₁ : Ebbs (beyond .down layer) w w₁ := .quiet hq
  dsimp only
  split
  · exact later he₁
  · refine .ite (fun _ => ?_) fun _ => later he₁
    refine .lasts_bind (goes_adoptState hm hb.lt _) fun _ w₂ _ he₂ => later (he₁.trans ?_)
    rwa [hb.layerOf] at he₂
  · refine .lasts_bind (lasts_discardDead (A := beyond .down layer) n layer fun c hc => ?_)
      fun dead w₂ _ hd => ?_
    · obtain ⟨a, ha⟩ := List.exists_mem_of_ne_nil _ (hb.sorted.reaches c hc).ne_nil
      exact ⟨a, ha, (hb.arcs hw₁.wf hc a ha).1⟩
    obtain ⟨he₂, hdead⟩ := hd
    have he := he₁.trans he₂
    refine .ite (fun hd => ?_) fun _ => .get_bind fun _ => .ite (fun _ => ?_) fun _ => later he
    · refine .lasts_bind (Q := fun _ w₃ => Ebbs (beyond .down layer) w₂ w₃) (fun h => ?_) fun _ w₃ _ he₃ =>
        .pure ⟨he.trans he₃, fun _ => ?_⟩
      · exact ⟨h.quiet (.tally _ w₂), .quiet (p := p) (.tally _ w₂)⟩
      · exact lt_of_le_of_lt he₃.potential_le (lt_of_lt_of_le (hdead hd) he₁.potential_le)
    · refine .lift_bind fun ordered hord => .lasts_bind (lasts_splitSome _ (fun c hc => ?_) ?_) fun _ w₃ _ he₃ =>
        later (he.trans he₃)
      · exact (hb.enters hw₁.wf ((perm_of_inOrder hord).subset hc)).evolves he₂.toEvolves
      · exact (Nat.min_le_right _ _).trans (Nat.min_le_right _ _)

/-- Splitting the nodes of a layer ends. It uses something up, or it only notes children of the layer; and
it only goes back if it used something up. -/
theorem ends_splitNodes (hm : p.model.ReadsNoCombined) (layer maxWidth : Nat) (tried : List NodeId) :
    Ends p (fun _ j => splitNodes p layer maxWidth j tried) (fun next w' =>
      Ebbs (beyond .down layer) w w' ∧ (next ≠ none → w'.potential < w.potential)) w := by
  induction hμ : (toLex (w.potential, untried w layer tried) : (Nat ×ₗ Nat) ×ₗ Nat)
    using WellFoundedLT.induction generalizing w tried with
  | ind μ ih =>
  subst hμ
  refine .step (fun _ => ⟨w, rfl⟩) ?_
  simp only [splitNodes_succ]
  refine .get_bind fun hw => .ite (fun _ => ?_) fun _ => .pure ⟨.refl w, fun h => absurd rfl h⟩
  refine .lift_bind fun choice hchoice => ?_
  cases choice with
  | none => exact .pure ⟨.refl w, fun h => absurd rfl h⟩
  | some n =>
    have hn := splittable_of_selectNode hchoice
    refine ends_tryNode hm hn fun he => ?_
    exact (ih _ (tryRank_lt hn he) (n :: tried) rfl).mono fun _ _ _ k =>
      ⟨he.trans k.1, fun h => lt_of_lt_of_le (k.2 h) he.potential_le⟩

/-! ### Passes -/

/-- How far from the sink the up states wait. -/
def upReach (w : Workspace) : Nat := ((w.agenda.deepest .up).map (· + 1)).getD 0

theorem upReach_le {b : Nat} (h : ∀ l, w.agenda.waiting .up l ≠ [] → l < b) : upReach w ≤ b := by
  unfold upReach
  cases e : w.agenda.deepest .up with
  | none => exact Nat.zero_le _
  | some l => exact h l (Agenda.waiting_of_deepest_eq_some e)

theorem ends_sweepUpSteps (hm : p.model.ReadsNoCombined) :
    Ends p (fun _ j => sweepUpSteps p j) (fun _ w' =>
      Ebbs (fun e _ => e = .up) w w' ∧ ∀ l, w'.agenda.waiting .up l = []) w := by
  induction hμ : (toLex (w.potential, upReach w) : (Nat ×ₗ Nat) ×ₗ Nat)
    using WellFoundedLT.induction generalizing w with
  | ind μ ih =>
  subst hμ
  refine .step (fun _ => ⟨w, rfl⟩) ?_
  unfold sweepUpSteps
  refine .get_bind fun _ => ?_
  cases hl : w.agenda.deepest .up with
  | none => exact .pure ⟨.refl w, Agenda.waiting_of_deepest_eq_none hl⟩
  | some layer =>
    dsimp only
    refine .lasts_bind (lasts_recomputeLayer hm .up layer) fun _ w₁ _ h => ?_
    have he : Ebbs (fun e _ => e = .up) w w₁ := h.1.weaken fun e l hs => hs.elim (·.1) (·.1)
    refine (ih _ ?_ rfl).mono fun _ w₂ _ k => ⟨he.trans k.1, k.2⟩
    rcases h.1.falls with hlt | hlevel
    · exact Prod.Lex.toLex_lt_toLex.2 (Or.inl hlt)
    · have hreach : upReach w = layer + 1 := by
        unfold upReach
        rw [hl]
        rfl
      refine Prod.Lex.toLex_lt_toLex.2 (Or.inr ⟨hlevel.potential, Nat.lt_of_le_of_lt (m := layer)
        (upReach_le fun k hk => ?_) (Nat.lt_of_lt_of_eq (Nat.lt_succ_self _) hreach.symm)⟩)
      · have hdone := h.2.resolve_left fun hlt => absurd hlevel.potential (ne_of_lt hlt)
        by_cases hb : k + 1 = layer
        · omega
        · have hkl : k ≠ layer := fun e => hk (e ▸ hdone)
          rw [hlevel.agenda .up k fun hs => hs.elim (fun h => hkl h.2) fun h => hb h.2] at hk
          exact Nat.lt_of_le_of_ne (Agenda.le_of_deepest_eq_some hl hk) hkl

theorem ends_sweepUp (hm : p.model.ReadsNoCombined) :
    Ends p (fun k _ => sweepUp p k) (fun _ w' =>
      Ebbs (fun e _ => e = .up) w w' ∧ ∀ l, w'.agenda.waiting .up l = []) w := by
  unfold sweepUp
  refine .get_bind fun _ => .ite (fun _ => ?_) fun hnone => .pure ⟨.refl w, ?_⟩
  · refine .lasts_bind (Q := fun _ w' => Quiet p w w') (fun h => ⟨h.quiet (.tally _ w), .tally _ w⟩)
      fun _ w' _ hq => ?_
    exact ((ends_sweepUpSteps hm).diagonal (f := fun _ j => sweepUpSteps p j)).mono fun _ w'' _ k =>
      ⟨(Ebbs.quiet hq).trans k.1, k.2⟩
  · refine Agenda.waiting_of_deepest_eq_none ?_
    cases e : w.agenda.deepest .up with
    | none => rfl
    | some => exact absurd (by rw [e]; rfl) hnone

theorem nextDown_le_of_waiting {layer k : Nat} (hk : w.agenda.waiting .down k ≠ []) :
    nextDown w layer ≤ k := by
  unfold nextDown
  split
  · rename_i h
    exact le_trans (min_le_right _ _) (Agenda.le_of_shallowest_eq_some h hk)
  · rename_i h
    exact absurd (Agenda.waiting_of_shallowest_eq_none h k) hk

theorem nextDown_eq {layer : Nat} (h : ∀ k, w.agenda.waiting .down k ≠ [] → layer ≤ k) :
    nextDown w layer = layer := by
  unfold nextDown
  split
  · rename_i e
    exact min_eq_left (h _ (Agenda.waiting_of_shallowest_eq_some e))
  · rfl

/-- What a down pass from `layer` on comes to: if it used nothing up and nothing waited on the layers
before, nothing waits for its down state. -/
structure Swept (layer : Nat) (w w' : Workspace) : Prop where
  ebbs : Ebbs (fun e _ => e = .down) w w'
  done : (∀ l, w.agenda.waiting .down l ≠ [] → layer ≤ l) → w'.potential = w.potential →
    ∀ l, w'.agenda.waiting .down l = []

/-- While nothing is used up, nothing waits above the layers which are done. -/
structure Passed (layer : Nat) (w w' : Workspace) : Prop where
  ebbs : Ebbs (fun e _ => e = .down) w w'
  past : w'.potential < w.potential ∨ w'.potential = w.potential ∧
    ∀ k, w'.agenda.waiting .down k ≠ [] → layer ≤ k

theorem Passed.spent_of_isPending {layer : Nat} {w' : Workspace} (h : Passed (layer + 1) w w')
    (hp : w'.agenda.isPending .down layer = true) : w'.potential < w.potential :=
  h.past.resolve_right fun k => Nat.not_succ_le_self layer (k.2 layer (Agenda.isPending_iff.1 hp))

/-- A layer is done by its computation. -/
theorem lasts_recomputeLayer_passed (hm : p.model.ReadsNoCombined) {layer : Nat}
    (first : ∀ k, w.agenda.waiting .down k ≠ [] → layer ≤ k) :
    Lasts p (recomputeLayer p .down layer) (fun _ w' => Passed (layer + 1) w w') w := by
  refine (lasts_recomputeLayer hm .down layer).mono fun _ w' _ h =>
    ⟨h.1.weaken fun e l hs => hs.elim (·.1) (·.1), ?_⟩
  refine h.1.falls.imp_right fun hlevel => ⟨hlevel.potential, fun k hk => ?_⟩
  have hdone := h.2.resolve_left fun hlt => absurd hlevel.potential (ne_of_lt hlt)
  by_contra hlt
  have hne : k ≠ layer := fun e => hk (e ▸ hdone)
  rw [hlevel.agenda .down k fun hs => hs.elim (fun h => hne h.2) fun h => hlt (Nat.le_of_eq h.2.symm)] at hk
  have := first k hk
  omega

/-- Splitting the layer which was done notes only nodes of the next one. -/
theorem Passed.split {layer : Nat} {w₁ w₂ : Workspace} (h : Passed (layer + 1) w w₁)
    (hs : Ebbs (beyond .down layer) w₁ w₂) : Passed (layer + 1) w w₂ := by
  refine ⟨h.ebbs.trans (hs.weaken fun _ _ h => h.1), ?_⟩
  rcases h.past with hlt | ⟨heq, hpast⟩
  · exact Or.inl (lt_of_le_of_lt hs.potential_le hlt)
  · refine hs.falls.imp (fun hlt => heq ▸ hlt) fun hlevel => ⟨hlevel.potential.trans heq, fun k hk => ?_⟩
    by_cases hb : k = layer + 1
    · exact Nat.le_of_eq hb.symm
    · rw [hlevel.agenda .down k fun h => hb h.2] at hk
      exact hpast k hk

/-- What is done with a layer in a down pass ends, if what is done after it does: again from anywhere if
something was used up, else from the next layer on. -/
theorem ends_sweepAt {Q : Unit → Workspace → Prop} (hm : p.model.ReadsNoCombined) (split : Bool) {layer : Nat}
    {next : Nat → Nat → Nat → Work Unit} (first : ∀ k, w.agenda.waiting .down k ≠ [] → layer ≤ k)
    (again : ∀ {w₂} l, Ebbs (fun e _ => e = .down) w w₂ → w₂.potential < w.potential →
      Ends p (fun k j => next k j l) Q w₂)
    (onward : ∀ {w₂}, Passed (layer + 1) w w₂ → Ends p (fun k j => next k j (layer + 1)) Q w₂) :
    Ends p (fun k j => sweepAt p k split (next k j) layer) Q w := by
  unfold sweepAt
  refine .lasts_bind (lasts_recomputeLayer_passed hm first) fun _ w₁ _ h => .get_bind fun _ => ?_
  refine .ite (fun hpend => again _ h.ebbs (h.spent_of_isPending hpend)) fun _ => .ite (fun _ => ?_) fun _ => onward h
  refine .bind (f := fun k _ => splitNodes p layer (p.options.maxWidth.getD 0) k [])
    (ends_splitNodes hm layer _ []).diagonal fun found w₂ _ hs => ?_
  have h₂ := h.split hs.1
  cases found with
  | some l => exact again l h₂.ebbs (lt_of_lt_of_le (hs.2 nofun) h.ebbs.potential_le)
  | none =>
    exact .get_bind fun _ => .ite (fun hpend => again _ h₂.ebbs (h₂.spent_of_isPending hpend)) fun _ => onward h₂

theorem ends_sweepDownSteps (hm : p.model.ReadsNoCombined) (split : Bool) (layer : Nat) :
    Ends p (fun k j => sweepDownSteps p k split j layer) (fun _ w' => Swept layer w w') w := by
  induction hμ : (toLex (w.potential, p.model.depth + 1 - nextDown w layer) : (Nat ×ₗ Nat) ×ₗ Nat)
    using WellFoundedLT.induction generalizing w layer with
  | ind μ ih =>
  subst hμ
  refine .step (fun _ => ⟨w, rfl⟩) ?_
  simp only [sweepDownSteps_succ]
  refine .ite (fun hl => ?_) fun hl => fun hw => Ends.pure ⟨.refl w, fun hpre _ l => ?_⟩ hw
  · -- what is left to do after something was used up
    have again : ∀ {w₂ : Workspace} (next : Nat), Ebbs (fun e _ => e = .down) w w₂ →
        w₂.potential < w.potential →
        Ends p (fun k j => sweepDownSteps p k split j next) (fun _ w' => Swept layer w w') w₂ :=
      fun next he hlt => (ih _ (Prod.Lex.toLex_lt_toLex.2 (Or.inl hlt)) next rfl).mono fun _ w' _ k =>
        ⟨he.trans k.ebbs, fun _ heq => absurd heq (ne_of_lt (lt_of_le_of_lt k.ebbs.potential_le hlt))⟩
    refine .get_bind fun _ => ends_sweepAt hm split (fun k => nextDown_le_of_waiting) again fun {w₂} h => ?_
    rcases h.past with hlt | ⟨heq, hpast⟩
    · exact again _ h.ebbs hlt
    · refine (ih _ (Prod.Lex.toLex_lt_toLex.2 (Or.inr ⟨heq, ?_⟩)) _ rfl).mono fun _ w' _ k =>
        ⟨h.ebbs.trans k.ebbs, fun _ hp => k.done hpast (hp.trans heq.symm)⟩
      rw [nextDown_eq hpast]
      have := nextDown_le (w := w) layer
      omega
  · by_contra hne
    obtain ⟨e, he⟩ := List.exists_mem_of_ne_nil _ hne
    obtain ⟨hlt, hlay, -⟩ := hw.suits .down l e he
    have := hw.wf.layer_lt _ hlt
    rw [hw.layers, hlay] at this
    have := hpre l hne
    omega

theorem ends_sweepDown (hm : p.model.ReadsNoCombined) (split : Bool) :
    Ends p (fun k _ => sweepDown p k split) (fun _ w' => Ebbs (fun e _ => e = .down) w w' ∧
      (w'.potential = w.potential → ∀ l, w'.agenda.waiting .down l = [])) w := by
  unfold sweepDown
  refine .lasts_bind (Q := fun _ w' => Quiet p w w') (fun h => ⟨h.quiet (.tally _ w), .tally _ w⟩)
    fun _ w' hw' hq => ?_
  have he : Ebbs (fun e _ => e = .down) w w' := .quiet hq
  refine (ends_sweepDownSteps hm split 1).diagonal.mono fun _ w'' _ k =>
    ⟨he.trans k.ebbs, fun heq => k.done (fun l hl => ?_) (heq.trans ?_)⟩
  · obtain ⟨e, he⟩ := List.exists_mem_of_ne_nil _ hl
    exact (hw'.suits .down l e he).2.2
  · exact (Workspace.potential_congr hq.graph hq.budget).symm

theorem ends_passes (hm : p.model.ReadsNoCombined) (done : Nat) :
    Ends p (fun k j => passes p k j done) (fun _ w' => Ebbs (fun _ _ => True) w w') w := by
  induction hμ : w.potential using WellFoundedLT.induction generalizing w done with
  | ind μ ih =>
  subst hμ
  -- a round which leaves something waiting used something up
  have round : ∀ {w₁ : Workspace}, Ebbs (fun _ _ => True) w w₁ → (∀ l, w₁.agenda.waiting .up l = []) →
      Ends p (fun k j => do
        sweepDown p k (done < p.options.splitPasses)
        let quiet := (← get).agenda.isEmpty
        if quiet then Pure.pure () else passes p k j (done + 1))
      (fun _ w' => Ebbs (fun _ _ => True) w w') w₁ := by
    intro w₁ he hup
    refine .bind (ends_sweepDown hm _) fun _ w₂ _ h => .get_bind fun _ => ?_
    have he₂ : Ebbs (fun _ _ => True) w w₂ := he.trans (h.1.weaken fun _ _ _ => trivial)
    refine .ite (fun _ => .pure he₂) fun hne => ?_
    have hlt : w₂.potential < w.potential := by
      rcases h.1.falls with hlt | hlevel
      · exact lt_of_lt_of_le hlt he.potential_le
      · refine absurd (Agenda.isEmpty_iff.2 fun d l => ?_) hne
        cases d with
        | down => exact h.2 hlevel.potential l
        | up => exact (hlevel.agenda .up l nofun).trans (hup l)
    exact (ih _ hlt (done + 1) rfl).mono fun _ w' _ k => he₂.trans k
  refine .step (fun _ => ⟨w, rfl⟩) ?_
  unfold passes
  refine .ite (fun _ => ?_) fun hup => fun hw => round (.refl w) (fun l => ?_) hw
  · exact .bind (ends_sweepUp hm) fun _ w₁ _ h => round (h.1.weaken fun _ _ _ => trivial) h.2
  · by_contra hne
    obtain ⟨e, he⟩ := List.exists_mem_of_ne_nil _ hne
    exact hup (hw.suits .up l e he).2.2

/-! ### Propagation -/

/-- In a workspace where a propagation begins the diagram is built and nothing is wrong with its graph, or
it is still empty. -/
def Ready (p : Plan) (w : Workspace) : Prop :=
  Filed p w ∨ w.built = false ∧ Tidy p (fun _ => False) [] w ∧ w.agenda.Suits p w.graph

theorem wp_maintainExact_filed (hp : p.Distinct) (lost : List Nat) (h : Ready p w) :
    wp (maintainExact p lost) (fun _ w' => Filed p w' ∧ Spends w w') (Halts p) w := by
  have old : w.built = true → Filed p w := fun hb => h.resolve_right fun k => absurd (hb.symm.trans k.1) nofun
  refine wp_maintainExact_of (fun w' => Filed p w' ∧ Spends w w') (fun hb => ?_) (fun hb => ?_) fun w' k => ?_
  · obtain h | ⟨-, ht, ha⟩ := h
    · exact absurd (h.built.symm.trans hb) nofun
    · exact wp_grow_filed hp (by simp) ht ha
  · exact wp.mono (goes_enforceDomains (A := fun _ _ => True) lost (old hb)) (fun _ _ k => ⟨k.1, .of_ebbs k.2⟩)
      fun _ _ k => k
  · exact wp.mono (goes_enforceSupports (A := fun _ _ => True) k.1) (fun _ _ l => ⟨l.1, k.2.trans (.of_ebbs l.2)⟩)
      fun _ _ k => k

theorem terminates_maintainRelaxed (hm : p.model.ReadsNoCombined) (hp : p.Distinct)
    (ho : p.options.isValid = true) (lost : List Nat) (h : Ready p w) :
    Terminates p (fun k _ => maintainRelaxed p k lost) (fun _ w' => Spends w w') w := by
  have rest : ∀ {w₁ : Workspace} {loud : Workspace → Bool},
      Ends p (fun k _ => do
        enforceDomains p lost
        let w ← get
        if loud w then
          passes p k k 0
        enforceSupports p : Nat → Nat → Work PUnit) (fun _ w' => Spends w₁ w') w₁ := by
    intro w₁ loud
    have last : ∀ {w₂ : Workspace}, Spends w₁ w₂ →
        Ends p (fun _ _ => enforceSupports p) (fun _ w' => Spends w₁ w') w₂ := fun hs =>
      (Ends.of_lasts (goes_enforceSupports (A := fun _ _ => True))).mono fun _ _ _ k => hs.trans (.of_ebbs k)
    refine .lasts_bind (goes_enforceDomains (A := fun _ _ => True) lost) fun _ w₂ _ he => .get_bind fun _ => ?_
    refine .ite (fun _ => ?_) fun _ => last (.of_ebbs he)
    exact .bind (ends_passes hm 0).diagonal fun _ w₃ _ he' => last (.of_ebbs (he.trans he'))
  unfold maintainRelaxed
  rcases h with h | ⟨hb, ht, ha⟩
  · refine Ends.get_bind (fun _ => ?_) h
    dsimp only
    rw [h.built]
    exact rest
  · refine Terminates.get_bind ?_
    dsimp only
    rw [hb]
    refine .bind (.of_wp (wp_grow_filed hp (Options.firstWidth_ne_zero ho) ht ha)) fun _ w₁ hw₁ hs =>
      (Ends.ite (fun _ => ?_) fun _ => rest.mono fun _ _ _ k => hs.trans k) hw₁
    exact .lasts_bind (goes_completeNodes (A := fun _ _ => True)) fun _ w₂ _ he =>
      rest.mono fun _ _ _ k => hs.trans (.trans (.of_ebbs he) k)

end

end DecisionDiagrams
