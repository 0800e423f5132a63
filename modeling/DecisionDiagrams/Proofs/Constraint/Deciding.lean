import DecisionDiagrams.Proofs.Constraint.Joining

/-! Tests which read exact states decide whether an assignment satisfies a constraint. Along the labels
of the assignment every down state is computed from the one above, over a single label, and behind the
last layer of a scope nothing was computed from below. What the properties of the constraint are in
these states is known, so if the tests of all layers let the labels pass, the constraint holds. -/

namespace DecisionDiagrams

namespace Spec

/-- Exact states of a compiled specification along an assignment. -/
structure Along (σ : Var → Int) (t : Spec) (S : Nat → State) : Prop where
  check : t.check = .ok ()
  ordered : t.Ordered
  declared : t.toModel.Declared .down
  follows : t.toModel.Follows (t.toModel.labelsOf σ) S

/-- All tests of arcs which are registered in `u` let the labels pass in the model of `t`. -/
def Accepts (σ : Var → Int) (t u : Spec) (S : Nat → State) : Prop :=
  ∀ a ∈ u.arcChecks.toList, ∀ l < t.branchVars.size, covers t.coverage a.1 l = true →
    t.toModel.Passes (t.toModel.labelsOf σ) S l a.2

/-- The tests which are registered say that `H` holds of the final order of the layers. -/
structure Decides (σ : Var → Int) (H : List Var → Prop) (s u : Spec) : Prop where
  enlarges : Enlarges s u
  ordered : s.Ordered → u.Ordered
  kept : s.arcChecks.toList <+: u.arcChecks.toList
  decides : ∀ t S, Enlarges u t → Along σ t S → s.Ordered → Accepts σ t u S → H t.order

namespace Decides

variable {σ : Var → Int} {H H' : List Var → Prop} {s u v : Spec}

theorem refl (σ : Var → Int) (s : Spec) : Decides σ (fun _ => True) s s :=
  ⟨.refl s, id, List.prefix_refl _, fun _ _ _ _ _ _ => trivial⟩

theorem trans (h : Decides σ H s u) (g : Decides σ H' u v) :
    Decides σ (fun o => H o ∧ H' o) s v :=
  ⟨h.enlarges.trans g.enlarges, g.ordered ∘ h.ordered, h.kept.trans g.kept,
    fun t S hv ha hs hacc =>
      ⟨h.decides t S (g.enlarges.trans hv) ha hs fun a hmem => hacc a (g.kept.subset hmem),
        g.decides t S hv ha (h.ordered hs) hacc⟩⟩

theorem mono (h : Decides σ H s u) (hH : ∀ o, H o → H' o) : Decides σ H' s u :=
  { h with decides := fun t S hu ha hs hacc => hH _ (h.decides t S hu ha hs hacc) }

theorem addScope (σ : Var → Int) (name : String) (vars : List Var) (s : Spec) :
    Decides σ (fun _ => True) s (Spec.addScope name vars s).2 := by
  exact ⟨grows_addScope name vars s, fun h => h.addScope name vars, List.prefix_refl _,
    fun _ _ _ _ _ _ => trivial⟩

/-- What is registered one after the other, while `I` holds of the specifications. -/
theorem forM {α : Type} {f : α → StateM Spec Unit} {K : α → List Var → Prop} {I : Spec → Prop}
    (as : List α) (step : ∀ a ∈ as, ∀ s, I s → Decides σ (K a) s (f a s).2 ∧ I (f a s).2) :
    ∀ {s}, I s → Decides σ (fun o => ∀ a ∈ as, K a o) s (as.forM f s).2 := by
  induction as with
  | nil => exact fun {s} _ => (refl σ s).mono fun _ _ => nofun
  | cons a as ih =>
    intro s hs
    obtain ⟨hfirst, hI⟩ := step a List.mem_cons_self s hs
    have hrest := ih (fun b hb => step b (List.mem_cons_of_mem _ hb)) hI
    refine (hfirst.trans hrest).mono fun o h b hb => ?_
    rcases List.mem_cons.1 hb with rfl | hb
    · exact h.1
    · exact h.2 b hb

end Decides

/-- A constraint decides what its tests say. -/
theorem Appends.decides {σ : Var → Int} {H : List Var → Prop} {c : ScopeId} {vars : List Var} {s u : Spec}
    {down up : List Property} {checks : List (ArcFacts → Checked Bool)} (h : Appends c s u down up checks)
    (hs : s.Scoped c vars)
    (hH : ∀ t S, Enlarges u t → t.Hosts c vars → (∀ x ∈ vars, x ∈ s.order) → Along σ t S →
      (∀ check ∈ checks, ∀ l < t.branchVars.size, t.toModel.var l ∈ vars →
        t.toModel.Passes (t.toModel.labelsOf σ) S l check) → H t.order) : Decides σ H s u := by
  obtain ⟨name, hname⟩ := hs
  refine ⟨h.enlarges, fun ho => ho.appends h, ⟨_, h.arcChecks.symm⟩, fun t S hu ha hso hacc => ?_⟩
  have hosts : t.Hosts c vars := ⟨ha.check, ha.ordered, name, (h.enlarges.trans hu).getElem? hname⟩
  have known : ∀ x ∈ vars, x ∈ s.order :=
    hso.known _ (Array.mem_toList_iff.2 (Array.mem_of_getElem? hname))
  refine hH t S hu hosts known ha fun check hcheck l hl hv => hacc (c, check) ?_ l hl
    ((hosts.covers_iff hl).2 hv)
  rw [h.arcChecks, List.mem_append]
  exact Or.inr (List.mem_map_of_mem hcheck)

/-! ### Layers of a scope -/

section

variable {t : Spec} {c : ScopeId} {vars : List Var} {l : Nat}

/-- Every variable of a scope is the one of a layer, with the variables before it above. -/
theorem Hosts.exists_layer (h : t.Hosts c vars) {above below : List Var} {x : Var}
    (e : scopeIn t.order vars = above ++ x :: below) : ∃ l < t.branchVars.size, t.toModel.var l = x ∧
      x ∈ vars ∧ t.passed vars .down l = above ∧ t.passed vars .up (l + 1) = below := by
  have hx : x ∈ scopeIn t.order vars := e ▸ List.mem_append_right _ List.mem_cons_self
  obtain ⟨hmem, hvars⟩ := mem_scopeIn.1 hx
  obtain ⟨l, hl, rfl⟩ := List.getElem_of_mem hmem
  have hvar := var_toModel t hl
  have hsplit := scopeIn_split hl (hvar ▸ hvars)
  rw [hvar] at hsplit
  have hn : (scopeIn t.order vars).Nodup := h.ordered.nodup.filter _
  have h1 : t.order[l] ∉ above := fun hm => by
    rw [e, List.nodup_append] at hn
    exact hn.2.2 _ hm _ List.mem_cons_self rfl
  have h2 : t.order[l] ∉ below := fun hm => by
    rw [e, List.nodup_append] at hn
    exact (List.nodup_cons.1 hn.2.1).1 hm
  obtain ⟨e1, -, e2⟩ := (List.append_cons_inj_of_notMem h1 h2).1 (e.symm.trans hsplit)
  exact ⟨l, hl, hvar, hvars, e1.symm, e2.symm⟩

/-- A scope has a last layer. -/
theorem Hosts.exists_last (h : t.Hosts c vars) : ∃ l < t.branchVars.size, t.toModel.var l ∈ vars ∧
    scopeIn t.order vars = t.passed vars .down l ++ [t.toModel.var l] ∧
    t.passed vars .up (l + 1) = [] := by
  obtain ⟨name, hs⟩ := h.scope
  have hne : vars ≠ [] := by
    have := (check_eq_ok h.check).1 _ (Array.mem_toList_iff.2 (Array.mem_of_getElem? hs))
    unfold checkScope at this
    rintro rfl
    cases this
  have hne' : scopeIn t.order vars ≠ [] := fun e => hne (List.nil_perm.1 (e ▸ h.perm))
  obtain ⟨above, x, e⟩ := (scopeIn t.order vars).eq_nil_or_concat.resolve_left hne'
  rw [List.concat_eq_append] at e
  obtain ⟨l, hl, rfl, hx, rfl, hbelow⟩ := h.exists_layer e
  exact ⟨l, hl, hx, e, hbelow⟩

/-- Behind the last layer of a scope its properties are not computed. -/
theorem Hosts.idle_behind (h : t.Hosts c vars) {d : Direction} {i : Nat} {q : Property} {s : Slot}
    {run : StepFacts → IntSet → View → Checked View} (hq : t.Has d i q s run) (hc : q.constraint = c)
    (hlast : t.passed vars .up l = []) {k : Nat} (hlk : l ≤ k) (hk : k < t.toModel.depth) :
    i ∉ t.toModel.active d k := by
  rw [h.mem_active hq hc hk]
  intro hv
  have hlt : k < t.order.length := hk
  have hmem : t.toModel.var k ∈ t.passed vars .up l := by
    refine mem_scopeIn.2 ⟨?_, hv⟩
    rw [var_toModel t hlt]
    exact List.mem_drop_iff_getElem.2 ⟨k - l, by omega, by congr 1; omega⟩
  rw [hlast] at hmem
  cases hmem

end

/-! ### What properties are along the labels -/

/-- Down states along the labels of an assignment, whose property `i` is each time computed from the state
above. -/
structure Lineage (σ : Var → Int) (t : Spec) (i : Nat) (S : Nat → State) : Prop where
  start : t.toModel.Alike .down i (t.toModel.fresh .down) (S 0)
  computed : ∀ {l}, l + 1 < t.toModel.depth → i ∈ t.toModel.active .down l → ∃ target r,
    t.toModel.stepProperty .down l (S l) none (.singleton (σ (t.toModel.var l))) target i = .ok r ∧
      t.toModel.Alike .down i r (S (l + 1))
  idle : ∀ {l}, l + 1 < t.toModel.depth → i ∉ t.toModel.active .down l →
    t.toModel.Alike .down i (S l) (S (l + 1))

theorem Along.lineage {σ : Var → Int} {t : Spec} {S : Nat → State} (a : Along σ t S) (i : Nat) :
    Lineage σ t i S where
  start := a.follows.start i
  computed hl _ := by
    obtain ⟨combined, target, r, hr, ha⟩ := a.follows.next hl i
    -- what is computed does not depend on combined states
    obtain ⟨r', hr', ha'⟩ := (a.declared.certain _).determined (fun _ _ => .refl _ _ _ _) hr none target
    exact ⟨target, r', hr', ha'.symm.trans ha⟩
  idle hl hi := a.declared.yields_unique (a.declared.yields_idle hi _ _) (a.follows.next hl i)

namespace Lineage

variable {σ : Var → Int} {t : Spec} {S : Nat → State} {i l : Nat}
  {q : Property} {s : Slot} {run : StepFacts → IntSet → View → Checked View} {r : State}

/-- What holds of a fresh state and is taken over by every step over the label of its layer. -/
theorem pin (a : Lineage σ t i S) (hq : t.Has .down i q s run) {ψ : Nat → Nat → Prop}
    (congr : ∀ {l x y}, s.agree x y = true → ψ l x → ψ l y)
    (start : ψ 0 (t.toModel.fresh .down).bits)
    (kept : ∀ {l x}, l < t.toModel.depth → i ∉ t.toModel.active .down l → ψ l x → ψ (l + 1) x)
    (stepped : ∀ {l source target w}, l < t.toModel.depth → i ∈ t.toModel.active .down l →
      ψ l source.bits → run ⟨t.toModel.view .down source, none, l, t.toModel.var l⟩
        (.singleton (σ (t.toModel.var l))) (t.toModel.view .down target) = .ok w →
      ψ (l + 1) w.state.bits)
    (hl : l < t.toModel.depth) (hr : t.toModel.Alike .down i (S l) r) : ψ l r.bits := by
  have along : ∀ l < t.toModel.depth, ψ l (S l).bits := by
    intro l
    induction l with
    | zero => exact fun _ => congr (a.start s hq.slot) start
    | succ l ih =>
      intro hl
      have hlt : l < t.toModel.depth := Nat.lt_of_succ_lt hl
      by_cases hi : i ∈ t.toModel.active .down l
      · obtain ⟨target, r, hr, ha⟩ := a.computed hl hi
        obtain ⟨reads, hrule⟩ := hq.rule
        obtain ⟨w, hw, rfl⟩ := stepProperty_active hq.property hi hr hrule
        exact congr (ha s hq.slot) (stepped hlt hi (ih hlt) hw)
      · exact congr (a.idle hl hi s hq.slot) (kept hlt hi (ih hlt))
  exact congr (hr s hq.slot) (along l hl)

/-- What holds of the elements of a number or window. -/
theorem holds (a : Lineage σ t i S) (hq : t.Has .down i q s run) (hset : q.kind.isSet = false)
    {M : Measure} (hall : ∀ l e x, M.all l e x)
    (hstart : ∀ e < s.elements, M.own 0 e (max s.lower (min s.upper s.kind.initial)))
    (hkept : ∀ l < t.toModel.depth, i ∉ t.toModel.active .down l → ∀ e x,
      M.own l e x → M.own (l + 1) e x)
    (hstep : ∀ {l source target w}, l < t.toModel.depth → i ∈ t.toModel.active .down l →
      M.Holds s true l source.bits → run ⟨t.toModel.view .down source, none, l, t.toModel.var l⟩
        (.singleton (σ (t.toModel.var l))) (t.toModel.view .down target) = .ok w →
      M.Holds s true (l + 1) w.state.bits)
    (hl : l < t.toModel.depth) (hr : t.toModel.Alike .down i (S l) r) :
    M.Holds s true l r.bits := by
  have hn : s.Numeric := hq.sound.numeric hq.slot (hq.kind ▸ hset)
  have hle := hn.lower_le_upper
  refine a.pin hq (ψ := M.Holds s true) (fun ha => Measure.holds_congr ?_) (fun e he => ?_)
    (fun {l x} hl hi hx e he => ?_) hstep hl hr
  · rwa [Slot.agree_iff, if_neg (by rw [hn.isSet]; exact Bool.false_ne_true)] at ha
  · have hinit := hq.initial
    unfold View.Initial at hinit
    rw [if_neg (by rw [hn.isSet]; exact Bool.false_ne_true)] at hinit
    rw [show s.number (t.toModel.fresh .down).bits e = _ from hinit e he]
    exact ⟨by omega, hall _ _ _, fun _ => hstart e he⟩
  · obtain ⟨h1, -, h3⟩ := hx e he
    exact ⟨h1, hall _ _ _, fun hb => hkept l hl hi e _ (h3 hb)⟩

end Lineage

end Spec
end DecisionDiagrams
