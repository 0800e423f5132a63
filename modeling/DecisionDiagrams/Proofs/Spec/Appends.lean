import DecisionDiagrams.Proofs.Engine.Tracking

/-! What registering a constraint appends to a specification, and how a specification grows by it. The
positions of the properties are known when their rules are given. -/

namespace DecisionDiagrams.Spec

variable {α β : Type} {c : ScopeId} {s t u : Spec} {down up D U : List Property}
  {checks : List (ArcFacts → Checked Bool)}

/-- The result of registering, and the specification then. -/
def After (x : StateM Spec α) (Q : α → Spec → Prop) (t : Spec) : Prop := Q (x t).1 (x t).2

theorem after_bind {x : StateM Spec α} {f : α → StateM Spec β} {Q : β → Spec → Prop} :
    After (x >>= f) Q t ↔ After x (fun a u => After (f a) Q u) t := Iff.rfl

theorem after_get {Q : Spec → Spec → Prop} : After get Q t ↔ Q t t := Iff.rfl

theorem after_addScope {Q : ScopeId → Spec → Prop} {name : String} {vars : List Var}
    (h : addScope name vars s = (c, t)) : After (addScope name vars) Q s ↔ Q c t := by
  unfold After
  rw [h]

theorem bind_snd (x : StateM Spec α) (f : α → StateM Spec β) (t : Spec) :
    ((x >>= f) t).2 = (f (x t).1 (x t).2).2 := rfl

/-- Properties of the down and up states and tests of arcs are appended for a constraint. -/
structure Appends (c : ScopeId) (s t : Spec) (down up : List Property)
    (checks : List (ArcFacts → Checked Bool)) : Prop where
  branchVars : t.branchVars = s.branchVars
  scopes : t.scopes = s.scopes
  down : t.properties.down.toList = s.properties.down.toList ++ down
  up : t.properties.up.toList = s.properties.up.toList ++ up
  combined : t.properties.combined = s.properties.combined
  arcChecks : t.arcChecks.toList = s.arcChecks.toList ++ checks.map (c, ·)
  nodeChecks : t.nodeChecks = s.nodeChecks

namespace Appends

theorem refl (c : ScopeId) (s : Spec) : Appends c s s [] [] [] :=
  ⟨rfl, rfl, by simp, by simp, rfl, by simp, rfl⟩

theorem size_down (h : Appends c s t down up checks) :
    t.properties.down.size = s.properties.down.size + down.length := by
  rw [← Array.length_toList, h.down, List.length_append, Array.length_toList]

theorem size_up (h : Appends c s t down up checks) :
    t.properties.up.size = s.properties.up.size + up.length := by
  rw [← Array.length_toList, h.up, List.length_append, Array.length_toList]

variable {Q : PropertyRef → Spec → Prop} {kind : Kind} {r : Relaxation}

theorem declareDown (h : Appends c s t down up checks)
    (hQ : ∀ u, Appends c s u (down ++ [{ constraint := c, kind, relaxation := r }]) up checks →
      Q ⟨.down, s.properties.down.size + down.length⟩ u) :
    After (declareProperty c .down kind r) Q t := by
  rw [← h.size_down] at hQ
  refine hQ _ ⟨h.branchVars, h.scopes, ?_, h.up, h.combined, h.arcChecks, h.nodeChecks⟩
  show (t.properties.down.push _).toList = _
  rw [Array.toList_push, h.down, List.append_assoc]

theorem declareUp (h : Appends c s t down up checks)
    (hQ : ∀ u, Appends c s u down (up ++ [{ constraint := c, kind, relaxation := r }]) checks →
      Q ⟨.up, s.properties.up.size + up.length⟩ u) :
    After (declareProperty c .up kind r) Q t := by
  rw [← h.size_up] at hQ
  refine hQ _ ⟨h.branchVars, h.scopes, h.down, ?_, h.combined, h.arcChecks, h.nodeChecks⟩
  show (t.properties.up.push _).toList = _
  rw [Array.toList_push, h.up, List.append_assoc]

variable {P : Unit → Spec → Prop} {k : Nat} {reads : List PropertyRef}
  {run : StepFacts → IntSet → View → Checked View}

theorem modify_append (l r : List Property) (k : Nat) (f : Property → Property) :
    (l ++ r).modify (l.length + k) f = l ++ r.modify k f := by
  apply List.ext_getElem?
  intro i
  simp only [List.getElem?_modify, List.getElem?_append]
  by_cases hi : i < l.length
  · have : ¬ l.length + k = i := by omega
    simp [hi, this]
  · have : l.length + k = i ↔ k = i - l.length := by omega
    simp [hi, this]

theorem transitionDown (h : Appends c s t down up checks) (hk : k < down.length)
    (hP : ∀ u, Appends c s u (down.modify k fun q => { q with rule := .transition reads run }) up
      checks → P () u) :
    After (setTransition ⟨.down, s.properties.down.size + k⟩ reads run) P t := by
  have hlt : s.properties.down.size + k < (t.properties.get .down).size := by
    have := h.size_down
    show _ < t.properties.down.size
    omega
  refine hP _ ?_
  show Appends c s (if _ < (t.properties.get .down).size then _ else _) _ _ _
  rw [if_pos hlt]
  refine ⟨h.branchVars, h.scopes, ?_, h.up, h.combined, h.arcChecks, h.nodeChecks⟩
  show (t.properties.down.modify _ _).toList = _
  rw [Array.toList_modify, h.down, ← Array.length_toList, modify_append]

theorem transitionUp (h : Appends c s t down up checks) (hk : k < up.length)
    (hP : ∀ u, Appends c s u down (up.modify k fun q => { q with rule := .transition reads run })
      checks → P () u) :
    After (setTransition ⟨.up, s.properties.up.size + k⟩ reads run) P t := by
  have hlt : s.properties.up.size + k < (t.properties.get .up).size := by
    have := h.size_up
    show _ < t.properties.up.size
    omega
  refine hP _ ?_
  show Appends c s (if _ < (t.properties.get .up).size then _ else _) _ _ _
  rw [if_pos hlt]
  refine ⟨h.branchVars, h.scopes, h.down, ?_, h.combined, h.arcChecks, h.nodeChecks⟩
  show (t.properties.up.modify _ _).toList = _
  rw [Array.toList_modify, h.up, ← Array.length_toList, modify_append]

theorem arcCheck (h : Appends c s t down up checks) {check : ArcFacts → Checked Bool}
    (hP : ∀ u, Appends c s u down up (checks ++ [check]) → P () u) :
    After (addArcCheck c check) P t := by
  refine hP _ ⟨h.branchVars, h.scopes, h.down, h.up, h.combined, ?_, h.nodeChecks⟩
  show (t.arcChecks.push _).toList = _
  rw [Array.toList_push, h.arcChecks, List.map_append, List.append_assoc]
  rfl

theorem splitPriority (h : Appends c s t down up checks) {f : NodeFacts → Checked Int}
    (hP : ∀ u, Appends c s u down up checks → P () u) : After (addSplitPriority f) P t :=
  hP _ { h with }

theorem candidatePriority (h : Appends c s t down up checks) {f : CandidateFacts → Checked Int}
    (hP : ∀ u, Appends c s u down up checks → P () u) : After (addCandidatePriority f) P t :=
  hP _ { h with }

theorem equivalenceKey (h : Appends c s t down up checks) {f : View → Checked Int}
    (hP : ∀ u, Appends c s u down up checks → P () u) : After (addEquivalenceKey f) P t :=
  hP _ { h with }

end Appends

/-! ### Growing -/

/-- Everything registered stays where it is. -/
structure Enlarges (s t : Spec) : Prop where
  branchVars : s.branchVars.toList <+: t.branchVars.toList
  scopes : s.scopes.toList <+: t.scopes.toList
  properties : ∀ side, (s.properties.get side).toList <+: (t.properties.get side).toList

theorem Enlarges.refl (s : Spec) : Enlarges s s :=
  ⟨List.prefix_refl _, List.prefix_refl _, fun _ => List.prefix_refl _⟩

theorem Enlarges.trans (h : Enlarges s t) (g : Enlarges t u) : Enlarges s u :=
  ⟨h.branchVars.trans g.branchVars, h.scopes.trans g.scopes,
    fun side => (h.properties side).trans (g.properties side)⟩

theorem Appends.enlarges (h : Appends c s t down up checks) : Enlarges s t := by
  refine ⟨h.branchVars ▸ List.prefix_refl _, h.scopes ▸ List.prefix_refl _, fun side => ?_⟩
  cases side with
  | down => exact ⟨down, h.down.symm⟩
  | up => exact ⟨up, h.up.symm⟩
  | combined =>
    show s.properties.combined.toList <+: t.properties.combined.toList
    exact h.combined ▸ List.prefix_refl _

theorem prefix_addVariables : ∀ (vars : List Var) (layers : Array Var), layers.toList <+:
    (vars.foldl (fun vs x => if vs.contains x then vs else vs.push x) layers).toList ∧
    ∀ x ∈ vars, x ∈ (vars.foldl (fun vs x => if vs.contains x then vs else vs.push x) layers).toList
  | [], layers => ⟨List.prefix_refl _, nofun⟩
  | x :: vars, layers => by
    rw [List.foldl_cons]
    obtain ⟨hp, hm⟩ := prefix_addVariables vars (if layers.contains x then layers else layers.push x)
    have hstep : layers.toList <+: (if layers.contains x then layers else layers.push x).toList ∧
        x ∈ (if layers.contains x then layers else layers.push x).toList := by
      split_ifs with hx
      · exact ⟨List.prefix_refl _, by simpa using hx⟩
      · rw [Array.toList_push]
        exact ⟨List.prefix_append _ _, by simp⟩
    refine ⟨hstep.1.trans hp, fun y hy => ?_⟩
    rcases List.mem_cons.1 hy with rfl | hy
    · exact hp.subset hstep.2
    · exact hm y hy

theorem grows_addScope (name : String) (vars : List Var) (s : Spec) :
    Enlarges s (addScope name vars s).2 := by
  refine ⟨(prefix_addVariables vars s.branchVars).1, ⟨[⟨name, vars⟩], ?_⟩, fun side => ?_⟩
  · show _ = (s.scopes.push _).toList
    rw [Array.toList_push]
  · exact List.prefix_refl _

theorem Ordered.addScope (h : s.Ordered) (name : String) (vars : List Var) :
    (addScope name vars s).2.Ordered := by
  obtain ⟨hp, hm⟩ := prefix_addVariables vars s.branchVars
  refine ⟨nodup_addVariables vars _ h.nodup, fun k hk x hx => ?_⟩
  rw [show (Spec.addScope name vars s).2.scopes.toList = s.scopes.toList ++ [⟨name, vars⟩] from
    Array.toList_push, List.mem_append, List.mem_singleton] at hk
  rcases hk with hk | rfl
  · exact hp.subset (h.known k hk x hx)
  · exact hm x hx

theorem Ordered.appends (h : s.Ordered) (g : Appends c s t down up checks) : t.Ordered := by
  constructor
  · rw [g.branchVars]
    exact h.nodup
  · rw [g.branchVars, g.scopes]
    exact h.known

theorem Local.appends (h : s.Local) (g : Appends c s t down up checks)
    (hdown : ∀ k (q : Property), down[k]? = some q → q.Local (s.properties.down.size + k))
    (hup : ∀ k (q : Property), up[k]? = some q → q.Local (s.properties.up.size + k)) : t.Local := by
  have split : ∀ {old new : Array Property} {more : List Property}, new.toList = old.toList ++ more →
      (∀ {i} {q : Property}, old[i]? = some q → q.Local i) →
      (∀ k (q : Property), more[k]? = some q → q.Local (old.size + k)) →
      ∀ {i} {q : Property}, new[i]? = some q → q.Local i := by
    intro old new more e hold hmore i q hq
    rw [← Array.getElem?_toList, e, List.getElem?_append] at hq
    split_ifs at hq with hi
    · exact hold (by rwa [← Array.getElem?_toList])
    · rw [Array.length_toList] at hi hq
      have := hmore _ q hq
      rwa [show old.size + (i - old.size) = i by omega] at this
  refine ⟨fun {side i q} hq => ?_, g.nodeChecks.trans h.nodeChecks⟩
  cases side with
  | down => exact split g.down (@h.property .down) hdown hq
  | up => exact split g.up (@h.property .up) hup hq
  | combined =>
    refine @h.property .combined _ _ ?_
    show s.properties.combined[i]? = some q
    rw [← g.combined]
    exact hq

/-- An appended property in a specification which grew further. -/
theorem has_of_enlarges (g : Enlarges u t) (hc : t.check = .ok ()) {d : Direction} {old more : List Property}
    (e : (u.properties.get d.side).toList = old ++ more) {k : Nat} {q : Property}
    (hk : more[k]? = some q) {reads : List PropertyRef}
    {run : StepFacts → IntSet → View → Checked View} (hr : q.rule = .transition reads run) :
    ∃ slot, t.Has d (old.length + k) q slot run := by
  have hq : (t.properties.get d.side)[old.length + k]? = some q := by
    obtain ⟨rest, hrest⟩ := g.properties d.side
    have hlt := (List.getElem?_eq_some_iff.1 hk).1
    rw [← Array.getElem?_toList, ← hrest, e, List.append_assoc,
      List.getElem?_append_right (Nat.le_add_right _ _), Nat.add_sub_cancel_left,
      List.getElem?_append_left hlt, hk]
  obtain ⟨slot, hs, hkind⟩ := slot_of_property hq
  exact ⟨slot, hc, hq, hs, hkind, reads, hr⟩

theorem Appends.has_down (h : Appends c s u down up checks) (g : Enlarges u t) (hc : t.check = .ok ())
    {k : Nat} {q : Property} (hk : down[k]? = some q) {reads : List PropertyRef}
    {run : StepFacts → IntSet → View → Checked View} (hr : q.rule = .transition reads run) :
    ∃ slot, t.Has .down (s.properties.down.size + k) q slot run := by
  rw [← Array.length_toList]
  exact has_of_enlarges (d := .down) g hc h.down hk hr

theorem Appends.has_up (h : Appends c s u down up checks) (g : Enlarges u t) (hc : t.check = .ok ())
    {k : Nat} {q : Property} (hk : up[k]? = some q) {reads : List PropertyRef}
    {run : StepFacts → IntSet → View → Checked View} (hr : q.rule = .transition reads run) :
    ∃ slot, t.Has .up (s.properties.up.size + k) q slot run := by
  rw [← Array.length_toList]
  exact has_of_enlarges (d := .up) g hc h.up hk hr

end DecisionDiagrams.Spec
