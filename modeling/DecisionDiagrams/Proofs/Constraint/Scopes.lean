import DecisionDiagrams.Proofs.Spec.Appends
import DecisionDiagrams.Constraint.Basic
import Mathlib.Data.List.Basic
import Mathlib.Data.List.Perm.Subperm

/-! The variables of a scope in the order of the layers. On the way from the root or from the sink to a
layer some of them are passed; every layer of the scope adds its own variable to them. -/

namespace DecisionDiagrams

/-- The variables of a scope in a given order. -/
def scopeIn (order : List Var) (vars : List Var) : List Var := order.filter fun x => vars.contains x

theorem mem_scopeIn {order vars : List Var} {x : Var} :
    x ∈ scopeIn order vars ↔ x ∈ order ∧ x ∈ vars := by
  simp [scopeIn]

/-- A scope is reordered if all its variables are in the order. -/
theorem scopeIn_perm {order vars : List Var} (ho : order.Nodup) (hv : vars.Nodup)
    (h : ∀ x ∈ vars, x ∈ order) : (scopeIn order vars).Perm vars := by
  refine (List.perm_ext_iff_of_nodup (ho.filter _) hv).2 fun x => ?_
  rw [← scopeIn, mem_scopeIn]
  exact and_iff_right_of_imp (h x)

theorem length_scopeIn_le {order vars : List Var} (ho : order.Nodup) :
    (scopeIn order vars).length ≤ vars.length :=
  (List.subperm_of_subset (ho.filter _) fun _ hx => (mem_scopeIn.1 hx).2).length_le

/-- The values of the variables of the scope are in their domains. -/
def Known (domains : Domains) (vars : List Var) (σ : Var → Int) : Prop :=
  ∀ x ∈ vars, domains.contains x (σ x) = true

theorem Known.get? {domains : Domains} {vars : List Var} {σ : Var → Int} {x : Var}
    (h : Known domains vars σ) (hx : x ∈ vars) :
    ∃ d, domains.get? x = some d ∧ σ x ∈ d.toIntSet := by
  have hc := h x hx
  unfold Domains.contains Domains.values at hc
  cases hd : domains.get? x with
  | none =>
    rw [hd] at hc
    cases hc
  | some d =>
    rw [hd] at hc
    exact ⟨d, rfl, List.elem_iff.1 hc⟩

namespace IntSet

variable {s : IntSet} {v : Int}

theorem head_le (hv : v ∈ s) (hne : s.toList ≠ []) : s.toList.head hne ≤ v := by
  obtain ⟨a, r, e⟩ := List.exists_cons_of_ne_nil hne
  have hp := s.increasing
  rw [e, List.pairwise_cons] at hp
  rw [mem_def, e] at hv
  simp only [e, List.head_cons]
  rcases List.mem_cons.1 hv with rfl | hv
  · exact Int.le_refl _
  · exact Int.le_of_lt (hp.1 v hv)

theorem le_getLast (hv : v ∈ s) (hne : s.toList ≠ []) : v ≤ s.toList.getLast hne := by
  have hp := s.increasing
  rw [mem_def] at hv
  rw [← List.dropLast_append_getLast hne, List.pairwise_append] at hp
  rw [← List.dropLast_append_getLast hne, List.mem_append, List.mem_singleton] at hv
  rcases hv with hv | hv
  · exact Int.le_of_lt (hp.2.2 v hv _ (List.mem_singleton.2 rfl))
  · exact Int.le_of_eq hv

end IntSet

namespace Spec

/-- A constraint with these variables is registered in a specification which can be compiled. -/
structure Hosts (t : Spec) (c : ScopeId) (vars : List Var) : Prop where
  check : t.check = .ok ()
  ordered : t.Ordered
  scope : ∃ name, t.scopes[c]? = some ⟨name, vars⟩

/-- The layers in order. -/
def order (t : Spec) : List Var := t.branchVars.toList

/-- The variables of a scope on the layers which are passed on the way to layer `l`. -/
def passed (t : Spec) (vars : List Var) : Direction → Nat → List Var
  | .down, l => scopeIn (t.order.take l) vars
  | .up, l => scopeIn (t.order.drop l) vars

theorem passed_down (t : Spec) (vars : List Var) (l : Nat) :
    t.passed vars .down l = (t.order.take l).filter fun x => vars.contains x := rfl

theorem passed_up (t : Spec) (vars : List Var) (l : Nat) :
    t.passed vars .up l = (t.order.drop l).filter fun x => vars.contains x := rfl

theorem var_toModel (t : Spec) {l : Nat} (hl : l < t.order.length) : t.toModel.var l = t.order[l] := by
  have hsize : l < t.branchVars.size := hl
  unfold Model.var order
  show t.branchVars.getD l 0 = _
  simp only [Array.getD_eq_getD_getElem?, Array.getElem?_eq_getElem hsize, Option.getD_some]
  exact (Array.getElem_toList hl).symm

variable {s t : Spec} {c : ScopeId} {vars : List Var} {d : Direction} {l i : Nat} {q : Property}
  {slot : Slot} {run : StepFacts → IntSet → View → Checked View}

theorem after_orderOf {Q : ScopeOrder → Spec → Prop} :
    After (orderOf vars) Q t ↔ Q (ScopeOrder.ofScope t.branchVars vars) t := Iff.rfl

theorem passed_start (t : Spec) (vars : List Var) (d : Direction) :
    t.passed vars d (d.start t.toModel) = [] := by
  cases d with
  | down => rfl
  | up =>
    have : t.order.drop (Direction.up.start t.toModel) = [] := List.drop_length
    show scopeIn (t.order.drop (Direction.up.start t.toModel)) vars = []
    rw [this]
    rfl

theorem passed_down_succ (hl : l < t.branchVars.size) (hv : t.toModel.var l ∈ vars) :
    t.passed vars .down (l + 1) = t.passed vars .down l ++ [t.toModel.var l] := by
  have hlt : l < t.order.length := hl
  rw [passed_down, passed_down, List.take_succ_eq_append_getElem hlt, List.filter_append,
    ← var_toModel t hlt]
  simp [hv]

theorem passed_up_eq_cons (hl : l < t.branchVars.size) (hv : t.toModel.var l ∈ vars) :
    t.passed vars .up l = t.toModel.var l :: t.passed vars .up (l + 1) := by
  have hlt : l < t.order.length := hl
  rw [passed_up, passed_up, List.drop_eq_getElem_cons hlt, ← var_toModel t hlt,
    List.filter_cons_of_pos (by simpa using hv)]

/-- A layer of the scope adds its variable. -/
theorem passed_perm (hl : l < t.branchVars.size) (hv : t.toModel.var l ∈ vars) (d : Direction) :
    (t.passed vars d (d.target l)).Perm (t.toModel.var l :: t.passed vars d (d.source l)) := by
  cases d with
  | down =>
    show (t.passed vars .down (l + 1)).Perm _
    rw [passed_down_succ hl hv]
    exact List.perm_append_singleton _ _
  | up =>
    show (t.passed vars .up l).Perm _
    rw [passed_up_eq_cons hl hv]
    exact .refl _

/-- Another layer adds nothing. -/
theorem passed_eq (hl : l < t.branchVars.size) (hv : t.toModel.var l ∉ vars) (d : Direction) :
    t.passed vars d (d.target l) = t.passed vars d (d.source l) := by
  have hlt : l < t.order.length := hl
  cases d with
  | down =>
    show t.passed vars .down (l + 1) = t.passed vars .down l
    rw [passed_down, passed_down, List.take_succ_eq_append_getElem hlt, List.filter_append,
      ← var_toModel t hlt]
    simp [hv]
  | up =>
    show t.passed vars .up l = t.passed vars .up (l + 1)
    rw [passed_up, passed_up, List.drop_eq_getElem_cons hlt, ← var_toModel t hlt,
      List.filter_cons_of_neg (by simpa using hv)]

/-- A layer of the scope stands between what is passed from the root and from the sink. -/
theorem scopeIn_split (hl : l < t.branchVars.size) (hv : t.toModel.var l ∈ vars) :
    scopeIn t.order vars =
      t.passed vars .down l ++ t.toModel.var l :: t.passed vars .up (l + 1) := by
  rw [← passed_up_eq_cons hl hv]
  rw [passed_down, passed_up, scopeIn, ← List.filter_append, List.take_append_drop]

theorem passed_sublist (t : Spec) (vars : List Var) (d : Direction) (l : Nat) :
    (t.passed vars d l).Sublist (scopeIn t.order vars) := by
  cases d with
  | down => exact (List.take_sublist l _).filter _
  | up => exact (List.drop_sublist l _).filter _

namespace Hosts

theorem nodup (h : t.Hosts c vars) : vars.Nodup := by
  obtain ⟨name, hs⟩ := h.scope
  exact nodup_of_check h.check (Array.mem_toList_iff.2 (Array.mem_of_getElem? hs))

theorem mem_order (h : t.Hosts c vars) {x : Var} (hx : x ∈ vars) : x ∈ t.order := by
  obtain ⟨name, hs⟩ := h.scope
  exact h.ordered.known _ (Array.mem_toList_iff.2 (Array.mem_of_getElem? hs)) x hx

theorem perm (h : t.Hosts c vars) : (scopeIn t.order vars).Perm vars :=
  scopeIn_perm h.ordered.nodup h.nodup fun _ => h.mem_order

theorem length_passed_le (h : t.Hosts c vars) (d : Direction) (l : Nat) :
    (t.passed vars d l).length ≤ vars.length := by
  rw [← h.perm.length_eq]
  exact (passed_sublist t vars d l).length_le

theorem covers_iff (h : t.Hosts c vars) (hl : l < t.branchVars.size) :
    covers t.coverage c l = true ↔ t.toModel.var l ∈ vars := by
  obtain ⟨name, hs⟩ := h.scope
  exact h.ordered.covers_iff hs hl

/-- A property of the constraint is computed on the layers of its scope. -/
theorem mem_active (h : t.Hosts c vars) (hq : t.Has d i q slot run) (hc : q.constraint = c)
    (hl : l < t.branchVars.size) : i ∈ t.toModel.active d l ↔ t.toModel.var l ∈ vars := by
  rw [Spec.mem_active hl, ← h.covers_iff hl]
  constructor
  · rintro ⟨q', hq', -, hcov⟩
    obtain rfl := Option.some.inj (hq.property.symm.trans hq')
    rwa [← hc]
  · obtain ⟨reads, hr⟩ := hq.rule
    exact fun hcov => ⟨q, hq.property, by rw [hr]; rfl, by rwa [hc]⟩

/-- The layers of a scope are those of a specification in which its variables have layers. -/
theorem lt_size (h : t.Hosts c vars) (g : Enlarges s t) (hs : ∀ x ∈ vars, x ∈ s.order)
    (hl : l < t.branchVars.size) (hv : t.toModel.var l ∈ vars) : l < s.branchVars.size := by
  obtain ⟨k, hk, e⟩ := List.getElem_of_mem (hs _ hv)
  obtain ⟨rest, hrest⟩ := g.branchVars
  have hlen : k < t.order.length := by
    have := congrArg List.length hrest
    rw [List.length_append] at this
    exact Nat.lt_of_lt_of_le hk (by
      show s.branchVars.toList.length ≤ t.branchVars.toList.length
      omega)
  have hlt : l < t.order.length := hl
  have e' : t.order[k] = t.order[l] := by
    rw [← var_toModel t hlt, ← e]
    unfold order
    simp only [← hrest]
    exact List.getElem_append_left hk
  obtain rfl := h.ordered.nodup.getElem_inj_iff.1 e'
  exact hk

/-- Later constraints add no variables of the scope below a layer. -/
theorem passed_up_of_enlarges (h : t.Hosts c vars) (g : Enlarges s t) (hs : ∀ x ∈ vars, x ∈ s.order)
    (hl : l < t.branchVars.size) (hv : t.toModel.var l ∈ vars) :
    t.passed vars .up (l + 1) = scopeIn (s.order.drop (l + 1)) vars := by
  have hlt := h.lt_size g hs hl hv
  have hn := h.ordered.nodup
  obtain ⟨rest, hrest⟩ := g.branchVars
  rw [← hrest, List.nodup_append] at hn
  have hnone : rest.filter (fun x => vars.contains x) = [] := by
    refine List.filter_eq_nil_iff.2 fun x hx hc => ?_
    exact hn.2.2 x (hs x (by simpa using hc)) x hx rfl
  rw [passed_up, scopeIn, order, ← hrest,
    List.drop_append_of_le_length (show l + 1 ≤ s.branchVars.toList.length from hlt),
    List.filter_append, hnone, List.append_nil]
  rfl

theorem getElem?_countAbove (vars : List Var) : ∀ (xs : List Var) (seen l : Nat), l < xs.length →
    (ScopeOrder.countAbove vars seen xs)[l]? = some (seen + (scopeIn (xs.take l) vars).length)
  | x :: xs, seen, 0, _ => rfl
  | x :: xs, seen, l + 1, h => by
    unfold ScopeOrder.countAbove
    rw [List.getElem?_cons_succ, getElem?_countAbove vars xs _ l (Nat.lt_of_succ_lt_succ h)]
    unfold scopeIn
    rw [List.take_succ_cons]
    by_cases hx : x ∈ vars
    · rw [List.filter_cons_of_pos (by simpa using hx), if_pos (by simpa using hx),
        List.length_cons]
      congr 1
      omega
    · rw [List.filter_cons_of_neg (by simpa using hx), if_neg (by simpa using hx)]

/-- The positions which were counted at registration are those of the layers. -/
theorem before_eq (h : t.Hosts c vars) (g : Enlarges s t) (hs : ∀ x ∈ vars, x ∈ s.order)
    (hl : l < t.branchVars.size) (hv : t.toModel.var l ∈ vars) :
    (ScopeOrder.ofScope s.branchVars vars).before l = (t.passed vars .down l).length := by
  have hlt := h.lt_size g hs hl hv
  have e := getElem?_countAbove vars s.order 0 l hlt
  obtain ⟨rest, hrest⟩ := g.branchVars
  unfold ScopeOrder.ofScope ScopeOrder.before
  rw [Array.getD_eq_getD_getElem?, List.getElem?_toArray]
  unfold order at e
  rw [e]
  have htake : t.order.take l = s.order.take l := by
    unfold order
    rw [← hrest, List.take_append_of_le_length (Nat.le_of_lt hlt)]
  show 0 + (scopeIn (s.order.take l) vars).length = (scopeIn (t.order.take l) vars).length
  rw [htake, Nat.zero_add]

theorem after_eq (h : t.Hosts c vars) (g : Enlarges s t) (hs : ∀ x ∈ vars, x ∈ s.order)
    (hl : l < t.branchVars.size) (hv : t.toModel.var l ∈ vars) :
    (ScopeOrder.ofScope s.branchVars vars).after l = (t.passed vars .up (l + 1)).length := by
  have hlen := h.perm.length_eq
  rw [scopeIn_split hl hv, List.length_append, List.length_cons] at hlen
  unfold ScopeOrder.after
  rw [h.before_eq g hs hl hv]
  show vars.length - _ = _
  omega

end Hosts

/-! ### Contributions -/

/-- All tests of arcs which are registered in `u` let an assignment pass in the model of `t`. -/
def Admits (σ : Var → Int) (t u : Spec) : Prop :=
  ∀ a ∈ u.arcChecks.toList, ∀ l < t.branchVars.size, covers t.coverage a.1 l = true →
    t.toModel.Lets (t.toModel.labelsOf σ) l a.2

/-- What registering constraints adds is sound for an assignment, given what `H` says of it in the
final order of the layers. -/
structure Contributes (σ : Var → Int) (H : List Var → Prop) (s u : Spec) : Prop where
  enlarges : Enlarges s u
  ordered : s.Ordered → u.Ordered
  writes : s.Local → u.Local
  admits : ∀ t, Enlarges u t → t.check = .ok () → t.Ordered → H t.order → s.Ordered → Admits σ t s →
    Admits σ t u

namespace Contributes

variable {σ : Var → Int} {H H' : List Var → Prop} {u v : Spec}

theorem refl (σ : Var → Int) (H : List Var → Prop) (s : Spec) : Contributes σ H s s :=
  ⟨.refl s, id, id, fun _ _ _ _ _ _ h => h⟩

theorem trans (h : Contributes σ H s u) (g : Contributes σ H' u v) :
    Contributes σ (fun o => H o ∧ H' o) s v :=
  ⟨h.enlarges.trans g.enlarges, g.ordered ∘ h.ordered, g.writes ∘ h.writes,
    fun t hv hc ho hH hs ha => g.admits t hv hc ho hH.2 (h.ordered hs)
      (h.admits t (g.enlarges.trans hv) hc ho hH.1 hs ha)⟩

theorem mono (h : Contributes σ H s u) (hH : ∀ o, H' o → H o) : Contributes σ H' s u :=
  { h with admits := fun t hu hc ho hH' => h.admits t hu hc ho (hH _ hH') }

theorem addScope (σ : Var → Int) (H : List Var → Prop) (name : String) (vars : List Var) (s : Spec) :
    Contributes σ H s (Spec.addScope name vars s).2 :=
  ⟨grows_addScope name vars s, fun h => h.addScope name vars, fun h => ⟨h.property, h.nodeChecks⟩,
    fun _ _ _ _ _ _ h => h⟩

/-- What is registered one after the other, while `I` holds of the specifications. -/
theorem forM {α : Type} {f : α → StateM Spec Unit} {K : α → List Var → Prop} {I : Spec → Prop}
    (as : List α) (step : ∀ a ∈ as, ∀ s, I s → Contributes σ (K a) s (f a s).2 ∧ I (f a s).2) :
    ∀ {s}, I s → Contributes σ (fun o => ∀ a ∈ as, K a o) s (as.forM f s).2 := by
  induction as with
  | nil => exact fun {s} _ => .refl σ _ s
  | cons a as ih =>
    intro s hs
    obtain ⟨hfirst, hI⟩ := step a List.mem_cons_self s hs
    have hrest := ih (fun b hb => step b (List.mem_cons_of_mem _ hb)) hI
    refine (hfirst.trans hrest).mono fun o h => ?_
    exact ⟨h a List.mem_cons_self, fun b hb => h b (List.mem_cons_of_mem _ hb)⟩

end Contributes

/-- The scope of a constraint is registered. -/
def Scoped (s : Spec) (c : ScopeId) (vars : List Var) : Prop := ∃ name, s.scopes[c]? = some ⟨name, vars⟩

theorem scoped_addScope (name : String) (vars : List Var) (s : Spec) :
    (Spec.addScope name vars s).2.Scoped (Spec.addScope name vars s).1 vars :=
  ⟨name, Array.getElem?_push_size⟩

theorem Appends.scoped {u : Spec} {down up : List Property}
    {checks : List (ArcFacts → Checked Bool)} {b : ScopeId} {ys : List Var}
    (h : Appends c s u down up checks) (hs : s.Scoped b ys) : u.Scoped b ys := by
  unfold Scoped
  rw [h.scopes]
  exact hs

theorem Enlarges.getElem? {u : Spec} (h : Enlarges s u) {k : Scope} (hk : s.scopes[c]? = some k) :
    u.scopes[c]? = some k := by
  obtain ⟨rest, e⟩ := h.scopes
  rw [← Array.getElem?_toList] at hk ⊢
  rw [← e, List.getElem?_append_left (List.getElem?_eq_some_iff.1 hk).1, hk]

/-- A constraint contributes soundly if its properties are local and its tests let pass what it
allows. -/
theorem Appends.contributes {σ : Var → Int} {H : List Var → Prop} {u : Spec} {down up : List Property}
    {checks : List (ArcFacts → Checked Bool)} (h : Appends c s u down up checks)
    (hs : s.Scoped c vars) (hdown : ∀ k (q : Property), down[k]? = some q →
      q.Local (s.properties.down.size + k))
    (hup : ∀ k (q : Property), up[k]? = some q → q.Local (s.properties.up.size + k))
    (hlets : ∀ t, Enlarges u t → t.Hosts c vars → (∀ x ∈ vars, x ∈ s.order) → H t.order →
      ∀ check ∈ checks, ∀ l < t.branchVars.size, t.toModel.var l ∈ vars →
        t.toModel.Lets (t.toModel.labelsOf σ) l check) : Contributes σ H s u := by
  refine ⟨h.enlarges, fun ho => ho.appends h, fun hl => hl.appends h hdown hup,
    fun t hu hc ho hH hso ha a hmem l hl hcov => ?_⟩
  rw [h.arcChecks, List.mem_append, List.mem_map] at hmem
  rcases hmem with hmem | ⟨check, hcheck, rfl⟩
  · exact ha a hmem l hl hcov
  · obtain ⟨name, hname⟩ := hs
    have hosts : t.Hosts c vars := ⟨hc, ho, name, (h.enlarges.trans hu).getElem? hname⟩
    have known : ∀ x ∈ vars, x ∈ s.order :=
      hso.known _ (Array.mem_toList_iff.2 (Array.mem_of_getElem? hname))
    exact hlets t hu hosts known hH check hcheck l hl ((hosts.covers_iff hl).1 hcov)

end Spec
end DecisionDiagrams
