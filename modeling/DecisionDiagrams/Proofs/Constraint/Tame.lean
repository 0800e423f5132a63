import DecisionDiagrams.Proofs.Constraint.Library
import DecisionDiagrams.Proofs.Engine.Unfailing
import DecisionDiagrams.Proofs.Spec.Tuples

/-! Diagrams of library constraints cannot go wrong. Their rules read nothing but their own property, their tests
answer whatever they are asked, there are no combined states, and distances are the built-in ones. -/

namespace DecisionDiagrams

namespace Spec

/-- A registered specification without combined properties, whose tests of arcs always answer and whose
properties read nothing else and have no distance of their own. -/
structure Tame (s : Spec) : Prop where
  registered : s.Registered
  combined : s.properties.combined = #[]
  answers : ∀ a ∈ s.arcChecks, ∀ arc, ∃ kept, a.2 arc = .ok kept
  plain : ∀ d : Direction, ∀ q ∈ s.properties.get d.side, q.rule.reads = [] ∧ q.similarity = none

theorem tame_empty : Tame {} := by
  refine ⟨.start, rfl, fun a ha => absurd ha (Array.not_mem_empty a), fun d q hq => ?_⟩
  cases d <;> exact absurd hq (Array.not_mem_empty q)

theorem Tame.addScope {s : Spec} (h : s.Tame) (name : String) (vars : List Var) :
    (addScope name vars s).2.Tame :=
  ⟨h.registered.scope name vars, h.combined, h.answers, h.plain⟩

/-- Nothing is added to the layers and scopes, and what is added is tame. -/
structure Extends (s t : Spec) : Prop where
  tame : s.Tame → t.Tame
  branchVars : t.branchVars = s.branchVars
  scopes : t.scopes = s.scopes

theorem Extends.refl (s : Spec) : Extends s s := ⟨id, rfl, rfl⟩

/-- What is registered behind a scope, whatever was registered before. -/
def Tames {α : Type} (x : StateM Spec α) : Prop := ∀ s : Spec, Extends s (x s).2

namespace Tames

variable {α β : Type} {c : ScopeId} {d : Direction} {kind : Kind} {r : Relaxation}

theorem bind {x : StateM Spec α} {f : α → StateM Spec β} (hx : Tames x) (hf : ∀ a, Tames (f a)) :
    Tames (x >>= f) := fun s => by
  have h := hx s
  have k := hf (x s).1 (x s).2
  exact ⟨fun hs => k.tame (h.tame hs), k.branchVars.trans h.branchVars, k.scopes.trans h.scopes⟩

theorem get : Tames get := fun s => .refl s

theorem orderOf (vars : List Var) : Tames (Spec.orderOf vars) := fun s => .refl s

theorem forM {f : α → StateM Spec Unit} (hf : ∀ a, Tames (f a)) : ∀ as : List α, Tames (as.forM f)
  | [] => fun s => .refl s
  | a :: as => (hf a).bind fun _ => forM hf as

theorem declare : Tames (declareProperty c d.side kind r) := fun s => by
  refine ⟨fun h => ⟨h.registered.property c d.side kind r, ?_, h.answers, fun e q hq => ?_⟩, rfl, rfl⟩
  · cases d <;> exact h.combined
  · have new : ∀ {old : Array Property}, (∀ q ∈ old, q.rule.reads = [] ∧ q.similarity = none) →
        q ∈ old.push { constraint := c, kind, relaxation := r } → q.rule.reads = [] ∧ q.similarity = none := by
      intro old ho hq
      rcases Array.mem_push.1 hq with hq | rfl
      · exact ho q hq
      · exact ⟨rfl, rfl⟩
    cases d <;> cases e
    · exact new (h.plain .down) hq
    · exact h.plain .up q hq
    · exact h.plain .down q hq
    · exact new (h.plain .up) hq

theorem transition (p : PropertyRef) (run : StepFacts → IntSet → View → Checked View) :
    Tames (setTransition p [] run) := fun s => by
  have modified : ∀ {old : Array Property} {q : Property}, (∀ q ∈ old, q.rule.reads = [] ∧ q.similarity = none) →
      q ∈ old.modify p.index (fun q => { q with rule := .transition [] run }) →
      q.rule.reads = [] ∧ q.similarity = none := by
    intro old q ho hq
    obtain ⟨i, hi, rfl⟩ := Array.mem_iff_getElem.1 hq
    rw [Array.getElem_modify]
    split_ifs
    · exact ⟨rfl, (ho _ (Array.getElem_mem _)).2⟩
    · exact ho _ (Array.getElem_mem _)
  show Extends s (if p.index < (s.properties.get p.side).size then _ else _)
  split_ifs with hi
  · refine ⟨fun h => ?_, rfl, rfl⟩
    have hr := h.registered.adjust p fun q => { q with rule := .transition [] run }
    change Registered (if p.index < (s.properties.get p.side).size then _ else _) at hr
    rw [if_pos hi] at hr
    obtain ⟨side, index⟩ := p
    cases side with
    | down =>
      refine ⟨hr, h.combined, h.answers, fun d q hq => ?_⟩
      cases d with
      | down => exact modified (h.plain .down) hq
      | up => exact h.plain .up q hq
    | up =>
      refine ⟨hr, h.combined, h.answers, fun d q hq => ?_⟩
      cases d with
      | down => exact h.plain .down q hq
      | up => exact modified (h.plain .up) hq
    | combined =>
      change index < s.properties.combined.size at hi
      rw [h.combined] at hi
      exact absurd hi (Nat.not_lt_zero index)
  · refine ⟨fun h => ?_, rfl, rfl⟩
    have hr := h.registered.adjust p fun q => { q with rule := .transition [] run }
    change Registered (if p.index < (s.properties.get p.side).size then _ else _) at hr
    rw [if_neg hi] at hr
    exact ⟨hr, h.combined, h.answers, h.plain⟩

theorem arcCheck {check : ArcFacts → Checked Bool} (hc : ∀ arc, ∃ kept, check arc = .ok kept) :
    Tames (addArcCheck c check) := fun s => by
  refine ⟨fun h => ⟨h.registered.arcCheck c check, h.combined, fun a ha => ?_, h.plain⟩, rfl, rfl⟩
  rcases Array.mem_push.1 ha with ha | rfl
  · exact h.answers a ha
  · exact hc

theorem splitPriority (f : NodeFacts → Checked Int) : Tames (addSplitPriority f) := fun _ =>
  ⟨fun h => ⟨h.registered.splitPriority f, h.combined, h.answers, h.plain⟩, rfl, rfl⟩

theorem candidatePriority (f : CandidateFacts → Checked Int) : Tames (addCandidatePriority f) := fun _ =>
  ⟨fun h => ⟨h.registered.candidatePriority f, h.combined, h.answers, h.plain⟩, rfl, rfl⟩

theorem equivalenceKey (f : View → Checked Int) : Tames (addEquivalenceKey f) := fun _ =>
  ⟨fun h => ⟨h.registered.equivalenceKey f, h.combined, h.answers, h.plain⟩, rfl, rfl⟩

end Tames

/-- A test which answers without looking whether anything exists. -/
theorem answers_ok {α : Type} (f : α → Bool) (a : α) : ∃ kept, (.ok (f a) : Checked Bool) = .ok kept := ⟨_, rfl⟩

end Spec

open Spec (Tames)

theorem Counting.tames_registerCount (c : ScopeId) (vars : List Var) (members : List Int) (lower upper : Int) :
    Tames (registerCount c vars members lower upper) := by
  refine .bind (.orderOf vars) fun _ => .bind (.declare (d := .down)) fun _ => .bind (.declare (d := .down)) fun _ => ?_
  refine .bind (.declare (d := .up)) fun _ => .bind (.declare (d := .up)) fun _ => ?_
  refine .bind (.transition _ _) fun _ => .bind (.transition _ _) fun _ => ?_
  refine .bind (.transition _ _) fun _ => .bind (.transition _ _) fun _ => ?_
  refine .bind (.arcCheck (Spec.answers_ok _)) fun _ => .bind (.splitPriority _) fun _ => ?_
  exact .bind (.candidatePriority _) fun _ => .equivalenceKey _

namespace Constraint

/-- The variables which a constraint is about. -/
def scope : Constraint → List Var
  | .allDifferent vars | .among vars .. | .cardinality vars .. | .sequence vars .. | .sum vars .. |
    .precedence vars .. | .mandatoryPrecedence vars .. => vars
  | .custom c => c.scopes.flatMap (·.vars)

/-- Whether a constraint holds depends on the values of its variables. -/
theorem holds_congr {c : Constraint} {order : List Var} {σ τ : Var → Int} (h : ∀ x ∈ c.scope, σ x = τ x)
    (hc : c.Holds order σ) : c.Holds order τ := by
  have ordered : ∀ {vars : List Var} {x : Var}, x ∈ scopeIn order vars → x ∈ vars := fun hx =>
    (mem_scopeIn.1 hx).2
  cases c with
  | allDifferent vars =>
    have e : vars.map σ = vars.map τ := List.map_congr_left h
    show (vars.map τ).Nodup
    rw [← e]
    exact hc
  | among vars values lower upper =>
    have e := Counting.countOf_congr values (show ∀ x ∈ vars, σ x = τ x from h)
    show lower ≤ Counting.countOf values τ vars ∧ Counting.countOf values τ vars ≤ upper
    rw [← e]
    exact hc
  | cardinality vars values lower upper =>
    intro v hv
    have e := Counting.countOf_congr [v.1] (show ∀ x ∈ vars, σ x = τ x from h)
    rw [← e]
    exact hc v hv
  | sequence vars length values lower upper =>
    intro i hi
    have e : Counting.countOf values σ (((scopeIn order vars).drop i).take length) =
        Counting.countOf values τ (((scopeIn order vars).drop i).take length) :=
      Counting.countOf_congr values fun x hx =>
        h x (ordered (List.mem_of_mem_drop (List.mem_of_mem_take hx)))
    show lower ≤ Counting.countOf values τ (((scopeIn order vars).drop i).take length) ∧
      Counting.countOf values τ (((scopeIn order vars).drop i).take length) ≤ upper
    rw [← e]
    exact hc i hi
  | sum vars weights lower upper =>
    have e := Sum.sumOf_congr weights (show ∀ x ∈ vars, σ x = τ x from h)
    show lower ≤ Sum.sumOf vars weights τ ∧ Sum.sumOf vars weights τ ≤ upper
    rw [← e]
    exact hc
  | precedence vars before after => exact hc.congr fun x hx => h x (ordered hx)
  | mandatoryPrecedence vars before after =>
    exact ⟨hc.1.congr fun x hx => h x (ordered hx), hc.2.congr fun x hx => h x (ordered hx)⟩
  | custom c => trivial

/-- A constraint with rules of its own registers its scope and adds nothing which is not tame. -/
theorem extends_register {c : Constraint} (hc : c.Ruled) (domains : Domains) (s : Spec) :
    ∃ name, Spec.Extends (Spec.addScope name c.scope s).2 (c.register domains s).2 := by
  have rest : ∀ (vars : List Var) {name : String} {f : ScopeId → StateM Spec Unit}, (∀ i, Tames (f i)) →
      ∃ name', Spec.Extends (Spec.addScope name' vars s).2 ((Spec.addScope name vars >>= f) s).2 :=
    fun _ _ _ hf => ⟨_, hf _ _⟩
  cases c with
  | allDifferent vars =>
    refine rest vars fun _ => ?_
    refine .bind (.declare (d := .down)) fun _ => .bind (.declare (d := .down)) fun _ => ?_
    refine .bind (.declare (d := .down)) fun _ => .bind (.declare (d := .up)) fun _ => ?_
    refine .bind (.declare (d := .up)) fun _ => .bind (.transition _ _) fun _ => ?_
    refine .bind (.transition _ _) fun _ => .bind (.transition _ _) fun _ => ?_
    refine .bind (.transition _ _) fun _ => .bind (.transition _ _) fun _ => ?_
    exact .bind (.arcCheck (Spec.answers_ok _)) fun _ => .bind (.splitPriority _) fun _ => .equivalenceKey _
  | among vars values lower upper => exact rest vars fun c => Counting.tames_registerCount c vars values lower upper
  | cardinality vars values lower upper =>
    exact rest vars fun c => .forM (fun v => Counting.tames_registerCount c vars _ _ _) _
  | sequence vars length values lower upper =>
    refine rest vars fun _ => .bind (.orderOf vars) fun _ => ?_
    refine .bind (.declare (d := .down)) fun _ => .bind (.declare (d := .down)) fun _ => ?_
    refine .bind (.transition _ _) fun _ => .bind (.transition _ _) fun _ => ?_
    exact .bind (.arcCheck (Spec.answers_ok _)) fun _ => .splitPriority _
  | sum vars weights lower upper =>
    refine rest vars fun _ => .bind .get fun _ => ?_
    refine .bind (.declare (d := .down)) fun _ => .bind (.declare (d := .down)) fun _ => ?_
    refine .bind (.declare (d := .up)) fun _ => .bind (.declare (d := .up)) fun _ => ?_
    refine .bind (.transition _ _) fun _ => .bind (.transition _ _) fun _ => ?_
    refine .bind (.transition _ _) fun _ => .bind (.transition _ _) fun _ => ?_
    exact .bind (.arcCheck (Spec.answers_ok _)) fun _ => .splitPriority _
  | precedence vars before after =>
    refine rest vars fun _ => .bind (.declare (d := .down)) fun _ => ?_
    exact .bind (.transition _ _) fun _ => .arcCheck (Spec.answers_ok _)
  | mandatoryPrecedence vars before after =>
    refine rest vars fun _ => .bind (.declare (d := .down)) fun _ => ?_
    refine .bind (.transition _ _) fun _ => .bind (.orderOf vars) fun _ => ?_
    refine .bind (.declare (d := .down)) fun _ => .bind (.declare (d := .up)) fun _ => ?_
    refine .bind (.transition _ _) fun _ => .bind (.transition _ _) fun _ => ?_
    exact .bind (.arcCheck (Spec.answers_ok _)) fun _ => .candidatePriority _
  | custom c => exact hc.elim

end Constraint

/-! ### The model of one constraint -/

namespace Spec

theorem toList_addVariables : ∀ (vars : List Var) (layers : Array Var), (layers.toList ++ vars).Nodup →
    (vars.foldl (fun vs x => if vs.contains x then vs else vs.push x) layers).toList = layers.toList ++ vars
  | [], layers, _ => by simp
  | x :: vars, layers, h => by
    have hx : layers.contains x = false := by
      rw [Bool.eq_false_iff, Ne, Array.contains_iff_mem, ← Array.mem_toList_iff]
      exact fun hm => (List.nodup_append.1 h).2.2 x hm x List.mem_cons_self rfl
    have e : layers.toList ++ x :: vars = (layers.push x).toList ++ vars := by simp
    rw [List.foldl_cons, hx, if_neg Bool.false_ne_true, e]
    exact toList_addVariables vars _ (e ▸ h)

theorem mem_addVariables {x : Var} : ∀ (vars : List Var) (layers : Array Var),
    x ∈ vars.foldl (fun vs x => if vs.contains x then vs else vs.push x) layers ↔ x ∈ layers ∨ x ∈ vars
  | [], layers => by simp
  | y :: vars, layers => by
    rw [List.foldl_cons, mem_addVariables, List.mem_cons, ← or_assoc]
    refine or_congr_left ?_
    split_ifs with hy
    · exact (or_iff_left_of_imp fun e => e ▸ Array.contains_iff_mem.1 hy).symm
    · exact Array.mem_push

section

variable {domains : Domains} {c : Constraint} {m : Model}

theorem tame_ofConstraints {cs : List Constraint} (hcs : ∀ c ∈ cs, c.Ruled) : (ofConstraints domains cs).Tame :=
  forM_keeps cs (fun c hc s hs => by
    obtain ⟨name, h⟩ := c.extends_register (hcs c hc) domains s
    exact h.tame (hs.addScope name c.scope)) tame_empty

theorem tame_ofConstraint (hc : c.Ruled) : (ofConstraints domains [c]).Tame :=
  tame_ofConstraints fun _ hb => List.mem_singleton.1 hb ▸ hc

/-- The layers of a constraint which is alone are its variables. -/
theorem branchVars_ofConstraint (hc : c.Ruled) (hm : (ofConstraints domains [c]).compile = .ok m) :
    m.branchVars.toList = c.scope ∧ c.scope.Nodup ∧ c.scope ≠ [] := by
  obtain ⟨name, h⟩ := c.extends_register hc domains {}
  obtain ⟨hcheck, rfl⟩ := compile_eq_ok.1 hm
  have hscope : (⟨name, c.scope⟩ : Scope) ∈ (ofConstraints domains [c]).scopes.toList := by
    rw [show (ofConstraints domains [c]).scopes = _ from h.scopes]
    exact List.mem_singleton.2 rfl
  have hn : c.scope.Nodup := nodup_of_check hcheck hscope
  refine ⟨?_, hn, fun e => ?_⟩
  · show (ofConstraints domains [c]).branchVars.toList = c.scope
    rw [show (ofConstraints domains [c]).branchVars = _ from h.branchVars]
    exact toList_addVariables c.scope #[] hn
  · have hk := (check_eq_ok hcheck).1 _ hscope
    unfold checkScope at hk
    rw [e] at hk
    cases hk

namespace Tame

variable {t : Spec} (h : t.Tame)
include h

theorem hasCombined : t.toModel.hasCombined = false := by
  show (!t.properties.combined.isEmpty) = false
  rw [h.combined]
  rfl

theorem exists_distance (s u : State) : ∃ x, t.toModel.distance .down s u = .ok x := by
  refine Checked.exists_foldlM (fun x i => ?_) _ _
  split
  · rename_i q slot hq _
    rw [(h.plain .down q (Array.mem_of_getElem? hq)).2]
    exact ⟨_, rfl⟩
  · exact ⟨_, rfl⟩

/-- The rules of a tame specification give a result for all states, if its properties join labels. -/
theorem answers_model (hc : t.check = .ok ()) (hlocal : t.Local) {D : Var → Int → Prop}
    (hj : t.Joined D) : t.toModel.Answers where
  step l s combined v := (hj.declared hc hlocal .down).exists_step (hj.exists_yields hc .down l s v) combined
  arcPasses l v down parent up child := by
    refine Checked.exists_allM fun check hcheck => ?_
    by_cases hl : l < t.branchVars.size
    · rw [arcChecks_toModel hl] at hcheck
      obtain ⟨a, ha, rfl⟩ := List.mem_map.1 hcheck
      exact h.answers a (Array.mem_toList_iff.1 (List.mem_filter.1 ha).1) _
    · have e : t.toModel.rules l = {} := by
        unfold Model.rules toModel
        simp [hl]
      rw [e] at hcheck
      cases hcheck
  nodePasses node := by
    refine Checked.exists_allM fun check hcheck => ?_
    rw [(hlocal.plain hc).nodeChecks] at hcheck
    cases hcheck
  derive down up := by
    have e : (t.toModel.everyProperty .combined).toList = [] := by
      show (IndexSet.below t.properties.combined.size).toList = []
      rw [h.combined]
      decide
    exact ⟨_, by unfold Model.derive Model.deriveInto; rw [e]; rfl⟩
  merge s u := (hj.declared hc hlocal .down).exists_mergeListed _ s u
  distance := h.exists_distance

end Tame

/-- The rules of a library constraint always give a result. -/
theorem answers_ofConstraint (hc : c.Ruled ∧ c.registrable domains = true ∧ c.malformed? = none)
    (hm : (ofConstraints domains [c]).compile = .ok m) : m.Answers := by
  have hcs : ∀ b ∈ [c], b.Ruled ∧ b.registrable domains = true ∧ b.malformed? = none := fun b hb => by
    obtain rfl := List.mem_singleton.1 hb
    exact hc
  obtain ⟨hcheck, rfl⟩ := compile_eq_ok.1 hm
  exact (tame_ofConstraint hc.1).answers_model hcheck (local_of_ruled hcs)
    (joined_of_ruled fun b hb => ⟨(hcs b hb).1, (hcs b hb).2.1⟩)

/-- Values for some variables, completed by those of another assignment. -/
theorem exists_labels : ∀ {xs : List Var} {vs : List Int}, xs.Nodup → vs.length = xs.length →
    ∀ τ : Var → Int, ∃ σ : Var → Int, (∀ (l : Nat) x, xs[l]? = some x → vs[l]? = some (σ x)) ∧
      ∀ x ∉ xs, σ x = τ x
  | [], _, _, _, τ => ⟨τ, nofun, fun _ _ => rfl⟩
  | x :: xs, v :: vs, hn, hlen, τ => by
    obtain ⟨hx, hn⟩ := List.nodup_cons.1 hn
    obtain ⟨σ, hσ, hothers⟩ := exists_labels hn (Nat.succ.inj hlen) τ
    refine ⟨Function.update σ x v, fun l y hl => ?_, fun y hy => ?_⟩
    · cases l with
      | zero =>
        obtain rfl := Option.some.inj hl
        rw [Function.update_self]
        rfl
      | succ l =>
        have hne : y ≠ x := fun e => hx (e ▸ List.mem_of_getElem? hl)
        rw [Function.update_of_ne hne]
        exact hσ l y hl
    · obtain ⟨hne, hy⟩ := not_or.1 (List.mem_cons.not.1 hy)
      rw [Function.update_of_ne hne]
      exact hothers y hy

/-- The layers of constraints are those of their variables. -/
theorem mem_branchVars_ofConstraints {cs : List Constraint} (hcs : ∀ c ∈ cs, c.Ruled) {x : Var} :
    x ∈ (ofConstraints domains cs).branchVars ↔ ∃ c ∈ cs, x ∈ c.scope := by
  have added : ∀ (cs : List Constraint), (∀ c ∈ cs, c.Ruled) → ∀ s : Spec,
      x ∈ (cs.forM (·.register domains) s).2.branchVars ↔ x ∈ s.branchVars ∨ ∃ c ∈ cs, x ∈ c.scope := by
    intro cs
    induction cs with
    | nil => exact fun _ s => (or_iff_left (by simp)).symm
    | cons c cs ih =>
      intro hcs s
      obtain ⟨name, h⟩ := c.extends_register (hcs c List.mem_cons_self) domains s
      have step : x ∈ (c.register domains s).2.branchVars ↔ x ∈ s.branchVars ∨ x ∈ c.scope := by
        rw [h.branchVars]
        exact mem_addVariables _ _
      refine (ih (fun b hb => hcs b (List.mem_cons_of_mem _ hb)) (c.register domains s).2).trans ?_
      rw [step, or_assoc, List.exists_mem_cons_iff]
  exact (added cs hcs {}).trans (or_iff_right (Array.not_mem_empty x))

theorem exists_layer {cs : List Constraint} (hcs : ∀ c ∈ cs, c.Ruled)
    (hm : (ofConstraints domains cs).compile = .ok m) {x : Var} :
    (∃ c ∈ cs, x ∈ c.scope) ↔ ∃ l < m.depth, m.var l = x := by
  obtain ⟨-, rfl⟩ := compile_eq_ok.1 hm
  rw [← mem_branchVars_ofConstraints hcs, ← Array.mem_toList_iff, List.mem_iff_getElem]
  refine exists_congr fun l => ⟨fun ⟨hl, e⟩ => ⟨hl, (var_toModel _ hl).trans e⟩, fun ⟨hl, e⟩ => ⟨hl, ?_⟩⟩
  exact (var_toModel _ hl).symm.trans e

/-- Labels in the domains belong to an assignment in the domains. -/
theorem exists_assignment (hnodup : m.branchVars.toList.Nodup) {s : Domains} {vs : List Int} (hlen : vs.length = m.depth)
    (hin : ∀ l v, vs[l]? = some v → s.contains (m.var l) v = true) : ∃ σ : Var → Int,
      (∀ x < s.size, s.contains x (σ x) = true) ∧ ∀ l < m.depth, vs[l]? = some (σ (m.var l)) := by
  have hvar : ∀ {l x}, m.branchVars.toList[l]? = some x ↔ l < m.depth ∧ m.var l = x := by
    intro l x
    unfold Model.var Model.depth
    rw [Array.getElem?_toList, Array.getElem?_eq_some_iff, Array.getD_eq_getD_getElem?]
    refine ⟨fun ⟨hl, e⟩ => ⟨hl, ?_⟩, fun ⟨hl, e⟩ => ⟨hl, ?_⟩⟩
    · rw [Array.getElem?_eq_getElem hl, e]
      rfl
    · rwa [Array.getElem?_eq_getElem hl] at e
  -- the labels, and any values of the other variables
  obtain ⟨τ, hτ⟩ := exists_values s
  obtain ⟨σ, hlabels, hothers⟩ := exists_labels hnodup (hlen.trans Array.length_toList.symm) τ
  replace hlabels : ∀ l < m.depth, vs[l]? = some (σ (m.var l)) := fun l hl => hlabels l _ (hvar.2 ⟨hl, rfl⟩)
  refine ⟨σ, fun x hx => ?_, hlabels⟩
  by_cases hmem : x ∈ m.branchVars.toList
  · obtain ⟨l, hat⟩ := List.mem_iff_getElem?.1 hmem
    obtain ⟨hl, rfl⟩ := hvar.1 hat
    exact hin l _ (hlabels l hl)
  · rw [hothers x hmem]
    exact hτ x hx

/-- An accepted tuple belongs to an assignment in the domains which satisfies the constraints. -/
theorem holds_of_tuple {cs : List Constraint} (hcs : ∀ c ∈ cs, c.InLibrary domains ∧
      c.registrable domains = true ∧ c.malformed? = none)
    (hm : (ofConstraints domains cs).compile = .ok m) {s : Domains}
    (hs : ∀ x < domains.size, x < s.size ∧ ∀ v, s.contains x v = true → domains.contains x v = true)
    {vs : List Int} (hvs : vs ∈ m.tuples s) : ∃ σ : Var → Int,
      (∀ x < s.size, s.contains x (σ x) = true) ∧ (∀ l < m.depth, vs[l]? = some (σ (m.var l))) ∧
      ∀ c ∈ cs, c.Holds m.branchVars.toList σ := by
  obtain ⟨hlen, hin, hadm⟩ := hvs
  have hnodup : m.branchVars.toList.Nodup := by
    obtain ⟨-, rfl⟩ := compile_eq_ok.1 hm
    exact (ordered_ofConstraints hcs).nodup
  obtain ⟨σ, hwithin, hlabels⟩ := exists_assignment hnodup hlen hin
  refine ⟨σ, hwithin, hlabels, ?_⟩
  have hdecl := (joined_ofConstraints (fun b hb => ⟨(hcs b hb).1.ruled, (hcs b hb).2⟩) hm .down).toDeclared
  have hcomb : ∀ d, m.besides d = .ok none := fun d => by
    obtain ⟨-, rfl⟩ := compile_eq_ok.1 hm
    unfold Model.besides
    rw [(tame_ofConstraints fun c hc => (hcs c hc).1.ruled).hasCombined, Bool.and_false]
    rfl
  obtain ⟨S, hS0, hS⟩ := Model.exists_leads hadm
  have leads : ∀ l < m.depth, m.arcPasses l (σ (m.var l)) (S l) none (m.ahead l) none = .ok true ∧
      m.step .down l (S l) none (.singleton (σ (m.var l))) = .ok (S (l + 1)) := fun l hl => by
    obtain ⟨combined, hb, hp, hstep⟩ := hS l _ (hlabels l hl)
    obtain rfl := Except.ok.inj ((hcomb _).symm.trans hb)
    rw [Nat.zero_add] at hp hstep
    exact ⟨hp, hstep⟩
  have hfollows : m.Follows (m.labelsOf σ) S :=
    ⟨fun i => hS0 ▸ .refl _ _ _ _, fun {l} hl i => hdecl.yields_step (leads l (by omega)).2 i⟩
  refine holds_of_passes hcs hm (fun x hx => (hs x hx).2 _ (hwithin x (hs x hx).1)) hfollows
    fun l hl check hcheck => ?_
  refine ⟨S l, m.ahead l, fun i => .refl _ _ _ _, fun u hu i _ => ?_,
    Checked.of_allM (leads l hl).1 check hcheck⟩
  unfold Model.ahead at hu
  split_ifs at hu
  obtain rfl := Option.some.inj hu
  exact .refl _ _ _ _

end

/-! ### Constraints which share a diagram -/

section

variable {domains : Domains} {p q : List Constraint} {c : Constraint}
  (hcs : ∀ b ∈ p ++ c :: q, b.Ruled ∧ b.registrable domains = true ∧ b.malformed? = none)
include hcs

theorem registered_of_ruled : (ofConstraints domains p).Registered ∧
    (ofConstraints domains (p ++ c :: q)).Registered :=
  ⟨(tame_ofConstraints fun b hb => (hcs b (List.mem_append_left _ hb)).1).registered,
    (tame_ofConstraints fun b hb => (hcs b hb).1).registered⟩

/-- What is registered for a constraint stays where it is. -/
theorem enlarges_ofConstraints :
    Enlarges (c.register domains (ofConstraints domains p)).2 (ofConstraints domains (p ++ c :: q)) := by
  obtain ⟨σ, hσ⟩ := exists_values domains
  rw [List.append_cons, ofConstraints_append, ofConstraints_concat]
  refine forM_keeps (I := Enlarges _) q (fun b hb s hs => hs.trans ?_) (.refl _)
  have hb := hcs b (List.mem_append_right _ (List.mem_cons_of_mem _ hb))
  exact (Constraint.contributes_of_representable hb.1 hb.2.1 hb.2.2 hσ s).enlarges

variable (hcheck : (ofConstraints domains (p ++ c :: q)).check = .ok ())
include hcheck

theorem guarded_ofConstraints : (ofConstraints domains (p ++ c :: q)).Guarded (ofConstraints domains p)
    (c.register domains (ofConstraints domains p)).2 := (local_of_ruled hcs).guarded hcheck

theorem exists_stepProperty_ofConstraints {d : Direction} (l : Nat) (source : State) (v : Int) (target : State)
    (i : Nat) : ∃ r, (ofConstraints domains (p ++ c :: q)).toModel.stepProperty d l source none (.singleton v)
      target i = .ok r := by
  have hjoined := joined_of_ruled fun b hb => ⟨(hcs b hb).1, (hcs b hb).2.1⟩
  exact exists_stepProperty_of_joins hcheck hjoined.joins l source none (.singleton v) target

end

end Spec
end DecisionDiagrams
