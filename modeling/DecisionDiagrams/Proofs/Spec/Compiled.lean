import DecisionDiagrams.Proofs.State.Writes
import DecisionDiagrams.Proofs.Spec.Registered

/-! What a model takes over from its specification: the kinds of its slots, on which layers a property
is computed, and which tests the arcs of a layer have. -/

namespace DecisionDiagrams

/-- Nothing is lost when duplicates are removed from a list without any. -/
theorem List.nodup_of_length_eraseDups : ∀ (n : Nat) (l : List Var), l.length ≤ n →
    l.eraseDups.length ≤ l.length ∧ (l.eraseDups.length = l.length → l.Nodup)
  | _, [], _ => ⟨Nat.le_refl _, fun _ => List.nodup_nil⟩
  | n + 1, a :: l, h => by
    rw [List.eraseDups_cons]
    have hf := List.length_filter_le (fun b => !b == a) l
    obtain ⟨hle, heq⟩ := nodup_of_length_eraseDups n (l.filter fun b => !b == a)
      (Nat.le_trans hf (Nat.le_of_succ_le_succ h))
    simp only [List.length_cons, Nat.add_right_cancel_iff]
    refine ⟨by omega, fun e => ?_⟩
    have hall : ∀ b ∈ l, (!b == a) = true := List.length_filter_eq_length_iff.1 (by omega)
    have hsame := List.filter_eq_self.2 hall
    rw [hsame] at heq e
    refine List.nodup_cons.2 ⟨fun ha => ?_, heq e⟩
    simpa using hall a ha

namespace Spec

variable {t : Spec} {c : ScopeId} {l i : Nat} {d : Direction} {side : Side} {q : Property}

/-! ### Validity -/

theorem then_ok {ε α : Type} {x : Except ε Unit} {y : Except ε α} {a : α} :
    (x >>= fun _ => y) = .ok a ↔ x = .ok () ∧ y = .ok a := by
  cases x with
  | error e => exact ⟨nofun, nofun⟩
  | ok u => exact ⟨fun h => ⟨rfl, h⟩, And.right⟩

theorem forM_ok {ε α : Type} {f : α → Except ε Unit} : ∀ {l : List α}, l.forM f = .ok () →
    ∀ x ∈ l, f x = .ok ()
  | [], _, _, hx => nomatch hx
  | a :: l, h, x, hx => by
    obtain ⟨ha, hl⟩ := then_ok.1 (show (f a >>= fun _ => l.forM f) = .ok () from h)
    rcases List.mem_cons.1 hx with rfl | hx
    · exact ha
    · exact forM_ok hl x hx

/-- What a specification is checked for. -/
theorem check_eq_ok (h : t.check = .ok ()) : (∀ k ∈ t.scopes.toList, checkScope k = .ok ()) ∧
    ∀ side, ∀ q ∈ (t.properties.get side).toList, t.checkProperty side q = .ok () := by
  unfold check at h
  dsimp only at h
  split_ifs at h
  · cases h
  · cases h
  · cases h
  obtain ⟨hs, h⟩ := then_ok.1 h
  obtain ⟨hd, h⟩ := then_ok.1 h
  obtain ⟨hu, hc⟩ := then_ok.1 h
  refine ⟨forM_ok hs, fun side => ?_⟩
  cases side with
  | down => exact forM_ok hd
  | up => exact forM_ok hu
  | combined => exact forM_ok hc

theorem valid_of_check (h : t.check = .ok ()) (hq : q ∈ (t.properties.get side).toList) :
    q.kind.isValid = true := by
  have := (check_eq_ok h).2 side q hq
  unfold checkProperty at this
  dsimp only at this
  split_ifs at this with hv
  simpa using hv

theorem nodup_of_check (h : t.check = .ok ()) {k : Scope} (hk : k ∈ t.scopes.toList) :
    k.vars.Nodup := by
  have := (check_eq_ok h).1 k hk
  unfold checkScope at this
  split_ifs at this with he hd
  exact (List.nodup_of_length_eraseDups _ _ (Nat.le_refl _)).2 (not_not.1 hd)

/-! ### Layouts -/

theorem layout_toModel (t : Spec) (side : Side) :
    t.toModel.layout side = layoutOf (t.properties.get side) := by
  cases side <;> rfl

theorem fresh_toModel (t : Spec) (side : Side) :
    t.toModel.fresh side = (t.toModel.layout side).fresh := by
  cases side <;> rfl

/-- Every registered property has a slot of its kind. -/
theorem slot_of_property (hq : (t.properties.get side)[i]? = some q) :
    ∃ s, (t.toModel.layout side).slot? i = some s ∧ s.kind = q.kind := by
  have h := Layout.kind_ofKinds ((t.properties.get side).toList.map (·.kind)) i
  rw [List.getElem?_map, Array.getElem?_toList, hq] at h
  rw [layout_toModel]
  exact Option.map_eq_some_iff.1 h

theorem property_of_slot {s : Slot} (hs : (t.toModel.layout side).slot? i = some s) :
    ∃ q, (t.properties.get side)[i]? = some q ∧ s.kind = q.kind := by
  have h := Layout.kind_ofKinds ((t.properties.get side).toList.map (·.kind)) i
  rw [layout_toModel] at hs
  unfold layoutOf at hs
  rw [hs, List.getElem?_map, Array.getElem?_toList] at h
  obtain ⟨q, hq, e⟩ := Option.map_eq_some_iff.1 h.symm
  exact ⟨q, hq, e.symm⟩

theorem sound_layout (h : t.check = .ok ()) (side : Side) : (t.toModel.layout side).Sound := by
  refine ⟨?_, fun i s hs => ?_⟩
  · rw [layout_toModel]
    exact Layout.spaced_ofKinds _
  · obtain ⟨q, hq, e⟩ := property_of_slot hs
    rw [e]
    exact valid_of_check h (Array.mem_toList_iff.2 (Array.mem_of_getElem? hq))

/-! ### Layers -/

/-- The layers have different variables, and the variables of all scopes have layers. -/
structure Ordered (t : Spec) : Prop where
  nodup : t.branchVars.toList.Nodup
  known : ∀ k ∈ t.scopes.toList, ∀ x ∈ k.vars, x ∈ t.branchVars.toList

theorem mem_foldl_insert {ls : List Nat} {s : IndexSet} :
    i ∈ ls.foldl IndexSet.insert s ↔ i ∈ ls ∨ i ∈ s := by
  induction ls generalizing s with
  | nil => simp
  | cons a ls ih =>
    rw [List.foldl_cons, ih, IndexSet.mem_insert, List.mem_cons, ← or_assoc, or_comm (a := i = a)]

theorem mem_foldl_matching {ps : Array Property} (f : Property → Bool) (ls : List Nat)
    (s : IndexSet) :
    i ∈ ls.foldl (fun acc i => match ps[i]? with
      | some q => if f q = true then acc.insert i else acc
      | none => acc) s ↔ (i ∈ ls ∧ ∃ q, ps[i]? = some q ∧ f q = true) ∨ i ∈ s := by
  induction ls generalizing s with
  | nil => simp
  | cons a ls ih =>
    rw [List.foldl_cons, ih]
    cases ha : ps[a]? with
    | none =>
      dsimp only
      refine or_congr_left (and_congr_left fun ⟨q, hq, _⟩ => ?_)
      rw [List.mem_cons]
      refine ⟨Or.inr, fun h => h.resolve_left ?_⟩
      rintro rfl
      rw [ha] at hq
      cases hq
    | some q =>
      dsimp only
      by_cases e : i = a
      · subst e
        by_cases hf : f q = true
        · simp [ha, hf]
        · simp [ha, hf]
      · have : i ∈ (if f q = true then s.insert a else s) ↔ i ∈ s := by
          split_ifs
          · simp [e]
          · rfl
        rw [this, List.mem_cons, or_iff_right e]

theorem covers_iff : covers t.coverage c l = true ↔
    ∃ k, t.scopes[c]? = some k ∧ ∃ x ∈ k.vars, t.layerOf x = l := by
  unfold covers coverage
  rw [Array.getElem?_map]
  by_cases hc : c < t.scopes.size
  · have e : (Array.range t.scopes.size)[c]? = some c := by simp [hc]
    rw [e]
    show l ∈ (t.layersOf c).foldl IndexSet.insert IndexSet.empty ↔ _
    rw [mem_foldl_insert, or_iff_left IndexSet.not_mem_empty]
    unfold layersOf
    rw [Array.getElem?_eq_getElem hc]
    simp
  · have e : (Array.range t.scopes.size)[c]? = none :=
      Array.getElem?_eq_none (by rw [Array.size_range]; exact Nat.le_of_not_lt hc)
    have e' : t.scopes[c]? = none := Array.getElem?_eq_none (Nat.le_of_not_lt hc)
    rw [e, e']
    simp

/-- A constraint covers the layers of its variables. -/
theorem Ordered.covers_iff (h : t.Ordered) {k : Scope} (hk : t.scopes[c]? = some k)
    (hl : l < t.branchVars.size) : covers t.coverage c l = true ↔ t.toModel.var l ∈ k.vars := by
  have hvar : t.toModel.var l = t.branchVars.toList[l] := by
    unfold Model.var
    show t.branchVars.getD l 0 = _
    simp [hl]
  rw [Spec.covers_iff, hk, hvar]
  constructor
  · rintro ⟨k', e, x, hx, hl'⟩
    obtain rfl := Option.some.inj e
    have hmem := h.known k (Array.mem_toList_iff.2 (Array.mem_of_getElem? hk)) x hx
    unfold layerOf at hl'
    subst hl'
    rw [List.getElem_idxOf]
    exact hx
  · intro hx
    exact ⟨k, rfl, _, hx, h.nodup.idxOf_getElem l (by simpa using hl)⟩

theorem mem_active (hl : l < t.branchVars.size) : i ∈ t.toModel.active d l ↔
    ∃ q, (t.properties.get d.side)[i]? = some q ∧ q.rule.isTransition = true ∧
      covers t.coverage q.constraint l = true := by
  have e : t.toModel.active d l = t.activeOn t.coverage l d.side := by
    unfold Model.active Model.rules toModel
    dsimp only
    simp only [Array.getD_eq_getD_getElem?, Array.getElem?_map]
    have : (Array.range t.branchVars.size)[l]? = some l := by simp [hl]
    rw [this]
    cases d <;> rfl
  rw [e]
  unfold activeOn
  dsimp only
  refine (mem_foldl_matching (fun q => q.rule.isTransition && covers t.coverage q.constraint l) _ _).trans ?_
  rw [or_iff_left IndexSet.not_mem_empty, List.mem_range]
  simp only [Bool.and_eq_true]
  refine and_iff_right_of_imp fun ⟨q, hq, _⟩ => ?_
  exact (Array.getElem?_eq_some_iff.1 hq).1

theorem arcChecks_toModel (hl : l < t.branchVars.size) : (t.toModel.rules l).arcChecks =
    (t.arcChecks.toList.filter fun a => covers t.coverage a.1 l).map (·.2) := by
  unfold Model.rules toModel
  dsimp only
  simp only [Array.getD_eq_getD_getElem?, Array.getElem?_map]
  have : (Array.range t.branchVars.size)[l]? = some l := by simp [hl]
  rw [this]
  rfl

end Spec
end DecisionDiagrams
