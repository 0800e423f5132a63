import DecisionDiagrams.Domain
import Mathlib.Algebra.Order.BigOperators.Group.Finset
import Mathlib.Data.List.Sort
import Mathlib.Tactic.Common

/-! What restricting a variable does to the domains. The other variables keep their values, and the
variable is listed as changed exactly when it lost a value. -/

namespace DecisionDiagrams

namespace Domain

/-- The domain of a value and some more. -/
def ofCons (v : Int) (vs : List Int) : Domain :=
  ⟨.ofList (v :: vs), List.ne_nil_of_mem (IntSet.mem_ofList.2 List.mem_cons_self)⟩

/-- A restriction which keeps the number of values keeps all of them. -/
theorem keep_of_size_eq {keep : Int → Bool} {d e : Domain} (h : d.restrict? keep = some e)
    (hs : e.size = d.size) {v : Int} (hv : v ∈ d) : keep v = true := by
  unfold restrict? ofSet? at h
  split at h
  · cases h
  · obtain rfl := Option.some.inj h
    have hf : d.toList.filter keep = d.toList :=
      List.filter_sublist.eq_of_length hs
    exact List.filter_eq_self.1 hf v hv

end Domain

namespace Domains

variable {s t : Domains} {x y : Var} {keep : Int → Bool} {v : Int} {b : Bool}

theorem contains_iff : s.contains x v = true ↔ ∃ d, s.domains[x]? = some d ∧ v ∈ d := by
  unfold contains values get?
  cases h : s.domains[x]? with
  | none => simp
  | some d => simp [Domain.mem_def, IntSet.mem_def]

theorem mem_values : v ∈ s.values x ↔ s.contains x v = true := by
  simp [contains]

theorem lt_of_contains (h : s.contains x v = true) : x < s.size := by
  obtain ⟨d, hd, -⟩ := contains_iff.1 h
  exact (Array.getElem?_eq_some_iff.1 hd).1

/-- A variable has a value. -/
theorem exists_contains (h : x < s.size) : ∃ v, s.contains x v = true := by
  have hd : s.domains[x]? = some s.domains[x] := Array.getElem?_eq_getElem h
  obtain ⟨v, hv⟩ := List.exists_mem_of_ne_nil _ s.domains[x].nonempty
  exact ⟨v, contains_iff.2 ⟨_, hd, hv⟩⟩

theorem contains_restrict? (h : s.restrict? x keep = some (b, t)) :
    t.contains y v = true ↔ s.contains y v = true ∧ (y = x → keep v = true) := by
  unfold restrict? at h
  split at h
  · rename_i hx
    simp only [Option.some.injEq, Prod.mk.injEq] at h
    obtain ⟨-, rfl⟩ := h
    refine (and_iff_left_of_imp fun hv e => ?_).symm
    obtain ⟨d, hd, -⟩ := contains_iff.1 hv
    rw [e, hx] at hd
    cases hd
  · rename_i d hx
    split at h
    · cases h
    · rename_i e he
      split_ifs at h with hs
      · simp only [Option.some.injEq, Prod.mk.injEq] at h
        obtain ⟨-, rfl⟩ := h
        refine (and_iff_left_of_imp fun hv exy => ?_).symm
        obtain ⟨d', hd, hm⟩ := contains_iff.1 hv
        rw [exy, hx] at hd
        obtain rfl := Option.some.inj hd
        exact Domain.keep_of_size_eq he hs hm
      · simp only [Option.some.injEq, Prod.mk.injEq] at h
        obtain ⟨-, rfl⟩ := h
        rw [contains_iff, contains_iff]
        dsimp only
        rw [Array.getElem?_setIfInBounds]
        obtain ⟨hlt, hd⟩ := Array.getElem?_eq_some_iff.1 hx
        by_cases exy : x = y
        · subst exy
          simp [hlt, hd, Domain.mem_restrict? he]
        · simp [exy, Ne.symm exy]

theorem size_restrict? (h : s.restrict? x keep = some (b, t)) : t.size = s.size := by
  unfold restrict? at h
  split at h
  · simp only [Option.some.injEq, Prod.mk.injEq] at h
    rw [h.2]
  · split at h
    · cases h
    · split_ifs at h
      · simp only [Option.some.injEq, Prod.mk.injEq] at h
        rw [h.2]
      · simp only [Option.some.injEq, Prod.mk.injEq] at h
        obtain ⟨-, rfl⟩ := h
        exact Array.size_setIfInBounds

theorem changed_restrict? (h : s.restrict? x keep = some (b, t)) :
    t.changed = if b then s.changed.push x else s.changed := by
  unfold restrict? at h
  split at h
  · simp only [Option.some.injEq, Prod.mk.injEq] at h
    obtain ⟨rfl, rfl⟩ := h
    rfl
  · split at h
    · cases h
    · split_ifs at h
      · simp only [Option.some.injEq, Prod.mk.injEq] at h
        obtain ⟨rfl, rfl⟩ := h
        rfl
      · simp only [Option.some.injEq, Prod.mk.injEq] at h
        obtain ⟨rfl, rfl⟩ := h
        rfl

/-- A restriction which tells that no value was lost changes nothing. -/
theorem restrict?_false (h : s.restrict? x keep = some (false, t)) : t = s := by
  unfold restrict? at h
  split at h
  · simp only [Option.some.injEq, Prod.mk.injEq] at h
    exact h.2.symm
  · split at h
    · cases h
    · split_ifs at h
      · simp only [Option.some.injEq, Prod.mk.injEq] at h
        exact h.2.symm
      · simp at h

/-- Only a restriction which leaves no value is refused. -/
theorem not_keep_of_restrict?_none (h : s.restrict? x keep = none)
    (hv : s.contains x v = true) : keep v = false := by
  obtain ⟨d, hd, hm⟩ := contains_iff.1 hv
  unfold restrict? at h
  rw [hd] at h
  dsimp only at h
  split at h
  · rename_i hn
    exact Domain.restrict?_eq_none_iff.1 hn v hm
  · split_ifs at h

/-- The number of values of all variables. -/
def total (s : Domains) : Nat := ∑ x ∈ Finset.range s.size, (s.values x).length

/-- A restriction either changes nothing or takes a value away. -/
theorem total_restrict? (h : s.restrict? x keep = some (b, t)) : t = s ∨ t.total < s.total := by
  have hs := size_restrict? h
  unfold restrict? at h
  split at h
  · exact Or.inl (Prod.mk.inj (Option.some.inj h)).2.symm
  · rename_i d hd
    split at h
    · cases h
    · rename_i e he
      split_ifs at h with hsize
      · exact Or.inl (Prod.mk.inj (Option.some.inj h)).2.symm
      · obtain ⟨-, rfl⟩ := Prod.mk.inj (Option.some.inj h)
        have hle : e.size ≤ d.size := by
          unfold Domain.restrict? Domain.ofSet? at he
          split at he
          · cases he
          · obtain rfl := Option.some.inj he
            exact List.length_filter_le _ _
        have hx := (Array.getElem?_eq_some_iff.1 hd).1
        have atVar : ∀ y, ((⟨s.domains.setIfInBounds x e, s.changed.push x⟩ : Domains).values y).length =
            if y = x then e.size else (s.values y).length := by
          intro y
          unfold values get?
          dsimp only
          rw [Array.getElem?_setIfInBounds]
          by_cases exy : y = x
          · subst exy
            rw [if_pos rfl, if_pos hx, if_pos rfl]
            rfl
          · rw [if_neg (Ne.symm exy), if_neg exy]
        have old : (s.values x).length = d.size := by
          unfold values get?
          rw [hd]
          rfl
        refine Or.inr ?_
        unfold total
        rw [hs]
        refine Finset.sum_lt_sum (fun y _ => ?_) ⟨x, Finset.mem_range.2 hx, ?_⟩
        · rw [atVar]
          split_ifs with exy
          · rw [exy, old]
            exact hle
          · exact Nat.le_refl _
        · rw [atVar, if_pos rfl, old]
          exact Nat.lt_of_le_of_ne hle hsize

theorem increasing_values (s : Domains) (x : Var) : (s.values x).Pairwise (· < ·) := by
  unfold values
  cases s.get? x with
  | none => exact List.Pairwise.nil
  | some d => exact d.increasing

theorem nodup_values (s : Domains) (x : Var) : (s.values x).Nodup := (increasing_values s x).imp Int.ne_of_lt

/-- The values which are left stay in order. -/
theorem values_restrict? (h : s.restrict? x keep = some (b, t)) :
    t.values y = if y = x then (s.values y).filter keep else s.values y := by
  have hmem : ∀ v, v ∈ t.values y ↔ v ∈ s.values y ∧ (y = x → keep v = true) := fun v => by
    rw [mem_values, mem_values, contains_restrict? h]
  split_ifs with e
  · refine (increasing_values t y).eq_of_mem_iff ((increasing_values s y).filter keep) fun v => ?_
    rw [hmem, List.mem_filter, forall_prop_of_true e]
  · refine (increasing_values t y).eq_of_mem_iff (increasing_values s y) fun v => ?_
    rw [hmem, and_iff_left fun hy => absurd hy e]

theorem contains_remove? (h : s.remove? x v = some (b, t)) {u : Int} :
    t.contains y u = true ↔ s.contains y u = true ∧ (y = x → u ≠ v) := by
  rw [contains_restrict? h]
  simp

/-- A value of a domain which is removed is one value less. -/
theorem length_values_remove? (h : s.remove? x v = some (b, t)) (hv : s.contains x v = true) :
    (t.values x).length + 1 = (s.values x).length := by
  have hm := mem_values.2 hv
  rw [values_restrict? h, if_pos rfl]
  have e : (s.values x).filter (fun u => decide (u ≠ v)) = (s.values x).erase v := by
    rw [(nodup_values s x).erase_eq_filter]
    exact List.filter_congr fun u _ => by rw [Bool.eq_iff_iff]; simp
  rw [e, List.length_erase_of_mem hm]
  exact Nat.sub_add_cancel (List.length_pos_of_mem hm)

theorem values_remove?_of_ne (h : s.remove? x v = some (b, t)) (hy : y ≠ x) : t.values y = s.values y := by
  rw [values_restrict? h, if_neg hy]

@[simp] theorem contains_settle : s.settle.contains x v = s.contains x v := rfl

/-- The values which no longer change: `t` has the values of `s` or fewer. -/
structure Narrows (s t : Domains) : Prop where
  size : t.size = s.size
  contains : ∀ x v, t.contains x v = true → s.contains x v = true
  /-- A variable which lost a value is listed as changed. -/
  changed : ∀ x v, s.contains x v = true → t.contains x v = false → x ∈ t.changed
  /-- What is listed stays listed. -/
  listed : ∀ x ∈ s.changed, x ∈ t.changed

theorem Narrows.refl (s : Domains) : Narrows s s :=
  ⟨rfl, fun _ _ h => h, fun _ _ h h' => absurd h (Bool.eq_false_iff.1 h'), fun _ h => h⟩

theorem Narrows.trans {r s t : Domains} (h : Narrows r s) (k : Narrows s t) : Narrows r t where
  size := k.size.trans h.size
  contains x v hv := h.contains x v (k.contains x v hv)
  changed x v hv hn := by
    cases hs : s.contains x v with
    | true => exact k.changed x v hs hn
    | false => exact k.listed x (h.changed x v hv hs)
  listed x hx := k.listed x (h.listed x hx)

theorem narrows_restrict? (h : s.restrict? x keep = some (b, t)) : Narrows s t where
  size := size_restrict? h
  contains y v hv := ((contains_restrict? h).1 hv).1
  changed y v hv hn := by
    have hc := changed_restrict? h
    have hne : ¬ t.contains y v = true := Bool.eq_false_iff.1 hn
    rw [contains_restrict? h] at hne
    have hy : y = x := by
      by_contra hy
      exact hne ⟨hv, fun e => absurd e hy⟩
    cases b with
    | true => rw [hc, hy]; simp
    | false =>
      rw [restrict?_false h] at hn
      exact absurd hv (Bool.eq_false_iff.1 hn)
  listed y hy := by
    rw [changed_restrict? h]
    cases b
    · exact hy
    · exact Array.mem_push.2 (Or.inl hy)

/-- The domains are the same, or they have fewer values. -/
def Dwindles (s t : Domains) : Prop := t = s ∨ t.total < s.total

theorem Dwindles.refl (s : Domains) : Dwindles s s := Or.inl rfl

theorem Dwindles.trans {r s t : Domains} (h : Dwindles r s) (k : Dwindles s t) : Dwindles r t := by
  rcases h with rfl | h
  · exact k
  · rcases k with rfl | k
    · exact Or.inr h
    · exact Or.inr (Nat.lt_trans k h)

theorem dwindles_remove? {v : Int} (h : s.remove? x v = some (b, t)) : Dwindles s t :=
  total_restrict? h

theorem narrows_remove? {v : Int} (h : s.remove? x v = some (b, t)) : Narrows s t :=
  narrows_restrict? h

end Domains
end DecisionDiagrams
