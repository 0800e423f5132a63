import DecisionDiagrams.History
import Mathlib.Data.Nat.Basic
import Mathlib.Order.Basic
import Mathlib.Tactic.Common

/-! A journal next to a history. The journal has what was written from one state to the next where the history
keeps the states themselves. Going back in both, the journal hands out the way which leads from the present
state back to the one the history brings back. -/

namespace DecisionDiagrams

namespace History

variable {σ : Type} {h : History σ} {target : ℕ}

theorem backtrack_of_lt (ht : target < h.level) : ∃ s rest, h.kept.drop (h.level - (target + 1)) = s :: rest ∧
    h.backtrack target = { current := s, kept := rest } := by
  have hlt : h.level - (target + 1) < h.kept.length := by
    show h.level - (target + 1) < h.level
    omega
  have hd := List.drop_eq_getElem_cons hlt
  refine ⟨_, _, hd, ?_⟩
  unfold backtrack
  rw [hd]
  exact if_pos ht

theorem backtrack_of_le (ht : h.level ≤ target) : h.backtrack target = h := by
  unfold backtrack
  split
  · exact if_neg (Nat.not_lt.2 ht)
  · rfl

/-- What there is now does not count. -/
theorem backtrack_modify (ht : target < h.level) (f : σ → σ) :
    (h.modify f).backtrack target = h.backtrack target := by
  obtain ⟨s, rest, hd, hb⟩ := backtrack_of_lt ht
  obtain ⟨s', rest', hd', hb'⟩ := backtrack_of_lt (h := h.modify f) ht
  obtain ⟨rfl, rfl⟩ := List.cons.inj (hd.symm.trans hd')
  rw [hb, hb']

theorem backtrack_openCheckpoint_self : h.openCheckpoint.backtrack h.level = h := by
  have hlt : h.level < h.openCheckpoint.level := Nat.lt_succ_self _
  obtain ⟨s, rest, hd, hb⟩ := backtrack_of_lt hlt
  rw [level_openCheckpoint, Nat.sub_self, List.drop_zero] at hd
  obtain ⟨rfl, rfl⟩ := List.cons.inj hd
  exact hb

theorem backtrack_openCheckpoint (ht : target < h.level) : h.openCheckpoint.backtrack target = h.backtrack target := by
  obtain ⟨s, rest, hd, hb⟩ := backtrack_of_lt ht
  obtain ⟨s', rest', hd', hb'⟩ := backtrack_of_lt (h := h.openCheckpoint) (ht.trans (Nat.lt_succ_self _))
  have hsub : h.level + 1 - (target + 1) = h.level - (target + 1) + 1 := by omega
  rw [level_openCheckpoint, hsub] at hd'
  obtain ⟨rfl, rfl⟩ := List.cons.inj (hd.symm.trans hd')
  rw [hb, hb']

theorem eq_openCheckpoint {v : σ} {rest : List σ} (e : h.kept = v :: rest) :
    h = (openCheckpoint { current := v, kept := rest }).modify fun _ => h.current := by
  cases h
  subst e
  rfl

/-- Going back by way of a level in between. -/
theorem backtrack_backtrack {l : ℕ} (hl : l ≤ target) (ht : target < h.level) :
    (h.backtrack target).backtrack l = h.backtrack l := by
  obtain ⟨now, kept⟩ := h
  induction kept generalizing now with
  | nil => exact absurd ht (Nat.not_lt_zero _)
  | cons v rest ih =>
    have ht : target < (openCheckpoint { current := v, kept := rest }).level := ht
    rw [eq_openCheckpoint (h := ⟨now, v :: rest⟩) rfl, backtrack_modify ht,
      backtrack_modify (Nat.lt_of_le_of_lt hl ht)]
    rcases Nat.lt_succ_iff_lt_or_eq.1 ht with ht | rfl
    · rw [backtrack_openCheckpoint ht, ih v ht, backtrack_openCheckpoint (Nat.lt_of_le_of_lt hl ht)]
    · have self := backtrack_openCheckpoint_self (h := { current := v, kept := rest })
      rw [level] at self
      rw [self]
      rcases Nat.lt_or_eq_of_le hl with hl | rfl
      · rw [backtrack_openCheckpoint hl]
      · rw [self]
        exact backtrack_of_le (Nat.le_refl _)

/-- The value which going back to a level would bring back; at the top and above, the present one. -/
def back (h : History σ) (l : ℕ) : σ := (h.backtrack l).current

variable {l : ℕ}

theorem back_of_le (hl : h.level ≤ l) : h.back l = h.current := by rw [back, backtrack_of_le hl]

theorem back_modify (hl : l < h.level) (f : σ → σ) : (h.modify f).back l = h.back l := by
  rw [back, backtrack_modify hl, back]

theorem back_modify_of_le (hl : h.level ≤ l) (f : σ → σ) : (h.modify f).back l = f h.current :=
  back_of_le (h := h.modify f) hl

theorem back_openCheckpoint (h : History σ) (l : ℕ) : h.openCheckpoint.back l = h.back l := by
  rcases Nat.lt_trichotomy l h.level with hl | rfl | hl
  · rw [back, backtrack_openCheckpoint hl, back]
  · rw [back, backtrack_openCheckpoint_self, back_of_le (Nat.le_refl _)]
  · rw [back_of_le hl, back_of_le hl.le]
    rfl

theorem back_repeat (h : History σ) (k l : ℕ) : (Nat.repeat openCheckpoint k h).back l = h.back l := by
  induction k with
  | zero => rfl
  | succ k ih => exact (back_openCheckpoint _ l).trans ih

theorem level_repeat (h : History σ) (k : ℕ) : (Nat.repeat openCheckpoint k h).level = h.level + k := by
  induction k with
  | zero => rfl
  | succ k ih => exact congrArg Nat.succ ih

theorem back_backtrack (h : History σ) (target l : ℕ) : (h.backtrack target).back l = h.back (min l target) := by
  rcases Nat.lt_or_ge target h.level with ht | ht
  · rcases Nat.le_total l target with hl | hl
    · rw [Nat.min_eq_left hl, back, backtrack_backtrack hl ht, back]
    · rw [Nat.min_eq_right hl, back_of_le ((level_backtrack ht).trans_le hl), back]
  · rw [backtrack_of_le ht]
    rcases Nat.le_total l target with hl | hl
    · rw [Nat.min_eq_left hl]
    · rw [Nat.min_eq_right hl, back_of_le (ht.trans hl), back_of_le ht]

end History

/-- The openings of the levels lie one after another within the entries. -/
structure Journal.Sound {α : Type} (j : Journal α) : Prop where
  level : j.level = j.openings.size
  increasing : j.openings.toList.Pairwise (· ≤ ·)
  within : ∀ n ∈ j.openings.toList, n ≤ j.entries.size

namespace Journal.Sound

variable {α : Type} {j k : Journal α} {target : ℕ}

theorem opening (h : j.Sound) (ht : target < j.level) : ∃ n, j.openings.toList[target]? = some n ∧
    j.openings.getD target 0 = n ∧ n ≤ j.entries.size ∧ ∀ m ∈ j.openings.toList.take target, m ≤ n := by
  have hlt : target < j.openings.toList.length := by rw [Array.length_toList, ← h.level]; exact ht
  have hn := List.getElem?_eq_getElem hlt
  have hD : j.openings.getD target 0 = j.openings.toList[target] := by
    rw [Array.getD_eq_getD_getElem?, ← Array.getElem?_toList, hn, Option.getD_some]
  refine ⟨_, hn, hD, h.within _ (List.getElem_mem hlt), fun m hm => ?_⟩
  obtain ⟨i, hi, rfl⟩ := List.mem_iff_getElem.1 hm
  rw [List.length_take] at hi
  rw [List.getElem_take]
  exact List.pairwise_iff_getElem.1 h.increasing i target (by omega) hlt (by omega)

theorem extend (h : j.Sound) (hl : k.level = j.level) (ho : k.openings = j.openings)
    (he : j.entries.size ≤ k.entries.size) : k.Sound where
  level := by rw [hl, ho, h.level]
  increasing := by rw [ho]; exact h.increasing
  within n hn := (h.within n (ho ▸ hn)).trans he

theorem openLevel (h : j.Sound) : j.openLevel.Sound where
  level := by
    show j.level + 1 = (j.openings.push _).size
    rw [Array.size_push, h.level]
  increasing := by
    show ((j.openings.push _).toList).Pairwise _
    rw [Array.toList_push, List.pairwise_append]
    refine ⟨h.increasing, List.pairwise_singleton _ _, fun n hn m hm => ?_⟩
    rw [List.mem_singleton.1 hm]
    exact h.within n hn
  within n hn := by
    change n ∈ (j.openings.push _).toList at hn
    rw [Array.toList_push, List.mem_append, List.mem_singleton] at hn
    exact hn.elim (h.within n) fun e => e.le

end Journal.Sound

namespace Journal

variable {α σ : Type} {R : σ → α → σ → Prop} {j : Journal α} {h : History σ} {target : ℕ}

/-- The journal has the changes written along a history, where `R s c t` tells that `c` is written when `s`
becomes `t`. What is written before the first level is opened is never undone. -/
inductive Logs (R : σ → α → σ → Prop) : Journal α → History σ → Prop
  | start {j : Journal α} (s : σ) : j.level = 0 → j.openings = #[] → Logs R j { current := s }
  | write {j : Journal α} {h : History σ} {c : α} {s : σ} : Logs R j h → R h.current c s →
      Logs R (j.write c) { h with current := s }
  | openLevel {j : Journal α} {h : History σ} : Logs R j h → Logs R j.openLevel h.openCheckpoint

/-- The changes lead from `s` back to `t`. -/
inductive Leads (R : σ → α → σ → Prop) : List α → σ → σ → Prop
  | done (s : σ) : Leads R [] s s
  | back {c : α} {cs : List α} {r s t : σ} : R r c s → Leads R cs r t → Leads R (c :: cs) s t

namespace Logs

theorem sound (hl : Logs R j h) : j.Sound := by
  induction hl with
  | start _ level openings => exact ⟨by rw [level, openings]; rfl, by simp [openings], by simp [openings]⟩
  | write _ _ ih =>
    refine ih.extend rfl rfl ?_
    rw [Journal.write, Array.size_push]
    omega
  | openLevel _ ih => exact ih.openLevel

theorem level (hl : Logs R j h) : h.level = j.level := by
  induction hl with
  | start _ level => exact level.symm
  | write _ _ ih => exact ih
  | openLevel _ ih => exact congrArg Nat.succ ih

end Logs

theorem mem_of_mem_cutBack {c : α} (hc : c ∈ (j.cutBack target).1 ∨ c ∈ (j.cutBack target).2.entries.toList) :
    c ∈ j.entries.toList := by
  rcases hc with hc | hc
  · exact List.mem_of_mem_drop (List.mem_reverse.1 hc)
  · have htake : (j.cutBack target).2.entries.toList = j.entries.toList.take (j.openings.getD target 0) := by
      simp [cutBack]
    rw [htake] at hc
    exact List.mem_of_mem_take hc

theorem cutBack_write {c : α} (hj : j.Sound) (ht : target < j.level) :
    (j.write c).cutBack target = (c :: (j.cutBack target).1, (j.cutBack target).2) := by
  obtain ⟨n, -, hD, hn, -⟩ := hj.opening ht
  have hdrop : (j.entries.push c).toList.drop n = j.entries.toList.drop n ++ [c] := by
    rw [Array.toList_push, List.drop_append_of_le_length (by rwa [Array.length_toList])]
  have htake : (j.entries.push c).take n = j.entries.take n := by
    refine Array.toList_inj.1 ?_
    simp [hn]
  simp only [cutBack, write, hD, hdrop, htake, List.reverse_append, List.reverse_singleton, List.singleton_append]

/-- Nothing was written since the latest level was opened. -/
theorem cutBack_openLevel_self (hj : j.Sound) : j.openLevel.cutBack j.level = ([], j) := by
  have hD : (j.openings.push j.entries.size).getD j.level 0 = j.entries.size := by
    rw [Array.getD_eq_getD_getElem?, hj.level]
    simp
  have hopen : (j.openings.push j.entries.size).take j.level = j.openings := by
    refine Array.toList_inj.1 ?_
    simp [hj.level]
  simp only [cutBack, openLevel, hD, hopen]
  simp

theorem cutBack_openLevel (hj : j.Sound) (ht : target < j.level) : j.openLevel.cutBack target = j.cutBack target := by
  have hlt : target < j.openings.size := hj.level ▸ ht
  have hD : (j.openings.push j.entries.size).getD target 0 = j.openings.getD target 0 := by
    simp only [Array.getD_eq_getD_getElem?, Array.getElem?_push, if_neg hlt.ne]
  have hopen : (j.openings.push j.entries.size).take target = j.openings.take target := by
    refine Array.toList_inj.1 ?_
    simp [List.take_append_of_le_length hlt.le]
  simp only [cutBack, openLevel, hD, hopen]

/-- What was written last is undone first, and leads back to the state which the history brings back. -/
theorem Logs.cutBack (hl : Logs R j h) (ht : target < j.level) :
    Logs R (j.cutBack target).2 (h.backtrack target) ∧
      Leads R (j.cutBack target).1 h.current (h.backtrack target).current := by
  induction hl with
  | start _ level => exact absurd (level ▸ ht) (Nat.not_lt_zero _)
  | @write j h c s hl hc ih =>
    obtain ⟨logs, leads⟩ := ih ht
    have hb : History.backtrack { h with current := s } target = h.backtrack target :=
      History.backtrack_modify (hl.level.symm ▸ ht) fun _ => s
    rw [hb, cutBack_write hl.sound ht]
    exact ⟨logs, .back hc leads⟩
  | @openLevel j h hl ih =>
    rcases Nat.lt_succ_iff_lt_or_eq.1 ht with ht | rfl
    · obtain ⟨logs, leads⟩ := ih ht
      rw [History.backtrack_openCheckpoint (hl.level.symm ▸ ht), cutBack_openLevel hl.sound ht]
      exact ⟨logs, leads⟩
    · rw [← hl.level, History.backtrack_openCheckpoint_self, hl.level, cutBack_openLevel_self hl.sound]
      exact ⟨hl, .done _⟩

end Journal
end DecisionDiagrams
