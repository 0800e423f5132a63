import DecisionDiagrams.Proofs.Store.Bitmap
import DecisionDiagrams.History
import Mathlib.Data.List.Forall2

/-! What domains are asked for, and how a stack of finite sets answers. Whatever keeps domains in another
form is compared with this stack, request by request. -/

namespace DecisionDiagrams

namespace History

variable {α β : Type}

/-- Puts a function through the present value and all values kept. -/
def map (f : α → β) (h : History α) : History β := { current := f h.current, kept := h.kept.map f }

@[simp] theorem level_map (f : α → β) (h : History α) : (h.map f).level = h.level := List.length_map _

theorem map_backtrack (f : α → β) (h : History α) (target : ℕ) :
    (h.backtrack target).map f = (h.map f).backtrack target := by
  have hdrop : (h.map f).kept.drop ((h.map f).level - (target + 1)) = (h.kept.drop (h.level - (target + 1))).map f := by
    rw [level_map, map, List.map_drop]
  unfold backtrack
  rw [hdrop, level_map]
  cases h.kept.drop (h.level - (target + 1)) with
  | nil => rfl
  | cons v rest =>
    dsimp only [List.map_cons]
    split_ifs <;> rfl

/-- The same levels with related values. -/
structure Rel (R : α → β → Prop) (h : History α) (k : History β) : Prop where
  current : R h.current k.current
  kept : List.Forall₂ R h.kept k.kept

namespace Rel

variable {γ δ : Type} {R : α → β → Prop} {S : γ → δ → Prop} {h : History α} {k : History β} {target : ℕ}

theorem level (r : h.Rel R k) : h.level = k.level := r.kept.length_eq

theorem map {f : α → γ} {g : β → δ} (r : h.Rel R k) (hf : ∀ a b, R a b → S (f a) (g b)) :
    (h.map f).Rel S (k.map g) where
  current := hf _ _ r.current
  kept := List.forall₂_map_left_iff.2 (List.forall₂_map_right_iff.2 (r.kept.imp hf))

theorem modify {f : α → α} {g : β → β} (r : h.Rel R k) (hf : R (f h.current) (g k.current)) :
    (h.modify f).Rel R (k.modify g) := ⟨hf, r.kept⟩

theorem openCheckpoint (r : h.Rel R k) : h.openCheckpoint.Rel R k.openCheckpoint :=
  ⟨r.current, .cons r.current r.kept⟩

theorem backtrack (r : h.Rel R k) : (h.backtrack target).Rel R (k.backtrack target) := by
  have hdrop := List.forall₂_drop (h.level - (target + 1)) r.kept
  unfold History.backtrack
  rw [← r.level]
  revert hdrop
  generalize h.kept.drop (h.level - (target + 1)) = l
  generalize k.kept.drop (h.level - (target + 1)) = l'
  rintro (_ | ⟨hv, hrest⟩)
  · exact r
  · dsimp only
    split_ifs
    · exact ⟨hv, hrest⟩
    · exact r

end Rel
end History

/-- Each domain is related to the set of its variable. -/
structure Aligned {α β : Type} (R : α → β → Prop) (ds : Array α) (Ds : List β) : Prop where
  size : ds.size = Ds.length
  rel : ∀ (x : ℕ) d D, ds[x]? = some d → Ds[x]? = some D → R d D

namespace Aligned

variable {α β : Type} {R : α → β → Prop} {ds es : Array α} {Ds : List β} {d : α} {D : β} {x : ℕ}

theorem push (h : Aligned R ds Ds) (hd : R d D) : Aligned R (ds.push d) (Ds ++ [D]) where
  size := by rw [Array.size_push, List.length_append, h.size, List.length_singleton]
  rel y e E he hE := by
    rw [Array.getElem?_push, h.size] at he
    by_cases hy : y = Ds.length
    · rw [if_pos hy] at he
      rw [hy, List.getElem?_concat_length] at hE
      obtain rfl := Option.some.inj he
      obtain rfl := Option.some.inj hE
      exact hd
    · rw [if_neg hy] at he
      have hlt : y < Ds.length := h.size ▸ (Array.getElem?_eq_some_iff.1 he).1
      rw [List.getElem?_append_left hlt] at hE
      exact h.rel y e E he hE

theorem replace (h : Aligned R ds Ds) (hsize : es.size = ds.size) (hothers : ∀ y ≠ x, es[y]? = ds[y]?)
    (hd : es[x]? = some d) (hD : R d D) : Aligned R es (Ds.set x D) where
  size := by rw [hsize, List.length_set, h.size]
  rel y e E he hE := by
    rw [List.getElem?_set] at hE
    by_cases hy : x = y
    · subst hy
      rw [if_pos rfl] at hE
      split_ifs at hE
      obtain rfl := Option.some.inj hE
      rw [hd] at he
      obtain rfl := Option.some.inj he
      exact hD
    · rw [if_neg hy] at hE
      rw [hothers y (Ne.symm hy)] at he
      exact h.rel y e E he hE

end Aligned

def Offer.set : Offer → Finset ℤ
  | .range lo hi => Bitmap.interval lo hi
  | .values vs => vs.toFinset

/-- What a restriction leaves of a set. -/
def Restriction.left : Restriction → Finset ℤ → Finset ℤ
  | .remove v, D => D \ {v}
  | .raiseLower bound, D => D.filter (bound ≤ ·)
  | .cutUpper bound, D => D.filter (· ≤ bound)
  | .assign v, D => D ∩ {v}

theorem Restriction.left_subset (r : Restriction) (D : Finset ℤ) : r.left D ⊆ D := by
  cases r with
  | remove v => exact Finset.sdiff_subset
  | raiseLower bound => exact Finset.filter_subset _ _
  | cutUpper bound => exact Finset.filter_subset _ _
  | assign v => exact Finset.inter_subset_left

inductive Request
  | create (o : Offer)
  | restrict (x : Var) (r : Restriction)
  | openLevel
  | synchronise (target : ℕ)
  /-- Takes the events. -/
  | drain

inductive Reply
  /-- The number of the new variable. -/
  | created (x : Var)
  /-- There is no such variable. -/
  | unknown
  /-- No value would remain. -/
  | emptied
  | changed (yes : Bool)
  | done
  /-- The variable cannot be created, or the level is not an earlier one. -/
  | refused
deriving DecidableEq

/-- A stack of finite sets, one for each variable, and the variables which have events waiting. -/
structure Sets where
  history : History (List (Finset ℤ)) := { current := [] }
  pending : Finset Var := ∅

namespace Sets

def level (a : Sets) : ℕ := a.history.level

/-- How the stack answers. The sets which can be created on a level are the ones which are admitted there; a
variable created above a level is, on that level, as it was created. -/
def ask (admits : ℕ → Finset ℤ → Bool) : Request → Sets → Reply × Sets
  | .create o, a =>
    if o.set.Nonempty ∧ admits a.level o.set = true then
      (.created a.history.current.length, { a with history := a.history.map (· ++ [o.set]) })
    else (.refused, a)
  | .restrict x r, a =>
    match a.history.current[x]? with
    | none => (.unknown, a)
    | some D =>
      if r.left D = ∅ then (.emptied, a)
      else if r.left D = D then (.changed false, a)
      else (.changed true, { history := a.history.modify (·.set x (r.left D)), pending := insert x a.pending })
  | .openLevel, a => (.done, { a with history := a.history.openCheckpoint })
  | .synchronise target, a =>
    if target < a.level then (.done, { history := a.history.backtrack target, pending := ∅ }) else (.refused, a)
  | .drain, a => (.done, { a with pending := ∅ })

end Sets

section Answers

variable {σ τ : Type}

/-- The answers to a list of requests, and the state after them. -/
def answers (ask : Request → σ → Reply × σ) : List Request → σ → List Reply × σ
  | [], s => ([], s)
  | q :: qs, s =>
    let first := ask q s
    let rest := answers ask qs first.2
    (first.1 :: rest.1, rest.2)

/-- Two ways to answer which agree on every request agree on all of them. -/
theorem answers_refine {f : Request → σ → Reply × σ} {g : Request → τ → Reply × τ} {R : σ → τ → Prop}
    (step : ∀ q s t, R s t → (f q s).1 = (g q t).1 ∧ R (f q s).2 (g q t).2) (qs : List Request) {s : σ} {t : τ}
    (h : R s t) : (answers f qs s).1 = (answers g qs t).1 ∧ R (answers f qs s).2 (answers g qs t).2 := by
  induction qs generalizing s t with
  | nil => exact ⟨rfl, h⟩
  | cons q qs ih =>
    obtain ⟨hr, hR⟩ := step q s t h
    obtain ⟨hrs, hRs⟩ := ih hR
    exact ⟨by simp only [answers, hr, hrs], hRs⟩

theorem answers_append (f : Request → σ → Reply × σ) (p q : List Request) (s : σ) :
    (answers f (p ++ q) s).2 = (answers f q (answers f p s).2).2 := by
  induction p generalizing s with
  | nil => rfl
  | cons r p ih => exact ih _

end Answers

namespace Sets

variable {a : Sets} {h : History (List (Finset ℤ))} {base : List (Finset ℤ)} {l target : ℕ}
  {admits : ℕ → Finset ℤ → Bool}

/-- Level `l` keeps the sets of `base`, and those of the variables created since. -/
structure Rests (l : ℕ) (base : List (Finset ℤ)) (h : History (List (Finset ℤ))) : Prop where
  above : l < h.level
  kept : ∃ Ds rest, h.kept.drop (h.level - (l + 1)) = Ds :: rest ∧ base <+: Ds

theorem Rests.create (r : Rests l base h) (D : Finset ℤ) : Rests l base (h.map (· ++ [D])) where
  above := by rw [History.level_map]; exact r.above
  kept := by
    obtain ⟨Ds, rest, hk, hb⟩ := r.kept
    refine ⟨Ds ++ [D], rest.map (· ++ [D]), ?_, hb.trans (List.prefix_append _ _)⟩
    rw [History.level_map, History.map, ← List.map_drop, hk, List.map_cons]

theorem Rests.openCheckpoint (r : Rests l base h) : Rests l base h.openCheckpoint where
  above := r.above.trans (Nat.lt_succ_self _)
  kept := by
    have : h.openCheckpoint.level - (l + 1) = h.level - (l + 1) + 1 := by
      rw [History.level_openCheckpoint]
      have := r.above
      omega
    rw [this]
    exact r.kept

theorem backtrack_eq (ht : target < h.level) : ∃ Ds rest, h.kept.drop (h.level - (target + 1)) = Ds :: rest ∧
    h.backtrack target = { current := Ds, kept := rest } := by
  have hlt : h.level - (target + 1) < h.kept.length := by
    show h.kept.length - (target + 1) < _
    change target < h.kept.length at ht
    omega
  refine ⟨_, _, List.drop_eq_getElem_cons hlt, ?_⟩
  rw [History.backtrack, List.drop_eq_getElem_cons hlt]
  exact if_pos ht

theorem Rests.backtrack (r : Rests l base h) (hl : l < target) (ht : target < h.level) :
    Rests l base (h.backtrack target) where
  above := by rw [History.level_backtrack ht]; exact hl
  kept := by
    obtain ⟨Ds, rest, hk, hb⟩ := backtrack_eq ht
    have hrest : (h.backtrack target).kept = h.kept.drop (h.level - target) := by
      rw [hb, show h.level - target = h.level - (target + 1) + 1 by omega, ← List.drop_drop, hk]
      rfl
    rw [History.level_backtrack ht, hrest, List.drop_drop,
      show h.level - target + (target - (l + 1)) = h.level - (l + 1) by omega]
    exact r.kept

theorem Rests.current_backtrack (r : Rests l base h) : base <+: (h.backtrack l).current := by
  obtain ⟨Ds, rest, hk, hb⟩ := backtrack_eq r.above
  obtain ⟨Ds', rest', hk', hbase⟩ := r.kept
  rw [hk] at hk'
  rw [hb, (List.cons.inj hk').1]
  exact hbase

/-- What a level keeps stays as long as no level below is entered. -/
theorem Rests.ask (r : Rests l base a.history) {q : Request} (hq : ∀ target, q = .synchronise target → l < target) :
    Rests l base (Sets.ask admits q a).2.history := by
  cases q with
  | create o =>
    simp only [Sets.ask]
    split_ifs
    · exact r.create _
    · exact r
  | restrict x res =>
    simp only [Sets.ask]
    split
    · exact r
    · split_ifs
      · exact r
      · exact r
      · exact ⟨r.above, r.kept⟩
  | openLevel => exact r.openCheckpoint
  | synchronise target =>
    simp only [Sets.ask]
    split_ifs with ht
    · exact r.backtrack (hq target rfl) ht
    · exact r
  | drain => exact r

theorem Rests.answers (r : Rests l base a.history) {above : List Request}
    (habove : ∀ target, .synchronise target ∈ above → l < target) :
    Rests l base (answers (Sets.ask admits) above a).2.history := by
  induction above generalizing a with
  | nil => exact r
  | cons q above ih =>
    exact ih (r.ask fun target e => habove target (e ▸ List.mem_cons_self)) fun target ht =>
      habove target (List.mem_cons_of_mem _ ht)

theorem ask_synchronise (h : target < a.level) :
    (ask admits (.synchronise target) a).2.history = a.history.backtrack target := by
  simp only [ask]
  rw [if_pos h]

/-- Going back to a level brings back the sets as they were when the level above it was opened. -/
theorem prefix_synchronise {above : List Request} (habove : ∀ target, .synchronise target ∈ above → a.level < target) :
    a.history.current <+:
      (answers (ask admits) (.openLevel :: above ++ [.synchronise a.level]) a).2.history.current := by
  have opened : Rests a.level a.history.current (ask admits .openLevel a).2.history :=
    ⟨Nat.lt_succ_self _, _, _, by
      show List.drop (a.level + 1 - (a.level + 1)) (_ :: _) = _
      rw [Nat.sub_self]
      rfl, List.prefix_rfl⟩
  have r : Rests a.level a.history.current (answers (ask admits) (.openLevel :: above) a).2.history :=
    opened.answers habove
  have last : (ask admits (.synchronise a.level) (answers (ask admits) (.openLevel :: above) a).2).2.history =
      (answers (ask admits) (.openLevel :: above) a).2.history.backtrack a.level := ask_synchronise r.above
  rw [answers_append]
  exact r.current_backtrack.trans (last ▸ List.prefix_rfl)

end Sets
end DecisionDiagrams
