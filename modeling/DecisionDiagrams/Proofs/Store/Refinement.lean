import DecisionDiagrams.Proofs.Store.Levels
import DecisionDiagrams.Domain

/-! Domains refine a stack of finite sets, the stored ones with their marks and their journal as well as the
ones which are kept as lists: whatever they are asked for, they give the answers of the stack, and what they
show are its sets. -/

namespace DecisionDiagrams

namespace Restriction

theorem mem_left {r : Restriction} {D : Finset ℤ} {v : ℤ} : v ∈ r.left D ↔ v ∈ D ∧ r.keeps v = true := by
  cases r <;> simp [left, keeps]

theorem onDomains_eq (r : Restriction) (s : Domains) (x : Var) : r.onDomains s x = s.restrict? x r.keeps := by
  cases r <;> rfl

end Restriction

namespace Domain

variable {d e : Domain} {D : Finset ℤ} {r : Restriction}

/-- The domain has the values of `D`. -/
def Lists (d : Domain) (D : Finset ℤ) : Prop := ∀ v, v ∈ d ↔ v ∈ D

theorem Lists.nonempty (h : d.Lists D) : D.Nonempty := by
  obtain ⟨v, hv⟩ := List.exists_mem_of_ne_nil _ d.nonempty
  exact ⟨v, (h v).1 hv⟩

theorem Lists.depicts (h : d.Lists D) : Depicts D d.lower d.upper d.size d.contains d.toList where
  least := IntSet.isLeast_of_head? h (List.head?_eq_some_head d.nonempty)
  greatest := IntSet.isGreatest_of_getLast? h (List.getLast?_eq_some_getLast d.nonempty)
  size := IntSet.size_eq_card h
  contains v := IntSet.contains_iff.trans (h v)
  values := IntSet.toList_eq_sort h

theorem Lists.restrict?_eq_none (h : d.Lists D) : d.restrict? r.keeps = none ↔ r.left D = ∅ := by
  rw [restrict?_eq_none_iff, Finset.eq_empty_iff_forall_notMem]
  refine forall_congr' fun v => ?_
  rw [h v, Restriction.mem_left, not_and, Bool.not_eq_true]

theorem Lists.restrict? (h : d.Lists D) (he : d.restrict? r.keeps = some e) : e.Lists (r.left D) := fun v => by
  rw [mem_restrict? he, h v, Restriction.mem_left]

/-- As many values are left only if all are. -/
theorem Lists.size_eq_iff (h : d.Lists D) (k : e.Lists (r.left D)) : e.size = d.size ↔ r.left D = D := by
  rw [IntSet.size_eq_card h, IntSet.size_eq_card k]
  exact ⟨fun hc => Finset.eq_of_subset_of_card_le (r.left_subset D) hc.ge, fun hD => by rw [hD]⟩

theorem ofSet?_lists {s : IntSet} (h : ∀ v, v ∈ s ↔ v ∈ D) :
    (∀ d, ofSet? s = some d → d.Lists D) ∧ ((ofSet? s).isSome = true ↔ D.Nonempty) := by
  unfold ofSet?
  split_ifs with hs
  · refine ⟨by simp, iff_of_false (by simp) ?_⟩
    rintro ⟨v, hv⟩
    exact List.ne_nil_of_mem ((h v).2 hv) hs
  · obtain ⟨v, hv⟩ := List.exists_mem_of_ne_nil _ hs
    refine ⟨fun d hd => ?_, iff_of_true rfl ⟨v, (h v).1 hv⟩⟩
    obtain rfl := Option.some.inj hd
    exact h

end Domain

theorem Offer.domain?_lists (o : Offer) :
    (∀ d, o.domain? = some d → d.Lists o.set) ∧ (o.domain?.isSome = true ↔ o.set.Nonempty) := by
  cases o with
  | range lo hi => exact Domain.ofSet?_lists fun v => by rw [IntSet.mem_range]; exact Bitmap.mem_interval.symm
  | values vs => exact Domain.ofSet?_lists Bitmap.mem_ofList_iff

namespace Domains

/-- How the domains which are kept as lists answer. -/
def ask : Request → History Domains → Reply × History Domains
  | .create o, h =>
    match o.domain? with
    | some d => if h.level ≠ 0 then (.refused, h) else (.created h.current.size, h.modify (·.add d))
    | none => (.refused, h)
  | .restrict x r, h =>
    if x < h.current.size then
      match r.onDomains h.current x with
      | some (yes, s) => (.changed yes, h.modify fun _ => s)
      | none => (.emptied, h)
    else (.unknown, h)
  | .openLevel, h => (.done, h.openCheckpoint)
  | .synchronise target, h =>
    if target < h.level then (.done, (h.backtrack target).modify (·.settle)) else (.refused, h)
  | .drain, h => (.done, h.modify (·.settle))

/-- Variables are created while no level is open. -/
def atRoot (level : ℕ) (_ : Finset ℤ) : Bool := level == 0

/-- Each domain has the values of the set of its variable. -/
def Lists (s : Domains) (Ds : List (Finset ℤ)) : Prop := Aligned Domain.Lists s.domains Ds

variable {h : History Domains} {a : Sets} {d : Domain} {D : Finset ℤ} {x : Var} {target : ℕ}

/-- The domains keep the sets of the stack `a`. -/
structure Mirrors (h : History Domains) (a : Sets) : Prop where
  history : h.Rel Lists a.history
  pending : ∀ x, x ∈ a.pending ↔ x ∈ h.current.changed

namespace Mirrors

theorem lists (m : Mirrors h a) : Lists h.current a.history.current := m.history.current

theorem create (m : Mirrors h a) (hroot : h.level = 0) (hd : d.Lists D) :
    Mirrors (h.modify (·.add d)) { a with history := a.history.map (· ++ [D]) } where
  history := by
    have hnil : h.kept = [] := List.length_eq_zero_iff.1 hroot
    have hnil' : a.history.kept = [] := List.length_eq_zero_iff.1 (m.history.level.symm.trans hroot)
    refine ⟨m.lists.push hd, ?_⟩
    show List.Forall₂ _ h.kept (a.history.kept.map _)
    rw [hnil, hnil']
    exact .nil
  pending := m.pending

theorem settle (m : Mirrors h a) : Mirrors (h.modify (·.settle)) { a with pending := ∅ } where
  history := m.history.modify (f := (·.settle)) (g := id) m.lists
  pending x := by simp [History.modify, Domains.settle]

theorem restrict (m : Mirrors h a) (r : Restriction) (hd : h.current.domains[x]? = some d)
    (hD : a.history.current[x]? = some D) :
    (Domains.ask (.restrict x r) h).1 = (Sets.ask atRoot (.restrict x r) a).1 ∧
      Mirrors (Domains.ask (.restrict x r) h).2 (Sets.ask atRoot (.restrict x r) a).2 := by
  have hx : x < h.current.size := (Array.getElem?_eq_some_iff.1 hd).1
  have hl := m.lists.rel x d D hd hD
  simp only [Domains.ask, if_pos hx, Sets.ask, hD, r.onDomains_eq, restrict?, hd]
  cases he : d.restrict? r.keeps with
  | none =>
    rw [if_pos (hl.restrict?_eq_none.1 he)]
    exact ⟨rfl, m⟩
  | some e =>
    have hle := hl.restrict? he
    rw [if_neg hle.nonempty.ne_empty]
    by_cases hsize : e.size = d.size
    · simp only [if_pos hsize, if_pos ((hl.size_eq_iff hle).1 hsize)]
      exact ⟨trivial, m⟩
    · simp only [if_neg hsize, if_neg (mt (hl.size_eq_iff hle).2 hsize)]
      have hothers : ∀ y ≠ x, (h.current.domains.setIfInBounds x e)[y]? = h.current.domains[y]? := fun y hy => by
        rw [Array.getElem?_setIfInBounds, if_neg (Ne.symm hy)]
      have hnew : (h.current.domains.setIfInBounds x e)[x]? = some e := by
        rw [Array.getElem?_setIfInBounds, if_pos rfl]
        exact if_pos hx
      have hnow : Lists ⟨h.current.domains.setIfInBounds x e, h.current.changed.push x⟩
          (a.history.current.set x (r.left D)) := m.lists.replace Array.size_setIfInBounds hothers hnew hle
      refine ⟨trivial, m.history.modify (f := fun _ => _) (g := (·.set x (r.left D))) hnow, fun y => ?_⟩
      show y ∈ insert x a.pending ↔ y ∈ h.current.changed.push x
      rw [Finset.mem_insert, Array.mem_push, m.pending]
      exact or_comm

/-- The domains answer as the stack does, and keep its sets. -/
theorem ask (m : Mirrors h a) (q : Request) :
    (Domains.ask q h).1 = (Sets.ask atRoot q a).1 ∧ Mirrors (Domains.ask q h).2 (Sets.ask atRoot q a).2 := by
  cases q with
  | create o =>
    obtain ⟨hlists, hsome⟩ := o.domain?_lists
    have hlevel : atRoot a.level o.set = true ↔ h.level = 0 := by
      rw [m.history.level]
      exact beq_iff_eq
    simp only [Domains.ask, Sets.ask, hlevel]
    cases ho : o.domain? with
    | none =>
      rw [ho] at hsome
      rw [if_neg fun hn => absurd (hsome.2 hn.1) (by simp)]
      exact ⟨rfl, m⟩
    | some d =>
      rw [ho] at hsome
      by_cases hroot : h.level = 0
      · rw [if_pos ⟨hsome.1 rfl, hroot⟩]
        simp only [ne_eq, hroot, not_true_eq_false, if_false]
        exact ⟨congrArg Reply.created m.lists.size, m.create hroot (hlists d ho)⟩
      · rw [if_neg fun hn => hroot hn.2]
        simp only [ne_eq, hroot, not_false_eq_true, if_true]
        exact ⟨trivial, m⟩
  | restrict x r =>
    by_cases hx : x < h.current.size
    · have hsize : h.current.size = a.history.current.length := m.lists.size
      exact m.restrict r (Array.getElem?_eq_getElem hx) (List.getElem?_eq_getElem (hsize ▸ hx))
    · have hnone : a.history.current[x]? = none := List.getElem?_eq_none (m.lists.size ▸ not_lt.1 hx)
      simp only [Domains.ask, if_neg hx, Sets.ask, hnone]
      exact ⟨trivial, m⟩
  | openLevel => exact ⟨rfl, m.history.openCheckpoint, m.pending⟩
  | synchronise target =>
    have hlevel : h.level = a.level := m.history.level
    simp only [Domains.ask, Sets.ask, hlevel]
    split_ifs
    · have hback : (h.backtrack target).Rel Lists (a.history.backtrack target) := m.history.backtrack
      refine ⟨rfl, hback.modify (f := (·.settle)) (g := id) hback.current, fun x => ?_⟩
      simp [History.modify, Domains.settle]
    · exact ⟨rfl, m⟩
  | drain => exact ⟨rfl, m.settle⟩

theorem answers (m : Mirrors h a) (requests : List Request) :
    (answers Domains.ask requests h).1 = (answers (Sets.ask atRoot) requests a).1 ∧
      Mirrors (answers Domains.ask requests h).2 (answers (Sets.ask atRoot) requests a).2 :=
  answers_refine (R := Mirrors) (fun q _ _ m => m.ask q) requests m

end Mirrors

/-- What the domains show is what the stack says. -/
structure Displays (h : History Domains) (a : Sets) : Prop where
  level : h.level = a.level
  size : h.current.size = a.history.current.length
  depicts : ∀ (x : Var) d D, h.current.get? x = some d → a.history.current[x]? = some D →
    Depicts D d.lower d.upper d.size d.contains d.toList
  pending : ∀ x, x ∈ a.pending ↔ x ∈ h.current.changed

theorem Mirrors.displays (m : Mirrors h a) : Displays h a where
  level := m.history.level
  size := m.lists.size
  depicts x d D hd hD := (m.lists.rel x d D hd hD).depicts
  pending := m.pending

end Domains

namespace Store

/-- What the store shows of the variables is what the sets say. -/
def Shows (s : Store) (Ds : List (Finset ℤ)) : Prop :=
  ∀ (x : Var) D, Ds[x]? = some D →
    Depicts D (s.bitmap x).lower (s.bitmap x).upper (s.bitmap x).size (s.bitmap x).contains (s.bitmap x).values

structure Displays (s : Store) (a : Sets) : Prop where
  level : s.level = a.level
  size : s.domains.size = a.history.current.length
  shows : s.Shows a.history.current
  pending : ∀ x, x ∈ a.pending ↔ ∃ e, (x, e) ∈ s.events.toList

theorem Mirrors.displays {s : Store} {a : Sets} (h : Mirrors s a) : Displays s a where
  level := h.level
  size := h.aligned.size
  shows x D hD := by
    have hx : x < s.domains.size := h.aligned.size ▸ (List.getElem?_eq_some_iff.1 hD).1
    have hd := Array.getElem?_eq_getElem hx
    rw [bitmap_eq hd]
    exact (h.aligned.rel x _ D hd hD).depicts
  pending := h.pending

/-- Only a restriction which tells of a change makes one, and then it queues events of its variable. -/
structure Sincere (s : Store) (x : Var) (r : Restriction) : Prop where
  emptied : (r.onStore s x).1 = none → (r.onStore s x).2 = s
  unchanged : (r.onStore s x).1 = some false → (r.onStore s x).2 = s
  changed : (r.onStore s x).1 = some true → ∃ news, news ≠ [] ∧ (∀ e ∈ news, e.1 = x) ∧
    (r.onStore s x).2.events.toList = s.events.toList ++ news

theorem Mirrors.sincere {s : Store} {a : Sets} (h : Mirrors s a) {x : Var} (hx : x < s.domains.size)
    (r : Restriction) : Sincere s x r := by
  have hd := Array.getElem?_eq_getElem hx
  have hrep := h.aligned.rel x _ _ hd (List.getElem?_eq_getElem (h.aligned.size ▸ hx))
  have hleaves := leaves_onStore r (bitmap_eq hd ▸ hrep)
  generalize hout : r.onStore s x = out at hleaves
  generalize r.left _ = L at hleaves
  cases hleaves with
  | nothing => exact ⟨fun _ => by rw [hout], by simp [hout], by simp [hout]⟩
  | all _ => exact ⟨by simp [hout], fun _ => by rw [hout], by simp [hout]⟩
  | less hvs hnodup hmem hleft =>
    refine ⟨by simp [hout], by simp [hout], fun _ => ?_⟩
    rw [hout]
    exact mem_events_discard hd hrep hvs hnodup hmem

theorem mirrors_empty : Mirrors {} {} where
  sound := ⟨⟨rfl, .nil, by simp⟩, by simp⟩
  history := ⟨⟨rfl, by simp⟩, .nil⟩
  pending := by simp

end Store

/-- Domains refine a stack of finite sets. The stored domains give the answers of the stack to all requests
and show its sets afterwards; nothing else happens to them than what they tell, and going back to a level
shows the sets there were when the level above was opened. The domains kept as lists answer like the stack
as well, where variables are created on the lowest level only. -/
theorem Store.refines_sets (requests : List Request) :
    (let sets := answers (Sets.ask fun _ => Bitmap.narrow) requests {}
      let stored := answers Store.ask requests {}
      stored.1 = sets.1 ∧ Displays stored.2 sets.2 ∧
        (∀ x < stored.2.domains.size, ∀ r, Sincere stored.2 x r) ∧
        ∀ above, (∀ target, .synchronise target ∈ above → sets.2.level < target) →
          let later := answers Store.ask (.openLevel :: above ++ [.synchronise sets.2.level]) stored.2
          later.2.Shows sets.2.history.current) ∧
      (let sets := answers (Sets.ask Domains.atRoot) requests {}
        let listed := answers Domains.ask requests { current := {} }
        listed.1 = sets.1 ∧ Domains.Displays listed.2 sets.2) := by
  refine ⟨?_, ?_⟩
  · obtain ⟨replies, mirrors⟩ := mirrors_empty.answers requests
    refine ⟨replies, mirrors.displays, fun x hx r => mirrors.sincere hx r, fun above habove x D hD => ?_⟩
    obtain ⟨created, e⟩ := Sets.prefix_synchronise habove
    refine (mirrors.answers _).2.displays.shows x D ?_
    rw [← e, List.getElem?_append_left (List.getElem?_eq_some_iff.1 hD).1, hD]
  · have start : Domains.Mirrors { current := {} } {} := ⟨⟨⟨rfl, by simp⟩, .nil⟩, by simp⟩
    obtain ⟨replies, mirrors⟩ := start.answers requests
    exact ⟨replies, mirrors.displays⟩

example :
    let s := (answers Store.ask
      [.create (.values [1, 3, 5, 7]), .openLevel, .restrict 0 (.remove 3), .restrict 0 (.raiseLower 4)] {}).2
    (s.bitmap 0).values = [5, 7] ∧
      ((s.synchronise? 0).map fun s => (s.bitmap 0).values) = some [1, 3, 5, 7] := by
  decide

end DecisionDiagrams
