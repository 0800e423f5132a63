import DecisionDiagrams.Proofs.Work.Tidy
import DecisionDiagrams.Solver.Basic

/-! Telling the diagrams which variables changed. Afterwards no change is waiting to be told, every
built diagram over a changed variable has the layer of the variable on its list, and a diagram with a
layer on its list is in the queue. -/

namespace DecisionDiagrams

theorem Plan.Distinct.idxOf?_var {p : Plan} (h : p.Distinct) {l : Nat} (hl : l < p.model.depth) :
    p.model.branchVars.idxOf? (p.model.var l) = some l := by
  have e : ∀ xs : Array Var, ∀ x, xs.idxOf? x = xs.toList.idxOf? x := by
    intro xs x
    cases xs
    exact List.idxOf?_toArray x _
  have var : ∀ k (hk : k < p.model.branchVars.toList.length),
      p.model.branchVars.toList[k] = p.model.var k := by
    intro k hk
    have hk' : k < p.model.branchVars.size := hk
    simp [Model.var, hk']
  rw [e, List.idxOf?_eq_some_iff]
  refine ⟨hl, var l hl, fun k hk ek => ?_⟩
  rw [var k] at ek
  exact Nat.ne_of_lt hk (h.var_inj (Nat.lt_trans hk hl) hl ek)

namespace Solver

variable {r s t : Solver} {x : Var} {i : Nat}

def planAt (s : Solver) (i : Nat) : Option Plan := (s.entries[i]?).map (·.plan)

/-- The layers of a diagram which wait for their domain. -/
def lostAt (s : Solver) (i : Nat) : List Nat := ((s.entries[i]?).map (·.lost)).getD []

def builtAt (s : Solver) (i : Nat) : Bool := ((s.world.diagrams[i]?).map (·.built)).getD false

/-- What telling the diagrams leaves as it is: lists of layers and the queue only grow, and diagrams
with a list wait. -/
structure Informs (s t : Solver) : Prop where
  history : t.history = s.history
  rootFailure : t.rootFailure = s.rootFailure
  size : t.entries.size = s.entries.size
  plan : ∀ i, t.planAt i = s.planAt i
  lost : ∀ i, ∀ l ∈ s.lostAt i, l ∈ t.lostAt i
  queue : ∀ i ∈ s.queue, i ∈ t.queue
  listed : (∀ i, s.lostAt i ≠ [] → i ∈ s.queue) → ∀ i, t.lostAt i ≠ [] → i ∈ t.queue

theorem Informs.refl (s : Solver) : Informs s s :=
  ⟨rfl, rfl, rfl, fun _ => rfl, fun _ _ h => h, fun _ h => h, fun h => h⟩

theorem Informs.trans (h : Informs r s) (k : Informs s t) : Informs r t where
  history := k.history.trans h.history
  rootFailure := k.rootFailure.trans h.rootFailure
  size := k.size.trans h.size
  plan i := (k.plan i).trans (h.plan i)
  lost i l hl := k.lost i l (h.lost i l hl)
  queue i hi := k.queue i (h.queue i hi)
  listed hl := k.listed (h.listed hl)

theorem Informs.world (h : Informs s t) : t.world = s.world := congrArg History.current h.history

theorem mem_queue_lineUp {j : Nat} : j ∈ (s.lineUp i).queue ↔ j = i ∨ j ∈ s.queue := by
  unfold lineUp
  split_ifs with h
  · have hi : i ∈ s.queue := by simpa using h
    refine ⟨Or.inr, fun hj => hj.elim (fun e => ?_) id⟩
    rw [e]
    exact hi
  · simp [or_comm]

@[simp] theorem entries_lineUp : (s.lineUp i).entries = s.entries := by
  unfold lineUp
  split_ifs <;> rfl

@[simp] theorem history_lineUp : (s.lineUp i).history = s.history := by
  unfold lineUp
  split_ifs <;> rfl

@[simp] theorem rootFailure_lineUp : (s.lineUp i).rootFailure = s.rootFailure := by
  unfold lineUp
  split_ifs <;> rfl

theorem informs_lineUp (s : Solver) (i : Nat) : Informs s (s.lineUp i) := by
  refine ⟨history_lineUp, rootFailure_lineUp, by rw [entries_lineUp], fun j => ?_, fun j l hl => ?_,
    fun j hj => mem_queue_lineUp.2 (Or.inr hj), fun h j hj => mem_queue_lineUp.2 (Or.inr (h j ?_))⟩
  · rw [planAt, entries_lineUp]
    rfl
  · rw [lostAt, entries_lineUp]
    exact hl
  · rw [lostAt, entries_lineUp] at hj
    exact hj

/-- Puts a layer on the list of a diagram. -/
def enlist (s : Solver) (i : Nat) (e : Entry) (l : Nat) : Solver :=
  { s with entries := s.entries.setIfInBounds i { e with lost := l :: e.lost } }

theorem planAt_enlist {e : Entry} (h : s.entries[i]? = some e) (l j : Nat) :
    (s.enlist i e l).planAt j = s.planAt j := by
  unfold enlist planAt
  rw [Array.getElem?_setIfInBounds]
  have hi := (Array.getElem?_eq_some_iff.1 h).1
  by_cases ij : i = j
  · subst ij
    rw [if_pos rfl, if_pos hi, h]
    rfl
  · rw [if_neg ij]

theorem lostAt_enlist {e : Entry} (h : s.entries[i]? = some e) (l j : Nat) :
    (s.enlist i e l).lostAt j = if j = i then l :: s.lostAt j else s.lostAt j := by
  unfold enlist lostAt
  rw [Array.getElem?_setIfInBounds]
  have hi := (Array.getElem?_eq_some_iff.1 h).1
  by_cases ij : i = j
  · subst ij
    rw [if_pos rfl, if_pos rfl, if_pos hi, h]
    rfl
  · rw [if_neg ij, if_neg (Ne.symm ij)]

theorem informs_enlist {e : Entry} (h : s.entries[i]? = some e) (l : Nat) :
    Informs s ((s.enlist i e l).lineUp i) := by
  have hl := informs_lineUp (s.enlist i e l) i
  refine ⟨hl.history, hl.rootFailure, ?_, fun j => ?_, fun j k hk => ?_, fun j hj => ?_,
    fun hq j hj => ?_⟩
  · rw [hl.size]
    exact Array.size_setIfInBounds
  · rw [hl.plan, planAt_enlist h]
  · refine hl.lost j k ?_
    rw [lostAt_enlist h]
    split_ifs
    · exact List.mem_cons_of_mem _ hk
    · exact hk
  · exact mem_queue_lineUp.2 (Or.inr hj)
  · refine mem_queue_lineUp.2 ?_
    by_cases ji : j = i
    · exact Or.inl ji
    · refine Or.inr (hq j ?_)
      rwa [lostAt, entries_lineUp, ← lostAt, lostAt_enlist h, if_neg ji] at hj

theorem informs_announceTo (x : Var) (s : Solver) (i : Nat) : Informs s (announceTo x s i) := by
  unfold announceTo
  split
  · exact .refl s
  · rename_i e he
    split
    · exact .refl s
    · dsimp only
      split_ifs
      · exact informs_enlist he _
      · exact informs_lineUp s i

/-- Whether a diagram knows that a variable changed. -/
def Told (x : Var) (s : Solver) (i : Nat) : Prop :=
  ∀ p l, s.planAt i = some p → p.model.branchVars.idxOf? x = some l →
    i ∈ s.queue ∧ (s.builtAt i = true → l ∈ s.lostAt i)

theorem Told.mono (h : Told x s i) (k : Informs s t) : Told x t i := by
  intro p l hp hl
  rw [k.plan] at hp
  rw [builtAt, k.world]
  exact ⟨k.queue i (h p l hp hl).1, fun hb => k.lost i l ((h p l hp hl).2 hb)⟩

theorem told_announceTo (x : Var) (s : Solver) (i : Nat) : Told x (announceTo x s i) i := by
  intro p l hp hl
  have hin := informs_announceTo x s i
  rw [hin.plan, planAt, Option.map_eq_some_iff] at hp
  obtain ⟨e, he, rfl⟩ := hp
  rw [builtAt, hin.world]
  unfold announceTo
  rw [he]
  dsimp only
  rw [hl]
  dsimp only
  refine ⟨mem_queue_lineUp.2 (Or.inl rfl), fun hb => ?_⟩
  rw [if_pos hb, lostAt, entries_lineUp, ← lostAt]
  rw [show ({ s with entries := s.entries.setIfInBounds i { e with lost := l :: e.lost } } : Solver) =
    s.enlist i e l from rfl, lostAt_enlist he, if_pos rfl]
  exact List.mem_cons_self

theorem informs_foldl {α : Type} {f : Solver → α → Solver} (h : ∀ s a, Informs s (f s a)) :
    ∀ (l : List α) (s : Solver), Informs s (l.foldl f s)
  | [], s => .refl s
  | a :: l, s => (h s a).trans (informs_foldl h l (f s a))

/-- What one step of a loop tells is still told in the end. -/
theorem told_foldl {α : Type} {f : Solver → α → Solver} (h : ∀ s a, Informs s (f s a)) {a : α}
    {x : Var} {i : Nat} (ha : ∀ s, Told x (f s a) i) :
    ∀ {l : List α} {s : Solver}, a ∈ l → Told x (l.foldl f s) i
  | b :: l, s, hm => by
    rcases List.mem_cons.1 hm with e | hm
    · subst e
      exact (ha s).mono (informs_foldl h l _)
    · show Told x (l.foldl f (f s b)) i
      exact told_foldl h ha hm

/-- Tells all diagrams of one change. -/
def announceOne (s : Solver) (x : Var) : Solver :=
  (List.range s.entries.size).foldl (announceTo x) s

theorem informs_announceOne (s : Solver) (x : Var) : Informs s (s.announceOne x) :=
  informs_foldl (informs_announceTo x) _ s

theorem told_announceOne (s : Solver) (x : Var) (i : Nat) : Told x (s.announceOne x) i := by
  by_cases hi : i < s.entries.size
  · exact told_foldl (informs_announceTo x) (fun s => told_announceTo x s i) (List.mem_range.2 hi)
  · intro p l hp
    rw [(informs_announceOne s x).plan, planAt, Array.getElem?_eq_none (Nat.not_lt.1 hi)] at hp
    cases hp

theorem informs_announce (s : Solver) : Informs (s.setDomains s.domains.settle) s.announce :=
  informs_foldl informs_announceOne _ _

theorem told_announce (s : Solver) {x : Var} (hx : x ∈ s.domains.changed) (i : Nat) :
    Told x s.announce i :=
  told_foldl informs_announceOne (fun s => told_announceOne s x i)
    (List.mem_eraseDups.2 (Array.mem_toList_iff.2 hx))

theorem domains_announce (s : Solver) : s.announce.domains = s.domains.settle :=
  congrArg World.domains (informs_announce s).world

theorem diagrams_announce (s : Solver) : s.announce.world.diagrams = s.world.diagrams := by
  rw [(informs_announce s).world]
  rfl

theorem level_announce (s : Solver) : s.announce.level = s.level := by
  rw [level, (informs_announce s).history]
  rfl

theorem kept_announce (s : Solver) : s.announce.history.kept = s.history.kept := by
  rw [(informs_announce s).history]
  rfl

end Solver
end DecisionDiagrams
