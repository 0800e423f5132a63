import DecisionDiagrams.Proofs.Journal
import DecisionDiagrams.Proofs.Store.Restricting

/-! The stored domains answer like a stack of finite sets. What a level keeps is not stored: it is what
undoing the changes written above the level leads to, which no change above the level alters. -/

namespace DecisionDiagrams

theorem Offer.bitmap?_represents {o : Offer} {d : Bitmap} (h : o.bitmap? = some d) : d.Represents o.set := by
  cases o with
  | range lo hi => exact Bitmap.ofRange?_represents h
  | values vs => exact Bitmap.ofValues?_represents h

theorem Offer.bitmap?_isSome (o : Offer) :
    o.bitmap?.isSome = true ↔ o.set.Nonempty ∧ Bitmap.narrow o.set = true := by
  cases o with
  | range lo hi => exact Bitmap.ofRange?_isSome
  | values vs => exact Bitmap.ofValues?_isSome

namespace Store

/-- How the stored domains answer. -/
def ask : Request → Store → Reply × Store
  | .create o, s =>
    match o.bitmap? with
    | some d => (.created s.domains.size, s.create d)
    | none => (.refused, s)
  | .restrict x r, s =>
    if x < s.domains.size then
      match r.onStore s x with
      | (some yes, s) => (.changed yes, s)
      | (none, s) => (.emptied, s)
    else (.unknown, s)
  | .openLevel, s => (.done, s.openLevel)
  | .synchronise target, s =>
    match s.synchronise? target with
    | some s => (.done, s)
    | none => (.refused, s)
  | .drain, s => (.done, s.drainEvents.2)

variable {s t : Store} {a : Sets} {x : Var} {D : Finset ℤ} {d : Bitmap} {n target : ℕ}

/-- The domains as they were when there were `n` entries. -/
def rewound (s : Store) (n : ℕ) : Array Bitmap :=
  DomainChange.undoAll (s.journal.entries.toList.drop n) s.domains

/-- The domains and what the open levels keep of them. -/
def history (s : Store) : History (Array Bitmap) where
  current := s.domains
  kept := s.journal.openings.toList.reverse.map s.rewound

/-- What is written, is written of variables which exist. -/
structure Sound (s : Store) : Prop where
  journal : s.journal.Sound
  known : ∀ c ∈ s.journal.entries.toList, c.var < s.domains.size

theorem Sound.level (h : s.Sound) : s.history.level = s.level := by
  rw [History.level, history, List.length_map, List.length_reverse, Array.length_toList]
  exact h.journal.level.symm

theorem Sound.create (h : s.Sound) : (s.create d).Sound where
  journal := h.journal
  known c hc := (h.known c hc).trans_le (by show _ ≤ (s.domains.push d).size; rw [Array.size_push]; omega)

theorem Sound.openLevel (h : s.Sound) : s.openLevel.Sound where
  journal := h.journal.openLevel
  known := h.known

theorem Sound.touches (h : s.Sound) (hx : x < s.domains.size) (ht : Touches x s t) : t.Sound := by
  obtain ⟨cs, hvar, he, -⟩ := ht.entries
  refine ⟨h.journal.extend ht.level ht.openings ?_, fun c hc => ?_⟩
  · rw [← Array.length_toList, ← Array.length_toList, he, List.length_append]
    omega
  · rw [he, List.mem_append] at hc
    rw [ht.size]
    exact hc.elim (h.known c) fun hc => hvar c hc ▸ hx

theorem history_create (h : s.Sound) : (s.create d).history = s.history.map (·.push d) := by
  have hn : ∀ n, (s.create d).rewound n = (s.rewound n).push d := fun n =>
    DomainChange.undoAll_push fun c hc => h.known c (List.mem_of_mem_drop hc)
  simp only [history, History.map, List.map_map]
  exact congrArg _ (List.map_congr_left fun n _ => hn n)

theorem history_openLevel : s.openLevel.history = s.history.openCheckpoint := by
  have hnow : s.rewound s.journal.entries.size = s.domains := by
    rw [rewound, ← Array.length_toList, List.drop_length]
    rfl
  show History.mk s.domains ((s.journal.openings.push s.journal.entries.size).toList.reverse.map s.rewound) = _
  rw [Array.toList_push, List.reverse_append, List.map_append, List.reverse_singleton, List.map_singleton, hnow]
  rfl

/-- What is written above a level does not change what the level keeps. -/
theorem history_touches (h : s.Sound) (ht : Touches x s t) : t.history = s.history.modify fun _ => t.domains := by
  have hn : ∀ n ≤ s.journal.entries.size, t.rewound n = s.rewound n := fun n hn => by
    obtain ⟨cs, -, he, hu⟩ := ht.entries
    unfold rewound
    rw [he, List.drop_append_of_le_length (by rwa [Array.length_toList]), DomainChange.undoAll_append, hu]
  simp only [history, History.modify, ht.openings]
  exact congrArg _ (List.map_congr_left fun n hmem => hn n (h.journal.within n (List.mem_reverse.1 hmem)))

theorem synchronise?_isSome : (s.synchronise? target).isSome = true ↔ target < s.level := by
  unfold synchronise?
  split_ifs with ht
  · exact iff_of_true rfl ht
  · exact iff_of_false (by simp) ht

/-- Undoing back to an earlier level brings back what the level above it kept. -/
theorem synchronise?_spec (h : s.Sound) (hs : s.synchronise? target = some t) :
    t.Sound ∧ t.history = s.history.backtrack target ∧ t.events = #[] := by
  have ht : target < s.level := synchronise?_isSome.1 (by rw [hs]; rfl)
  obtain ⟨n, hn, hD, hsize, hbelow⟩ := h.journal.opening ht
  have hlt : target < s.journal.openings.toList.length := (List.getElem?_eq_some_iff.1 hn).1
  have htake : (s.journal.entries.toList.take n).length = n := by
    rw [List.length_take, Array.length_toList]
    omega
  obtain rfl : Store.mk (s.rewound n)
      (Journal.mk target (s.journal.openings.take target) (s.journal.entries.take n)) #[] = t := by
    refine Option.some.inj (Eq.trans ?_ hs)
    simp only [synchronise?, if_pos ht, Journal.cutBack, hD, DomainChange.foldl_undo_reverse]
    rfl
  have hopen : (s.journal.openings.take target).toList = s.journal.openings.toList.take target := by simp
  have hentries : (s.journal.entries.take n).toList = s.journal.entries.toList.take n := by simp
  refine ⟨⟨⟨?_, ?_, fun m hm => ?_⟩, fun c hc => ?_⟩, ?_, rfl⟩
  · show target = (s.journal.openings.take target).size
    rw [← Array.length_toList, hopen, List.length_take]
    omega
  · rw [hopen]
    exact h.journal.increasing.sublist (List.take_sublist _ _)
  · rw [hopen] at hm
    rw [← Array.length_toList, hentries, htake]
    exact hbelow m hm
  · rw [hentries] at hc
    exact (h.known c (List.mem_of_mem_take hc)).trans_eq DomainChange.size_undoAll.symm
  · have hkept : ∀ m ≤ n, DomainChange.undoAll ((s.journal.entries.toList.take n).drop m) (s.rewound n) =
        s.rewound m := fun m hm => by
      rw [rewound, ← DomainChange.undoAll_append, ← List.drop_append_of_le_length (by omega), List.take_append_drop,
        rewound]
    have hdrop : s.history.kept.drop (s.history.level - (target + 1)) =
        s.rewound n :: (s.journal.openings.toList.take target).reverse.map s.rewound := by
      have hL : s.history.level = s.journal.openings.toList.length := by
        rw [h.level, Array.length_toList]
        exact h.journal.level
      rw [hL, history, ← List.map_drop, List.drop_reverse, Nat.sub_sub_self hlt, List.take_add_one, hn,
        Option.toList_some, List.reverse_append, List.map_append, List.reverse_singleton, List.map_singleton]
      rfl
    rw [History.backtrack, hdrop]
    dsimp only
    rw [if_pos (h.level.symm ▸ ht)]
    simp only [history, hopen]
    refine congrArg _ (List.map_congr_left fun m hm => ?_)
    rw [rewound, hentries]
    exact hkept m (hbelow m (List.mem_reverse.1 hm))

/-- The store keeps the sets of the stack `a`. -/
structure Mirrors (s : Store) (a : Sets) : Prop where
  sound : s.Sound
  history : s.history.Rel (Aligned Bitmap.Represents) a.history
  pending : ∀ x, x ∈ a.pending ↔ ∃ e, (x, e) ∈ s.events.toList

namespace Mirrors

theorem level (h : Mirrors s a) : s.level = a.level := h.sound.level.symm.trans h.history.level

theorem aligned (h : Mirrors s a) : Aligned Bitmap.Represents s.domains a.history.current := h.history.current

theorem create (h : Mirrors s a) (hd : d.Represents D) :
    Mirrors (s.create d) { a with history := a.history.map (· ++ [D]) } where
  sound := h.sound.create
  history := by
    rw [history_create h.sound]
    exact h.history.map fun _ _ aligned => aligned.push hd
  pending := h.pending

/-- A change of one domain which the events tell of. -/
theorem touches (h : Mirrors s a) (ht : Touches x s t) (hd : t.domains[x]? = some d) (hD : d.Represents D)
    (hnews : ∃ news, news ≠ [] ∧ (∀ e ∈ news, e.1 = x) ∧ t.events.toList = s.events.toList ++ news) :
    Mirrors t { history := a.history.modify (·.set x D), pending := insert x a.pending } where
  sound := h.sound.touches (ht.size ▸ (Array.getElem?_eq_some_iff.1 hd).1) ht
  history := by
    rw [history_touches h.sound ht]
    exact h.history.modify (f := fun _ => t.domains) (g := (·.set x D)) (h.aligned.replace ht.size ht.others hd hD)
  pending y := by
    obtain ⟨news, hne, hvar, he⟩ := hnews
    obtain ⟨⟨z, e⟩, rest, rfl⟩ := List.exists_cons_of_ne_nil hne
    obtain rfl : z = x := hvar _ List.mem_cons_self
    simp only [Finset.mem_insert, h.pending, he, List.mem_append, exists_or]
    rw [or_comm]
    refine or_congr_right ⟨?_, fun ⟨e, hmem⟩ => hvar _ hmem⟩
    rintro rfl
    exact ⟨e, List.mem_cons_self⟩

theorem openLevel (h : Mirrors s a) : Mirrors s.openLevel { a with history := a.history.openCheckpoint } where
  sound := h.sound.openLevel
  history := by
    rw [history_openLevel]
    exact h.history.openCheckpoint
  pending := h.pending

theorem synchronise (h : Mirrors s a) (hs : s.synchronise? target = some t) :
    Mirrors t { history := a.history.backtrack target, pending := ∅ } := by
  obtain ⟨sound, hist, events⟩ := synchronise?_spec h.sound hs
  refine ⟨sound, ?_, fun x => by simp [events]⟩
  rw [hist]
  exact h.history.backtrack

theorem drain (h : Mirrors s a) : Mirrors s.drainEvents.2 { a with pending := ∅ } where
  sound := ⟨h.sound.journal, h.sound.known⟩
  history := h.history
  pending x := by simp [drainEvents]

/-- Restricting a variable which exists. -/
theorem restrict (h : Mirrors s a) (r : Restriction) (hx : x < s.domains.size) (hD : a.history.current[x]? = some D) :
    (ask (.restrict x r) s).1 = (Sets.ask (fun _ => Bitmap.narrow) (.restrict x r) a).1 ∧
      Mirrors (ask (.restrict x r) s).2 (Sets.ask (fun _ => Bitmap.narrow) (.restrict x r) a).2 := by
  have hd := Array.getElem?_eq_getElem hx
  have hrep := h.aligned.rel x _ D hd hD
  have hleaves := leaves_onStore r (bitmap_eq hd ▸ hrep)
  simp only [ask, if_pos hx, Sets.ask, hD]
  generalize r.left D = L at hleaves ⊢
  generalize r.onStore s x = out at hleaves ⊢
  cases hleaves with
  | nothing => exact ⟨by rw [if_pos rfl], by rw [if_pos rfl]; exact h⟩
  | all hne =>
    rw [if_neg hne.ne_empty, if_pos rfl]
    exact ⟨rfl, h⟩
  | @less vs hvs hnodup hmem hleft =>
    obtain ⟨v, hv⟩ := List.exists_mem_of_ne_nil vs hvs
    have hless : D \ vs.toFinset ≠ D := fun e =>
      (Finset.mem_sdiff.1 (e.symm ▸ hmem v hv : v ∈ D \ vs.toFinset)).2 (List.mem_toFinset.2 hv)
    rw [if_neg hleft.ne_empty, if_neg hless]
    obtain ⟨ht, d', hd', hrep'⟩ := discard_spec hd hrep hnodup hmem hleft
    exact ⟨rfl, h.touches ht hd' hrep' (mem_events_discard hd hrep hvs hnodup hmem)⟩

/-- The store answers as the stack does, and keeps its sets. -/
theorem ask (h : Mirrors s a) (q : Request) :
    (Store.ask q s).1 = (Sets.ask (fun _ => Bitmap.narrow) q a).1 ∧
      Mirrors (Store.ask q s).2 (Sets.ask (fun _ => Bitmap.narrow) q a).2 := by
  cases q with
  | create o =>
    have hsome := o.bitmap?_isSome
    simp only [Store.ask, Sets.ask]
    cases ho : o.bitmap? with
    | some d =>
      rw [ho] at hsome
      rw [if_pos (hsome.1 rfl)]
      exact ⟨congrArg Reply.created h.aligned.size, h.create (Offer.bitmap?_represents ho)⟩
    | none =>
      rw [ho] at hsome
      rw [if_neg (mt hsome.2 (by simp))]
      exact ⟨rfl, h⟩
  | restrict x r =>
    by_cases hx : x < s.domains.size
    · have hD := List.getElem?_eq_getElem (h.aligned.size ▸ hx)
      exact h.restrict r hx hD
    · have hnone : a.history.current[x]? = none := List.getElem?_eq_none (h.aligned.size ▸ not_lt.1 hx)
      simp only [Store.ask, if_neg hx, Sets.ask, hnone]
      exact ⟨trivial, h⟩
  | openLevel => exact ⟨rfl, h.openLevel⟩
  | synchronise target =>
    simp only [Store.ask, Sets.ask]
    have hsome : (s.synchronise? target).isSome = true ↔ target < a.level := h.level ▸ synchronise?_isSome
    cases hs : s.synchronise? target with
    | some t =>
      rw [hs] at hsome
      rw [if_pos (hsome.1 rfl)]
      exact ⟨rfl, h.synchronise hs⟩
    | none =>
      rw [hs] at hsome
      rw [if_neg (mt hsome.2 (by simp))]
      exact ⟨rfl, h⟩
  | drain => exact ⟨rfl, h.drain⟩

theorem answers (h : Mirrors s a) (requests : List Request) :
    (answers Store.ask requests s).1 = (answers (Sets.ask fun _ => Bitmap.narrow) requests a).1 ∧
      Mirrors (answers Store.ask requests s).2 (answers (Sets.ask fun _ => Bitmap.narrow) requests a).2 :=
  answers_refine (R := Mirrors) (fun q _ _ h => h.ask q) requests h

end Mirrors
end Store
end DecisionDiagrams
