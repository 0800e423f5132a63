import DecisionDiagrams.Proofs.Stored.Diagrams

/-! Propagation of a stored solver. It tells the diagrams of the same variables in the same order as a solver which
keeps its worlds whole, only some of them several times, and a call of a diagram makes the changes which the call in
the other solver made. -/

namespace DecisionDiagrams

/-! ### The lists of layers -/

theorem Work.enforceDomains_congr {p : Plan} {lost lost' : List ℕ} (h : ∀ l, l ∈ lost ↔ l ∈ lost') :
    Work.enforceDomains p lost = Work.enforceDomains p lost' := by
  have same : lost.contains = lost'.contains := funext fun l => by
    rw [Bool.eq_iff_iff, List.contains_iff_mem, List.contains_iff_mem]
    exact h l
  unfold Work.enforceDomains
  rw [same]

/-- How often and in which order the layers are listed does not matter. -/
theorem Diagram.propagate_congr {p : Plan} {lost lost' : List ℕ} (h : ∀ l, l ∈ lost ↔ l ∈ lost') (d : Diagram)
    (fuel : ℕ) (t : Domains) : d.propagate p fuel lost t = d.propagate p fuel lost' t := by
  unfold Diagram.propagate Work.maintainExact Work.maintainRelaxed
  rw [Work.enforceDomains_congr h]

namespace Solver

/-- The domains at present and at the open checkpoints. -/
def ranges (s : Solver) : History Domains := s.history.map (·.domains)

@[simp] theorem level_ranges (s : Solver) : s.ranges.level = s.level := History.level_map _ _

end Solver

/-! ### Diagrams and their entries -/

/-- The entry has what the stored diagram has of it; layers may be listed in another way. -/
structure Entry.Describes (e : Entry) (d : StoredDiagram) : Prop where
  lost : ∀ l, l ∈ d.lost ↔ l ∈ e.lost
  last : d.last = e.last
  total : d.total = e.total

/-- A stored diagram follows the diagrams with its number in the worlds of a history. -/
def StoredDiagram.Appears (d : StoredDiagram) (e : Entry) (worlds : ℕ → Option Diagram) (spans : Array (ℤ × ℕ))
    (H : History (Array ℤ)) : Prop :=
  ∃ D : ℕ → Diagram, (∀ l, worlds l = some (D l)) ∧ d.Follows e.plan spans H D ∧ e.Describes d

/-- The stored diagrams follow those of a solver, in cells of their own. -/
structure Drawn (ds : Array StoredDiagram) (es : Array Entry) (W : History World) (spans : Array (ℤ × ℕ))
    (H : History (Array ℤ)) : Prop where
  size : ds.size = es.size
  appears : ∀ (i : ℕ) (d : StoredDiagram) (e : Entry), ds[i]? = some d → es[i]? = some e →
    d.Appears e (fun l => (W.back l).diagrams[i]?) spans H
  apart : ∀ (i j : ℕ) (d d' : StoredDiagram), i ≠ j → ds[i]? = some d → ds[j]? = some d' →
    ∀ r ∈ d.rows, ∀ q ∈ d'.rows, ∀ c, r.Has c → ¬ q.Has c
  within : ∀ (i : ℕ) (d : StoredDiagram), ds[i]? = some d → ∀ r ∈ d.rows, ∀ l, r.offset + r.width ≤ (H.back l).size

namespace Drawn

variable {ds : Array StoredDiagram} {es : Array Entry} {W W' : History World} {spans spans' : Array (ℤ × ℕ)}
  {H : History (Array ℤ)} {vs : Array ℤ} {i : ℕ} {d d' : StoredDiagram} {e' : Entry}

/-- One diagram is replaced, and only its own cells are written. -/
theorem set (h : Drawn ds es W spans H) (hd : ds[i]? = some d) (rows : d'.rows = d.rows)
    (besides : Besides d.rows H.current vs)
    (new : d'.Appears e' (fun l => (W'.back l).diagrams[i]?) spans (H.modify fun _ => vs))
    (others : ∀ j ≠ i, ∀ l, (W'.back l).diagrams[j]? = (W.back l).diagrams[j]?) :
    Drawn (ds.setIfInBounds i d') (es.setIfInBounds i e') W' spans (H.modify fun _ => vs) := by
  have hi : i < ds.size := (Array.getElem?_eq_some_iff.1 hd).1
  have hrows : ∀ (j : ℕ) (d₁ : StoredDiagram), (ds.setIfInBounds i d')[j]? = some d₁ → ∃ d₂, ds[j]? = some d₂ ∧ d₁.rows = d₂.rows := by
    intro j d₁ hj
    rw [Array.getElem?_setIfInBounds] at hj
    split_ifs at hj with e
    · obtain rfl := Option.some.inj hj
      exact ⟨d, e ▸ hd, rows⟩
    · exact ⟨d₁, hj, rfl⟩
  refine ⟨by simpa using h.size, fun j d₁ e₁ hj he => ?_, fun j k d₁ d₂ hne hj hk => ?_, fun j d₁ hj => ?_⟩
  · rw [Array.getElem?_setIfInBounds] at hj he
    by_cases ij : i = j
    · subst ij
      rw [if_pos rfl, if_pos hi] at hj
      rw [if_pos rfl, if_pos (h.size ▸ hi)] at he
      obtain rfl := Option.some.inj hj
      obtain rfl := Option.some.inj he
      exact new
    · rw [if_neg ij] at hj he
      obtain ⟨D, worlds, follows, describes⟩ := h.appears j d₁ e₁ hj he
      refine ⟨D, fun l => (others j (Ne.symm ij) l).trans (worlds l), follows.frame (K := H.modify fun _ => vs) rfl
        (fun l => ?_) follows.housed, describes⟩
      rcases Nat.lt_or_ge l H.level with hl | hl
      · rw [History.back_modify hl]
        exact follows.counted l
      · rw [History.back_modify_of_le hl]
        have counted := follows.counted l
        rw [History.back_of_le hl] at counted
        exact counted.frame fun r hr c hc => besides.others c fun q hq hqc => h.apart i j d d₁ ij hd hj q hq r hr c hqc hc
  · obtain ⟨d₃, h₃, e₃⟩ := hrows j d₁ hj
    obtain ⟨d₄, h₄, e₄⟩ := hrows k d₂ hk
    rw [e₃, e₄]
    exact h.apart j k d₃ d₄ hne h₃ h₄
  · obtain ⟨d₃, h₃, e₃⟩ := hrows j d₁ hj
    rw [e₃]
    intro r hr l
    have within := h.within j d₃ h₃ r hr l
    rcases Nat.lt_or_ge l H.level with hl | hl
    · rwa [History.back_modify hl]
    · rw [History.back_of_le hl] at within
      rwa [History.back_modify_of_le hl, besides.size]

/-- Other layers are listed. -/
theorem relist {e : Entry} (h : Drawn ds es W spans H) (hd : ds[i]? = some d) (he : es[i]? = some e)
    {lost lost' : List ℕ} (hl : ∀ l, l ∈ lost ↔ l ∈ lost') :
    Drawn (ds.setIfInBounds i { d with lost }) (es.setIfInBounds i { e with lost := lost' }) W spans H := by
  obtain ⟨D, worlds, follows, describes⟩ := h.appears i d e hd he
  have same : StoredDiagram.Appears { d with lost } { e with lost := lost' } (fun l => (W.back l).diagrams[i]?) spans H :=
    ⟨D, worlds, follows.congr rfl rfl rfl rfl rfl, hl, describes.last, describes.total⟩
  exact h.set hd rfl (Besides.refl _ H.current) same fun _ _ _ => rfl

theorem of_worlds (h : Drawn ds es W spans H) (same : ∀ l, (W'.back l).diagrams = (W.back l).diagrams) :
    Drawn ds es W' spans H :=
  ⟨h.size, fun i d e hd he => by simpa only [same] using h.appears i d e hd he, h.apart, h.within⟩

end Drawn

theorem World.diagrams_domains (W : History World) (f : World → Domains) (l : ℕ) :
    ((W.modify fun w => { w with domains := f w }).back l).diagrams = (W.back l).diagrams := by
  rcases Nat.lt_or_ge l W.level with hl | hl
  · rw [History.back_modify hl]
  · rw [History.back_modify_of_le hl, History.back_of_le hl]

/-- What a call of a diagram leaves in the worlds. -/
theorem World.diagrams_called {W : History World} {i : ℕ} (hi : i < W.current.diagrams.size) (t : Domains)
    (d : Diagram) (l j : ℕ) :
    ((W.modify fun w => { domains := t, diagrams := w.diagrams.setIfInBounds i d }).back l).diagrams[j]? =
      if W.level ≤ l ∧ j = i then some d else (W.back l).diagrams[j]? := by
  rcases Nat.lt_or_ge l W.level with hl | hl
  · rw [History.back_modify hl, if_neg fun h => absurd hl (Nat.not_lt.2 h.1)]
  · rw [History.back_modify_of_le hl, History.back_of_le hl, Array.getElem?_setIfInBounds]
    by_cases ij : i = j
    · subst ij
      rw [if_pos rfl, if_pos hi, if_pos ⟨hl, rfl⟩]
    · rw [if_neg ij, if_neg fun h => ij h.2.symm]

namespace StoredSolver

variable {s t : StoredSolver} {o : Solver} {x : Var} {i : ℕ}

/-- What is stored does for a solver which keeps its worlds whole. -/
structure Mirrors (s : StoredSolver) (o : Solver) : Prop where
  sound : o.Everywhere Diagram.Sound
  store : s.store.Follows o.ranges
  drawn : ∃ H, s.cells.Mirrors H ∧ H.level = o.level ∧ Drawn s.diagrams o.entries o.history s.store.spans H
  queue : s.queue = o.queue
  rootFailure : s.rootFailure = o.rootFailure
  counters : s.counters = o.counters

namespace Mirrors

theorem level (m : s.Mirrors o) : s.level = o.level := m.store.level.trans o.level_ranges

theorem size (m : s.Mirrors o) : s.diagrams.size = o.entries.size := by
  obtain ⟨H, -, -, drawn⟩ := m.drawn
  exact drawn.size

/-- Both solvers have a diagram with a number, or neither has. -/
theorem diagram (m : s.Mirrors o) (i : ℕ) :
    (s.diagrams[i]? = none ∧ o.entries[i]? = none) ∨ ∃ d e D, s.diagrams[i]? = some d ∧ o.entries[i]? = some e ∧
      o.world.diagrams[i]? = some D ∧ D.Sound e.plan ∧ d.plan = e.plan ∧ e.Describes d ∧ d.builtAt.isSome = D.built := by
  obtain ⟨H, -, level, drawn⟩ := m.drawn
  rcases Nat.lt_or_ge i s.diagrams.size with hi | hi
  · right
    have hd := Array.getElem?_eq_getElem hi
    have he := Array.getElem?_eq_getElem (hi.trans_eq m.size)
    obtain ⟨D, worlds, follows, describes⟩ := drawn.appears i _ _ hd he
    have current : o.world.diagrams[i]? = some (D H.level) := by
      have here := worlds H.level
      dsimp only at here
      rwa [History.back_of_le level.ge] at here
    have planned := congrArg (Option.map Entry.plan) he
    exact ⟨_, _, _, hd, he, current, m.sound.holds i _ planned _ (Or.inl rfl) _ current, follows.plan, describes,
      follows.builtAt_isSome⟩
  · exact Or.inl ⟨Array.getElem?_eq_none hi, Array.getElem?_eq_none (m.size ▸ hi)⟩

theorem lineUp (m : s.Mirrors o) (i : ℕ) : (s.lineUp i).Mirrors (o.lineUp i) := by
  unfold StoredSolver.lineUp Solver.lineUp
  rw [← m.queue]
  split_ifs
  · exact m
  · exact ⟨m.sound.congr rfl rfl rfl fun _ => rfl, m.store, m.drawn, rfl, m.rootFailure, m.counters⟩

/-! ### Telling the diagrams -/

/-- Both list a layer of one diagram. -/
theorem relist (m : s.Mirrors o) {d : StoredDiagram} {e : Entry} (hd : s.diagrams[i]? = some d)
    (he : o.entries[i]? = some e) {lost lost' : List ℕ} (hl : ∀ l, l ∈ lost ↔ l ∈ lost') :
    Mirrors { s with diagrams := s.diagrams.setIfInBounds i { d with lost } } (o.listing i { e with lost := lost' }) := by
  obtain ⟨H, cells, level, drawn⟩ := m.drawn
  refine ⟨m.sound.congr rfl rfl Array.size_setIfInBounds fun j => ?_, m.store,
    ⟨H, cells, level, drawn.relist hd he hl⟩, m.queue, m.rootFailure, m.counters⟩
  unfold Solver.planAt Solver.listing
  rw [Array.getElem?_setIfInBounds]
  split_ifs with ij hi
  · rw [← ij, he]
    rfl
  · rw [← ij, Array.getElem?_eq_none (Nat.not_lt.1 hi)]
  · rfl

theorem listing_self {e : Entry} (he : o.entries[i]? = some e) : o.listing i e = o := by
  have same : o.entries.setIfInBounds i e = o.entries := by
    refine Array.ext_getElem? fun j => ?_
    rw [Array.getElem?_setIfInBounds]
    split_ifs with ij hi
    · rw [← ij, he]
    · rw [← ij, Array.getElem?_eq_none (Nat.not_lt.1 hi)]
    · rfl
  unfold Solver.listing
  rw [same]

theorem tell (m : s.Mirrors o) (x : Var) (i : ℕ) : (s.tell x i).Mirrors (Solver.announceTo x o i) := by
  unfold StoredSolver.tell Solver.announceTo
  rcases m.diagram i with ⟨hd, he⟩ | ⟨d, e, D, hd, he, hD, -, plan, describes, built⟩
  · rw [hd, he]
    exact m
  · have idx : d.plan.model.branchVars.idxOf? x = e.plan.model.branchVars.idxOf? x := by rw [plan]
    rw [hd, he, hD]
    dsimp only
    rw [idx, built]
    cases e.plan.model.branchVars.idxOf? x with
    | none => exact m
    | some layer =>
      dsimp only [Option.map_some, Option.getD_some]
      by_cases hb : D.built = true
      · rw [if_pos hb, if_pos hb]
        have listed : ∀ l, l ∈ layer :: d.lost ↔ l ∈ layer :: e.lost := fun l => by
          rw [List.mem_cons, List.mem_cons, describes.lost]
        exact (m.relist hd he listed).lineUp i
      · rw [if_neg hb, if_neg hb]
        have same := m.relist hd he describes.lost
        rw [listing_self he] at same
        exact same.lineUp i

/-- A diagram which was told of a variable may be told of it again. -/
theorem tell_again (m : s.Mirrors o) (told : Solver.Told x o i) : (s.tell x i).Mirrors o := by
  unfold StoredSolver.tell
  rcases m.diagram i with ⟨hd, -⟩ | ⟨d, e, D, hd, he, hD, -, plan, describes, built⟩
  · rw [hd]
    exact m
  · rw [hd]
    dsimp only
    split
    · exact m
    · rename_i layer hl
      have planned : o.planAt i = some d.plan := by rw [Solver.planAt, he, plan]; rfl
      obtain ⟨waits, listed⟩ := told d.plan layer planned hl
      have known : ∀ l, l ∈ (if d.builtAt.isSome = true then layer :: d.lost else d.lost) ↔ l ∈ e.lost := fun l => by
        rw [← describes.lost]
        split_ifs with hb
        · have inList : layer ∈ d.lost := by
            have := listed (by rw [Solver.builtAt, hD, ← hb, built]; rfl)
            rw [Solver.lostAt, he] at this
            exact (describes.lost layer).2 this
          rw [List.mem_cons]
          exact ⟨fun h => h.elim (fun e => e ▸ inList) id, Or.inr⟩
        · rfl
      have same := (m.relist hd he known).lineUp i
      have queued : o.lineUp i = o := by
        unfold Solver.lineUp
        rw [if_pos (by simpa using waits)]
      rw [show o.listing i { e with lost := e.lost } = o from listing_self he, queued] at same
      exact same

theorem foldl {α : Type} {f : StoredSolver → α → StoredSolver} {g : Solver → α → Solver}
    (h : ∀ a s o, Mirrors s o → Mirrors (f s a) (g o a)) (as : List α) (m : s.Mirrors o) :
    (as.foldl f s).Mirrors (as.foldl g o) := by
  induction as generalizing s o with
  | nil => exact m
  | cons a as ih => exact ih (h a s o m)

theorem notify (m : s.Mirrors o) (x : Var) : (s.notify x).Mirrors (o.announceOne x) := by
  unfold StoredSolver.notify Solver.announceOne
  rw [m.size]
  exact foldl (fun i _ _ m => m.tell x i) _ m

theorem notify_again (m : s.Mirrors o) (told : ∀ i, Solver.Told x o i) : (s.notify x).Mirrors o := by
  unfold StoredSolver.notify
  generalize List.range s.diagrams.size = is
  induction is generalizing s with
  | nil => exact m
  | cons i is ih => exact ih (m.tell_again (told i))

/-- Of each variable the diagrams are told when its first event comes; the other events change nothing. By induction
on the events, the last one at the end. -/
theorem notifyAll (m : s.Mirrors o) (xs : List Var) :
    (xs.foldl StoredSolver.notify s).Mirrors (xs.eraseDups.foldl Solver.announceOne o) := by
  induction xs using List.reverseRecOn with
  | nil => exact m
  | append_singleton xs x ih =>
    rw [List.foldl_append, List.foldl_cons, List.foldl_nil, List.eraseDups_append, List.foldl_append]
    by_cases hx : x ∈ xs
    · have none : [x].removeAll xs = [] := by simp [List.removeAll, hx]
      rw [none]
      exact ih.notify_again fun i => Solver.told_foldl Solver.informs_announceOne
        (fun o => Solver.told_announceOne o x i) (List.mem_eraseDups.2 hx)
    · have one : [x].removeAll xs = [x] := by simp [List.removeAll, hx]
      rw [one]
      exact ih.notify x

theorem announce (m : s.Mirrors o) : s.announce.Mirrors o.announce := by
  obtain ⟨H, cells, level, drawn⟩ := m.drawn
  have settled : Mirrors { s with store := s.store.drainEvents.2 } (o.setDomains o.domains.settle) :=
    ⟨m.sound.setDomains _, m.store.drain, ⟨H, cells, level, drawn.of_worlds (World.diagrams_domains o.history _)⟩, m.queue, m.rootFailure,
      m.counters⟩
  have told := settled.notifyAll (s.store.events.toList.map (·.1))
  rw [m.store.told, List.foldl_map] at told
  exact told

/-! ### Letting the diagrams work -/

/-- The call of a diagram reads the present diagram and makes its changes, none of which fails. -/
theorem callDiagram (m : s.Mirrors o) (told : s.store.events = #[]) (fuel i : ℕ) :
    ∃ t, s.callDiagram fuel i = some ((o.callDiagram fuel i).1, t) ∧ t.Mirrors (o.callDiagram fuel i).2 := by
  have sound' := m.sound.callDiagram Diagram.endures_sound fuel i
  revert sound'
  rcases m.diagram i with ⟨hd, he⟩ | ⟨d, e, D₀, hd, he, hD, sound, plan, describes, -⟩
  · unfold StoredSolver.callDiagram Solver.callDiagram
    rw [hd, he]
    exact fun _ => ⟨s, rfl, m⟩
  · obtain ⟨H, cells, level, drawn⟩ := m.drawn
    obtain ⟨D, worlds, follows, -⟩ := drawn.appears i d e hd he
    obtain rfl : D H.level = D₀ := by
      have here := worlds H.level
      dsimp only at here
      rw [History.back_of_le level.ge] at here
      exact Option.some.inj (here.symm.trans hD)
    have slevel : s.level = H.level := m.level.trans level.symm
    have listed : s.store.listed? = some o.domains := m.store.listed?.trans (congrArg some (m.store.settled told))
    have whole : ({ d with arena := d.arena.align H.level } : StoredDiagram).whole s.cells = D H.level :=
      follows.whole cells sound
    have same : (D H.level).propagate d.plan fuel d.lost o.domains = (D H.level).propagate e.plan fuel e.lost o.domains := by
      rw [plan, Diagram.propagate_congr describes.lost]
    generalize result : (D H.level).propagate e.plan fuel e.lost o.domains = r at same
    have built : r.diagram.built = true := result ▸ sound.held.built_propagate fuel e.lost o.domains
    obtain ⟨k, vs, made, store, spans, cells', besides, new⟩ := follows.propagate cells sound m.store fuel e.lost result
    unfold StoredSolver.callDiagram Solver.callDiagram
    simp only [hd, he, hD, listed, slevel, whole, same, result, made, built, Option.bind_eq_bind, Option.bind_some,
      if_true]
    intro sound'
    refine ⟨_, rfl, sound', store, ⟨_, cells', level, ?_⟩, m.queue, m.rootFailure, ?_⟩
    · rw [spans]
      have hi : i < o.history.current.diagrams.size := (Array.getElem?_eq_some_iff.1 hD).1
      refine drawn.set hd rfl besides ⟨_, fun l => ?_, new _ rfl, ⟨fun l => Iff.rfl, rfl, ?_⟩⟩ fun j hj l => ?_
      · dsimp only
        rw [World.diagrams_called hi, ← show H.level = o.history.level from level]
        split_ifs with h h' h'
        · exact absurd h' (Nat.not_lt.2 h.1)
        · rfl
        · exact worlds l
        · exact absurd ⟨Nat.not_lt.1 h', rfl⟩ h
      · rw [describes.total]
      · rw [World.diagrams_called hi, if_neg fun h => hj h.2]
    · rw [m.counters]

theorem events_announce (s : StoredSolver) : s.announce.store.events = #[] := by
  have line : ∀ (s : StoredSolver) (i : ℕ), (s.lineUp i).store = s.store := fun s i => by
    unfold StoredSolver.lineUp
    split_ifs <;> rfl
  have told : ∀ (x : Var) (s : StoredSolver) (i : ℕ), (s.tell x i).store = s.store := fun x s i => by
    unfold StoredSolver.tell
    split
    · rfl
    · split
      · rfl
      · exact line _ i
  have notified : ∀ (s : StoredSolver) (x : Var), (s.notify x).store = s.store := fun s x =>
    List.foldlRecOn (motive := fun t : StoredSolver => t.store = s.store) _ _ rfl fun t ht i _ => (told x t i).trans ht
  exact List.foldlRecOn (motive := fun t : StoredSolver => t.store.events = #[]) _ _ rfl fun t ht e _ =>
    (congrArg Store.events (notified t e.1)).trans ht

theorem drain (fuel : ℕ) : ∀ (steps : ℕ) {s : StoredSolver} {o : Solver}, s.Mirrors o → s.store.events = #[] →
    ∃ t, StoredSolver.drain fuel steps s = some ((Solver.drain fuel steps o).1, t) ∧
      t.Mirrors (Solver.drain fuel steps o).2
  | 0, s, _, m, _ => ⟨s, rfl, m⟩
  | steps + 1, s, o, m, told => by
    unfold StoredSolver.drain Solver.drain
    rw [m.queue]
    cases o.queue with
    | nil => exact ⟨s, rfl, m⟩
    | cons i rest =>
      have dequeued : Mirrors { s with queue := rest } { o with queue := rest } :=
        ⟨m.sound.congr rfl rfl rfl fun _ => rfl, m.store, m.drawn, rfl, m.rootFailure, m.counters⟩
      obtain ⟨t, called, mt⟩ := dequeued.callDiagram told fuel i
      dsimp only
      rw [called]
      generalize Solver.callDiagram _ fuel i = out at mt
      obtain ⟨_ | f, u⟩ := out
      · exact drain fuel steps mt.announce (events_announce t)
      · exact ⟨t, rfl, mt⟩

theorem propagate (m : s.Mirrors o) : ∃ t, s.propagate = some (o.propagate.1, t) ∧ t.Mirrors o.propagate.2 := by
  unfold StoredSolver.propagate StoredSolver.propagateWithin Solver.propagate Solver.propagateWithin
  rw [m.rootFailure]
  cases o.rootFailure with
  | some f => exact ⟨s, rfl, m⟩
  | none =>
    obtain ⟨t, drained, mt⟩ := drain Solver.allowance Solver.allowance m.announce (events_announce s)
    dsimp only
    rw [drained]
    generalize Solver.drain _ _ o.announce = out at mt
    obtain ⟨_ | f, u⟩ := out
    · exact ⟨t, rfl, mt⟩
    · refine ⟨_, rfl, mt.sound.congr rfl rfl rfl fun _ => rfl, mt.store, mt.drawn, rfl, ?_, ?_⟩
      · show (if t.level = 0 then some f else Option.none) = if u.level = 0 then some f else Option.none
        rw [mt.level]
      · show { t.counters with conflicts := t.counters.conflicts + 1 } =
          { u.counters with conflicts := u.counters.conflicts + 1 }
        rw [mt.counters]

end Mirrors
end StoredSolver
end DecisionDiagrams
