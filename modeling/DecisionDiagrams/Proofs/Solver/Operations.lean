import DecisionDiagrams.Proofs.Solver.Announce
import DecisionDiagrams.Solver.Operation

/-! Counters are not seen, and they influence nothing that is: two solvers which are alike but for their
counters give the same answers to all operations and stay alike. -/

namespace DecisionDiagrams
namespace Solver

theorem performAll_append (s : Solver) (os os' : List Operation) :
    s.performAll (os ++ os') = (s.performAll os).performAll os' := List.foldl_append

theorem performAll_cons (s : Solver) (o : Operation) (os : List Operation) :
    s.performAll (o :: os) = (s.perform o).2.performAll os := rfl

/-- Puts an entry in the place of another one. -/
def listing (s : Solver) (i : Nat) (e : Entry) : Solver :=
  { s with entries := s.entries.setIfInBounds i e }

/-- Equal but for counters. -/
structure Alike (s t : Solver) : Prop where
  history : s.history = t.history
  queue : s.queue = t.queue
  rootFailure : s.rootFailure = t.rootFailure
  entries : s.entries.map (fun e => (e.plan, e.lost)) = t.entries.map fun e => (e.plan, e.lost)

variable {s t : Solver} {i : Nat}

namespace Alike

theorem world (h : Alike s t) : s.world = t.world := congrArg History.current h.history

theorem domains (h : Alike s t) : s.domains = t.domains := congrArg World.domains h.world

theorem level (h : Alike s t) : s.level = t.level := congrArg History.level h.history

theorem sight (h : Alike s t) : s.sight = t.sight := by
  unfold Solver.sight
  rw [h.level, h.domains, h.world]

theorem size (h : Alike s t) : s.entries.size = t.entries.size := by
  simpa using congrArg Array.size h.entries

/-- Both solvers have an entry in a place, with the same plan and list of layers, or neither has. -/
theorem entry (h : Alike s t) (i : Nat) :
    (s.entries[i]? = none ∧ t.entries[i]? = none) ∨
      ∃ e e', s.entries[i]? = some e ∧ t.entries[i]? = some e' ∧ e.plan = e'.plan ∧
        e.lost = e'.lost := by
  have he := congrArg (·[i]?) h.entries
  simp only [Array.getElem?_map] at he
  cases hs : s.entries[i]? with
  | none => rw [hs] at he; exact Or.inl ⟨rfl, by simpa using he.symm⟩
  | some e =>
    rw [hs] at he
    cases ht : t.entries[i]? with
    | none => rw [ht] at he; cases he
    | some e' =>
      rw [ht] at he
      have he := Option.some.inj he
      rw [Prod.mk.injEq] at he
      exact Or.inr ⟨e, e', rfl, rfl, he.1, he.2⟩

theorem setDomains (h : Alike s t) (d : Domains) : Alike (s.setDomains d) (t.setDomains d) := by
  refine ⟨?_, h.queue, h.rootFailure, h.entries⟩
  unfold Solver.setDomains
  rw [h.history]

theorem lineUp (h : Alike s t) (i : Nat) : Alike (s.lineUp i) (t.lineUp i) := by
  unfold Solver.lineUp
  rw [← h.queue]
  split_ifs
  · exact h
  · exact ⟨h.history, rfl, h.rootFailure, h.entries⟩

/-- Entries with the same plan and list of layers are put in the same place. -/
theorem setEntry (h : Alike s t) (i : Nat) (e e' : Entry) (hp : e.plan = e'.plan)
    (hl : e.lost = e'.lost) :
    (s.entries.setIfInBounds i e).map (fun e => (e.plan, e.lost)) =
      (t.entries.setIfInBounds i e').map fun e => (e.plan, e.lost) := by
  rw [Array.map_setIfInBounds, Array.map_setIfInBounds, h.entries, hp, hl]

theorem announceTo (h : Alike s t) (x : Var) (i : Nat) :
    Alike (announceTo x s i) (Solver.announceTo x t i) := by
  unfold Solver.announceTo
  rcases h.entry i with ⟨hs, ht⟩ | ⟨e, e', hs, ht, hp, hl⟩
  · rw [hs, ht]
    exact h
  · rw [hs, ht]
    dsimp only
    rw [hp, h.world]
    split
    · exact h
    · rename_i layer _
      split_ifs
      · have hset := h.setEntry i { e with plan := e'.plan, lost := layer :: e.lost }
          { e' with lost := layer :: e'.lost } rfl (congrArg (layer :: ·) hl)
        have hlisted : Alike (s.listing i { e with plan := e'.plan, lost := layer :: e.lost })
            (t.listing i { e' with lost := layer :: e'.lost }) :=
          ⟨h.history, h.queue, h.rootFailure, hset⟩
        exact hlisted.lineUp i
      · exact h.lineUp i

theorem foldl {α : Type} {f : Solver → α → Solver}
    (hf : ∀ a s t, Alike s t → Alike (f s a) (f t a)) (as : List α) (h : Alike s t) :
    Alike (as.foldl f s) (as.foldl f t) := by
  induction as generalizing s t with
  | nil => exact h
  | cons a as ih => exact ih (hf a s t h)

theorem announce (h : Alike s t) : Alike s.announce t.announce := by
  have hd := h.setDomains s.domains.settle
  unfold Solver.announce
  rw [← h.domains]
  refine foldl (fun x u v huv => ?_) _ hd
  rw [huv.size]
  exact foldl (fun i a b hab => hab.announceTo x i) _ huv

theorem callDiagram (h : Alike s t) (fuel i : Nat) :
    (s.callDiagram fuel i).1 = (t.callDiagram fuel i).1 ∧
      Alike (s.callDiagram fuel i).2 (t.callDiagram fuel i).2 := by
  unfold Solver.callDiagram
  rw [h.world]
  rcases h.entry i with ⟨hs, ht⟩ | ⟨e, e', hs, ht, hp, hl⟩
  · rw [hs, ht]
    exact ⟨rfl, h⟩
  · rw [hs, ht]
    cases t.world.diagrams[i]? with
    | none => exact ⟨rfl, h⟩
    | some d =>
      dsimp only
      rw [hp, hl, h.domains]
      exact ⟨rfl, by rw [h.history], h.queue, h.rootFailure, h.setEntry i _ _ rfl rfl⟩

theorem drain (fuel : Nat) : ∀ (steps : Nat) {s t : Solver}, Alike s t →
    (drain fuel steps s).1 = (Solver.drain fuel steps t).1 ∧
      Alike (Solver.drain fuel steps s).2 (Solver.drain fuel steps t).2
  | 0, _, _, h => ⟨rfl, h⟩
  | steps + 1, s, t, h => by
    unfold Solver.drain
    rw [h.queue]
    cases hq : t.queue with
    | nil => exact ⟨rfl, h⟩
    | cons i rest =>
      have hrest : Alike { s with queue := rest } { t with queue := rest } :=
        ⟨h.history, rfl, h.rootFailure, h.entries⟩
      obtain ⟨h1, h2⟩ := hrest.callDiagram fuel i
      dsimp only
      revert h1 h2
      rcases Solver.callDiagram { s with queue := rest } fuel i with ⟨r, u⟩
      rcases Solver.callDiagram { t with queue := rest } fuel i with ⟨r', u'⟩
      intro h1 h2
      obtain rfl : r = r' := h1
      cases r with
      | none => exact drain fuel steps h2.announce
      | some f => exact ⟨rfl, h2⟩

theorem propagate (h : Alike s t) :
    s.propagate.1 = t.propagate.1 ∧ Alike s.propagate.2 t.propagate.2 := by
  unfold Solver.propagate propagateWithin
  rw [h.rootFailure]
  cases t.rootFailure with
  | some f => exact ⟨rfl, h⟩
  | none =>
    obtain ⟨h1, h2⟩ := drain allowance allowance h.announce
    dsimp only
    revert h1 h2
    rcases Solver.drain allowance allowance s.announce with ⟨r, u⟩
    rcases Solver.drain allowance allowance t.announce with ⟨r', u'⟩
    intro h1 h2
    obtain rfl : r = r' := h1
    cases r with
    | none => exact ⟨rfl, h2⟩
    | some f =>
      have hl : u.level = u'.level := h2.level
      refine ⟨rfl, h2.history, rfl, ?_, h2.entries⟩
      dsimp only
      rw [hl]

theorem addDiagram (h : Alike s t) (p : Plan) :
    (s.addDiagram p).1 = (t.addDiagram p).1 ∧ Alike (s.addDiagram p).2 (t.addDiagram p).2 := by
  unfold Solver.addDiagram
  rw [h.level, h.rootFailure, h.domains, h.size]
  split_ifs
  · exact ⟨rfl, h⟩
  · exact ⟨rfl, h⟩
  · exact ⟨rfl, h⟩
  · have hnew : Alike
        { s with
          history := s.history.modify fun w =>
            { w with diagrams := w.diagrams.push (Diagram.initial p.model) }
          entries := s.entries.push { plan := p } }
        { t with
          history := t.history.modify fun w =>
            { w with diagrams := w.diagrams.push (Diagram.initial p.model) }
          entries := t.entries.push { plan := p } } := by
      refine ⟨by rw [h.history], h.queue, h.rootFailure, ?_⟩
      rw [Array.map_push, Array.map_push, h.entries]
    obtain ⟨h1, h2⟩ := (hnew.lineUp t.entries.size).propagate
    revert h1 h2
    dsimp only
    rw [h.rootFailure]
    generalize Solver.propagate (Solver.lineUp _ _) = a
    generalize Solver.propagate (Solver.lineUp _ _) = b
    intro h1 h2
    obtain ⟨r, u⟩ := a
    obtain ⟨r', u'⟩ := b
    obtain rfl : r = r' := h1
    cases r with
    | none => exact ⟨rfl, h2⟩
    | some f => cases f <;> exact ⟨rfl, h2⟩

theorem postShared (h : Alike s t) (cs : List Constraint) (o : Options) :
    (s.postShared cs o).1 = (t.postShared cs o).1 ∧
      Alike (s.postShared cs o).2 (t.postShared cs o).2 := by
  unfold Solver.postShared
  rw [h.domains]
  split_ifs
  · exact ⟨rfl, h⟩
  · exact ⟨rfl, h⟩
  · split
    · exact ⟨rfl, h⟩
    · exact h.addDiagram _

theorem postSeparate (o : Options) : ∀ (cs : List Constraint) (posted : List Nat) {s t : Solver},
    Alike s t → (postSeparate o posted cs s).1 = (Solver.postSeparate o posted cs t).1 ∧
      Alike (Solver.postSeparate o posted cs s).2 (Solver.postSeparate o posted cs t).2
  | [], _, _, _, h => ⟨rfl, h⟩
  | c :: rest, posted, s, t, h => by
    obtain ⟨h1, h2⟩ := h.postShared [c] o
    unfold Solver.postSeparate
    revert h1 h2
    rcases Solver.postShared s [c] o with ⟨r, u⟩
    rcases Solver.postShared t [c] o with ⟨r', u'⟩
    intro h1 h2
    obtain rfl : r = r' := h1
    cases r with
    | ok i => exact postSeparate o rest (i :: posted) h2
    | error e => exact ⟨rfl, h2⟩

theorem post (h : Alike s t) (cs : List Constraint) (o : Options) :
    (s.post cs o).1 = (t.post cs o).1 ∧ Alike (s.post cs o).2 (t.post cs o).2 := by
  unfold Solver.post
  split
  · exact ⟨rfl, h⟩
  · split
    · obtain ⟨h1, h2⟩ := h.postShared cs o
      revert h1 h2
      rcases Solver.postShared s cs o with ⟨r, u⟩
      rcases Solver.postShared t cs o with ⟨r', u'⟩
      intro h1 h2
      obtain rfl : r = r' := h1
      cases r <;> exact ⟨rfl, h2⟩
    · exact postSeparate o cs [] h

theorem perform (h : Alike s t) (o : Operation) :
    (s.perform o).1 = (t.perform o).1 ∧ Alike (s.perform o).2 (t.perform o).2 := by
  cases o with
  | newVariable d =>
    unfold Solver.perform Solver.addVariable
    dsimp only
    rw [h.level, h.domains]
    split_ifs
    · exact ⟨rfl, h⟩
    · cases d with
      | none => exact ⟨rfl, h⟩
      | some d => exact ⟨rfl, h.setDomains _⟩
  | add p =>
    obtain ⟨h1, h2⟩ := h.addDiagram p
    exact ⟨congrArg Answer.diagram h1, h2⟩
  | post cs o =>
    obtain ⟨h1, h2⟩ := h.post cs o
    exact ⟨congrArg Answer.diagrams h1, h2⟩
  | restrict x keep =>
    unfold Solver.perform Solver.restrict
    dsimp only
    rw [h.domains]
    split_ifs
    · cases t.domains.restrict? x keep with
      | none => exact ⟨rfl, h⟩
      | some r => exact ⟨rfl, h.setDomains r.2⟩
    · exact ⟨rfl, h⟩
  | propagate =>
    obtain ⟨h1, h2⟩ := h.propagate
    exact ⟨congrArg Answer.propagated h1, h2⟩
  | openCheckpoint =>
    refine ⟨rfl, ?_, h.queue, h.rootFailure, h.entries⟩
    show s.history.openCheckpoint = t.history.openCheckpoint
    rw [h.history]
  | backtrack target =>
    unfold Solver.perform Solver.backtrack?
    dsimp only
    rw [h.level, h.history]
    split_ifs
    · refine ⟨rfl, rfl, rfl, h.rootFailure, ?_⟩
      have he := congrArg (Array.map fun c : Plan × List Nat => (c.1, ([] : List Nat))) h.entries
      simpa [Array.map_map, Function.comp_def] using he
    · exact ⟨rfl, h⟩

theorem trace (h : Alike s t) (os : List Operation) : s.trace os = t.trace os := by
  induction os generalizing s t with
  | nil => rfl
  | cons o os ih =>
    obtain ⟨h1, h2⟩ := h.perform o
    unfold Solver.trace
    rw [h1, h2.sight, ih h2]

theorem performAll (h : Alike s t) (os : List Operation) :
    Alike (s.performAll os) (t.performAll os) :=
  foldl (fun o _ _ h => (h.perform o).2) os h

end Alike

end Solver

end DecisionDiagrams
