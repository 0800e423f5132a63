import DecisionDiagrams.Proofs.Solver.Slender

/-! The cache of transitions is transparent. What is remembered is the result of a transition under all
that the transition reads, so a propagation does the same with the cache as without, but for the counts
of what was found in it. Two runs of a solver which differ in the use of the cache therefore give the same
answers, show the same, and count the same otherwise. -/

namespace DecisionDiagrams

open Work

/-! ### One propagation -/

/-- Two workspaces with right caches which differ in what they remember. -/
structure Twin (p : Plan) (w w' : Workspace) : Prop where
  orderly : Orderly p w
  left : w.cache.Sound p.model
  right : w'.cache.Sound p.model
  alike : ∃ cache hits misses, w' = w.recalling cache hits misses

theorem Edit.fits_recalling {p : Plan} {w : Workspace} {e : Edit} (cache : Memo) (hits misses : Nat)
    (h : e.Fits p w) : e.Fits p (w.recalling cache hits misses) := by
  cases e with
  | addNode layer states => exact ⟨h.1, h.2.sink, h.2.width⟩
  | split layer states => exact ⟨h.1, ⟨h.2.1.sink, h.2.1.width⟩, h.2.2⟩
  | _ => exact h

/-- An edit goes on as before, whatever is remembered. -/
theorem Edit.apply_recalling {p : Plan} {w : Workspace} {e : Edit} (h : e.Fits p w) (cache : Memo)
    (hits misses : Nat) : ∃ cache' hits' misses',
      e.apply (w.recalling cache hits misses) = (e.apply w).recalling cache' hits' misses' := by
  cases e with
  | tally f =>
    refine ⟨cache, hits, misses, ?_⟩
    show ({ w.recalling cache hits misses with
      counters := f { w.counters with cacheHits := hits, cacheMisses := misses } } : Workspace) = _
    rw [h.recalls]
    rfl
  | memorize c i j => exact ⟨c, i, j, rfl⟩
  | strike x v =>
    refine ⟨cache, hits, misses, ?_⟩
    unfold Edit.apply Workspace.strike
    dsimp only [Workspace.recalling]
    split <;> rfl
  | _ => exact ⟨cache, hits, misses, rfl⟩

theorem Twin.edit {p : Plan} {w w' : Workspace} (h : Twin p w w') {e : Edit} (fits : e.Fits p w) :
    Twin p (e.apply w) (e.apply w') := by
  obtain ⟨cache, hits, misses, rfl⟩ := h.alike
  exact ⟨e.orderly fits h.orderly, e.cached fits h.left, e.cached (Edit.fits_recalling _ _ _ fits) h.right,
    Edit.apply_recalling fits _ _ _⟩

/-- A transition gives the same state whether it is looked up, computed and remembered, or computed
only. -/
theorem Twin.along {p : Plan} (b : Bool) {w w' : Workspace} (h : Twin p w w') (direction : Direction)
    (layer : Nat) (n : NodeId) (values : IntSet) :
    rwp (stateAlong p direction layer n values) (stateAlong (p.caching b) direction layer n values)
      (fun _ u u' => Twin p u u' ∧ Evolves w u) (Twin p) w w' := by
  obtain ⟨cache, hits, misses, rfl⟩ := h.alike
  let recalls : Workspace → Prop := fun u =>
    u.cache.Sound p.model ∧ ∃ cache hits misses, u = w.recalling cache hits misses
  have left := remembers_stateAlong (Q := recalls) direction layer n values h.left
    fun cache hits misses sound => ⟨sound, cache, hits, misses, rfl⟩
  have right := remembers_stateAlong (p := p.caching b) (Q := recalls) direction layer n values h.right
    fun cache hits misses sound => ⟨sound, cache, hits, misses, rfl⟩
  have twin : ∀ {u u'}, recalls u → recalls u' → Twin p u u' ∧ Evolves w u := by
    rintro _ _ ⟨sound, cache, hits, misses, rfl⟩ ⟨sound', cache', hits', misses', rfl⟩
    have fits : (Edit.memorize cache hits misses).Fits p w := sound
    exact ⟨⟨Edit.orderly fits h.orderly, sound, sound', cache', hits', misses', rfl⟩, Edit.evolves fits h.orderly⟩
  have same := computes_stateAlong h.left direction layer n values
  have same' := computes_stateAlong (p := p.caching b) h.right direction layer n values
  -- both transitions give what the rules give
  unfold Computes wp at same same'
  unfold wp at left right
  unfold rwp
  cases hx : stateAlong p direction layer n values w <;>
    cases hy : stateAlong (p.caching b) direction layer n values (w.recalling cache hits misses) <;>
    rw [hx] at left same <;> rw [hy] at right same'
  · exact ⟨Except.ok.inj (same.2.symm.trans same'.2), twin left right⟩
  · obtain ⟨_, f, -, hf⟩ := same'
    exact absurd (same.2.symm.trans hf) (by simp)
  · obtain ⟨_, f, -, hf⟩ := same
    exact absurd (hf.symm.trans same'.2) (by simp)
  · obtain ⟨_, f, rfl, hf⟩ := same
    obtain ⟨_, f', rfl, hf'⟩ := same'
    obtain rfl := Except.error.inj (hf.symm.trans hf')
    exact ⟨rfl, (twin left right).1⟩

theorem Twin.bond (p : Plan) (b : Bool) (kind : Edit.Kind) : Bond.Also p b kind (Twin p) where
  alike h := h.alike
  orderly h := h.orderly
  cached h := h.left
  calm _ _ fits h := h.edit fits
  edit _ _ fits h := h.edit fits
  along direction layer n values h := h.along b direction layer n values

theorem Twin.begins {p : Plan} {d : Diagram} (h : d.Held p) (b : Bool) (t : Domains) :
    Begins p b (Twin p) (d.workspace p t) := by
  have leads : ∀ {u u'}, Twin p u u' → Leads p b (Twin p) u u' := fun k =>
    ⟨_, Twin.bond p b .refining, k, fun _ _ k => k⟩
  have twin : Twin p (d.workspace p t) (d.workspace p t) :=
    ⟨h.orderly t, Memo.sound_empty _, Memo.sound_empty _, {}, 0, 0, rfl⟩
  have marked : (Edit.markBuilt).Fits p (d.workspace p t) := trivial
  exact ⟨fun _ => leads twin, fun fresh => ⟨fun l _ => h.bare fresh l, _, Twin.bond p b .building, twin.edit marked,
    fun _ _ => leads⟩⟩

/-- What is counted besides the use of the cache. -/
def Counters.besidesCache (c : Counters) : Counters := { c with cacheHits := 0, cacheMisses := 0 }

theorem Counters.besidesCache_add (a b : Counters) :
    (a.add b).besidesCache = a.besidesCache.add b.besidesCache := rfl

/-- The use of the cache changes neither how a propagation ends nor what it leaves behind, counters of
the cache apart. -/
structure Propagated.Same (r r' : Propagated) : Prop where
  stop : r.stop = r'.stop
  diagram : r.diagram = r'.diagram
  domains : r.domains = r'.domains
  counters : r.counters.besidesCache = r'.counters.besidesCache

theorem Diagram.Held.same_propagate {p : Plan} {d : Diagram} (h : d.Held p) (b : Bool) (fuel : Nat)
    (lost : List Nat) (t : Domains) :
    (d.propagate p fuel lost t).Same (d.propagate (p.caching b) fuel lost t) := by
  have run := rwp_maintain fuel lost (Twin.begins h b t)
  unfold rwp at run
  cases hx : p.maintain fuel lost (d.workspace p t) <;>
    cases hy : (p.caching b).maintain fuel lost (d.workspace p t) <;> rw [hx, hy] at run
  · rw [Diagram.propagate_of_ok hx, Diagram.propagate_of_ok hy]
    obtain ⟨-, -, -, -, cache, hits, misses, rfl⟩ := run
    exact ⟨rfl, rfl, rfl, rfl⟩
  · exact run.elim
  · exact run.elim
  · rw [Diagram.propagate_of_error hx, Diagram.propagate_of_error hy]
    obtain ⟨rfl, -, -, -, cache, hits, misses, rfl⟩ := run
    exact ⟨rfl, rfl, rfl, rfl⟩

/-! ### A solver -/

/-- An entry without what depends on the use of the cache. -/
def Entry.uncached (e : Entry) : Entry :=
  { plan := e.plan.caching false
    lost := e.lost
    last := e.last.besidesCache
    total := e.total.besidesCache }

/-- The operation with diagrams which use the cache or do not. -/
def Operation.caching (b : Bool) : Operation → Operation
  | .add p => .add (p.caching b)
  | .post cs o => .post cs { o with useCache := b }
  | .newVariable d => .newVariable d
  | .restrict x keep => .restrict x keep
  | .propagate => .propagate
  | .openCheckpoint => .openCheckpoint
  | .backtrack target => .backtrack target

/-- What is counted besides the use of the cache: in the solver, and for each diagram in its last
propagation and in all of them. -/
structure Account where
  solver : SolverCounters
  diagrams : List (Counters × Counters)

namespace Solver

def account (s : Solver) : Account where
  solver := s.counters
  diagrams := s.entries.toList.map fun e => (e.last.besidesCache, e.total.besidesCache)

/-- What operations answer, and what is seen and counted after each of them. -/
def chronicle : Solver → List Operation → List (Answer × Sight × Account)
  | _, [] => []
  | s, o :: os =>
    ((s.perform o).1, (s.perform o).2.sight, (s.perform o).2.account) :: (s.perform o).2.chronicle os

/-- The solver without what depends on the use of the cache. -/
def uncached (s : Solver) : Solver := { s with entries := s.entries.map Entry.uncached }

variable {s t : Solver}

theorem uncached_lineUp (s : Solver) (i : Nat) : (s.lineUp i).uncached = s.uncached.lineUp i := by
  unfold lineUp
  exact apply_ite uncached _ _ _

theorem uncached_announceTo (x : Var) (s : Solver) (i : Nat) :
    announceTo x s.uncached i = (announceTo x s i).uncached := by
  have entry : s.uncached.entries[i]? = (s.entries[i]?).map Entry.uncached := Array.getElem?_map
  unfold announceTo
  rw [entry]
  cases s.entries[i]? with
  | none => rfl
  | some e =>
    dsimp only [Option.map_some]
    rw [show e.uncached.plan.model.branchVars = e.plan.model.branchVars from rfl]
    cases e.plan.model.branchVars.idxOf? x with
    | none => rfl
    | some layer =>
      dsimp only
      rw [uncached_lineUp, show s.uncached.world = s.world from rfl]
      split_ifs
      · unfold uncached
        dsimp only
        rw [Array.map_setIfInBounds]
        rfl
      · rfl

/-- What diagrams are told does not depend on the cache. -/
theorem uncached_announce (s : Solver) : s.announce.uncached = s.uncached.announce := by
  have all : ∀ (x : Var) (u : Solver), (List.range u.entries.size).foldl (announceTo x) u.uncached =
      ((List.range u.entries.size).foldl (announceTo x) u).uncached :=
    fun x u => List.foldl_hom uncached fun u i => uncached_announceTo x u i
  have size : ∀ u : Solver, u.uncached.entries.size = u.entries.size := fun u => Array.size_map
  unfold announce
  refine (List.foldl_hom uncached fun u x => ?_).symm
  rw [size]
  exact all x u

/-- Two solvers which differ in the use of the cache only. -/
structure Akin (s t : Solver) : Prop where
  same : s.uncached = t.uncached
  left : Everywhere (fun p d => d.Held p) s
  right : Everywhere (fun p d => d.Held p) t

namespace Akin

theorem history (h : Akin s t) : s.history = t.history := (congrArg Solver.history h.same :)

theorem queue (h : Akin s t) : s.queue = t.queue := (congrArg Solver.queue h.same :)

theorem rootFailure (h : Akin s t) : s.rootFailure = t.rootFailure :=
  (congrArg Solver.rootFailure h.same :)

theorem counters (h : Akin s t) : s.counters = t.counters := (congrArg Solver.counters h.same :)

theorem world (h : Akin s t) : s.world = t.world := congrArg History.current h.history

theorem domains (h : Akin s t) : s.domains = t.domains := congrArg World.domains h.world

theorem level (h : Akin s t) : s.level = t.level := congrArg History.level h.history

theorem entries (h : Akin s t) : s.entries.map Entry.uncached = t.entries.map Entry.uncached :=
  congrArg Solver.entries h.same

theorem size (h : Akin s t) : s.entries.size = t.entries.size := by
  simpa using congrArg Array.size h.entries

theorem sight (h : Akin s t) : s.sight = t.sight := by
  unfold Solver.sight
  rw [h.level, h.domains, h.world]

theorem account (h : Akin s t) : s.account = t.account := by
  have he := congrArg (fun es => es.toList.map fun e => (e.last, e.total)) h.entries
  simp only [Array.toList_map, List.map_map] at he
  unfold Solver.account
  rw [h.counters]
  exact congrArg _ he

/-- Both solvers have an entry in a place, the same but for the cache, or neither has. -/
theorem entry (h : Akin s t) (i : Nat) :
    (s.entries[i]? = none ∧ t.entries[i]? = none) ∨
      ∃ e e', s.entries[i]? = some e ∧ t.entries[i]? = some e' ∧ e.uncached = e'.uncached := by
  have he := congrArg (·[i]?) h.entries
  simp only [Array.getElem?_map] at he
  cases hs : s.entries[i]? <;> cases ht : t.entries[i]? <;> rw [hs, ht] at he
  · exact Or.inl ⟨rfl, rfl⟩
  · cases he
  · cases he
  · exact Or.inr ⟨_, _, rfl, rfl, Option.some.inj he⟩

theorem announce (h : Akin s t) : Akin s.announce t.announce :=
  ⟨by rw [uncached_announce, uncached_announce, h.same], h.left.announce, h.right.announce⟩

theorem dequeue (h : Akin s t) (rest : List Nat) : Akin (s.dequeue rest) (t.dequeue rest) :=
  ⟨congrArg (Solver.dequeue · rest) h.same, h.left.congr rfl rfl rfl fun _ => rfl,
    h.right.congr rfl rfl rfl fun _ => rfl⟩

theorem callDiagram (h : Akin s t) (fuel i : Nat) :
    (s.callDiagram fuel i).1 = (t.callDiagram fuel i).1 ∧
      Akin (s.callDiagram fuel i).2 (t.callDiagram fuel i).2 := by
  suffices both : (s.callDiagram fuel i).1 = (t.callDiagram fuel i).1 ∧
      (s.callDiagram fuel i).2.uncached = (t.callDiagram fuel i).2.uncached from
    ⟨both.1, both.2, h.left.callDiagram Diagram.endures_held fuel i,
      h.right.callDiagram Diagram.endures_held fuel i⟩
  have hs := h.left.holds i
  have ht := h.right.holds i
  unfold planAt at hs ht
  unfold Solver.callDiagram
  rw [h.world]
  rcases h.entry i with ⟨e₁, e₂⟩ | ⟨e, e', e₁, e₂, he⟩
  · rw [e₁, e₂]
    exact ⟨rfl, h.same⟩
  · rw [e₁] at hs ⊢
    rw [e₂] at ht ⊢
    cases hd : t.world.diagrams[i]? with
    | none => exact ⟨rfl, h.same⟩
    | some d =>
      dsimp only
      have left := (hs e.plan rfl _ (Or.inl rfl) d (h.world ▸ hd)).same_propagate false fuel e.lost t.domains
      have right := (ht e'.plan rfl _ (Or.inl rfl) d hd).same_propagate false fuel e'.lost t.domains
      have plan : e.plan.caching false = e'.plan.caching false := (congrArg Entry.plan he :)
      have lost : e.lost = e'.lost := (congrArg Entry.lost he :)
      have total : e.total.besidesCache = e'.total.besidesCache := (congrArg Entry.total he :)
      rw [plan, lost] at left
      rw [h.domains, lost]
      generalize d.propagate e.plan fuel e'.lost t.domains = r at left ⊢
      generalize d.propagate e'.plan fuel e'.lost t.domains = r' at right ⊢
      have stop : r.stop = r'.stop := left.stop.trans right.stop.symm
      have counters : r.counters.besidesCache = r'.counters.besidesCache :=
        left.counters.trans right.counters.symm
      have called : Entry.uncached { e with lost := [], last := r.counters, total := e.total.add r.counters } =
          Entry.uncached { e' with lost := [], last := r'.counters, total := e'.total.add r'.counters } := by
        unfold Entry.uncached
        dsimp only
        rw [plan, counters, Counters.besidesCache_add, Counters.besidesCache_add, total, counters]
      refine ⟨by rw [stop], ?_⟩
      unfold uncached
      dsimp only
      rw [Array.map_setIfInBounds, Array.map_setIfInBounds, h.entries, h.history, h.queue,
        h.rootFailure, h.counters, left.domains.trans right.domains.symm,
        left.diagram.trans right.diagram.symm, called]

theorem drain (fuel : Nat) : ∀ (steps : Nat) {s t : Solver}, Akin s t →
    (drain fuel steps s).1 = (Solver.drain fuel steps t).1 ∧
      Akin (Solver.drain fuel steps s).2 (Solver.drain fuel steps t).2
  | 0, _, _, h => ⟨rfl, h⟩
  | steps + 1, s, t, h => by
    unfold Solver.drain
    rw [h.queue]
    cases hq : t.queue with
    | nil => exact ⟨rfl, h⟩
    | cons i rest =>
      obtain ⟨h1, h2⟩ := (h.dequeue rest).callDiagram fuel i
      unfold Solver.dequeue at h1 h2
      dsimp only
      revert h1 h2
      rcases Solver.callDiagram { s with queue := rest } fuel i with ⟨r, u⟩
      rcases Solver.callDiagram { t with queue := rest } fuel i with ⟨r', u'⟩
      intro h1 h2
      obtain rfl : r = r' := h1
      cases r with
      | none => exact drain fuel steps h2.announce
      | some f => exact ⟨rfl, h2⟩

theorem propagate (h : Akin s t) :
    s.propagate.1 = t.propagate.1 ∧ Akin s.propagate.2 t.propagate.2 := by
  unfold Solver.propagate propagateWithin
  rw [h.rootFailure]
  cases t.rootFailure with
  | some f => exact ⟨rfl, h⟩
  | none =>
    obtain ⟨h1, h2⟩ := drain allowance allowance h.announce
    dsimp only
    revert h1 h2
    rcases Solver.drain allowance allowance s.announce with ⟨r, u⟩
    rcases Solver.drain allowance allowance t.announce with ⟨r', u'⟩
    intro h1 h2
    obtain rfl : r = r' := h1
    cases r with
    | none => exact ⟨rfl, h2⟩
    | some f =>
      refine ⟨rfl, ?_, h2.left.congr rfl rfl rfl fun _ => rfl, h2.right.congr rfl rfl rfl fun _ => rfl⟩
      unfold uncached
      dsimp only
      rw [h2.history, h2.entries, h2.level, h2.counters]

theorem enrol (h : Akin s t) {p q : Plan} (hp : p.caching false = q.caching false) (admits : s.Admits p) :
    Akin (s.enrol p) (t.enrol q) := by
  have model : p.model = q.model := (congrArg Plan.model hp :)
  have admits' : t.Admits q :=
    ⟨h.level ▸ admits.level, h.rootFailure ▸ admits.rootFailure, by
      rw [← h.domains, ← model]; exact admits.known⟩
  refine ⟨?_, h.left.enrol Diagram.endures_held admits, h.right.enrol Diagram.endures_held admits'⟩
  have lined : (s.lineUp s.entries.size).queue = (t.lineUp t.entries.size).queue := by
    have := congrArg (Solver.queue ∘ (Solver.lineUp · t.entries.size)) h.same
    simp only [Function.comp_apply, ← uncached_lineUp] at this
    rw [h.size]
    exact this
  unfold uncached Solver.enrol
  dsimp only
  have new : Entry.uncached { plan := p } = Entry.uncached { plan := q } := by
    unfold Entry.uncached
    rw [hp]
  rw [Array.map_push, Array.map_push, h.entries, h.history, h.rootFailure, h.counters, lined, model, new]

theorem addDiagram (h : Akin s t) {p q : Plan} (hp : p.caching false = q.caching false) :
    (s.addDiagram p).1 = (t.addDiagram q).1 ∧ Akin (s.addDiagram p).2 (t.addDiagram q).2 := by
  have model : p.model = q.model := (congrArg Plan.model hp :)
  unfold Solver.addDiagram
  dsimp only
  rw [lineUp_push, lineUp_push, h.level, h.rootFailure, h.domains, h.size, model]
  split_ifs with hl hf hk
  · exact ⟨rfl, h⟩
  · exact ⟨rfl, h⟩
  · exact ⟨rfl, h⟩
  · have admits : s.Admits p := by
      refine ⟨h.level ▸ not_not.1 hl, h.rootFailure ▸ by simpa using hf, fun l hl => ?_⟩
      rw [h.domains, model]
      exact Model.var_lt_of_all hk (model ▸ hl)
    obtain ⟨h1, h2⟩ := (h.enrol hp admits).propagate
    revert h1 h2
    rcases Solver.propagate (s.enrol p) with ⟨r, u⟩
    rcases Solver.propagate (t.enrol q) with ⟨r', u'⟩
    intro h1 h2
    obtain rfl : r = r' := h1
    cases r with
    | none => exact ⟨rfl, h2⟩
    | some f => cases f <;> exact ⟨rfl, h2⟩

theorem postShared (h : Akin s t) (cs : List Constraint) {o o' : Options}
    (ho : { o with useCache := false } = { o' with useCache := false }) :
    (s.postShared cs o).1 = (t.postShared cs o').1 ∧
      Akin (s.postShared cs o).2 (t.postShared cs o').2 := by
  have valid : o.isValid = o'.isValid := (congrArg Options.isValid ho :)
  unfold Solver.postShared
  rw [h.domains, valid]
  split_ifs
  · exact ⟨rfl, h⟩
  · exact ⟨rfl, h⟩
  · split
    · exact ⟨rfl, h⟩
    · rename_i m _
      exact h.addDiagram (congrArg (fun o : Options => ({ model := m, options := o } : Plan)) ho)

theorem postSeparate {o o' : Options} (ho : { o with useCache := false } = { o' with useCache := false }) :
    ∀ (cs : List Constraint) (posted : List Nat) {s t : Solver}, Akin s t →
      (postSeparate o posted cs s).1 = (Solver.postSeparate o' posted cs t).1 ∧
        Akin (Solver.postSeparate o posted cs s).2 (Solver.postSeparate o' posted cs t).2
  | [], _, _, _, h => ⟨rfl, h⟩
  | c :: rest, posted, s, t, h => by
    obtain ⟨h1, h2⟩ := h.postShared [c] ho
    unfold Solver.postSeparate
    revert h1 h2
    rcases Solver.postShared s [c] o with ⟨r, u⟩
    rcases Solver.postShared t [c] o' with ⟨r', u'⟩
    intro h1 h2
    obtain rfl : r = r' := h1
    cases r with
    | ok i => exact postSeparate ho rest (i :: posted) h2
    | error e => exact ⟨rfl, h2⟩

theorem post (h : Akin s t) (cs : List Constraint) {o o' : Options}
    (ho : { o with useCache := false } = { o' with useCache := false }) :
    (s.post cs o).1 = (t.post cs o').1 ∧ Akin (s.post cs o).2 (t.post cs o').2 := by
  have sharing : o.sharing = o'.sharing := (congrArg Options.sharing ho :)
  unfold Solver.post
  rw [sharing]
  split
  · exact ⟨rfl, h⟩
  · split
    · obtain ⟨h1, h2⟩ := h.postShared cs ho
      revert h1 h2
      rcases Solver.postShared s cs o with ⟨r, u⟩
      rcases Solver.postShared t cs o' with ⟨r', u'⟩
      intro h1 h2
      obtain rfl : r = r' := h1
      cases r <;> exact ⟨rfl, h2⟩
    · exact postSeparate ho cs [] h

/-- An operation which does the same whatever is left out of the entries. -/
theorem of_commutes {f : Solver → Answer × Solver} (h : Akin s t)
    (hf : ∀ u, f u.uncached = ((f u).1, (f u).2.uncached))
    (left : Everywhere (fun p d => d.Held p) (f s).2) (right : Everywhere (fun p d => d.Held p) (f t).2) :
    (f s).1 = (f t).1 ∧ Akin (f s).2 (f t).2 := by
  have e := (hf s).symm.trans ((congrArg f h.same).trans (hf t))
  exact ⟨(Prod.mk.inj e).1, (Prod.mk.inj e).2, left, right⟩

theorem perform (h : Akin s t) (o : Operation) (b : Bool) :
    (s.perform o).1 = (t.perform (o.caching b)).1 ∧
      Akin (s.perform o).2 (t.perform (o.caching b)).2 := by
  have left := h.left.perform Diagram.endures_held o
  have right := h.right.perform Diagram.endures_held (o.caching b)
  cases o with
  | newVariable d =>
    refine h.of_commutes (f := (·.perform (.newVariable d))) (fun u => ?_) left right
    unfold Solver.perform Solver.addVariable
    dsimp only
    rw [show u.uncached.level = u.level from rfl]
    split_ifs
    · rfl
    · cases d <;> rfl
  | add p =>
    obtain ⟨h1, h2⟩ := h.addDiagram (p := p) (q := p.caching b) rfl
    exact ⟨congrArg Answer.diagram h1, h2⟩
  | post cs o =>
    have options : { o with useCache := false } = { { o with useCache := b } with useCache := false } := rfl
    obtain ⟨h1, h2⟩ := h.post cs options
    exact ⟨congrArg Answer.diagrams h1, h2⟩
  | restrict x keep =>
    refine h.of_commutes (f := (·.perform (.restrict x keep))) (fun u => ?_) left right
    unfold Solver.perform Solver.restrict
    dsimp only
    rw [show u.uncached.domains = u.domains from rfl]
    split_ifs
    · cases u.domains.restrict? x keep <;> rfl
    · rfl
  | propagate =>
    obtain ⟨h1, h2⟩ := h.propagate
    exact ⟨congrArg Answer.propagated h1, h2⟩
  | openCheckpoint => exact h.of_commutes (f := (·.perform .openCheckpoint)) (fun _ => rfl) left right
  | backtrack target =>
    refine h.of_commutes (f := (·.perform (.backtrack target))) (fun u => ?_) left right
    unfold Solver.perform Solver.backtrack?
    dsimp only
    rw [show u.uncached.level = u.level from rfl]
    split_ifs
    · unfold uncached
      dsimp only
      rw [Array.map_map, Array.map_map]
      rfl
    · rfl

theorem chronicle (b : Bool) (os : List Operation) (h : Akin s t) :
    s.chronicle os = t.chronicle (os.map (.caching b)) := by
  induction os generalizing s t with
  | nil => rfl
  | cons o os ih =>
    obtain ⟨h1, h2⟩ := h.perform o b
    rw [List.map_cons]
    unfold Solver.chronicle
    rw [h1, h2.sight, h2.account, ih h2]

end Akin

/-- Whether transitions are remembered cannot be told from what the operations of a solver answer, nor from
what is seen of its domains and diagrams, nor from any count but those of the cache. -/
theorem chronicle_caching (os : List Operation) :
    ({} : Solver).chronicle (os.map (.caching true)) =
      ({} : Solver).chronicle (os.map (.caching false)) := by
  have held := Arises.start.everywhere Diagram.endures_held
  have same : ∀ o : Operation, (o.caching true).caching false = o.caching false := by
    intro o
    cases o <;> rfl
  rw [Akin.chronicle false (os.map (.caching true)) ⟨rfl, held, held⟩, List.map_map]
  exact congrArg _ (List.map_congr_left fun o _ => same o)

end Solver

end DecisionDiagrams
