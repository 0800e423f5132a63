import DecisionDiagrams.Proofs.Solver.Excursions
import DecisionDiagrams.Proofs.Stored.Commands

/-! Going back in a stored solver. Domains, support counts and graphs are undone from three journals, of which those
of the graphs are aligned late and end in the middle of what a failing propagation did. They meet in the state which
there was when the checkpoint was opened, and nothing that follows can tell that it was left. -/

namespace DecisionDiagrams

/-- The same bounds, number of values and holes. -/
structure Bitmap.Agrees (b b' : Bitmap) : Prop where
  lower : b.lower = b'.lower
  upper : b.upper = b'.upper
  size : b.size = b'.size
  contains : ∀ v, b.contains v = b'.contains v

theorem Bitmap.Represents.agrees {b b' : Bitmap} {D : Finset ℤ} (h : b.Represents D) (h' : b'.Represents D) :
    b.Agrees b' where
  lower := h.depicts.least.unique h'.depicts.least
  upper := h.depicts.greatest.unique h'.depicts.greatest
  size := h.size.trans h'.size.symm
  contains v := by rw [Bool.eq_iff_iff, h.contains, h'.contains]

/-- The same graph down to the slots and the order in all lists, and the same support counts in the cells. -/
structure StoredDiagram.Agrees (c c' : Cells) (d d' : StoredDiagram) : Prop where
  plan : d.plan = d'.plan
  graph : d.arena.graph.Agrees d'.arena.graph
  count : ∀ layer v, d.count c layer v = d'.count c' layer v
  built : d.builtAt.isSome = d'.builtAt.isSome
  upKnown : d.upKnown = d'.upKnown

/-- The same checkpoint, domains and diagrams. -/
structure StoredSolver.Agrees (s t : StoredSolver) : Prop where
  level : s.level = t.level
  domains : List.Forall₂ Bitmap.Agrees s.store.domains.toList t.store.domains.toList
  diagrams : List.Forall₂ (StoredDiagram.Agrees s.cells t.cells) s.diagrams.toList t.diagrams.toList

/-- Whether a command does not go back to the checkpoint `level` or below it. -/
def Command.StaysAbove (level : ℕ) : Command → Prop
  | .backtrack target => level < target
  | _ => True

/-- Commands which change no domain but by propagation and by going back. -/
def Command.KeepsDomains : Command → Prop
  | .propagate | .openCheckpoint | .backtrack _ => True
  | _ => False

theorem Command.StaysAbove.operation {level : ℕ} {c : Command} (h : c.StaysAbove level) :
    c.operation.StaysAbove level := by
  cases c with
  | backtrack => exact h
  | _ => trivial

theorem staysAbove_operation {level : ℕ} {cs : List Command} (h : ∀ c ∈ cs, c.StaysAbove level) :
    ∀ q ∈ cs.map Command.operation, q.StaysAbove level := by
  intro q hq
  obtain ⟨c, hc, rfl⟩ := List.mem_map.1 hq
  exact (h c hc).operation

theorem Command.KeepsDomains.operation {c : Command} (h : c.KeepsDomains) : c.operation.KeepsDomains := by
  cases c with
  | propagate | openCheckpoint | backtrack => trivial
  | _ => exact h

theorem Solver.Alike.planAt {s t : Solver} (h : Solver.Alike s t) (i : ℕ) : s.planAt i = t.planAt i := by
  unfold Solver.planAt
  rcases h.entry i with ⟨he, he'⟩ | ⟨e, e', he, he', plan, -⟩
  · rw [he, he']
  · rw [he, he', Option.map_some, Option.map_some, plan]

theorem drawn_empty (W : History World) (spans : Array (ℤ × ℕ)) (H : History (Array ℤ)) : Drawn #[] #[] W spans H := by
  have none : ∀ (i : ℕ) (d : StoredDiagram), (#[] : Array StoredDiagram)[i]? ≠ some d := by simp
  exact ⟨rfl, fun i d _ hd => absurd hd (none i d), fun i _ d _ _ hd => absurd hd (none i d),
    fun i d hd => absurd hd (none i d)⟩

namespace StoredSolver

variable {s t : StoredSolver} {o u : Solver}

/-- Every propagation which fails is followed by going back to an earlier checkpoint. -/
def GoesBack : StoredSolver → List Command → Prop
  | _, [] => True
  | s, c :: cs =>
    (c = .propagate → ∀ f t, s.propagate = some (some f, t) →
      ∃ target rest, cs = .backtrack target :: rest ∧ target < s.level) ∧
    ∀ a t, s.perform c = some (a, t) → t.GoesBack cs

theorem mirrors_empty : Mirrors {} {} where
  sound := Solver.Arises.start.everywhere Diagram.endures_sound
  store := Store.follows_empty
  drawn := ⟨_, Cells.mirrors_empty, rfl, drawn_empty _ _ _⟩
  queue := rfl
  rootFailure := rfl
  counters := rfl

namespace Mirrors

theorem goesBack {cs : List Command} (m : s.Mirrors o) (h : s.GoesBack cs) :
    o.GoesBack (cs.map Command.operation) := by
  induction cs generalizing s o with
  | nil => trivial
  | cons c cs ih =>
    obtain ⟨t, done, mt⟩ := m.perform c
    refine ⟨fun asked failed => ?_, ih mt (h.2 _ t done)⟩
    obtain ⟨t, propagated, -⟩ := m.propagate
    obtain ⟨f, hf⟩ := Option.ne_none_iff_exists'.1 failed
    have asked : c = .propagate := by cases c <;> first | rfl | cases asked
    obtain ⟨target, rest, rfl, lt⟩ := h.1 asked f t (hf ▸ propagated)
    exact ⟨target, _, rfl, m.level ▸ lt⟩

/-- Solvers which mirror the same domains and diagrams agree. -/
theorem agrees (m : s.Mirrors o) (k : t.Mirrors u) (level : o.level = u.level)
    (domains : o.domains.domains = u.domains.domains) (diagrams : o.world.diagrams = u.world.diagrams)
    (plans : ∀ i, o.planAt i = u.planAt i) : s.Agrees t := by
  have size : s.store.domains.size = t.store.domains.size :=
    m.store.size.trans ((congrArg Array.size domains).trans k.store.size.symm)
  have count : s.diagrams.size = t.diagrams.size := by
    rw [m.size, k.size, ← m.sound.paired _ (Or.inl rfl), ← k.sound.paired _ (Or.inl rfl), diagrams]
  refine ⟨m.level.trans (level.trans k.level.symm), List.forall₂_iff_get.2 ⟨size, fun x hx hx' => ?_⟩,
    List.forall₂_iff_get.2 ⟨count, fun i hi hi' => ?_⟩⟩
  · have hd : o.domains.domains[x]? = some _ := Array.getElem?_eq_getElem (hx.trans_eq m.store.size)
    obtain ⟨b, D, hb, represents, lists⟩ := m.store.both hd
    have hd' : u.ranges.current.domains[x]? = some _ := (congrArg (·[x]?) domains).symm.trans hd
    obtain ⟨b', D', hb', represents', lists'⟩ := k.store.both hd'
    obtain ⟨_, rfl⟩ := Array.getElem?_eq_some_iff.1 hb
    obtain ⟨_, rfl⟩ := Array.getElem?_eq_some_iff.1 hb'
    obtain rfl : D = D' := Finset.ext fun v => (lists v).symm.trans (lists' v)
    exact represents.agrees represents'
  · have hd : s.diagrams[i]? = some _ := Array.getElem?_eq_getElem hi
    have hd' : t.diagrams[i]? = some _ := Array.getElem?_eq_getElem hi'
    obtain ⟨D, hD, plan, -, shows, whole, counted⟩ := m.draws hd
    obtain ⟨D', hD', plan', -, shows', whole', counted'⟩ := k.draws hd'
    obtain rfl : D = D' := Option.some.inj (hD.symm.trans ((congrArg (·[i]?) diagrams).trans hD'))
    have same := whole.trans whole'.symm
    exact ⟨Option.some.inj (plan.symm.trans ((plans i).trans plan')), shows.agrees.trans shows'.agrees.symm,
      fun l v => (counted l v).trans (counted' l v).symm, congrArg Diagram.built same, congrArg Diagram.upKnown same⟩

end Mirrors

/-- Going back to a checkpoint is an inverse. From every state which commands lead to, whatever is done above the
checkpoint which is opened there, going back finds everything which is needed for it and brings back the domains,
the support counts and the graphs. -/
theorem agrees_backtrack (before : List Command) :
    ∃ s, performAll {} before = some s ∧ ∀ excursion : List Command, (∀ c ∈ excursion, c.StaysAbove s.level) →
      ∃ t, s.performAll (.openCheckpoint :: excursion ++ [.backtrack s.level]) = some t ∧ t.Agrees s := by
  obtain ⟨s, run, m⟩ := mirrors_empty.performAll before
  refine ⟨s, run, fun excursion stays => ?_⟩
  generalize Solver.performAll {} (before.map Command.operation) = o at m
  obtain ⟨t, done, mt⟩ := m.performAll (.openCheckpoint :: excursion ++ [.backtrack s.level])
  refine ⟨t, done, ?_⟩
  have above : Solver.Above o (o.openCheckpoint.performAll (excursion.map Command.operation)) :=
    (Solver.above_openCheckpoint o).performAll (m.level ▸ staysAbove_operation stays)
  obtain ⟨u, back, history, -, -, -, -, plan⟩ := above.backtrack
  have there : o.performAll ((Command.openCheckpoint :: excursion ++ [Command.backtrack s.level]).map
      Command.operation) = u := by
    rw [List.map_append, Solver.performAll_append, m.level]
    show (Solver.perform (o.openCheckpoint.performAll _) (Operation.backtrack o.level)).2 = u
    unfold Solver.perform
    dsimp only
    rw [back]
  rw [there] at mt
  refine mt.agrees m ?_ ?_ ?_ plan
  · rw [Solver.level, history]
    rfl
  · rw [Solver.domains, Solver.world, history]
    rfl
  · rw [Solver.world, history]
    rfl

/-! Three variables in 1, 2 and 3 which take different values, in a diagram of width 2. The excursion gives two of them
the same value, which fails, goes back, and fixes them one after the other. -/
namespace Detour

def before : List Command :=
  [.create (.range 1 3), .create (.range 1 3), .create (.range 1 3), .post [.allDifferent [0, 1, 2]] (Options.relaxed 2)]

def excursion : List Command :=
  [.openCheckpoint, .restrict 0 (.assign 1), .restrict 1 (.assign 1), .propagate, .backtrack 2,
    .restrict 0 (.remove 3), .propagate, .restrict 1 (.assign 2), .propagate]

def after : List Command := [.restrict 1 (.assign 1), .propagate]

theorem staysAbove : ∀ c ∈ excursion, c.StaysAbove 1 := by
  simp [excursion, Command.StaysAbove]

end Detour

theorem agrees_backtrack_detour :
    ∃ s, performAll {} (Detour.before ++ [.openCheckpoint]) = some s ∧ s.level = 1 ∧
      (∀ c ∈ Detour.excursion, c.StaysAbove s.level) ∧
      ∃ t, s.performAll (.openCheckpoint :: Detour.excursion ++ [.backtrack s.level]) = some t ∧ t.Agrees s := by
  have levels : (performAll {} (Detour.before ++ [.openCheckpoint])).map level = some 1 := by decide +kernel
  obtain ⟨s, run, inverse⟩ := agrees_backtrack (Detour.before ++ [.openCheckpoint])
  rw [run] at levels
  have level := Option.some.inj levels
  have stays : ∀ c ∈ Detour.excursion, c.StaysAbove s.level := level ▸ Detour.staysAbove
  exact ⟨s, run, level, stays, inverse _ stays⟩

/-- An excursion above a checkpoint which was opened after a propagation with success, before any other change of the
domains, leaves no trace: what follows is answered and shown as if the excursion had not been made, although slots
were handed out and given back, and in the end the solvers agree. -/
theorem excursion_traceless {before quiet excursion after : List Command} {s s' here : StoredSolver}
    (reached : performAll {} before = some s) (propagated : s.propagate = some (none, s'))
    (rested : s'.performAll quiet = some here) (back : GoesBack {} (before ++ .propagate :: quiet))
    (keeps : ∀ c ∈ quiet, c.KeepsDomains) (stays : ∀ c ∈ excursion, c.StaysAbove here.level) :
    ∃ there, here.performAll (.openCheckpoint :: excursion ++ [.backtrack here.level]) = some there ∧
      there.sight = here.sight ∧
      (∃ results, there.trace after = some results ∧ here.trace after = some results) ∧
      ∃ t u, there.performAll after = some t ∧ here.performAll after = some u ∧ t.Agrees u := by
  obtain ⟨s₁, run, m₁⟩ := mirrors_empty.performAll before
  obtain rfl := Option.some.inj (run.symm.trans reached)
  obtain ⟨s₂, done, m₂⟩ := m₁.propagate
  obtain ⟨success, rfl⟩ := Prod.mk.inj (Option.some.inj (done.symm.trans propagated))
  obtain ⟨s₃, run', m⟩ := m₂.performAll quiet
  obtain rfl := Option.some.inj (run'.symm.trans rested)
  obtain ⟨there, gone, mt⟩ := m.performAll (.openCheckpoint :: excursion ++ [.backtrack s₃.level])
  -- the same run with worlds which are kept whole
  have back' := mirrors_empty.goesBack back
  rw [List.map_append, List.map_cons] at back'
  have keeps' : ∀ q ∈ quiet.map Command.operation, q.KeepsDomains := by
    intro q hq
    obtain ⟨c, hc, rfl⟩ := List.mem_map.1 hq
    exact (keeps c hc).operation
  have along : Solver.performAll {} (before.map Command.operation ++ .propagate :: quiet.map Command.operation) =
      (Solver.performAll {} (before.map Command.operation)).propagate.2.performAll (quiet.map Command.operation) :=
    Solver.performAll_append {} _ _
  have pure := Solver.trace_of_excursion _ _ (excursion.map Command.operation) (after.map Command.operation) back'
    success keeps' s₃.level (along ▸ m.level.symm) (staysAbove_operation stays)
  rw [along] at pure
  rw [List.map_append] at mt
  obtain ⟨traces, sights, alike⟩ := pure
  obtain ⟨t, ended, kt⟩ := mt.performAll after
  obtain ⟨u, ended', ku⟩ := m.performAll after
  refine ⟨there, gone, (mt.sight.trans sights).trans m.sight.symm, ⟨_, mt.trace after, ?_⟩, t, u, ended, ended',
    kt.agrees ku alike.level (congrArg Domains.domains alike.domains) (congrArg World.diagrams alike.world) alike.planAt⟩
  rw [m.trace after]
  exact congrArg some traces.symm

theorem excursion_traceless_detour :
    ∃ s s' here, performAll {} Detour.before = some s ∧ s.propagate = some (none, s') ∧
      s'.performAll [.openCheckpoint] = some here ∧ GoesBack {} (Detour.before ++ [.propagate, .openCheckpoint]) ∧
      here.level = 1 ∧
      ∃ there, here.performAll (.openCheckpoint :: Detour.excursion ++ [.backtrack here.level]) = some there ∧
        there.sight = here.sight ∧
        (∃ results, there.trace Detour.after = some results ∧ here.trace Detour.after = some results) ∧
        ∃ t u, there.performAll Detour.after = some t ∧ here.performAll Detour.after = some u ∧ t.Agrees u := by
  have works : ((performAll {} Detour.before).bind propagate).map (fun r => (r.1.isNone, r.2.level)) = some (true, 0) := by
    decide +kernel
  obtain ⟨⟨stop, s'⟩, both, outcome⟩ := Option.map_eq_some_iff.1 works
  obtain ⟨s, run, done⟩ := Option.bind_eq_some_iff.1 both
  obtain ⟨success, root⟩ := Prod.mk.inj outcome
  obtain rfl := Option.isNone_iff_eq_none.1 success
  have level : s'.openCheckpoint.level = 1 := congrArg Nat.succ root
  have back : GoesBack {} (Detour.before ++ [.propagate, .openCheckpoint]) := by
    refine ⟨nofun, fun a₁ t₁ h₁ => ⟨nofun, fun a₂ t₂ h₂ => ⟨nofun, fun a₃ t₃ h₃ => ⟨nofun, fun a₄ t₄ h₄ =>
      ⟨fun _ f t failed => ?_, fun _ _ _ => ⟨nofun, fun _ _ _ => trivial⟩⟩⟩⟩⟩⟩
    have there : performAll {} Detour.before = some t₄ :=
      (performAll_cons h₁ _).trans ((performAll_cons h₂ _).trans ((performAll_cons h₃ _).trans (performAll_cons h₄ _)))
    obtain rfl := Option.some.inj (run.symm.trans there)
    exact absurd (done.symm.trans failed) nofun
  exact ⟨s, s', s'.openCheckpoint, run, done, rfl, back, level,
    excursion_traceless run done rfl back (by simp [Command.KeepsDomains]) (level ▸ Detour.staysAbove)⟩

end StoredSolver
end DecisionDiagrams
