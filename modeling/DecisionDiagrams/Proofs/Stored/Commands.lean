import DecisionDiagrams.Proofs.Stored.Propagation

/-! The commands of a stored solver. Each of them does for what is stored what the operation does for the worlds which
are kept whole, gives the same answer, and lets the same be seen. None of them fails. -/

namespace DecisionDiagrams

namespace Store

variable {st : Store} {x : Var}

theorem spans_bitmap (hx : x < st.domains.size) :
    st.spans[x]? = some ((st.bitmap x).offset, (st.bitmap x).present.size) := by
  rw [spans, Array.getElem?_map, bitmap, Array.getD_eq_getD_getElem?, Array.getElem?_eq_getElem hx]
  rfl

theorem spans_create (d : Bitmap) {e : ℤ × ℕ} (h : st.spans[x]? = some e) : (st.create d).spans[x]? = some e := by
  have hx : x < st.domains.size := by
    have := (Array.getElem?_eq_some_iff.1 h).1
    rwa [spans, Array.size_map] at this
  rw [← h, spans, spans, Array.getElem?_map, Array.getElem?_map, create, Array.getElem?_push, if_neg hx.ne]

end Store

namespace Housed

variable {p : Plan} {spans spans' : Array (ℤ × ℕ)} {rows : List Row}

theorem mono (h : Housed p spans rows) (kept : ∀ (x : Var) (e : ℤ × ℕ), spans[x]? = some e → spans'[x]? = some e) :
    Housed p spans' rows := ⟨h.apart, h.spans.imp fun _ _ => kept _ _⟩

/-- Rows which were laid out for the domains of the variables. -/
theorem of_places {st : Store} (apart : Apart rows)
    (places : List.Forall₂ (fun (r : Row) (b : Bitmap) => r.first = b.offset ∧ r.width = b.present.size) rows
      (p.model.branchVars.toList.map st.bitmap)) (known : ∀ l < p.model.depth, p.model.var l < st.domains.size) :
    Housed p st.spans rows := by
  refine ⟨apart, List.forall₂_iff_get.2 ⟨?_, fun l hl hl' => ?_⟩⟩
  · rw [places.length_eq, List.length_map]
  · have hb : l < (p.model.branchVars.toList.map st.bitmap).length := by rwa [List.length_map]
    obtain ⟨first, width⟩ := (List.forall₂_iff_get.1 places).2 l hl hb
    simp only [List.get_eq_getElem, List.getElem_map, Model.getElem_branchVars hl'] at first width ⊢
    rw [Store.spans_bitmap (known l hl'), first, width]

end Housed

/-- A diagram which is not built yet, in cells which count nothing. -/
theorem StoredDiagram.Follows.initial {p : Plan} {spans : Array (ℤ × ℕ)} {H : History (Array ℤ)} {rows : List Row}
    {n : ℕ} (housed : Housed p spans rows) (root : H.level = 0)
    (fresh : ∀ r ∈ rows, H.current.size ≤ r.offset ∧ r.offset + r.width ≤ H.current.size + n) :
    StoredDiagram.Follows p spans (H.modify (· ++ Array.replicate n 0)) (fun _ => Diagram.initial p.model)
      { plan := p, arena := .withLayers (p.model.depth + 1), rows, upKnown := !p.model.hasUp } where
  plan := rfl
  housed := housed
  graph := ⟨_, Arena.mirrors_withLayers _, Nat.zero_le _, fun l => (History.back_of_le (h := { current := _ }) (Nat.zero_le l)).symm⟩
  built l := ⟨nofun, fun ⟨b, hb, _⟩ => nomatch hb⟩
  builtAt := nofun
  upKnown _ := rfl
  fresh _ := rfl
  counted l k r v i hr hi := by
    have none : (Graph.withLayers (p.model.depth + 1)).labelled k v = 0 := rfl
    have within := fresh r (List.mem_of_getElem? hr)
    have has := Row.has_of_cell? hi
    unfold Row.Has at has
    show ((H.modify (· ++ Array.replicate n 0)).back l)[i]? =
      some ((Graph.withLayers (p.model.depth + 1)).labelled k v : ℤ)
    rw [History.back_modify_of_le (root.trans_le (Nat.zero_le l)), none, Array.getElem?_append_right (by omega),
      Array.getElem?_replicate, if_pos (by omega)]
    rfl
  ranged _ a ha := absurd ha (Nat.not_lt_zero a)

/-- One more diagram, while no checkpoint is open. -/
theorem Drawn.push {ds : Array StoredDiagram} {es : Array Entry} {W : History World} {spans : Array (ℤ × ℕ)}
    {H : History (Array ℤ)} {new : StoredDiagram} {e : Entry} {D : Diagram} {n : ℕ} (h : Drawn ds es W spans H)
    (root : H.level = 0) (worlds : W.level = 0) (paired : W.current.diagrams.size = es.size)
    (fresh : ∀ r ∈ new.rows, H.current.size ≤ r.offset ∧ r.offset + r.width ≤ H.current.size + n)
    (follows : new.Follows e.plan spans (H.modify (· ++ Array.replicate n 0)) fun _ => D)
    (describes : e.Describes new) :
    Drawn (ds.push new) (es.push e) (W.modify fun w => { w with diagrams := w.diagrams.push D }) spans
      (H.modify (· ++ Array.replicate n 0)) := by
  have cells : ∀ l, (H.modify (· ++ Array.replicate n 0)).back l = H.back l ++ Array.replicate n 0 := fun l => by
    rw [History.back_modify_of_le (root.trans_le (Nat.zero_le l)), History.back_of_le (root.trans_le (Nat.zero_le l))]
  have drawn : ∀ l, ((W.modify fun w => { w with diagrams := w.diagrams.push D }).back l).diagrams =
      (W.back l).diagrams.push D := fun l => by
    rw [History.back_modify_of_le (worlds.trans_le (Nat.zero_le l)),
      History.back_of_le (worlds.trans_le (Nat.zero_le l))]
  have size : ∀ l, (W.back l).diagrams.size = es.size := fun l => by
    rw [History.back_of_le (worlds.trans_le (Nat.zero_le l)), paired]
  have old : ∀ (j : ℕ) (d : StoredDiagram), (ds.push new)[j]? = some d → d = new ∧ j = ds.size ∨ ds[j]? = some d := by
    intro j d hj
    rw [Array.getElem?_push] at hj
    split_ifs at hj with e
    · exact Or.inl ⟨(Option.some.inj hj).symm, e⟩
    · exact Or.inr hj
  -- cells of the new diagram come behind those of the others
  have behind : ∀ (j : ℕ) (d : StoredDiagram), ds[j]? = some d → ∀ r ∈ d.rows, ∀ q ∈ new.rows, ∀ c, r.Has c →
      ¬ q.Has c := by
    intro j d hd r hr q hq c hrc hqc
    have within := h.within j d hd r hr 0
    rw [History.back_of_le root.le] at within
    have := (fresh q hq).1
    unfold Row.Has at hrc hqc
    omega
  refine ⟨by simp [h.size], fun j d e' hd he => ?_, fun j k d d' hne hd hd' => ?_, fun j d hd r hr l => ?_⟩
  · simp only [StoredDiagram.Appears, drawn]
    rw [Array.getElem?_push] at hd he
    by_cases last : j = es.size
    · rw [if_pos (last.trans h.size.symm)] at hd
      rw [if_pos last] at he
      obtain rfl := Option.some.inj hd
      obtain rfl := Option.some.inj he
      exact ⟨fun _ => D, fun l => by rw [Array.getElem?_push, if_pos (last.trans (size l).symm)], follows, describes⟩
    · rw [if_neg fun e => last (e.trans h.size)] at hd
      rw [if_neg last] at he
      obtain ⟨E, worlds, follows', describes'⟩ := h.appears j d e' hd he
      refine ⟨E, fun l => ?_, follows'.frame (K := H.modify _) rfl (fun l => ?_) follows'.housed, describes'⟩
      · rw [Array.getElem?_push, if_neg fun e => last (e.trans (size l))]
        exact worlds l
      · rw [cells]
        refine (follows'.counted l).frame fun r hr c hc => Array.getElem?_append_left ?_
        have := h.within j d hd r hr l
        unfold Row.Has at hc
        omega
  · rcases old j d hd with ⟨rfl, rfl⟩ | kept <;> rcases old k d' hd' with ⟨rfl, rfl⟩ | kept'
    · exact absurd rfl hne
    · exact fun r hr q hq c hrc hqc => behind k d' kept' q hq r hr c hqc hrc
    · exact behind j d kept
    · exact h.apart j k d d' hne kept kept'
  · rw [cells, Array.size_append, Array.size_replicate]
    rcases old j d hd with ⟨rfl, -⟩ | hd
    · rw [History.back_of_le (root.trans_le (Nat.zero_le l))]
      exact (fresh r hr).2
    · exact (h.within j d hd r hr l).trans (Nat.le_add_right _ _)

/-- All diagrams go back to an earlier level. -/
theorem Drawn.synchronise {ds : Array StoredDiagram} {es : Array Entry} {W : History World} {spans : Array (ℤ × ℕ)}
    {H : History (Array ℤ)} {target : ℕ} (h : Drawn ds es W spans H) (ht : target < H.level) :
    ∃ ds', ds.toList.mapM (StoredDiagram.synchronise target) = some ds' ∧
      Drawn ds'.toArray (es.map fun e => { e with lost := [] })
        ((W.backtrack target).modify fun w => { w with domains := w.domains.settle }) spans (H.backtrack target) := by
  have each : ∀ i (hi : i < ds.size), ∃ d', StoredDiagram.synchronise target ds[i] = some d' ∧ d'.rows = ds[i].rows ∧
      ∀ e, es[i]? = some e → d'.Appears { e with lost := [] }
        (fun l => (W.back (min l target)).diagrams[i]?) spans (H.backtrack target) := by
    intro i hi
    have he := Array.getElem?_eq_getElem (hi.trans_eq h.size)
    obtain ⟨D, worlds, follows, describes⟩ := h.appears i _ _ (Array.getElem?_eq_getElem hi) he
    obtain ⟨d', done, follows', rows, lost, last, total⟩ := follows.synchronise ht
    refine ⟨d', done, rows, fun e he' => ?_⟩
    obtain rfl := Option.some.inj (he.symm.trans he')
    exact ⟨fun l => D (min l target), fun l => worlds _, follows', ⟨fun l => by rw [lost], last.trans describes.last,
      total.trans describes.total⟩⟩
  choose f done rows appears using each
  have back : ∀ i d, (List.ofFn fun i : Fin ds.size => f i i.2).toArray[i]? = some d → ∃ hi : i < ds.size, f i hi = d := by
    intro i d hd
    rw [List.getElem?_toArray, List.getElem?_ofFn] at hd
    split_ifs at hd with hi
    exact ⟨hi, Option.some.inj hd⟩
  refine ⟨List.ofFn fun i : Fin ds.size => f i i.2,
    List.mapM_eq_some_of_forall₂ (List.forall₂_iff_get.2 ⟨by simp, fun i hi _ => ?_⟩),
    ⟨by simp [h.size], fun i d e hd he => ?_, fun i j d d' hne hd hd' => ?_, fun i d hd r hr l => ?_⟩⟩
  · rw [List.get_ofFn]
    exact done i hi
  · obtain ⟨hi, rfl⟩ := back i d hd
    rw [Array.getElem?_map] at he
    obtain ⟨e₀, he₀, rfl⟩ := Option.map_eq_some_iff.1 he
    simp only [World.diagrams_domains, History.back_backtrack]
    exact appears i hi e₀ he₀
  · obtain ⟨hi, rfl⟩ := back i d hd
    obtain ⟨hj, rfl⟩ := back j d' hd'
    rw [rows, rows]
    exact h.apart i j _ _ hne (Array.getElem?_eq_getElem hi) (Array.getElem?_eq_getElem hj)
  · obtain ⟨hi, rfl⟩ := back i d hd
    rw [History.back_backtrack]
    exact h.within i _ (Array.getElem?_eq_getElem hi) r (rows i hi ▸ hr) _

theorem Drawn.respan {ds : Array StoredDiagram} {es : Array Entry} {W : History World}
    {spans spans' : Array (ℤ × ℕ)} {H : History (Array ℤ)} (h : Drawn ds es W spans H)
    (kept : ∀ (x : Var) (e : ℤ × ℕ), spans[x]? = some e → spans'[x]? = some e) : Drawn ds es W spans' H := by
  refine ⟨h.size, fun i d e hd he => ?_, h.apart, h.within⟩
  obtain ⟨D, worlds, follows, describes⟩ := h.appears i d e hd he
  exact ⟨D, worlds, follows.frame rfl follows.counted (follows.housed.mono kept), describes⟩

/-- What the command does to a solver which keeps its worlds whole. -/
def Command.operation : Command → Operation
  | .create o => .newVariable (o.bitmap?.bind fun _ => o.domain?)
  | .add p => .add p
  | .post cs o => .post cs o
  | .restrict x r => .restrict x r.keeps
  | .propagate => .propagate
  | .openCheckpoint => .openCheckpoint
  | .backtrack target => .backtrack target

namespace StoredSolver

variable {s t : StoredSolver} {o : Solver} {x : Var} {i : ℕ} {p : Plan}

theorem performAll_cons {c : Command} {a : Answer} (h : s.perform c = some (a, t)) (cs : List Command) :
    s.performAll (c :: cs) = t.performAll cs := by
  rw [performAll, List.foldlM_cons, h]
  rfl

namespace Mirrors

/-! ### Creating, restricting, and adding diagrams -/

theorem enrol (m : s.Mirrors o) (admits : o.Admits p) : (s.enrol p).Mirrors (o.enrol p) := by
  obtain ⟨H, cells, level, drawn⟩ := m.drawn
  have root : H.level = 0 := level.trans admits.level
  obtain ⟨n, cells', apart, fresh, places⟩ := cells.layOut root (p.model.branchVars.toList.map s.store.bitmap)
  have housed := Housed.of_places apart places fun l hl => (admits.known l hl).trans_eq m.store.size.symm
  have new : Mirrors
      { s with
        cells := (s.cells.layOut (p.model.branchVars.toList.map s.store.bitmap)).2
        diagrams := s.diagrams.push
          { plan := p
            arena := .withLayers (p.model.depth + 1)
            rows := (s.cells.layOut (p.model.branchVars.toList.map s.store.bitmap)).1
            upKnown := !p.model.hasUp } }
      { o with
        history := o.history.modify fun w => { w with diagrams := w.diagrams.push (Diagram.initial p.model) }
        entries := o.entries.push { plan := p } } :=
    ⟨(m.sound.enrol Diagram.endures_sound admits).congr rfl rfl rfl fun _ => rfl, m.store,
      ⟨_, cells', level, drawn.push root admits.level (m.sound.paired _ (Or.inl rfl)) fresh
        (.initial housed root fresh) ⟨fun _ => Iff.rfl, rfl, rfl⟩⟩, m.queue, m.rootFailure, m.counters⟩
  have lined := new.lineUp o.entries.size
  rw [Solver.lineUp_push] at lined
  unfold StoredSolver.enrol
  rw [← m.size] at lined
  exact lined

theorem addDiagram (m : s.Mirrors o) (p : Plan) :
    ∃ t, s.addDiagram p = some ((o.addDiagram p).1, t) ∧ t.Mirrors (o.addDiagram p).2 := by
  unfold StoredSolver.addDiagram Solver.addDiagram
  rw [m.level, m.rootFailure, show s.store.domains.size = o.domains.size from m.store.size]
  split_ifs with hl hf hk
  · exact ⟨s, rfl, m⟩
  · exact ⟨s, rfl, m⟩
  · exact ⟨s, rfl, m⟩
  · have admits : o.Admits p := ⟨not_not.1 hl, by simpa using hf, fun l => Model.var_lt_of_all hk⟩
    obtain ⟨t, done, mt⟩ := (m.enrol admits).propagate
    dsimp only
    rw [Solver.lineUp_push, done, m.size]
    generalize (o.enrol p).propagate = out at mt
    obtain ⟨_ | f, u⟩ := out
    · exact ⟨t, rfl, mt⟩
    · exact ⟨t, rfl, mt⟩

theorem postShared (m : s.Mirrors o) (cs : List Constraint) (opts : Options) :
    ∃ t, s.postShared cs opts = some ((o.postShared cs opts).1, t) ∧ t.Mirrors (o.postShared cs opts).2 := by
  -- constraints do not look at the list of changed variables
  have registrable : (fun c : Constraint => c.registrable o.domains.settle) = fun c => c.registrable o.domains := rfl
  have spec : Spec.ofConstraints o.domains.settle cs = Spec.ofConstraints o.domains cs := rfl
  have listed : s.store.listed? = some o.domains.settle := m.store.listed?
  unfold StoredSolver.postShared Solver.postShared
  simp only [listed, registrable, spec, Option.bind_eq_bind, Option.bind_some]
  split_ifs
  · exact ⟨s, rfl, m⟩
  · exact ⟨s, rfl, m⟩
  · cases (Spec.ofConstraints o.domains cs).compile with
    | error e => exact ⟨s, rfl, m⟩
    | ok model => exact m.addDiagram { model, options := opts }

theorem postSeparate (opts : Options) : ∀ (cs : List Constraint) (posted : List ℕ) {s : StoredSolver} {o : Solver},
    s.Mirrors o → ∃ t, StoredSolver.postSeparate opts posted cs s = some ((Solver.postSeparate opts posted cs o).1, t) ∧
      t.Mirrors (Solver.postSeparate opts posted cs o).2
  | [], _, s, _, m => ⟨s, rfl, m⟩
  | c :: rest, posted, s, o, m => by
    obtain ⟨t, done, mt⟩ := m.postShared [c] opts
    unfold StoredSolver.postSeparate Solver.postSeparate
    rw [done, Option.bind_some]
    generalize o.postShared [c] opts = out at mt
    obtain ⟨e | i, u⟩ := out
    · exact ⟨t, rfl, mt⟩
    · exact postSeparate opts rest (i :: posted) mt

theorem post (m : s.Mirrors o) (cs : List Constraint) (opts : Options) :
    ∃ t, s.post cs opts = some ((o.post cs opts).1, t) ∧ t.Mirrors (o.post cs opts).2 := by
  unfold StoredSolver.post Solver.post
  cases cs.findSome? (·.malformed?) with
  | some f => exact ⟨s, rfl, m⟩
  | none =>
    cases opts.sharing with
    | shared =>
      obtain ⟨t, done, mt⟩ := m.postShared cs opts
      dsimp only
      rw [done, Option.map_some]
      generalize o.postShared cs opts = out at mt
      obtain ⟨e | i, u⟩ := out
      · exact ⟨t, rfl, mt⟩
      · exact ⟨t, rfl, mt⟩
    | separate => exact postSeparate opts cs [] m

/-! ### Checkpoints -/

theorem openCheckpoint (m : s.Mirrors o) : s.openCheckpoint.Mirrors o.openCheckpoint := by
  obtain ⟨H, cells, level, drawn⟩ := m.drawn
  refine ⟨m.sound.openCheckpoint, m.store.openLevel, ⟨_, cells.openLevel, congrArg Nat.succ level, ?_⟩, m.queue,
    m.rootFailure, ?_⟩
  · refine ⟨drawn.size, fun i d e hd he => ?_, drawn.apart, fun i d hd r hr l => ?_⟩
    · obtain ⟨D, worlds, follows, describes⟩ := drawn.appears i d e hd he
      refine ⟨D, fun l => ?_, follows.openCheckpoint, describes⟩
      exact (congrArg (fun w : World => w.diagrams[i]?) (History.back_openCheckpoint o.history l)).trans (worlds l)
    · rw [History.back_openCheckpoint]
      exact drawn.within i d hd r hr l
  · show { s.counters with checkpoints := s.counters.checkpoints + 1 } =
      { o.counters with checkpoints := o.counters.checkpoints + 1 }
    rw [m.counters]

/-- Everything is undone down to the same level. -/
theorem backtrack (m : s.Mirrors o) {target : ℕ} (ht : target < o.level) :
    ∃ t u, s.backtrack target = some t ∧ o.backtrack? target = some u ∧ t.Mirrors u := by
  obtain ⟨H, cells, level, drawn⟩ := m.drawn
  have htH : target < H.level := level ▸ ht
  have htR : target < o.ranges.level := o.level_ranges ▸ ht
  obtain ⟨store, hstore, follows⟩ := m.store.synchronise htR
  obtain ⟨cells', hcells, mirrors⟩ := cells.synchronise htH
  obtain ⟨ds, hds, drawn'⟩ := drawn.synchronise htH
  have back : o.backtrack? target = some _ := if_pos ht
  have done : s.backtrack target = some
      { s with
        store
        cells := cells'
        diagrams := ds.toArray
        queue := []
        counters := { s.counters with backtracks := s.counters.backtracks + 1 } } := by
    rw [StoredSolver.backtrack, hstore, hcells, hds]
    rfl
  refine ⟨_, _, done, back, m.sound.backtrack back, ?_, ⟨_, mirrors, ?_, ?_⟩, rfl, m.rootFailure, ?_⟩
  · have ranges : ((o.history.backtrack target).map World.domains).modify Domains.settle =
        (o.ranges.backtrack target).modify Domains.settle :=
      congrArg (History.modify Domains.settle) (History.map_backtrack World.domains o.history target)
    show store.Follows (((o.history.backtrack target).map World.domains).modify Domains.settle)
    rw [ranges]
    exact follows
  · rw [History.level_backtrack htH]
    exact (History.level_backtrack (h := o.history) ht).symm
  · rw [Store.spans_synchronise? hstore]
    exact drawn'
  · show { s.counters with backtracks := s.counters.backtracks + 1 } =
      { o.counters with backtracks := o.counters.backtracks + 1 }
    rw [m.counters]

/-! ### Commands -/

/-- A variable is created in both, or in neither. -/
theorem create (m : s.Mirrors o) (offer : Offer) :
    ∃ t, s.perform (.create offer) = some ((o.perform (Command.operation (.create offer))).1, t) ∧
      t.Mirrors (o.perform (Command.operation (.create offer))).2 := by
  unfold StoredSolver.perform StoredSolver.addVariable Solver.perform Solver.addVariable Command.operation
  dsimp only
  rw [m.level]
  split_ifs with hl
  · exact ⟨s, rfl, m⟩
  · cases hb : offer.bitmap? with
    | none => exact ⟨s, rfl, m⟩
    | some b =>
      have root : o.ranges.level = 0 := o.level_ranges.trans (not_not.1 hl)
      obtain ⟨d, hd, follows⟩ := m.store.create root hb
      obtain ⟨H, cells, level, drawn⟩ := m.drawn
      rw [Option.bind_some, hd, show s.store.domains.size = o.domains.size from m.store.size]
      refine ⟨_, rfl, m.sound.setDomains _, follows, ⟨H, cells, level, ?_⟩, m.queue, m.rootFailure, m.counters⟩
      exact (drawn.respan fun _ _ => Store.spans_create b).of_worlds (World.diagrams_domains o.history _)

theorem restrict (m : s.Mirrors o) (x : Var) (r : Restriction) :
    ∃ t, s.perform (.restrict x r) = some ((o.perform (Command.operation (.restrict x r))).1, t) ∧
      t.Mirrors (o.perform (Command.operation (.restrict x r))).2 := by
  unfold StoredSolver.perform StoredSolver.restrict Solver.perform Solver.restrict Command.operation
  dsimp only
  rw [show s.store.domains.size = o.domains.size from m.store.size]
  split_ifs with hx
  · rcases m.store.restrict hx r with ⟨emptied, refused⟩ | ⟨yes, D, done, left, follows⟩
    · rw [show o.domains.restrict? x r.keeps = none from refused]
      rw [show r.onStore s.store x = (none, (r.onStore s.store x).2) from Prod.ext emptied rfl]
      exact ⟨s, rfl, m⟩
    · rw [show o.domains.restrict? x r.keeps = some (yes, D) from left]
      rw [show r.onStore s.store x = (some yes, (r.onStore s.store x).2) from Prod.ext done rfl]
      obtain ⟨H, cells, level, drawn⟩ := m.drawn
      refine ⟨_, rfl, m.sound.setDomains _, follows, ⟨H, cells, level, ?_⟩, m.queue, m.rootFailure, m.counters⟩
      rw [Store.spans_onStore]
      exact drawn.of_worlds (World.diagrams_domains o.history _)
  · exact ⟨s, rfl, m⟩

/-- No command fails. It is answered as the operation is, and what is stored stays what it should be. -/
theorem perform (m : s.Mirrors o) (c : Command) :
    ∃ t, s.perform c = some ((o.perform c.operation).1, t) ∧ t.Mirrors (o.perform c.operation).2 := by
  cases c with
  | create offer => exact m.create offer
  | add p =>
    obtain ⟨t, done, mt⟩ := m.addDiagram p
    exact ⟨t, congrArg (Option.map fun r : _ × StoredSolver => (Answer.diagram r.1, r.2)) done, mt⟩
  | post cs opts =>
    obtain ⟨t, done, mt⟩ := m.post cs opts
    exact ⟨t, congrArg (Option.map fun r : _ × StoredSolver => (Answer.diagrams r.1, r.2)) done, mt⟩
  | restrict x r => exact m.restrict x r
  | propagate =>
    obtain ⟨t, done, mt⟩ := m.propagate
    exact ⟨t, congrArg (Option.map fun r : _ × StoredSolver => (Answer.propagated r.1, r.2)) done, mt⟩
  | openCheckpoint => exact ⟨_, rfl, m.openCheckpoint⟩
  | backtrack target =>
    unfold StoredSolver.perform Solver.perform Command.operation
    dsimp only
    rw [m.level]
    split_ifs with ht
    · obtain ⟨t, u, done, back, mt⟩ := m.backtrack ht
      rw [done, back]
      exact ⟨t, rfl, mt⟩
    · rw [show o.backtrack? target = none from if_neg ht]
      exact ⟨s, rfl, m⟩

theorem performAll (m : s.Mirrors o) (cs : List Command) :
    ∃ t, s.performAll cs = some t ∧ t.Mirrors (o.performAll (cs.map Command.operation)) := by
  induction cs generalizing s o with
  | nil => exact ⟨s, rfl, m⟩
  | cons c cs ih =>
    obtain ⟨t, done, mt⟩ := m.perform c
    obtain ⟨u, rest, mu⟩ := ih mt
    exact ⟨u, (performAll_cons done cs).trans rest, mu⟩

/-! ### What is seen -/

/-- Each stored diagram shows the graph of the present one and counts its arcs. -/
theorem draws (m : s.Mirrors o) {d : StoredDiagram} (hd : s.diagrams[i]? = some d) :
    ∃ D, o.world.diagrams[i]? = some D ∧ o.planAt i = some d.plan ∧ D.Sound d.plan ∧ d.arena.Shows D.graph ∧
      d.whole s.cells = D ∧ ∀ l v, d.count s.cells l v = D.graph.labelled l v := by
  obtain ⟨H, cells, level, drawn⟩ := m.drawn
  rcases m.diagram i with ⟨hd', -⟩ | ⟨d', e, D₀, hd', he, hD, sound, plan, -⟩
  · rw [hd] at hd'
    cases hd'
  · obtain rfl := Option.some.inj (hd.symm.trans hd')
    obtain ⟨D, worlds, follows, -⟩ := drawn.appears i d e hd he
    obtain rfl : D H.level = D₀ := by
      have here := worlds H.level
      dsimp only at here
      rw [History.back_of_le level.ge] at here
      exact Option.some.inj (here.symm.trans hD)
    have planned : o.planAt i = some d.plan := by rw [Solver.planAt, he, plan]; rfl
    exact ⟨D H.level, hD, planned, plan ▸ sound, follows.shows, follows.whole cells sound,
      follows.count_eq cells (sound.held.census {})⟩

theorem sight (m : s.Mirrors o) : s.sight = o.sight := by
  have size : s.diagrams.size = o.world.diagrams.size := m.size.trans (m.sound.paired _ (Or.inl rfl)).symm
  have same : ∀ {α : Type} (f : Graph → α), (∀ g g' : Graph, g.Agrees g' → g.Wf → g'.Wf → 0 < g.layerCount → f g = f g') →
      s.diagrams.toList.map (fun d => f d.arena.graph) = o.world.diagrams.toList.map fun D => f D.graph := by
    intro α f hf
    refine List.ext_getElem (by simpa using size) fun i hi hi' => ?_
    rw [List.length_map] at hi hi'
    obtain ⟨D, hD, -, sound, shows, -⟩ := m.draws (Array.getElem?_eq_getElem hi)
    obtain ⟨hi', rfl⟩ := Array.getElem?_eq_some_iff.1 hD
    have census := sound.held.census {}
    have nonempty : 0 < s.diagrams[i].arena.graph.layerCount := by
      rw [shows.agrees.layerCount]
      exact Nat.lt_of_lt_of_eq (Nat.succ_pos _) census.layers.symm
    rw [List.getElem_map, List.getElem_map]
    exact hf _ _ shows.agrees (shows.wf census.wf) census.wf nonempty
  unfold StoredSolver.sight Solver.sight
  rw [m.level, m.store.values, same Graph.shape fun g g' h w w' n => h.shape w w' n,
    same Graph.dot fun g g' h w _ _ => h.dot w]
  rfl

theorem trace (m : s.Mirrors o) (cs : List Command) : s.trace cs = some (o.trace (cs.map Command.operation)) := by
  induction cs generalizing s o with
  | nil => rfl
  | cons c cs ih =>
    obtain ⟨t, done, mt⟩ := m.perform c
    simp only [StoredSolver.trace, done, ih mt, mt.sight, Option.bind_eq_bind, Option.bind_some]
    rfl

end Mirrors
end StoredSolver
end DecisionDiagrams
