import DecisionDiagrams.Proofs.Solver.Assignments
import DecisionDiagrams.Proofs.Solver.Obeys

/-! Calls which change nothing. When a call succeeds and was told of all changes, the labels of every layer are
the values of its domain. No further call finds anything to be done then, whatever layers it is told of. -/

namespace DecisionDiagrams

open Work Cascade

variable {p : Plan} {w : Workspace}

/-! ### Steps which find nothing to be done -/

theorem idle_enforceDomains (hp : p.Distinct) (ht : Tidy p (fun _ => False) [] w) (lost : List Nat) :
    wp (enforceDomains p lost) (fun _ w' => w' = w) (fun _ _ => False) w := by
  refine wp_enforceDomains_of hp (I := fun w' => w' = w) (fun w' a _ e ha off => ?_) ht rfl lost
  subst e
  rw [ht.inDomain a ha id] at off
  cases off

theorem idle_enforceSupports (hs : Supported p (List.range p.model.depth) w) :
    wp (enforceSupports p) (fun _ w' => w' = w) (fun _ _ => False) w := by
  unfold enforceSupports
  refine wp_forM (fun ls w' => (∀ l ∈ ls, l ∈ List.range p.model.depth) ∧ w' = w) _ ⟨fun _ hl => hl, rfl⟩
    (fun l ls w' hi => ?_) fun _ hi => hi.2
  obtain ⟨hl, rfl⟩ := hi
  dsimp only
  rw [wp_bind, wp_get]
  have nothing : ((w'.domains.values (p.model.var l)).filter fun v => w'.support l v == 0) = [] :=
    List.filter_eq_nil_iff.2 fun v hv h0 =>
      hs l (hl l List.mem_cons_self) v (Domains.mem_values.1 hv) (beq_iff_eq.1 h0)
  rw [nothing]
  exact ⟨fun k hk => hl k (List.mem_cons_of_mem _ hk), rfl⟩

/-- Neither kind of diagram does anything. -/
theorem idle_maintain (hp : p.Distinct) (fuel : Nat) (lost : List Nat) (hb : w.built = true)
    (quiet : w.agenda.isEmpty = true) (ht : Tidy p (fun _ => False) [] w)
    (hs : Supported p (List.range p.model.depth) w) :
    wp (if p.options.isExact then maintainExact p lost else maintainRelaxed p fuel lost)
      (fun _ w' => w' = w) (fun _ _ => False) w := by
  have domains : ∀ w', w' = w → wp (enforceDomains p lost) (fun _ w' => w' = w) (fun _ _ => False) w' := by
    rintro _ rfl
    exact idle_enforceDomains hp ht lost
  have supports : ∀ w', w' = w → wp (enforceSupports p) (fun _ w' => w' = w) (fun _ _ => False) w' := by
    rintro _ rfl
    exact idle_enforceSupports hs
  have old : w.built ≠ false := by simp [hb]
  split_ifs
  · exact wp_maintainExact_of (· = w) (fun new => absurd new old) (fun _ => domains w rfl) supports
  · refine wp_maintainRelaxed_of (fun _ => False) (· = w) (· = w) (· = w) (fun new => absurd new old)
      (fun _ _ => False.elim) (fun _ _ => False.elim) (fun _ => rfl) domains (fun w' e busy => ?_) (fun _ _ e _ => e)
      supports
    -- as no node waits, no pass begins
    subst e
    exact absurd ⟨hb, quiet⟩ busy

namespace Diagram

/-- Every call succeeds and leaves the diagram and the domains as they are. -/
def Idle (p : Plan) (d : Diagram) (s : Domains) : Prop :=
  ∀ fuel lost, (d.propagate p fuel lost s).stop = none ∧ (d.propagate p fuel lost s).diagram = d ∧
    (d.propagate p fuel lost s).domains = s

variable {d : Diagram} {s : Domains} {unheard : Nat → Prop}

theorem idle_of_tidy (hp : p.Distinct) (hb : d.built = true) (ht : Tidy p (fun _ => False) [] (d.workspace p s))
    (hs : Supported p (List.range p.model.depth) (d.workspace p s)) : d.Idle p s := by
  intro fuel lost
  obtain ⟨w', hd, hdom, hok, hstop⟩ := propagate_of_wp (idle_maintain hp fuel lost hb
    (Agenda.isEmpty_iff.2 fun _ _ => Agenda.waiting_empty _ _ _) ht hs)
  have done : (d.propagate p fuel lost s).stop = none :=
    Option.eq_none_iff_forall_ne_some.2 fun e he => hstop e he
  obtain rfl := hok done
  exact ⟨done, hd, hdom⟩

/-! ### Diagrams which were told of all changes -/

/-- The diagrams to which calls which succeed can lead on the domains `s`, where the layers `unheard` may have
lost values of which the diagram was not told. Between two calls the domains change at will. -/
inductive Aware (p : Plan) : (Nat → Prop) → Diagram → Domains → Prop
  | initial (s : Domains) : Aware p (fun _ => False) (.initial p.model) s
  | change {unheard unheard' : Nat → Prop} {d : Diagram} {s s' : Domains} (aware : Aware p unheard d s)
    (still : ∀ l < p.model.depth, unheard l → unheard' l)
    (noted : ∀ l < p.model.depth, ∀ v, s.contains (p.model.var l) v = true →
      s'.contains (p.model.var l) v = false → unheard' l) : Aware p unheard' d s'
  | propagate {unheard : Nat → Prop} {d : Diagram} {s : Domains} {fuel : Nat} {lost : List Nat}
    (aware : Aware p unheard d s) (done : (d.propagate p fuel lost s).stop = none) :
    Aware p (fun l => unheard l ∧ l ∉ lost) (d.propagate p fuel lost s).diagram
      (d.propagate p fuel lost s).domains

/-- What a call which succeeds leaves behind. -/
theorem returns_of_tidy {t : Spec} (hp : t.Plans p) (fuel : Nat) (lost : List Nat)
    (h : d = .initial p.model ∨ d.built = true ∧ Tidy p unheard [] (d.workspace p s))
    (done : (d.propagate p fuel lost s).stop = none) :
    (d.propagate p fuel lost s).diagram.built = true ∧
      Agrees p (fun l => unheard l ∧ l ∉ lost) (d.propagate p fuel lost s).diagram
        (d.propagate p fuel lost s).domains := by
  rcases h with rfl | ⟨hb, ht⟩
  · have hr := Agrees.returns hp.distinct hp.valid fuel lost (tidy_initial p (fun _ => False) s)
    exact ⟨hr.built done, (hr.stands done).1.weaken fun l hl => hl.1.elim, (hr.stands done).2⟩
  · have hr := Agrees.returns hp.distinct hp.valid fuel lost ht
    exact ⟨hr.built done, (hr.stands done).1.weaken fun l hl => ⟨hl.1, fun hm => hl.2 ⟨hb, hm⟩⟩,
      (hr.stands done).2⟩

theorem Aware.tidy {t : Spec} (hp : t.Plans p) (h : d.Aware p unheard s) :
    d = .initial p.model ∨ d.built = true ∧ Tidy p unheard [] (d.workspace p s) := by
  induction h with
  | initial => exact Or.inl rfl
  | @change unheard unheard' d s s' _ still noted ih =>
    refine ih.imp_right fun ⟨hb, ht⟩ => ⟨hb, { ht.toCensus.congr rfl rfl with
      anchored := ht.anchored
      inDomain := fun a ha hn => ?_
      cached := Memo.sound_empty _ }⟩
    have hl := ht.toCensus.parent_lt_depth ha
    have hv := ht.inDomain a ha fun hu => hn (still _ hl hu)
    by_contra off
    exact hn (noted _ hl _ hv (Bool.not_eq_true _ ▸ off))
  | @propagate _ _ _ fuel lost _ done ih =>
    obtain ⟨hb, ht, -⟩ := returns_of_tidy hp fuel lost ih done
    exact Or.inr ⟨hb, ht⟩

/-- After a call which succeeds and was told of all changes every further call on the same domains succeeds and
changes neither the diagram nor the domains, whatever layers it is told of. -/
theorem Aware.idle {t : Spec} (hp : t.Plans p) (h : d.Aware p unheard s) {fuel : Nat} {lost : List Nat}
    (done : (d.propagate p fuel lost s).stop = none) (told : ∀ l < p.model.depth, unheard l → l ∈ lost) :
    (d.propagate p fuel lost s).diagram.Idle p (d.propagate p fuel lost s).domains := by
  obtain ⟨hb, ht, hs⟩ := returns_of_tidy hp fuel lost (h.tidy hp) done
  refine idle_of_tidy hp.distinct hb { ht with inDomain := fun a ha _ => ht.inDomain a ha fun hu => ?_ } hs
  exact hu.2 (told _ (ht.toCensus.parent_lt_depth ha) hu.1)

end Diagram

/-- The diagram of width one takes a value from the second variable, and does nothing when it is told so. -/
theorem Diagram.Aware.idle_alternating :
    Alternating.started.domains.contains 1 1 = true ∧ Alternating.once.domains.contains 1 1 = false ∧
      Alternating.once.diagram.Idle Alternating.narrow Alternating.once.domains := by
  obtain ⟨done, -, -, before, after⟩ := Alternating.once_ended
  exact ⟨before, after, (Diagram.Aware.initial _).idle Alternating.plans_narrow done fun _ _ h => h.elim⟩

/-- In runs which open checkpoints only if no change waits, every diagram is idle after a propagation. -/
theorem Run.idle_of_propagate {β : Type} {R : Rules β}
    (hR : ∀ s b p, R.plan s b p → p.Distinct ∧ p.options.isValid = true)
    (opens : ∀ s, R.opens s → s.domains.changed = #[]) {h : Story β} {s t : Solver} (run : Run R h s)
    (calm : h.calm = true) (done : s.propagate = (none, t)) {i : Nat} {p : Plan} {d : Diagram}
    (plan : t.planAt i = some p) (diagram : t.world.diagrams[i]? = some d) : d.Idle p t.domains := by
  have hP : R.Upholds (fun _ _ => False) (fun _ _ => False) Agrees := Agrees.upheld hR
  have cur := ((run.propagate calm done).consistent hP).current calm
  obtain ⟨ht, hs⟩ := cur.stands i p d plan diagram
  obtain ⟨b, -, r, hb, -, -⟩ := cur.made i p plan
  have settled : t.domains.changed = #[] :=
    (((run.consistent hP).current calm).kept ((run.consistent hP).unlisted calm)).propagate hP.toUpheld
      ((run.consistent hP).alive (Or.inl calm)) done |>.2.2.1
  refine Diagram.idle_of_tidy (hR r b p hb).1 (cur.built i p d plan diagram) (ht.weaken fun l hl => ?_) hs
  have hc : p.model.var l ∈ t.domains.changed :=
    hl.resolve_left (((run.propagate calm done).nothing_forgotten hP opens).1 _)
  rw [settled] at hc
  exact absurd hc (Array.not_mem_empty _)

end DecisionDiagrams
