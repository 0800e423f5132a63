import DecisionDiagrams.Proofs.Solver.Operations
import DecisionDiagrams.Proofs.Solver.Runs

/-! Going back to a checkpoint. Whatever is done above a checkpoint, going back to it brings the domains
and the diagrams back as they were when the checkpoint above it was opened. If nothing waited then,
the solver is like one which never went there, and no later operation can tell the difference. -/

namespace DecisionDiagrams

namespace History

variable {α : Type} {h : History α} {v : α} {base : List α}

theorem backtrack_of_kept {above : List α} (e : h.kept = above ++ v :: base) :
    h.backtrack base.length = { current := v, kept := base } := by
  have hl : h.level = above.length + (base.length + 1) := by simp [level, e]
  have hd : h.kept.drop (h.level - (base.length + 1)) = v :: base := by
    rw [hl, e, Nat.add_sub_cancel, List.drop_left]
  unfold backtrack
  rw [hd]
  exact if_pos (by omega)

/-- What was kept before the target is still kept. -/
theorem kept_backtrack {above : List α} (e : h.kept = above ++ v :: base) {target : Nat}
    (above_base : base.length < target) (lt : target < h.level) :
    ∃ rest, (h.backtrack target).kept = rest ++ v :: base := by
  have hl : h.level = above.length + (base.length + 1) := by simp [level, e]
  have hk : h.level - (target + 1) < above.length := by omega
  have hd : h.kept.drop (h.level - (target + 1)) =
      above[h.level - (target + 1)] :: (above.drop (h.level - (target + 1) + 1) ++ v :: base) := by
    rw [e, List.drop_append_of_le_length (Nat.le_of_lt hk), List.drop_eq_getElem_cons hk,
      List.cons_append]
  refine ⟨above.drop (h.level - (target + 1) + 1), ?_⟩
  unfold backtrack
  rw [hd]
  dsimp only
  rw [if_pos lt]

end History

/-- Whether an operation does not go back to the checkpoint `level` or below it. -/
def Operation.StaysAbove (level : Nat) : Operation → Prop
  | .backtrack target => level < target
  | _ => True

/-- Operations which change no domain but by propagation and by going back. -/
def Operation.KeepsDomains : Operation → Prop
  | .propagate | .openCheckpoint | .backtrack _ => True
  | _ => False

namespace Solver

variable {b s t : Solver} {i : Nat}

/-- What telling the diagrams and calling one of them keep is kept by a propagation of all. -/
theorem drain_keeps {I : Solver → Prop} (fuel : Nat) (told : ∀ s, I s → I s.announce)
    (called : ∀ s i rest, I s → s.queue = i :: rest → I ((s.dequeue rest).callDiagram fuel i).2) :
    ∀ (steps : Nat) {s : Solver}, I s → I (drain fuel steps s).2
  | 0, _, h => h
  | steps + 1, s, h => by
    unfold drain
    split
    · exact h
    · rename_i i rest hq
      have hcall := called s i rest h hq
      unfold dequeue at hcall
      split
      · rename_i u hu
        rw [hu] at hcall
        exact drain_keeps fuel told called steps (told u hcall)
      · exact hcall

/-! ### Plans stay as they are -/

theorem planAt_callDiagram (s : Solver) (fuel i j : Nat) : (s.callDiagram fuel i).2.planAt j = s.planAt j := by
  unfold Solver.callDiagram
  split
  · rename_i e d he hd
    unfold planAt
    rw [Array.getElem?_setIfInBounds]
    by_cases ij : i = j
    · subst ij
      rw [if_pos rfl, if_pos (Array.getElem?_eq_some_iff.1 he).1, he]
      rfl
    · rw [if_neg ij]
  · rfl

theorem planAt_propagate (s : Solver) (j : Nat) : s.propagate.2.planAt j = s.planAt j := by
  unfold Solver.propagate propagateWithin
  split
  · rfl
  · have drained := drain_keeps (I := fun u => u.planAt j = s.planAt j) allowance
      (fun u hu => ((informs_announce u).plan j).trans hu)
      (fun u i rest hu _ => (planAt_callDiagram (u.dequeue rest) allowance i j).trans hu) allowance
      ((informs_announce s).plan j)
    split <;> rename_i hd <;> rw [hd] at drained <;> exact drained

theorem planAt_of_restrict {f : Domains → Option (Bool × Domains)} {x : Var} (h : s.restrict x f = .ok t) (j : Nat) :
    t.planAt j = s.planAt j := by
  unfold Solver.restrict at h
  split_ifs at h
  split at h
  · obtain rfl := Except.ok.inj h
    rfl
  · cases h

theorem entries_backtrack? {target : Nat} (back : s.backtrack? target = some t) :
    t.entries = s.entries.map fun e => { e with lost := [] } := by
  unfold backtrack? at back
  split_ifs at back
  obtain rfl := Option.some.inj back
  rfl

theorem planAt_backtrack? {target : Nat} (back : s.backtrack? target = some t) : t.planAt i = s.planAt i := by
  rw [planAt, entries_backtrack? back, Array.getElem?_map, Option.map_map]
  rfl

theorem planAt_of_addDiagram {p : Plan} (h : s.addDiagram p = (.ok i, t)) : t.planAt s.entries.size = some p := by
  have same := planAt_propagate (s.enrol p) s.entries.size
  rw [(addDiagram_ok h).2] at same
  refine same.trans ?_
  show ((s.entries.push { plan := p })[s.entries.size]?).map Entry.plan = some p
  rw [Array.getElem?_push_size]
  rfl

/-- A diagram keeps its plan whatever comes of its first propagation. -/
theorem planAt_addDiagram {p : Plan} (level : s.level = 0) (alive : s.rootFailure = none)
    (known : p.model.branchVars.all (fun x => decide (x < s.domains.size)) = true) :
    (s.addDiagram p).2.planAt s.entries.size = some p := by
  have enrolled : (s.enrol p).propagate.2.planAt s.entries.size = some p := by
    rw [planAt_propagate]
    show ((s.entries.push { plan := p })[s.entries.size]?).map Entry.plan = some p
    rw [Array.getElem?_push_size]
    rfl
  unfold addDiagram
  rw [if_neg (not_not.2 level), if_neg (by rw [alive]; exact Bool.false_ne_true), if_neg (by rw [known]; decide)]
  dsimp only
  rw [lineUp_push]
  split <;> rename_i hu <;> rwa [hu] at enrolled

theorem planAt_post {cs : List Constraint} {o : Options} {m : Model}
    (formed : cs.findSome? (·.malformed?) = none) (sharing : o.sharing = .shared)
    (registrable : cs.all (·.registrable s.domains) = true) (valid : o.isValid = true)
    (compiled : (Spec.ofConstraints s.domains cs).compile = .ok m) (level : s.level = 0)
    (alive : s.rootFailure = none) (known : m.branchVars.all (fun x => decide (x < s.domains.size)) = true) :
    (s.perform (.post cs o)).2.planAt s.entries.size = some { model := m, options := o } := by
  have added := planAt_addDiagram (p := { model := m, options := o }) level alive known
  show (s.post cs o).2.planAt s.entries.size = _
  unfold post postShared
  rw [formed, sharing, registrable, valid, compiled]
  dsimp only [Bool.not_true, Bool.false_eq_true, if_false]
  split <;> rename_i hu <;> exact (congrArg (fun r => r.2.planAt s.entries.size) hu).symm.trans added

section

variable {I : Solver → Prop} (added : ∀ s p, I s → I (s.addDiagram p).2)

include added

theorem postShared_keeps (h : I s) (cs : List Constraint) (o : Options) :
    I (s.postShared cs o).2 := by
  unfold postShared
  split_ifs
  · exact h
  · exact h
  · split
    · exact h
    · exact added s _ h

theorem postSeparate_keeps (o : Options) : ∀ (cs : List Constraint) (posted : List Nat) {s : Solver},
    I s → I (postSeparate o posted cs s).2
  | [], _, _, h => h
  | c :: rest, posted, s, h => by
    have hc := postShared_keeps added h [c] o
    unfold postSeparate
    split <;> rename_i hu <;> rw [hu] at hc
    · exact postSeparate_keeps o rest _ hc
    · exact hc

/-- What adding a diagram keeps is kept by posting constraints. -/
theorem post_keeps (h : I s) (cs : List Constraint) (o : Options) : I (s.post cs o).2 := by
  unfold post
  split
  · exact h
  · split
    · have hc := postShared_keeps added h cs o
      split <;> rename_i hu <;> rw [hu] at hc <;> exact hc
    · exact postSeparate_keeps added o cs [] h

/-- What the parts of the operations keep is kept by the operations. -/
theorem perform_keeps (redomained : ∀ s D, I s → I (s.setDomains D)) (propagated : ∀ s, I s → I s.propagate.2)
    (opened : ∀ s, I s → I s.openCheckpoint)
    (returned : ∀ s t target, I s → s.backtrack? target = some t → I t) (h : I s) (o : Operation) :
    I (s.perform o).2 := by
  cases o with
  | newVariable d =>
    unfold Solver.perform Solver.addVariable
    dsimp only
    split_ifs
    · exact h
    · cases d with
      | none => exact h
      | some d => exact redomained s _ h
  | add p => exact added s p h
  | post cs o => exact post_keeps added h cs o
  | restrict x keep =>
    unfold Solver.perform Solver.restrict
    dsimp only
    split_ifs
    · cases s.domains.restrict? x keep with
      | none => exact h
      | some r => exact redomained s r.2 h
    · exact h
  | propagate => exact propagated s h
  | openCheckpoint => exact opened s h
  | backtrack target =>
    unfold Solver.perform
    dsimp only
    split <;> rename_i back
    · exact returned s _ target h back
    · exact h

end

/-- What a solver keeps of `b` while it stays above a checkpoint which was opened there. -/
structure Above (b s : Solver) : Prop where
  kept : ∃ above, s.history.kept = above ++ b.world :: b.history.kept
  rootFailure : s.rootFailure = b.rootFailure
  size : s.entries.size = b.entries.size
  plan : ∀ i, s.planAt i = b.planAt i

theorem Above.level (h : Above b s) : b.level < s.level := by
  obtain ⟨above, e⟩ := h.kept
  simp only [Solver.level, History.level, e, List.length_append, List.length_cons]
  omega

theorem Above.congr (h : Above b s) (kept : t.history.kept = s.history.kept)
    (rootFailure : t.rootFailure = s.rootFailure) (size : t.entries.size = s.entries.size)
    (plan : ∀ i, t.planAt i = s.planAt i) : Above b t :=
  ⟨kept ▸ h.kept, rootFailure.trans h.rootFailure, size.trans h.size,
    fun i => (plan i).trans (h.plan i)⟩

theorem above_openCheckpoint (b : Solver) : Above b b.openCheckpoint :=
  ⟨⟨[], rfl⟩, rfl, rfl, fun _ => rfl⟩

theorem Above.announce (h : Above b s) : Above b s.announce := by
  have hi := informs_announce s
  exact h.congr (kept_announce s) hi.rootFailure hi.size hi.plan

theorem Above.callDiagram (h : Above b s) (fuel i : Nat) : Above b (s.callDiagram fuel i).2 := by
  have plan := planAt_callDiagram s fuel i
  unfold Solver.callDiagram at plan ⊢
  split at plan
  · exact h.congr rfl rfl Array.size_setIfInBounds plan
  · exact h

theorem Above.propagate (h : Above b s) : Above b s.propagate.2 := by
  unfold Solver.propagate propagateWithin
  split
  · exact h
  · rename_i hf
    have hdrain : Above b (drain allowance allowance s.announce).2 :=
      drain_keeps allowance (fun _ hu => hu.announce)
        (fun u i rest hu _ => (hu.congr (t := u.dequeue rest) rfl rfl rfl fun _ => rfl).callDiagram _ i)
        allowance h.announce
    split
    · rename_i u hu
      rw [hu] at hdrain
      exact hdrain
    · rename_i f u hu
      rw [hu] at hdrain
      refine hdrain.congr rfl ?_ rfl fun _ => rfl
      have hl : u.level ≠ 0 := Nat.ne_of_gt (Nat.lt_of_le_of_lt (Nat.zero_le _) hdrain.level)
      show (if u.level = 0 then some f else none) = u.rootFailure
      rw [if_neg hl, hdrain.rootFailure, ← h.rootFailure, hf]

/-- While a checkpoint is open no diagram is added. -/
theorem addDiagram_of_level (hl : s.level ≠ 0) (p : Plan) : (s.addDiagram p).2 = s := by
  unfold addDiagram
  rw [if_pos hl]

theorem Above.perform (h : Above b s) {o : Operation} (stays : o.StaysAbove b.level) :
    Above b (s.perform o).2 := by
  have hl : s.level ≠ 0 := Nat.ne_of_gt (Nat.lt_of_le_of_lt (Nat.zero_le _) h.level)
  cases o with
  | newVariable d =>
    have refused : s.addVariable d = .error .notAtRoot := if_pos hl
    unfold Solver.perform
    dsimp only
    rw [refused]
    exact h
  | add p =>
    show Above b (s.addDiagram p).2
    rw [addDiagram_of_level hl]
    exact h
  | post cs o =>
    refine post_keeps (fun u p hu => ?_) h cs o
    rw [addDiagram_of_level (Nat.ne_of_gt (Nat.lt_of_le_of_lt (Nat.zero_le _) hu.level))]
    exact hu
  | restrict x keep =>
    unfold Solver.perform Solver.restrict
    dsimp only
    split_ifs
    · cases s.domains.restrict? x keep with
      | none => exact h
      | some r => exact h.congr rfl rfl rfl fun _ => rfl
    · exact h
  | propagate => exact h.propagate
  | openCheckpoint =>
    obtain ⟨above, e⟩ := h.kept
    refine ⟨⟨s.world :: above, ?_⟩, h.rootFailure, h.size, h.plan⟩
    show s.world :: s.history.kept = _
    rw [e]
    rfl
  | backtrack target =>
    unfold Solver.perform backtrack?
    dsimp only
    split_ifs with lt
    · obtain ⟨above, e⟩ := h.kept
      refine ⟨History.kept_backtrack e stays lt, h.rootFailure, ?_, fun i => ?_⟩
      · show (s.entries.map _).size = _
        rw [Array.size_map, h.size]
      · rw [← h.plan i]
        show ((s.entries.map _)[i]?).map _ = (s.entries[i]?).map _
        rw [Array.getElem?_map, Option.map_map]
        rfl
    · exact h

theorem Above.performAll {os : List Operation} (h : Above b s)
    (stays : ∀ o ∈ os, o.StaysAbove b.level) : Above b (s.performAll os) := by
  induction os generalizing s with
  | nil => exact h
  | cons o os ih =>
    exact ih (h.perform (stays o List.mem_cons_self)) fun o' h' => stays o' (List.mem_cons_of_mem _ h')

/-- The solver to which going back leads. -/
theorem Above.backtrack (h : Above b s) : ∃ t, s.backtrack? b.level = some t ∧
    t.history = b.history.modify (fun w => { w with domains := w.domains.settle }) ∧
    t.queue = [] ∧ (∀ i, t.lostAt i = []) ∧ t.rootFailure = b.rootFailure ∧
    t.entries.size = b.entries.size ∧ ∀ i, t.planAt i = b.planAt i := by
  obtain ⟨above, e⟩ := h.kept
  refine ⟨_, if_pos h.level, ?_, rfl, fun i => ?_, h.rootFailure, ?_, fun i => ?_⟩
  · have back : s.history.backtrack b.level = b.history := History.backtrack_of_kept e
    exact congrArg (History.modify fun w => { w with domains := w.domains.settle }) back
  · show ((((s.entries.map fun e => { e with lost := [] })[i]?).map Entry.lost).getD []) = []
    rw [Array.getElem?_map, Option.map_map]
    cases s.entries[i]? <;> rfl
  · show (s.entries.map _).size = _
    rw [Array.size_map, h.size]
  · rw [← h.plan i]
    show ((s.entries.map _)[i]?).map _ = (s.entries[i]?).map _
    rw [Array.getElem?_map, Option.map_map]
    rfl

/-- Every world which is kept has a diagram for each entry. -/
def Paired (s : Solver) : Prop :=
  ∀ w, w = s.world ∨ w ∈ s.history.kept → w.diagrams.size = s.entries.size

theorem Paired.congr (h : Paired s) (kept : t.history.kept = s.history.kept)
    (diagrams : t.world.diagrams.size = s.world.diagrams.size)
    (size : t.entries.size = s.entries.size) : Paired t := by
  rintro w (rfl | hw)
  · rw [diagrams, size]
    exact h _ (Or.inl rfl)
  · rw [size]
    exact h w (Or.inr (kept ▸ hw))

theorem Paired.announce (h : Paired s) : Paired s.announce :=
  h.congr (kept_announce s) (by rw [diagrams_announce]) (informs_announce s).size

theorem Paired.callDiagram (h : Paired s) (fuel i : Nat) : Paired (s.callDiagram fuel i).2 := by
  unfold Solver.callDiagram
  split
  · exact h.congr rfl Array.size_setIfInBounds Array.size_setIfInBounds
  · exact h

/-- A propagation opens and closes no checkpoint, and fails at the root only in the end. -/
theorem fixed_drain (s : Solver) (fuel steps : Nat) :
    (drain fuel steps s).2.level = s.level ∧ (drain fuel steps s).2.rootFailure = s.rootFailure := by
  refine drain_keeps (I := fun u => u.level = s.level ∧ u.rootFailure = s.rootFailure) fuel
    (fun u hu => ?_) (fun u i rest hu _ => ?_) steps ⟨rfl, rfl⟩
  · rw [level_announce, (informs_announce u).rootFailure]
    exact hu
  · unfold Solver.callDiagram
    split <;> exact hu

theorem Paired.drain (h : Paired s) (fuel steps : Nat) : Paired (Solver.drain fuel steps s).2 :=
  drain_keeps fuel (fun _ hu => hu.announce)
    (fun u i rest hu _ => (hu.congr (t := u.dequeue rest) rfl rfl rfl).callDiagram _ i) steps h

theorem Paired.propagate (h : Paired s) : Paired s.propagate.2 := by
  unfold Solver.propagate propagateWithin
  split
  · exact h
  · have hdrain := h.announce.drain allowance allowance
    split <;> rename_i hu <;> rw [hu] at hdrain
    · exact hdrain
    · exact hdrain.congr rfl rfl rfl

theorem Paired.enrol (h : Paired s) (hl : s.level = 0) (p : Plan) : Paired (s.enrol p) := by
  have hk : s.history.kept = [] := List.length_eq_zero_iff.1 hl
  rintro w (rfl | hw)
  · show (s.world.diagrams.push _).size = (s.entries.push _).size
    rw [Array.size_push, Array.size_push, h _ (Or.inl rfl)]
  · have hw : w ∈ s.history.kept := hw
    rw [hk] at hw
    cases hw

theorem Paired.addDiagram (h : Paired s) (p : Plan) : Paired (s.addDiagram p).2 := by
  rcases addDiagram_cases s p with ⟨ha, e⟩ | ⟨e, -⟩
  · rw [e]
    exact (h.enrol ha.level p).propagate
  · rw [e]
    exact h

/-- Unless the solver failed at the root, every diagram with a list of layers waits. -/
def Listed (s : Solver) : Prop := s.rootFailure = none → ∀ i, s.lostAt i ≠ [] → i ∈ s.queue

theorem Listed.announce (h : Listed s) : Listed s.announce := by
  have hi := informs_announce s
  exact fun hf => hi.listed (h (hi.rootFailure ▸ hf))

/-- A diagram which is called leaves the queue, and its list is emptied. -/
theorem Listed.callDiagram (h : Listed s) (hp : Paired s) {rest : List Nat} (hq : s.queue = i :: rest)
    (fuel : Nat) : Listed ((s.dequeue rest).callDiagram fuel i).2 := by
  cases hplan : s.planAt i with
  | none =>
    rw [callDiagram_of_unknown (s := s.dequeue rest) hplan fuel]
    intro hf j hj
    refine (List.mem_cons.1 (hq ▸ h hf j hj)).resolve_left fun e => hj ?_
    have he : s.entries[j]? = none := Option.map_eq_none_iff.1 (e ▸ hplan)
    show ((s.entries[j]?).map (·.lost)).getD [] = []
    rw [he]
    rfl
  | some p =>
    obtain ⟨d, hd⟩ := diagram_of_planAt (hp _ (Or.inl rfl)) hplan
    obtain ⟨-, hc⟩ := called_callDiagram (s := s.dequeue rest) hplan hd fuel
    intro hf j hj
    rw [hc.lost] at hj
    split_ifs at hj with ji
    · exact absurd rfl hj
    · rw [hc.queue]
      exact (List.mem_cons.1 (hq ▸ h (hc.rootFailure ▸ hf) j hj)).resolve_left ji

/-- No diagram waits, and no change is to be told. -/
structure Quiet (s : Solver) : Prop where
  queue : s.queue = []
  lost : ∀ i, s.lostAt i = []
  changed : s.domains.changed = #[]

theorem Listed.propagate (h : Listed s) (hp : Paired s)
    (hs : s.propagate.1 = none ∨ s.level = 0) : Listed s.propagate.2 := by
  revert hs
  unfold Solver.propagate propagateWithin
  split
  · exact fun _ => h
  · have hdrain := drain_keeps (I := fun u => Paired u ∧ Listed u) allowance
      (fun u hu => ⟨hu.1.announce, hu.2.announce⟩)
      (fun u i rest hu hq => ⟨(hu.1.congr (t := u.dequeue rest) rfl rfl rfl).callDiagram _ i,
        hu.2.callDiagram hu.1 hq _⟩) allowance ⟨hp.announce, h.announce⟩
    have hl := (fixed_drain s.announce allowance allowance).1
    split <;> rename_i hu <;> rw [hu] at hdrain hl
    · exact fun _ => hdrain.2
    · rintro (hs | hs)
      · cases hs
      · intro hf
        rw [level_announce, hs] at hl
        simp only [if_pos hl] at hf
        cases hf

/-- After a propagation which succeeds nothing waits. -/
theorem quiet_of_propagate (h : Listed s) (hp : Paired s) (hs : s.propagate.1 = none) :
    Quiet s.propagate.2 := by
  have hlist := h.propagate hp (Or.inl hs)
  cases hf : s.rootFailure with
  | some f =>
    unfold Solver.propagate propagateWithin at hs
    rw [hf] at hs
    cases hs
  | none =>
    obtain ⟨u, hu, ht, -⟩ := propagate_eq hf (Prod.ext hs rfl : s.propagate = (none, s.propagate.2))
    rw [ht rfl] at hlist ⊢
    obtain ⟨hr, hq⟩ := rounds_drain allowance allowance hu
    have hchanged : u.domains.changed = #[] := by
      rcases Relation.ReflTransGen.cases_tail hr with rfl | ⟨v, -, -, -, v', -, -, rfl⟩
      · rw [domains_announce]
        rfl
      · rw [domains_announce]
        rfl
    have hnone : u.rootFailure = none := by
      have hfix := (fixed_drain s.announce allowance allowance).2
      rw [hu] at hfix
      exact hfix.trans ((informs_announce s).rootFailure.trans hf)
    refine ⟨hq, fun i => ?_, hchanged⟩
    by_contra hne
    have := hlist hnone i hne
    rw [hq] at this
    cases this

/-- Every propagation which fails is followed by going back to an earlier checkpoint. -/
def GoesBack : Solver → List Operation → Prop
  | _, [] => True
  | s, o :: os =>
    (o = .propagate → s.propagate.1 ≠ none →
      ∃ target rest, os = .backtrack target :: rest ∧ target < s.level) ∧ GoesBack (s.perform o).2 os

theorem Paired.backtrack (h : Paired s) {target : Nat} (hb : s.backtrack? target = some t) :
    Paired t := by
  unfold backtrack? at hb
  split_ifs at hb with lt
  obtain rfl := Option.some.inj hb
  have back : ∀ w, w = (s.history.backtrack target).current ∨ w ∈ (s.history.backtrack target).kept →
      w ∈ s.history.kept := by
    unfold History.backtrack
    split
    · rename_i v rest e
      rw [if_pos (show target < s.history.level from lt)]
      have hv : ∀ w ∈ v :: rest, w ∈ s.history.kept := fun w hw => List.mem_of_mem_drop (e ▸ hw)
      rintro w (rfl | hw)
      · exact hv _ List.mem_cons_self
      · exact hv _ (List.mem_cons_of_mem _ hw)
    · rename_i e
      have := congrArg List.length e
      rw [List.length_drop] at this
      have hl : s.history.kept.length = s.level := rfl
      exact absurd this (by simp only [List.length_nil, History.level]; omega)
  have hsize : (s.entries.map fun e => { e with lost := [] }).size = s.entries.size := Array.size_map
  rintro w (rfl | hw)
  · exact (h _ (Or.inr (back _ (Or.inl rfl)))).trans hsize.symm
  · exact (h w (Or.inr (back w (Or.inr hw)))).trans hsize.symm

theorem Paired.openCheckpoint (h : Paired s) : Paired s.openCheckpoint := by
  rintro w (rfl | hw)
  · exact h _ (Or.inl rfl)
  · rcases List.mem_cons.1 (show w ∈ s.world :: s.history.kept from hw) with rfl | hw
    · exact h _ (Or.inl rfl)
    · exact h w (Or.inr hw)

theorem perform_backtrack {target : Nat} (back : s.backtrack? target = some t) :
    (s.perform (.backtrack target)).2 = t := by
  unfold Solver.perform
  dsimp only
  rw [back]

/-- No operation changes the plan of a diagram. -/
theorem planAt_perform {p : Plan} (h : s.planAt i = some p) (o : Operation) : (s.perform o).2.planAt i = some p := by
  refine perform_keeps (I := fun u => u.planAt i = some p) (fun u q hu => ?_) (fun _ _ hu => hu)
    (fun u hu => (planAt_propagate u i).trans hu) (fun _ hu => hu)
    (fun _ _ _ hu back => (planAt_backtrack? back).trans hu) h o
  rcases addDiagram_cases u q with ⟨-, e⟩ | ⟨e, -⟩
  · rw [e]
    refine (planAt_propagate _ i).trans ?_
    obtain ⟨e, he, hp⟩ := Option.map_eq_some_iff.1 hu
    have lt := (Array.getElem?_eq_some_iff.1 he).1
    show ((u.entries.push { plan := q })[i]?).map Entry.plan = some p
    rw [Array.getElem?_push_lt lt, ← Array.getElem?_eq_getElem lt, he]
    exact congrArg some hp
  · rw [e]
    exact hu

theorem planAt_performAll {p : Plan} (h : s.planAt i = some p) (os : List Operation) :
    (s.performAll os).planAt i = some p := by
  induction os generalizing s with
  | nil => exact h
  | cons o os ih => exact ih (planAt_perform h o)

/-- Throughout a run there is a diagram for each plan. -/
theorem paired_of_run {β : Type} {R : Rules β} {h : Story β} (run : Run R h s) : Paired s := by
  induction run with
  | start =>
    rintro w (rfl | hw)
    · rfl
    · cases hw
  | addVariable _ _ added ih =>
    unfold addVariable at added
    split_ifs at added
    obtain ⟨-, rfl⟩ := Prod.mk.inj (Except.ok.inj added)
    exact ih.congr rfl rfl rfl
  | @post _ _ _ _ p _ _ _ _ posted ih =>
    have paired := ih.addDiagram p
    rwa [posted] at paired
  | restrict _ _ restricted ih =>
    unfold Solver.restrict at restricted
    split_ifs at restricted
    split at restricted
    · obtain rfl := Except.ok.inj restricted
      exact ih.congr rfl rfl rfl
    · cases restricted
  | openCheckpoint _ _ _ ih => exact ih.openCheckpoint
  | backtrack _ back ih => exact ih.backtrack back
  | propagate _ _ ended ih | conflict _ _ ended _ ih =>
    have paired := ih.propagate
    rwa [ended] at paired

theorem diagram_eq_getD {β : Type} {R : Rules β} {h : Story β} (run : Run R h s) {p : Plan}
    (plan : s.planAt i = some p) (other : Diagram) :
    s.world.diagrams[i]? = some ((s.world.diagrams[i]?).getD other) := by
  obtain ⟨d, hd⟩ := diagram_of_planAt (paired_of_run run _ (Or.inl rfl)) plan
  rw [hd]
  rfl

theorem Paired.perform (h : Paired s) (o : Operation) : Paired (s.perform o).2 :=
  perform_keeps (fun _ p hu => hu.addDiagram p) (fun _ _ hu => hu.congr rfl rfl rfl) (fun _ hu => hu.propagate)
    (fun _ hu => hu.openCheckpoint) (fun _ _ _ hu back => hu.backtrack back) h o

theorem Listed.addDiagram (h : Paired s ∧ Listed s) (p : Plan) :
    Paired (s.addDiagram p).2 ∧ Listed (s.addDiagram p).2 := by
  refine ⟨h.1.addDiagram p, ?_⟩
  rcases addDiagram_cases s p with ⟨ha, e⟩ | ⟨e, -⟩
  · rw [e]
    refine Listed.propagate (fun hf i hi => ?_) (h.1.enrol ha.level p) (Or.inr ha.level)
    refine mem_queue_lineUp.2 (Or.inr (h.2 hf i fun hl => hi ?_))
    show (((s.entries.push { plan := p })[i]?).map Entry.lost).getD [] = []
    rw [Array.getElem?_push]
    split_ifs
    · rfl
    · exact hl
  · rw [e]
    exact h.2

theorem lostAt_backtrack {target : Nat} (hb : s.backtrack? target = some t) (i : Nat) :
    t.lostAt i = [] := by
  unfold backtrack? at hb
  split_ifs at hb
  obtain rfl := Option.some.inj hb
  show ((((s.entries.map fun e => { e with lost := [] })[i]?).map Entry.lost).getD []) = []
  rw [Array.getElem?_map, Option.map_map]
  cases s.entries[i]? <;> rfl

theorem Listed.perform (h : Listed s) (hp : Paired s) {o : Operation}
    (hs : o = .propagate → s.propagate.1 = none) : Listed (s.perform o).2 := by
  cases o with
  | newVariable d =>
    unfold Solver.perform addVariable
    dsimp only
    split_ifs
    · exact h
    · cases d with
      | none => exact h
      | some d => exact h
  | add p => exact (Listed.addDiagram ⟨hp, h⟩ p).2
  | post cs o =>
    exact (post_keeps (I := fun u => Paired u ∧ Listed u) (fun _ p hu => Listed.addDiagram hu p)
      ⟨hp, h⟩ cs o).2
  | restrict x keep =>
    unfold Solver.perform Solver.restrict
    dsimp only
    split_ifs
    · cases s.domains.restrict? x keep <;> exact h
    · exact h
  | propagate => exact h.propagate hp (Or.inl (hs rfl))
  | openCheckpoint => exact h
  | backtrack target =>
    unfold Solver.perform
    dsimp only
    split
    · rename_i t ht
      exact fun _ i hi => absurd (lostAt_backtrack ht i) hi
    · exact h

/-- When a run comes to a propagation, all diagrams with a list of layers wait. -/
theorem listed_performAll {after : List Operation} : ∀ (os : List Operation) {s : Solver}, Paired s →
    (Listed s ∨ ∃ target rest, os ++ .propagate :: after = .backtrack target :: rest ∧
      target < s.level) →
    s.GoesBack (os ++ .propagate :: after) → Paired (s.performAll os) ∧ Listed (s.performAll os)
  | [], s, hp, h, _ => by
    rcases h with h | ⟨target, rest, e, -⟩
    · exact ⟨hp, h⟩
    · cases e
  | o :: os, s, hp, h, hback => by
    have next := hback.2
    refine listed_performAll os (hp.perform o) ?_ next
    rcases h with h | ⟨target, rest, e, lt⟩
    · by_cases hs : o = .propagate → s.propagate.1 = none
      · exact Or.inl (h.perform hp hs)
      · obtain ⟨rfl, hf⟩ := Classical.not_imp.1 hs
        obtain ⟨target, rest, e, lt⟩ := hback.1 rfl hf
        refine Or.inr ⟨target, rest, e, ?_⟩
        have hl : s.propagate.2.level = s.level := by
          unfold Solver.propagate propagateWithin
          split
          · rfl
          · have hfix := (fixed_drain s.announce allowance allowance).1
            rw [level_announce] at hfix
            split <;> rename_i hu <;> rw [hu] at hfix <;> exact hfix
        exact Nat.lt_of_lt_of_eq lt hl.symm
    · obtain ⟨rfl, -⟩ := List.cons.inj e
      refine Or.inl fun _ i hi => absurd ?_ hi
      have ht : s.backtrack? target = some _ := if_pos lt
      show (Solver.perform s (.backtrack target)).2.lostAt i = []
      unfold Solver.perform
      dsimp only
      rw [ht]
      exact lostAt_backtrack ht i

theorem Quiet.perform (h : Quiet s) {o : Operation} (ho : o.KeepsDomains) : Quiet (s.perform o).2 := by
  cases o with
  | propagate =>
    show Quiet s.propagate.2
    unfold Solver.propagate propagateWithin
    split
    · exact h
    · have ha : s.announce = s.setDomains s.domains.settle := by
        unfold Solver.announce
        rw [h.changed]
        rfl
      have hd : ∀ steps, (drain allowance steps s.announce).2 = s.announce := by
        intro steps
        cases steps with
        | zero => rfl
        | succ steps =>
          unfold drain
          rw [ha, show (s.setDomains s.domains.settle).queue = [] from h.queue]
      have hq : Quiet s.announce := ha ▸ ⟨h.queue, h.lost, rfl⟩
      have := hd allowance
      split <;> rename_i hu <;> rw [hu] at this
      · exact this ▸ hq
      · obtain rfl : _ = s.announce := this
        exact ⟨rfl, hq.lost, hq.changed⟩
  | openCheckpoint => exact ⟨h.queue, h.lost, h.changed⟩
  | backtrack target =>
    unfold Solver.perform
    dsimp only
    split
    · rename_i t ht
      refine ⟨?_, lostAt_backtrack ht, ?_⟩ <;>
      · unfold backtrack? at ht
        split_ifs at ht
        obtain rfl := Option.some.inj ht
        rfl
    · exact h
  | newVariable | add | post | restrict => cases ho

theorem Quiet.performAll : ∀ {os : List Operation} {s : Solver}, Quiet s →
    (∀ o ∈ os, o.KeepsDomains) → Quiet (s.performAll os)
  | [], _, h, _ => h
  | _ :: _, _, h, ho =>
    (h.perform (ho _ List.mem_cons_self)).performAll fun o' h' => ho o' (List.mem_cons_of_mem _ h')

/-- Going back from above a checkpoint which was opened when nothing waited leads to a solver which
is alike. -/
theorem Above.alike_backtrack (h : Above b s) (hq : Quiet b) :
    ∃ t, s.backtrack? b.level = some t ∧ Alike t b := by
  obtain ⟨t, hb, hh, hqueue, hlost, hroot, hsize, hplan⟩ := h.backtrack
  refine ⟨t, hb, ?_, hqueue.trans hq.queue.symm, hroot, ?_⟩
  · have hsettled : b.domains.settle = b.domains := by
      unfold Domains.settle
      rw [← hq.changed]
    rw [hh]
    show ({ current := { b.world with domains := b.domains.settle }, kept := b.history.kept } :
      History World) = b.history
    rw [hsettled]
    rfl
  · refine Array.ext (by simpa using hsize) fun i hi hi' => ?_
    have it : i < t.entries.size := by simpa using hi
    have ib : i < b.entries.size := by simpa using hi'
    have hp := hplan i
    have hl := (hlost i).trans (hq.lost i).symm
    simp only [planAt, lostAt, Array.getElem?_eq_getElem it, Array.getElem?_eq_getElem ib,
      Option.map_some, Option.some.injEq, Option.getD_some] at hp hl
    simp only [Array.getElem_map, Prod.mk.injEq]
    exact ⟨hp, hl⟩

/-- An excursion above a checkpoint which was opened after a propagation with success, before any
other change of the domains, leaves no trace: what follows answers and shows the same as if the
excursion had not been made, and in the end only counters may differ. -/
theorem trace_of_excursion (before quiet excursion after : List Operation)
    (back : GoesBack {} (before ++ .propagate :: quiet))
    (done : (performAll {} before).propagate.1 = none) (keeps : ∀ o ∈ quiet, o.KeepsDomains)
    (c : Nat) (level : (performAll {} (before ++ .propagate :: quiet)).level = c)
    (stays : ∀ o ∈ excursion, o.StaysAbove c) :
    let here := performAll {} (before ++ .propagate :: quiet)
    let there := here.performAll (.openCheckpoint :: excursion ++ [.backtrack c])
    there.trace after = here.trace after ∧ there.sight = here.sight ∧
      Alike (there.performAll after) (here.performAll after) := by
  intro here there
  have paired : Paired ({} : Solver) := by
    rintro w (rfl | hw)
    · rfl
    · cases hw
  have listed : Listed ({} : Solver) := fun _ i hi => absurd rfl hi
  obtain ⟨hp, hl⟩ := listed_performAll before paired (Or.inl listed) back
  have parts : here = (performAll {} before).propagate.2.performAll quiet :=
    performAll_append {} before (.propagate :: quiet)
  have hquiet : Quiet here := by
    rw [parts]
    exact (quiet_of_propagate hl hp done).performAll keeps
  have habove : Above here (here.openCheckpoint.performAll excursion) :=
    (above_openCheckpoint here).performAll (level ▸ stays)
  obtain ⟨t, hb, halike⟩ := habove.alike_backtrack hquiet
  have hthere : there = t :=
    (performAll_append here (.openCheckpoint :: excursion) [.backtrack c]).trans (perform_backtrack (level ▸ hb))
  rw [hthere]
  exact ⟨halike.trace after, halike.sight, halike.performAll after⟩

end Solver

end DecisionDiagrams
