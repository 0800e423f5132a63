import DecisionDiagrams.Proofs.Work.Edits
import DecisionDiagrams.Proofs.Engine.Computes

/-! Two propagations side by side, one of them with another use of the cache. `rwp x y S E w w'` says
that `x` in `w` and `y` in `w'` return the same value, in workspaces which `S` relates, or both stop for
the same reason, in workspaces which `E` relates. Every way to put steps together has one rule. A `Bond`
is a relation which survives the edits made on both sides; `Lockstep` says of two steps that they keep it.
What a step does is a sequence of edits which fit, so whatever such edits keep needs no proof of its own for
each step: it is an instance of a bond. -/

namespace DecisionDiagrams

/-- The plan with transitions remembered or not. -/
def Plan.caching (p : Plan) (b : Bool) : Plan :=
  { p with options := { p.options with useCache := b } }

namespace Work

variable {α β : Type} {S : α → Workspace → Workspace → Prop} {E : Workspace → Workspace → Prop}
variable {w w' : Workspace}

def rwp (x y : Work α) (S : α → Workspace → Workspace → Prop) (E : Workspace → Workspace → Prop)
    (w w' : Workspace) : Prop :=
  match x w, y w' with
  | .ok a u, .ok b u' => a = b ∧ S a u u'
  | .error e u, .error f u' => e = f ∧ E u u'
  | _, _ => False

theorem rwp.mono {x y : Work α} {S' : α → Workspace → Workspace → Prop}
    {E' : Workspace → Workspace → Prop} (h : rwp x y S E w w')
    (hS : ∀ a u u', S a u u' → S' a u u') (hE : ∀ u u', E u u' → E' u u') :
    rwp x y S' E' w w' := by
  unfold rwp at h ⊢
  split at h
  · exact ⟨h.1, hS _ _ _ h.2⟩
  · exact ⟨h.1, hE _ _ h.2⟩
  · exact h.elim

/-- What is known of the first of the two steps may be added. -/
theorem rwp.and_wp {x y : Work α} {Q : α → Workspace → Prop} {F : Workspace → Prop} (h : rwp x y S E w w')
    (k : wp x Q (fun _ => F) w) :
    rwp x y (fun a u u' => S a u u' ∧ Q a u) (fun u u' => E u u' ∧ F u) w w' := by
  unfold rwp wp at *
  cases hx : x w <;> cases hy : y w' <;> rw [hx] at h k <;> rw [hy] at h
  · exact ⟨h.1, h.2, k⟩
  · exact h
  · exact h
  · exact ⟨h.1, h.2, k⟩

theorem rwp_same {x : Work α} {Q : Workspace → Prop} (h : wp x (fun _ => Q) (fun _ => Q) w) :
    rwp x x (fun _ u u' => u = u' ∧ Q u) (fun u u' => u = u' ∧ Q u) w w := by
  unfold rwp wp at *
  cases hx : x w <;> rw [hx] at h <;> exact ⟨rfl, rfl, h⟩

theorem rwp_pure {a : α} (h : S a w w') : rwp (pure a) (pure a) S E w w' := ⟨rfl, h⟩

theorem rwp_throw (e : Stop) (h : E w w') : rwp (throw e : Work α) (throw e) S E w w' := ⟨rfl, h⟩

theorem rwp_bind {x y : Work α} {f g : α → Work β} {T : β → Workspace → Workspace → Prop}
    (h : rwp x y S E w w') (hf : ∀ a u u', S a u u' → rwp (f a) (g a) T E u u') :
    rwp (x >>= f) (y >>= g) T E w w' := by
  show (match EStateM.bind x f w, EStateM.bind y g w' with
    | .ok a u, .ok b u' => a = b ∧ T a u u'
    | .error e u, .error f u' => e = f ∧ E u u'
    | _, _ => False)
  unfold rwp at h
  unfold EStateM.bind
  cases hx : x w <;> cases hy : y w' <;> rw [hx, hy] at h
  · obtain ⟨rfl, h⟩ := h
    exact hf _ _ _ h
  · exact h.elim
  · exact h.elim
  · exact h

theorem rwp_get_bind {f g : Workspace → Work α} (h : rwp (f w) (g w') S E w w') :
    rwp (get >>= f) (get >>= g) S E w w' := h

theorem rwp_modify_bind {f g : Workspace → Workspace} {k l : PUnit → Work α}
    (h : rwp (k ⟨⟩) (l ⟨⟩) S E (f w) (g w')) : rwp (modify f >>= k) (modify g >>= l) S E w w' := h

theorem rwp_modifyGet_bind {f g : Workspace → β × Workspace} {k l : β → Work α}
    (ha : (g w').1 = (f w).1) (h : rwp (k (f w).1) (l (f w).1) S E (f w).2 (g w').2) :
    rwp (modifyGet f >>= k) (modifyGet g >>= l) S E w w' := by
  change rwp (k (f w).1) (l (g w').1) S E (f w).2 (g w').2
  rw [ha]
  exact h

theorem rwp_lift_bind {c : Checked β} {f g : β → Work α}
    (h : ∀ a, c = .ok a → rwp (f a) (g a) S E w w') (hE : E w w') :
    rwp (liftM c >>= f) (liftM c >>= g) S E w w' := by
  cases c with
  | ok a => exact h a rfl
  | error f => exact ⟨rfl, hE⟩

theorem rwp_ite {c : Prop} [Decidable c] {x y x' y' : Work α} (hx : c → rwp x x' S E w w')
    (hy : ¬ c → rwp y y' S E w w') :
    rwp (if c then x else y) (if c then x' else y') S E w w' := by
  split_ifs with h
  · exact hx h
  · exact hy h

/-- A loop over a list keeps a relation which speaks of what is left of the list. -/
theorem rwp_forM {f g : α → Work PUnit} {T : Workspace → Workspace → Prop}
    (I : List α → Workspace → Workspace → Prop) : ∀ (l : List α) {w w' : Workspace}, I l w w' →
    (∀ a l w w', I (a :: l) w w' → rwp (f a) (g a) (fun _ => I l) E w w') →
    (∀ w w', I [] w w' → T w w') → rwp (l.forM f) (l.forM g) (fun _ => T) E w w'
  | [], _, _, h, _, hT => rwp_pure (hT _ _ h)
  | a :: l, _, _, h, hstep, hT =>
    rwp_bind (hstep a l _ _ h) fun _ _ _ h' => rwp_forM I l h' hstep hT

/-- A fold over a list keeps a relation which speaks of what is left of the list. -/
theorem rwp_foldlM {f g : β → α → Work β} {T : β → Workspace → Workspace → Prop}
    (I : List α → β → Workspace → Workspace → Prop) (l : List α) {b : β} (h : I l b w w')
    (hstep : ∀ a l b w w', I (a :: l) b w w' → rwp (f b a) (g b a) (fun b' => I l b') E w w')
    (hT : ∀ b w w', I [] b w w' → T b w w') : rwp (l.foldlM f b) (l.foldlM g b) T E w w' := by
  induction l generalizing b w w' with
  | nil => exact rwp_pure (hT _ _ _ h)
  | cons a l ih =>
    rw [List.foldlM_cons, List.foldlM_cons]
    exact rwp_bind (hstep a l b w w' h) fun b' u u' h' => ih h'

/-- A loop over the numbers below a bound keeps a relation which speaks of the number reached. -/
theorem rwp_forM_range {f g : Nat → Work PUnit} {T : Workspace → Workspace → Prop}
    (I : Nat → Workspace → Workspace → Prop) {n : Nat} (h : I 0 w w')
    (hstep : ∀ l < n, ∀ w w', I l w w' → rwp (f l) (g l) (fun _ => I (l + 1)) E w w')
    (hT : ∀ w w', I n w w' → T w w') :
    rwp ((List.range n).forM f) ((List.range n).forM g) (fun _ => T) E w w' := by
  refine rwp_forM (fun ls w w' => ∃ l ≤ n, ls = List.range' l (n - l) ∧ I l w w') _
    ⟨0, Nat.zero_le n, List.range_eq_range', h⟩ (fun a ls w w' hi => ?_) fun w w' hi => ?_
  · obtain ⟨l, hl, e, hi⟩ := hi
    rcases Nat.lt_or_eq_of_le hl with hlt | rfl
    · rw [show n - l = n - (l + 1) + 1 by omega, List.range'_succ] at e
      obtain ⟨rfl, rfl⟩ := List.cons.inj e
      exact (hstep a hlt w w' hi).mono (fun _ _ _ h' => ⟨a + 1, hlt, rfl, h'⟩) fun _ _ h' => h'
    · rw [Nat.sub_self] at e
      cases e
  · obtain ⟨l, hl, e, hi⟩ := hi
    have := congrArg List.length e
    rw [List.length_range'] at this
    exact hT w w' (Nat.le_antisymm (Nat.sub_eq_zero_iff_le.1 this.symm) hl ▸ hi)

end Work

open Work

/-- Two steps which keep a relation between two workspaces. -/
def Lockstep {α : Type} (R : Workspace → Workspace → Prop) (x y : Work α) (w w' : Workspace) : Prop :=
  R w w' → rwp x y (fun _ u u' => R u u' ∧ Evolves w u) R w w'

/-- The steps go on from where others arrived. -/
theorem Evolves.goesOn {α : Type} {R : Workspace → Workspace → Prop} {x y : Work α} {w u u' : Workspace}
    (he : Evolves w u) (h : Lockstep R x y u u') (hr : R u u') :
    rwp x y (fun _ v v' => R v v' ∧ Evolves w v) R u u' :=
  (h hr).mono (fun _ _ _ k => ⟨k.1, he.trans k.2⟩) fun _ _ k => k

namespace Lockstep

variable {α β : Type} {R : Workspace → Workspace → Prop} {w w' : Workspace}

theorem drop {x y : Work α} (k : Lockstep R x y w w') (h : R w w') : rwp x y (fun _ => R) R w w' :=
  (k h).mono (fun _ _ _ k => k.1) fun _ _ k => k

/-- What is kept along with a relation is of interest only if the steps do not stop. -/
theorem keeps {J : Workspace → Prop} {x y : Work α} (k : Lockstep (fun w w' => R w w' ∧ J w) x y w w')
    (h : R w w') (hJ : J w) : rwp x y (fun _ u u' => (R u u' ∧ J u) ∧ Evolves w u) R w w' :=
  (k ⟨h, hJ⟩).mono (fun _ _ _ k => k) fun _ _ k => k.1

theorem pure (a : α) : Lockstep R (Pure.pure a) (Pure.pure a) w w' := fun hr => rwp_pure ⟨hr, .refl w⟩

theorem throw (e : Stop) : Lockstep R (throw e : Work α) (MonadExcept.throw e) w w' := rwp_throw e

theorem throw_bind (e : Stop) {f g : α → Work β} :
    Lockstep R (MonadExcept.throw e >>= f) (MonadExcept.throw e >>= g) w w' :=
  fun hr => rwp_bind (S := fun _ _ _ => False) (rwp_throw e hr) nofun

/-- The second steps may use what is known of the result of the first ones. -/
theorem bind_of {Q : α → Workspace → Prop} {x y : Work α} {f g : α → Work β}
    (h : R w w' → rwp x y (fun a u u' => (R u u' ∧ Evolves w u) ∧ Q a u) R w w')
    (hf : ∀ a u u', Evolves w u → Q a u → Lockstep R (f a) (g a) u u') :
    Lockstep R (x >>= f) (y >>= g) w w' :=
  fun hr => rwp_bind (h hr) fun a u u' k => k.1.2.goesOn (hf a u u' k.1.2 k.2) k.1.1

theorem bind {x y : Work α} {f g : α → Work β} (h : Lockstep R x y w w')
    (hf : ∀ a u u', Evolves w u → Lockstep R (f a) (g a) u u') : Lockstep R (x >>= f) (y >>= g) w w' :=
  bind_of (Q := fun _ _ => True) (fun hr => (h hr).mono (fun _ _ _ k => ⟨k, trivial⟩) fun _ _ k => k)
    fun a u u' he _ => hf a u u' he

theorem put {u u' : Workspace} (h : R w w' → R u u' ∧ Evolves w u) :
    Lockstep R (set u : Work PUnit) (set u') w w' := fun hr => ⟨rfl, h hr⟩

theorem put_bind {u u' : Workspace} {f g : PUnit → Work β} (h : R w w' → R u u' ∧ Evolves w u)
    (hf : Lockstep R (f ⟨⟩) (g ⟨⟩) u u') : Lockstep R (set u >>= f) (set u' >>= g) w w' :=
  fun hr => show rwp (f ⟨⟩) (g ⟨⟩) _ R u u' from (h hr).2.goesOn hf (h hr).1

theorem update {f g : Workspace → Workspace} (h : R w w' → R (f w) (g w') ∧ Evolves w (f w)) :
    Lockstep R (modify f : Work PUnit) (modify g) w w' := fun hr => ⟨rfl, h hr⟩

theorem lift (c : Checked α) : Lockstep R (liftM c) (liftM c) w w' := fun hr =>
  match c with
  | .ok _ => ⟨rfl, hr, .refl w⟩
  | .error _ => ⟨rfl, hr⟩

theorem lift_bind {c : Checked α} {f g : α → Work β}
    (h : ∀ a, c = .ok a → Lockstep R (f a) (g a) w w') :
    Lockstep R (liftM c >>= f) (liftM c >>= g) w w' :=
  fun hr => rwp_lift_bind (fun a ha => h a ha hr) hr

theorem ite {c : Prop} [Decidable c] {x y x' y' : Work α} (hx : c → Lockstep R x x' w w')
    (hy : ¬ c → Lockstep R y y' w w') :
    Lockstep R (if c then x else y) (if c then x' else y') w w' :=
  fun hr => rwp_ite (fun h => hx h hr) fun h => hy h hr

theorem forM {f g : α → Work PUnit} (l : List α)
    (h : ∀ a ∈ l, ∀ u u', Evolves w u → Lockstep R (f a) (g a) u u') :
    Lockstep R (l.forM f) (l.forM g) w w' := by
  induction l generalizing w w' with
  | nil => exact pure _
  | cons a l ih =>
    refine bind (f := fun _ => l.forM f) (g := fun _ => l.forM g)
      (h a List.mem_cons_self w w' (.refl w)) fun _ u u' he => ?_
    exact ih fun b hb v v' hv => h b (List.mem_cons_of_mem _ hb) v v' (he.trans hv)

theorem foldlM {f g : β → α → Work β} (h : ∀ b a u u', Lockstep R (f b a) (g b a) u u') (l : List α)
    {b : β} : Lockstep R (l.foldlM f b) (l.foldlM g b) w w' := by
  induction l generalizing b w w' with
  | nil => exact pure b
  | cons a l ih =>
    rw [List.foldlM_cons, List.foldlM_cons]
    exact bind (h b a w w') fun b' u u' _ => ih

theorem mapM {f g : α → Work β} (h : ∀ a u u', Lockstep R (f a) (g a) u u') (l : List α) :
    Lockstep R (l.mapM f) (l.mapM g) w w' := by
  induction l generalizing w w' with
  | nil =>
    rw [List.mapM_nil, List.mapM_nil]
    exact pure []
  | cons a l ih =>
    rw [List.mapM_cons, List.mapM_cons]
    exact bind (h a w w') fun b u u' _ => bind ih fun bs v v' _ => pure _

end Lockstep

/-- A relation between a workspace of a plan and one of the same plan which uses the cache as `b`
says. The two differ in what is remembered only, and go on so after an edit of both. -/
structure Bond (p : Plan) (b : Bool) (R : Workspace → Workspace → Prop) : Prop where
  alike : ∀ {w w'}, R w w' → ∃ cache hits misses, w' = w.recalling cache hits misses
  orderly : ∀ {w w'}, R w w' → Orderly p w
  cached : ∀ {w w'}, R w w' → w.cache.Sound p.model
  calm : ∀ {w w'} (e : Edit), e.kind = .calm → e.Fits p w → R w w' → R (e.apply w) (e.apply w')
  along : ∀ {w w'} (direction : Direction) (layer : Nat) (n : NodeId) (values : IntSet),
    Lockstep R (stateAlong p direction layer n values)
      (stateAlong (p.caching b) direction layer n values) w w'

/-- A relation which survives also the edits of another kind. -/
structure Bond.Also (p : Plan) (b : Bool) (kind : Edit.Kind) (R : Workspace → Workspace → Prop) : Prop
    extends Bond p b R where
  edit : ∀ {w w'} (e : Edit), e.kind = kind → e.Fits p w → R w w' → R (e.apply w) (e.apply w')

/-- A transition, whether it is remembered or not, changes only what is remembered. -/
theorem wp_stateAlong {p : Plan} {direction : Direction} {layer : Nat} {n : NodeId} {values : IntSet}
    {w : Workspace} {Q : Workspace → Prop} (h : Q w)
    (recalled : ∀ cache hits misses, Q (w.recalling cache hits misses)) :
    wp (stateAlong p direction layer n values) (fun _ => Q) (fun _ => Q) w := by
  unfold stateAlong
  rw [wp_bind, wp_get]
  dsimp only
  split
  · split
    · rw [wp_bind, wp_set, wp_pure]
      exact recalled w.cache _ _
    · rw [wp_bind, wp_monadLift]
      refine ⟨fun s _ => ?_, fun _ _ => h⟩
      rw [wp_bind, wp_set, wp_pure]
      exact recalled _ _ _
  · rw [wp_monadLift]
    exact ⟨fun _ _ => h, fun _ _ => h⟩

/-- What a transition remembers is right, if everything remembered before was. -/
theorem remembers_stateAlong {p : Plan} (direction : Direction) (layer : Nat) (n : NodeId)
    (values : IntSet) {w : Workspace} (h : w.cache.Sound p.model) {Q : Workspace → Prop}
    (recalled : ∀ cache hits misses, cache.Sound p.model → Q (w.recalling cache hits misses)) :
    wp (stateAlong p direction layer n values) (fun _ => Q) (fun _ => Q) w := by
  have same : ∀ u, (∃ cache hits misses, u = w.recalling cache hits misses) →
      Quiet p w u → Q u := by
    rintro _ ⟨cache, hits, misses, rfl⟩ quiet
    exact recalled cache hits misses (quiet.cached h)
  refine wp.mono (wp.and (wp_stateAlong (Q := fun u => ∃ cache hits misses,
    u = w.recalling cache hits misses) ⟨_, _, _, rfl⟩ fun _ _ _ => ⟨_, _, _, rfl⟩)
    (computes_stateAlong h direction layer n values)) ?_ ?_
  · exact fun _ u k => same u k.1 k.2.1
  · exact fun _ u k => same u k.1 k.2.1

namespace Bond

variable {α β : Type} {p : Plan} {b : Bool} {R : Workspace → Workspace → Prop} {w w' : Workspace}

/-- A bond may speak of anything which no calm edit destroys. -/
theorem and (B : Bond p b R) {J : Workspace → Prop} (hJ : ∀ w u, Subsides w u → J w → J u) :
    Bond p b fun w w' => R w w' ∧ J w where
  alike h := B.alike h.1
  orderly h := B.orderly h.1
  cached h := B.cached h.1
  calm e he fits h := ⟨B.calm e he fits h.1, hJ _ _ (Edit.subsides he fits) h.2⟩
  along {w _} direction layer n values h := by
    refine ((B.along direction layer n values h.1).and_wp (Q := fun _ => J) (F := J)
      (wp_stateAlong h.2 fun cache hits misses => ?_)).mono (fun _ _ _ k => ⟨⟨k.1.1, k.2⟩, k.1.2⟩) fun _ _ k => k
    exact hJ w _ (.recalling w cache hits misses) h.2

theorem get_bind (B : Bond p b R) {f g : Workspace → Work β}
    (h : Orderly p w → ∀ cache hits misses, Lockstep R (f w) (g (w.recalling cache hits misses)) w
      (w.recalling cache hits misses)) :
    Lockstep R (get >>= f) (get >>= g) w w' := fun hr => by
  obtain ⟨cache, hits, misses, rfl⟩ := B.alike hr
  exact h (B.orderly hr) cache hits misses hr

theorem after (B : Bond p b R) (e : Edit) (he : e.kind = .calm) (fits : e.Fits p w) (h : R w w') :
    R (e.apply w) (e.apply w') ∧ Evolves w (e.apply w) :=
  ⟨B.calm e he fits h, e.evolves fits (B.orderly h)⟩

theorem edit (B : Bond p b R) (e : Edit) (he : e.kind = .calm) (fits : e.Fits p w) :
    Lockstep R (modify e.apply : Work PUnit) (modify e.apply) w w' :=
  .update (B.after e he fits)

end Bond
end DecisionDiagrams
