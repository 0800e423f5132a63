import DecisionDiagrams.Diagram.Maintenance
import Mathlib.Tactic.Common

/-! Reasoning about steps of a propagation. `wp x Q E w` says that `x`, started in `w`, either returns
a value and a workspace for which `Q` holds, or stops in a workspace for which `E` holds. Every way to
put steps together has one rule. -/

namespace DecisionDiagrams

theorem Checked.bind_eq_ok {α β : Type} {x : Checked α} {f : α → Checked β} {b : β} :
    x >>= f = .ok b ↔ ∃ a, x = .ok a ∧ f a = .ok b := by
  constructor
  · intro h
    cases x with
    | ok a => exact ⟨a, rfl, h⟩
    | error f => cases h
  · rintro ⟨a, rfl, h⟩
    exact h

/-- What the results of a computation along a list have in common with its elements. -/
theorem Checked.map_of_mapM {α β γ : Type} {f : α → Checked β} {g : β → γ} {h : α → γ}
    (hf : ∀ x y, f x = .ok y → g y = h x) : ∀ {l : List α} {r : List β},
    l.mapM f = .ok r → r.map g = l.map h
  | [], r, e => by
    rw [List.mapM_nil] at e
    obtain rfl := Except.ok.inj e
    rfl
  | x :: l, r, e => by
    rw [List.mapM_cons, Checked.bind_eq_ok] at e
    obtain ⟨y, hy, e⟩ := e
    obtain ⟨rest, hrest, e⟩ := Checked.bind_eq_ok.1 e
    obtain rfl := Except.ok.inj e
    rw [List.map_cons, List.map_cons, hf x y hy, map_of_mapM hf hrest]

namespace Checked

variable {α β : Type}

theorem exists_bind {x : Checked α} {f : α → Checked β} (hx : ∃ a, x = .ok a)
    (hf : ∀ a, ∃ b, f a = .ok b) : ∃ b, x >>= f = .ok b := by
  obtain ⟨a, rfl⟩ := hx
  exact hf a

theorem exists_mapM {f : α → Checked β} : ∀ {l : List α}, (∀ x ∈ l, ∃ y, f x = .ok y) →
    ∃ r, l.mapM f = .ok r
  | [], _ => ⟨[], rfl⟩
  | x :: l, h => by
    obtain ⟨y, hy⟩ := h x List.mem_cons_self
    obtain ⟨r, hr⟩ := exists_mapM fun z hz => h z (List.mem_cons_of_mem _ hz)
    exact ⟨y :: r, by rw [List.mapM_cons, hy, hr]; rfl⟩

theorem exists_foldlM {f : β → α → Checked β} (hf : ∀ b a, ∃ c, f b a = .ok c) :
    ∀ (l : List α) (b : β), ∃ c, l.foldlM f b = .ok c
  | [], b => ⟨b, rfl⟩
  | a :: l, b => by
    rw [List.foldlM_cons]
    exact exists_bind (hf b a) fun c => exists_foldlM hf l c

theorem exists_allM {f : α → Checked Bool} : ∀ {l : List α}, (∀ x ∈ l, ∃ b, f x = .ok b) →
    ∃ b, l.allM f = .ok b
  | [], _ => ⟨true, rfl⟩
  | x :: l, h => by
    obtain ⟨b, hb⟩ := h x List.mem_cons_self
    rw [List.allM, hb]
    cases b with
    | false => exact ⟨false, rfl⟩
    | true => exact exists_allM fun z hz => h z (List.mem_cons_of_mem _ hz)

theorem of_allM {check : α → Checked Bool} : ∀ {cs : List α},
    cs.allM check = .ok true → ∀ c ∈ cs, check c = .ok true
  | [], _, _, hc => nomatch hc
  | a :: cs, h, c, hc => by
    rw [List.allM_cons, Checked.bind_eq_ok] at h
    obtain ⟨b, hb, h⟩ := h
    cases b with
    | false => cases h
    | true =>
      rcases List.mem_cons.1 hc with rfl | hc
      · exact hb
      · exact of_allM h c hc

end Checked

namespace Work

variable {α β : Type}

def wp (x : Work α) (Q : α → Workspace → Prop) (E : Stop → Workspace → Prop) (w : Workspace) : Prop :=
  match x w with
  | .ok a w' => Q a w'
  | .error e w' => E e w'

variable {Q : α → Workspace → Prop} {E : Stop → Workspace → Prop} {w : Workspace}

theorem wp.mono {x : Work α} {Q' : α → Workspace → Prop} {E' : Stop → Workspace → Prop}
    (h : wp x Q E w) (hQ : ∀ a w', Q a w' → Q' a w') (hE : ∀ e w', E e w' → E' e w') :
    wp x Q' E' w := by
  unfold wp at h ⊢
  split at h
  · exact hQ _ _ h
  · exact hE _ _ h

theorem wp.and {x : Work α} {Q' : α → Workspace → Prop} {E' : Stop → Workspace → Prop}
    (h : wp x Q E w) (h' : wp x Q' E' w) :
    wp x (fun a w' => Q a w' ∧ Q' a w') (fun e w' => E e w' ∧ E' e w') w := by
  unfold wp at *
  split at h <;> simp_all

@[simp] theorem wp_pure (a : α) : wp (pure a) Q E w ↔ Q a w := Iff.rfl

@[simp] theorem wp_throw (e : Stop) : wp (throw e : Work α) Q E w ↔ E e w := Iff.rfl

theorem wp_bind {x : Work α} {f : α → Work β} {Q : β → Workspace → Prop} :
    wp (x >>= f) Q E w ↔ wp x (fun a w' => wp (f a) Q E w') E w := by
  show (match EStateM.bind x f w with
    | .ok a w' => Q a w'
    | .error e w' => E e w') ↔ _
  unfold wp EStateM.bind
  cases x w <;> rfl

@[simp] theorem wp_get {Q : Workspace → Workspace → Prop} : wp get Q E w ↔ Q w w := Iff.rfl

@[simp] theorem wp_set (w' : Workspace) {Q : PUnit → Workspace → Prop} :
    wp (set w') Q E w ↔ Q ⟨⟩ w' := Iff.rfl

@[simp] theorem wp_modify (f : Workspace → Workspace) {Q : PUnit → Workspace → Prop} :
    wp (modify f) Q E w ↔ Q ⟨⟩ (f w) := Iff.rfl

@[simp] theorem wp_modifyGet (f : Workspace → α × Workspace) :
    wp (modifyGet f) Q E w ↔ Q (f w).1 (f w).2 := Iff.rfl

theorem wp_ite {c : Prop} [Decidable c] {x y : Work α} :
    wp (if c then x else y) Q E w ↔ (c → wp x Q E w) ∧ (¬ c → wp y Q E w) := by
  by_cases h : c <;> simp [h]

/-- A rule which is evaluated either gives a value or stops the propagation. -/
theorem wp_ofChecked {c : Checked α} :
    wp (ofChecked c) Q E w ↔ (∀ a, c = .ok a → Q a w) ∧ (∀ f, c = .error f → E (.fault f) w) := by
  cases c with
  | ok a => simp [ofChecked]
  | error f => simp [ofChecked]

@[simp] theorem wp_lift {c : Checked α} :
    wp (liftM c) Q E w ↔ (∀ a, c = .ok a → Q a w) ∧ (∀ f, c = .error f → E (.fault f) w) :=
  wp_ofChecked

@[simp] theorem wp_monadLift {c : Checked α} :
    wp (monadLift c) Q E w ↔
      (∀ a, c = .ok a → Q a w) ∧ (∀ f, c = .error f → E (.fault f) w) :=
  wp_ofChecked

/-- A loop over a list keeps an invariant which speaks of what is left of the list. -/
theorem wp_forM {f : α → Work PUnit} (I : List α → Workspace → Prop) {Q : PUnit → Workspace → Prop} :
    ∀ (l : List α) {w : Workspace}, I l w →
    (∀ a l w, I (a :: l) w → wp (f a) (fun _ w' => I l w') E w) →
    (∀ w, I [] w → Q ⟨⟩ w) → wp (l.forM f) Q E w
  | [], w, h, _, hQ => by
    exact hQ w h
  | a :: l, w, h, hstep, hQ => by
    show wp (f a >>= fun _ => l.forM f) Q E w
    rw [wp_bind]
    refine (hstep a l w h).mono (fun _ w' h' => ?_) fun _ _ h' => h'
    exact wp_forM I l h' hstep hQ

/-- A loop over the numbers below a bound keeps an invariant which speaks of the number reached. -/
theorem wp_forM_range {f : Nat → Work PUnit} (I : Nat → Workspace → Prop) {n : Nat}
    {Q : PUnit → Workspace → Prop} (h : I 0 w)
    (hstep : ∀ l < n, ∀ w, I l w → wp (f l) (fun _ w' => I (l + 1) w') E w)
    (hQ : ∀ w, I n w → Q ⟨⟩ w) : wp ((List.range n).forM f) Q E w := by
  refine wp_forM (fun ls w => ∃ l ≤ n, ls = List.range' l (n - l) ∧ I l w) _
    ⟨0, Nat.zero_le n, List.range_eq_range', h⟩ (fun a ls w hi => ?_) fun w hi => ?_
  · obtain ⟨l, hl, e, hi⟩ := hi
    rcases Nat.lt_or_eq_of_le hl with hlt | rfl
    · rw [show n - l = n - (l + 1) + 1 by omega, List.range'_succ] at e
      obtain ⟨rfl, rfl⟩ := List.cons.inj e
      exact wp.mono (hstep a hlt w hi) (fun _ w' h' => ⟨a + 1, hlt, rfl, h'⟩) fun _ _ h' => h'
    · rw [Nat.sub_self] at e
      cases e
  · obtain ⟨l, hl, e, hi⟩ := hi
    have : n - l = 0 := by
      have := congrArg List.length e
      rw [List.length_range'] at this
      exact this.symm
    exact hQ w (Nat.le_antisymm (Nat.sub_eq_zero_iff_le.1 this) hl ▸ hi)

/-- A fold over a list keeps an invariant which speaks of what is left of the list. -/
theorem wp_foldlM {f : β → α → Work β} (I : List α → β → Workspace → Prop)
    {Q : β → Workspace → Prop} :
    ∀ (l : List α) {b : β} {w : Workspace}, I l b w →
    (∀ a l b w, I (a :: l) b w → wp (f b a) (fun b' w' => I l b' w') E w) →
    (∀ b w, I [] b w → Q b w) → wp (l.foldlM f b) Q E w
  | [], b, w, h, _, hQ => by
    exact hQ b w h
  | a :: l, b, w, h, hstep, hQ => by
    rw [List.foldlM_cons, wp_bind]
    refine (hstep a l b w h).mono (fun _ w' h' => ?_) fun _ _ h' => h'
    exact wp_foldlM I l h' hstep hQ

end Work
end DecisionDiagrams
