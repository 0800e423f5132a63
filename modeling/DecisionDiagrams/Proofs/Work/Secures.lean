import DecisionDiagrams.Proofs.Work.Evolves

/-! What is sure after a step that succeeds. `Secures` says of a step, next to keeping the workspace tidy
and going on from it, what holds afterwards; nothing is said of a step which stops. -/

namespace DecisionDiagrams

open Work Cascade

/-- A step after which `Q` holds if it does not stop. -/
def Secures {α : Type} (p : Plan) (stale : Nat → Prop) (x : Work α) (Q : α → Workspace → Prop)
    (w : Workspace) : Prop :=
  Tidy p stale [] w →
    wp x (fun a w' => Tidy p stale [] w' ∧ Evolves w w' ∧ Q a w') (fun _ _ => True) w

namespace Secures

variable {α β : Type} {p : Plan} {stale : Nat → Prop} {w : Workspace} {Q : α → Workspace → Prop}
  {R : β → Workspace → Prop}

theorem pure {a : α} (h : Tidy p stale [] w → Q a w) : Secures p stale (Pure.pure a) Q w :=
  fun ht => ⟨ht, .refl w, h ht⟩

theorem mono {x : Work α} {Q' : α → Workspace → Prop} (h : Secures p stale x Q w)
    (hQ : ∀ a w', Tidy p stale [] w' → Evolves w w' → Q a w' → Q' a w') : Secures p stale x Q' w :=
  fun ht => wp.mono (h ht) (fun a w' k => ⟨k.1, k.2.1, hQ a w' k.1 k.2.1 k.2.2⟩) fun _ _ _ => trivial

theorem bind {x : Work α} {f : α → Work β} (h : Secures p stale x Q w)
    (hf : ∀ a w', Tidy p stale [] w' → Evolves w w' → Q a w' → Secures p stale (f a) R w') :
    Secures p stale (x >>= f) R w := by
  intro ht
  rw [wp_bind]
  refine wp.mono (h ht) (fun a w' k => ?_) fun _ _ _ => trivial
  exact wp.mono (hf a w' k.1 k.2.1 k.2.2 k.1) (fun _ _ l => ⟨l.1, k.2.1.trans l.2.1, l.2.2⟩)
    fun _ _ _ => trivial

theorem and {x : Work α} {Q' : α → Workspace → Prop} (h : Secures p stale x Q w) (k : Secures p stale x Q' w) :
    Secures p stale x (fun a w' => Q a w' ∧ Q' a w') w := fun ht =>
  wp.mono (wp.and (h ht) (k ht)) (fun _ _ hk => ⟨hk.1.1, hk.1.2.1, hk.1.2.2, hk.2.2.2⟩) fun _ _ _ => trivial

theorem get_bind {f : Workspace → Work β} (h : Tidy p stale [] w → Secures p stale (f w) R w) :
    Secures p stale (get >>= f) R w := by
  intro ht
  rw [wp_bind, wp_get]
  exact h ht ht

/-- A step which was looked at before. -/
theorem of_tidies {x : Work α} (h : Tidies p stale x w)
    (hQ : Tidy p stale [] w → wp x Q (fun _ _ => True) w) : Secures p stale x Q w := fun ht =>
  wp.mono (wp.and (h ht) (hQ ht)) (fun _ _ k => ⟨k.1.1, k.1.2, k.2⟩) fun _ _ _ => trivial

theorem ite {c : Prop} [Decidable c] {x y : Work α} (hx : c → Secures p stale x Q w)
    (hy : ¬ c → Secures p stale y Q w) : Secures p stale (if c then x else y) Q w := by
  split_ifs with h
  · exact hx h
  · exact hy h

/-- A loop keeps what is said of the elements which are left. -/
theorem forM {f : α → Work PUnit} (I : List α → Workspace → Prop) : ∀ (l : List α) {w : Workspace},
    I l w → (∀ a l w', Tidy p stale [] w' → I (a :: l) w' →
      Secures p stale (f a) (fun _ => I l) w') →
    Secures p stale (l.forM f) (fun _ => I []) w
  | [], _, h, _ => .pure fun _ => h
  | a :: l, w, h, hstep => fun ht =>
    bind (f := fun _ => l.forM f) (hstep a l w ht h) (fun _ _ _ _ h' => forM I l h' hstep) ht

end Secures
end DecisionDiagrams
