import DecisionDiagrams.Proofs.Engine.Blend
import DecisionDiagrams.Proofs.Sets.Elements

/-! States which stand for an assignment. What a property says of the states which an assignment passes
through has to be taken over along its labels, and by merging with any other state of the layer. Then
the states which are computed from neighbours, blended for a new layer or bundled for a split stand for
the assignment as soon as one of the states they are made from does. -/

namespace DecisionDiagrams

/-- A property reads the same in two states. -/
def Model.Alike (m : Model) (side : Side) (i : Nat) (s t : State) : Prop :=
  ∀ slot, (m.layout side).slot? i = some slot → slot.agree s.bits t.bits = true

theorem Slot.agree_self (s : Slot) (bits : Nat) : s.agree bits bits = true := by
  unfold Slot.agree
  split_ifs <;> simp

theorem Model.Alike.refl (m : Model) (side : Side) (i : Nat) (s : State) : m.Alike side i s s :=
  fun slot _ => slot.agree_self s.bits

/-- Only the bits matter. -/
theorem Model.Alike.of_bits {m : Model} {side : Side} {i : Nat} {s t : State} (h : s.bits = t.bits) :
    m.Alike side i s t := fun slot _ => h ▸ slot.agree_self s.bits

theorem Checked.forall₂_of_mapM {α β : Type} {f : α → Checked β} : ∀ {l : List α} {r : List β},
    l.mapM f = .ok r → List.Forall₂ (fun x y => f x = .ok y) l r
  | [], r, e => by
    rw [List.mapM_nil] at e
    obtain rfl := Except.ok.inj e
    exact .nil
  | x :: l, r, e => by
    rw [List.mapM_cons] at e
    obtain ⟨y, hy, e⟩ := Checked.bind_eq_ok.1 e
    obtain ⟨rest, hrest, e⟩ := Checked.bind_eq_ok.1 e
    obtain rfl := Except.ok.inj e
    exact .cons hy (forall₂_of_mapM hrest)

theorem List.exists_of_forall₂_left {α β : Type} {R : α → β → Prop} {l : List α} {r : List β}
    (h : List.Forall₂ R l r) {x : α} (hx : x ∈ l) : ∃ y ∈ r, R x y := by
  induction h with
  | nil => cases hx
  | cons hab _ ih =>
    rcases List.mem_cons.1 hx with rfl | hx
    · exact ⟨_, List.mem_cons_self, hab⟩
    · obtain ⟨y, hy, hxy⟩ := ih hx
      exact ⟨y, List.mem_cons_of_mem _ hy, hxy⟩

theorem List.exists_of_forall₂_right {α β : Type} {R : α → β → Prop} {l : List α} {r : List β}
    (h : List.Forall₂ R l r) {y : β} (hy : y ∈ r) : ∃ x ∈ l, R x y := by
  obtain ⟨x, hx, hxy⟩ := List.exists_of_forall₂_left h.flip hy
  exact ⟨x, hx, hxy⟩

/-- Computing one property leaves the others alone. -/
structure Model.Separate (m : Model) (d : Direction) : Prop where
  stepped : ∀ {l source combined values target i j r}, i ≠ j →
    m.stepProperty d l source combined values target j = .ok r → m.Alike d.side i target r

/-- Computing or merging one property leaves the others alone, and there are no tests of nodes. -/
structure Model.Plain (m : Model) : Prop where
  stepped : ∀ {d l source combined values target i j r}, i ≠ j →
    m.stepProperty d l source combined values target j = .ok r → m.Alike d.side i target r
  merged : ∀ {side other target i j r}, i ≠ j →
    m.mergeProperty side other target j = .ok r → m.Alike side i target r
  nodeChecks : m.nodeChecks = []

/-- What is said of one property, by a merge from either side, after several properties were merged. -/
theorem Model.foldl_merge {m : Model} {side : Side} {i : Nat} {t r : State} {φ : Bool → State → Prop}
    (others : ∀ {other target j r}, i ≠ j → m.mergeProperty side other target j = .ok r → m.Alike side i target r)
    (weaken : ∀ {s}, φ true s → φ false s) (congr : ∀ {b s s'}, m.Alike side i s s' → φ b s → φ b s')
    (merged : ∀ {b c s t r}, φ b s → φ c t → m.mergeProperty side t s i = .ok r → φ (b || c) r) :
    ∀ (which : List Nat) {b c : Bool} {target : State}, which.foldlM (m.mergeProperty side t) target = .ok r →
      φ b target → φ c t → φ b r ∧ (i ∈ which → φ (b || c) r)
  | [], b, c, target, h, hb, _ => by
    obtain rfl := Except.ok.inj h
    exact ⟨hb, nofun⟩
  | j :: which, b, c, target, h, hb, hc => by
    rw [List.foldlM_cons] at h
    obtain ⟨next, hnext, hrest⟩ := Checked.bind_eq_ok.1 h
    by_cases e : i = j
    · subst e
      have hboth := merged hb hc hnext
      have hdone := (foldl_merge others weaken congr merged which hrest hboth hc).1
      refine ⟨?_, fun _ => hdone⟩
      cases b with
      | true => exact hdone
      | false =>
        cases c with
        | true => exact weaken hdone
        | false => exact hdone
    · obtain ⟨h1, h2⟩ := foldl_merge others weaken congr merged which hrest (congr (others e hnext) hb) hc
      exact ⟨h1, fun hi => h2 ((List.mem_cons.1 hi).resolve_left e)⟩

/-- The layer of the states from which the arcs of layer `l` are followed in a direction. -/
def Direction.source : Direction → Nat → Nat
  | .down, l => l
  | .up, l => l + 1

/-- The layer of the states to which the arcs of layer `l` lead in a direction. -/
def Direction.target : Direction → Nat → Nat
  | .down, l => l + 1
  | .up, l => l

/-- The labels which an assignment has in the layers. -/
def Model.labelsOf (m : Model) (σ : Var → Int) (l : Nat) : Int := σ (m.var l)

/-- How states stand for the labels `σ`, property by property. What `holds false` says is true of all
states of a layer, what `holds true` says of the states which the labels pass through. -/
structure Certificate (m : Model) (σ : Nat → Int) where
  holds : Bool → Direction → Nat → Nat → State → Prop
  weaken : ∀ {d l i s}, holds true d l i s → holds false d l i s
  congr : ∀ {b d l i s t}, m.Alike d.side i s t → holds b d l i s → holds b d l i t
  absent : ∀ {b d l i s}, (m.properties.get d.side).size ≤ i → holds b d l i s
  root : ∀ i, holds true .down 0 i (m.fresh .down)
  sink : ∀ i, holds true .up m.depth i (m.fresh .up)
  blank : ∀ l i, holds false .up l i (m.fresh .up)
  idle : m.hasUp = false → ∀ l i, holds true .up l i (m.fresh .up)
  kept : ∀ {b d l i s}, l < m.depth → i ∉ m.active d l →
    holds b d (d.source l) i s → holds b d (d.target l) i s
  stepped : ∀ {b d l i source combined values target r}, l < m.depth → (b = true → σ l ∈ values) →
    holds b d (d.source l) i source →
    m.stepProperty d l source combined values target i = .ok r → holds b d (d.target l) i r
  merged : ∀ {b c d l i s t r}, holds b d l i s → holds c d l i t →
    m.mergeProperty d.side t s i = .ok r → holds (b || c) d l i r
  admits : ∀ {l parent combined childUp childCombined}, l < m.depth →
    (∀ i, holds true .down l i parent) →
    (∀ up, childUp = some up → ∀ i, holds true .up (l + 1) i up) →
    m.arcPasses l (σ l) parent combined childUp childCombined ≠ .ok false

namespace Certificate

variable {m : Model} {σ : Nat → Int} (K : Certificate m σ) {b c : Bool} {d : Direction}
  {l i : Nat} {s t r : State}

/-- A state stands for the labels in all its properties. -/
def Covers (b : Bool) (d : Direction) (l : Nat) (s : State) : Prop := ∀ i, K.holds b d l i s

variable {K}

theorem Covers.weaken (h : K.Covers b d l s) : K.Covers false d l s := by
  cases b with
  | true => exact fun i => K.weaken (h i)
  | false => exact h

/-- The flag of a state does not matter. -/
theorem Covers.of_bits (h : K.Covers b d l s) (e : s.bits = t.bits) : K.Covers b d l t :=
  fun i => K.congr (.of_bits e) (h i)

theorem holds_foldl_step (hm : m.Plain) {source : State} {combined : Option State} {values : IntSet}
    (hl : l < m.depth) : ∀ (which : List Nat) {target : State},
    which.foldlM (m.stepProperty d l source combined values) target = .ok r →
    (i ∈ which → (b = true → σ l ∈ values) ∧ K.holds b d (d.source l) i source) →
    (i ∉ which → K.holds b d (d.target l) i target) → K.holds b d (d.target l) i r
  | [], target, h, _, ht => by
    obtain rfl := Except.ok.inj h
    exact ht List.not_mem_nil
  | j :: which, target, h, hs, ht => by
    rw [List.foldlM_cons] at h
    obtain ⟨next, hnext, hrest⟩ := Checked.bind_eq_ok.1 h
    refine holds_foldl_step hm hl which hrest (fun hi => hs (List.mem_cons_of_mem _ hi)) fun hi => ?_
    by_cases e : i = j
    · subst e
      obtain ⟨hv, hsource⟩ := hs List.mem_cons_self
      exact K.stepped hl hv hsource hnext
    · refine K.congr (hm.stepped e hnext) (ht fun hm => ?_)
      exact (List.mem_cons.1 hm).elim e hi

/-- The computed properties are taken over from the source, the others from the old state. -/
theorem holds_stepInto (hm : m.Plain) {source : State} {combined : Option State} {values : IntSet}
    {which : IndexSet} (hl : l < m.depth)
    (h : m.stepInto d l source combined values which t = .ok r)
    (hs : i ∈ which → (b = true → σ l ∈ values) ∧ K.holds b d (d.source l) i source)
    (ht : i ∉ which → K.holds b d (d.target l) i t) : K.holds b d (d.target l) i r :=
  holds_foldl_step hm hl which.toList h (fun hi => hs (IndexSet.mem_toList.1 hi))
    fun hi => ht fun hw => hi (IndexSet.mem_toList.2 hw)

theorem covers_step (hm : m.Plain) {combined : Option State} {values : IntSet} (hl : l < m.depth)
    (hv : b = true → σ l ∈ values) (h : m.step d l s combined values = .ok r)
    (hs : K.Covers b d (d.source l) s) : K.Covers b d (d.target l) r := by
  unfold Model.step at h
  obtain ⟨reached, hreached, h⟩ := Checked.bind_eq_ok.1 h
  obtain rfl := Except.ok.inj h
  refine Covers.of_bits (s := reached) (fun i => ?_) rfl
  exact holds_stepInto hm hl hreached (fun _ => ⟨hv, hs i⟩) fun hi => K.kept hl hi (hs i)

theorem holds_foldl_merge (hm : m.Plain) (which : List Nat) {target : State}
    (h : which.foldlM (m.mergeProperty d.side t) target = .ok r) (hb : K.holds b d l i target)
    (hc : K.holds c d l i t) : K.holds b d l i r ∧ (i ∈ which → K.holds (b || c) d l i r) :=
  Model.foldl_merge (φ := fun b => K.holds b d l i) hm.merged K.weaken K.congr K.merged which h hb hc

/-- A merged state stands for the labels in the merged properties if one of the two does, and in the
others if the first does. -/
theorem holds_mergeListed (hm : m.Plain) {which : IndexSet}
    (h : m.mergeListed d.side which s t = .ok r) (hs : K.holds b d l i s) (ht : K.holds c d l i t) :
    K.holds b d l i r ∧ (i ∈ which → K.holds (b || c) d l i r) := by
  obtain ⟨h1, h2⟩ := holds_foldl_merge hm which.toList h hs ht
  exact ⟨h1, fun hi => h2 (IndexSet.mem_toList.2 hi)⟩

theorem covers_merge (hm : m.Plain) (h : m.mergeListed d.side (m.everyProperty d.side) s t = .ok r)
    (hs : K.Covers b d l s) (ht : K.Covers c d l t) : K.Covers (b || c) d l r := by
  intro i
  by_cases hi : i < (m.properties.get d.side).size
  · exact (holds_mergeListed hm h (hs i) (ht i)).2 (IndexSet.mem_below.2 hi)
  · exact K.absent (Nat.not_lt.1 hi)

/-- What the merge of states takes over, with the flags of all states. -/
theorem holds_mergeInto (hm : m.Plain) {which : IndexSet} {first : State} : ∀ (rest : List State)
    {b : Bool} {acc : State × Bool} {out : State × Bool},
    rest.foldlM (fun acc s => do
      if s = acc.1 ∧ s = first then return acc
      return (← m.mergeListed d.side which acc.1 s, true)) acc = (.ok out : Checked _) →
    K.holds b d l i acc.1 → (∀ s ∈ rest, K.holds false d l i s) →
    K.holds b d l i out.1 ∧
      (i ∈ which → (∃ s ∈ rest, K.holds true d l i s) → K.holds true d l i out.1)
  | [], b, acc, out, h, hb, _ => by
    obtain rfl := Except.ok.inj h
    exact ⟨hb, nofun⟩
  | s :: rest, b, acc, out, h, hb, hs => by
    rw [List.foldlM_cons] at h
    obtain ⟨next, hnext, hlater⟩ := Checked.bind_eq_ok.1 h
    have hrest : ∀ u ∈ rest, K.holds false d l i u := fun u hu => hs u (List.mem_cons_of_mem _ hu)
    -- the next accumulated state keeps what held, and takes over what holds of `s`
    have key : K.holds b d l i next.1 ∧
        (i ∈ which → K.holds true d l i s → K.holds true d l i next.1) := by
      split_ifs at hnext with e
      · obtain rfl := Except.ok.inj hnext
        exact ⟨hb, fun _ ht => e.1 ▸ ht⟩
      · obtain ⟨merged, hmerged, hnext⟩ := Checked.bind_eq_ok.1 hnext
        obtain rfl := Except.ok.inj hnext
        refine ⟨(holds_mergeListed hm hmerged hb (hs s List.mem_cons_self)).1, fun hi ht => ?_⟩
        have := (holds_mergeListed hm hmerged hb ht).2 hi
        rwa [Bool.or_true] at this
    obtain ⟨h1, h2⟩ := holds_mergeInto hm rest hlater key.1 hrest
    refine ⟨h1, fun hi ⟨u, hu, ht⟩ => ?_⟩
    rcases List.mem_cons.1 hu with rfl | hu
    · exact (holds_mergeInto hm rest hlater (key.2 hi ht) hrest).1
    · exact h2 hi ⟨u, hu, ht⟩

end Certificate

/-! ### States from neighbours -/

section

variable {p : Plan} {σ : Nat → Int} {K : Certificate p.model σ} {w : Workspace} {b : Bool}
  {d : Direction} {l : Nat} {old new : State} {r : Demand} {bundles : List Bundle}

/-- A bundle of arcs leads from states of the layer; it is followed by the labels if it stands for
them and carries theirs. -/
def Bundle.Leads (K : Certificate p.model σ) (w : Workspace) (b : Bool) (d : Direction) (l : Nat)
    (e : Bundle) : Prop :=
  K.Covers b d (d.source l) (w.graph.state e.1 d.side) ∧ (b = true → σ l ∈ e.2)

theorem Certificate.covers_reached (hm : p.model.Plain) (hl : l < p.model.depth) {e : Bundle}
    (h : w.reached p d l old r e = .ok new) (ho : r = .full ∨ K.Covers b d (d.target l) old)
    (he : e.Leads K w b d l) : K.Covers b d (d.target l) new := by
  cases r with
  | full => exact covers_step hm hl he.2 h he.1
  | only which =>
    unfold Workspace.reached Work.partialFrom at h
    obtain ⟨reached, hreached, h⟩ := Checked.bind_eq_ok.1 h
    obtain rfl := Except.ok.inj h
    refine Covers.of_bits (s := reached) (fun i => ?_) rfl
    exact holds_stepInto hm hl hreached (fun _ => ⟨he.2, he.1 i⟩) fun _ => ho.resolve_left nofun i

/-- A property which is not asked for is as it was. -/
theorem Certificate.holds_reached_of_not_mem (hm : p.model.Plain) (hl : l < p.model.depth)
    {e : Bundle} {i : Nat} (h : w.reached p d l old r e = .ok new)
    (hi : i ∉ Workspace.demanded p d r) (ho : r = .full ∨ K.holds b d (d.target l) i old) :
    K.holds b d (d.target l) i new := by
  cases r with
  | full => exact K.absent (Nat.not_lt.1 fun hlt => hi (IndexSet.mem_below.2 hlt))
  | only which =>
    unfold Workspace.reached Work.partialFrom at h
    obtain ⟨reached, hreached, h⟩ := Checked.bind_eq_ok.1 h
    obtain rfl := Except.ok.inj h
    refine K.congr (s := reached) (.of_bits rfl) ?_
    exact holds_stepInto hm hl hreached (fun hw => absurd hw hi) fun _ => ho.resolve_left nofun

/-- The state a node gets stands for the labels if one of the bundles is followed by them and its old
state does, which does not matter for a full computation from some neighbours. -/
theorem Certificate.covers_arrived (hm : p.model.Plain) (hl : l < p.model.depth)
    (h : w.arrived p d l bundles old r = .ok new)
    (ho : r = .full ∧ bundles ≠ [] ∨ K.Covers b d (d.target l) old)
    (hs : ∀ e ∈ bundles, e.Leads K w false d l)
    (ht : b = true → bundles ≠ [] → ∃ e ∈ bundles, e.Leads K w true d l) :
    K.Covers b d (d.target l) new := by
  unfold Workspace.arrived at h
  obtain ⟨states, hstates, h⟩ := Checked.bind_eq_ok.1 h
  have hall := Checked.forall₂_of_mapM hstates
  have hfalse : ∀ s ∈ states, K.Covers false d (d.target l) s := by
    intro s hmem
    obtain ⟨e, he, hes⟩ := List.exists_of_forall₂_right hall hmem
    exact covers_reached hm hl hes (ho.imp And.left Covers.weaken) (hs e he)
  cases states with
  | nil =>
    obtain rfl := Except.ok.inj h
    refine ho.resolve_left fun hf => hf.2 ?_
    exact List.forall₂_nil_right_iff.1 hall
  | cons first rest =>
    obtain ⟨out, hout, h⟩ := Checked.bind_eq_ok.1 h
    obtain rfl := Except.ok.inj h
    refine Covers.of_bits (s := out.1) (fun i => ?_) rfl
    have hrest : ∀ i, ∀ s ∈ rest, K.holds false d (d.target l) i s :=
      fun i s hs => hfalse s (List.mem_cons_of_mem _ hs) i
    have hfirst : ∃ e ∈ bundles, w.reached p d l old r e = .ok first :=
      List.exists_of_forall₂_right hall List.mem_cons_self
    by_cases hi : i ∈ Workspace.demanded p d r
    · cases b with
      | false => exact (holds_mergeInto hm rest hout (hfalse first List.mem_cons_self i) (hrest i)).1
      | true =>
        have hne : bundles ≠ [] := by
          rintro rfl
          cases hall
        obtain ⟨e, he, hlead⟩ := ht rfl hne
        obtain ⟨s, hmem, hes⟩ := List.exists_of_forall₂_left hall he
        have hcov := covers_reached hm hl hes (ho.imp_left And.left) hlead
        rcases List.mem_cons.1 hmem with rfl | hmem
        · exact (holds_mergeInto hm rest hout (hcov i) (hrest i)).1
        · exact (holds_mergeInto hm rest hout (hfalse first List.mem_cons_self i) (hrest i)).2 hi
            ⟨s, hmem, hcov i⟩
    · obtain ⟨e, he, hes⟩ := hfirst
      exact (holds_mergeInto hm rest hout (holds_reached_of_not_mem hm hl hes hi (ho.imp And.left (· i)))
        (hrest i)).1

end

/-! ### States of drafts and candidates -/

namespace Certificate

variable {m : Model} {σ : Nat → Int} {K : Certificate m σ} {l : Nat} {ss : List State} {s t : State}

/-- A blended state stands for the labels if all its parts fit the layer and one stands for them. -/
theorem covers_blend (hm : m.Plain) (h : Blend m ss t) (hs : ∀ s ∈ ss, K.Covers false .down l s) :
    K.Covers false .down l t ∧ ((∃ s ∈ ss, K.Covers true .down l s) → K.Covers true .down l t) := by
  induction h with
  | one s =>
    refine ⟨hs s List.mem_cons_self, fun ⟨u, hu, hc⟩ => ?_⟩
    rwa [List.mem_singleton.1 hu] at hc
  | @again ss s h ih =>
    obtain ⟨h1, h2⟩ := ih fun u hu => hs u (List.mem_append_left _ hu)
    refine ⟨h1, fun ⟨u, hu, hc⟩ => ?_⟩
    rcases List.mem_append.1 hu with hu | hu
    · exact h2 ⟨u, hu, hc⟩
    · rwa [List.mem_singleton.1 hu] at hc
  | @merge ss ts s t u _ _ hu ihs iht =>
    obtain ⟨s1, s2⟩ := ihs fun v hv => hs v (List.mem_append_left _ hv)
    obtain ⟨t1, t2⟩ := iht fun v hv => hs v (List.mem_append_right _ hv)
    refine ⟨(covers_merge (d := .down) hm hu s1 t1).of_bits rfl, fun ⟨v, hv, hc⟩ => ?_⟩
    rcases List.mem_append.1 hv with hv | hv
    · exact (covers_merge (d := .down) hm hu (s2 ⟨v, hv, hc⟩) t1).of_bits rfl
    · exact (covers_merge (d := .down) hm hu s1 (t2 ⟨v, hv, hc⟩)).of_bits rfl

variable {α : Type} {lead : α → Checked State} {ways : List α}

theorem covers_reaches (hm : m.Plain) (h : Reaches m lead ways t)
    (hs : ∀ a ∈ ways, ∀ s, lead a = .ok s → K.Covers false .down l s) :
    K.Covers false .down l t ∧
      ((∃ a ∈ ways, ∀ s, lead a = .ok s → K.Covers true .down l s) → K.Covers true .down l t) := by
  obtain ⟨ss, hf, hb⟩ := h
  obtain ⟨h1, h2⟩ := covers_blend (K := K) (l := l) hm hb fun s hmem => by
    obtain ⟨a, ha, has⟩ := List.exists_of_forall₂_right hf hmem
    exact hs a ha s has
  refine ⟨h1, fun ⟨a, ha, hc⟩ => ?_⟩
  obtain ⟨s, hmem, has⟩ := List.exists_of_forall₂_left hf ha
  exact h2 ⟨s, hmem, hc s has⟩

end Certificate

end DecisionDiagrams
