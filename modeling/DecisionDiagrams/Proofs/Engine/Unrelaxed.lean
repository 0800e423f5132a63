import DecisionDiagrams.Proofs.Engine.Arrivals

/-! What the relaxed flag of a state promises. Unless it is set, no neighbour which enters counts as relaxed
either, and the state is what each of their labels leads to. The flag of a state which was computed in part
may only be taken back if a single arc enters; that the state is what this arc leads to has to be known
whether or not it counted as relaxed before. -/

namespace DecisionDiagrams

open Work Cascade

/-! ### One label -/

theorem IntSet.eq_singleton_of_mem {s : IntSet} {v : Int} (hv : v ∈ s) (h : ∀ u ∈ s, u = v) : s = .singleton v := by
  obtain ⟨l, hl⟩ := s
  match l, hl, hv, h with
  | [x], _, hv, _ =>
    obtain rfl := List.mem_singleton.1 hv
    rfl
  | x :: y :: _, hl, _, h =>
    have hxy := (List.pairwise_cons.1 hl).1 y List.mem_cons_self
    have hx : x = v := h x List.mem_cons_self
    have hy : y = v := h y (List.mem_cons_of_mem _ List.mem_cons_self)
    omega

theorem IntSet.eq_of_size_le_one {s : IntSet} (h : s.size ≤ 1) {u v : Int} (hu : u ∈ s) (hv : v ∈ s) :
    u = v := by
  obtain ⟨l, hl⟩ := s
  match l, hl, h, hu, hv with
  | [x], _, _, hu, hv => exact (List.mem_singleton.1 hu).trans (List.mem_singleton.1 hv).symm

/-- A state which is blended without being relaxed is each of the states. -/
theorem Blend.eq_of_unrelaxed {m : Model} {ss : List State} {t : State} (h : Blend m ss t)
    (ht : t.relaxed = false) : ∀ s ∈ ss, s = t := by
  induction h with
  | one s => exact fun u hu => List.mem_singleton.1 hu
  | again _ ih =>
    intro u hu
    rcases List.mem_append.1 hu with hu | hu
    · exact ih ht u hu
    · exact List.mem_singleton.1 hu
  | merge => cases ht

namespace Model

variable {m : Model} {i j l : Nat} {s s' : State}

/-- A property, or the flag, of a state keeps the promise of the flag. What is known if a single arc enters
is only asked for if `single` holds. -/
def Promises (m : Model) (single : Prop) (l : Nat) (ins : NodeId → Int → Prop) (σ : NodeId → State)
    (s : State) : Option Nat → Prop
  | none => s.relaxed = false → ∀ q v, ins q v → (σ q).relaxed = false
  | some i => (s.relaxed = false → ∀ q v, ins q v → m.Yields .down l (σ q) v i s) ∧
    (single → ∀ q v, ins q v → (∀ q' v', ins q' v' → q' = q ∧ v' = v) → m.Yields .down l (σ q) v i s)

end Model

/-! ### States from neighbours -/

namespace Workspace

variable {p : Plan} {w : Workspace} {l i : Nat} {old new s : State} {r : Demand} {b : Bundle} {v : Int}

/-- One bundle: what is computed along a single label is what the label leads to, and the result only fails to
count as relaxed if there is a single label and the neighbour does not either. -/
theorem yields_reached (hm : p.model.Declared .down) (h : w.reached p .down l old r b = .ok s) :
    (r.Covers (some i) → b.2 = .singleton v → p.model.Yields .down l (w.graph.state b.1 .down) v i s) ∧
    (s.relaxed = false → (w.graph.state b.1 .down).relaxed = false ∧ b.2.size ≤ 1) := by
  have flag : ∀ {x : Bool}, (x || decide (1 < b.2.size)) = false → x = false ∧ b.2.size ≤ 1 := by
    intro x hx
    obtain ⟨h1, h2⟩ := Bool.or_eq_false_iff.1 hx
    exact ⟨h1, by simpa using h2⟩
  cases r with
  | full =>
    change p.model.step .down l (w.graph.state b.1 .down) (w.combined? p.model b.1) b.2 = .ok s at h
    refine ⟨fun _ e => hm.yields_step (e ▸ h) i, fun hs => ?_⟩
    unfold Model.step at h
    obtain ⟨reached, -, h⟩ := Checked.bind_eq_ok.1 h
    obtain rfl := Except.ok.inj h
    exact flag hs
  | only which =>
    change partialFrom p .down l old which w b = .ok s at h
    unfold partialFrom at h
    obtain ⟨reached, hreached, h⟩ := Checked.bind_eq_ok.1 h
    obtain rfl := Except.ok.inj h
    refine ⟨fun hi e => ?_, flag⟩
    rw [e] at hreached
    exact (hm.yields_stepInto hreached hi).of_alike (.of_bits rfl)

/-- Bundles of arcs to a node. If the result does not count as relaxed, then no
neighbour does and all labels lead to it; the flag of a state which was computed in part is only taken back
if there is one bundle. If all bundles are the same label from the same node, it leads to the result. -/
theorem yields_arrived (hm : p.model.Declared .down) {bs : List Bundle} (hne : bs ≠ [])
    (h : w.arrived p .down l bs old r = .ok new) :
    (new.relaxed = false → (∀ b ∈ bs, (w.graph.state b.1 .down).relaxed = false ∧ b.2.size ≤ 1) ∧
      (r.Covers (some i) → ∀ b ∈ bs, ∀ v, b.2 = .singleton v →
        p.model.Yields .down l (w.graph.state b.1 .down) v i new) ∧
      (r ≠ .full → old.relaxed = true → ∀ b ∈ bs, ∀ c ∈ bs, c = b)) ∧
    (r.Covers (some i) → ∀ q v, (∀ b ∈ bs, b = (q, .singleton v)) →
      p.model.Yields .down l (w.graph.state q .down) v i new) := by
  unfold arrived at h
  obtain ⟨states, hstates, h⟩ := Checked.bind_eq_ok.1 h
  have hcons := Checked.forall₂_of_mapM hstates
  cases Checked.forall₂_of_mapM hstates with
  | nil => exact absurd rfl hne
  | @cons b₁ first bs rest h₁ hrest =>
    obtain ⟨⟨merged, distinct⟩, hmerged, h⟩ := Checked.bind_eq_ok.1 h
    obtain rfl := Except.ok.inj h
    have merge : ∀ X, (∀ s ∈ first :: rest, p.model.Alike .down i s X) →
        p.model.Alike .down i merged X := fun X hX =>
      hm.alike_mergeInto (hX first List.mem_cons_self)
        (fun s hs => hX s (List.mem_cons_of_mem _ hs)) hmerged
    refine ⟨fun hr => ?_, fun hi q v hall => ?_⟩
    · obtain ⟨hflags, hdistinct⟩ := Bool.or_eq_false_iff.1 hr
      -- all states which were merged are the first one
      have same : merged = first ∧ ∀ s ∈ first :: rest, s = first := by
        obtain rfl | rfl : rest = [] ∨ distinct = false := by
          cases rest with
          | nil => exact Or.inl rfl
          | cons => exact Or.inr (Bool.or_eq_false_iff.1 hdistinct).1
        · obtain ⟨rfl, -⟩ := Prod.mk.inj (Except.ok.inj hmerged)
          exact ⟨rfl, fun s hs => List.mem_singleton.1 hs⟩
        · obtain ⟨e, hs⟩ := Model.eq_of_mergeInto hmerged
          exact ⟨e, fun s h => (List.mem_cons.1 h).elim id (hs s)⟩
      refine ⟨fun b hb => ?_, fun hi b hb v hv => ?_, fun hfull hold => ?_⟩
      · obtain ⟨s, hs, hbs⟩ := List.exists_of_forall₂_left hcons hb
        refine (yields_reached (i := 0) (v := 0) hm hbs).2 ?_
        simpa using List.any_eq_false.1 hflags s hs
      · obtain ⟨s, hs, hbs⟩ := List.exists_of_forall₂_left hcons hb
        have hy := (yields_reached hm hbs).1 hi hv
        rw [same.2 s hs, ← same.1] at hy
        exact hy.of_alike (.of_bits rfl)
      · cases rest with
        | nil =>
          cases hrest
          intro b hb c hc
          rw [List.mem_singleton.1 hb, List.mem_singleton.1 hc]
        | cons =>
          have := (Bool.or_eq_false_iff.1 hdistinct).2
          simp [hold, hfull] at this
    · have leads : ∀ s ∈ first :: rest, p.model.Yields .down l (w.graph.state q .down) v i s := by
        intro s hs
        obtain ⟨b, hb, hbs⟩ := List.exists_of_forall₂_right hcons hs
        obtain rfl := hall b hb
        exact (yields_reached hm hbs).1 hi rfl
      have hfirst := leads first List.mem_cons_self
      refine hfirst.of_alike (.symm (.trans (t := merged) (.of_bits rfl) (merge first fun s hs => ?_)))
      exact hm.yields_unique (leads s hs) hfirst

variable {ins : NodeId → Int → Prop} {o : Option Nat}

/-- What is computed from the bundles which enter keeps the promises, if what is not computed kept them. -/
theorem promises_arrived (hm : p.model.Declared .down) {single : Prop} (hx : single) {bs : List Bundle} (hne : bs ≠ [])
    (hfill : ∀ b ∈ bs, ∃ v, v ∈ b.2) (hins : ∀ q v, ins q v ↔ Bundle.Has bs q v)
    (harr : w.arrived p .down l bs old r = .ok new)
    (ho : r.Covers o ∨ p.model.Promises single l ins (fun q => w.graph.state q .down) old o) :
    p.model.Promises single l ins (fun q => w.graph.state q .down) new o := by
  -- a bundle of a single label
  have lone : ∀ {b : Bundle} {v : Int}, b.2.size ≤ 1 → v ∈ b.2 → b.2 = .singleton v :=
    fun hs hv => IntSet.eq_singleton_of_mem hv fun u hu => IntSet.eq_of_size_le_one hs hu hv
  cases o with
  | none =>
    intro hs q v hq
    obtain ⟨b, hb, rfl, -⟩ := (hins q v).1 hq
    exact (((yields_arrived (i := 0) hm hne harr).1 hs).1 b hb).1
  | some i =>
    obtain ⟨hflag, hlone⟩ := yields_arrived (i := i) hm hne harr
    have hstay := fun hi => alike_arrived (i := i) hm.toSeparate hm.toLattice hne harr hi
    have single : ∀ q v, ins q v → (∀ q' v', ins q' v' → q' = q ∧ v' = v) →
        p.model.Yields .down l (w.graph.state q .down) v i new := by
      intro q v hq only
      by_cases hi : r.Covers (some i)
      · refine hlone hi q v fun b hb => ?_
        obtain ⟨u, hu⟩ := hfill b hb
        have each : ∀ u ∈ b.2, b.1 = q ∧ u = v := fun u hu => only _ _ ((hins _ _).2 ⟨b, hb, rfl, hu⟩)
        obtain ⟨e, rfl⟩ := each u hu
        exact Prod.ext e (IntSet.eq_singleton_of_mem hu fun u hu => (each u hu).2)
      · exact ((ho.resolve_left hi).2 hx q v hq only).of_alike (hstay hi)
    refine ⟨fun hs q v hq => ?_, fun _ => single⟩
    obtain ⟨hsize, hcov, hpart⟩ := hflag hs
    obtain ⟨b, hb, rfl, hv⟩ := (hins q v).1 hq
    by_cases hi : r.Covers (some i)
    · exact hcov hi b hb v (lone (hsize b hb).2 hv)
    · have hold := ho.resolve_left hi
      by_cases hrel : old.relaxed = true
      · -- the flag is taken back, so this is the only arc
        refine (hold.2 hx b.1 v hq fun q' v' hq' => ?_).of_alike (hstay hi)
        obtain ⟨c, hc, rfl, hv'⟩ := (hins q' v').1 hq'
        have hfull : r ≠ .full := fun e => hi (e ▸ trivial)
        obtain rfl := hpart hfull hrel b hb c hc
        exact ⟨rfl, IntSet.eq_of_size_le_one (hsize _ hb).2 hv' hv⟩
      · exact (hold.1 (Bool.eq_false_iff.2 hrel) b.1 v hq).of_alike (hstay hi)

/-- What is blended from the states that the ways lead to keeps the promises. -/
theorem promises_blended (hm : p.model.Declared .down) {single : Prop} {ways : List (NodeId × Int)}
    (hins : ∀ q v, ins q v ↔ (q, v) ∈ ways) (hreach : Reaches p.model (w.follows p l) ways s) :
    p.model.Promises single l ins (fun q => w.graph.state q .down) s o := by
  obtain ⟨ss, hf, hb⟩ := hreach
  have leads : ∀ q v, ins q v → ∃ t ∈ ss, w.follows p l (q, v) = .ok t := fun q v hq =>
    List.exists_of_forall₂_left hf ((hins q v).1 hq)
  cases o with
  | none =>
    intro hs q v hq
    obtain ⟨t, ht, hfol⟩ := leads q v hq
    obtain rfl := hb.eq_of_unrelaxed hs t ht
    unfold follows Model.step at hfol
    obtain ⟨reached, -, hfol⟩ := Checked.bind_eq_ok.1 hfol
    obtain rfl := Except.ok.inj hfol
    exact (Bool.or_eq_false_iff.1 hs).1
  | some i =>
    refine ⟨fun hs q v hq => ?_, fun _ q v hq only => ?_⟩
    · obtain ⟨t, ht, hfol⟩ := leads q v hq
      obtain rfl := hb.eq_of_unrelaxed hs t ht
      exact hm.yields_step hfol i
    · obtain ⟨t, ht, hfol⟩ := leads q v hq
      refine (hm.yields_step hfol i).of_alike (.symm ?_)
      refine hb.of_all (D := fun u => p.model.Alike .down i u t) (fun a b u hu ha hb => ?_) fun u hu => ?_
      · exact .trans (t := u) (.of_bits rfl) (hm.alike_mergeListed ha hb hu)
      · obtain ⟨⟨q', v'⟩, hway, hfol'⟩ := List.exists_of_forall₂_right hf hu
        obtain ⟨rfl, rfl⟩ := only q' v' ((hins q' v').2 hway)
        obtain rfl := Except.ok.inj (hfol.symm.trans hfol')
        exact .refl _ _ _ _

end Workspace

/-! ### The law -/

/-- The flag of down states promises what it says if the rules keep to what they declare. -/
def Law.unrelaxed {p : Plan} (hm : p.model.Declared .down) : Law p .down where
  label _ _ := True
  holds := p.model.Promises (p.options.isExact = false)
  moved := by
    intro l ins σ σ' s o _ _ hu h
    cases o with
    | none => exact fun hs q v hq => (hu q v hq).symm.trans (h hs q v hq)
    | some i =>
      have moves : ∀ q v, ins q v → p.model.Yields .down l (σ q) v i s → p.model.Yields .down l (σ' q) v i s :=
        fun q v hq => hm.yields_congr fun j hj => Model.alike_of_unaffected (hu q v hq) hj
      exact ⟨fun hs q v hq => moves q v hq (h.1 hs q v hq),
        fun hx q v hq only => moves q v hq (h.2 hx q v hq only)⟩
  thinned := by
    intro hx l ins ins' σ s o hins h
    cases o with
    | none => exact fun hs q v hq => h hs q v (hins q v hq)
    | some i => exact ⟨fun hs q v hq => h.1 hs q v (hins q v hq), fun hn => by rw [hx] at hn; cases hn⟩
  arrived hx _ _ _ _ _ _ _ _ _ _ hne hfill _ hins harr ho := Workspace.promises_arrived hm hx hne hfill hins harr ho
  blended _ _ _ _ _ _ _ _ _ hins hreach := Workspace.promises_blended hm hins hreach

end DecisionDiagrams
