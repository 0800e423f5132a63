import DecisionDiagrams.Proofs.Engine.Blend
import DecisionDiagrams.Proofs.Preference
import Mathlib.Data.List.Induction

/-! The nodes of a layer before they are added to the graph. Every parent and label which the tests
accept belongs to exactly one of them, before and after they are reduced to a smaller number, and the
state of a node is blended from the states to which its arcs lead. -/

namespace DecisionDiagrams

/-- A parent and a label. -/
abbrev Branch := NodeId × Int

namespace Workspace

/-- Whether the tests accept a branch. -/
def accepts (w : Workspace) (p : Plan) (layer : Nat) (b : Branch) : Checked Bool :=
  p.model.arcPasses layer b.2 (w.graph.state b.1 .down) (w.combined? p.model b.1)
    (if layer + 1 = p.model.depth then some (p.model.fresh .up) else none) none

/-- The state to which a branch leads. -/
def follows (w : Workspace) (p : Plan) (layer : Nat) (b : Branch) : Checked State :=
  p.model.step .down layer (w.graph.state b.1 .down) (w.combined? p.model b.1) (.singleton b.2)

/-- Whether the tests are made and accept a branch. -/
def accepted (w : Workspace) (p : Plan) (layer : Nat) (b : Branch) : Bool :=
  match w.accepts p layer b with
  | .ok kept => kept
  | .error _ => false

theorem accepted_iff {w : Workspace} {p : Plan} {layer : Nat} {b : Branch} :
    w.accepted p layer b = true ↔ w.accepts p layer b = .ok true := by
  unfold accepted
  cases w.accepts p layer b <;> simp

end Workspace

/-- What becomes of the parts of a list if one of its elements gets a part more. -/
theorem List.perm_flatMap_set {α β : Type} {f : α → List β} {l : List α} {i : Nat} {x y : α} {part : List β}
    (hi : l[i]? = some x) (h : f y = f x ++ part) : ((l.set i y).flatMap f).Perm (l.flatMap f ++ part) := by
  obtain ⟨hlt, rfl⟩ := List.getElem?_eq_some_iff.1 hi
  rw [List.set_eq_take_append_cons_drop, if_pos hlt]
  have e : l = l.take i ++ l[i] :: l.drop (i + 1) := by
    conv_lhs => rw [← List.take_append_drop i l, List.drop_eq_getElem_cons hlt]
  conv_rhs => rw [e]
  simp only [List.flatMap_append, List.flatMap_cons, h, List.append_assoc]
  exact List.Perm.append_left _ (List.Perm.append_left _ List.perm_append_comm)

/-- All branches of some drafts. -/
def branches (ds : List Draft) : List Branch := ds.flatMap (·.arcs.toList)

namespace Frontier

/-- The drafts hold the listed branches, each once; all branches of a draft lead to its state. -/
structure Holds (lead : Branch → Checked State) (bs : List Branch) (f : Frontier) : Prop where
  perm : (branches f.drafts.toList).Perm bs
  leads : ∀ d ∈ f.drafts, d.arcs.toList ≠ [] ∧ ∀ b ∈ d.arcs, lead b = .ok d.down
  places : ∀ code i, f.places[code]? = some i → ∃ d : Draft, f.drafts[i]? = some d ∧ d.down.code = code

theorem holds_empty (lead : Branch → Checked State) : Holds lead [] {} := by
  refine ⟨.refl _, by simp, fun code i h => ?_⟩
  simp at h

theorem branches_modify {ds : Array Draft} {i : Nat} {d : Draft} (hi : ds[i]? = some d) (b : Branch) :
    (branches (ds.modify i fun d => { d with arcs := d.arcs.push b }).toList).Perm
      (branches ds.toList ++ [b]) := by
  have hi : ds.toList[i]? = some d := by rwa [Array.getElem?_toList]
  rw [Array.toList_modify, List.modify_eq_set_getElem?, hi]
  exact List.perm_flatMap_set hi (by rw [Array.toList_push])

theorem Holds.add {lead : Branch → Checked State} {bs : List Branch} {f : Frontier}
    (h : Holds lead bs f) {b : Branch} {down : State} (hb : lead b = .ok down) :
    Holds lead (bs ++ [b]) (f.add down b.1 b.2) := by
  unfold Frontier.add
  split
  · rename_i i hi
    obtain ⟨d, hd, hcode⟩ := h.places _ _ hi
    rw [State.code_inj] at hcode
    refine ⟨?_, fun e he => ?_, fun code j hj => ?_⟩
    · exact (branches_modify hd b).trans (h.perm.append_right [b])
    · obtain ⟨k, hk⟩ := Array.mem_iff_getElem?.1 he
      rw [Array.getElem?_modify] at hk
      split_ifs at hk with eik
      · subst eik
        rw [hd] at hk
        obtain rfl := Option.some.inj hk
        refine ⟨by simp, fun c hc => ?_⟩
        rcases Array.mem_push.1 hc with hc | rfl
        · exact (h.leads d (Array.mem_of_getElem? hd)).2 c hc
        · rw [hb, hcode]
      · exact h.leads e (Array.mem_of_getElem? hk)
    · obtain ⟨e, he, hc⟩ := h.places code j hj
      dsimp only
      rw [Array.getElem?_modify]
      split_ifs with eij
      · subst eij
        rw [hd] at he ⊢
        obtain rfl := Option.some.inj he
        exact ⟨_, rfl, hc⟩
      · exact ⟨e, he, hc⟩
  · refine ⟨?_, fun e he => ?_, fun code j hj => ?_⟩
    · dsimp only
      rw [Array.toList_push, branches, List.flatMap_append, List.flatMap_singleton]
      exact h.perm.append_right _
    · rcases Array.mem_push.1 he with he | rfl
      · exact h.leads e he
      · refine ⟨by simp, fun c hc => ?_⟩
        have : c = b := by simpa using hc
        rw [this, hb]
    · dsimp only at hj ⊢
      rw [Std.TreeMap.getElem?_insert] at hj
      split_ifs at hj with ec
      · obtain rfl := Option.some.inj hj
        refine ⟨⟨down, #[(b.1, b.2)]⟩, by simp, ?_⟩
        exact Std.LawfulEqCmp.eq_of_compare ec
      · obtain ⟨e, he, hc⟩ := h.places code j hj
        obtain ⟨hlt, -⟩ := Array.getElem?_eq_some_iff.1 he
        refine ⟨e, ?_, hc⟩
        rw [Array.getElem?_push, if_neg (Nat.ne_of_lt hlt), he]

end Frontier

variable {p : Plan} {w : Workspace} {layer : Nat}

theorem holds_collect {q : NodeId} {v : Int} {bs : List Branch} {f f' : Frontier}
    (hf : f.Holds (w.follows p layer) bs) (h : w.collect p layer q f v = .ok f') :
    f'.Holds (w.follows p layer) (bs ++ [(q, v)].filter (w.accepted p layer)) := by
  unfold Workspace.collect at h
  obtain ⟨kept, hk, h⟩ := Checked.bind_eq_ok.1 h
  have hk' : w.accepts p layer (q, v) = .ok kept := hk
  cases kept with
  | true =>
    rw [List.filter_cons_of_pos (Workspace.accepted_iff.2 hk'), List.filter_nil]
    obtain ⟨down, hd, h⟩ := Checked.bind_eq_ok.1 h
    obtain rfl := Except.ok.inj h
    exact hf.add hd
  | false =>
    rw [List.filter_cons_of_neg (by rw [Workspace.accepted_iff, hk']; simp), List.filter_nil,
      List.append_nil]
    obtain rfl := Except.ok.inj h
    exact hf

theorem holds_collect_values {q : NodeId} : ∀ (values : List Int) {bs : List Branch}
    {f f' : Frontier}, f.Holds (w.follows p layer) bs →
    values.foldlM (w.collect p layer q) f = .ok f' →
    f'.Holds (w.follows p layer)
      (bs ++ (values.map fun v => (q, v)).filter (w.accepted p layer))
  | [], bs, f, f', hf, h => by
    obtain rfl := Except.ok.inj h
    simpa using hf
  | v :: values, bs, f, f', hf, h => by
    rw [List.foldlM_cons] at h
    obtain ⟨f₁, h₁, h⟩ := Checked.bind_eq_ok.1 h
    have := holds_collect_values values (holds_collect hf h₁) h
    rw [List.append_assoc, ← List.filter_append] at this
    exact this

/-- The branches of the nodes of a layer with the values of its domain. -/
def allBranches (parents : List NodeId) (values : List Int) : List Branch :=
  parents.flatMap fun q => values.map fun v => (q, v)

theorem mem_allBranches {parents : List NodeId} {values : List Int} {b : Branch} :
    b ∈ allBranches parents values ↔ b.1 ∈ parents ∧ b.2 ∈ values := by
  obtain ⟨q, v⟩ := b
  simp [allBranches]

theorem holds_collect_parents (values : List Int) : ∀ (parents : List NodeId) {bs : List Branch}
    {f f' : Frontier}, f.Holds (w.follows p layer) bs →
    parents.foldlM (fun f q => values.foldlM (w.collect p layer q) f) f = .ok f' →
    f'.Holds (w.follows p layer)
      (bs ++ (allBranches parents values).filter (w.accepted p layer))
  | [], bs, f, f', hf, h => by
    obtain rfl := Except.ok.inj h
    simpa [allBranches] using hf
  | q :: parents, bs, f, f', hf, h => by
    rw [List.foldlM_cons] at h
    obtain ⟨f₁, h₁, h⟩ := Checked.bind_eq_ok.1 h
    have := holds_collect_parents values parents (holds_collect_values values hf h₁) h
    rw [List.append_assoc, ← List.filter_append] at this
    exact this

/-! ### Reducing the drafts -/

/-- The drafts hold the listed branches, each once; the state of a draft is blended from the states
to which its branches lead. -/
structure Drafted (m : Model) (lead : Branch → Checked State) (bs : List Branch) (ds : List Draft) :
    Prop where
  perm : (branches ds).Perm bs
  reaches : ∀ d ∈ ds, Reaches m lead d.arcs.toList d.down

theorem Reaches.of_uniform {α : Type} {m : Model} {lead : α → Checked State} {s : State} {a : α} :
    ∀ {ways : List α}, (∀ b ∈ a :: ways, lead b = .ok s) → Reaches m lead (a :: ways) s := by
  intro ways h
  induction ways using List.reverseRecOn with
  | nil => exact .one (h a List.mem_cons_self)
  | append_singleton ways b ih =>
    rw [← List.cons_append]
    refine (ih fun c hc => h c ?_).again (h b (by simp))
    rw [← List.cons_append]
    exact List.mem_append_left _ hc

theorem Frontier.Holds.drafted {m : Model} {lead : Branch → Checked State} {bs : List Branch}
    {f : Frontier} (h : f.Holds lead bs) : Drafted m lead bs f.drafts.toList := by
  refine ⟨h.perm, fun d hd => ?_⟩
  obtain ⟨hne, hl⟩ := h.leads d (Array.mem_toList_iff.1 hd)
  obtain ⟨b, rest, e⟩ := List.exists_cons_of_ne_nil hne
  rw [e]
  refine .of_uniform fun c hc => hl c ?_
  rw [← e] at hc
  exact Array.mem_toList_iff.1 hc

theorem nearest?_lt {m : Model} {kept : List Draft} {down : State} {r : Option Nat}
    (h : m.nearest? kept down = .ok r) (hne : kept ≠ []) : ∃ i, r = some i ∧ i < kept.length := by
  unfold Model.nearest? at h
  obtain ⟨ranked, hr, h⟩ := Checked.bind_eq_ok.1 h
  obtain rfl := Except.ok.inj h
  have hmap : ranked.map (·.1) = kept.zipIdx.map (·.2) := by
    refine Checked.map_of_mapM (fun k y hy => ?_) hr
    obtain ⟨d, -, hy⟩ := Checked.bind_eq_ok.1 hy
    obtain rfl := Except.ok.inj hy
    rfl
  have hne' : ranked ≠ [] := by
    rintro rfl
    have := congrArg List.length hmap
    rw [List.length_map, List.length_map, List.length_zipIdx] at this
    exact hne (List.length_eq_zero_iff.1 this.symm)
  obtain ⟨x, hx⟩ := Preference.exists_best? (fun a b : Nat × Int => decide (a.2 < b.2)) hne'
  refine ⟨x.1, by rw [hx]; rfl, ?_⟩
  have hm : x.1 ∈ ranked.map (·.1) := List.mem_map_of_mem (Preference.mem_of_best? hx)
  rw [hmap] at hm
  obtain ⟨k, hk, e⟩ := List.mem_map.1 hm
  have := List.snd_lt_of_mem_zipIdx hk
  omega

theorem branches_set {ds : List Draft} {i : Nat} {k : Draft} (hi : ds[i]? = some k) (d e : Draft)
    (he : e.arcs = k.arcs ++ d.arcs) :
    (branches (ds.set i e)).Perm (branches ds ++ d.arcs.toList) :=
  List.perm_flatMap_set hi (by rw [he, Array.toList_append])

theorem drafted_absorb {m : Model} {lead : Branch → Checked State} {bs : List Branch}
    {kept r : List Draft} {d : Draft} (h : m.absorb kept d = .ok r) (hne : kept ≠ [])
    (hk : Drafted m lead bs kept) (hd : Reaches m lead d.arcs.toList d.down) :
    Drafted m lead (bs ++ d.arcs.toList) r ∧ r.length = kept.length := by
  unfold Model.absorb at h
  obtain ⟨o, ho, h⟩ := Checked.bind_eq_ok.1 h
  obtain ⟨i, rfl, hlt⟩ := nearest?_lt ho hne
  dsimp only at h
  rw [List.getElem?_eq_getElem hlt] at h
  dsimp only at h
  obtain ⟨merged, hm, h⟩ := Checked.bind_eq_ok.1 h
  obtain rfl := Except.ok.inj h
  refine ⟨⟨?_, fun e he => ?_⟩, List.length_set⟩
  · exact (branches_set (List.getElem?_eq_getElem hlt) d _ rfl).trans (hk.perm.append_right _)
  · rcases List.mem_or_eq_of_mem_set he with he | rfl
    · exact hk.reaches e he
    · rw [Array.toList_append]
      exact (hk.reaches _ (List.getElem_mem hlt)).merge hd hm

theorem drafted_absorbs {m : Model} {lead : Branch → Checked State} : ∀ (excess : List Draft)
    {bs : List Branch} {kept r : List Draft}, excess.foldlM m.absorb kept = .ok r → kept ≠ [] →
    Drafted m lead bs kept → (∀ d ∈ excess, Reaches m lead d.arcs.toList d.down) →
    Drafted m lead (bs ++ branches excess) r ∧ r.length = kept.length
  | [], bs, kept, r, h, _, hk, _ => by
    obtain rfl := Except.ok.inj h
    exact ⟨by simpa [branches] using hk, rfl⟩
  | d :: excess, bs, kept, r, h, hne, hk, hd => by
    rw [List.foldlM_cons] at h
    obtain ⟨kept', h₁, h⟩ := Checked.bind_eq_ok.1 h
    obtain ⟨hk', hlen⟩ := drafted_absorb h₁ hne hk (hd d List.mem_cons_self)
    have hne' : kept' ≠ [] := by
      rintro rfl
      exact hne (List.length_eq_zero_iff.1 hlen.symm)
    obtain ⟨hr, hlen'⟩ := drafted_absorbs excess h hne' hk'
      fun e he => hd e (List.mem_cons_of_mem _ he)
    rw [List.append_assoc] at hr
    exact ⟨hr, hlen'.trans hlen⟩

/-- The reduced drafts hold the same branches, and there are as many as there may be. -/
theorem drafted_mergeDrafts {m : Model} {lead : Branch → Checked State} {bs : List Branch}
    {width : Nat} {ds r : List Draft} {k : Nat} (h : m.mergeDrafts width ds = .ok (r, k))
    (hw : 0 < width) (hd : Drafted m lead bs ds) : Drafted m lead bs r ∧ r.length ≤ width := by
  unfold Model.mergeDrafts at h
  split at h
  · rename_i hle
    obtain ⟨rfl, -⟩ := Prod.mk.inj (Except.ok.inj h)
    exact ⟨hd, hle⟩
  · rename_i hgt
    obtain ⟨merged, hm, h⟩ := Checked.bind_eq_ok.1 h
    obtain ⟨rfl, -⟩ := Prod.mk.inj (Except.ok.inj h)
    have hsort := Preference.sort_perm (fun a b : Draft => decide (b.arcs.size < a.arcs.size)) ds
    generalize Preference.sort (fun a b : Draft => decide (b.arcs.size < a.arcs.size)) ds = sorted
      at hm hsort
    have hlen := hsort.length_eq
    have hsorted : ∀ d ∈ sorted, Reaches m lead d.arcs.toList d.down :=
      fun d hm => hd.reaches d (hsort.subset hm)
    have hne : sorted.take width ≠ [] := by
      rw [Ne, List.take_eq_nil_iff, not_or]
      refine ⟨by omega, ?_⟩
      rintro rfl
      simp at hlen
      omega
    obtain ⟨hr, hl⟩ := drafted_absorbs (sorted.drop width) hm hne
      ⟨.refl (branches (sorted.take width)), fun d hm => hsorted d (List.mem_of_mem_take hm)⟩
      fun d hm => hsorted d (List.mem_of_mem_drop hm)
    refine ⟨⟨hr.perm.trans ?_, hr.reaches⟩, ?_⟩
    · rw [branches, branches, ← List.flatMap_append, List.take_append_drop]
      exact (hsort.flatMap_right _).trans hd.perm
    · rw [hl, List.length_take]
      omega

theorem mem_branches_absorb {m : Model} {kept r : List Draft} {d : Draft} {b : Branch}
    (h : m.absorb kept d = .ok r) (hb : b ∈ branches r) : b ∈ branches kept ∨ b ∈ d.arcs := by
  unfold Model.absorb at h
  obtain ⟨i, -, h⟩ := Checked.bind_eq_ok.1 h
  cases i with
  | none =>
    obtain rfl := Except.ok.inj h
    exact Or.inl hb
  | some i =>
    cases hk : kept[i]? with
    | none =>
      simp only [hk] at h
      obtain rfl := Except.ok.inj h
      exact Or.inl hb
    | some k =>
      simp only [hk] at h
      obtain ⟨merged, -, h⟩ := Checked.bind_eq_ok.1 h
      obtain rfl := Except.ok.inj h
      have joined : ({ down := { merged with relaxed := true }, arcs := k.arcs ++ d.arcs } : Draft).arcs.toList =
          k.arcs.toList ++ d.arcs.toList := Array.toList_append
      have perm := List.perm_flatMap_set (f := fun e : Draft => e.arcs.toList) hk joined
      exact (List.mem_append.1 (perm.subset hb)).imp_right Array.mem_toList_iff.1

theorem mem_branches_absorbs {m : Model} {b : Branch} {excess kept r : List Draft}
    (h : excess.foldlM m.absorb kept = .ok r) (hb : b ∈ branches r) : b ∈ branches kept ∨ b ∈ branches excess := by
  induction excess generalizing kept with
  | nil =>
    obtain rfl := Except.ok.inj h
    exact Or.inl hb
  | cons d excess ih =>
    rw [List.foldlM_cons] at h
    obtain ⟨mid, hmid, h⟩ := Checked.bind_eq_ok.1 h
    have parts : branches (d :: excess) = d.arcs.toList ++ branches excess := List.flatMap_cons
    rw [parts, List.mem_append]
    rcases ih h with hb | hb
    · exact (mem_branches_absorb hmid hb).imp_right fun hb => Or.inl (Array.mem_toList_iff.2 hb)
    · exact Or.inr (Or.inr hb)

/-- Drafts which are merged bring no branches with them which no draft had. -/
theorem branches_mergeDrafts {m : Model} {width merged : Nat} {ds r : List Draft}
    (h : m.mergeDrafts width ds = .ok (r, merged)) : branches r ⊆ branches ds := by
  unfold Model.mergeDrafts at h
  split at h
  · obtain ⟨rfl, -⟩ := Prod.mk.inj (Except.ok.inj h)
    exact fun _ hb => hb
  · obtain ⟨kept, hk, h⟩ := Checked.bind_eq_ok.1 h
    obtain ⟨rfl, -⟩ := Prod.mk.inj (Except.ok.inj h)
    intro b hb
    have sorted := (Preference.sort_perm (fun a b : Draft => decide (b.arcs.size < a.arcs.size)) ds).flatMap_right
      fun d : Draft => d.arcs.toList
    refine sorted.subset ?_
    rw [← List.take_append_drop width (Preference.sort _ ds), List.flatMap_append, List.mem_append]
    exact mem_branches_absorbs hk hb

end DecisionDiagrams
