import DecisionDiagrams.Proofs.Engine.Computes
import Mathlib.Data.List.Forall2

/-! States which stand for several. The arcs which are bundled for a split, or which lead to the same
node of a new layer, are never lost or doubled, and the state they get is blended from the states
they lead to. -/

namespace DecisionDiagrams

/-- `t` is made from the listed states by merging. -/
inductive Blend (m : Model) : List State → State → Prop
  | one (s : State) : Blend m [s] s
  | again {ss : List State} {s : State} (h : Blend m ss s) : Blend m (ss ++ [s]) s
  | merge {ss ts : List State} {s t u : State} (hs : Blend m ss s) (ht : Blend m ts t)
      (hu : m.mergeListed .down (m.everyProperty .down) s t = .ok u) :
      Blend m (ss ++ ts) { u with relaxed := true }

namespace Blend

variable {m : Model} {ss : List State} {t : State} {D : State → Prop}

/-- What merging takes over from both states is taken over if all blended states have it. -/
theorem of_all (h : Blend m ss t)
    (hD : ∀ s t u, m.mergeListed .down (m.everyProperty .down) s t = .ok u → D s → D t →
      D { u with relaxed := true })
    (hs : ∀ s ∈ ss, D s) : D t := by
  induction h with
  | one s => exact hs s List.mem_cons_self
  | again h ih => exact ih fun s hm => hs s (List.mem_append_left _ hm)
  | merge _ _ hu ihs iht =>
    exact hD _ _ _ hu (ihs fun s hm => hs s (List.mem_append_left _ hm))
      (iht fun s hm => hs s (List.mem_append_right _ hm))

theorem ne_nil (h : Blend m ss t) : ss ≠ [] := by
  induction h with
  | one s => simp
  | again h ih => simp
  | merge hs ht hu ihs iht => simp [ihs]

end Blend

/-- `t` is blended from the states to which the listed ways lead. -/
def Reaches {α : Type} (m : Model) (lead : α → Checked State) (ways : List α) (t : State) : Prop :=
  ∃ ss, List.Forall₂ (fun a s => lead a = .ok s) ways ss ∧ Blend m ss t

namespace Reaches

variable {α : Type} {m : Model} {lead : α → Checked State} {ways : List α} {s t : State} {a : α}

theorem one (h : lead a = .ok s) : Reaches m lead [a] s := ⟨[s], .cons h .nil, .one s⟩

theorem again (h : Reaches m lead ways s) (ha : lead a = .ok s) : Reaches m lead (ways ++ [a]) s := by
  obtain ⟨ss, hf, hb⟩ := h
  exact ⟨ss ++ [s], List.rel_append hf (.cons ha .nil), hb.again⟩

theorem merge {ways' : List α} {u : State} (h : Reaches m lead ways s)
    (h' : Reaches m lead ways' t) (hu : m.mergeListed .down (m.everyProperty .down) s t = .ok u) :
    Reaches m lead (ways ++ ways') { u with relaxed := true } := by
  obtain ⟨ss, hf, hb⟩ := h
  obtain ⟨ts, hf', hb'⟩ := h'
  exact ⟨ss ++ ts, List.rel_append hf hf', .merge hb hb' hu⟩

theorem ne_nil (h : Reaches m lead ways t) : ways ≠ [] := by
  obtain ⟨ss, hf, hb⟩ := h
  rintro rfl
  cases hf
  exact hb.ne_nil rfl

theorem congr {lead' : α → Checked State} (h : Reaches m lead ways t)
    (he : ∀ a ∈ ways, lead' a = lead a) : Reaches m lead' ways t := by
  obtain ⟨ss, hf, hb⟩ := h
  refine ⟨ss, ?_, hb⟩
  rw [List.forall₂_iff_get] at hf ⊢
  refine ⟨hf.1, fun i hi hi' => ?_⟩
  rw [he _ (List.get_mem _ _)]
  exact hf.2 i hi hi'

end Reaches

/-! ### Bundles of incoming arcs -/

namespace Candidate

variable {p : Plan} {lead : ArcId → Checked State}

/-- The bundles hold the listed arcs, each once, with the states they lead to. -/
structure Sorted (m : Model) (lead : ArcId → Checked State) (arcs : List ArcId)
    (cs : List Candidate) : Prop where
  perm : (cs.flatMap (·.arcs)).Perm arcs
  reaches : ∀ c ∈ cs, Reaches m lead c.arcs c.down

theorem Sorted.nil (m : Model) (lead : ArcId → Checked State) : Sorted m lead [] [] :=
  ⟨.refl _, by simp⟩

theorem reaches_join {m : Model} {c d : Candidate} {down : State} {a : ArcId}
    (h : c.join m down a = .ok d) (hc : Reaches m lead c.arcs c.down) (ha : lead a = .ok down) :
    Reaches m lead d.arcs d.down ∧ d.arcs = c.arcs ++ [a] := by
  unfold join at h
  dsimp only at h
  split at h
  · rename_i e
    obtain rfl := Except.ok.inj h
    refine ⟨?_, rfl⟩
    subst e
    exact hc.again ha
  · cases hm : m.mergeListed .down (m.everyProperty .down) c.down down with
    | error f => rw [hm] at h; cases h
    | ok merged =>
      rw [hm] at h
      obtain rfl := Except.ok.inj h
      exact ⟨hc.merge (.one ha) hm, rfl⟩

theorem sorted_add {m : Model} {belongs : Candidate → Bool} {key : List Int} {down : State}
    {a : ArcId} (ha : lead a = .ok down) : ∀ {cs ds : List Candidate} {arcs : List ArcId},
    add m belongs key down a cs = .ok ds → Sorted m lead arcs cs → Sorted m lead (arcs ++ [a]) ds
  | [], ds, arcs, h, hs => by
    obtain rfl := Except.ok.inj h
    have hn : arcs = [] := List.Perm.nil_eq hs.perm |>.symm
    subst hn
    refine ⟨List.Perm.refl _, fun c hc => ?_⟩
    rw [List.mem_singleton.1 hc]
    exact .one ha
  | c :: rest, ds, arcs, h, hs => by
    unfold add at h
    split at h
    · cases hj : c.join m down a with
      | error f => rw [hj] at h; cases h
      | ok d =>
        rw [hj] at h
        obtain rfl := Except.ok.inj h
        obtain ⟨hd, hda⟩ := reaches_join hj (hs.reaches c List.mem_cons_self) ha
        refine ⟨?_, fun e he => ?_⟩
        · rw [List.flatMap_cons, hda]
          have := hs.perm
          rw [List.flatMap_cons] at this
          refine List.Perm.trans ?_ (this.append_right [a])
          rw [List.append_assoc, List.append_assoc]
          exact List.Perm.append_left _ List.perm_append_comm
        · rcases List.mem_cons.1 he with rfl | he
          · exact hd
          · exact hs.reaches e (List.mem_cons_of_mem _ he)
    · cases hr : add m belongs key down a rest with
      | error f => rw [hr] at h; cases h
      | ok es =>
        rw [hr] at h
        obtain rfl := Except.ok.inj h
        have ih := sorted_add ha hr ⟨List.Perm.refl (rest.flatMap (·.arcs)),
          fun e he => hs.reaches e (List.mem_cons_of_mem _ he)⟩
        refine ⟨?_, fun e he => ?_⟩
        · rw [List.flatMap_cons]
          refine (ih.perm.append_left c.arcs).trans ?_
          rw [← List.append_assoc]
          exact hs.perm.append_right [a]
        · rcases List.mem_cons.1 he with rfl | he
          · exact hs.reaches e List.mem_cons_self
          · exact ih.reaches e he

end Candidate

/-- The state to which an arc leads. -/
def Workspace.leads (w : Workspace) (p : Plan) (layer : Nat) (a : ArcId) : Checked State :=
  p.model.step .down (layer - 1) (w.graph.state (w.graph.arc a).parent .down)
    (w.combined? p.model (w.graph.arc a).parent) (.singleton (w.graph.arc a).value)

theorem sorted_bundleUp {p : Plan} {w : Workspace} {layer : Nat} : ∀ (arcs : List ArcId)
    {done : List ArcId} {cs ds : List Candidate},
    Candidate.Sorted p.model (w.leads p layer) done cs →
    arcs.foldlM (w.bundleUp p layer) cs = .ok ds →
    Candidate.Sorted p.model (w.leads p layer) (done ++ arcs) ds
  | [], done, cs, ds, hs, h => by
    obtain rfl := Except.ok.inj h
    rwa [List.append_nil]
  | a :: arcs, done, cs, ds, hs, h => by
    rw [List.foldlM_cons] at h
    cases hb : w.bundleUp p layer cs a with
    | error f => rw [hb] at h; cases h
    | ok es =>
      rw [hb] at h
      have he : Candidate.Sorted p.model (w.leads p layer) (done ++ [a]) es := by
        unfold Workspace.bundleUp at hb
        dsimp only at hb
        cases hd : w.leads p layer a with
        | error f => rw [show p.model.step _ _ _ _ _ = .error f from hd] at hb; cases hb
        | ok down =>
          rw [show p.model.step _ _ _ _ _ = .ok down from hd] at hb
          obtain ⟨belongs, key, hadd⟩ : ∃ belongs key,
              Candidate.add p.model belongs key down a cs = .ok es := by
            change (if _ then _ else _ : Checked _) = _ at hb
            split_ifs at hb
            · cases hk : p.model.equivalenceKey down with
              | error f => rw [hk] at hb; cases hb
              | ok key => rw [hk] at hb; exact ⟨_, key, hb⟩
            · exact ⟨_, [], hb⟩
          exact Candidate.sorted_add hd hadd hs
      have := sorted_bundleUp arcs he h
      rwa [List.append_assoc] at this

end DecisionDiagrams
