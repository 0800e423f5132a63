import DecisionDiagrams.Proofs.Store.Bitmap

/-! What is written of a change is enough to undo it. Changes are undone the latest first; what is undone is
brought back exactly, marks, bounds and size alike. -/

namespace DecisionDiagrams

namespace DomainChange

variable {c : DomainChange} {cs cs' : List DomainChange} {ds : Array Bitmap} {d : Bitmap} {x : Var}

/-- Undoes changes, the latest first. -/
def undoAll (cs : List DomainChange) (ds : Array Bitmap) : Array Bitmap := cs.foldr (fun c ds => c.undo ds) ds

theorem foldl_undo_reverse : cs.reverse.foldl undo ds = undoAll cs ds := List.foldl_reverse

theorem undoAll_append : undoAll (cs ++ cs') ds = undoAll cs (undoAll cs' ds) := List.foldr_append

theorem size_undo : (c.undo ds).size = ds.size := by
  cases c <;> exact Array.size_modify

theorem size_undoAll : (undoAll cs ds).size = ds.size := by
  induction cs with
  | nil => rfl
  | cons c cs ih => exact size_undo.trans ih

theorem modify_push {f : Bitmap → Bitmap} (hx : x < ds.size) : (ds.push d).modify x f = (ds.modify x f).push d := by
  refine Array.ext_getElem? fun i => ?_
  rw [Array.getElem?_modify, Array.getElem?_push, Array.getElem?_push, Array.getElem?_modify, Array.size_modify]
  by_cases hi : i = ds.size
  · have hxi : x ≠ i := fun e => hx.ne (e.trans hi)
    rw [if_neg hxi, if_pos hi, if_pos hi]
  · rw [if_neg hi, if_neg hi]

/-- A new variable is out of reach of the changes written before it was created. -/
theorem undoAll_push (h : ∀ c ∈ cs, c.var < ds.size) : undoAll cs (ds.push d) = (undoAll cs ds).push d := by
  induction cs with
  | nil => rfl
  | cons c cs ih =>
    have hc : c.var < (undoAll cs ds).size := size_undoAll.symm ▸ h c List.mem_cons_self
    calc undoAll (c :: cs) (ds.push d)
        = c.undo ((undoAll cs ds).push d) :=
          congrArg c.undo (ih fun c hc => h c (List.mem_cons_of_mem _ hc))
      _ = (c.undo (undoAll cs ds)).push d := by cases c <;> exact modify_push hc

end DomainChange

/-- Changing a domain and changing it back. -/
theorem modify_modify_cancel {ds : Array Bitmap} {d : Bitmap} {x : Var} {f g : Bitmap → Bitmap} (hd : ds[x]? = some d)
    (h : g (f d) = d) : (ds.modify x f).modify x g = ds := by
  refine Array.ext_getElem? fun i => ?_
  rw [Array.getElem?_modify, Array.getElem?_modify]
  split_ifs with e
  · rw [← e, hd, Option.map_some, Option.map_some, h]
  · rfl

namespace Store

variable {r s t : Store} {d : Bitmap} {E : Finset ℤ} {x y : Var} {v : ℤ}

/-- From `s` to `t` only the domain of `x` was changed. What was written undoes it, and the events tell of
it. -/
structure Touches (x : Var) (s t : Store) : Prop where
  size : t.domains.size = s.domains.size
  others : ∀ y ≠ x, t.domains[y]? = s.domains[y]?
  level : t.journal.level = s.journal.level
  openings : t.journal.openings = s.journal.openings
  entries : ∃ cs, (∀ c ∈ cs, c.var = x) ∧ t.journal.entries.toList = s.journal.entries.toList ++ cs ∧
    DomainChange.undoAll cs t.domains = s.domains
  events : ∃ news, (∀ e ∈ news, e.1 = x) ∧ t.events.toList = s.events.toList ++ news

theorem Touches.refl (x : Var) (s : Store) : Touches x s s where
  size := rfl
  others _ _ := rfl
  level := rfl
  openings := rfl
  entries := ⟨[], by simp, by simp, rfl⟩
  events := ⟨[], by simp, by simp⟩

theorem Touches.trans (h : Touches x r s) (k : Touches x s t) : Touches x r t where
  size := k.size.trans h.size
  others y hy := (k.others y hy).trans (h.others y hy)
  level := k.level.trans h.level
  openings := k.openings.trans h.openings
  entries := by
    obtain ⟨cs, hvar, he, hu⟩ := h.entries
    obtain ⟨cs', hvar', he', hu'⟩ := k.entries
    refine ⟨cs ++ cs', fun c hc => (List.mem_append.1 hc).elim (hvar c) (hvar' c), ?_, ?_⟩
    · rw [he', he, List.append_assoc]
    · rw [DomainChange.undoAll_append, hu', hu]
  events := by
    obtain ⟨news, hvar, he⟩ := h.events
    obtain ⟨news', hvar', he'⟩ := k.events
    refine ⟨news ++ news', fun e he => (List.mem_append.1 he).elim (hvar e) (hvar' e), ?_⟩
    rw [he', he, List.append_assoc]

theorem bitmap_eq (hd : s.domains[x]? = some d) : s.bitmap x = d := by
  rw [bitmap, Array.getD_eq_getD_getElem?, hd, Option.getD_some]

theorem touches_unmark (hd : s.domains[x]? = some d) (h : d.Loose E) (hv : v ∈ E) : Touches x s (unmark x s v) where
  size := Array.size_modify
  others y hy := by simp [unmark, Array.getElem?_modify, Ne.symm hy]
  level := rfl
  openings := rfl
  entries := ⟨[.removal x v], by simp [DomainChange.var], by simp [unmark, Journal.write],
    modify_modify_cancel hd (h.remark_unmark hv)⟩
  events := ⟨[(x, .removal)], by simp, by simp [unmark]⟩

theorem getElem?_unmark (hd : s.domains[x]? = some d) : (unmark x s v).domains[x]? = some (d.unmark v) := by
  simp [unmark, Array.getElem?_modify, hd]

theorem getElem?_updateBounds (hd : s.domains[x]? = some d) :
    (s.updateBounds x).domains[x]? = some (d.withBounds d.firstMarked d.lastMarked) := by
  unfold updateBounds
  dsimp only
  rw [bitmap_eq hd]
  split
  · rename_i same
    rw [same.1, same.2]
    exact hd
  · simp [Array.getElem?_modify, hd]

theorem touches_updateBounds (hd : s.domains[x]? = some d) : Touches x s (s.updateBounds x) := by
  unfold updateBounds
  dsimp only
  rw [bitmap_eq hd]
  have about (b : Prop) [Decidable b] (k : DomainEvent) : ∀ e ∈ (if b then #[(x, k)] else #[]), e.1 = x := by
    split_ifs <;> simp
  split
  · exact
      { size := rfl
        others := fun _ _ => rfl
        level := rfl
        openings := rfl
        entries := (Touches.refl x s).entries
        events := ⟨_, fun e he => about _ _ e (Array.mem_toList_iff.1 he), Array.toList_append⟩ }
  · exact
      { size := Array.size_modify
        others := fun y hy => by simp [Array.getElem?_modify, Ne.symm hy]
        level := rfl
        openings := rfl
        entries := ⟨[.bounds x d.lower d.upper], by simp [DomainChange.var], by simp [Journal.write],
          modify_modify_cancel hd rfl⟩
        events := by
          refine ⟨_, ?_, by rw [Array.toList_append, Array.toList_append, Array.toList_append, List.append_assoc,
            List.append_assoc]⟩
          intro e he
          simp only [List.mem_append, Array.mem_toList_iff] at he
          rcases he with he | he | he <;> exact about _ _ e he }

/-- Taking values out one after another. -/
theorem foldl_unmark {vs : List ℤ} (hd : s.domains[x]? = some d) (h : d.Loose E) (hnodup : vs.Nodup)
    (hvs : ∀ v ∈ vs, v ∈ E) :
    Touches x s (vs.foldl (unmark x) s) ∧
      (vs.foldl (unmark x) s).domains[x]? = some (vs.foldl (fun d v => d.unmark v) d) := by
  induction vs generalizing s d E with
  | nil => exact ⟨.refl x s, hd⟩
  | cons v vs ih =>
    rw [List.nodup_cons] at hnodup
    have hv := hvs v List.mem_cons_self
    obtain ⟨touches, row⟩ := ih (getElem?_unmark hd) (h.unmark hv) hnodup.2 (Bitmap.forall_mem_erase hnodup.1 hvs)
    exact ⟨(touches_unmark hd h hv).trans touches, row⟩

/-- Discarding some values of a domain, but not all, leaves the other ones. -/
theorem discard_spec {vs : List ℤ} {D : Finset ℤ} (hd : s.domains[x]? = some d) (h : d.Represents D)
    (hnodup : vs.Nodup) (hvs : ∀ v ∈ vs, v ∈ D) (hleft : (D \ vs.toFinset).Nonempty) :
    Touches x s (s.discard x vs) ∧
      ∃ d', (s.discard x vs).domains[x]? = some d' ∧ d'.Represents (D \ vs.toFinset) := by
  obtain ⟨touches, row⟩ := foldl_unmark hd h.toLoose hnodup hvs
  exact ⟨touches.trans (touches_updateBounds row), _, getElem?_updateBounds row,
    (h.toLoose.foldl_unmark hnodup hvs).tightened hleft⟩

/-- An event tells of the first value discarded. -/
theorem mem_events_discard {vs : List ℤ} {D : Finset ℤ} (hd : s.domains[x]? = some d) (h : d.Represents D)
    (hne : vs ≠ []) (hnodup : vs.Nodup) (hvs : ∀ v ∈ vs, v ∈ D) :
    ∃ news, news ≠ [] ∧ (∀ e ∈ news, e.1 = x) ∧ (s.discard x vs).events.toList = s.events.toList ++ news := by
  obtain ⟨v, vs, rfl⟩ := List.exists_cons_of_ne_nil hne
  rw [List.nodup_cons] at hnodup
  have hv := hvs v List.mem_cons_self
  obtain ⟨touches, row⟩ :=
    foldl_unmark (getElem?_unmark hd) (h.toLoose.unmark hv) hnodup.2 (Bitmap.forall_mem_erase hnodup.1 hvs)
  obtain ⟨news, hvar, he⟩ := (touches.trans (touches_updateBounds row)).events
  refine ⟨(x, .removal) :: news, List.cons_ne_nil _ _, List.forall_mem_cons.2 ⟨rfl, hvar⟩, ?_⟩
  calc (s.discard x (v :: vs)).events.toList
      = (unmark x s v).events.toList ++ news := he
    _ = s.events.toList ++ (x, .removal) :: news := by simp [unmark]

end Store
end DecisionDiagrams
