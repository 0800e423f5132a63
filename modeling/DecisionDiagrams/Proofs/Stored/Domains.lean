import DecisionDiagrams.Proofs.Domains
import DecisionDiagrams.Proofs.Store.Refinement

/-! Stored domains next to the domains of a solver which are kept whole. Both keep the same stack of sets, so
they list the same values and are restricted alike. The store queues several events where the other ones note
one variable, but the variables come in the same order. -/

namespace DecisionDiagrams

namespace Domain

variable {d e : Domain} {D : Finset ℤ}

theorem Lists.eq (h : d.Lists D) (k : e.Lists D) : d = e := by
  obtain ⟨⟨l, hl⟩, hn⟩ := d
  obtain ⟨⟨l', hl'⟩, hn'⟩ := e
  obtain rfl : l = l' := h.depicts.values.trans k.depicts.values.symm
  rfl

end Domain

theorem Bitmap.Represents.domain? {b : Bitmap} {d : Domain} {D : Finset ℤ} (h : b.Represents D) (k : d.Lists D) :
    b.domain? = some d := by
  obtain ⟨lists, some_iff⟩ := Domain.ofSet?_lists (s := (IntSet.range b.lower b.upper).filter b.contains)
    (D := D) fun v => by
      rw [IntSet.mem_filter, IntSet.mem_range, h.contains]
      exact and_iff_right_of_imp (h.within v)
  obtain ⟨e, he⟩ := Option.isSome_iff_exists.1 (some_iff.2 k.nonempty)
  exact he.trans (congrArg some ((lists e he).eq k))

theorem List.mapM_eq_some_of_forall₂ {α β : Type} {f : α → Option β} {as : List α} {bs : List β}
    (h : List.Forall₂ (fun a b => f a = some b) as bs) : as.mapM f = some bs := by
  induction h with
  | nil => rfl
  | cons head _ ih =>
    rw [List.mapM_cons, head, ih]
    rfl

/-- Values which were told several times in a row count once. -/
theorem eraseDups_append_congr {as bs news : List Var} {x : Var} (h : as.eraseDups = bs.eraseDups)
    (hne : news ≠ []) (hx : ∀ y ∈ news, y = x) : (as ++ news).eraseDups = (bs ++ [x]).eraseDups := by
  have mem : ∀ y, y ∈ as ↔ y ∈ bs := fun y => by rw [← List.mem_eraseDups, h, List.mem_eraseDups]
  have same : news.removeAll as = news.removeAll bs := List.filter_congr fun y _ => by simp [mem]
  have once : (news.removeAll bs).eraseDups = ([x].removeAll bs).eraseDups := by
    by_cases hb : x ∈ bs
    · have none : ∀ l : List Var, (∀ y ∈ l, y = x) → l.removeAll bs = [] := fun l hl =>
        List.filter_eq_nil_iff.2 fun y hy => by simp [hl y hy, hb]
      rw [none news hx, none [x] (by simp)]
    · have all : ∀ l : List Var, (∀ y ∈ l, y = x) → l.removeAll bs = l := fun l hl =>
        List.filter_eq_self.2 fun y hy => by simp [hl y hy, hb]
      rw [all news hx, all [x] (by simp)]
      obtain ⟨y, rest, rfl⟩ := List.exists_cons_of_ne_nil hne
      obtain rfl := hx y List.mem_cons_self
      have gone : (rest.filter fun b => !b == y) = [] :=
        List.filter_eq_nil_iff.2 fun z hz => by simp [hx z (List.mem_cons_of_mem _ hz)]
      rw [List.eraseDups_cons, gone]
      rfl
  rw [List.eraseDups_append, List.eraseDups_append, h, same, once]

namespace Store

variable {st t : Store} {R : History Domains} {x : Var} {target : ℕ}

/-- The store has the domains of `R`, at present and at the open levels. -/
structure Follows (st : Store) (R : History Domains) : Prop where
  sets : ∃ a, st.Mirrors a ∧ Domains.Mirrors R a
  told : (st.events.toList.map (·.1)).eraseDups = R.current.changed.toList.eraseDups

theorem follows_empty : Follows {} { current := {} } :=
  ⟨⟨{}, mirrors_empty, ⟨⟨⟨rfl, by simp⟩, .nil⟩, by simp⟩⟩, rfl⟩

namespace Follows

theorem level (f : st.Follows R) : st.level = R.level := by
  obtain ⟨a, ms, md⟩ := f.sets
  exact ms.level.trans md.history.level.symm

theorem size (f : st.Follows R) : st.domains.size = R.current.size := by
  obtain ⟨a, ms, md⟩ := f.sets
  exact ms.aligned.size.trans md.lists.size.symm

/-- A stored domain and the list of its values stand for one set. -/
theorem both (f : st.Follows R) {d : Domain} (hd : R.current.domains[x]? = some d) :
    ∃ b D, st.domains[x]? = some b ∧ b.Represents D ∧ d.Lists D := by
  obtain ⟨a, ms, md⟩ := f.sets
  have hx : x < R.current.size := (Array.getElem?_eq_some_iff.1 hd).1
  have hb := Array.getElem?_eq_getElem (hx.trans_eq f.size.symm)
  have hD := List.getElem?_eq_getElem (hx.trans_eq md.lists.size)
  exact ⟨_, _, hb, ms.aligned.rel x _ _ hb hD, md.lists.rel x _ _ hd hD⟩

theorem domain? (f : st.Follows R) :
    List.Forall₂ (fun b d => Bitmap.domain? b = some d) st.domains.toList R.current.domains.toList := by
  refine List.forall₂_iff_get.2 ⟨f.size, fun x hx hx' => ?_⟩
  have there : R.current.domains[x]? = some _ := Array.getElem?_eq_getElem hx'
  obtain ⟨b, D, hb, represents, lists⟩ := f.both there
  obtain ⟨_, rfl⟩ := Array.getElem?_eq_some_iff.1 hb
  exact represents.domain? lists

theorem listed? (f : st.Follows R) : st.listed? = some R.current.settle := by
  rw [Store.listed?, List.mapM_eq_some_of_forall₂ f.domain?]
  rfl

theorem values (f : st.Follows R) :
    st.domains.toList.map (·.values) = R.current.domains.toList.map (·.toList) := by
  have hsize : st.domains.size = R.current.domains.size := f.size
  refine List.ext_getElem (by simpa using hsize) fun x hx hx' => ?_
  have hx' : x < R.current.domains.size := by simpa using hx'
  obtain ⟨b, D, hb, represents, lists⟩ := f.both (Array.getElem?_eq_getElem hx')
  obtain ⟨_, rfl⟩ := Array.getElem?_eq_some_iff.1 hb
  rw [List.getElem_map, List.getElem_map]
  exact represents.depicts.values.trans lists.depicts.values.symm

/-- Without an event no variable is noted. -/
theorem settled (f : st.Follows R) (quiet : st.events = #[]) : R.current.settle = R.current := by
  have told := f.told
  rw [quiet] at told
  have empty : R.current.changed = #[] := by
    refine Array.toList_inj.1 (List.eq_nil_iff_forall_not_mem.2 fun y hy => ?_)
    rw [← List.mem_eraseDups, ← told] at hy
    cases hy
  unfold Domains.settle
  rw [← empty]

theorem openLevel (f : st.Follows R) : st.openLevel.Follows R.openCheckpoint := by
  obtain ⟨a, ms, md⟩ := f.sets
  exact ⟨⟨_, ms.openLevel, md.history.openCheckpoint, md.pending⟩, f.told⟩

theorem drain (f : st.Follows R) : st.drainEvents.2.Follows (R.modify (·.settle)) := by
  obtain ⟨a, ms, md⟩ := f.sets
  exact ⟨⟨_, ms.drain, md.settle⟩, rfl⟩

theorem create (f : st.Follows R) (root : R.level = 0) {o : Offer} {b : Bitmap} (hb : o.bitmap? = some b) :
    ∃ d, o.domain? = some d ∧ (st.create b).Follows (R.modify (·.add d)) := by
  obtain ⟨a, ms, md⟩ := f.sets
  obtain ⟨lists, some_iff⟩ := o.domain?_lists
  have hsome : o.bitmap?.isSome = true := by rw [hb]; rfl
  obtain ⟨d, hd⟩ := Option.isSome_iff_exists.1 (some_iff.2 (o.bitmap?_isSome.1 hsome).1)
  exact ⟨d, hd, ⟨_, ms.create (Offer.bitmap?_represents hb), md.create root (lists d hd)⟩, f.told⟩

theorem synchronise (f : st.Follows R) (ht : target < R.level) :
    ∃ t, st.synchronise? target = some t ∧ t.Follows ((R.backtrack target).modify (·.settle)) := by
  obtain ⟨a, ms, md⟩ := f.sets
  obtain ⟨t, hs⟩ := Option.isSome_iff_exists.1 (synchronise?_isSome.2 (f.level.symm ▸ ht))
  have back : Domains.Mirrors (R.backtrack target)
      { history := a.history.backtrack target
        pending := (R.backtrack target).current.changed.toList.toFinset } :=
    ⟨md.history.backtrack, fun x => by rw [List.mem_toFinset, Array.mem_toList_iff]⟩
  refine ⟨t, hs, ⟨_, ms.synchronise hs, back.settle⟩, ?_⟩
  rw [(synchronise?_spec ms.sound hs).2.2]
  rfl

/-- Restricting leaves nothing in both, or the same. -/
theorem restrict (f : st.Follows R) (hx : x < R.current.size) (r : Restriction) :
    (r.onStore st x).1 = none ∧ R.current.restrict? x r.keeps = none ∨
      ∃ yes D, (r.onStore st x).1 = some yes ∧ R.current.restrict? x r.keeps = some (yes, D) ∧
        (r.onStore st x).2.Follows (R.modify fun _ => D) := by
  obtain ⟨a, ms, md⟩ := f.sets
  have hx' : x < st.domains.size := hx.trans_eq f.size.symm
  have hD := List.getElem?_eq_getElem (hx.trans_eq md.lists.size)
  have stored := ms.restrict r hx' hD
  have whole := md.restrict r (Array.getElem?_eq_getElem hx) hD
  have sincere := ms.sincere hx' r
  simp only [Store.ask, if_pos hx'] at stored
  simp only [Domains.ask, if_pos hx, r.onDomains_eq] at whole
  obtain ⟨reply, ms'⟩ := stored
  obtain ⟨reply', md'⟩ := whole
  have replies := reply.trans reply'.symm
  rcases hs : r.onStore st x with ⟨_ | yes, t⟩
  · rw [hs] at replies
    left
    cases hd : R.current.restrict? x r.keeps with
    | none => exact ⟨rfl, rfl⟩
    | some out => rw [hd] at replies; cases replies
  · rw [hs] at replies ms'
    right
    cases hd : R.current.restrict? x r.keeps with
    | none => rw [hd] at replies; cases replies
    | some out =>
      obtain ⟨yes', D⟩ := out
      rw [hd] at replies md'
      obtain rfl : yes = yes' := Reply.changed.inj replies
      refine ⟨yes, D, rfl, rfl, ⟨_, ms', md'⟩, ?_⟩
      cases yes with
      | false =>
        have same : t = st := by have := sincere.unchanged (by rw [hs]); rwa [hs] at this
        have same' : D = R.current := Domains.restrict?_false hd
        rw [same, same']
        exact f.told
      | true =>
        obtain ⟨news, hne, hvar, he⟩ := sincere.changed (by rw [hs])
        rw [hs] at he
        have noted : D.changed = R.current.changed.push x := Domains.changed_restrict? hd
        show (t.events.toList.map (·.1)).eraseDups = D.changed.toList.eraseDups
        rw [he, List.map_append, noted, Array.toList_push]
        refine eraseDups_append_congr f.told (by simpa using hne) fun y hy => ?_
        obtain ⟨e, he, rfl⟩ := List.mem_map.1 hy
        exact hvar e he

end Follows

/-! ### The places of the marks -/

/-- The first value and the number of marks of every domain. -/
def spans (st : Store) : Array (ℤ × ℕ) := st.domains.map fun d => (d.offset, d.present.size)

theorem map_modify {ds : Array Bitmap} {f : Bitmap → Bitmap}
    (hf : ∀ d, ((f d).offset, (f d).present.size) = (d.offset, d.present.size)) (x : Var) :
    ((ds.modify x f).map fun d => (d.offset, d.present.size)) = ds.map fun d => (d.offset, d.present.size) := by
  refine Array.ext_getElem? fun y => ?_
  rw [Array.getElem?_map, Array.getElem?_map, Array.getElem?_modify]
  split_ifs with e
  · rw [Option.map_map]
    exact congrArg (fun g => Option.map g ds[y]?) (funext hf)
  · rfl

theorem spans_unmark (x : Var) (v : ℤ) (st : Store) : (unmark x st v).spans = st.spans :=
  map_modify (f := Bitmap.unmark v) (fun d => by simp [Bitmap.unmark]) x

theorem spans_updateBounds (x : Var) (st : Store) : (st.updateBounds x).spans = st.spans := by
  unfold updateBounds
  dsimp only
  split
  · rfl
  · exact map_modify (f := Bitmap.withBounds _ _) (fun d => rfl) x

theorem spans_discard (x : Var) (vs : List ℤ) (st : Store) : (st.discard x vs).spans = st.spans := by
  refine (spans_updateBounds x _).trans ?_
  induction vs generalizing st with
  | nil => rfl
  | cons v vs ih => exact (ih _).trans (spans_unmark x v st)

theorem spans_onStore (r : Restriction) (x : Var) (st : Store) : (r.onStore st x).2.spans = st.spans := by
  cases r with
  | remove v =>
    simp only [Restriction.onStore, remove]
    split_ifs <;> simp only [spans_discard]
  | raiseLower bound =>
    simp only [Restriction.onStore, raiseLower]
    split_ifs <;> simp only [spans_discard]
  | cutUpper bound =>
    simp only [Restriction.onStore, cutUpper]
    split_ifs <;> simp only [spans_discard]
  | assign v =>
    simp only [Restriction.onStore, assign]
    split_ifs <;> simp only [spans_discard]

theorem spans_synchronise? (h : st.synchronise? target = some t) : t.spans = st.spans := by
  unfold synchronise? at h
  split_ifs at h
  obtain rfl := Option.some.inj h
  show ((st.journal.cutBack target).1.foldl DomainChange.undo st.domains).map _ = st.domains.map _
  generalize (st.journal.cutBack target).1 = undone
  generalize st.domains = ds
  induction undone generalizing ds with
  | nil => rfl
  | cons c undone ih =>
    refine (ih _).trans ?_
    cases c with
    | removal x v => exact map_modify (f := Bitmap.remark v) (fun d => by simp [Bitmap.remark]) x
    | bounds x lower upper => exact map_modify (f := Bitmap.withBounds lower upper) (fun d => rfl) x

end Store
end DecisionDiagrams
