import DecisionDiagrams.Cells
import DecisionDiagrams.Proofs.Journal
import DecisionDiagrams.Proofs.Work.Census

/-! The cells of the support counts answer for their history. The rows of the layers do not overlap, and each cell
holds the number of arcs of its layer which carry its value; what lies outside of a row is carried by no arc. -/

namespace DecisionDiagrams

namespace Cells

variable {c : Cells} {h : History (Array ℤ)} {target : ℕ}

/-- `e` is written when the cells `vs` become `ws`. -/
def Change (vs : Array ℤ) (e : ℕ × ℤ) (ws : Array ℤ) : Prop := undo ws e = vs

/-- The cells hold what the history says, and undoing what was written leads back along it. -/
structure Mirrors (c : Cells) (h : History (Array ℤ)) : Prop where
  values : c.values = h.current
  logs : c.journal.Logs Change h

theorem mirrors_empty : Mirrors {} { current := #[] } := ⟨rfl, .start _ rfl rfl⟩

namespace Mirrors

theorem grow (m : c.Mirrors h) (root : h.level = 0) (count : ℕ) :
    (c.grow count).Mirrors (h.modify (· ++ Array.replicate count 0)) := by
  obtain ⟨now, kept⟩ := h
  obtain rfl : kept = [] := List.length_eq_zero_iff.1 root
  have level : c.journal.level = 0 := m.logs.level.symm
  exact ⟨congrArg (· ++ Array.replicate count 0) m.values, .start _ level
    (Array.size_eq_zero_iff.1 (m.logs.sound.level.symm.trans level))⟩

theorem write (m : c.Mirrors h) (i : ℕ) (v : ℤ) : (c.write i v).Mirrors (h.modify (·.setIfInBounds i v)) := by
  have undone : (c.values.setIfInBounds i v).setIfInBounds i (c.read i) = c.values := by
    refine Array.ext_getElem? fun j => ?_
    rw [Array.setIfInBounds_setIfInBounds, Array.getElem?_setIfInBounds]
    split_ifs with e hi
    · rw [← e, read, Array.getD_eq_getD_getElem?, Array.getElem?_eq_getElem hi, Option.getD_some]
    · rw [← e, Array.getElem?_eq_none (Nat.not_lt.1 hi)]
    · rfl
  unfold Cells.write
  split_ifs with same
  · rw [same, Array.setIfInBounds_setIfInBounds] at undone
    have stays : h.current.setIfInBounds i v = h.current := by rw [← m.values, undone]
    refine ⟨m.values.trans stays.symm, ?_⟩
    rw [History.modify, stays]
    exact m.logs
  · refine ⟨congrArg (·.setIfInBounds i v) m.values, m.logs.write ?_⟩
    show (h.current.setIfInBounds i v).setIfInBounds i (c.read i) = h.current
    rw [← m.values, undone]

theorem openLevel (m : c.Mirrors h) : c.openLevel.Mirrors h.openCheckpoint := ⟨m.values, m.logs.openLevel⟩

theorem synchronise (m : c.Mirrors h) (ht : target < h.level) :
    ∃ d, c.synchronise? target = some d ∧ d.Mirrors (h.backtrack target) := by
  have ht : target < c.journal.level := m.logs.level ▸ ht
  obtain ⟨logs, leads⟩ := m.logs.cutBack ht
  refine ⟨_, if_pos ht, ?_, logs⟩
  show (c.journal.cutBack target).1.foldl undo c.values = _
  rw [m.values]
  generalize (c.journal.cutBack target).1 = undone at leads
  generalize h.current = now at leads
  generalize (h.backtrack target).current = before at leads
  induction leads with
  | done => rfl
  | back change _ ih => rw [List.foldl_cons, show undo _ _ = _ from change, ih]

end Mirrors
end Cells

/-! ### Rows -/

namespace Row

variable {r r' : Row} {v u : ℤ} {i : ℕ}

/-- The cells of the row come before those of the other one. -/
def Before (r r' : Row) : Prop := r.offset + r.width ≤ r'.offset

def Has (r : Row) (i : ℕ) : Prop := r.offset ≤ i ∧ i < r.offset + r.width

theorem cell?_eq_some :
    r.cell? v = some i ↔ r.first ≤ v ∧ v < r.first + r.width ∧ r.offset + (v - r.first).toNat = i := by
  unfold cell?
  split_ifs with h
  · rw [Option.some.injEq]
    exact ⟨fun e => ⟨h.1, h.2, e⟩, fun e => e.2.2⟩
  · exact iff_of_false (by simp) fun e => h ⟨e.1, e.2.1⟩

theorem cell?_eq_none : r.cell? v = none ↔ ¬ (r.first ≤ v ∧ v < r.first + r.width) := by
  unfold cell?
  split_ifs with h <;> simp [h]

theorem has_of_cell? (h : r.cell? v = some i) : r.Has i := by
  obtain ⟨h1, h2, rfl⟩ := cell?_eq_some.1 h
  unfold Has
  omega

theorem cell?_inj (h : r.cell? v = some i) (k : r.cell? u = some i) : v = u := by
  obtain ⟨h1, h2, h3⟩ := cell?_eq_some.1 h
  obtain ⟨k1, k2, k3⟩ := cell?_eq_some.1 k
  omega

end Row

/-- No two rows share a cell. -/
def Apart (rows : List Row) : Prop := rows.Pairwise Row.Before

theorem Apart.eq_of_has {rows : List Row} (h : Apart rows) {l l' : ℕ} {r r' : Row} {i : ℕ} (hr : rows[l]? = some r)
    (hr' : rows[l']? = some r') (hi : r.Has i) (hi' : r'.Has i) : l = l' := by
  obtain ⟨hl, rfl⟩ := List.getElem?_eq_some_iff.1 hr
  obtain ⟨hl', rfl⟩ := List.getElem?_eq_some_iff.1 hr'
  unfold Row.Has at hi hi'
  rcases Nat.lt_trichotomy l l' with lt | e | lt
  · have before : _ + _ ≤ _ := List.pairwise_iff_getElem.1 h l l' hl hl' lt
    omega
  · exact e
  · have before : _ + _ ≤ _ := List.pairwise_iff_getElem.1 h l' l hl' hl lt
    omega

/-- Rows which are laid out are new and have the places of the marks of their domains. -/
theorem Cells.Mirrors.layOut {c : Cells} {h : History (Array ℤ)} (m : c.Mirrors h) (root : h.level = 0)
    (ds : List Bitmap) : ∃ n, (c.layOut ds).2.Mirrors (h.modify (· ++ Array.replicate n 0)) ∧
      Apart (c.layOut ds).1 ∧
      (∀ r ∈ (c.layOut ds).1, h.current.size ≤ r.offset ∧ r.offset + r.width ≤ h.current.size + n) ∧
      List.Forall₂ (fun r d => r.first = d.offset ∧ r.width = d.present.size) (c.layOut ds).1 ds := by
  induction ds generalizing c h with
  | nil =>
    refine ⟨0, ?_, .nil, by simp [Cells.layOut], .nil⟩
    have same : h.modify (· ++ Array.replicate 0 0) = h := by simp [History.modify]
    rw [same]
    exact m
  | cons d ds ih =>
    obtain ⟨n, m', apart, within, places⟩ := ih (m.grow root d.present.size) root
    have size : (h.modify (· ++ Array.replicate d.present.size 0)).current.size = h.current.size + d.present.size := by
      simp [History.modify]
    have values := congrArg Array.size m.values
    refine ⟨d.present.size + n, ?_, List.pairwise_cons.2 ⟨fun r hr => ?_, apart⟩, List.forall_mem_cons.2
      ⟨⟨values.ge, ?_⟩, fun r hr => ?_⟩, .cons ⟨rfl, rfl⟩ places⟩
    · have joined : (h.modify (· ++ Array.replicate (d.present.size + n) 0)) =
          (h.modify (· ++ Array.replicate d.present.size 0)).modify (· ++ Array.replicate n 0) := by
        simp only [History.modify, Array.append_assoc, Array.replicate_append_replicate]
      rw [joined]
      exact m'
    · have := (within r hr).1
      unfold Row.Before
      dsimp only
      omega
    · dsimp only
      omega
    · have := within r hr
      omega

/-! ### What the cells hold -/

theorem Supports.getElem?_put (s : Supports) (v u : ℤ) (n : ℕ) :
    (s.put v n)[u]? = if u = v then (if n = 0 then none else some n) else s[u]? := by
  have same : compare v u = .eq ↔ u = v := Std.LawfulEqCmp.compare_eq_iff_eq.trans eq_comm
  unfold put
  split_ifs <;> simp_all [Std.ExtTreeMap.getElem?_insert, Std.ExtTreeMap.getElem?_erase]

/-- No value is noted with the count zero. -/
def Supports.Proper (s : Supports) : Prop := ∀ v : ℤ, s[v]? ≠ some 0

namespace Supports.Proper

variable {s : Supports}

theorem getElem? (h : s.Proper) (v : ℤ) : s[v]? = if s.count v = 0 then none else some (s.count v) := by
  have proper := h v
  unfold count
  rw [Std.ExtTreeMap.getD_eq_getD_getElem?]
  cases hv : s[v]? with
  | none => rfl
  | some n =>
    rw [hv] at proper
    rw [Option.getD_some, if_neg fun e => proper (congrArg some e)]

theorem put (h : s.Proper) (v : ℤ) (n : ℕ) : (s.put v n).Proper := fun u => by
  rw [getElem?_put]
  split_ifs with e e'
  · simp
  · simpa using e'
  · exact h u

end Supports.Proper

namespace Row

theorem getElem?_foldl_put (first : ℤ) (f : ℕ → ℕ) (n : ℕ) (v : ℤ) :
    ((List.range n).foldl (fun (s : Supports) (k : ℕ) => s.put (first + k) (f k)) ∅)[v]? =
      if first ≤ v ∧ v < first + n then
        if f (v - first).toNat = 0 then none else some (f (v - first).toNat)
      else none := by
  induction n with
  | zero =>
    rw [if_neg (by omega)]
    rfl
  | succ n ih =>
    rw [List.range_succ, List.foldl_append, List.foldl_cons, List.foldl_nil, Supports.getElem?_put, ih]
    by_cases e : v = first + n
    · have : (v - first).toNat = n := by omega
      have inside : first ≤ v ∧ v < first + (n + 1 : ℕ) := by omega
      rw [if_pos e, if_pos inside, this]
    · rw [if_neg e]
      exact if_congr (by omega) rfl rfl

/-- A row shows the supports which its cells count. -/
theorem supports_eq {r : Row} {c : Cells} {s : Supports} (proper : s.Proper)
    (counts : ∀ v i, r.cell? v = some i → c.read i = s.count v) (outside : ∀ v, r.cell? v = none → s.count v = 0) :
    r.supports c = s := by
  refine Std.ExtTreeMap.ext_getElem? fun {v} => ?_
  rw [supports, getElem?_foldl_put r.first (fun k => (c.read (r.offset + k)).toNat), proper.getElem?]
  by_cases inside : r.first ≤ v ∧ v < r.first + r.width
  · have held : (c.read (r.offset + (v - r.first).toNat)).toNat = s.count v := by
      rw [counts v _ (cell?_eq_some.2 ⟨inside.1, inside.2, rfl⟩), Int.toNat_natCast]
    rw [if_pos inside, held]
  · rw [if_neg inside, if_pos (outside v (cell?_eq_none.2 inside))]

end Row

/-- Each cell holds the number of arcs of its layer which carry its value. -/
def Counted (rows : List Row) (vs : Array ℤ) (g : Graph) : Prop :=
  ∀ l r v i, rows[l]? = some r → r.cell? v = some i → vs[i]? = some (g.labelled l v : ℤ)

/-- The values of all arcs have cells, also of those which were removed. -/
def Ranged (rows : List Row) (g : Graph) : Prop :=
  ∀ a < g.arcs.size, (g.arc a).parent < g.nodes.size ∧
    ∀ r, rows[g.layerOf (g.arc a).parent]? = some r → (r.cell? (g.arc a).value).isSome = true

/-- Only cells of the rows were written. -/
structure Besides (rows : List Row) (vs ws : Array ℤ) : Prop where
  size : ws.size = vs.size
  others : ∀ i, (∀ r ∈ rows, ¬ r.Has i) → ws[i]? = vs[i]?

section

variable {rows : List Row} {vs ws : Array ℤ} {g g' : Graph} {l : ℕ} {r : Row} {v : ℤ} {i : ℕ}

theorem Ranged.labelled_eq_zero (h : Ranged rows g) (hr : rows[l]? = some r) (hv : r.cell? v = none) :
    g.labelled l v = 0 := by
  refine Nat.eq_zero_of_not_pos fun pos => ?_
  obtain ⟨a, ha, rfl, rfl⟩ := Graph.labelled_pos_iff.1 pos
  have inside := (h a (Graph.lt_of_arcIsActive g ha)).2 r hr
  rw [hv] at inside
  cases inside

theorem Besides.refl (rows : List Row) (vs : Array ℤ) : Besides rows vs vs := ⟨rfl, fun _ _ => rfl⟩

theorem Besides.put (h : Besides rows vs ws) (hr : r ∈ rows) (hi : r.Has i) (n : ℤ) :
    Besides rows vs (ws.setIfInBounds i n) where
  size := Array.size_setIfInBounds.trans h.size
  others j hj := by
    have hij : i ≠ j := fun e => hj r hr (e ▸ hi)
    rw [Array.getElem?_setIfInBounds, if_neg hij, h.others j hj]

namespace Counted

theorem congr (h : Counted rows vs g) (hg : ∀ l v, g'.labelled l v = g.labelled l v) : Counted rows vs g' :=
  fun l r v i hr hi => by rw [hg]; exact h l r v i hr hi

/-- Only the cells of the rows are looked at. -/
theorem frame (h : Counted rows vs g) (hw : ∀ r ∈ rows, ∀ i, r.Has i → ws[i]? = vs[i]?) : Counted rows ws g :=
  fun l r v i hr hi => by rw [hw r (List.mem_of_getElem? hr) i (Row.has_of_cell? hi)]; exact h l r v i hr hi

theorem read {c : Cells} (h : Counted rows c.values g) (hr : rows[l]? = some r) (hi : r.cell? v = some i) :
    c.read i = g.labelled l v := by
  rw [Cells.read, Array.getD_eq_getD_getElem?, h l r v i hr hi, Option.getD_some]

/-- Another count for one value of one layer. -/
theorem put (h : Counted rows vs g) (apart : Apart rows) (hr : rows[l]? = some r) (hi : r.cell? v = some i) {n : ℕ}
    (hg : ∀ k u, g'.labelled k u = if k = l ∧ u = v then n else g.labelled k u) :
    Counted rows (vs.setIfInBounds i n) g' := by
  intro k q u j hq hj
  have hlt : i < vs.size := (Array.getElem?_eq_some_iff.1 (h l r v i hr hi)).1
  rw [Array.getElem?_setIfInBounds, hg]
  by_cases e : i = j
  · subst e
    obtain rfl := apart.eq_of_has hq hr (Row.has_of_cell? hj) (Row.has_of_cell? hi)
    obtain rfl := Option.some.inj (hr.symm.trans hq)
    rw [if_pos rfl, if_pos hlt, if_pos ⟨rfl, Row.cell?_inj hj hi⟩]
  · rw [if_neg e, if_neg, h k q u j hq hj]
    rintro ⟨rfl, rfl⟩
    obtain rfl := Option.some.inj (hr.symm.trans hq)
    exact e (Option.some.inj (hi.symm.trans hj))

end Counted

/-- The cells of a diagram at work: they count the arcs of its graph, and the other cells are as the history says. -/
def Cells.Counts (rows : List Row) (h : History (Array ℤ)) (c : Cells) (g : Graph) : Prop :=
  ∃ vs, c.Mirrors (h.modify fun _ => vs) ∧ Counted rows vs g ∧ Besides rows h.current vs

theorem Cells.Counts.congr {c : Cells} {h : History (Array ℤ)} (k : c.Counts rows h g)
    (hg : ∀ l v, g'.labelled l v = g.labelled l v) : c.Counts rows h g' := by
  obtain ⟨vs, mirrors, counted, besides⟩ := k
  exact ⟨vs, mirrors, counted.congr hg, besides⟩

theorem Cells.Counts.add {c : Cells} {h : History (Array ℤ)} (k : c.Counts rows h g) (apart : Apart rows)
    (hr : rows[l]? = some r) (hi : r.cell? v = some i) {d : ℤ} {n : ℕ} (hn : (g.labelled l v : ℤ) + d = n)
    (hg : ∀ k u, g'.labelled k u = if k = l ∧ u = v then n else g.labelled k u) :
    (c.add i d).Counts rows h g' := by
  obtain ⟨vs, mirrors, counted, besides⟩ := k
  have values : c.values = vs := mirrors.values
  have sum : c.read i + d = n := by
    rw [(values.symm ▸ counted : Counted rows c.values g).read hr hi, hn]
  refine ⟨vs.setIfInBounds i n, ?_, counted.put apart hr hi hg,
    besides.put (List.mem_of_getElem? hr) (Row.has_of_cell? hi) _⟩
  rw [Cells.add, sum]
  exact mirrors.write i n

end
end DecisionDiagrams
