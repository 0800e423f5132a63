import DecisionDiagrams.Proofs.Work.Recorded
import Mathlib.Data.List.TFAE
import Mathlib.Logic.Function.Basic
import Mathlib.Tactic.TFAE

/-! The stored agenda neither loses nor repeats anything. Its table and its lists always speak of the same nodes,
those which wait on the agenda which keeps both in one list for each layer. -/

namespace DecisionDiagrams

/-! ### Table and lists -/

namespace Lane

/-- The table and the lists say what waits in each layer. A node is listed in its own layer only. -/
structure Shows (own : NodeId → Nat) (lane : Lane) (layers : Nat) (w : Nat → Waiting) : Prop where
  size : lane.layers.size = layers
  nodes : ∀ l, (lane.layers.getD l #[]).toList = (w l).map Prod.fst
  table : ∀ n r, lane.demands[n]? = some r ↔ (n, r) ∈ w (own n)
  own : ∀ {l}, ∀ e ∈ w l, own e.1 = l
  nodup : ∀ l, ((w l).map Prod.fst).Nodup

variable {own : NodeId → Nat} {lane lane' : Lane} {layers l : Nat} {w : Nat → Waiting} {n : NodeId} {r : Demand}

theorem shows_empty (own : NodeId → Nat) (layers : Nat) :
    Shows own { layers := Array.replicate layers #[] } layers fun _ => [] where
  size := Array.size_replicate
  nodes l := by by_cases h : l < layers <;> simp [h]
  table n r := by simp
  own e he := by cases he
  nodup _ := List.nodup_nil

namespace Shows

theorem clear (h : lane.Shows own layers w) : lane.clear.Shows own layers fun _ => [] where
  size := by simpa [Lane.clear] using h.size
  nodes l := by by_cases hl : l < lane.layers.size <;> simp [Lane.clear, hl]
  table n r := by simp [Lane.clear]
  own e he := by cases he
  nodup _ := List.nodup_nil

theorem lists (h : lane.Shows own layers w) (l : Nat) : lane.lists l = !(w l).isEmpty := by
  unfold Lane.lists
  have := congrArg List.isEmpty (h.nodes l)
  simpa using this

/-- Nothing is demanded exactly when nothing waits. -/
theorem isEmpty_iff (h : lane.Shows own layers w) : lane.demands.isEmpty = true ↔ ∀ l, w l = [] := by
  rw [Std.TreeMap.isEmpty_iff_forall_not_mem]
  refine ⟨fun hn l => List.eq_nil_iff_forall_not_mem.2 fun e he => ?_, fun hw n hn => ?_⟩
  · obtain ⟨n, r⟩ := e
    refine hn n ?_
    rw [Std.TreeMap.mem_iff_isSome_getElem?, (h.table n r).2 (h.own _ he ▸ he)]
    rfl
  · rw [Std.TreeMap.mem_iff_isSome_getElem?] at hn
    obtain ⟨r, hr⟩ := Option.isSome_iff_exists.1 hn
    have := (h.table n r).1 hr
    rw [hw] at this
    cases this

theorem lt_of_mem (h : lane.Shows own layers w) {e : NodeId × Demand} (he : e ∈ w l) : l < layers := by
  rw [← h.size]
  by_contra hl
  have hnil := h.nodes l
  rw [Array.getD, dif_neg hl] at hnil
  have hmem : e.1 ∈ (w l).map Prod.fst := List.mem_map.2 ⟨e, he, rfl⟩
  rw [← hnil] at hmem
  cases hmem

/-- A node which waits already keeps its place in its layer. -/
theorem record_again (h : lane.Shows own layers w) {q : Demand} (hq : lane.demands[n]? = some q) :
    Shows own { lane with demands := lane.demands.insert n (q.join r) } layers
      (Function.update w (own n) ((w (own n)).note n r)) := by
  have hmem := (h.table n q).1 hq
  have hnode : n ∈ (w (own n)).map Prod.fst := List.mem_map.2 ⟨(n, q), hmem, rfl⟩
  have hkeys : ∀ l, (Function.update w (own n) ((w (own n)).note n r) l).map Prod.fst = (w l).map Prod.fst := by
    intro l
    by_cases hl : l = own n
    · rw [hl, Function.update_self, Waiting.nodes_note_of_mem hnode]
    · rw [Function.update_of_ne hl]
  refine ⟨h.size, fun l => (h.nodes l).trans (hkeys l).symm, fun m r' => ?_, fun {l} e he => ?_, fun l => ?_⟩
  · rw [Std.TreeMap.getElem?_insert]
    by_cases hm : m = n
    · subst hm
      rw [if_pos (by simp), Function.update_self, Waiting.mem_note_iff (h.nodup _) hmem, if_pos rfl, Option.some_inj]
      exact eq_comm
    · rw [if_neg (by simpa using Ne.symm hm), h.table]
      by_cases ho : own m = own n
      · rw [ho, Function.update_self, Waiting.mem_note_iff (h.nodup _) hmem, if_neg hm]
      · rw [Function.update_of_ne ho]
  · have : e.1 ∈ (w l).map Prod.fst := hkeys l ▸ List.mem_map.2 ⟨e, he, rfl⟩
    obtain ⟨e', he', heq⟩ := List.mem_map.1 this
    rw [← heq]
    exact h.own e' he'
  · rw [hkeys]
    exact h.nodup l

/-- A node which does not wait yet is put at the end of its layer. -/
theorem record_first (h : lane.Shows own layers w) (hq : lane.demands[n]? = none) (hl : own n < layers) :
    Shows own { demands := lane.demands.insert n r, layers := lane.layers.modify (own n) (·.push n) } layers
      (Function.update w (own n) ((w (own n)).note n r)) := by
  have hfresh : ∀ l, n ∉ (w l).map Prod.fst := by
    intro l hn
    obtain ⟨⟨m, r'⟩, he, rfl⟩ := List.mem_map.1 hn
    have := (h.table m r').2 (h.own _ he ▸ he)
    rw [hq] at this
    cases this
  rw [Waiting.note_eq_append (hfresh _)]
  have hsize : own n < lane.layers.size := h.size ▸ hl
  refine ⟨by rw [Array.size_modify, h.size], fun l => ?_, fun m r' => ?_, fun {l} e he => ?_, fun l => ?_⟩
  · have := getD_modify lane.layers (·.push n) (own n) l (Or.inl hsize)
    rw [show (default : Array NodeId) = #[] from rfl] at this
    rw [this]
    by_cases hk : l = own n
    · subst hk
      rw [if_pos rfl, Function.update_self, Array.toList_push, h.nodes, List.map_append, List.map_singleton]
    · rw [if_neg hk, Function.update_of_ne hk, h.nodes]
  · rw [Std.TreeMap.getElem?_insert]
    by_cases hm : m = n
    · subst hm
      have : (m, r') ∉ w (own m) := fun he => hfresh _ (List.mem_map.2 ⟨_, he, rfl⟩)
      simp [this, eq_comm]
    · rw [if_neg (by simpa using Ne.symm hm), h.table]
      by_cases ho : own m = own n
      · rw [ho, Function.update_self]
        simp [hm]
      · rw [Function.update_of_ne ho]
  · by_cases hk : l = own n
    · subst hk
      rw [Function.update_self, List.mem_append] at he
      rcases he with he | he
      · exact h.own e he
      · rw [List.mem_singleton.1 he]
    · rw [Function.update_of_ne hk] at he
      exact h.own e he
  · by_cases hk : l = own n
    · subst hk
      rw [Function.update_self, ← Waiting.note_eq_append (hfresh _)]
      exact Waiting.nodup_note (h.nodup _)
    · rw [Function.update_of_ne hk]
      exact h.nodup l

theorem record (h : lane.Shows own layers w) (n : NodeId) (r : Demand) :
    (∃ lane', lane.record n (own n) r = some lane' ∧
      lane'.Shows own layers (Function.update w (own n) ((w (own n)).note n r)) ∧ own n < layers) ∨
    lane.record n (own n) r = none ∧ layers ≤ own n := by
  unfold Lane.record
  cases hq : lane.demands[n]? with
  | some q => exact Or.inl ⟨_, rfl, h.record_again hq, h.lt_of_mem ((h.table n q).1 hq)⟩
  | none =>
    by_cases hl : own n < layers
    · exact Or.inl ⟨_, if_pos (h.size ▸ hl), h.record_first hq hl, hl⟩
    · exact Or.inr ⟨if_neg (h.size ▸ hl), Nat.not_lt.1 hl⟩

end Shows

/-- The demands of listed nodes are taken in the order of the list, and no others. -/
theorem collect_eq {w : Waiting} {demands : Std.TreeMap NodeId Demand} (hnodup : (w.map Prod.fst).Nodup)
    (hw : ∀ e ∈ w, demands[e.1]? = some e.2) : ∃ left, collect (w.map Prod.fst) demands = (w, left) ∧
      ∀ m : NodeId, left[m]? = if m ∈ w.map Prod.fst then none else demands[m]? := by
  induction w generalizing demands with
  | nil => exact ⟨demands, rfl, fun m => by simp⟩
  | cons e rest ih =>
    rw [List.map_cons, List.nodup_cons] at hnodup
    have hrest : ∀ e' ∈ rest, (demands.erase e.1)[e'.1]? = some e'.2 := by
      intro e' he'
      have hne : e.1 ≠ e'.1 := fun h => hnodup.1 (h ▸ List.mem_map.2 ⟨e', he', rfl⟩)
      rw [Std.TreeMap.getElem?_erase, if_neg (by simpa using hne)]
      exact hw e' (List.mem_cons_of_mem _ he')
    obtain ⟨left, hcollect, hleft⟩ := ih hnodup.2 hrest
    refine ⟨left, ?_, fun m => ?_⟩
    · rw [List.map_cons, collect, hw e List.mem_cons_self]
      simp only [hcollect]
    · rw [hleft, Std.TreeMap.getElem?_erase, List.map_cons]
      by_cases hm : e.1 = m
      · simp [hm]
      · have hne : ¬ compare e.1 m = .eq := by simpa using hm
        rw [if_neg hne]
        exact if_congr (by rw [List.mem_cons, or_iff_right (Ne.symm hm)]) rfl rfl

namespace Shows

theorem take (h : lane.Shows own layers w) (hl : l < layers) :
    ∃ lane', lane.take l = some (w l, lane') ∧ lane'.Shows own layers (Function.update w l []) := by
  have hsize : l < lane.layers.size := h.size ▸ hl
  have hentry : lane.layers[l]? = some (lane.layers.getD l #[]) := by
    rw [Array.getD, dif_pos hsize, Array.getElem?_eq_getElem hsize]
    rfl
  have hfound : ∀ e ∈ w l, lane.demands[e.1]? = some e.2 := fun e he => (h.table e.1 e.2).2 (h.own e he ▸ he)
  obtain ⟨left, hcollect, hleft⟩ := collect_eq (h.nodup l) hfound
  rw [← h.nodes] at hcollect
  refine ⟨{ demands := left, layers := lane.layers.setIfInBounds l #[] }, ?_, ?_⟩
  · unfold Lane.take
    rw [hentry, Option.map_some, hcollect]
  refine ⟨by rw [Array.size_setIfInBounds, h.size], fun k => ?_, fun m r => ?_, fun {k} e he => ?_, fun k => ?_⟩
  · by_cases hk : k = l
    · subst hk
      simp [hsize]
    · rw [Function.update_of_ne hk, ← h.nodes]
      simp [Ne.symm hk]
  · rw [hleft]
    by_cases ho : own m = l
    · rw [ho, Function.update_self]
      split_ifs with hm
      · simp
      · rw [h.table, ho]
        exact iff_of_false (fun he => hm (List.mem_map.2 ⟨_, he, rfl⟩)) (by simp)
    · rw [Function.update_of_ne ho, if_neg, h.table]
      intro hm
      obtain ⟨e, he, rfl⟩ := List.mem_map.1 hm
      exact ho (h.own e he)
  · by_cases hk : k = l
    · subst hk
      rw [Function.update_self] at he
      cases he
    · rw [Function.update_of_ne hk] at he
      exact h.own e he
  · by_cases hk : k = l
    · subst hk
      rw [Function.update_self]
      exact List.nodup_nil
    · rw [Function.update_of_ne hk]
      exact h.nodup k

theorem take_eq_none (h : lane.Shows own layers w) (hl : layers ≤ l) : lane.take l = none := by
  unfold Lane.take
  rw [Array.getElem?_eq_none (h.size ▸ hl), Option.map_none]

end Shows
end Lane

namespace Agenda

theorem waiting_note_eq_update {a : Agenda} {d : Direction} {n : NodeId} {l : Nat} {r : Demand}
    (hl : l < (a.get d).size) (hr : r.isEmpty = false) :
    (a.note d n l r).waiting d = Function.update (a.waiting d) l ((a.waiting d l).note n r) := by
  funext k
  unfold note
  rw [if_neg (by rw [hr]; simp), waiting_modify]
  by_cases hk : k = l
  · subst hk
    rw [if_pos ⟨rfl, rfl, hl⟩, Function.update_self]
  · rw [if_neg fun h => hk h.2.1, Function.update_of_ne hk]

theorem waiting_clearLayer_eq_update (a : Agenda) (d : Direction) (l : Nat) :
    (a.clearLayer d l).waiting d = Function.update (a.waiting d) l [] := by
  funext k
  by_cases hk : k = l
  · subst hk
    rw [waiting_clearLayer_self, Function.update_self]
  · rw [waiting_clearLayer_of_ne a fun h => hk h.2, Function.update_of_ne hk]

end Agenda

namespace Tracker

/-- In both directions, table and lists say what waits on an agenda. -/
def Shows (own : NodeId → Nat) (t : Tracker) (layers : Nat) (a : Agenda) : Prop :=
  ∀ d, (t.lane d).Shows own layers (a.waiting d)

variable {own : NodeId → Nat} {t t' : Tracker} {layers l : Nat} {a : Agenda} {d : Direction} {q : Request}
  {requests : List Request}

theorem lane_withLane (t : Tracker) (d e : Direction) (lane : Lane) :
    (t.withLane d lane).lane e = if e = d then lane else t.lane e := by
  cases d <;> cases e <;> rfl

theorem shows_new (own : NodeId → Nat) (layers : Nat) : Shows own (new layers) layers (Agenda.empty layers) := by
  intro d
  have hw : (Agenda.empty layers).waiting d = fun _ => [] := funext (Agenda.waiting_empty layers d)
  have := Lane.shows_empty own layers
  rw [hw]
  cases d <;> exact this

namespace Shows

theorem withLane (h : Shows own t layers a) {lane : Lane} {b : Agenda} (hd : lane.Shows own layers (b.waiting d))
    (hb : ∀ e, e ≠ d → b.waiting e = a.waiting e) : Shows own (t.withLane d lane) layers b := by
  intro e
  rw [lane_withLane]
  split_ifs with he
  · exact he ▸ hd
  · rw [hb e he]
    exact h e

theorem record (h : Shows own t layers a) (ha : ∀ d, (a.get d).size = layers) (d : Direction) (n : NodeId)
    (r : Demand) :
    (∃ t', t.record d n (own n) r = some t' ∧ Shows own t' layers (a.note d n (own n) r) ∧
      (r.isEmpty = true ∨ own n < layers)) ∨
    t.record d n (own n) r = none ∧ ¬ (r.isEmpty = true ∨ own n < layers) := by
  unfold Tracker.record
  by_cases hr : r.isEmpty = true
  · refine Or.inl ⟨t, if_pos hr, ?_, Or.inl hr⟩
    rwa [Agenda.note, if_pos hr]
  rw [if_neg hr]
  rcases (h d).record n r with ⟨lane, hlane, hshows, hl⟩ | ⟨hlane, hl⟩
  · rw [hlane, Option.map_some]
    have hr' : r.isEmpty = false := by simpa using hr
    rw [← Agenda.waiting_note_eq_update (ha d ▸ hl) hr'] at hshows
    exact Or.inl ⟨_, rfl, h.withLane hshows fun e he => funext fun k =>
      Agenda.waiting_note a (Or.inr fun hk => he hk.1), Or.inr hl⟩
  · rw [hlane, Option.map_none]
    exact Or.inr ⟨rfl, fun hw => hw.elim hr fun hlt => absurd hlt (Nat.not_lt.2 hl)⟩

theorem takeLayer (h : Shows own t layers a) (d : Direction) (hl : l < layers) :
    ∃ t', t.takeLayer d l = some (a.waiting d l, t') ∧ Shows own t' layers (a.clearLayer d l) := by
  obtain ⟨lane, hlane, hshows⟩ := (h d).take hl
  rw [← Agenda.waiting_clearLayer_eq_update] at hshows
  refine ⟨t.withLane d lane, ?_, h.withLane hshows fun e he => funext fun k =>
    Agenda.waiting_clearLayer_of_ne a fun hk => he hk.1⟩
  unfold Tracker.takeLayer
  rw [hlane, Option.map_some]

theorem clear (h : Shows own t layers a) : Shows own t.clear layers (Agenda.empty layers) := by
  intro d
  rw [show (Agenda.empty layers).waiting d = fun _ => [] from funext (Agenda.waiting_empty layers d)]
  have := (h d).clear
  cases d <;> exact this

theorem perform (h : Shows own t layers a) (ha : ∀ d, (a.get d).size = layers) (hq : q.Owned own) :
    (∃ t', t.perform q = some t' ∧ Shows own t' layers (a.perform layers q) ∧ q.Within layers) ∨
      t.perform q = none ∧ ¬ q.Within layers := by
  cases q with
  | record d n l r =>
    obtain rfl : l = own n := hq
    exact h.record ha d n r
  | take d l =>
    by_cases hl : l < layers
    · obtain ⟨t', ht, hshows⟩ := h.takeLayer d hl
      exact Or.inl ⟨t', by rw [Tracker.perform, ht, Option.map_some], hshows, hl⟩
    · refine Or.inr ⟨?_, hl⟩
      rw [Tracker.perform, Tracker.takeLayer, (h d).take_eq_none (Nat.not_lt.1 hl)]
      rfl
  | clear => exact Or.inl ⟨_, rfl, h.clear, trivial⟩

end Shows

theorem performAll_append (requests : List Request) (q : Request) (t : Tracker) :
    performAll (requests ++ [q]) t = (performAll requests t).bind (·.perform q) := by
  simp only [performAll, List.foldlM_append, List.foldlM_cons, List.foldlM_nil, Option.bind_eq_bind]
  congr 1
  funext t
  cases t.perform q <;> rfl

/-- A run fails only where a layer is looked up which does not exist. -/
theorem shows_performAll (layers : Nat) (hown : ∀ q ∈ requests, q.Owned own) :
    (∃ t, performAll requests (new layers) = some t ∧ Shows own t layers (Agenda.performAll layers requests) ∧
      ∀ q ∈ requests, q.Within layers) ∨
    performAll requests (new layers) = none ∧ ¬ ∀ q ∈ requests, q.Within layers := by
  induction requests using List.reverseRecOn with
  | nil => exact Or.inl ⟨new layers, rfl, shows_new own layers, by simp⟩
  | append_singleton requests q ih =>
    rw [performAll_append, Agenda.performAll_append]
    rcases ih fun q hq => hown q (List.mem_append_left _ hq) with ⟨t, ht, hshows, hwithin⟩ | ⟨ht, hwithin⟩
    · rw [ht, Option.bind_some]
      have hstep := hshows.perform (Agenda.size_performAll layers requests) (hown q (by simp))
      rcases hstep with ⟨t', ht', hshows', hq⟩ | ⟨ht', hq⟩
      · exact Or.inl ⟨t', ht', hshows', by simpa [or_imp, forall_and] using ⟨hwithin, hq⟩⟩
      · exact Or.inr ⟨ht', fun h => hq (h q (by simp))⟩
    · rw [ht, Option.bind_none]
      exact Or.inr ⟨rfl, fun h => hwithin fun q hq => h q (List.mem_append_left _ hq)⟩

/-- The stored agenda answers as the one which keeps demands and order together. -/
structure Agrees (t : Tracker) (layers : Nat) (a : Agenda) : Prop where
  taken : ∀ d, ∀ l < layers, (t.takeLayer d l).map Prod.fst = some (a.waiting d l)
  hasPending : ∀ d, ∀ l < layers, t.hasPending? d l = some (a.isPending d l)
  shallowest : ∀ d, t.shallowest d = a.shallowest d
  deepest : ∀ d, t.deepest d = a.deepest d
  isEmpty : t.isEmpty = a.isEmpty

namespace Shows

theorem isEmpty_iff (h : Shows own t layers a) : t.isEmpty = true ↔ ∀ d l, a.waiting d l = [] := by
  unfold Tracker.isEmpty
  rw [Bool.and_eq_true]
  have hdown := (h .down).isEmpty_iff
  have hup := (h .up).isEmpty_iff
  refine ⟨fun he d => ?_, fun hw => ⟨hdown.2 (hw .down), hup.2 (hw .up)⟩⟩
  cases d
  · exact hdown.1 he.1
  · exact hup.1 he.2

theorem agrees (h : Shows own t layers a) (ha : ∀ d, (a.get d).size = layers) : Agrees t layers a := by
  have hlists : ∀ d, (t.lane d).lists = a.isPending d := fun d => funext (h d).lists
  refine ⟨fun d l hl => ?_, fun d l hl => ?_, fun d => ?_, fun d => ?_, ?_⟩
  · obtain ⟨t', ht, -⟩ := h.takeLayer d hl
    rw [ht, Option.map_some]
  · rw [hasPending?, if_pos ((h d).size ▸ hl), hlists]
  · rw [Tracker.shallowest, Agenda.shallowest, hlists, (h d).size, ha]
  · rw [Tracker.deepest, Agenda.deepest, hlists, (h d).size, ha]
  · rw [Bool.eq_iff_iff, h.isEmpty_iff, Agenda.isEmpty_iff]

end Shows

/-- The table is empty exactly when the lists are, told in every way in which this can be asked. -/
theorem Shows.emptiness (h : Shows own t layers (Agenda.performAll layers requests)) :
    [t.isEmpty = true,
      ∀ d, ∀ l < layers, t.hasPending? d l = some false,
      ∀ d, t.shallowest d = none ∧ t.deepest d = none,
      ∀ d, ∀ l < layers, noted d l requests = []].TFAE := by
  have ha := Agenda.size_performAll layers requests
  have hagrees := h.agrees ha
  tfae_have 1 → 3 := by
    intro he d
    have hw := h.isEmpty_iff.1 he d
    have hpending : ∀ l, ¬ (Agenda.performAll layers requests).isPending d l = true := fun l hl =>
      Agenda.isPending_iff.1 hl (hw l)
    rw [hagrees.shallowest, hagrees.deepest]
    exact ⟨List.find?_eq_none.2 fun l _ => hpending l, List.find?_eq_none.2 fun l _ => hpending l⟩
  tfae_have 3 → 2 := by
    intro hnone d l hl
    have hw := Agenda.waiting_of_shallowest_eq_none (hagrees.shallowest d ▸ (hnone d).1) l
    rw [hagrees.hasPending d l hl, Agenda.isPending, hw]
    rfl
  tfae_have 2 → 4 := by
    intro hfalse d l hl
    have hpending := hfalse d l hl
    rw [hagrees.hasPending d l hl, Option.some_inj] at hpending
    rw [← Waiting.ofNotes_eq_nil_iff, ← Agenda.waiting_performAll hl]
    by_contra hw
    rw [Agenda.isPending_iff.2 hw] at hpending
    cases hpending
  tfae_have 4 → 1 := by
    intro hnotes
    refine h.isEmpty_iff.2 fun d l => ?_
    by_cases hl : l < layers
    · rw [Agenda.waiting_performAll hl, hnotes d l hl]
      rfl
    · exact Agenda.waiting_eq_nil_of_size_le (Nat.le_trans (Nat.le_of_eq (ha d)) (Nat.not_lt.1 hl))
  tfae_finish

/-- Whatever is recorded, taken and cleared, a run fails only where a layer is looked up which does not exist. After
it, what is taken from a layer are the nodes recorded with a demand since the layer was last emptied, each once, in
the order in which they were first recorded and with all that was demanded of them; and the table is empty exactly
when no list has an entry. The agenda which keeps table and lists in one gives the same answers. -/
theorem takes_what_was_recorded (own : NodeId → Nat) (layers : Nat) (requests : List Request)
    (hown : ∀ q ∈ requests, q.Owned own) :
    ((performAll requests (new layers)).isSome = true ↔ ∀ q ∈ requests, q.Within layers) ∧
    ∀ t, performAll requests (new layers) = some t →
      (∀ d, ∀ l < layers, ∃ taken rest, t.takeLayer d l = some (taken, rest) ∧
        Waiting.Collects (noted d l requests) taken) ∧
      [t.isEmpty = true,
        ∀ d, ∀ l < layers, t.hasPending? d l = some false,
        ∀ d, t.shallowest d = none ∧ t.deepest d = none,
        ∀ d, ∀ l < layers, noted d l requests = []].TFAE ∧
      t.Agrees layers (Agenda.performAll layers requests) := by
  have ha := Agenda.size_performAll layers requests
  rcases shows_performAll layers hown with ⟨t, ht, hshows, hwithin⟩ | ⟨ht, hwithin⟩
  · refine ⟨by rw [ht]; simpa using hwithin, fun t' ht' => ?_⟩
    obtain rfl : t = t' := Option.some.inj (ht.symm.trans ht')
    refine ⟨fun d l hl => ?_, hshows.emptiness, hshows.agrees ha⟩
    obtain ⟨rest, htake, -⟩ := hshows.takeLayer d hl
    rw [Agenda.waiting_performAll hl] at htake
    exact ⟨_, rest, htake, Waiting.collects_ofNotes _⟩
  · rw [ht]
    exact ⟨iff_of_false (by simp) hwithin, fun t' ht' => by cases ht'⟩

/-- Two nodes of layer 1 are recorded, the first one several times, and one of layer 0 again after it was taken. -/
def assorted : List Request :=
  [.record .down 7 1 (.only ⟨4⟩), .record .up 4 0 .full, .record .down 3 1 (.only ⟨2⟩), .record .down 7 1 .full,
    .record .down 9 1 (.only ⟨0⟩), .take .up 0, .record .up 4 0 (.only ⟨2⟩), .record .down 7 1 (.only ⟨4⟩),
    .record .up 4 0 (.only ⟨8⟩)]

theorem takes_what_was_recorded_assorted :
    (∀ q ∈ assorted, q.Owned fun n => if n = 4 then 0 else 1) ∧
    ∃ t, performAll assorted (new 3) = some t ∧ (∃ d, ∃ l < 3, noted d l assorted ≠ []) ∧ t.isEmpty = false ∧
      ∃ rest, t.takeLayer .down 1 = some ([(7, .full), (3, .only ⟨2⟩)], rest) ∧
        Waiting.Collects (noted .down 1 assorted) [(7, .full), (3, .only ⟨2⟩)] := by
  have hown : ∀ q ∈ assorted, q.Owned fun n => if n = 4 then 0 else 1 := by
    simp [assorted, Request.Owned]
  obtain ⟨hrun, hafter⟩ := takes_what_was_recorded _ 3 assorted hown
  obtain ⟨t, ht⟩ := Option.isSome_iff_exists.1 (hrun.2 (by simp [assorted, Request.Within]))
  obtain ⟨htaken, hempty, -⟩ := hafter t ht
  obtain ⟨taken, rest, htake, hcollects⟩ := htaken .down 1 (by decide)
  obtain rfl : taken = [(7, .full), (3, .only ⟨2⟩)] := by
    have hrun : ((performAll assorted (new 3)).bind (·.takeLayer .down 1)).map Prod.fst =
        some [(7, .full), (3, .only ⟨2⟩)] := by decide
    rw [ht, Option.bind_some, htake] at hrun
    exact Option.some.inj hrun
  have hnoted : noted .down 1 assorted ≠ [] := by decide
  refine ⟨hown, t, ht, ⟨.down, 1, by decide, hnoted⟩, ?_, rest, htake, hcollects⟩
  have hiff := hempty.out 0 3
  exact Bool.eq_false_iff.2 fun h => hnoted (hiff.1 h .down 1 (by decide))

example : ((performAll [.record .up 4 0 (.only ⟨2⟩), .record .up 4 0 (.only ⟨8⟩)] (new 3)).bind
    (·.takeLayer .up 0)).map Prod.fst = some [(4, .only ⟨10⟩)] := by
  decide

end Tracker
end DecisionDiagrams
