import DecisionDiagrams.Diagram.Tracker
import DecisionDiagrams.Proofs.Work.Agenda
import Mathlib.Data.List.Induction

/-! What waits on the agenda after any requests, told by the requests since the layer was last emptied: nodes in
the order in which they were first recorded, each with all that was demanded of it. -/

namespace DecisionDiagrams

/-! ### What was asked for -/

namespace Demand

/-- Amounts to some demands together: to everything if one of them asks for everything, and otherwise to the
properties which some of them ask for. -/
def Gathers (rs : List Demand) : Demand → Prop
  | .full => .full ∈ rs
  | .only which => .full ∉ rs ∧ ∀ i, i ∈ which ↔ ∃ s, .only s ∈ rs ∧ i ∈ s

variable {q r : Demand} {rs : List Demand}

theorem gathers_singleton (r : Demand) : r.Gathers [r] := by
  cases r <;> simp [Gathers]

theorem Gathers.join (h : q.Gathers rs) : (q.join r).Gathers (rs ++ [r]) := by
  cases q with
  | full => exact List.mem_append_left _ h
  | only mine =>
    cases r with
    | full => exact List.mem_append_right _ List.mem_cons_self
    | only theirs =>
      refine ⟨by simpa using h.1, fun i => ?_⟩
      rw [IndexSet.mem_union, h.2 i]
      constructor
      · rintro (⟨s, hs, hi⟩ | hi)
        · exact ⟨s, List.mem_append_left _ hs, hi⟩
        · exact ⟨theirs, by simp, hi⟩
      · rintro ⟨s, hs, hi⟩
        rcases List.mem_append.1 hs with hs | hs
        · exact Or.inl ⟨s, hs, hi⟩
        · obtain rfl : s = theirs := by simpa using hs
          exact Or.inr hi

end Demand

/-- The demands on one node, in the order in which they were recorded. -/
def demandsOn (n : NodeId) (notes : List (NodeId × Demand)) : List Demand :=
  (notes.filter fun e => e.1 = n).map Prod.snd

namespace Waiting

variable {w : Waiting} {n m : NodeId} {q r r' : Demand}

/-- What waits after some notes. -/
def ofNotes (notes : List (NodeId × Demand)) : Waiting := notes.foldl (fun w e => w.note e.1 e.2) []

/-- Nodes wait in the order in which they were first noted, each once and with all its demands. -/
structure Collects (notes : List (NodeId × Demand)) (w : Waiting) : Prop where
  nodes : w.map Prod.fst = (notes.map Prod.fst).eraseDups
  once : (w.map Prod.fst).Nodup
  gathers : ∀ e ∈ w, e.2.Gathers (demandsOn e.1 notes)

theorem note_eq_append (h : n ∉ w.map Prod.fst) : w.note n r = w ++ [(n, r)] := by
  induction w with
  | nil => rfl
  | cons e rest ih =>
    rw [List.map_cons, List.mem_cons, not_or] at h
    rw [note, if_neg (Ne.symm h.1), ih h.2, List.cons_append]

theorem nodes_note_of_mem (h : n ∈ w.map Prod.fst) : (w.note n r).map Prod.fst = w.map Prod.fst := by
  induction w with
  | nil => cases h
  | cons e rest ih =>
    rw [note]
    split_ifs with he
    · rfl
    · rw [List.map_cons, List.mem_cons] at h
      rw [List.map_cons, ih (h.resolve_left (Ne.symm he)), List.map_cons]

theorem nodup_note (h : (w.map Prod.fst).Nodup) : ((w.note n r).map Prod.fst).Nodup := by
  by_cases hn : n ∈ w.map Prod.fst
  · rwa [nodes_note_of_mem hn]
  · rw [note_eq_append hn, List.map_append, List.map_singleton]
    refine List.nodup_append.2 ⟨h, List.pairwise_singleton _ _, fun k hk m hm e => hn ?_⟩
    obtain rfl : m = n := List.mem_singleton.1 hm
    exact e ▸ hk

theorem mem_note_iff (hnodup : (w.map Prod.fst).Nodup) (hq : (n, q) ∈ w) :
    (m, r') ∈ w.note n r ↔ if m = n then r' = q.join r else (m, r') ∈ w := by
  induction w with
  | nil => cases hq
  | cons e rest ih =>
    obtain ⟨k, s⟩ := e
    rw [List.map_cons, List.nodup_cons] at hnodup
    have hfresh : ∀ s', (k, s') ∉ rest := fun s' hs =>
      hnodup.1 (List.mem_map.2 ⟨_, hs, rfl⟩)
    rw [List.mem_cons, Prod.mk.injEq] at hq
    rw [note]
    split_ifs with hk hm hm
    · subst hk hm
      obtain rfl : q = s := (hq.resolve_right (hfresh q)).2
      simp [hfresh]
    · subst hk
      simp [hm]
    · subst hm
      have hrest : (m, q) ∈ rest := hq.resolve_left fun h => hk h.1.symm
      rw [List.mem_cons, ih hnodup.2 hrest, if_pos rfl, Prod.mk.injEq]
      exact or_iff_right fun h => hk h.1.symm
    · have hrest : (n, q) ∈ rest := hq.resolve_left fun h => hk h.1.symm
      rw [List.mem_cons, ih hnodup.2 hrest, if_neg hm, List.mem_cons]

theorem ofNotes_append (notes : List (NodeId × Demand)) (n : NodeId) (r : Demand) :
    ofNotes (notes ++ [(n, r)]) = (ofNotes notes).note n r := List.foldl_append

theorem nodup_ofNotes (notes : List (NodeId × Demand)) : ((ofNotes notes).map Prod.fst).Nodup := by
  induction notes using List.reverseRecOn with
  | nil => exact List.nodup_nil
  | append_singleton notes e ih =>
    rw [ofNotes_append]
    exact nodup_note ih

theorem nodes_ofNotes (notes : List (NodeId × Demand)) :
    (ofNotes notes).map Prod.fst = (notes.map Prod.fst).eraseDups := by
  induction notes using List.reverseRecOn with
  | nil => rfl
  | append_singleton notes e ih =>
    obtain ⟨n, r⟩ := e
    rw [ofNotes_append, List.map_append, List.map_singleton, List.eraseDups_append, ← ih]
    by_cases hn : n ∈ (ofNotes notes).map Prod.fst
    · have hmem : n ∈ notes.map Prod.fst := by rwa [ih, List.mem_eraseDups] at hn
      rw [nodes_note_of_mem hn]
      simp [List.removeAll, hmem]
    · have hmem : n ∉ notes.map Prod.fst := by rwa [ih, List.mem_eraseDups] at hn
      rw [note_eq_append hn, List.map_append]
      simp [List.removeAll, hmem, List.eraseDups_cons]

theorem demandsOn_append_self (notes : List (NodeId × Demand)) (n : NodeId) (r : Demand) :
    demandsOn n (notes ++ [(n, r)]) = demandsOn n notes ++ [r] := by
  simp [demandsOn]

theorem demandsOn_append_of_ne {notes : List (NodeId × Demand)} (h : m ≠ n) :
    demandsOn m (notes ++ [(n, r)]) = demandsOn m notes := by
  simp [demandsOn, h.symm]

theorem gathers_ofNotes (notes : List (NodeId × Demand)) :
    ∀ e ∈ ofNotes notes, e.2.Gathers (demandsOn e.1 notes) := by
  induction notes using List.reverseRecOn with
  | nil => simp [ofNotes]
  | append_singleton notes e ih =>
    obtain ⟨n, r⟩ := e
    rintro ⟨m, r'⟩ he
    rw [ofNotes_append] at he
    by_cases hn : n ∈ (ofNotes notes).map Prod.fst
    · obtain ⟨⟨n, q⟩, hq, rfl⟩ := List.mem_map.1 hn
      rw [mem_note_iff (nodup_ofNotes notes) hq] at he
      split_ifs at he with hm
      · subst hm he
        rw [demandsOn_append_self]
        exact (ih _ hq).join
      · rw [demandsOn_append_of_ne hm]
        exact ih _ he
    · rw [note_eq_append hn] at he
      rw [List.mem_append] at he
      rcases he with he | he
      · have hm : m ≠ n := by
          rintro rfl
          exact hn (List.mem_map.2 ⟨(m, r'), he, rfl⟩)
        rw [demandsOn_append_of_ne hm]
        exact ih _ he
      · obtain ⟨rfl, rfl⟩ := Prod.mk.inj (List.mem_singleton.1 he)
        have hfresh : demandsOn m notes = [] := by
          rw [nodes_ofNotes, List.mem_eraseDups] at hn
          refine List.map_eq_nil_iff.2 (List.filter_eq_nil_iff.2 fun e he hm => hn ?_)
          exact List.mem_map.2 ⟨e, he, by simpa using hm⟩
        rw [demandsOn_append_self, hfresh]
        exact Demand.gathers_singleton r'

theorem collects_ofNotes (notes : List (NodeId × Demand)) : Collects notes (ofNotes notes) :=
  ⟨nodes_ofNotes notes, nodup_ofNotes notes, gathers_ofNotes notes⟩

theorem ofNotes_eq_nil_iff {notes : List (NodeId × Demand)} : ofNotes notes = [] ↔ notes = [] := by
  refine ⟨fun h => ?_, fun h => by rw [h]; rfl⟩
  refine List.eq_nil_iff_forall_not_mem.2 fun e he => ?_
  have hnode : e.1 ∈ (notes.map Prod.fst).eraseDups := List.mem_eraseDups.2 (List.mem_map.2 ⟨e, he, rfl⟩)
  rw [← nodes_ofNotes, h] at hnode
  cases hnode

end Waiting

/-! ### The requests since a layer was emptied -/

namespace Tracker

namespace Request

/-- Whether nothing waits afterwards in a layer. -/
def empties (d : Direction) (l : Nat) : Request → Bool
  | .record _ _ _ _ => false
  | .take e k => e = d ∧ k = l
  | .clear => true

/-- What is recorded for a layer. Nothing is for an empty demand. -/
def note? (d : Direction) (l : Nat) : Request → Option (NodeId × Demand)
  | .record e n k r => if e = d ∧ k = l ∧ r.isEmpty = false then some (n, r) else none
  | _ => none

/-- A node is recorded with its own layer. -/
def Owned (own : NodeId → Nat) : Request → Prop
  | .record _ n l _ => l = own n
  | _ => True

/-- Layers which do not exist are not looked up. -/
def Within (layers : Nat) : Request → Prop
  | .record _ _ l r => r.isEmpty = true ∨ l < layers
  | .take _ l => l < layers
  | .clear => True

end Request

/-- What was recorded for a layer since it was last emptied. -/
def noted (d : Direction) (l : Nat) (requests : List Request) : List (NodeId × Demand) :=
  (requests.reverse.takeWhile (!·.empties d l)).reverse.filterMap (·.note? d l)

theorem noted_append (d : Direction) (l : Nat) (requests : List Request) (q : Request) :
    noted d l (requests ++ [q]) =
      if q.empties d l then [] else noted d l requests ++ (q.note? d l).toList := by
  unfold noted
  rw [List.reverse_append, List.reverse_singleton, List.singleton_append, List.takeWhile_cons]
  cases hq : q.empties d l
  · simp only [Bool.not_false, if_true, Bool.false_eq_true, if_false, List.reverse_cons, List.filterMap_append]
    congr 1
  · simp

end Tracker

/-! ### The agenda which keeps both together -/

namespace Agenda

open Tracker (Request noted noted_append)

def perform (layers : Nat) (a : Agenda) : Request → Agenda
  | .record d n l r => a.note d n l r
  | .take d l => a.clearLayer d l
  | .clear => Agenda.empty layers

def performAll (layers : Nat) (requests : List Request) : Agenda :=
  requests.foldl (perform layers) (Agenda.empty layers)

theorem performAll_append (layers : Nat) (requests : List Request) (q : Request) :
    performAll layers (requests ++ [q]) = perform layers (performAll layers requests) q :=
  List.foldl_append

theorem size_empty (layers : Nat) (d : Direction) : ((Agenda.empty layers).get d).size = layers := by
  cases d <;> simp [empty, get]

theorem size_note (a : Agenda) (d e : Direction) (n : NodeId) (l : Nat) (r : Demand) :
    ((a.note d n l r).get e).size = (a.get e).size := (extends_note a d n l r).size e

theorem size_perform {layers : Nat} {a : Agenda} {d : Direction} (h : (a.get d).size = layers)
    (q : Request) : ((a.perform layers q).get d).size = layers := by
  cases q with
  | record e n l r => exact (size_note a e d n l r).trans h
  | take e l => exact (size_modify a e d l _).trans h
  | clear => exact size_empty layers d

theorem waiting_perform {layers : Nat} {a : Agenda} {d : Direction} {l : Nat} (h : l < (a.get d).size)
    (q : Request) : (a.perform layers q).waiting d l =
      if q.empties d l then []
      else (q.note? d l).elim (a.waiting d l) fun e => (a.waiting d l).note e.1 e.2 := by
  cases q with
  | record e n k r =>
    by_cases hk : e = d ∧ k = l ∧ r.isEmpty = false
    · obtain ⟨rfl, rfl, hr⟩ := hk
      simp [perform, Request.empties, Request.note?, note, hr, waiting_modify, h]
    · have hother : r.isEmpty = true ∨ ¬ (d = e ∧ l = k) := by
        by_cases hr : r.isEmpty = true
        · exact Or.inl hr
        · exact Or.inr fun he => hk ⟨he.1.symm, he.2.symm, by simpa using hr⟩
      simp only [perform, Request.empties, Request.note?, if_neg hk, Bool.false_eq_true, if_false,
        Option.elim_none]
      exact waiting_note a hother
  | take e k =>
    by_cases hk : e = d ∧ k = l
    · obtain ⟨rfl, rfl⟩ := hk
      simp [perform, Request.empties, waiting_clearLayer_self]
    · simp only [perform, Request.empties, Request.note?, decide_eq_false hk, Bool.false_eq_true, if_false,
        Option.elim_none]
      exact waiting_clearLayer_of_ne a fun he => hk ⟨he.1.symm, he.2.symm⟩
  | clear => simp [perform, Request.empties, waiting_empty]

theorem size_performAll (layers : Nat) (requests : List Request) (d : Direction) :
    ((performAll layers requests).get d).size = layers := by
  induction requests using List.reverseRecOn with
  | nil => exact size_empty layers d
  | append_singleton requests q ih =>
    rw [performAll_append]
    exact size_perform ih q

/-- What waits is what was noted since the layer was last emptied. -/
theorem waiting_performAll {layers l : Nat} (hl : l < layers) (requests : List Request) (d : Direction) :
    (performAll layers requests).waiting d l = Waiting.ofNotes (noted d l requests) := by
  induction requests using List.reverseRecOn with
  | nil => exact waiting_empty layers d l
  | append_singleton requests q ih =>
    rw [performAll_append, waiting_perform (by rwa [size_performAll]), noted_append, ih]
    split_ifs
    · rfl
    · cases q.note? d l with
      | none => simp
      | some e => exact (Waiting.ofNotes_append _ e.1 e.2).symm

end Agenda

end DecisionDiagrams
