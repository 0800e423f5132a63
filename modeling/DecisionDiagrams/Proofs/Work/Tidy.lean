import DecisionDiagrams.Proofs.Engine.Cascade

/-! What holds of a workspace at all times. Next to the census this is: an arc comes from an active
node, unless that node is just being drained; its label is in the domain of its layer, except on
layers which still wait for their domain to be enforced; and what the cache remembers is right. -/

namespace DecisionDiagrams

open Cascade

/-- Whether all remembered transitions are right. -/
def Memo.Sound (m : Model) (c : Memo) : Prop :=
  ∀ key s, c.find? key = some s →
    m.step .down key.layer key.down key.combined (.singleton key.value) = .ok s

theorem Memo.sound_empty (m : Model) : Memo.Sound m {} := by
  intro key s h
  simp [Memo.find?, Memo.bucket] at h

theorem Memo.Sound.insert {m : Model} {c : Memo} (h : c.Sound m) {key : MemoKey} {s : State}
    (hs : m.step .down key.layer key.down key.combined (.singleton key.value) = .ok s) :
    (c.insert key s).Sound m := by
  intro other t ht
  unfold Memo.find? Memo.bucket Memo.insert at ht
  rw [Std.TreeMap.getD_insert] at ht
  split_ifs at ht with e
  · rw [List.lookup_cons] at ht
    split at ht
    · rename_i heq
      rw [beq_iff_eq] at heq
      obtain rfl := heq
      rwa [← Option.some.inj ht]
    · refine h other t ?_
      have hcode : key.down.code = other.down.code := Std.LawfulEqCmp.eq_of_compare e
      unfold Memo.find? Memo.bucket
      change List.lookup other (c.entries.getD key.down.code []) = some t at ht
      rwa [hcode] at ht
  · exact h other t ht

/-- The variables of the layers are different. -/
def Plan.Distinct (p : Plan) : Prop := p.model.branchVars.toList.Nodup

theorem Model.var_mem {m : Model} {l : Nat} (hl : l < m.depth) : m.var l ∈ m.branchVars := by
  unfold Model.var
  rw [Array.getD, dif_pos (show l < m.branchVars.size from hl)]
  exact Array.getElem_mem hl

theorem Plan.Distinct.var_inj {p : Plan} (h : p.Distinct) {l k : Nat} (hl : l < p.model.depth)
    (hk : k < p.model.depth) (e : p.model.var l = p.model.var k) : l = k := by
  have hl' : l < p.model.branchVars.toList.length := by simpa [Model.depth] using hl
  have hk' : k < p.model.branchVars.toList.length := by simpa [Model.depth] using hk
  have e' : p.model.branchVars.toList[l] = p.model.branchVars.toList[k] := by
    simpa [Model.var, Model.depth, Array.getD, hl, hk, show l < p.model.branchVars.size from hl,
      show k < p.model.branchVars.size from hk] using e
  exact (List.getElem_inj h).1 e'

structure Tidy (p : Plan) (stale : Nat → Prop) (debts : List Debt) (w : Workspace) : Prop
    extends Census p w where
  anchored : ∀ a, w.graph.arcIsActive a = true →
    w.graph.isActive (w.graph.arc a).parent = true ∨ Debt.drain (w.graph.arc a).parent ∈ debts
  inDomain : ∀ a, w.graph.arcIsActive a = true → ¬ stale (w.graph.layerOf (w.graph.arc a).parent) →
    w.domains.contains (p.model.var (w.graph.layerOf (w.graph.arc a).parent)) (w.graph.arc a).value
      = true
  cached : w.cache.Sound p.model

namespace Tidy

variable {p : Plan} {stale : Nat → Prop} {debts : List Debt} {w : Workspace}

/-- Counters, budget and agenda are not looked at, and neither are states. -/
theorem congr {w' : Workspace} (h : Tidy p stale debts w) (hg : w'.graph = w.graph)
    (hs : w'.supports = w.supports) (hd : w'.domains = w.domains)
    (hc : w'.cache.Sound p.model) : Tidy p stale debts w' := by
  refine { h.toCensus.congr hg hs with
    anchored := ?_
    inDomain := ?_
    cached := hc }
  · rw [hg]; exact h.anchored
  · rw [hg, hd]; exact h.inDomain

theorem parent_active (h : Tidy p stale [] w) {a : ArcId} (ha : w.graph.arcIsActive a = true) :
    w.graph.isActive (w.graph.arc a).parent = true :=
  (h.anchored a ha).resolve_right List.not_mem_nil

theorem weaken {stale' : Nat → Prop} (h : Tidy p stale debts w) (hs : ∀ l, stale l → stale' l) :
    Tidy p stale' debts w :=
  { h with inDomain := fun a ha hn => h.inDomain a ha fun hl => hn (hs _ hl) }

theorem schedule (h : Tidy p stale debts w) (direction : Direction) (r : Demand) (n : NodeId) :
    Tidy p stale debts (w.schedule p direction r n) := by
  unfold Workspace.schedule
  dsimp only
  split_ifs
  · exact h.congr rfl rfl rfl h.cached
  · exact h

theorem unhook (h : Tidy p stale debts w) {a : ArcId} (ha : w.graph.arcIsActive a = true) :
    Tidy p stale debts (w.unhook a) := by
  have hl := h.wf.listed a
  have hg : (w.unhook a).graph = w.graph.detach a := rfl
  have hd : (w.unhook a).domains = w.domains := by unfold Workspace.unhook; rfl
  have hc : (w.unhook a).cache = w.cache := by unfold Workspace.unhook; rfl
  refine { h.toCensus.unhook ha with
    anchored := fun b hb => ?_
    inDomain := fun b hb hn => ?_
    cached := by rw [hc]; exact h.cached }
  · rw [hg, Graph.parent_detach hl, Graph.isActive_detach hl]
    exact h.anchored b ((Graph.arcIsActive_detach hl b).1 hb).2
  · rw [hg, Graph.parent_detach hl, Graph.layerOf_detach hl] at hn ⊢
    rw [hd, Graph.value_detach hl]
    exact h.inDomain b ((Graph.arcIsActive_detach hl b).1 hb).2 hn

theorem retire (h : Tidy p stale debts w) {n : NodeId} (hn : w.graph.isActive n = true) :
    Tidy p stale (.drain n :: debts) (w.retire n) := by
  have hs := shrinks_retire h.wf hn
  refine { h.toCensus.retire hn with
    anchored := fun b hb => ?_
    inDomain := fun b hb hl => ?_
    cached := by rw [hs.cache]; exact h.cached }
  · rw [hs.parent]
    by_cases e : (w.graph.arc b).parent = n
    · rw [e]
      exact Or.inr List.mem_cons_self
    · exact (h.anchored b (hs.arcActive b hb)).imp
        (fun ha => (Workspace.isActive_retire h.wf _).2 ⟨e, ha⟩) (List.mem_cons_of_mem _)
  · rw [hs.parent, hs.layerOf] at hl ⊢
    rw [Workspace.domains_retire, hs.value]
    exact h.inDomain b (hs.arcActive b hb) hl

theorem putState (h : Tidy p stale debts w) {n : NodeId} (hn : n < w.graph.nodes.size) (side : Side)
    (s : State) : Tidy p stale debts (w.putState n side s) := by
  have en := Graph.node_putState w.graph n side s hn
  refine { h.toCensus.putState hn side s with
    anchored := fun b hb => ?_
    inDomain := fun b hb hl => ?_
    cached := h.cached }
  · show (((w.graph.putState n side s).node (w.graph.arc b).parent).active = true) ∨ _
    rw [en]
    exact h.anchored b hb
  · have e : (w.putState n side s).graph.layerOf (w.graph.arc b).parent =
        w.graph.layerOf (w.graph.arc b).parent := by
      show ((w.graph.putState n side s).node (w.graph.arc b).parent).layer = _
      rw [en]
      rfl
    change ¬ stale ((w.putState n side s).graph.layerOf (w.graph.arc b).parent) at hl
    show w.domains.contains (p.model.var ((w.putState n side s).graph.layerOf
      (w.graph.arc b).parent)) (w.graph.arc b).value = true
    rw [e] at hl ⊢
    exact h.inDomain b hb hl

theorem addNode (h : Tidy p stale debts w) {l : Nat} (hl : l ≤ p.model.depth) (s : BySide State) :
    Tidy p stale debts (w.addNode l s).2 := by
  have hne : ∀ b, w.graph.arcIsActive b = true → (w.graph.arc b).parent ≠ w.graph.nodes.size :=
    fun b hb => Nat.ne_of_lt (h.wf.parent_lt hb)
  have en : ∀ b, w.graph.arcIsActive b = true →
      (w.addNode l s).2.graph.node (w.graph.arc b).parent = w.graph.node (w.graph.arc b).parent :=
    fun b hb => Graph.node_appendNode_of_ne w.graph l s (hne b hb)
  refine { h.toCensus.addNode hl s with
    anchored := fun b hb => ?_
    inDomain := fun b hb hs => ?_
    cached := h.cached }
  · show ((w.addNode l s).2.graph.node (w.graph.arc b).parent).active = true ∨ _
    rw [en b hb]
    exact h.anchored b hb
  · have e : (w.addNode l s).2.graph.layerOf (w.graph.arc b).parent =
        w.graph.layerOf (w.graph.arc b).parent := congrArg Node.layer (en b hb)
    change ¬ stale ((w.addNode l s).2.graph.layerOf (w.graph.arc b).parent) at hs
    show w.domains.contains (p.model.var ((w.addNode l s).2.graph.layerOf
      (w.graph.arc b).parent)) (w.graph.arc b).value = true
    rw [e] at hs ⊢
    exact h.inDomain b hb hs

theorem connect (h : Tidy p stale debts w) {n c : NodeId} (on : w.graph.isActive n = true)
    (hc : c < w.graph.nodes.size) (hl : w.graph.layerOf c = w.graph.layerOf n + 1) {v : Int}
    (hv : ¬ stale (w.graph.layerOf n) →
      w.domains.contains (p.model.var (w.graph.layerOf n)) v = true) :
    Tidy p stale debts (w.connect n c v) := by
  have hn := Graph.lt_of_isActive _ on
  have hg : (w.connect n c v).graph = w.graph.connect n c v := rfl
  have hd : (w.connect n c v).domains = w.domains := by unfold Workspace.connect; rfl
  have hcache : (w.connect n c v).cache = w.cache := by unfold Workspace.connect; rfl
  have en := Graph.node_connect w.graph n c v hn hc
  have hlay : ∀ k, (w.graph.connect n c v).layerOf k = w.graph.layerOf k :=
    fun k => by rw [Graph.layerOf, en]; rfl
  have hact : ∀ k, (w.graph.connect n c v).isActive k = w.graph.isActive k :=
    fun k => by rw [Graph.isActive, en]; rfl
  refine { h.toCensus.connect hn hc hl v with
    anchored := fun b hb => ?_
    inDomain := fun b hb hs => ?_
    cached := by rw [hcache]; exact h.cached }
  · rw [hg] at hb ⊢
    by_cases e : b = w.graph.arcs.size
    · subst e
      rw [Graph.arc_connect_self, hact]
      exact Or.inl on
    · rw [Graph.arcIsActive, Graph.arc_connect_of_ne _ _ _ _ e] at hb
      rw [Graph.arc_connect_of_ne _ _ _ _ e, hact]
      exact h.anchored b hb
  · rw [hg] at hb hs ⊢
    rw [hd]
    by_cases e : b = w.graph.arcs.size
    · subst e
      rw [Graph.arc_connect_self, hlay] at hs ⊢
      exact hv hs
    · rw [Graph.arcIsActive, Graph.arc_connect_of_ne _ _ _ _ e] at hb
      rw [Graph.arc_connect_of_ne _ _ _ _ e, hlay] at hs ⊢
      exact h.inDomain b hb hs

/-- A value without an arc may leave its domain. -/
theorem forget (h : Tidy p stale debts w) (hp : p.Distinct) {l : Nat} {v : Int} {b : Bool}
    {domains : Domains} (deep : l < p.model.depth) (bare : w.support l v = 0)
    (left : w.domains.remove? (p.model.var l) v = some (b, domains)) :
    Tidy p stale debts (w.lose (p.model.var l) v domains) := by
  refine { h.toCensus.congr rfl rfl with
    anchored := h.anchored
    inDomain := fun a ha hn => ?_
    cached := h.cached }
  refine (Domains.contains_remove? left).2 ⟨h.inDomain a ha hn, fun e ev => ?_⟩
  have hl := hp.var_inj (h.toCensus.parent_lt_depth ha) deep e
  rw [h.supports] at bare
  exact absurd bare (Nat.ne_of_gt (Graph.labelled_pos_iff.2 ⟨a, ha, hl, ev⟩))

end Tidy

namespace Cascade

variable {p : Plan} {stale : Nat → Prop} {w w' : Workspace}

theorem Step.tidy (hp : p.Distinct) {c d : Config} (h : Step p c d)
    (hc : Tidy p stale c.1 c.2) : Tidy p stale d.1 d.2 := by
  have drop : ∀ {x : Debt} {debts w}, (∀ n, x ≠ .drain n) → Tidy p stale (x :: debts) w →
      Tidy p stale debts w := by
    intro x debts w hx hc
    refine { hc with anchored := fun a ha => (hc.anchored a ha).imp_right fun hm => ?_ }
    exact (List.mem_cons.1 hm).resolve_left fun e => hx _ e.symm
  cases h with
  | visit =>
    exact { hc with anchored := fun a ha => (hc.anchored a ha).imp_right (List.mem_cons_of_mem _) }
  | gone => exact drop (by simp) hc
  | note => exact drop (by simp) (hc.schedule _ _ _)
  | retire on => exact drop (by simp) hc |>.retire on
  | unhook _ on =>
    have hu := hc.unhook on
    refine { hu with anchored := fun b hb => (hu.anchored b hb).imp_right fun hm => ?_ }
    exact List.mem_cons_of_mem _ (List.mem_cons_of_mem _ hm)
  | @drained n debts w off out inc =>
    refine { hc with anchored := fun a ha => (hc.anchored a ha).imp_right fun hm => ?_ }
    refine (List.mem_cons.1 hm).resolve_left fun e => ?_
    have hmem : a ∈ w.graph.outgoing n := hc.wf.mem_outgoing.2 ⟨ha, Debt.drain.inj e⟩
    rw [out] at hmem
    exact Array.not_mem_empty a hmem
  | forget deep _ bare left => exact hc.forget hp deep bare left

theorem Steps.tidy (hp : p.Distinct) {debts left : List Debt}
    (h : Steps p (debts, w) (left, w')) (hc : Tidy p stale debts w) : Tidy p stale left w' :=
  Steps.keeps (I := fun c => Tidy p stale c.1 c.2) (fun _ _ hs => hs.tidy hp) h hc

/-- The debts which an arc leaves when it is taken out do not include a drain. -/
theorem tidy_owed {debts : List Debt} (h : Tidy p stale debts w) {a : ArcId}
    (ha : w.graph.arcIsActive a = true) : Tidy p stale (owed w a debts) (w.unhook a) := by
  have hu := h.unhook ha
  refine { hu with anchored := fun b hb => (hu.anchored b hb).imp_right fun hm => ?_ }
  exact List.mem_cons_of_mem _ (List.mem_cons_of_mem _ hm)

/-- A value is never taken from a domain while an arc carries it. -/
def Spares (p : Plan) (w w' : Workspace) : Prop :=
  ∀ a, w'.graph.arcIsActive a = true →
    w.domains.contains (p.model.var (w.graph.layerOf (w.graph.arc a).parent)) (w.graph.arc a).value
      = true →
    w'.domains.contains (p.model.var (w.graph.layerOf (w.graph.arc a).parent)) (w.graph.arc a).value
      = true

theorem Spares.of_domains {p : Plan} {w w' : Workspace} (h : w'.domains = w.domains) :
    Spares p w w' := fun a _ hv => by rwa [h]

theorem Step.spares (hp : p.Distinct) {c d : Config} (h : Step p c d) (hc : Census p c.2) :
    Spares p c.2 d.2 := by
  cases h with
  | visit => exact .of_domains rfl
  | gone => exact .of_domains rfl
  | note => exact .of_domains Workspace.domains_schedule
  | retire => exact .of_domains (Workspace.domains_retire _)
  | unhook => exact .of_domains (by unfold Workspace.unhook; rfl)
  | drained => exact .of_domains rfl
  | @forget debts w l v b domains deep _ bare left =>
    intro a ha hv
    refine (Domains.contains_remove? left).2 ⟨hv, fun e ev => ?_⟩
    have hl := hp.var_inj (hc.parent_lt_depth ha) deep e
    rw [hc.supports] at bare
    exact absurd bare (Nat.ne_of_gt (Graph.labelled_pos_iff.2 ⟨a, ha, hl, ev⟩))

theorem Steps.spares (hp : p.Distinct) {debts left : List Debt}
    (h : Steps p (debts, w) (left, w')) (hc : Census p w) : Spares p w w' := by
  refine (Steps.keeps (I := fun c => Census p c.2 ∧ Shrinks w c.2 ∧ Spares p w c.2)
    (fun c d hs hi => ?_) h ⟨hc, .refl w, .of_domains rfl⟩).2.2
  obtain ⟨hc, hsh, hsp⟩ := hi
  refine ⟨hs.census hc, hsh.trans (hs.shrinks hc), fun a ha hv => ?_⟩
  have hc' := hsp a ((hs.shrinks hc).arcActive a ha) hv
  have := hs.spares hp hc a ha
  rw [hsh.parent, hsh.layerOf, hsh.value] at this
  exact this hc'

/-- The domains of variables without a layer stay as they are. -/
def LeavesOthers (p : Plan) (w w' : Workspace) : Prop :=
  ∀ x, x ∉ p.model.branchVars → ∀ v, w.domains.contains x v = true → w'.domains.contains x v = true

theorem LeavesOthers.of_domains {w w' : Workspace} (h : w'.domains = w.domains) :
    LeavesOthers p w w' := fun _ _ _ hv => by rwa [h]

theorem LeavesOthers.trans {a b c : Workspace} (h : LeavesOthers p a b) (k : LeavesOthers p b c) :
    LeavesOthers p a c := fun x hx v hv => k x hx v (h x hx v hv)

theorem Step.leavesOthers {c d : Config} (h : Step p c d) : LeavesOthers p c.2 d.2 := by
  cases h with
  | visit => exact .of_domains rfl
  | gone => exact .of_domains rfl
  | note => exact .of_domains Workspace.domains_schedule
  | retire => exact .of_domains (Workspace.domains_retire _)
  | unhook => exact .of_domains (by unfold Workspace.unhook; rfl)
  | drained => exact .of_domains rfl
  | forget deep _ _ left =>
    intro x hx u hu
    refine (Domains.contains_remove? left).2 ⟨hu, fun e => absurd (Model.var_mem deep) ?_⟩
    rwa [← e]

theorem Steps.leavesOthers {debts left : List Debt} (h : Steps p (debts, w) (left, w')) :
    LeavesOthers p w w' :=
  Steps.keeps (I := fun c => LeavesOthers p w c.2) (fun _ _ hs hi => hi.trans hs.leavesOthers) h
    (.of_domains rfl)

end Cascade
end DecisionDiagrams
