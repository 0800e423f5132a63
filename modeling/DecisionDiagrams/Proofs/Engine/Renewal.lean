import DecisionDiagrams.Proofs.Engine.Obeying

/-! Computing nodes again. The bundles of a node hold exactly the neighbours and labels which enter it, so
a node which waited obeys its law once it was computed. The same goes for the up states, which are computed
for all nodes from the sink towards the root when the diagram is new. -/

namespace DecisionDiagrams

open Work Cascade

namespace Bundle

variable {n q : NodeId} {v u : Int}

theorem has_of_has_add : ∀ {bs : List Bundle}, Has (add n v bs) q u → (q = n ∧ u = v) ∨ Has bs q u
  | [], ⟨e, he, hq, hu⟩ => by
    obtain rfl := List.mem_singleton.1 he
    exact Or.inl ⟨hq.symm, IntSet.mem_singleton.1 hu⟩
  | (k, vs) :: rest, ⟨e, he, hq, hu⟩ => by
    unfold add at he
    split_ifs at he with hk
    · rcases List.mem_cons.1 he with rfl | he
      · rcases IntSet.mem_insert.1 hu with hv | hu
        · exact Or.inl ⟨hq.symm.trans hk, hv⟩
        · exact Or.inr ⟨_, List.mem_cons_self, hq, hu⟩
      · exact Or.inr ⟨e, List.mem_cons_of_mem _ he, hq, hu⟩
    · rcases List.mem_cons.1 he with rfl | he
      · exact Or.inr ⟨_, List.mem_cons_self, hq, hu⟩
      · refine (has_of_has_add ⟨e, he, hq, hu⟩).imp_right ?_
        rintro ⟨f, hf, h⟩
        exact ⟨f, List.mem_cons_of_mem _ hf, h⟩

/-- Every bundle has a label. -/
def Filled (bs : List Bundle) : Prop := ∀ b ∈ bs, ∃ v, v ∈ b.2

theorem Filled.add : ∀ {bs : List Bundle}, Filled bs → Filled (Bundle.add n v bs)
  | [], _, e, he => by
    obtain rfl := List.mem_singleton.1 he
    exact ⟨v, IntSet.mem_singleton.2 rfl⟩
  | (k, vs) :: rest, h, e, he => by
    unfold Bundle.add at he
    split_ifs at he with hk
    · rcases List.mem_cons.1 he with rfl | he
      · exact ⟨v, IntSet.mem_insert.2 (Or.inl rfl)⟩
      · exact h e (List.mem_cons_of_mem _ he)
    · rcases List.mem_cons.1 he with rfl | he
      · exact h _ List.mem_cons_self
      · exact Filled.add (fun f hf => h f (List.mem_cons_of_mem _ hf)) e he

/-- Grouping keeps what the bundles hold. -/
theorem foldl_add : ∀ (ends : List (NodeId × Int)) (bs : List Bundle), Filled bs →
    Filled (ends.foldl (fun bs e => Bundle.add e.1 e.2 bs) bs) ∧
      ∀ q u, Has (ends.foldl (fun bs e => Bundle.add e.1 e.2 bs) bs) q u ↔ Has bs q u ∨ (q, u) ∈ ends
  | [], bs, h => ⟨h, fun q u => by simp⟩
  | (m, k) :: ends, bs, h => by
    obtain ⟨hf, hh⟩ := foldl_add ends _ (h.add (n := m) (v := k))
    refine ⟨hf, fun q u => (hh q u).trans ⟨?_, ?_⟩⟩
    · rintro (hb | he)
      · rcases has_of_has_add hb with ⟨rfl, rfl⟩ | hb
        · exact Or.inr List.mem_cons_self
        · exact Or.inl hb
      · exact Or.inr (List.mem_cons_of_mem _ he)
    · rintro (hb | he)
      · exact Or.inl hb.add
      · rcases List.mem_cons.1 he with e | he
        · obtain ⟨rfl, rfl⟩ := Prod.mk.inj e
          exact Or.inl (has_add_self q u bs)
        · exact Or.inr he

end Bundle

section

variable {p : Plan} {stale : Nat → Prop} {d : Direction} {L : Law p d} {w w' : Workspace}

/-- The bundles of a node hold its arcs with their labels, one by one or grouped. -/
theorem Workspace.bundles_arcs (w : Workspace) (p : Plan) (d : Direction) (n : NodeId) :
    Bundle.Filled (w.bundles p d n) ∧ ∀ q v, Bundle.Has (w.bundles p d n) q v ↔
      ∃ a ∈ w.arcsOn d n, w.feeder d a = q ∧ (w.graph.arc a).value = v := by
  have ends : ∀ ends : List (NodeId × Int),
      ends = (w.arcsOn d n).toList.map (fun a => (w.feeder d a, (w.graph.arc a).value)) →
      ∀ bs : List Bundle, bs = (if p.options.groupValues then
          ends.foldl (fun bs e => Bundle.add e.1 e.2 bs) []
        else ends.map fun e => (e.1, IntSet.singleton e.2)) →
      Bundle.Filled bs ∧ ∀ q v, Bundle.Has bs q v ↔
        ∃ a ∈ w.arcsOn d n, w.feeder d a = q ∧ (w.graph.arc a).value = v := by
    rintro ends hends bs rfl
    have hmem : ∀ q v, (q, v) ∈ ends ↔
        ∃ a ∈ w.arcsOn d n, w.feeder d a = q ∧ (w.graph.arc a).value = v := by
      intro q v
      rw [hends, List.mem_map]
      simp only [Array.mem_toList_iff, Prod.mk.injEq]
    split_ifs
    · obtain ⟨hf, hh⟩ := Bundle.foldl_add ends [] fun _ hb => absurd hb List.not_mem_nil
      refine ⟨hf, fun q v => ((hh q v).trans (or_iff_right ?_)).trans (hmem q v)⟩
      rintro ⟨e, he, -⟩
      cases he
    · refine ⟨fun b hb => ?_, fun q v => Iff.trans ⟨?_, fun he => ?_⟩ (hmem q v)⟩
      · obtain ⟨f, -, rfl⟩ := List.mem_map.1 hb
        exact ⟨f.2, IntSet.mem_singleton.2 rfl⟩
      · rintro ⟨b, hb, rfl, hv⟩
        obtain ⟨f, hf, rfl⟩ := List.mem_map.1 hb
        rwa [show v = f.2 from IntSet.mem_singleton.1 hv]
      · exact ⟨_, List.mem_map.2 ⟨_, he, rfl⟩, rfl, IntSet.mem_singleton.2 rfl⟩
  unfold Workspace.bundles
  cases d <;> exact ends _ rfl _ rfl

/-- Bundles are not grouped unless the options say so. -/
theorem Workspace.bundles_single (hg : p.options.groupValues = false) {n : NodeId} :
    ∀ b ∈ w.bundles p d n, ∃ v, b.2 = .singleton v := by
  unfold Workspace.bundles
  dsimp only
  rw [if_neg (Bool.eq_false_iff.1 hg)]
  intro b hb
  obtain ⟨e, -, rfl⟩ := List.mem_map.1 hb
  exact ⟨e.2, rfl⟩

/-- The bundles of a node hold what enters it. -/
theorem Workspace.bundles_enters (hw : w.graph.Wf) (p : Plan) (d : Direction) (n : NodeId) :
    Bundle.Filled (w.bundles p d n) ∧
      ∀ q v, w.enters d n q v ↔ Bundle.Has (w.bundles p d n) q v := by
  obtain ⟨filled, hhas⟩ := w.bundles_arcs p d n
  refine ⟨filled, fun q v => Iff.trans ?_ (hhas q v).symm⟩
  simp only [mem_arcsOn hw, Workspace.enters, and_assoc]

theorem Workspace.bundles_ne_nil (hw : w.graph.Wf) {n : NodeId} (h : (w.arcsOn d n).isEmpty = false) :
    w.bundles p d n ≠ [] := by
  have hs : 0 < (w.arcsOn d n).size := by
    refine Nat.pos_of_ne_zero fun e => ?_
    rw [Array.size_eq_zero_iff.1 e] at h
    cases h
  obtain ⟨ha, hn⟩ := (mem_arcsOn hw).1 (Array.getElem_mem hs)
  obtain ⟨e, he, -⟩ := ((w.bundles_enters hw p d n).2 _ _).1 ⟨_, ha, hn, rfl, rfl⟩
  exact List.ne_nil_of_mem he

/-- No arc enters the root, which so keeps its state when it is computed again. -/
theorem Workspace.keeping_arrived (hw : w.graph.Wf) {n : NodeId} {r : Demand} {new : State}
    (h : w.arrived p d (w.feedLayer d n) (w.bundles p d n) (w.graph.state n d.side) r = .ok new) :
    Keeping w n d.side new := by
  intro hd hl
  cases d with
  | up => cases hd
  | down =>
    obtain ⟨filled, hhas⟩ := w.bundles_enters hw p .down n
    have hnil : w.bundles p .down n = [] := by
      refine List.eq_nil_iff_forall_not_mem.2 fun b hb => ?_
      obtain ⟨v, hv⟩ := filled b hb
      obtain ⟨a, ha, hn, -⟩ := (hhas b.1 v).2 ⟨b, hb, rfl, hv⟩
      have hadj := hw.adjacent a ha
      rw [show (w.graph.arc a).child = n from hn, hl] at hadj
      exact absurd hadj.symm (Nat.succ_ne_zero _)
    rw [hnil] at h
    exact (Except.ok.inj h).symm

/-- Slack for what was taken from the agenda. -/
abbrev Slack.taken (todo : Waiting) : Slack := { todo }

/-- A state which is computed from the neighbours obeys the law as far as it was computed, and as far as
the state before did. -/
theorem Lawful.holds_of_arrived {x : Slack} (h : Lawful L p.model.depth x ([], w))
    (ht : Tidy p stale [] w) (hx : p.options.isExact = false) {n : NodeId}
    (on : w.graph.isActive n = true) (bare : ¬ x.bare n) (hs : w.Sown p d n) {old new : State} {r : Demand}
    (hnew : w.arrived p d (w.feedLayer d n) (w.bundles p d n) old r = .ok new) {o : Option Nat}
    (ho : r.Covers o ∨ L.holds (w.feedLayer d n) (w.enters d n) (fun q => w.graph.state q d.side) old o) :
    L.holds (w.feedLayer d n) (w.enters d n) (fun q => w.graph.state q d.side) new o := by
  obtain ⟨filled, hhas⟩ := w.bundles_enters ht.wf p d n
  have inner : Inner p.model.depth w d n := by
    cases d
    · exact hs
    · exact hs.2.1
  have fed := (h.fed d n on inner).resolve_right fun hd => hd.elim (fun hd => by cases hd) bare
  exact L.arrived hx (Workspace.feedLayer_lt ht.toCensus on hs)
    (fun q v hq => h.toWhole.label_of_enters ht.wf hq) (Workspace.bundles_ne_nil ht.wf fed) filled
    (fun hg => Workspace.bundles_single hg) hhas hnew ho

theorem Quiet.enters (h : Quiet p w w') (d : Direction) (n : NodeId) : w'.enters d n = w.enters d n :=
  Workspace.enters_congr (fun _ => by rw [h.graph]) (fun _ => by rw [h.graph])
    (fun _ => by rw [h.graph]) fun _ => by rw [h.graph]

theorem Quiet.feedLayer (h : Quiet p w w') (d : Direction) (n : NodeId) :
    w'.feedLayer d n = w.feedLayer d n := by
  cases d <;> simp only [Workspace.feedLayer, h.graph]

/-- A node is computed again from its neighbours, and the root keeps its down state. -/
theorem secures_recompute_of {Q : Workspace → Prop} {e : Direction} {n : NodeId} {r : Demand}
    (gone : w.graph.isActive n = false → Q w)
    (adopt : w.graph.isActive n = true → ∀ new w', Quiet p w w' → Keeping w' n e.side new →
      w.arrived p e (w.feedLayer e n) (w.bundles p e n) (w.graph.state n e.side) r = .ok new →
      Secures p stale (adoptState p e n new) (fun _ => Q) w') :
    Secures p stale (recompute p e n r) (fun _ => Q) w := by
  intro ht
  refine wp_recompute ht.cached (fun off => ⟨ht, .refl w, gone off⟩) (fun _ _ _ => trivial) fun on new w₁ hq hnew => ?_
  have hk : Keeping w₁ n e.side new := by
    unfold Keeping
    rw [hq.graph]
    exact Workspace.keeping_arrived ht.wf hnew
  exact (adopt on new w₁ hq hk hnew).goesOn ⟨hq.tidy ht, .of_quiet hq⟩ fun _ _ k h => ⟨k.1, k.2, h⟩

/-- Who waits for another node goes on waiting once this one was taken. -/
theorem Excused.taken_of_ne {n m : NodeId} {r : Demand} {rest : Waiting} {o : Option Nat} (hmn : m ≠ n)
    (h : Excused p d (.taken ((n, r) :: rest)) ([], w) m o) : Excused p d (.taken rest) ([], w) m o := by
  obtain ⟨hx, hw | ⟨q, hq, hw⟩ | hw⟩ := h
  · exact ⟨hx, Or.inl hw⟩
  · refine ⟨hx, Or.inr (Or.inl ⟨q, (List.mem_cons.1 hq).resolve_left fun e => ?_, hw⟩)⟩
    exact hmn (Prod.mk.inj e).1
  · exact ⟨hx, Or.inr (Or.inr hw)⟩

theorem secures_recompute (hp : p.Distinct) (hx : p.options.isExact = false) (hm : p.model.ReadsOwn)
    {n : NodeId} {r : Demand} {rest : Waiting}
    (h : Lawful L p.model.depth (.taken ((n, r) :: rest)) ([], w)) :
    Secures p stale (recompute p d n r)
      (fun _ w' => Lawful L p.model.depth (.taken rest) ([], w')) w := by
  intro ht
  refine secures_recompute_of (fun off => ⟨h.toWhole, fun m om hs hl o => ?_⟩) (fun on new w₁ hq hk hnew => ?_) ht
  · refine (h.abide m om hs hl o).imp_left (Excused.taken_of_ne ?_)
    rintro rfl
    exact absurd (off.symm.trans om) nofun
  have late : Lawful L p.model.depth { Slack.taken rest with late := fun m => False ∨ m = n } ([], w) :=
    ⟨h.toWhole, fun m om hs hl o => (h.abide m om hs id o).imp_left (Excused.taken_of_ne fun e => hl (Or.inr e))⟩
  refine secures_adoptState hp hx hm d (x := .taken rest) (hq.graph ▸ on) hk (late.quiet hq) fun hs _ o => ?_
  rw [if_pos rfl, hq.feedLayer, hq.enters, hq.graph]
  have hs' : w.Sown p d n := hs.congr (by rw [hq.graph]) hq.upKnown.symm
  rcases h.abide n on hs' id o with ⟨hx, hw | ⟨q, hmem, hw⟩ | hw | ⟨_, _, _, hw⟩⟩ | hold
  · refine Or.inl ⟨hx, Or.inl ?_⟩
    show (w₁.agenda.waiting d (w₁.graph.layerOf n)).Covers n o
    rw [hq.agenda, hq.graph]
    exact hw
  · rcases List.mem_cons.1 hmem with e | hmem
    · obtain ⟨-, rfl⟩ := Prod.mk.inj e
      exact Or.inr (h.holds_of_arrived ht hx on id hs' hnew (Or.inl hw))
    · exact Or.inl ⟨hx, Or.inr (Or.inl ⟨q, hmem, hw⟩)⟩
  · cases hw
  · exact hw.elim
  · exact Or.inr (h.holds_of_arrived ht hx on id hs' hnew (Or.inr hold))

/-- Computing a node again in the other direction. -/
theorem secures_recompute_other (hp : p.Distinct) (hx : p.options.isExact = false)
    (hm : p.model.ReadsOwn) {e : Direction} (hed : e ≠ d) {top : Nat} (n : NodeId) (r : Demand)
    (h : Lawful L top {} ([], w)) :
    Secures p stale (recompute p e n r) (fun _ w' => Lawful L top {} ([], w')) w := by
  refine secures_recompute_of (fun _ => h) fun on new w₁ hq hk _ => ?_
  have h₁ := h.quiet hq
  have on₁ : w₁.graph.isActive n = true := hq.graph ▸ on
  refine secures_adoptState hp hx hm e (x := {}) on₁ hk
    ⟨h₁.toWhole, fun m om hs _ o => h₁.abide m om hs id o⟩ fun hs _ o => ?_
  rw [if_neg hed]
  exact h₁.abide n on₁ hs id o

/-- Who waited on a layer is taken from it. -/
theorem Lawful.clear (h : Lawful L p.model.depth {} ([], w)) (e : Direction) (layer : Nat) :
    (e = d → Lawful L p.model.depth (.taken (w.agenda.waiting e layer))
      ([], { w with agenda := w.agenda.clearLayer e layer })) ∧
    (e ≠ d → Lawful L p.model.depth {} ([], { w with agenda := w.agenda.clearLayer e layer })) := by
  have whole : Whole p L.label p.model.depth (fun _ => False)
      ([], { w with agenda := w.agenda.clearLayer e layer }) :=
    { h.toWhole with sized := fun k => (Agenda.size_modify _ _ _ _ _).trans (h.sized k) }
  refine ⟨?_, fun hed => ⟨whole, fun n on hs hl o => (h.abide n on hs hl o).imp_left ?_⟩⟩
  · rintro rfl
    refine ⟨whole, fun n on hs hl o => (h.abide n on hs hl o).imp_left ?_⟩
    rintro ⟨hx, hw | ⟨_, hw, _⟩ | hw | hw⟩
    · by_cases hlay : w.graph.layerOf n = layer
      · rw [hlay] at hw
        exact ⟨hx, Or.inr (Or.inl hw)⟩
      · refine ⟨hx, Or.inl ?_⟩
        show ((w.agenda.clearLayer e layer).waiting e (w.graph.layerOf n)).Covers n o
        rwa [Agenda.waiting_clearLayer_of_ne _ fun hk => hlay hk.2]
    · cases hw
    · cases hw
    · exact ⟨hx, Or.inr (Or.inr (Or.inr hw))⟩
  · rintro ⟨hx, hw | hw⟩
    · refine ⟨hx, Or.inl ?_⟩
      show ((w.agenda.clearLayer e layer).waiting d (w.graph.layerOf n)).Covers n o
      rwa [Agenda.waiting_clearLayer_of_ne _ fun hk => hed hk.1.symm]
    · exact ⟨hx, Or.inr hw⟩

/-- Everything which waited on a layer is computed. -/
theorem secures_recomputeLayer (hp : p.Distinct) (hx : p.options.isExact = false)
    (hm : p.model.ReadsOwn) (e : Direction) (layer : Nat) (h : Lawful L p.model.depth {} ([], w)) :
    Secures p stale (recomputeLayer p e layer)
      (fun _ w' => Lawful L p.model.depth {} ([], w')) w := by
  refine .of_upholds fun ht => ?_
  have cleared : Upkept p stale w { w with agenda := w.agenda.clearLayer e layer } :=
    ⟨ht.congr rfl rfl rfl ht.cached, .of_graph rfl (.refl _) id id⟩
  have steps : ∀ I : Waiting → Slack, (∀ en es w', Lawful L p.model.depth (I (en :: es)) ([], w') →
      Secures p stale (recompute p e en.1 en.2) (fun _ w'' => Lawful L p.model.depth (I es) ([], w'')) w') → I [] = {} →
      Lawful L p.model.depth (I (w.agenda.waiting e layer)) ([], { w with agenda := w.agenda.clearLayer e layer }) →
      wp (recomputeLayer p e layer) (fun _ => Upholds stale L p.model.depth {} w) (fun _ _ => True) w :=
    fun I step last start => wp_recomputeLayer (fun es => Upholds stale L p.model.depth (I es) w) ⟨cleared, start⟩
      (fun en es w' k => (step en es w' k.2).goesOn k.1 fun _ _ => And.intro) fun _ k => last ▸ k
  by_cases hed : e = d
  · subst hed
    exact steps .taken (fun _ _ _ hi => secures_recompute hp hx hm hi) rfl ((h.clear e layer).1 rfl)
  · exact steps (fun _ => {}) (fun en _ _ hi => secures_recompute_other hp hx hm hed en.1 en.2 hi) rfl
      ((h.clear e layer).2 hed)

/-! ### The first up states -/

/-- More nodes may be passed over. -/
theorem Lawful.pass {late late' : NodeId → Prop} {top : Nat} (h : Lawful L top { late := late } ([], w))
    (hl : ∀ n, w.graph.isActive n = true → late n → late' n) :
    Lawful L top { late := late' } ([], w) :=
  ⟨h.toWhole, fun n on hs hn o => h.abide n on hs (fun hl' => hn (hl n on hl')) o⟩

/-- A node is completed, and the others stand as before. -/
theorem wp_completeNode_levels (hp : p.Distinct) {x : Slack} {top layer : Nat} {n : NodeId} (ht : Tidy p stale [] w)
    (stays : w.graph.isActive n = false ∨ ¬ layer < p.model.depth → Lawful L top x ([], w))
    (rises : w.graph.isActive n = true → layer < p.model.depth → ∀ up w', Quiet p w w' →
      w.arrived p .up layer (w.bundles p .up n) (w.graph.state n .up) .full = .ok up →
      Lawful L top x ([], w'.putState n .up up)) :
    wp (completeNode p layer n) (fun _ => Levels stale L top x w) (fun _ _ => True) w := by
  let J : Workspace → Prop := fun w' => n < w'.graph.nodes.size ∧ Levels stale L top x w w'
  have hside : d.side ≠ .combined := by cases d <;> nofun
  have put : ∀ {v} s side, n < v.graph.nodes.size → Upkept p stale w v →
      (∀ m, v.graph.layerOf m = w.graph.layerOf m) → Lawful L top x ([], v.putState n side s) →
      J (v.putState n side s) := fun s side hn k hl h =>
    ⟨Nat.lt_of_lt_of_eq hn (Graph.size_putState _ n side s).symm,
      ⟨⟨k.1.putState hn _ _, k.2.trans (.putState hn _ _)⟩, h⟩, fun m => (Workspace.layerOf_putState hn m).trans (hl m)⟩
  refine wp_completeNode J J ht.cached (fun off => ⟨⟨⟨ht, .refl w⟩, stays (Or.inl off)⟩, fun _ => rfl⟩)
    (fun _ _ _ => trivial) (fun on last => ?_) (fun on inner up w' hq hup => ?_) (fun _ _ _ => trivial)
    (fun _ _ k => k) (fun _ w' both k _ => ?_) (fun _ _ _ => trivial) (fun _ k _ => (pruner_levels hp w).drop n k.2)
    fun _ k => wp_when ((pruner_levels hp w).retestOutgoing n k.2) k.2
  · exact ⟨Graph.lt_of_isActive _ on, ⟨⟨ht, .refl w⟩, stays (Or.inr last)⟩, fun _ => rfl⟩
  · exact put up .up (hq.graph ▸ Graph.lt_of_isActive _ on) ⟨hq.tidy ht, .of_quiet hq⟩ (fun m => by rw [hq.graph])
      (rises on inner up w' hq hup)
  · exact put both .combined k.1 k.2.1.1 k.2.2 (k.2.1.2.putOther k.1 hside nofun)

/-- A node whose up state is computed for the first time obeys the law of up states from then on, while
those above it are not looked at yet. -/
theorem wp_completeNode_up {L : Law p .up} (hp : p.Distinct) (hx : p.options.isExact = false)
    (late : NodeId → Prop) {n : NodeId} (ht : Tidy p stale [] w)
    (h : Lawful L p.model.depth { late := fun m => late m ∨ m = n } ([], w))
    (above : ∀ m, w.graph.isActive m = true → w.graph.layerOf m + 1 = w.graph.layerOf n → late m) :
    wp (completeNode p (w.graph.layerOf n) n) (fun _ => Levels stale L p.model.depth { late } w) (fun _ _ => True) w := by
  refine wp_completeNode_levels hp ht (fun hn => ?_) fun on _ up w₁ hq hup => ?_
  · refine ⟨h.toWhole, fun m om hs hl o => h.abide m om hs (not_or.2 ⟨hl, ?_⟩) o⟩
    rintro rfl
    exact hn.elim (fun off => absurd (off.symm.trans om) nofun) fun last => last hs.2.1
  have on₁ : w₁.graph.isActive n = true := hq.graph ▸ on
  have hput : Lawful L p.model.depth { late := late, news := fun q _ => q = n } ([], w₁.putState n .up up) := by
    refine Lawful.put (x := { late }) hx (hq.tidy ht).toCensus (h.quiet hq) on₁ nofun (fun hs _ o => Or.inr ?_)
      fun _ _ => rfl
    rw [hq.feedLayer, hq.enters, hq.graph]
    refine h.holds_of_arrived ht hx on id (hs.congr ?_ hq.upKnown.symm) hup (Or.inl trivial)
    rw [hq.graph]
  refine hput.told (x := { late }) fun _ m q v o om _ hl he ho => absurd (above m ?_ ?_) hl
  · rwa [Workspace.isActive_putState (Graph.lt_of_isActive _ on₁), hq.graph] at om
  · obtain ⟨a, ha, hm, hqa, -⟩ := he
    have hadj := ht.wf.adjacent a (hq.graph ▸ ha)
    have e1 : (w.graph.arc a).parent = m := hq.graph ▸ hm
    have e2 : (w.graph.arc a).child = q := hq.graph ▸ hqa
    rw [e1, e2, show q = n from ho] at hadj
    exact hadj.symm

theorem secures_completeNodes_down {L : Law p .down} (hp : p.Distinct) {top : Nat}
    (h : Lawful L top {} ([], w)) :
    Secures p stale (completeNodes p) (fun _ w' => Lawful L top {} ([], w')) w := by
  refine .of_upholds fun ht => ?_
  have known : Lawful L top {} ([], { w with upKnown := true }) :=
    ⟨{ h.toWhole with }, fun n on hs hl o => h.abide n on hs hl o⟩
  let I : Workspace → Prop := Upholds stale L top {} w
  refine wp_completeNodes (fun _ => I) (fun _ _ _ => I)
    ⟨⟨ht.congr rfl rfl rfl ht.cached, .of_graph rfl (.refl _) (fun _ => rfl) id⟩, known⟩ (fun _ _ _ k => k)
    (fun layer _ n _ w' k => ?_) (fun _ _ _ k => k) fun _ k => k
  refine wp.mono (wp_completeNode_levels hp k.1.1 (fun _ => k.2) fun on _ up w₁ hq _ => ?_)
    (fun _ _ l => ⟨⟨l.1.1.1, k.1.2.trans l.1.1.2⟩, l.1.2⟩) fun _ _ _ => trivial
  exact (k.2.quiet hq).putOther (hq.graph ▸ Graph.lt_of_isActive _ on) (by nofun) nofun

/-- The up states of the layers from `k` on are known. -/
abbrev KnownFrom (stale : Nat → Prop) (L : Law p .up) (k : Nat) (w w' : Workspace) : Prop :=
  Upholds stale L p.model.depth { late := fun m => w'.graph.layerOf m < k } w w'

/-- Layer by layer from the sink, all up states become known. -/
theorem secures_completeNodes_up {L : Law p .up} (hp : p.Distinct) (hx : p.options.isExact = false)
    (h : Lawful L p.model.depth { late := fun _ => True } ([], { w with upKnown := true })) :
    Secures p stale (completeNodes p) (fun _ w' => Lawful L p.model.depth {} ([], w')) w := by
  refine .of_upholds fun ht => ?_
  have step : ∀ {layer : Nat} {n : NodeId} {ns : List NodeId} {w' : Workspace},
      (∀ m ∈ n :: ns, w'.graph.layerOf m = layer) →
      Upholds stale L p.model.depth { late := fun m => w'.graph.layerOf m < layer ∨ m ∈ n :: ns } w w' →
      wp (completeNode p layer n) (fun _ w'' => (∀ m ∈ ns, w''.graph.layerOf m = layer) ∧
        Upholds stale L p.model.depth { late := fun m => w''.graph.layerOf m < layer ∨ m ∈ ns } w w'')
        (fun _ _ => True) w' := by
    intro layer n ns w' hlay k
    obtain rfl := hlay n List.mem_cons_self
    refine wp.mono (wp_completeNode_up hp hx (fun m => w'.graph.layerOf m < w'.graph.layerOf n ∨ m ∈ ns) k.1.1
      (k.2.pass ?_) fun m _ hm => Or.inl (by omega)) (fun _ w'' l => ⟨fun m hm => ?_, ?_⟩) fun _ _ _ => trivial
    · rintro m - (hm | hm)
      · exact Or.inl (Or.inl hm)
      · exact (List.mem_cons.1 hm).elim Or.inr fun hm => Or.inl (Or.inr hm)
    · exact (l.2 m).trans (hlay m (List.mem_cons_of_mem _ hm))
    · exact ⟨⟨l.1.1.1, k.1.2.trans l.1.1.2⟩, l.1.2.pass fun m _ => by rw [l.2]; exact id⟩
  refine wp_completeNodes
    (fun rest w' => ∃ k, rest = (List.range k).reverse ∧ KnownFrom stale L k w w')
    (fun layer rest ns w' => rest = (List.range layer).reverse ∧ (∀ m ∈ ns, w'.graph.layerOf m = layer) ∧
      Upholds stale L p.model.depth { late := fun m => w'.graph.layerOf m < layer ∨ m ∈ ns } w w')
    ⟨p.model.depth + 1, rfl, ?_⟩ ?_ (fun layer rest n ns w' k => ?_) (fun layer rest w' k => ?_) ?_
  · refine ⟨⟨ht.congr rfl rfl rfl ht.cached, .of_graph rfl (.refl _) (fun _ => rfl) id⟩, h.pass fun n on _ => ?_⟩
    exact Nat.lt_succ_of_le (ht.toCensus.layerOf_le on)
  · rintro layer rest w' ⟨_ | k, hk, h'⟩
    · cases hk
    · rw [List.range_succ, List.reverse_append] at hk
      obtain ⟨rfl, rfl⟩ := List.cons.inj hk
      refine ⟨rfl, fun n hn => (h'.1.1.wf.mem_layer.1 (Array.mem_toList_iff.1 hn)).2, h'.1, h'.2.pass fun n on hl => ?_⟩
      rcases Nat.lt_or_eq_of_le (Nat.le_of_lt_succ hl) with hl | hl
      · exact Or.inl hl
      · exact Or.inr (Array.mem_toList_iff.2 (h'.1.1.wf.mem_layer.2 ⟨on, hl⟩))
  · exact wp.mono (step k.2.1 k.2.2) (fun _ _ l => ⟨k.1, l⟩) fun _ _ _ => trivial
  · exact ⟨layer, k.1, k.2.2.1, k.2.2.2.pass fun n _ hl => hl.resolve_right List.not_mem_nil⟩
  · rintro w' ⟨_ | k, hk, h'⟩
    · exact ⟨h'.1, h'.2.pass fun _ _ hl => absurd hl (Nat.not_lt_zero _)⟩
    · rw [List.range_succ, List.reverse_append] at hk
      cases hk

end

end DecisionDiagrams
