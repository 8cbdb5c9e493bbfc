import GammaFlow.Raft.Apply

/-!
# What clients are told

A write is acknowledged when `SubmitCommand` sees, in one and the same section, that
its node still leads the term of the entry and that the entry was applied. From that
moment on the entry is committed, whatever becomes of the node.

A read asks for less. `handleGet` looks into the store of whoever believes to be the
leader, and neither a leader that was deposed without hearing of it nor one that has
just been elected need have applied what was acknowledged before.
-/

namespace GammaFlow.Raft

open GammaFlow.Storage

variable {ω : Type} [Journal ω] {cfg : Config ω} {w w' : Cluster ω} {ev : Event}

/-! ## Calls of `SubmitCommand` -/

/-- Calls are recorded in the order of their appends. -/
theorem act_submits (hs : w.act cfg ev = some w') : w'.submits = w.submits ∨
    ∃ i command index term, ((w.nodes i).submitCommand command).2 = .appended index term ∧
      w'.submits = w.submits ++ [⟨i, command, index, term⟩] := by
  cases acts_of_act hs with
  | submitted i command index term _ hres => exact Or.inr ⟨i, command, index, term, hres, rfl⟩
  | _ => exact Or.inl rfl

/-- A call returns success only in a section that finds its entry applied. -/
theorem act_returned (hs : w.act cfg ev = some w') {k : Nat}
    (hk : (k, Outcome.success) ∈ w'.returned) : (k, Outcome.success) ∈ w.returned ∨
      ∃ s, w.submits[k]? = some s ∧ (w.nodes s.node).pollSubmit s.index s.term = .done := by
  cases acts_of_act hs with
  | pollDone k' s hsub _ hdone =>
      rcases List.mem_append.mp hk with hk | hk
      · exact Or.inl hk
      · obtain ⟨rfl, -⟩ := Prod.mk.inj (List.mem_singleton.mp hk)
        exact Or.inr ⟨s, hsub, hdone⟩
  | pollFailed k' _ =>
      rcases List.mem_append.mp hk with hk | hk
      · exact Or.inl hk
      · exact absurd (Prod.mk.inj (List.mem_singleton.mp hk)).2 (by simp)
  | timeoutSubmit k' _ =>
      rcases List.mem_append.mp hk with hk | hk
      · exact Or.inl hk
      · exact absurd (Prod.mk.inj (List.mem_singleton.mp hk)).2 (by simp)
  | _ => exact Or.inl hk

theorem submits_mono (hr : Cluster.Run cfg w w') : w.submits <+: w'.submits := by
  refine Execution.Run.invariant hr (List.prefix_refl _) ?_
  intro w₁ ev w₂ _ hpre hs
  rcases act_submits hs with heq | ⟨i, command, index, term, _, heq⟩
  · rw [heq]; exact hpre
  · rw [heq]; exact hpre.trans (List.prefix_append _ _)

/-- Later calls of one reign have later indices. -/
theorem submits_ordered (hw : Cluster.Reachable cfg w) :
    w.submits.Pairwise fun a b => a.term = b.term → a.index < b.index := by
  refine Execution.Run.invariant hw List.Pairwise.nil ?_
  intro w₁ ev w₂ hr hord hs
  rcases act_submits hs with heq | ⟨i, command, index, term, hres, heq⟩
  · rw [heq]; exact hord
  · rw [heq]
    refine List.pairwise_append.mpr ⟨hord, List.pairwise_singleton _ _, ?_⟩
    intro a ha b hb hterm
    rw [List.mem_singleton.mp hb] at hterm ⊢
    -- the entry of the earlier call is in the log that the later one appends to
    obtain ⟨hlead, hindex, hcur⟩ := Node.submitCommand_appended hres
    obtain ⟨S, hS⟩ := sim_reachable hr
    obtain ⟨_, _, r, hreign, _, hentry⟩ := hS.submits a ha
    obtain ⟨b', hb'⟩ := (hS.nodes i).reign hlead
    rw [hterm, hcur, hb'] at hreign
    obtain rfl := Option.some.inj hreign
    have hlt := (List.getElem?_eq_some_iff.mp hentry).1
    rw [RaftLog.lastIndex_eq] at hindex
    dsimp only at hlt hindex ⊢
    omega

/-- Call `k`, whose entry is `s`, has returned success. -/
def Cluster.Acked (w : Cluster ω) (k : Nat) (s : Submit) : Prop :=
  w.submits[k]? = some s ∧ (k, Outcome.success) ∈ w.returned

/-- Every acknowledgement goes back to the section that found the entry applied. -/
theorem acked_moment (hw : Cluster.Reachable cfg w) {k : Nat} {s : Submit} (h : w.Acked k s) :
    ∃ w₀, Cluster.Reachable cfg w₀ ∧ Cluster.Run cfg w₀ w ∧ w₀.submits[k]? = some s ∧
      (w₀.nodes s.node).pollSubmit s.index s.term = .done := by
  obtain ⟨hk, hret⟩ := h
  -- first for whatever call `k` was then
  have key : ∃ w₀ s₀, Cluster.Reachable cfg w₀ ∧ Cluster.Run cfg w₀ w ∧ w₀.submits[k]? = some s₀ ∧
      (w₀.nodes s₀.node).pollSubmit s₀.index s₀.term = .done := by
    clear hk
    revert hret
    refine Execution.Run.invariant hw (fun h => absurd h (by simp [Cluster.init])) ?_
    intro w₁ ev w₂ hr ih hs hret
    rcases act_returned hs hret with hold | ⟨s₀, hs₀, hdone⟩
    · obtain ⟨w₀, s₀, hw₀, hrun, hrest⟩ := ih hold
      exact ⟨w₀, s₀, hw₀, hrun.tail ⟨ev, hs⟩, hrest⟩
    · exact ⟨w₁, s₀, hr, Relation.ReflTransGen.single ⟨ev, hs⟩, hs₀, hdone⟩
  obtain ⟨w₀, s₀, hw₀, hrun, hs₀, hdone⟩ := key
  obtain ⟨rest, hrest⟩ := submits_mono hrun
  have hsame : w.submits[k]? = some s₀ := by
    rw [← hrest, List.getElem?_append_left (List.getElem?_eq_some_iff.mp hs₀).1]
    exact hs₀
  obtain rfl := Option.some.inj (hsame.symm.trans hk)
  exact ⟨w₀, hw₀, hrun, hs₀, hdone⟩

/-- The entry of a call. -/
def Submit.entry (s : Submit) : LogEntry := ⟨s.term, s.index, s.command⟩

omit [Journal ω] in
theorem pollSubmit_done {n : Node ω} {index term : Nat} (h : n.pollSubmit index term = .done) :
    n.state = .leader ∧ n.currentTerm = term ∧ index ≤ n.lastApplied := by
  unfold Node.pollSubmit at h
  split at h
  · exact absurd h (by simp)
  · rename_i hlead
    split at h
    · rename_i hle
      simp only [not_or, Decidable.not_not] at hlead
      exact ⟨hlead.1, hlead.2, hle⟩
    · exact absurd h (by simp)

/-- **An entry found applied by its own call is committed.** -/
theorem holds_of_done (hw : Cluster.Reachable cfg w) {s : Submit} (hs : s ∈ w.submits)
    (hdone : (w.nodes s.node).pollSubmit s.index s.term = .done) :
    1 ≤ s.index ∧ (w.nodes s.node).log.entries[s.index]? = some s.entry ∧
      s.index ≤ (w.nodes s.node).commitIndex := by
  obtain ⟨hlead, hterm, happ⟩ := pollSubmit_done hdone
  obtain ⟨S, hS⟩ := sim_reachable hw
  obtain ⟨_, hpos, r, hreign, _, hentry⟩ := hS.submits s hs
  obtain ⟨b, hb⟩ := (hS.nodes s.node).reign hlead
  rw [hterm, hreign] at hb
  rw [Option.some.inj hb] at hentry
  refine ⟨hpos, ?_, Nat.le_trans happ ((applyInv_reachable hw).applied s.node)⟩
  rw [RaftLog.getElem?_entries _ hpos]
  exact hentry

/-- From then on, whoever has committed its index holds that entry there. -/
theorem holds_later (hw : Cluster.Reachable cfg w) (hr : Cluster.Run cfg w w') {s : Submit}
    (hs : s ∈ w.submits) (hdone : (w.nodes s.node).pollSubmit s.index s.term = .done) {j : NodeID}
    (hj : s.index ≤ (w'.nodes j).commitIndex) :
    (w'.nodes j).log.entries[s.index]? = some s.entry := by
  obtain ⟨hpos, hentry, hcommit⟩ := holds_of_done hw hs hdone
  obtain ⟨heq, hlen, _⟩ := committed_agree hw hr hcommit hj
  obtain ⟨e, he, he'⟩ := same_entry heq hlen hpos (Nat.le_refl _)
  rw [he', ← he, hentry]

/-- What was acknowledged is committed on the node that did. -/
theorem Cluster.Acked.committed (hw : Cluster.Reachable cfg w) {k : Nat} {s : Submit}
    (h : w.Acked k s) : 1 ≤ s.index ∧ s.index ≤ (w.nodes s.node).commitIndex ∧
      s.index ≤ (w.nodes s.node).lastApplied ∧ ∀ j, s.index ≤ (w.nodes j).commitIndex →
        (w.nodes j).log.entries[s.index]? = some s.entry := by
  obtain ⟨w₀, hw₀, hrun, hs, hdone⟩ := acked_moment hw h
  have hmem := List.mem_of_getElem? hs
  obtain ⟨hpos, _, hcommit⟩ := holds_of_done hw₀ hmem hdone
  refine ⟨hpos, Nat.le_trans hcommit (commitIndex_mono hw₀ hrun s.node), ?_, ?_⟩
  · exact Nat.le_trans (pollSubmit_done hdone).2.2 (lastApplied_mono hw₀ hrun s.node)
  · intro j hj
    exact holds_later hw₀ hrun hmem hdone hj

/-- One index is acknowledged to one call only. -/
theorem Cluster.Acked.unique (hw : Cluster.Reachable cfg w) {k k' : Nat} {s s' : Submit}
    (h : w.Acked k s) (h' : w.Acked k' s') (hindex : s.index = s'.index) : k = k' := by
  obtain ⟨_, hcommit, _, hholds⟩ := h.committed hw
  obtain ⟨_, _, _, hholds'⟩ := h'.committed hw
  -- both entries stand at the same place of the same log
  have hentry := hholds s.node hcommit
  have hentry' := hholds' s.node (by omega)
  rw [← hindex, hentry] at hentry'
  have hterm : s.term = s'.term := congrArg LogEntry.term (Option.some.inj hentry')
  have hord := List.pairwise_iff_getElem.mp (submits_ordered hw)
  obtain ⟨hk, hs⟩ := List.getElem?_eq_some_iff.mp h.1
  obtain ⟨hk', hs'⟩ := List.getElem?_eq_some_iff.mp h'.1
  rcases Nat.lt_trichotomy k k' with hlt | heq | hlt
  · have := hord k k' hk hk' hlt
    rw [hs, hs'] at this
    have := this hterm
    omega
  · exact heq
  · have := hord k' k hk' hk hlt
    rw [hs, hs'] at this
    have := this hterm.symm
    omega

/--
**Acknowledged writes are committed.** When call `k` returns success, its node holds
the entry of the call at the index that is returned and has committed it; from then
on every node that has committed this index holds this entry there; and no two calls
that have returned success have the same index.
-/
theorem acknowledged_committed (hw : Cluster.Reachable cfg w) :
    (∀ k s w', w.act cfg (.pollSubmit k) = some w' → w.submits[k]? = some s →
      w'.returned = w.returned ++ [(k, .success)] →
        (w'.nodes s.node).log.entries[s.index]? = some ⟨s.term, s.index, s.command⟩ ∧
        s.index ≤ (w'.nodes s.node).commitIndex ∧
        ∀ w₂, Cluster.Run cfg w' w₂ → ∀ j, s.index ≤ (w₂.nodes j).commitIndex →
          (w₂.nodes j).log.entries[s.index]? = some ⟨s.term, s.index, s.command⟩) ∧
    (∀ k k' s s', w.Acked k s → w.Acked k' s' → s.index = s'.index → k = k') := by
  refine ⟨?_, ?_⟩
  · intro k s w' hs hk hret
    have hstep : Cluster.Run cfg w w' := Relation.ReflTransGen.single ⟨_, hs⟩
    have hw' : Cluster.Reachable cfg w' := hw.trans hstep
    have hacked : w'.Acked k s := by
      obtain ⟨rest, hrest⟩ := submits_mono hstep
      refine ⟨?_, by rw [hret]; simp⟩
      rw [← hrest, List.getElem?_append_left (List.getElem?_eq_some_iff.mp hk).1]
      exact hk
    obtain ⟨_, hcommit, _, hholds⟩ := hacked.committed hw'
    refine ⟨hholds s.node hcommit, hcommit, ?_⟩
    intro w₂ hr j hj
    obtain ⟨w₀, hw₀, hrun, hs₀, hdone⟩ := acked_moment hw' hacked
    exact holds_later hw₀ (hrun.trans hr) (List.mem_of_getElem? hs₀) hdone hj
  · intro k k' s s' h h' hindex
    exact h.unique hw h' hindex

/-- Node `b` replicates one entry to `c`, applies it and finds it applied. -/
def acknowledgeEvents : List Event :=
  replicateEvents ++ [.appendReply 0, .collectApply "b", .sendApply "b", .finishApply "b"]

theorem acknowledged_committed_abc : ∃ w w', Cluster.Reachable volatileABC w ∧
    w.act volatileABC (.pollSubmit 0) = some w' ∧ w'.returned = [(0, .success)] ∧
      (w'.nodes "b").log.entries[1]? = some ⟨1, 1, [1]⟩ ∧ 1 ≤ (w'.nodes "b").commitIndex := by
  obtain ⟨w, hw, h⟩ := Cluster.exists_run volatileABC (Cluster.init volatileABC) acknowledgeEvents
    (fun w => (w.submits = [⟨"b", [1], 1, 1⟩] ∧ w.returned = []) ∧
      ∃ w' ∈ w.act volatileABC (.pollSubmit 0), w'.returned = [(0, .success)]) (by decide +kernel)
  obtain ⟨⟨hsub, hret⟩, w', hs, h⟩ := h
  obtain ⟨hentry, hcommit, _⟩ := (acknowledged_committed hw).1 0 ⟨"b", [1], 1, 1⟩ w' hs
    (by rw [hsub]; rfl) (by rw [h, hret]; rfl)
  exact ⟨w, w', hw, hs, h, hentry, hcommit⟩

/-! ## Reads -/

/--
A `GET` that a node answers from its own store: the request arrives, and `handleGet`
finds that `IsLeader` returns true. The lookup comes at any later moment.
-/
structure Get (cfg : Config ω) where
  node : NodeID
  began : Cluster ω
  checked : Cluster ω
  reachable : Cluster.Reachable cfg began
  arrives : Cluster.Run cfg began checked
  leader : (checked.nodes node).isLeader = true

namespace Get

variable (g : Get cfg)

/-- Whenever the lookup happens, what was acknowledged before the request is applied. -/
def Fresh : Prop :=
  ∀ looked, Cluster.Run cfg g.checked looked → ∀ k s, g.began.Acked k s →
    s.index ≤ (looked.nodes g.node).lastApplied

def term : Nat := (g.checked.nodes g.node).currentTerm

def lastApplied : Nat := (g.checked.nodes g.node).lastApplied

variable {g}

theorem reachable_checked : Cluster.Reachable cfg g.checked := g.reachable.trans g.arrives

theorem state : (g.checked.nodes g.node).state = .leader := by
  simpa [Node.isLeader] using g.leader

/-- A write acknowledged in the reader's own term was acknowledged by the reader. -/
theorem applied_of_same_term {k : Nat} {s : Submit} (h : g.began.Acked k s)
    (ht : s.term = g.term) : s.index ≤ g.lastApplied := by
  obtain ⟨w₀, hw₀, hrun, hs, hdone⟩ := acked_moment g.reachable h
  have hrun' := hrun.trans g.arrives
  obtain ⟨S, hS⟩ := sim_reachable g.reachable_checked
  obtain ⟨_, _, r, hreign, hnode, _⟩ :=
    hS.submits s ((submits_mono hrun').subset (List.mem_of_getElem? hs))
  obtain ⟨b, hb⟩ := (hS.nodes g.node).reign g.state
  rw [ht] at hreign
  have hsame : s.node = g.node := by
    rw [← hnode, Option.some.inj (hreign.symm.trans hb)]
  rw [hsame] at hdone
  exact Nat.le_trans (pollSubmit_done hdone).2.2 (lastApplied_mono hw₀ hrun' g.node)

/-- A write acknowledged in a later term is not applied where the older leader reads. -/
theorem not_applied_of_later_term {k : Nat} {s : Submit} (h : g.began.Acked k s)
    (ht : g.term < s.term) : g.lastApplied < s.index := by
  by_contra hle
  obtain ⟨w₀, hw₀, hrun, hs, hdone⟩ := acked_moment g.reachable h
  have hcommit : s.index ≤ (g.checked.nodes g.node).commitIndex :=
    Nat.le_trans (Nat.le_of_not_lt hle) ((applyInv_reachable g.reachable_checked).applied g.node)
  have hentry := holds_later hw₀ (hrun.trans g.arrives) (List.mem_of_getElem? hs) hdone hcommit
  exact absurd (leader_entry_term g.reachable_checked g.state hentry) (Nat.not_le.mpr ht)

/-- What was acknowledged in an earlier term lies below all entries of the reader's own. -/
theorem applied_of_own_entry {k m : Nat} {s : Submit} {e : LogEntry} (h : g.began.Acked k s)
    (ht : s.term < g.term) (hm : m ≤ g.lastApplied)
    (he : (g.checked.nodes g.node).log.entries[m]? = some e) (het : e.term = g.term) :
    s.index ≤ g.lastApplied := by
  obtain ⟨w₀, hw₀, hrun, hs, hdone⟩ := acked_moment g.reachable h
  obtain ⟨hpos, hentry, hcommit⟩ := holds_of_done hw₀ (List.mem_of_getElem? hs) hdone
  -- the reader has it in its log, if not applied
  obtain ⟨rest, hrest⟩ := committed_led hw₀ g.reachable_checked (Or.inl (hrun.trans g.arrives))
    g.state (by rw [(pollSubmit_done hdone).2.1]; exact ht)
  have hheld : (g.checked.nodes g.node).log.entries[s.index]? = some s.entry := by
    rw [RaftLog.getElem?_entries _ hpos] at hentry ⊢
    rw [← hrest, List.getElem?_append_left, List.getElem?_take_of_lt (by omega)]
    · exact hentry
    · have := (List.getElem?_eq_some_iff.mp hentry).1
      rw [List.length_take]; omega
  have hm0 : 1 ≤ m := by
    rcases Nat.eq_zero_or_pos m with rfl | hm0
    · rw [RaftLog.entries_eq] at he
      rw [← Option.some.inj he] at het
      have h0 : (0 : Nat) = g.term := het
      omega
    · exact hm0
  by_contra hlt
  have hmono := entry_term_mono g.reachable_checked g.node hm0 (by omega) he hheld
  rw [het] at hmono
  exact absurd hmono (Nat.not_le.mpr ht)

end Get

/--
**When reads are fresh.** A read by a leader of term `T` is fresh, whenever the lookup
comes, exactly if every write acknowledged before was acknowledged in `T` itself, or
in an earlier term and is applied on the reader at the check. In particular it is
fresh if no later term has acknowledged a write and the reader has applied an entry of
its own term.
-/
theorem get_fresh_iff (g : Get cfg) :
    (g.Fresh ↔ ∀ k s, g.began.Acked k s →
      s.term = g.term ∨ (s.term < g.term ∧ s.index ≤ g.lastApplied)) ∧
    ((∀ k s, g.began.Acked k s → s.term ≤ g.term) →
      (∃ (m : Nat) (e : LogEntry), m ≤ g.lastApplied ∧
        (g.checked.nodes g.node).log.entries[m]? = some e ∧ e.term = g.term) → g.Fresh) := by
  -- what is applied at the check is applied at the lookup
  have hlater : (∀ k s, g.began.Acked k s → s.index ≤ g.lastApplied) → g.Fresh := by
    intro h looked hr k s hk
    exact Nat.le_trans (h k s hk) (lastApplied_mono g.reachable_checked hr g.node)
  refine ⟨⟨?_, ?_⟩, ?_⟩
  · intro hfresh k s hk
    have hle : s.index ≤ g.lastApplied := hfresh g.checked Relation.ReflTransGen.refl k s hk
    rcases Nat.lt_trichotomy s.term g.term with hlt | heq | hgt
    · exact Or.inr ⟨hlt, hle⟩
    · exact Or.inl heq
    · exact absurd hle (Nat.not_le.mpr (Get.not_applied_of_later_term hk hgt))
  · intro h
    refine hlater fun k s hk => ?_
    rcases h k s hk with heq | ⟨_, hle⟩
    · exact Get.applied_of_same_term hk heq
    · exact hle
  · rintro hterm ⟨m, e, hm, he, het⟩
    refine hlater fun k s hk => ?_
    rcases Nat.lt_or_eq_of_le (hterm k s hk) with hlt | heq
    · exact Get.applied_of_own_entry hk hlt hm he het
    · exact Get.applied_of_same_term hk heq

/-- Node `b` reads what it has itself acknowledged. -/
theorem get_fresh_abc : ∃ g : Get volatileABC,
    g.node = "b" ∧ g.began.Acked 0 ⟨"b", [1], 1, 1⟩ ∧ g.Fresh := by
  obtain ⟨w, hw, h⟩ := Cluster.exists_run volatileABC (Cluster.init volatileABC)
    (acknowledgeEvents ++ [.pollSubmit 0])
    (fun w => w.submits = [⟨"b", [1], 1, 1⟩] ∧ w.returned = [(0, .success)] ∧
      (w.nodes "b").isLeader = true ∧ (w.nodes "b").currentTerm = 1) (by decide +kernel)
  obtain ⟨hsub, hret, hlead, hterm⟩ := h
  refine ⟨⟨"b", w, w, hw, Relation.ReflTransGen.refl, hlead⟩, rfl, ⟨by rw [hsub]; rfl, by simp [hret]⟩,
    (get_fresh_iff _).1.mpr ?_⟩
  rintro k s ⟨hk, _⟩
  rw [hsub] at hk
  obtain rfl : s = ⟨"b", [1], 1, 1⟩ := List.mem_singleton.mp (List.mem_of_getElem? hk)
  exact Or.inl hterm.symm

/--
Node `a` leads term `1` and is cut off. Node `b` is elected in term `2`, and its write
at index `1` is acknowledged. A `GET` at `a` still finds it leader, with nothing applied.
-/
theorem stale_get_abc : ∃ g : Get volatileABC, g.node = "a" ∧
    g.began.Acked 0 ⟨"b", [1], 1, 2⟩ ∧ (g.checked.nodes "a").lastApplied = 0 ∧ ¬ g.Fresh := by
  obtain ⟨w, hw, h⟩ := Cluster.exists_run volatileABC (Cluster.init volatileABC)
    [.startElection "a", .requestVote 0, .voteReply 0, .startElection "b", .requestVote 3,
      .voteReply 1, .submitCommand "b" [1], .replicateLog "b" "c", .appendEntries 0, .appendReply 0,
      .collectApply "b", .sendApply "b", .finishApply "b", .pollSubmit 0]
    (fun w => w.submits = [⟨"b", [1], 1, 2⟩] ∧ w.returned = [(0, .success)] ∧
      (w.nodes "a").isLeader = true ∧ (w.nodes "a").lastApplied = 0) (by decide +kernel)
  obtain ⟨hsub, hret, hlead, happ⟩ := h
  have hacked : w.Acked 0 ⟨"b", [1], 1, 2⟩ := ⟨by rw [hsub]; rfl, by simp [hret]⟩
  refine ⟨⟨"a", w, w, hw, Relation.ReflTransGen.refl, hlead⟩, rfl, hacked, happ, ?_⟩
  intro hfresh
  have hle := hfresh w Relation.ReflTransGen.refl 0 _ hacked
  dsimp only at hle
  omega

end GammaFlow.Raft
