import GammaFlow.Raft.Safety

/-!
# The apply loop

`applyLoop` copies the committed entries it has not sent yet, sends them without the
lock, and then sets `lastApplied` to the commit index it remembered. The log and the
commit index may change in between. Since no committed entry is ever replaced and no
commit index exceeds its log, what is left to send is always what the log says: the
entries sent are the log up to some index.
-/

namespace GammaFlow.Raft

open GammaFlow.Storage

variable {ω : Type} [Journal ω] {cfg : Config ω} {w w' : Cluster ω} {ev : Event}

/-! ## Rounds of the loop -/

/-- Only the end of a round of the apply loop sets `lastApplied`. -/
theorem act_lastApplied (hs : w.act cfg ev = some w') (i : NodeID) :
    (w'.nodes i).lastApplied = (w.nodes i).lastApplied ∨ ev = .finishApply i := by
  rcases act_nodes hs i with heq | hst
  · rw [heq]; exact Or.inl rfl
  · generalize w'.nodes i = n' at hst ⊢
    cases hst with
    | startElection _ => exact Or.inl (Node.quiet_startElection _).lastApplied
    | requestVote _ c _ _ => exact Or.inl (Node.quiet_handleRequestVote _ _).lastApplied
    | voteReply _ c r _ _ => exact Or.inl (Node.quiet_handleVoteReply _ _ _ _).lastApplied
    | appendEntries _ c _ _ => exact Or.inl (Node.handleAppendEntries_frame _ _).2.2
    | appendReply _ c r _ _ => exact Or.inl (Node.quiet_handleAppendReply _ _ _ _ _).lastApplied
    | submitCommand command _ => exact Or.inl (Node.submitCommand_frame _ _).2.2
    | finishApply m _ => exact Or.inr rfl

/-- The four things a step can do with the entries of a round. -/
theorem act_applyCh (hs : w.act cfg ev = some w') (i : NodeID) :
    (w'.applyCh i = w.applyCh i ∧ w'.applying i = w.applying i ∧
        (w'.nodes i).lastApplied = (w.nodes i).lastApplied) ∨
    (∃ task, w.applying i = none ∧ (w.nodes i).collectApply = some task ∧
        w'.applying i = some task ∧ w'.applyCh i = w.applyCh i ∧ w'.nodes i = w.nodes i) ∨
    (∃ e es m, w.applying i = some (e :: es, m) ∧ w'.applying i = some (es, m) ∧
        w'.applyCh i = w.applyCh i ++ [e] ∧ w'.nodes i = w.nodes i) ∨
    (∃ m, w.applying i = some ([], m) ∧ w'.applying i = none ∧ w'.applyCh i = w.applyCh i ∧
        w'.nodes i = { w.nodes i with lastApplied := m }) := by
  have hla := act_lastApplied hs i
  cases acts_of_act hs with
  | collectApply j task hidle htask =>
      by_cases hij : i = j
      · subst hij
        exact Or.inr (Or.inl ⟨task, hidle, htask, Function.update_self _ _ _, rfl, rfl⟩)
      · exact Or.inl ⟨rfl, Function.update_of_ne hij _ _, rfl⟩
  | sendApply j e es m htask =>
      by_cases hij : i = j
      · subst hij
        exact Or.inr (Or.inr (Or.inl ⟨e, es, m, htask, Function.update_self _ _ _,
          Function.update_self _ _ _, rfl⟩))
      · exact Or.inl ⟨Function.update_of_ne hij _ _, Function.update_of_ne hij _ _, rfl⟩
  | finishApply j m htask =>
      by_cases hij : i = j
      · subst hij
        exact Or.inr (Or.inr (Or.inr ⟨m, htask, Function.update_self _ _ _, rfl,
          setNode_self w i _⟩))
      · exact Or.inl ⟨rfl, Function.update_of_ne hij _ _,
          congrArg Node.lastApplied (setNode_ne w j _ hij)⟩
  | _ => exact Or.inl ⟨rfl, rfl, hla.resolve_right (by simp)⟩

/-- What is applied, and what is about to be, is committed. -/
structure ApplyInv (w : Cluster ω) : Prop where
  applied : ∀ i, (w.nodes i).lastApplied ≤ (w.nodes i).commitIndex
  task : ∀ i es m, w.applying i = some (es, m) →
    (w.nodes i).lastApplied ≤ m ∧ m ≤ (w.nodes i).commitIndex

theorem applyInv_step (hw : Cluster.Reachable cfg w) (h : ApplyInv w)
    (hs : w.act cfg ev = some w') : ApplyInv w' := by
  have hmono := commitIndex_mono hw (Relation.ReflTransGen.single ⟨ev, hs⟩)
  refine ⟨?_, ?_⟩
  · intro i
    have hc := hmono i
    have happlied := h.applied i
    rcases act_applyCh hs i with ⟨_, _, hla⟩ | ⟨_, _, _, _, _, hn⟩ | ⟨_, _, _, _, _, _, hn⟩ |
      ⟨m, hold, _, _, hn⟩
    · omega
    · rw [hn]; exact happlied
    · rw [hn]; exact happlied
    · rw [hn]; exact (h.task i _ m hold).2
  · intro i es m hes
    have hc := hmono i
    rcases act_applyCh hs i with ⟨_, htask, hla⟩ | ⟨_, _, hcollect, htask, _, hn⟩ |
      ⟨_, _, _, hold, htask, _, hn⟩ | ⟨_, _, htask, _⟩
    · rw [htask] at hes
      have := h.task i es m hes
      omega
    · obtain rfl := Option.some.inj (htask.symm.trans hes)
      unfold Node.collectApply at hcollect
      split at hcollect
      · exact absurd hcollect (by simp)
      · obtain ⟨-, rfl⟩ := Prod.mk.inj (Option.some.inj hcollect)
        rw [hn]
        omega
    · obtain ⟨rfl, rfl⟩ := Prod.mk.inj (Option.some.inj (htask.symm.trans hes))
      rw [hn]
      exact h.task i _ _ hold
    · exact absurd (htask.symm.trans hes) (by simp)

theorem applyInv_reachable (hw : Cluster.Reachable cfg w) : ApplyInv w := by
  refine Execution.Run.invariant hw ?_ ?_
  · exact ⟨fun _ => Nat.le_refl _, fun i es m h => absurd h (by simp [Cluster.init])⟩
  · intro w₁ ev w₂ hr h hs
    exact applyInv_step hr h hs

/-- `lastApplied` never falls. -/
theorem lastApplied_mono (hw : Cluster.Reachable cfg w) (hr : Cluster.Run cfg w w') (i : NodeID) :
    (w.nodes i).lastApplied ≤ (w'.nodes i).lastApplied := by
  refine Execution.Run.invariant hr (Nat.le_refl _) ?_
  intro w₁ ev w₂ hr hle hs
  have hinv := applyInv_reachable (hw.trans hr)
  rcases act_applyCh hs i with ⟨_, _, hla⟩ | ⟨_, _, _, _, _, hn⟩ | ⟨_, _, _, _, _, _, hn⟩ |
    ⟨m, hold, _, _, hn⟩
  · rw [hla]; exact hle
  · rw [hn]; exact hle
  · rw [hn]; exact hle
  · rw [hn]
    exact Nat.le_trans hle (hinv.task i _ m hold).1

/-! ## What is sent -/

/-- What was sent, with what the round has still to send, is the log up to an index. -/
structure Sent (w : Cluster ω) (i : NodeID) : Prop where
  idle : w.applying i = none →
    w.applyCh i = (w.nodes i).log.body.take (w.nodes i).lastApplied
  busy : ∀ es m, w.applying i = some (es, m) →
    w.applyCh i ++ es = (w.nodes i).log.body.take m ∧
      (w.nodes i).lastApplied ≤ (w.applyCh i).length

theorem commitIndex_le (hw : Cluster.Reachable cfg w) (i : NodeID) :
    (w.nodes i).commitIndex ≤ (w.nodes i).log.body.length :=
  (committed_agree hw Relation.ReflTransGen.refl (Nat.le_refl _)
    (Nat.le_refl (w.nodes i).commitIndex)).2.1

/-- No step changes the log up to a committed index. -/
theorem take_of_committed (hw : Cluster.Reachable cfg w) (hr : Cluster.Run cfg w w') {i : NodeID}
    {k : Nat} (hk : k ≤ (w.nodes i).commitIndex) :
    (w'.nodes i).log.body.take k = (w.nodes i).log.body.take k :=
  (committed_agree hw hr hk (Nat.le_trans hk (commitIndex_mono hw hr i))).1.symm

theorem sent_step (hw : Cluster.Reachable cfg w) {i : NodeID} (h : Sent w i)
    (hs : w.act cfg ev = some w') : Sent w' i := by
  have hinv := applyInv_reachable hw
  have happlied := hinv.applied i
  have hkeep : ∀ k, k ≤ (w.nodes i).commitIndex →
      (w'.nodes i).log.body.take k = (w.nodes i).log.body.take k :=
    fun k hk => take_of_committed hw (Relation.ReflTransGen.single ⟨ev, hs⟩) hk
  rcases act_applyCh hs i with ⟨hch, htask, hla⟩ | ⟨task, hidle, hcollect, htask, hch, hn⟩ |
    ⟨e, es, m, hold, htask, hch, hn⟩ | ⟨m, hold, htask, hch, hn⟩
  · refine ⟨?_, ?_⟩
    · intro hidle
      rw [htask] at hidle
      rw [hch, hla, hkeep _ happlied]
      exact h.idle hidle
    · intro es m hbusy
      rw [htask] at hbusy
      rw [hch, hla, hkeep m (hinv.task i es m hbusy).2]
      exact h.busy es m hbusy
  · -- a round begins where the last one ended
    have hsent := h.idle hidle
    have hlen := commitIndex_le hw i
    refine ⟨fun h => absurd (htask.symm.trans h) (by simp), ?_⟩
    intro es m hbusy
    obtain rfl := Option.some.inj (htask.symm.trans hbusy)
    unfold Node.collectApply at hcollect
    split at hcollect
    · exact absurd hcollect (by simp)
    obtain ⟨rfl, rfl⟩ := Prod.mk.inj (Option.some.inj hcollect)
    rw [hch, hn, hsent, RaftLog.entriesBetween_eq _ (by omega) hlen, Nat.add_sub_cancel]
    refine ⟨?_, by rw [List.length_take]; omega⟩
    conv_rhs => rw [← List.take_append_drop (w.nodes i).lastApplied
      ((w.nodes i).log.body.take (w.nodes i).commitIndex)]
    rw [List.take_take, Nat.min_eq_left happlied]
  · refine ⟨fun h => absurd (htask.symm.trans h) (by simp), ?_⟩
    intro es' m' hbusy
    obtain ⟨rfl, rfl⟩ := Prod.mk.inj (Option.some.inj (htask.symm.trans hbusy))
    obtain ⟨hsent, hle⟩ := h.busy _ _ hold
    rw [hch, hn, List.append_assoc, List.length_append]
    exact ⟨hsent, by omega⟩
  · obtain ⟨hsent, _⟩ := h.busy _ _ hold
    rw [List.append_nil] at hsent
    refine ⟨?_, fun es' m' h => absurd (htask.symm.trans h) (by simp)⟩
    intro _
    rw [hch, hn]
    exact hsent

theorem sent_reachable (hw : Cluster.Reachable cfg w) (i : NodeID) : Sent w i := by
  refine Execution.Run.invariant hw ?_ ?_
  · exact ⟨fun _ => rfl, fun es m h => absurd h (by simp [Cluster.init])⟩
  · intro w₁ ev w₂ hr h hs
    exact sent_step hr h hs

/-- What was sent is the log up to an index. -/
theorem sent_take (hw : Cluster.Reachable cfg w) (i : NodeID) :
    ∃ k, w.applyCh i = (w.nodes i).log.body.take k ∧ (w.nodes i).lastApplied ≤ k ∧
      k ≤ (w.nodes i).commitIndex := by
  have hinv := applyInv_reachable hw
  have hsent := sent_reachable hw i
  have hlast := commitIndex_le hw i
  cases htask : w.applying i with
  | none => exact ⟨_, hsent.idle htask, Nat.le_refl _, hinv.applied i⟩
  | some task =>
      obtain ⟨es, m⟩ := task
      obtain ⟨heq, hle⟩ := hsent.busy es m htask
      have hm := (hinv.task i es m htask).2
      have hlen := congrArg List.length heq
      rw [List.length_append, List.length_take] at hlen
      refine ⟨(w.applyCh i).length, ?_, hle, by omega⟩
      have htake := congrArg (List.take (w.applyCh i).length) heq
      rw [List.take_left, List.take_take, Nat.min_eq_left (by omega)] at htake
      exact htake

/--
**In order, without gaps, exactly once.** In every reachable state the entries that a
node has sent on `applyCh` are the entries of its log from index `1` to some `k` with
`lastApplied ≤ k ≤ commitIndex ≤ LastIndex`. At every later moment its `commitIndex` and
`lastApplied` are not lower, and its log still has each entry sent at that entry's place.
-/
theorem applied_in_order (hw : Cluster.Reachable cfg w) (i : NodeID) :
    (∃ k, w.applyCh i = (w.nodes i).log.body.take k ∧ (w.nodes i).lastApplied ≤ k ∧
      k ≤ (w.nodes i).commitIndex ∧ (w.nodes i).commitIndex ≤ (w.nodes i).log.lastIndex) ∧
    (∀ w', Cluster.Run cfg w w' →
      (w.nodes i).commitIndex ≤ (w'.nodes i).commitIndex ∧
      (w.nodes i).lastApplied ≤ (w'.nodes i).lastApplied ∧
      ∀ (k : Nat) (e : LogEntry), (w.applyCh i)[k]? = some e →
        (w'.nodes i).log.entries[k + 1]? = some e) := by
  have hlast := commitIndex_le hw i
  obtain ⟨k, hk, hle, hcommit⟩ := sent_take hw i
  refine ⟨⟨k, hk, hle, hcommit, by rw [RaftLog.lastIndex_eq]; exact hlast⟩, ?_⟩
  intro w' hr
  refine ⟨commitIndex_mono hw hr i, lastApplied_mono hw hr i, ?_⟩
  intro j e he
  have hj : j < k := by
    have := (List.getElem?_eq_some_iff.mp he).1
    rw [hk, List.length_take] at this
    omega
  rw [hk, ← take_of_committed hw hr hcommit, List.getElem?_take_of_lt hj] at he
  rw [RaftLog.getElem?_entries _ (by omega)]
  exact he

/-- Node `b` has sent the entry it has committed and not yet said so. -/
theorem applied_in_order_abc : ∃ w, Cluster.Reachable volatileABC w ∧
    w.applyCh "b" = [⟨1, 1, [1]⟩] ∧ (w.nodes "b").lastApplied = 0 ∧
    ∀ w', Cluster.Run volatileABC w w' → (w'.nodes "b").log.entries[1]? = some ⟨1, 1, [1]⟩ := by
  obtain ⟨w, hw, h⟩ := Cluster.exists_run volatileABC (Cluster.init volatileABC)
    (replicateEvents ++ [.appendReply 0, .collectApply "b", .sendApply "b"])
    (fun w => w.applyCh "b" = [⟨1, 1, [1]⟩] ∧ (w.nodes "b").lastApplied = 0)
    (by decide +kernel)
  refine ⟨w, hw, h.1, h.2, ?_⟩
  intro w' hr
  exact ((applied_in_order hw "b").2 w' hr).2.2 0 ⟨1, 1, [1]⟩ (by rw [h.1]; rfl)

end GammaFlow.Raft
