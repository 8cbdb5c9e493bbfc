import GammaFlow.Raft.CommitRule
import GammaFlow.Raft.Lockstep
import GammaFlow.Raft.Majorities
import GammaFlow.Raft.NextIndex
import GammaFlow.Raft.Redirect

/-!
# What a majority can do by itself

Whatever has happened to a cluster, a majority of its members can commit, apply and
acknowledge a new command, with no step and no message of anyone else
(`majority_commits`), as long as one of them with the best log among them leads or has a
loop that is awake, and its log with the command fits one request. So nothing that a lost
minority has or knows is ever needed. Both conditions are about the code as it is: a loop
can be asleep for good (`Raft.Asleep`), and requests are not cut into pieces.

Once they have a leader, it takes the command and brings the others up to date one by one,
as far as `nextIndex` has to go back for it (`reaches_caughtUp`). With the last of them the
command is committed, because it is of the leader's own term.
-/

namespace GammaFlow.Raft

open GammaFlow.Storage

variable {ω : Type} [Journal ω] {cfg : Config ω} {w w' : Cluster ω} {s : Driven ω} {limit : Nat}
  {Q : List NodeID}

/-! ## Counting acknowledgements -/

namespace Node

omit [Journal ω] in
/-- What a majority has up to the end of the log is committed, if it ends in the own term. -/
theorem advanceCommitIndexLocked_last {n : Node ω}
    (hle : ∀ p ∈ n.peers, n.matchIndex p ≤ n.log.lastIndex)
    (hown : n.log.termAt n.log.lastIndex = n.currentTerm)
    (hmaj : n.peers.length + 1 < 2 * n.replicas n.log.lastIndex) :
    n.log.lastIndex ≤ n.advanceCommitIndexLocked.commitIndex := by
  obtain ⟨c, hc, hcount, hadvance⟩ := n.exists_candidateCommit
  have hge := (hcount _).mpr hmaj
  have hc : c = n.log.lastIndex := by
    rcases List.mem_cons.mp hc with hc | hc
    · exact hc
    · obtain ⟨p, hp, rfl⟩ := List.mem_map.mp hc
      exact Nat.le_antisymm (hle p hp) hge
  rw [hadvance, hc]
  by_cases hlt : n.log.lastIndex > n.commitIndex
  · rw [if_pos ⟨hlt, (RaftLog.contains_iff _ _).mpr (by rw [RaftLog.lastIndex_eq]), hown⟩]
  · rw [if_neg fun h => hlt h.1]; omega

/-- What a leader keeps, and what it gains from peers `ps` that have taken over its log. -/
structure Spread (ps : List NodeID) (n n' : Node ω) : Prop where
  log : n'.log = n.log
  term : n'.currentTerm = n.currentTerm
  state : n'.state = n.state
  peers : n'.peers = n.peers
  next : ∀ q, q ∉ ps → n'.nextIndex q = n.nextIndex q
  grows : ∀ q, n.matchIndex q ≤ n'.matchIndex q
  counted : ∀ p ∈ ps, n.log.lastIndex ≤ n'.matchIndex p
  commits : ps ≠ [] → (∀ p ∈ n'.peers, n'.matchIndex p ≤ n'.log.lastIndex) →
    n'.log.termAt n'.log.lastIndex = n'.currentTerm →
    n'.peers.length + 1 < 2 * n'.replicas n'.log.lastIndex → n'.log.lastIndex ≤ n'.commitIndex

omit [Journal ω] in
/-- An acknowledgement is counted before the commit index is looked at. -/
theorem ackedLocked_counts (n : Node ω) (p : NodeID) (k : Nat) : ∃ next counts,
    n.ackedLocked p (k + 1) =
      ({ n with nextIndex := next, matchIndex := counts } : Node ω).advanceCommitIndexLocked ∧
    (∀ q, q ≠ p → next q = n.nextIndex q) ∧ (∀ q, n.matchIndex q ≤ counts q) ∧ k ≤ counts p := by
  unfold ackedLocked
  dsimp only
  rw [Nat.add_sub_cancel]
  generalize hn₁ : (if k + 1 > n.nextIndex p then
    ({ n with nextIndex := fun q => if q = p then k + 1 else n.nextIndex q } : Node ω) else n) = n₁
  have h₁ : ∃ next, n₁ = { n with nextIndex := next } ∧
      ∀ q, q ≠ p → next q = n.nextIndex q := by
    rw [← hn₁]
    split
    · exact ⟨_, rfl, fun q hq => if_neg hq⟩
    · exact ⟨n.nextIndex, rfl, fun _ _ => rfl⟩
  obtain ⟨next, rfl, hnext⟩ := h₁
  split
  · rename_i hk
    refine ⟨next, _, rfl, hnext, ?_, ?_⟩
    · intro q
      dsimp only at hk ⊢
      split
      · rename_i hq; rw [hq]; omega
      · exact Nat.le_refl _
    · dsimp only; rw [if_pos rfl]
  · rename_i hk
    exact ⟨next, n.matchIndex, rfl, hnext, fun _ => Nat.le_refl _, Nat.le_of_not_lt hk⟩

omit [Journal ω] in
theorem spread_ackedLocked (n : Node ω) (p : NodeID) :
    Spread [p] n (n.ackedLocked p (n.log.lastIndex + 1)) := by
  obtain ⟨next, counts, hacked, hnext, hgrows, hp⟩ := n.ackedLocked_counts p n.log.lastIndex
  obtain ⟨c, _, hc⟩ := ({ n with
    nextIndex := next, matchIndex := counts } : Node ω).advanceCommitIndexLocked_eq
  have hlast := advanceCommitIndexLocked_last
    (n := { n with nextIndex := next, matchIndex := counts })
  rw [hc] at hlast
  rw [hacked, hc]
  refine ⟨rfl, rfl, rfl, rfl, ?_, hgrows, ?_, fun _ => hlast⟩
  · intro q hq
    exact hnext q (List.ne_of_not_mem_cons hq)
  · intro q hq
    rw [List.mem_singleton.mp hq]; exact hp

omit [Journal ω] in
/-- It does not matter where `nextIndex` of the peer was before. -/
theorem Spread.of_next {n n' : Node ω} {next : NodeID → Nat} {p : NodeID}
    (h : Spread [p] { n with nextIndex := next } n')
    (hnext : ∀ q, q ≠ p → next q = n.nextIndex q) : Spread [p] n n' :=
  ⟨h.log, h.term, h.state, h.peers,
    fun q hq => (h.next q hq).trans (hnext q (List.ne_of_not_mem_cons hq)),
    h.grows, h.counted, h.commits⟩

omit [Journal ω] in
theorem Spread.cons {n n₁ n₂ : Node ω} {p : NodeID} {ps : List NodeID} (h₁ : Spread [p] n n₁)
    (h₂ : Spread ps n₁ n₂) (hps : ps ≠ []) : Spread (p :: ps) n n₂ where
  log := h₂.log.trans h₁.log
  term := h₂.term.trans h₁.term
  state := h₂.state.trans h₁.state
  peers := h₂.peers.trans h₁.peers
  next q hq := by
    rw [h₂.next q (List.not_mem_of_not_mem_cons hq), h₁.next q]
    simpa using List.ne_of_not_mem_cons hq
  grows q := Nat.le_trans (h₁.grows q) (h₂.grows q)
  counted q hq := by
    rcases List.mem_cons.mp hq with rfl | hq
    · exact Nat.le_trans (h₁.counted q (List.mem_singleton_self q)) (h₂.grows q)
    · rw [← h₁.log]; exact h₂.counted q hq
  commits _ := h₂.commits hps

end Node

/-! ## Rollback in the cluster -/

theorem Exchange.round_refused {p : NodeID} {s : Exchange ω} (hno : (s.round p).2.success = false) :
    (s.round p).1.leader = { s.leader with
      nextIndex := fun q =>
        if q = p then s.leader.conflictNext p (s.round p).2 else s.leader.nextIndex q } := by
  rw [← Node.handleConflictLocked_eq]
  exact if_neg fun hyes => absurd (hno.symm.trans hyes) (by simp)

/-- One refusal less. -/
theorem RollsBack.tail {p : NodeID} {s : Exchange ω} {r : Nat} (h : RollsBack p s (r + 1)) :
    RollsBack p (s.round p).1 r := by
  have hlog : (s.round p).1.leader.log = s.leader.log := by
    have hno : (s.round p).2.success = false := h.refused 0 (by omega)
    rw [Exchange.round_refused hno]
  refine ⟨fun k hk => h.refused (k + 1) (by omega), fun k hk => h.next (k + 1) (by omega), ?_,
    h.accepted, ?_⟩
  · intro j k hjk hk
    exact h.conflict (j + 1) (k + 1) (by omega) (by omega)
  · rw [hlog]; exact h.agrees

/-- The last entry that a leader sends is the last one it has. -/
theorem last_of_request {m p : NodeID} (hw : Cluster.Reachable cfg w)
    (hl : (w.nodes m).state = .leader) (hp : p ∈ (w.nodes m).peers)
    (hnext : (w.nodes m).nextIndex p ≤ (w.nodes m).log.lastIndex) :
    ∃ last, ((w.exchange m p).request p).entries.getLast? = some last ∧
      last.index = (w.nodes m).log.lastIndex := by
  have hpos := (HasLed.now hw hl).next_pos p hp
  have hents : ((w.exchange m p).request p).entries =
      (w.nodes m).log.body.drop ((w.nodes m).nextIndex p - 1) := RaftLog.entriesFrom_eq _ hpos
  rw [RaftLog.lastIndex_eq] at hnext ⊢
  rw [hents, List.getLast?_drop, if_neg (by omega), List.getLast?_eq_getElem?,
    List.getElem?_eq_getElem (by omega)]
  refine ⟨_, rfl, entry_index hw m (k := (w.nodes m).log.body.length) ?_⟩
  rw [RaftLog.getElem?_entries _ (by omega), List.getElem?_eq_getElem (by omega)]

/-- One round of the rollback, by the goroutine that replicates to `p`. -/
theorem reaches_round {m p : NodeID} (hw : Cluster.Reachable cfg w) (hQ : ∀ i ∈ Q, i ∈ cfg.ids)
    (h : Leads Q m w) (hfits : OneRequest limit m (w.nodes m).log) (hp : p ∈ Q) (hpm : p ≠ m)
    (hnext : (w.nodes m).nextIndex p ≤ (w.nodes m).log.lastIndex) :
    ∃ w', Reaches cfg limit Q w w' ∧ (∀ i, i ≠ m → i ≠ p → w'.nodes i = w.nodes i) ∧
      w'.nodes p = ((w.exchange m p).round p).1.follower ∧
      (w'.nodes p).currentTerm = (w.nodes m).currentTerm ∧
      w'.nodes m = if ((w.exchange m p).round p).2.success then
          (w.nodes m).ackedLocked p ((w.nodes m).log.lastIndex + 1)
        else ((w.exchange m p).round p).1.leader := by
  have hid := hQ m h.mem
  have hpeer := mem_peers_reachable hw hid (hQ p hp) hpm
  obtain ⟨last, hlast, hindex⟩ := last_of_request hw h.leader hpeer hnext
  have hsome : ((w.exchange m p).request p).entries ≠ [] := by
    intro hnil
    rw [hnil] at hlast
    simp at hlast
  obtain ⟨w', hr, hnp, hnm, hothers⟩ : ∃ w', Reaches cfg limit Q w w' ∧ _ :=
    reaches_replicate hw hid h.mem hp (Ne.symm hpm) h.leader hpeer hfits hsome
  obtain ⟨_, _, _, _, _, _, hafter⟩ := (w.nodes p).handleAppendEntries_eq
    ((w.exchange m p).request p) (Nat.not_lt.mpr (h.terms p hp))
  have hpterm : ((w.nodes p).handleAppendEntries ((w.exchange m p).request p)).1.currentTerm =
      (w.nodes m).currentTerm := by rw [hafter]; rfl
  have hreply := (w.nodes p).handleAppendEntries_reply_term ((w.exchange m p).request p)
  rw [hpterm] at hreply
  refine ⟨w', hr, hothers, hnp, by rw [hnp]; exact hpterm, ?_⟩
  have hround : ((w.exchange m p).round p).2 =
      ((w.nodes p).handleAppendEntries ((w.exchange m p).request p)).2 := rfl
  rw [hnm, Node.handleAppendReply, if_neg (by simp [h.leader]), if_neg (by omega), hlast, hround]
  split
  · rw [← hindex]
  · rename_i hno
    exact (if_neg hno).symm

omit [Journal ω] in
theorem Leads.of_nodes {m p : NodeID} (h : Leads Q m w)
    (hstate : (w'.nodes m).state = (w.nodes m).state)
    (hterm : (w'.nodes m).currentTerm = (w.nodes m).currentTerm)
    (hp : (w'.nodes p).currentTerm = (w.nodes m).currentTerm)
    (hothers : ∀ i, i ≠ m → i ≠ p → w'.nodes i = w.nodes i) : Leads Q m w' := by
  refine ⟨h.mem, hstate.trans h.leader, ?_⟩
  intro q hq
  by_cases hqm : q = m
  · rw [hqm]
  by_cases hqp : q = p
  · rw [hqp, hp, hterm]
  · rw [hothers q hqm hqp, hterm]; exact h.terms q hq

/-- A follower is brought up to date, after as many refusals as it takes. -/
theorem reaches_caughtUp {m p : NodeID} (hQ : ∀ i ∈ Q, i ∈ cfg.ids) (hp : p ∈ Q) (hpm : p ≠ m) :
    ∀ (r : Nat) (w : Cluster ω), Cluster.Reachable cfg w → Leads Q m w →
      OneRequest limit m (w.nodes m).log → (w.nodes m).nextIndex p ≤ (w.nodes m).log.lastIndex →
      RollsBack p (w.exchange m p) r →
      ∃ w', Reaches cfg limit Q w w' ∧ Leads Q m w' ∧ (w.nodes m).Spread [p] (w'.nodes m) := by
  intro r
  induction r with
  | zero =>
      intro w hw h hfits hnext hroll
      obtain ⟨w', hr, hothers, _, hpterm, hnm⟩ : ∃ w', Reaches cfg limit Q w w' ∧ _ :=
        reaches_round hw hQ h hfits hp hpm hnext
      have hyes : ((w.exchange m p).round p).2.success = true := hroll.accepted
      rw [if_pos hyes] at hnm
      have hspread := (w.nodes m).spread_ackedLocked p
      rw [← hnm] at hspread
      exact ⟨w', hr, h.of_nodes hspread.state hspread.term hpterm hothers, hspread⟩
  | succ r ih =>
      intro w hw h hfits hnext hroll
      obtain ⟨w₁, hr₁, hothers, hnp, hpterm, hnm⟩ : ∃ w₁, Reaches cfg limit Q w w₁ ∧ _ :=
        reaches_round hw hQ h hfits hp hpm hnext
      have hno : ((w.exchange m p).round p).2.success = false := hroll.refused 0 (by omega)
      rw [if_neg (by rw [hno]; simp)] at hnm
      have hexchange : w₁.exchange m p = ((w.exchange m p).round p).1 := by
        rw [Cluster.exchange, hnm, hnp]
      have hfall : (w₁.nodes m).nextIndex p < (w.nodes m).nextIndex p := by
        rw [hnm]; exact (hroll.next 0 (by omega)).2
      rw [Exchange.round_refused hno] at hnm
      have h₁ : Leads Q m w₁ := h.of_nodes (by rw [hnm]; rfl) (by rw [hnm]; rfl) hpterm hothers
      have hlog : (w₁.nodes m).log = (w.nodes m).log := by rw [hnm]; rfl
      obtain ⟨w', hr, h', hspread⟩ := ih w₁ (hr₁.reachable hw) h₁ (hlog ▸ hfits) (by rw [hlog]; omega)
        (by rw [hexchange]; exact hroll.tail)
      rw [hnm] at hspread
      exact ⟨w', hr₁.trans hr, h', hspread.of_next fun q hq => if_neg hq⟩

/-- The same for one after the other. -/
theorem reaches_spread {m : NodeID} (hQ : ∀ i ∈ Q, i ∈ cfg.ids) : ∀ (ps : List NodeID)
    (w : Cluster ω), Cluster.Reachable cfg w → Leads Q m w → OneRequest limit m (w.nodes m).log →
      ps.Nodup → ps ≠ [] →
      (∀ p ∈ ps, p ∈ Q ∧ p ≠ m ∧ (w.nodes m).nextIndex p ≤ (w.nodes m).log.lastIndex) →
      ∃ w', Reaches cfg limit Q w w' ∧ Leads Q m w' ∧ (w.nodes m).Spread ps (w'.nodes m) := by
  intro ps
  induction ps with
  | nil => intro _ _ _ _ _ hne; exact absurd rfl hne
  | cons p ps ih =>
      intro w hw h hfits hnd _ hps
      obtain ⟨hp, hnd⟩ := List.nodup_cons.mp hnd
      obtain ⟨hpQ, hpm, hnext⟩ := hps p List.mem_cons_self
      have hpeer := mem_peers_reachable hw (hQ m h.mem) (hQ p hpQ) hpm
      obtain ⟨r, _, hroll⟩ := rollsBack_reachable hw h.leader hpeer (h.terms p hpQ)
        ((inRange_reachable hw).next m h.leader p hpeer)
      obtain ⟨w₁, hr₁, h₁, hspread₁⟩ := reaches_caughtUp hQ hpQ hpm r w hw h hfits hnext hroll
      cases ps with
      | nil => exact ⟨w₁, hr₁, h₁, hspread₁⟩
      | cons q ps =>
          obtain ⟨w', hr, h', hspread⟩ := ih w₁ (hr₁.reachable hw) h₁ (hspread₁.log ▸ hfits) hnd
            (List.cons_ne_nil q ps) (by
            intro q hq
            obtain ⟨hqQ, hqm, hnext⟩ := hps q (List.mem_cons_of_mem _ hq)
            refine ⟨hqQ, hqm, ?_⟩
            rw [hspread₁.next q (by rw [List.mem_singleton]; exact fun heq => hp (heq ▸ hq)),
              hspread₁.log]
            exact hnext)
          exact ⟨w', hr₁.trans hr, h', hspread₁.cons hspread (List.cons_ne_nil q ps)⟩

/-- Once all of a majority have the leader's log, and it ends in its own term, it is committed. -/
theorem commits_of_spread {m : NodeID} {n : Node ω} (hw : Cluster.Reachable cfg w)
    (hQ : Majority cfg Q) (h : Leads Q m w) (hspread : n.Spread (Q.erase m) (w.nodes m))
    (hown : (w.nodes m).log.termAt (w.nodes m).log.lastIndex = (w.nodes m).currentTerm) :
    (w.nodes m).log.lastIndex ≤ (w.nodes m).commitIndex := by
  have hid := hQ.members m h.mem
  refine hspread.commits (hQ.others h.mem) (inOrder_reachable hw h.leader).matched hown ?_
  -- the members of `Q` are counted among the peers
  have hsub : (Q.erase m).Subperm (w.nodes m).peers := by
    refine List.subperm_of_subset (hQ.nodup.erase m) ?_
    intro p hp
    obtain ⟨hpm, hp⟩ := (List.Nodup.mem_erase_iff hQ.nodup).mp hp
    exact mem_peers_reachable hw hid (hQ.members p hp) hpm
  have hall : (Q.erase m).countP (fun p =>
      decide ((w.nodes m).log.lastIndex ≤ (w.nodes m).matchIndex p)) = (Q.erase m).length := by
    refine List.countP_eq_length.mpr fun p hp => ?_
    rw [decide_eq_true_iff, hspread.log]
    exact hspread.counted p hp
  have hcount := hsub.countP_le fun p =>
    decide ((w.nodes m).log.lastIndex ≤ (w.nodes m).matchIndex p)
  rw [hall, List.length_erase_of_mem h.mem] at hcount
  have hlen := cfg.length_peers hid
  have hmore := hQ.more
  rw [← peers_reachable hw m] at hlen
  unfold Node.replicas
  rw [List.countP_cons, List.countP_map, if_pos (by simp), Function.comp_def]
  omega

/-! ## Commands -/

/-- What the apply loop has in hand is sent, and `lastApplied` set. -/
theorem reaches_flushed {m : NodeID} (hm : m ∈ Q) {c : Nat} : ∀ (es : List LogEntry)
    (w : Cluster ω), w.applying m = some (es, c) → ∃ w', Reaches cfg limit Q w w' ∧
      w'.nodes m = { w.nodes m with lastApplied := c } ∧ w'.applying m = none := by
  intro es
  induction es with
  | nil =>
      intro w h
      let w' : Cluster ω := { w.setNode m { w.nodes m with lastApplied := c } with
        applying := Function.update w.applying m none }
      have hs : w.act cfg (.finishApply m) = some w' := by rw [Cluster.act, h]
      exact ⟨w', .step (.finishApply m) trivial hm hs rfl rfl, setNode_self _ _ _, Function.update_self _ _ _⟩
  | cons e es ih =>
      intro w h
      let w₁ : Cluster ω := { w with
        applying := Function.update w.applying m (some (es, c))
        applyCh := Function.update w.applyCh m (w.applyCh m ++ [e]) }
      have hs : w.act cfg (.sendApply m) = some w₁ := by rw [Cluster.act, h]
      have hr₁ : Reaches cfg limit Q w w₁ := .step (.sendApply m) trivial hm hs rfl rfl
      obtain ⟨w', hr, hn, hnone⟩ := ih w₁ (Function.update_self _ _ _)
      exact ⟨w', hr₁.trans hr, hn, hnone⟩

/-- Everything committed is applied. -/
theorem reaches_applied {m : NodeID} (w : Cluster ω) (hm : m ∈ Q) : ∃ w' c, Reaches cfg limit Q w w' ∧
    w'.nodes m = { w.nodes m with lastApplied := c } ∧ (w.nodes m).commitIndex ≤ c := by
  -- first whatever is under way
  obtain ⟨w₁, c₁, hr₁, hn₁, hnone⟩ : ∃ w₁ c, Reaches cfg limit Q w w₁ ∧
      w₁.nodes m = { w.nodes m with lastApplied := c } ∧ w₁.applying m = none := by
    cases h : w.applying m with
    | none => exact ⟨w, _, .refl w, rfl, h⟩
    | some task =>
        obtain ⟨es, c⟩ := task
        obtain ⟨w₁, hr₁, hn₁, hnone⟩ : ∃ w₁, Reaches cfg limit Q w w₁ ∧ _ := reaches_flushed hm es w h
        exact ⟨w₁, c, hr₁, hn₁, hnone⟩
  by_cases hdone : (w.nodes m).commitIndex ≤ c₁
  · exact ⟨w₁, c₁, hr₁, hn₁, hdone⟩
  let task := ((w₁.nodes m).log.entriesBetween ((w₁.nodes m).lastApplied + 1)
    (w₁.nodes m).commitIndex, (w₁.nodes m).commitIndex)
  let w₂ : Cluster ω := { w₁ with applying := Function.update w₁.applying m (some task) }
  have hs : w₁.act cfg (.collectApply m) = some w₂ := by
    have hcollect : (w₁.nodes m).collectApply = some task := if_neg (by rw [hn₁]; exact hdone)
    rw [Cluster.act, hnone]
    dsimp only
    rw [hcollect]
    rfl
  obtain ⟨w₃, hr₃, hn₃, _⟩ : ∃ w₃, Reaches cfg limit Q w₂ w₃ ∧ _ :=
    reaches_flushed hm _ w₂ (Function.update_self _ _ _)
  have hr₂ : Reaches cfg limit Q w₁ w₂ := .step (.collectApply m) trivial hm hs rfl rfl
  have hn : w₃.nodes m = { w₁.nodes m with lastApplied := (w₁.nodes m).commitIndex } := hn₃
  rw [hn₁] at hn
  exact ⟨w₃, _, (hr₁.trans hr₂).trans hr₃, hn, Nat.le_refl _⟩

theorem Node.submitCommand_ok (h : NeverFails ω) {n : Node ω} (hl : n.state = .leader)
    (command : Command) :
    (n.submitCommand command).2 = .appended (n.log.lastIndex + 1) n.currentTerm := by
  unfold submitCommand
  rw [if_neg (by simp [hl])]
  dsimp only
  rw [if_pos (persist_ok h _ _)]

theorem termAt_append_last (l : RaftLog) (e : LogEntry) :
    (l.append [e]).termAt (l.append [e]).lastIndex = e.term := by
  rw [RaftLog.termAt_eq, RaftLog.lastIndex_eq, RaftLog.body_append]
  simp [RaftLog.termIn]

/-- A leader takes a command. -/
theorem reaches_submitted {m : NodeID} (hf : NeverFails ω) (hQ : ∀ i ∈ Q, i ∈ cfg.ids)
    (h : Leads Q m w) (command : Command) : ∃ w' d, RunUndriven cfg limit Q w w' ∧
      w'.submits = w.submits ++
        [⟨m, command, (w.nodes m).log.lastIndex + 1, (w.nodes m).currentTerm⟩] ∧
      w'.returned = w.returned ∧ Leads Q m w' ∧
      w'.nodes m = { w.nodes m with
        log := (w.nodes m).log.append
          [⟨(w.nodes m).currentTerm, (w.nodes m).log.lastIndex + 1, command⟩]
        wal := d } := by
  obtain ⟨d, hn, _⟩ := (w.nodes m).submitCommand_eq h.leader command
  have hres := Node.submitCommand_ok hf h.leader command
  let w' : Cluster ω := { w.setNode m ((w.nodes m).submitCommand command).1 with
    submits := w.submits ++
      [⟨m, command, (w.nodes m).log.lastIndex + 1, (w.nodes m).currentTerm⟩] }
  have hs : w.act cfg (.submitCommand m command) = some w' := by
    rw [Cluster.act, if_pos (hQ m h.mem)]
    dsimp only
    rw [hres]
  have hnode : w'.nodes m = _ := (setNode_self _ _ _).trans hn
  refine ⟨w', d, .single (.submitCommand m command) trivial h.mem hs, rfl, rfl, ?_, hnode⟩
  refine ⟨h.mem, by rw [hnode]; exact h.leader, ?_⟩
  intro p hp
  rw [hnode]
  by_cases hpm : p = m
  · rw [hpm, hnode]
  · rw [show w'.nodes p = w.nodes p from setNode_ne _ _ _ hpm]
    exact h.terms p hp

/-- What a leader has appended in its term can be committed. -/
theorem reaches_committed {m : NodeID} (hw : Cluster.Reachable cfg w) (hQ : Majority cfg Q)
    (h : Leads Q m w) (hfits : OneRequest limit m (w.nodes m).log)
    (hown : (w.nodes m).log.termAt (w.nodes m).log.lastIndex = (w.nodes m).currentTerm)
    (hnext : ∀ p ∈ (w.nodes m).peers, (w.nodes m).nextIndex p ≤ (w.nodes m).log.lastIndex) :
    ∃ w', Reaches cfg limit Q w w' ∧ Leads Q m w' ∧
      (w'.nodes m).currentTerm = (w.nodes m).currentTerm ∧
      (w.nodes m).log.lastIndex ≤ (w'.nodes m).commitIndex := by
  have hps : ∀ p ∈ Q.erase m, p ∈ Q ∧ p ≠ m ∧
      (w.nodes m).nextIndex p ≤ (w.nodes m).log.lastIndex := by
    intro p hp
    obtain ⟨hpm, hp⟩ := (List.Nodup.mem_erase_iff hQ.nodup).mp hp
    exact ⟨hp, hpm, hnext p (mem_peers_reachable hw (hQ.members m h.mem) (hQ.members p hp) hpm)⟩
  obtain ⟨w', hr, h', hspread⟩ := reaches_spread hQ.members (Q.erase m) w hw h hfits
    (hQ.nodup.erase m) (hQ.others h.mem) hps
  have hcommit := commits_of_spread (hr.reachable hw) hQ h' hspread
    (by rw [hspread.log, hspread.term]; exact hown)
  rw [hspread.log] at hcommit
  exact ⟨w', hr, h', hspread.term, hcommit⟩

/-- What is committed under the leader that took it can be acknowledged. -/
theorem reaches_acked {m : NodeID} {k : Nat} {c : Submit} (h : Leads Q m w)
    (hk : w.submits[k]? = some c) (hnode : c.node = m) (hterm : c.term = (w.nodes m).currentTerm)
    (hcommit : c.index ≤ (w.nodes m).commitIndex) (hret : ∀ r ∈ w.returned, r.1 ≠ k) :
    ∃ w', RunUndriven cfg limit Q w w' ∧ w'.submits = w.submits ∧
      w'.returned = w.returned ++ [(k, .success)] := by
  obtain ⟨w₁, applied, hr, hn, hle⟩ : ∃ w₁ applied, Reaches cfg limit Q w w₁ ∧ _ :=
    reaches_applied w h.mem
  have hk₁ : w₁.submits[k]? = some c := by rw [hr.submits]; exact hk
  have hdone : (w₁.nodes c.node).pollSubmit c.index c.term = .done := by
    rw [hnode, hn, hterm, Node.pollSubmit, if_neg (by simp [h.leader])]
    exact if_pos (Nat.le_trans hcommit hle)
  let w₂ : Cluster ω := { w₁ with returned := w₁.returned ++ [(k, .success)] }
  have hpoll : w₁.act cfg (.pollSubmit k) = some w₂ := by
    have hno : ¬ ∃ r ∈ w₁.returned, r.1 = k := by
      rw [hr.returned]
      rintro ⟨r, hr, heq⟩
      exact hret r hr heq
    rw [Cluster.act, hk₁]
    dsimp only
    rw [if_neg hno, hdone]
  have hr₂ : RunUndriven cfg limit Q w₁ w₂ :=
    .single (.pollSubmit k) trivial ⟨c, hk₁, by rw [hnode]; exact h.mem⟩ hpoll
  exact ⟨w₂, hr.run.trans hr₂, hr.submits, congrArg (· ++ [(k, _)]) hr.returned⟩

/-- Whoever leads a majority can have a command committed by it, and acknowledge it. -/
theorem Leads.commits {m : NodeID} (hf : NeverFails ω) (hw : Cluster.Reachable cfg w)
    (hQ : Majority cfg Q) (h : Leads Q m w) (command : Command)
    (hfits : maxRequestSize m ((w.nodes m).log.body.map LogEntry.command ++ [command]) ≤ limit) :
    ∃ w' c, RunUndriven cfg limit Q w w' ∧ c.node = m ∧ c.command = command ∧
      w'.submits = w.submits ++ [c] ∧
      w'.returned = w.returned ++ [(w.submits.length, .success)] := by
  obtain ⟨w₁, d, hr₁, hsub₁, hret₁, h₁, hn₁⟩ : ∃ w₁ d, RunUndriven cfg limit Q w w₁ ∧ _ :=
    reaches_submitted hf hQ.members h command
  have hw₁ := hr₁.reachable hw
  have hlast : (w₁.nodes m).log.lastIndex = (w.nodes m).log.lastIndex + 1 := by
    rw [hn₁]; simp
  have hfits₁ : OneRequest limit m (w₁.nodes m).log := by
    rw [hn₁, OneRequest, RaftLog.body_append, List.map_append]
    exact hfits
  -- `nextIndex` was in range before, so the new entry is among what is sent
  obtain ⟨w₂, hr₂, h₂, hterm₂, hcommit⟩ := reaches_committed hw₁ hQ h₁ hfits₁
    (by rw [hn₁]; exact termAt_append_last _ _)
    (by
      intro p hp
      rw [hlast, RaftLog.lastIndex_eq]
      rw [hn₁] at hp ⊢
      exact (inRange_reachable hw).next m h.leader p hp)
  let c : Submit := ⟨m, command, (w.nodes m).log.lastIndex + 1, (w.nodes m).currentTerm⟩
  have hsub₂ : w₂.submits = w.submits ++ [c] := by rw [hr₂.submits, hsub₁]
  have hret₂ : w₂.returned = w.returned := by rw [hr₂.returned, hret₁]
  have hk : w₂.submits[w.submits.length]? = some c := by
    rw [hsub₂]; exact List.getElem?_concat_length
  obtain ⟨w₃, hr₃, hsub₃, hret₃⟩ := reaches_acked h₂ hk rfl (by rw [hterm₂, hn₁])
    (by rw [hlast] at hcommit; exact hcommit)
    (by
      rw [hret₂]
      intro r hr
      exact Nat.ne_of_lt (returned_lt hw r hr))
  exact ⟨w₃, c, (hr₁.trans hr₂.run).trans hr₃, rfl, rfl, hsub₃.trans hsub₂, by rw [hret₃, hret₂]⟩

/--
**A majority can commit**, whatever has happened before. From every reachable state of a
cluster of two or more whose logs can be written, for every majority `Q` of its members and
every command: let `m` be a member of `Q` whose log is as good as that of any other. If `m`
leads them or its loop is awake, and its log with the command fits one request, then `Q` has
a run of its own, with no step of and no message from or to anyone else, in which the command
is submitted at `m`, no other one is, and its call returns success and no other call returns.
-/
theorem majority_commits (hf : NeverFails ω) (hs : Driven.Reachable cfg s) (hQ : Majority cfg Q)
    {m : NodeID} (hm : m ∈ Q) (hable : s.Awake m ∨ Leads Q m s.cluster)
    (hbest : ∀ p ∈ Q, (s.cluster.nodes p).isLogUpToDate (s.cluster.nodes m).log.lastTerm
      (s.cluster.nodes m).log.lastIndex = true)
    (command : Command)
    (hfits : maxRequestSize m
      ((s.cluster.nodes m).log.body.map LogEntry.command ++ [command]) ≤ limit) :
    ∃ s' c, s.RunAmong cfg limit Q s' ∧ c.node = m ∧ c.command = command ∧
      s'.cluster.submits = s.cluster.submits ++ [c] ∧
      s'.cluster.returned = s.cluster.returned ++ [(s.cluster.submits.length, .success)] := by
  obtain ⟨w, h⟩ := exists_tracks hs
  obtain ⟨rts, hrts⟩ := h.timers
  rw [hrts] at hable hbest hfits
  have hable : s.Awake m ∨ Leads Q m w :=
    hable.imp_right fun hl => ⟨hl.mem, hl.leader, hl.terms⟩
  have hone : OneRequest limit m (w.nodes m).log :=
    (maxRequestSize_mono m (List.sublist_append_left _ _)).trans hfits
  obtain ⟨s₁, w₁, hr₁, h₁, hleads, hlog⟩ := exists_leads h hQ hm hable hone hbest
  have hfits₁ : maxRequestSize m
      ((w₁.nodes m).log.body.map LogEntry.command ++ [command]) ≤ limit := by
    rw [hlog]; exact hfits
  obtain ⟨w', c, hr, hnode, hcommand, hsub, hret⟩ :=
    hleads.commits hf h₁.undriven hQ command hfits₁
  obtain ⟨s', hr', _, h'⟩ := h₁.run hr
  refine ⟨s', c, hr₁.run.trans hr', hnode, hcommand, ?_, ?_⟩
  · rw [h'.submits, hsub, ← h₁.submits, hr₁.submits]
  · rw [h'.returned, hret, ← h₁.returned, ← h₁.submits, hr₁.returned, hr₁.submits]

/-- The loop of `c` waits for its election timer; `b` is elected and acknowledges a command. -/
def acknowledgedByB : List DrivenEvent :=
  .tick "c" .choose :: callElection "b" ++
    (acknowledgeEvents.tail ++ [Event.pollSubmit 0]).map DrivenEvent.event

/--
Then `b` is lost, with the connections to it. Node `c`, which has the command, and `a`, which
has seen nothing, go on without it.
-/
theorem majority_commits_abc : ∃ s s' c,
    (Driven.init volatileABC).exec volatileABC acknowledgedByB = some s ∧
    (s.cluster.nodes "b").state = .leader ∧ s.cluster.returned = [(0, .success)] ∧
    (s.cluster.nodes "a").log.body = [] ∧
    s.RunAmong volatileABC defaultMaxReceiveSize ["a", "c"] s' ∧ c.node = "c" ∧
      c.command = [7] ∧ s'.cluster.submits = s.cluster.submits ++ [c] ∧
      s'.cluster.returned = s.cluster.returned ++ [(s.cluster.submits.length, .success)] := by
  obtain ⟨s, hx, ⟨hlead, hret, hbody⟩, ⟨hloop, htimer⟩, hbest, hfits⟩ :
      ∃ s ∈ (Driven.init volatileABC).exec volatileABC acknowledgedByB,
      ((s.cluster.nodes "b").state = .leader ∧ s.cluster.returned = [(0, .success)] ∧
        (s.cluster.nodes "a").log.body = []) ∧
      (s.loops "c" = .parked 0 ∧ (s.cluster.nodes "c").rt.timers[0]? = some .armed) ∧
      (∀ p ∈ ["a", "c"], (s.cluster.nodes p).isLogUpToDate (s.cluster.nodes "c").log.lastTerm
        (s.cluster.nodes "c").log.lastIndex = true) ∧
      maxRequestSize "c" ((s.cluster.nodes "c").log.body.map LogEntry.command ++ [[7]]) ≤
        defaultMaxReceiveSize := by
    decide +kernel
  have hawake : s.Awake "c" := by
    intro t ht
    obtain rfl := Loop.parked.inj (hloop.symm.trans ht)
    exact Or.inl htimer
  obtain ⟨s', c, h⟩ := majority_commits neverFails_wal (Execution.run_of_exec hx)
    ⟨by decide, by decide, by decide, by decide⟩ (List.mem_cons_of_mem _ List.mem_cons_self)
    (Or.inl hawake) hbest [7] hfits
  exact ⟨s, s', c, hx, hlead, hret, hbody, h⟩

end GammaFlow.Raft
