import GammaFlow.Raft.Restart

/-!
# Leader hints

A node that does not lead sends its clients to the node it takes for the leader. It
takes someone for the leader when it wins an election or follows a request of the
leader, and forgets when it starts an election. Each of these sets term and hint
together.

A vote request or a reply with a later term sets the term only, so the hint of an
earlier term stays. In runs in which that happens to nodes without a hint only, a
hint always names a node that was elected in the term that the node is in
(`leader_hints`).
-/

namespace GammaFlow.Raft

open GammaFlow.Storage

/-! ## Restarts, whatever they bring back -/

/-- An event, or the restart of a node with any log and any replay of it. -/
inductive Occurrence (ω : Type) where
  | event (ev : Event)
  | restart (i : NodeID) (wal : Option ω) (r : Replayed)
  deriving DecidableEq, Repr

variable {ω : Type}

/-- A node that has just come up. -/
def Config.reborn (cfg : Config ω) (i : NodeID) (wal : Option ω) (r : Replayed) : Node ω :=
  ((Node.newNode i (cfg.peers i) wal).replay r).start

variable [Journal ω]

def Cluster.occur (cfg : Config ω) (w : Cluster ω) : Occurrence ω → Option (Cluster ω)
  | .event ev => w.act cfg ev
  | .restart i wal r =>
      if i ∈ cfg.ids then
        some { w.setNode i (cfg.reborn i wal r) with applying := Function.update w.applying i none }
      else none

/-- A crash and the restart from what was written are one of these occurrences. -/
theorem occur_of_undergo {rotates : List (List WalRecord) → WalRecord → Bool}
    {cfg : Config (Wal rotates)} {w w' : Cluster (Wal rotates)} {h : Happening}
    (hs : w.undergo cfg h = some w') : ∃ t, w.occur cfg t = some w' := by
  cases h with
  | event ev => exact ⟨.event ev, hs⟩
  | crash i during appends =>
      rw [Cluster.undergo] at hs
      split at hs
      · exact absurd hs (by simp)
      · rename_i d _
        let left := Journal.appendAll d (w.lastWrites cfg i during appends)
        exact ⟨.restart i (some left) (replay left.files), hs⟩

omit [Journal ω] in
theorem reborn_eq (cfg : Config ω) (i : NodeID) (wal : Option ω) (r : Replayed) : ∃ log rt,
    cfg.reborn i wal r = { Node.newNode i (cfg.peers i) wal with
      currentTerm := r.term, votedFor := r.votedFor, log := log, rt := rt } := by
  obtain ⟨log, he⟩ := (Node.newNode i (cfg.peers i) wal).replay_eq r
  unfold Config.reborn
  rw [he]
  exact ⟨log, _, rfl⟩

variable {cfg : Config ω} {w w' : Cluster ω} {ts : List (Occurrence ω)}

/-- A node keeps its state, runs one of its sections, or starts afresh. -/
theorem occur_nodes {t : Occurrence ω} (hs : w.occur cfg t = some w') (i : NodeID) :
    w'.nodes i = w.nodes i ∨ (∃ ev, t = .event ev ∧ NodeStep cfg w i ev (w'.nodes i)) ∨
      ∃ wal r, w'.nodes i = cfg.reborn i wal r := by
  cases t with
  | event ev =>
      rcases act_nodes hs i with h | h
      · exact Or.inl h
      · exact Or.inr (Or.inl ⟨ev, rfl, h⟩)
  | restart j wal r =>
      rw [Cluster.occur] at hs
      split at hs
      · obtain rfl := Option.some.inj hs
        by_cases hi : i = j
        · rw [hi]; exact Or.inr (Or.inr ⟨wal, r, setNode_self _ _ _⟩)
        · exact Or.inl (setNode_ne w j _ hi)
      · exact absurd hs (by simp)

/-! ## Whom a node names -/

/-- At some moment of the run, node `i` was leader of term `t`. -/
def Won (cfg : Config ω) (ts : List (Occurrence ω)) (i : NodeID) (t : Nat) : Prop :=
  ∃ before after w₀, ts = before ++ after ∧
    Execution.exec (Cluster.occur cfg) (Cluster.init cfg) before = some w₀ ∧
    (w₀.nodes i).state = .leader ∧ (w₀.nodes i).currentTerm = t

theorem Won.snoc {i : NodeID} {t : Nat} (h : Won cfg ts i t) (a : Occurrence ω) :
    Won cfg (ts ++ [a]) i t := by
  obtain ⟨before, after, w₀, rfl, hx, hl, ht⟩ := h
  exact ⟨before, after ++ [a], w₀, List.append_assoc _ _ _, hx, hl, ht⟩

theorem won_now {i : NodeID}
    (hx : Execution.exec (Cluster.occur cfg) (Cluster.init cfg) ts = some w)
    (hl : (w.nodes i).state = .leader) : Won cfg ts i (w.nodes i).currentTerm :=
  ⟨ts, [], w, (List.append_nil ts).symm, hx, hl, rfl⟩

/-- What a node knows of leaders, its hint included. -/
structure NodeInformed (cfg : Config ω) (ts : List (Occurrence ω)) (i : NodeID) (n : Node ω) : Prop where
  id : n.id = i
  peers : n.peers = cfg.peers i
  candidate : n.state = .candidate → n.leaderID = ""
  won : n.leaderID ≠ "" → Won cfg ts n.leaderID n.currentTerm
  own : n.leaderID ≠ "" → n.leaderID = i → n.state = .leader

/-- Requests name their sender, which is not their receiver and was leader of their term. -/
structure Informed (cfg : Config ω) (ts : List (Occurrence ω)) (w : Cluster ω) : Prop where
  nodes : ∀ i, NodeInformed cfg ts i (w.nodes i)
  heartbeats : ∀ hb ∈ w.heartbeats,
    hb.leaderID = hb.caller ∧ hb.peer ≠ hb.caller ∧ Won cfg ts hb.caller hb.term
  calls : ∀ c ∈ w.appendCalls,
    c.args.leaderID = c.caller ∧ c.peer ≠ c.caller ∧ Won cfg ts c.caller c.args.term

/-- No node that has a hint is told of a later term by a vote request or a reply. -/
def Unhinted (w : Cluster ω) : Occurrence ω → Prop
  | .event (.requestVote k) => ∀ c ∈ w.voteCalls[k]?,
      c.args.term > (w.nodes c.peer).currentTerm → (w.nodes c.peer).leaderID = ""
  | .event (.appendReply k) => ∀ cr ∈ w.appendReplies[k]?,
      (w.nodes cr.1.caller).state = .leader →
      (w.nodes cr.1.caller).currentTerm = cr.1.args.term →
      cr.2.term ≤ (w.nodes cr.1.caller).currentTerm
  | _ => True

omit [Journal ω] in
instance (w : Cluster ω) : (t : Occurrence ω) → Decidable (Unhinted w t)
  | .event (.requestVote k) => inferInstanceAs (Decidable (∀ c ∈ w.voteCalls[k]?,
      c.args.term > (w.nodes c.peer).currentTerm → (w.nodes c.peer).leaderID = ""))
  | .event (.appendReply k) => inferInstanceAs (Decidable (∀ cr ∈ w.appendReplies[k]?,
      (w.nodes cr.1.caller).state = .leader →
      (w.nodes cr.1.caller).currentTerm = cr.1.args.term →
      cr.2.term ≤ (w.nodes cr.1.caller).currentTerm))
  | .event (.startElection _) | .event (.voteReply _) | .event (.sendHeartbeats _)
  | .event (.readHeartbeat _) | .event (.replicateLog _ _) | .event (.appendEntries _)
  | .event (.submitCommand _ _) | .event (.pollSubmit _) | .event (.timeoutSubmit _)
  | .event (.collectApply _) | .event (.sendApply _) | .event (.finishApply _)
  | .restart _ _ _ => isTrue trivial

/-! ## One node -/

section Node

variable {i : NodeID} {n n' : Node ω}

/-- Nothing is wrong with no hint. -/
theorem NodeInformed.silent (hi : n.id = i) (hp : n.peers = cfg.peers i) (hn : n.leaderID = "") :
    NodeInformed cfg ts i n where
  id := hi
  peers := hp
  candidate _ := hn
  won h := absurd hn h
  own h _ := absurd hn h

theorem NodeInformed.same (h : NodeInformed cfg ts i n) (t : Occurrence ω) (hi : n'.id = n.id)
    (hp : n'.peers = n.peers) (hl : n'.leaderID = n.leaderID) (hs : n'.state = n.state)
    (hc : n'.currentTerm = n.currentTerm) : NodeInformed cfg (ts ++ [t]) i n' where
  id := hi.trans h.id
  peers := hp.trans h.peers
  candidate := by rw [hs, hl]; exact h.candidate
  won := by
    rw [hl, hc]
    intro hne
    exact (h.won hne).snoc t
  own := by rw [hl, hs]; exact h.own

/-- A follower of whoever won the term it is in. -/
theorem NodeInformed.follow {l : NodeID} {t : Nat} (h : NodeInformed cfg ts i n)
    (hw : Won cfg ts l t) (hother : i ≠ l) (a : Occurrence ω) (hi : n'.id = n.id) (hp : n'.peers = n.peers)
    (hs : n'.state = .follower) (hl : n'.leaderID = l) (ht : n'.currentTerm = t) :
    NodeInformed cfg (ts ++ [a]) i n' where
  id := hi.trans h.id
  peers := hp.trans h.peers
  candidate hc := absurd (hs.symm.trans hc) (by simp)
  won _ := by rw [hl, ht]; exact hw.snoc a
  own _ hown := absurd (hown.symm.trans hl) hother

/-- What a node knows stays true through a section, if no hint of an earlier term is left in it. -/
theorem informed_section {ev : Event} (h : NodeInformed cfg ts i (w.nodes i))
    (hcalls : ∀ c ∈ w.appendCalls,
      c.args.leaderID = c.caller ∧ c.peer ≠ c.caller ∧ Won cfg ts c.caller c.args.term)
    (hun : Unhinted w (.event ev)) (hst : NodeStep cfg w i ev n')
    (hnow : n'.state = .leader → Won cfg (ts ++ [.event ev]) i n'.currentTerm) :
    NodeInformed cfg (ts ++ [.event ev]) i n' := by
  cases hst with
  | startElection _ =>
      obtain ⟨rt, d, he, _⟩ := (w.nodes i).startElection_eq
      rw [he]
      exact .silent h.id h.peers rfl
  | requestVote k c hk hc =>
      subst hc
      obtain ⟨v, rt, d, he⟩ := (w.nodes c.peer).handleRequestVote_eq c.args
      rw [he]
      unfold Node.seeTerm
      split
      · -- a later term would keep the hint of this one
        rename_i hlater
        obtain ⟨rt', d', hb⟩ := (w.nodes c.peer).becomeFollowerLocked_eq c.args.term
        rw [hb]
        exact .silent h.id h.peers (hun c hk hlater)
      · exact h.same _ rfl rfl rfl rfl rfl
  | voteReply k c r _ _ =>
      have hv := (w.nodes i).voteReplied c.args.term c.peer r
      generalize (w.nodes i).handleVoteReply c.args.term c.peer r = n' at hv hnow ⊢
      cases hv with
      | idle _ => exact h.same _ rfl rfl rfl rfl rfl
      | stepDown _ hcand _ =>
          obtain ⟨rt, d, hb⟩ := (w.nodes i).becomeFollowerLocked_eq r.term
          rw [hb]
          exact .silent h.id h.peers (h.candidate hcand)
      | counted _ _ _ _ _ _ => exact h.same _ rfl rfl rfl rfl rfl
      | elected _ _ _ _ _ _ =>
          refine ⟨h.id, h.peers, fun hc => absurd hc (by simp [Node.becomeLeaderLocked]), ?_,
            fun _ _ => rfl⟩
          intro _
          show Won _ _ (w.nodes i).id _
          rw [h.id]
          exact hnow rfl
  | appendEntries k c hk hc =>
      subst hc
      obtain ⟨hname, hother, hwon⟩ := hcalls c (List.mem_of_getElem? hk)
      have hh := (w.nodes c.peer).appendHandled c.args
      generalize ((w.nodes c.peer).handleAppendEntries c.args).1 = n' at hh ⊢
      generalize ((w.nodes c.peer).handleAppendEntries c.args).2 = r at hh
      cases hh with
      | stale _ => exact h.same _ rfl rfl rfl rfl rfl
      | refused _ _ _ _ _ _ => exact h.follow hwon hother _ rfl rfl rfl hname rfl
      | accepted _ _ _ _ _ _ => exact h.follow hwon hother _ rfl rfl rfl hname rfl
  | appendReply k c r hk hc =>
      subst hc
      rcases (w.nodes c.caller).handleAppendReply_cases c.args.term c.peer c.args.entries r with
        ⟨hlead, ⟨hterm, hlater⟩, _⟩ | ⟨ni, mi, cm, _, _, he⟩
      · exact absurd (hun (c, r) hk hlead hterm) (Nat.not_le_of_lt hlater)
      · rw [he]; exact h.same _ rfl rfl rfl rfl rfl
  | submitCommand command _ =>
      rcases (w.nodes i).submitCommand_cases command with ⟨_, he⟩ | ⟨_, d, he⟩
      · rw [he]; exact h.same _ rfl rfl rfl rfl rfl
      · rw [he]; exact h.same _ rfl rfl rfl rfl rfl
  | finishApply m _ => exact h.same _ rfl rfl rfl rfl rfl

end Node

/-! ## Runs -/

theorem informed_init : Informed cfg [] (Cluster.init cfg) where
  nodes _ := .silent rfl rfl rfl
  heartbeats hb h := absurd h (by simp [Cluster.init])
  calls c h := absurd h (by simp [Cluster.init])

/-- What is sent is sent by a leader in its own name. -/
theorem informed_sent (h : Informed cfg ts w)
    (hx : Execution.exec (Cluster.occur cfg) (Cluster.init cfg) ts = some w) {t : Occurrence ω}
    (hs : w.occur cfg t = some w') :
    (∀ hb ∈ w'.heartbeats,
      hb.leaderID = hb.caller ∧ hb.peer ≠ hb.caller ∧ Won cfg ts hb.caller hb.term) ∧
    (∀ c ∈ w'.appendCalls,
      c.args.leaderID = c.caller ∧ c.peer ≠ c.caller ∧ Won cfg ts c.caller c.args.term) := by
  cases t with
  | restart i wal r =>
      rw [Cluster.occur] at hs
      split at hs
      · obtain rfl := Option.some.inj hs
        exact ⟨h.heartbeats, h.calls⟩
      · exact absurd hs (by simp)
  | event ev =>
      have hown : ∀ {i p : NodeID}, i ∈ cfg.ids → (w.nodes i).state = .leader →
          p ∈ (w.nodes i).peers →
          (w.nodes i).id = i ∧ p ≠ i ∧ Won cfg ts i (w.nodes i).currentTerm := by
        intro i p hi hl hp
        rw [(h.nodes i).peers] at hp
        exact ⟨(h.nodes i).id, (cfg.mem_peers hi hp).2, won_now hx hl⟩
      constructor
      · intro hb hmem
        rcases mem_heartbeats hs hmem with hmem | ⟨i, p, hi, hl, hp, rfl⟩
        · exact h.heartbeats hb hmem
        · exact hown hi hl hp
      · intro c hmem
        rcases mem_appendCalls hs hmem with hmem | ⟨k, hb, _, hk, rfl⟩ | ⟨i, p, hi, hl, hp, rfl⟩
        · exact h.calls c hmem
        · exact h.heartbeats hb (List.mem_of_getElem? hk)
        · exact hown hi hl hp

theorem informed_step (h : Informed cfg ts w)
    (hx : Execution.exec (Cluster.occur cfg) (Cluster.init cfg) ts = some w) {t : Occurrence ω}
    (hun : Unhinted w t) (hs : w.occur cfg t = some w') : Informed cfg (ts ++ [t]) w' := by
  obtain ⟨hhb, hcalls⟩ := informed_sent h hx hs
  refine ⟨?_, ?_, ?_⟩
  · intro i
    rcases occur_nodes hs i with heq | ⟨ev, rfl, hst⟩ | ⟨wal, r, he⟩
    · rw [heq]; exact (h.nodes i).same t rfl rfl rfl rfl rfl
    · exact informed_section (h.nodes i) h.calls hun hst
        (won_now (Execution.exec_snoc hx hs))
    · obtain ⟨log, rt, hr⟩ := reborn_eq cfg i wal r
      rw [he, hr]
      exact .silent rfl rfl rfl
  · intro hb hmem
    obtain ⟨h₁, h₂, hwon⟩ := hhb hb hmem
    exact ⟨h₁, h₂, hwon.snoc t⟩
  · intro c hmem
    obtain ⟨h₁, h₂, hwon⟩ := hcalls c hmem
    exact ⟨h₁, h₂, hwon.snoc t⟩

theorem informed_run (hx : Execution.exec (Cluster.occur cfg) (Cluster.init cfg) ts = some w)
    (hun : Execution.Always (Cluster.occur cfg) (fun w t _ => Unhinted w t) (Cluster.init cfg) ts) :
    Informed cfg ts w := by
  refine Execution.Always.invariant (I := Informed cfg) informed_init ?_ hun hx
  intro as w₁ t w₂ hx₁ h hP hs
  exact informed_step h hx₁ hP hs

/-! ## Redirects -/

/-- What `redirectToLeader` answers. -/
inductive Redirection where
  | noLeader
  | addressUnknown
  | to (leader : NodeID) (addr : String)
  deriving DecidableEq, Repr

omit [Journal ω] in
def Node.redirectToLeader (n : Node ω) (peerHTTPAddrs : NodeID → Option String) : Redirection :=
  if n.leaderID = "" then .noLeader
  else match peerHTTPAddrs n.leaderID with
    | none => .addressUnknown
    | some addr => .to n.leaderID addr

omit [Journal ω] in
theorem redirectToLeader_to {n : Node ω} {addrs : NodeID → Option String} {l : NodeID} {addr : String}
    (h : n.redirectToLeader addrs = .to l addr) : n.leaderID ≠ "" ∧ l = n.leaderID := by
  unfold Node.redirectToLeader at h
  split at h
  · exact absurd h (by simp)
  · rename_i hne
    split at h
    · exact absurd h (by simp)
    · injection h with hl _
      exact ⟨hne, hl.symm⟩

/--
**Leader hints are current.** In a run in which no node with a hint is told of a later
term by a vote request or a reply, every hint names a node that was leader of the
node's current term, and names the node itself only while it leads. A redirect by a
node that does not lead therefore never points to that node, and always to a leader of
the term that it is in.
-/
theorem leader_hints (hx : Execution.exec (Cluster.occur cfg) (Cluster.init cfg) ts = some w)
    (hun : Execution.Always (Cluster.occur cfg) (fun w t _ => Unhinted w t) (Cluster.init cfg) ts)
    (i : NodeID) :
    ((w.nodes i).leaderID ≠ "" →
      Won cfg ts (w.nodes i).leaderID (w.nodes i).currentTerm ∧
      ((w.nodes i).leaderID = i → (w.nodes i).state = .leader)) ∧
    (∀ addrs l addr, (w.nodes i).redirectToLeader addrs = .to l addr →
      Won cfg ts l (w.nodes i).currentTerm ∧ ((w.nodes i).state ≠ .leader → l ≠ i)) := by
  have h := (informed_run hx hun).nodes i
  refine ⟨fun hne => ⟨h.won hne, h.own hne⟩, ?_⟩
  intro addrs l addr hto
  obtain ⟨hne, rfl⟩ := redirectToLeader_to hto
  exact ⟨h.won hne, fun hnl hown => hnl (h.own hne hown)⟩

/-- `b` is elected in term `1`, and `c` hears from it. -/
def heardEvents : List (Occurrence OneFile) :=
  [.event (.startElection "b"), .event (.requestVote 0), .event (.voteReply 0),
    .event (.sendHeartbeats "b"), .event (.readHeartbeat 1), .event (.appendEntries 0)]

/-- Then `c` sends clients to `b`. -/
theorem leader_hints_abc : ∃ w,
    Execution.exec (Cluster.occur volatileABC) (Cluster.init volatileABC) heardEvents = some w ∧
    (w.nodes "c").leaderID = "b" ∧ Won volatileABC heardEvents "b" (w.nodes "c").currentTerm ∧
    (w.nodes "c").redirectToLeader (fun _ => some "localhost:8081") = .to "b" "localhost:8081" := by
  obtain ⟨w, hx, h⟩ :
      ∃ w ∈ Execution.exec (Cluster.occur volatileABC) (Cluster.init volatileABC) heardEvents,
        (w.nodes "c").leaderID = "b" := by
    decide +kernel
  have hwon := ((leader_hints hx (by decide +kernel) "c").1 (by rw [h]; decide)).1
  rw [h] at hwon
  refine ⟨w, hx, h, hwon, ?_⟩
  unfold Node.redirectToLeader
  rw [h, if_neg (by decide)]

/--
`b` is elected in term `1` and then asked for its vote by `a` in term `2`: it follows, in
a term that it was not elected in, and sends clients to itself.
-/
theorem stale_hint_abc : ∃ w, Cluster.Reachable volatileABC w ∧
    (w.nodes "b").state = .follower ∧ (w.nodes "b").currentTerm = 2 ∧
    (w.nodes "b").leaderID = "b" ∧
    (w.nodes "b").redirectToLeader (fun _ => some "localhost:8081") = .to "b" "localhost:8081" := by
  obtain ⟨w, hw, h⟩ := Cluster.exists_run volatileABC (Cluster.init volatileABC)
    [.startElection "b", .requestVote 0, .voteReply 0, .startElection "a", .requestVote 2]
    (fun w => (w.nodes "b").state = .follower ∧ (w.nodes "b").currentTerm = 2 ∧
      (w.nodes "b").leaderID = "b") (by decide +kernel)
  refine ⟨w, hw, h.1, h.2.1, h.2.2, ?_⟩
  unfold Node.redirectToLeader
  rw [h.2.2, if_neg (by decide)]

end GammaFlow.Raft
