import GammaFlow.Raft.Recovery
import GammaFlow.Raft.Restart

/-!
# The life of one node

A node on its own, to which the network may bring anything: any request, any reply, in
any order. Between two of its sections, or in the middle of one, it may crash; it then
comes back from its write-ahead log, rotated wherever it likes to be.

Two things are read back from the log. The term is always the one the node had, or the
one it was about to enter, so no message it ever sent is from beyond it. The vote is read
back as well, and too well: becoming a follower of a later term clears the vote in memory
and records only the term, so what comes back is the vote of an earlier term.
-/

namespace GammaFlow.Raft

open GammaFlow.Storage

variable {rotates : List (List WalRecord) → WalRecord → Bool}

/-- What a node sends to a peer, be it a request or a reply. -/
inductive Message where
  | requestVote (args : RequestVoteArgs)
  | requestVoteReply (reply : RequestVoteReply)
  | appendEntries (args : AppendEntriesArgs)
  | appendEntriesReply (reply : AppendEntriesReply)
  deriving DecidableEq, Repr

def Message.term : Message → Nat
  | .requestVote args => args.term
  | .requestVoteReply reply => reply.term
  | .appendEntries args => args.term
  | .appendEntriesReply reply => reply.term

/-- One lock-protected section, with what it is given. -/
inductive Input where
  | startElection
  | requestVote (args : RequestVoteArgs)
  | voteReply (term : Nat) (peer : NodeID) (reply : RequestVoteReply)
  | sendHeartbeats
  | readHeartbeat (k : Nat)
  | replicateLog (peer : NodeID)
  | appendEntries (args : AppendEntriesArgs)
  | appendReply (term : Nat) (peer : NodeID) (entries : List LogEntry) (reply : AppendEntriesReply)
  | submitCommand (command : Command)
  | finishApply (newLastApplied : Nat)
  deriving DecidableEq, Repr

namespace Node

variable {ω : Type} [Journal ω]

def after (n : Node ω) : Input → Node ω
  | .startElection => n.startElection.1
  | .requestVote args => (n.handleRequestVote args).1
  | .voteReply term peer reply => n.handleVoteReply term peer reply
  | .sendHeartbeats => n
  | .readHeartbeat _ => n
  | .replicateLog _ => n
  | .appendEntries args => (n.handleAppendEntries args).1
  | .appendReply term peer entries reply => n.handleAppendReply term peer entries reply
  | .submitCommand command => (n.submitCommand command).1
  | .finishApply newLastApplied => { n with lastApplied := newLastApplied }

def writes (n : Node ω) : Input → List WalRecord
  | .startElection => n.startElectionWrites
  | .requestVote args => n.requestVoteWrites args
  | .voteReply term _ reply => n.voteReplyWrites term reply
  | .appendEntries args => n.appendEntriesWrites args
  | .appendReply term _ _ reply => n.appendReplyWrites term reply
  | .submitCommand command => n.submitCommandWrites command
  | _ => []

theorem after_wal (n : Node ω) (x : Input) :
    (n.after x).wal = n.wal.map (Journal.appendAll · (n.writes x)) := by
  cases x with
  | startElection => exact n.startElection_wal
  | requestVote args => exact n.handleRequestVote_wal args
  | voteReply term peer reply => exact n.handleVoteReply_wal term peer reply
  | appendEntries args => exact n.handleAppendEntries_wal args
  | appendReply term peer entries reply => exact n.handleAppendReply_wal term peer entries reply
  | submitCommand command => exact n.submitCommand_wal command
  | _ => exact (map_appendAll_nil n.wal).symm

end Node

/-- **What survives every write survives every section.** -/
theorem Survives.after {ω : Type} [Journal ω] {P : Nat → NodeID → ω → Prop} {n : Node ω}
    (hP : Survives P fun _ _ => True) (h : n.Keeps P) (x : Input) : (n.after x).Keeps P := by
  cases x with
  | startElection => exact hP.startElection h trivial
  | requestVote args => exact hP.handleRequestVote h trivial
  | voteReply term peer reply => exact hP.handleVoteReply h term peer reply
  | appendEntries args => exact hP.handleAppendEntries h args
  | appendReply term peer entries reply => exact hP.handleAppendReply h term peer entries reply
  | submitCommand command => exact hP.submitCommand h command
  | _ => exact h

/-! ## Lives -/

/-- A node, its heartbeat goroutines that have not read the log yet, and all it has sent. -/
structure Life (rotates : List (List WalRecord) → WalRecord → Bool) where
  node : Node (Wal rotates)
  heartbeats : List Heartbeat
  sent : List Message

/-- A section, or a crash: idle, or in the course of a section after some of its appends. -/
inductive Turn where
  | input (x : Input)
  | crash (during : Option Input) (appends : Nat)
  deriving DecidableEq, Repr

namespace Life

def born (id : NodeID) (peers : List NodeID) : Life rotates :=
  ⟨(Node.newNode id peers (some Wal.empty)).start, [], []⟩

/-- The goroutines that a section starts. -/
def spawns (s : Life rotates) : Input → List Heartbeat
  | .sendHeartbeats =>
      if s.node.state = .leader then
        s.node.peers.map fun p => ⟨s.node.id, p, s.node.currentTerm, s.node.id, s.node.commitIndex⟩
      else []
  | _ => []

/-- What goes out when a section is over. -/
def sends (s : Life rotates) : Input → List Message
  | .startElection => s.node.peers.map fun _ => .requestVote s.node.startElection.2
  | .requestVote args => [.requestVoteReply (s.node.handleRequestVote args).2]
  | .readHeartbeat k =>
      match s.heartbeats[k]? with
      | none => []
      | some hb =>
          [.appendEntries (s.node.buildRequest hb.peer hb.term hb.leaderID hb.commitIndex)]
  | .replicateLog peer =>
      let args := s.node.buildRequest peer s.node.currentTerm s.node.id s.node.commitIndex
      if peer ∈ s.node.peers ∧ s.node.state = .leader ∧ args.entries ≠ [] then
        [.appendEntries args]
      else []
  | .appendEntries args => [.appendEntriesReply (s.node.handleAppendEntries args).2]
  | _ => []

/-- The records that reach the log before the node stops. -/
def lastWrites (s : Life rotates) (during : Option Input) (appends : Nat) : List WalRecord :=
  match during with
  | none => []
  | some x => (s.node.writes x).take appends

/-- What a crash leaves behind, to be recovered from. -/
def remains (s : Life rotates) (during : Option Input) (appends : Nat) : Node (Wal rotates) :=
  { s.node with wal := s.node.wal.map (Journal.appendAll · (s.lastWrites during appends)) }

def turn (s : Life rotates) : Turn → Life rotates
  | .input x => ⟨s.node.after x, s.heartbeats ++ s.spawns x, s.sent ++ s.sends x⟩
  | .crash during appends => ⟨(s.remains during appends).recover.start, [], s.sent⟩

def live (s : Life rotates) (turns : List Turn) : Life rotates := turns.foldl turn s

/-- Somewhere in a life that began with an empty log. -/
def Lived (s : Life rotates) : Prop := ∃ id peers turns, s = (born id peers).live turns

/-- What holds at birth and after each turn holds all life long. -/
theorem live_invariant {I : Life rotates → Prop} {s : Life rotates} (h : I s)
    (hturn : ∀ s, I s → ∀ x, I (s.turn x)) (turns : List Turn) : I (s.live turns) := by
  induction turns generalizing s with
  | nil => exact h
  | cons x turns ih => exact ih (hturn s h x)

end Life

/-! ## What is on record -/

/-- The log has the node's term as its last one, and its vote, if it has voted. -/
structure Backs (term : Nat) (votedFor : NodeID) (d : Wal rotates) : Prop where
  rise : TermsRise d.records
  term : lastTerm d.records = term
  vote : votedFor ≠ "" → (replay d.files).votedFor = votedFor

theorem survives_backs : Survives (fun t v (d : Wal rotates) => Backs t v d) (fun _ _ => True) where
  term {t v d} h t' ht := by
    refine ⟨?_, ?_, fun hne => absurd rfl hne⟩
    · show TermsRise (d.append (.term t')).records
      rw [Wal.records_append]
      refine h.rise.snoc ?_
      intro u hu
      rw [h.term, ← Option.some.inj hu]
      omega
    · show lastTerm (d.append (.term t')).records = t'
      rw [Wal.records_append, lastTerm_append]
      rfl
  vote {t v d} h X _ _ := by
    refine ⟨?_, ?_, fun hne => d.replay_append_vote t hne⟩
    · show TermsRise (d.append (.vote X t)).records
      rw [Wal.records_append]
      refine h.rise.snoc ?_
      intro u hu
      rw [h.term, ← Option.some.inj hu]
    · show lastTerm (d.append (.vote X t)).records = t
      rw [Wal.records_append, lastTerm_append]
      rfl
  entry {t v d} h e := by
    refine ⟨?_, ?_, fun hne => (d.replay_append_other rfl).trans (h.vote hne)⟩
    · show TermsRise (d.append (.entry e)).records
      rw [Wal.records_append]
      refine h.rise.snoc ?_
      intro u hu
      exact absurd hu (by simp [WalRecord.term?])
    · show lastTerm (d.append (.entry e)).records = t
      rw [Wal.records_append, lastTerm_append]
      exact h.term

/-- What a fresh node reads from a log. -/
theorem recover_eq {n : Node (Wal rotates)} {d : Wal rotates} (hd : n.wal = some d) :
    n.recover.currentTerm = (replay d.files).term ∧
    n.recover.votedFor = (replay d.files).votedFor ∧ n.recover.wal = some d := by
  obtain ⟨log, he⟩ := (Node.newNode n.id n.peers (some d)).replay_eq (replay d.files)
  unfold Node.recover
  rw [hd]
  dsimp only
  rw [he]
  exact ⟨rfl, rfl, rfl⟩

/-- A fresh node has the last term, and whatever vote it has read. -/
theorem recover_backs {n : Node (Wal rotates)} {d : Wal rotates} (hd : n.wal = some d)
    (h : TermsRise d.records) : n.recover.start.Keeps Backs := by
  obtain ⟨hterm, hvote, hwal⟩ := recover_eq hd
  refine ⟨d, hwal, h, ?_, ?_⟩
  · show lastTerm d.records = n.recover.currentTerm
    rw [hterm, replay_term h]
    rfl
  · intro _
    exact hvote.symm

/-! ## What a node has said -/

namespace Node

variable {ω : Type} [Journal ω]

theorem handleRequestVote_reply_term (n : Node ω) (args : RequestVoteArgs) :
    (n.handleRequestVote args).2.term = (n.handleRequestVote args).1.currentTerm := by
  have hcast : ∀ (m : Node ω) (r : RequestVoteReply), r.term = m.currentTerm →
      (m.castVote args r).2.term = (m.castVote args r).1.currentTerm := by
    intro m r hr
    unfold castVote
    dsimp only
    split
    · rw [persist_node]; exact hr
    · exact hr
  unfold handleRequestVote
  dsimp only
  split
  · split
    · rfl
    · exact hcast _ _ rfl
  · split
    · rfl
    · exact hcast _ _ rfl

theorem handleAppendEntries_reply_term (n : Node ω) (args : AppendEntriesArgs) :
    (n.handleAppendEntries args).2.term = (n.handleAppendEntries args).1.currentTerm := by
  unfold handleAppendEntries
  split
  · rfl
  generalize n.acceptLeader args = m
  obtain ⟨log, c, d, he⟩ := m.checkAndAppend_eq args
  rw [he]
  unfold checkAndAppend
  dsimp only
  split
  · rfl
  · split
    · rfl
    · rfl

/-- **A section does not lower the term.** -/
theorem after_term_le {n : Node ω} (h : n.wal.isSome) (x : Input) :
    n.currentTerm ≤ (n.after x).currentTerm := by
  obtain ⟨d, hd⟩ := Option.isSome_iff_exists.mp h
  have hP : Survives (fun t _ (_ : ω) => n.currentTerm ≤ t) fun _ _ => True :=
    ⟨fun h t' ht => Nat.le_trans h (Nat.le_of_lt ht), fun h _ _ _ => h, fun h _ => h⟩
  obtain ⟨_, _, hle⟩ := hP.after ⟨d, hd, Nat.le_refl _⟩ x
  exact hle

end Node

/-- Nothing is said, or about to be said, for a term the node has not reached. -/
structure Abides (s : Life rotates) : Prop where
  node : s.node.Keeps Backs
  heartbeats : ∀ hb ∈ s.heartbeats, hb.term ≤ s.node.currentTerm
  sent : ∀ m ∈ s.sent, m.term ≤ s.node.currentTerm

variable {s : Life rotates}

theorem Abides.durable (h : Abides s) : s.node.wal.isSome := by
  obtain ⟨d, hd, _⟩ := h.node
  rw [hd]; rfl

theorem abides_born (id : NodeID) (peers : List NodeID) :
    Abides (Life.born id peers : Life rotates) where
  node := ⟨Wal.empty, rfl, List.Pairwise.nil, rfl, fun hne => absurd rfl hne⟩
  heartbeats hb h := absurd h (by simp [Life.born])
  sent m h := absurd h (by simp [Life.born])

theorem Abides.sends (h : Abides s) (x : Input) :
    ∀ m ∈ s.sends x, m.term ≤ (s.node.after x).currentTerm := by
  cases x with
  | startElection =>
      intro m hm
      obtain ⟨p, _, rfl⟩ := List.mem_map.mp hm
      obtain ⟨rt, d, he, hargs⟩ := s.node.startElection_eq
      show s.node.startElection.2.term ≤ s.node.startElection.1.currentTerm
      rw [he, hargs]
  | requestVote args =>
      intro m hm
      rw [List.mem_singleton.mp hm]
      exact Nat.le_of_eq (s.node.handleRequestVote_reply_term args)
  | readHeartbeat k =>
      intro m hm
      unfold Life.sends at hm
      dsimp only at hm
      split at hm
      · exact absurd hm (by simp)
      · rename_i hb hk
        rw [List.mem_singleton.mp hm]
        exact h.heartbeats hb (List.mem_of_getElem? hk)
  | replicateLog peer =>
      intro m hm
      unfold Life.sends at hm
      dsimp only at hm
      split at hm
      · rw [List.mem_singleton.mp hm]
        exact Nat.le_refl _
      · exact absurd hm (by simp)
  | appendEntries args =>
      intro m hm
      rw [List.mem_singleton.mp hm]
      exact Nat.le_of_eq (s.node.handleAppendEntries_reply_term args)
  | _ => intro m hm; exact absurd hm (by simp [Life.sends])

theorem Abides.spawns (h : Abides s) (x : Input) :
    ∀ hb ∈ s.spawns x, hb.term ≤ (s.node.after x).currentTerm := by
  have hmono := Node.after_term_le h.durable x
  cases x with
  | sendHeartbeats =>
      intro hb hhb
      unfold Life.spawns at hhb
      dsimp only at hhb
      split at hhb
      · obtain ⟨p, _, rfl⟩ := List.mem_map.mp hhb
        exact hmono
      · exact absurd hhb (by simp)
  | _ => intro hb hhb; exact absurd hhb (by simp [Life.spawns])

theorem abides_input (h : Abides s) (x : Input) : Abides (s.turn (.input x)) := by
  have hmono := Node.after_term_le h.durable x
  refine ⟨survives_backs.after h.node x, ?_, ?_⟩
  · intro hb hhb
    rcases List.mem_append.mp hhb with hhb | hhb
    · exact Nat.le_trans (h.heartbeats hb hhb) hmono
    · exact h.spawns x hb hhb
  · intro m hm
    rcases List.mem_append.mp hm with hm | hm
    · exact Nat.le_trans (h.sent m hm) hmono
    · exact h.sends x m hm

/-- However far the last section got, the terms on record do not fall. -/
theorem Abides.rise (h : Abides s) (during : Option Input) (appends : Nat) :
    ∃ d, (s.remains during appends).wal = some d ∧ TermsRise d.records ∧
      s.node.currentTerm ≤ lastTerm d.records := by
  obtain ⟨d, hd, hb⟩ := h.node
  refine ⟨Journal.appendAll d (s.lastWrites during appends), ?_, ?_⟩
  · show s.node.wal.map _ = _
    rw [hd]; rfl
  rw [Wal.records_appendAll]
  have hrise : TermsRise (d.records ++ s.lastWrites during appends) := by
    cases during with
    | none => rw [Life.lastWrites, List.append_nil]; exact hb.rise
    | some x =>
        -- a part of what the whole section would have written
        obtain ⟨d', hd', hb'⟩ := survives_backs.after h.node x
        have hwhole := hb'.rise
        rw [s.node.after_wal x, hd] at hd'
        rw [← Option.some.inj hd', Wal.records_appendAll,
          ← List.take_append_drop appends (s.node.writes x), ← List.append_assoc] at hwhole
        exact hwhole.of_append.1
  refine ⟨hrise, ?_⟩
  rw [← hb.term]
  exact hrise.lastTerm_le

/-- **A crash does not lower the term.** -/
theorem Abides.crash_term_le (h : Abides s) (during : Option Input) (appends : Nat) :
    s.node.currentTerm ≤ (s.turn (.crash during appends)).node.currentTerm := by
  obtain ⟨d, hd, hrise, hle⟩ := h.rise during appends
  have hterm : (s.turn (.crash during appends)).node.currentTerm = (replay d.files).term :=
    (recover_eq hd).1
  rw [hterm, replay_term hrise]
  exact hle

theorem abides_turn (h : Abides s) (x : Turn) : Abides (s.turn x) := by
  cases x with
  | input x => exact abides_input h x
  | crash during appends =>
      obtain ⟨d, hd, hrise, _⟩ := h.rise during appends
      refine ⟨recover_backs hd hrise, fun hb hhb => absurd hhb (by simp [Life.turn]), ?_⟩
      intro m hm
      exact Nat.le_trans (h.sent m hm) (h.crash_term_le during appends)

theorem abides_live (h : Abides s) (turns : List Turn) : Abides (s.live turns) :=
  Life.live_invariant h (fun _ h x => abides_turn h x) turns

theorem Life.Lived.abides (hs : s.Lived) : Abides s := by
  obtain ⟨id, peers, turns, rfl⟩ := hs
  exact abides_live (abides_born id peers) turns

theorem Abides.live_term_le (h : Abides s) (turns : List Turn) :
    s.node.currentTerm ≤ (s.live turns).node.currentTerm := by
  have hinv : Abides (s.live turns) ∧ s.node.currentTerm ≤ (s.live turns).node.currentTerm := by
    refine Life.live_invariant (I := fun s' => Abides s' ∧ s.node.currentTerm ≤ s'.node.currentTerm)
      ⟨h, Nat.le_refl _⟩ ?_ turns
    rintro s' ⟨h', hle⟩ x
    refine ⟨abides_turn h' x, Nat.le_trans hle ?_⟩
    cases x with
    | input x => exact Node.after_term_le h'.durable x
    | crash during appends => exact h'.crash_term_le during appends
  exact hinv.2

/--
**Terms only rise, across restarts too.** Whatever a node has gone through: no row of
sections lowers its term, and after a crash at any point the term it reads back is at
least that of every request and reply it has ever sent.
-/
theorem terms_only_rise (hs : s.Lived) :
    (∀ xs : List Input, s.node.currentTerm ≤ (s.live (xs.map .input)).node.currentTerm) ∧
    ∀ during appends, ∀ m ∈ s.sent,
      m.term ≤ (s.turn (.crash during appends)).node.currentTerm := by
  refine ⟨fun xs => hs.abides.live_term_le _, ?_⟩
  intro during appends m hm
  exact Nat.le_trans (hs.abides.sent m hm) (hs.abides.crash_term_le during appends)

/-- A candidate of term `1` that has heard of term `3`, in a log with one record a file. -/
def humbled : Life fun _ _ => true :=
  (Life.born "a" ["b", "c"]).live
    [.input .startElection, .input (.voteReply 1 "b" ⟨3, false⟩),
      .input (.requestVote ⟨3, "c", 0, 0⟩)]

/-- It goes down again before it has recorded term `4`, and has said nothing beyond `3`. -/
theorem terms_only_rise_humbled : humbled.sent.map Message.term = [1, 1, 3] ∧
    (humbled.turn (.crash (some .startElection) 0)).node.currentTerm = 3 ∧
    ∀ m ∈ humbled.sent, m.term ≤ (humbled.turn (.crash (some .startElection) 0)).node.currentTerm :=
  ⟨by decide +kernel, by decide +kernel, (terms_only_rise ⟨_, _, _, rfl⟩).2 _ _⟩

/-! ## The vote that comes back -/

/--
**When the vote is recovered.** At any point of a life, a fresh node on the same log has
the term and the vote that the node has, exactly if the node has a vote in memory or no
file of the log has a vote for someone as its last one. The term is always the same.
-/
theorem recovers_vote_iff (hs : s.Lived) :
    (s.node.recover.currentTerm = s.node.currentTerm ∧
      s.node.recover.votedFor = s.node.votedFor) ↔
    (s.node.votedFor ≠ "" ∨ ∀ d ∈ s.node.wal, Unvoted d.files) := by
  obtain ⟨d, hd, hb⟩ := hs.abides.node
  obtain ⟨hterm, hvote, _⟩ := recover_eq hd
  have hsame : s.node.recover.currentTerm = s.node.currentTerm := by
    rw [hterm, replay_term hb.rise]
    exact hb.term
  have hfiles : (∀ d ∈ s.node.wal, Unvoted d.files) ↔ Unvoted d.files := by
    rw [hd]; simp
  rw [hvote, hfiles, ← replay_unvoted_iff]
  by_cases hv : s.node.votedFor = ""
  · rw [hv]
    exact ⟨fun h => Or.inr h.2, fun h => ⟨hsame, h.resolve_left fun hne => hne rfl⟩⟩
  · exact ⟨fun _ => Or.inl hv, fun _ => ⟨hsame, hb.vote hv⟩⟩

/-- The vote of term `3` is there after a restart, from the last of five files. -/
theorem recovers_vote_humbled : humbled.node.recover.currentTerm = 3 ∧
    humbled.node.recover.votedFor = "c" := by
  obtain ⟨hterm, hvote⟩ := (recovers_vote_iff (s := humbled) ⟨_, _, _, rfl⟩).mpr
    (Or.inl (by decide +kernel))
  exact ⟨hterm.trans (by decide +kernel), hvote.trans (by decide +kernel)⟩

/-- After a vote in term `1`, a request of term `2` leaves the node free; a restart does not. -/
theorem stale_vote_recovered : ∃ s : Life fun _ _ => false, s.Lived ∧
    s.node.currentTerm = 2 ∧ s.node.votedFor = "" ∧
    s.node.recover.currentTerm = 2 ∧ s.node.recover.votedFor = "b" :=
  ⟨_, ⟨"a", ["b", "c"],
    [.input (.requestVote ⟨1, "b", 0, 0⟩), .input (.appendEntries ⟨2, "c", 0, 0, [], 0⟩)], rfl⟩,
    by decide +kernel⟩

/-! ## Members of a cluster -/

theorem Life.live_snoc (s : Life rotates) (turns : List Turn) (x : Turn) :
    s.live (turns ++ [x]) = (s.live turns).turn x := by
  unfold Life.live
  rw [List.foldl_append]
  rfl

section Members

variable {cfg : Config (Wal rotates)} {w w' : Cluster (Wal rotates)} {ev : Event} {i : NodeID}

theorem after_of_nodeStep {n : Node (Wal rotates)} (h : NodeStep cfg w i ev n) :
    ∃ x, n = (w.nodes i).after x := by
  cases h with
  | startElection _ => exact ⟨.startElection, rfl⟩
  | requestVote k c _ _ => exact ⟨.requestVote c.args, rfl⟩
  | voteReply k c r _ _ => exact ⟨.voteReply c.args.term c.peer r, rfl⟩
  | appendEntries k c _ _ => exact ⟨.appendEntries c.args, rfl⟩
  | appendReply k c r _ _ => exact ⟨.appendReply c.args.term c.peer c.args.entries r, rfl⟩
  | submitCommand command _ => exact ⟨.submitCommand command, rfl⟩
  | finishApply m _ => exact ⟨.finishApply m, rfl⟩

/-- What a member writes in an event it writes in a section of its own. -/
theorem writes_eq (w : Cluster (Wal rotates)) (i : NodeID) (ev : Event) :
    ∃ x, w.writes i ev = (w.nodes i).writes x := by
  have hnone : ∃ x, ([] : List WalRecord) = (w.nodes i).writes x := ⟨.sendHeartbeats, rfl⟩
  have hown : ∀ (j : NodeID) (x : Input),
      ∃ y, (if j = i then (w.nodes i).writes x else []) = (w.nodes i).writes y := by
    intro j x
    split
    · exact ⟨x, rfl⟩
    · exact hnone
  -- a call that is not there is not handled
  cases ev with
  | startElection j => exact hown j .startElection
  | requestVote k =>
      unfold Cluster.writes
      dsimp only
      split
      · exact hown _ (.requestVote _)
      · exact hnone
  | voteReply k =>
      unfold Cluster.writes
      dsimp only
      split
      · rename_i c r _
        exact hown _ (.voteReply c.args.term c.peer r)
      · exact hnone
  | appendEntries k =>
      unfold Cluster.writes
      dsimp only
      split
      · exact hown _ (.appendEntries _)
      · exact hnone
  | appendReply k =>
      unfold Cluster.writes
      dsimp only
      split
      · rename_i c r _
        exact hown _ (.appendReply c.args.term c.peer c.args.entries r)
      · exact hnone
  | submitCommand j command => exact hown j (.submitCommand command)
  | _ => exact hnone

/-- A node as some life has left it. -/
def Node.Lived (n : Node (Wal rotates)) : Prop := ∃ s : Life rotates, s.Lived ∧ s.node = n

theorem Life.Lived.turn {s : Life rotates} (hs : s.Lived) (x : Turn) : (s.turn x).Lived := by
  obtain ⟨id, peers, turns, rfl⟩ := hs
  exact ⟨id, peers, turns ++ [x], (Life.live_snoc _ turns x).symm⟩

theorem lived_act (h : (w.nodes i).Lived) (hs : w.act cfg ev = some w') :
    (w'.nodes i).Lived := by
  obtain ⟨s, hl, hn⟩ := h
  rcases act_nodes hs i with heq | hst
  · exact ⟨s, hl, hn.trans heq.symm⟩
  · obtain ⟨x, hx⟩ := after_of_nodeStep hst
    exact ⟨s.turn (.input x), hl.turn _, by rw [hx, ← hn]; rfl⟩

theorem lived_crash (hlaw : NodeLawful cfg w i (w.nodes i)) (h : (w.nodes i).Lived)
    {d : Wal rotates} (hd : (w.nodes i).wal = some d) (during : Option Event) (appends : Nat) :
    (cfg.restart i (Journal.appendAll d (w.lastWrites cfg i during appends))).Lived := by
  obtain ⟨s, hl, hn⟩ := h
  have hwrites : ∃ during', w.lastWrites cfg i during appends = s.lastWrites during' appends := by
    unfold Cluster.lastWrites
    cases during with
    | none => exact ⟨none, rfl⟩
    | some ev =>
        dsimp only
        split
        · obtain ⟨x, hx⟩ := writes_eq w i ev
          exact ⟨some x, by rw [hx, ← hn]; rfl⟩
        · exact ⟨none, rfl⟩
  obtain ⟨during', hw⟩ := hwrites
  refine ⟨s.turn (.crash during' appends), hl.turn _, ?_⟩
  show (s.remains during' appends).recover.start = _
  unfold Life.remains Node.recover Config.restart
  rw [hw, hn, hd, hlaw.id, hlaw.peers]
  rfl

/-- **Every member of a cluster leads such a life**, crashes included. -/
theorem lived_crashRun (hwal : ∀ i ∈ cfg.ids, cfg.wal i = some Wal.empty)
    (hw : Cluster.CrashRun cfg (Cluster.init cfg) w) (hi : i ∈ cfg.ids) :
    (w.nodes i).Lived := by
  have hinv : Lawful cfg w ∧ (w.nodes i).Lived := by
    refine Execution.Run.invariant hw ⟨lawful_init hwal, ?_⟩ ?_
    · refine ⟨_, ⟨i, cfg.peers i, [], rfl⟩, ?_⟩
      show (Node.newNode i (cfg.peers i) (some Wal.empty)).start = _
      rw [← hwal i hi]
      rfl
    · rintro w₁ x w₂ _ ⟨hlaw, hlife⟩ hx
      refine ⟨(lawful_undergo hlaw hx).1, ?_⟩
      cases x with
      | event ev => exact lived_act hlife hx
      | crash j during appends =>
          rw [Cluster.undergo] at hx
          split at hx
          · exact absurd hx (by simp)
          rename_i d hd
          split at hx
          swap
          · exact absurd hx (by simp)
          obtain rfl := Option.some.inj hx
          dsimp only
          by_cases hij : i = j
          · subst hij
            rw [setNode_self]
            exact lived_crash (hlaw.nodes i hi) hlife hd during appends
          · rw [setNode_ne _ _ _ hij]
            exact hlife
  exact hinv.2

end Members

end GammaFlow.Raft
