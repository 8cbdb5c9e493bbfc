import GammaFlow.Raft.ClusterSpec

/-!
# What each section writes to the write-ahead log

The records a section appends, in order, as a function of the state it starts
from. A section appends exactly these whatever the log does with them, since no
error changes its course before the last one.
-/

namespace GammaFlow.Raft

open GammaFlow.Storage

/-- The record `PersistEntry` writes. -/
def LogEntry.record (e : LogEntry) : WalRecord := .entry ⟨e.index, e.term, e.command⟩

/-- The entries the append loop places in the log: the request from the first one on that
is not there yet. -/
def newEntries (log : RaftLog) (idx : Nat) : List LogEntry → List LogEntry
  | [] => []
  | entry :: rest =>
      if log.contains idx then
        if log.termAt idx ≠ entry.term then entry :: rest else newEntries log (idx + 1) rest
      else entry :: rest

namespace Node

variable {ω : Type} [Journal ω]

instance (n : Node ω) (args : RequestVoteArgs) : Decidable (n.grants args) := by
  unfold grants; infer_instance

instance (log : RaftLog) (args : AppendEntriesArgs) : Decidable (consistent log args) := by
  unfold consistent; infer_instance

def startElectionWrites (n : Node ω) : List WalRecord :=
  [.term (n.currentTerm + 1), .vote n.id (n.currentTerm + 1)]

/-- Seeing a later term is recorded. -/
def termWrites (n : Node ω) (term : Nat) : List WalRecord :=
  if term > n.currentTerm then [.term term] else []

def requestVoteWrites (n : Node ω) (args : RequestVoteArgs) : List WalRecord :=
  n.termWrites args.term ++
    if (n.seeTerm args.term).grants args then [.vote args.candidateID args.term] else []

def voteReplyWrites (n : Node ω) (term : Nat) (reply : RequestVoteReply) : List WalRecord :=
  if n.currentTerm ≠ term ∨ n.state ≠ .candidate then [] else n.termWrites reply.term

def appendEntriesWrites (n : Node ω) (args : AppendEntriesArgs) : List WalRecord :=
  if args.term < n.currentTerm then []
  else n.termWrites args.term ++
    if consistent n.log args then
      (newEntries n.log (args.prevLogIndex + 1) args.entries).map LogEntry.record
    else []

def appendReplyWrites (n : Node ω) (term : Nat) (reply : AppendEntriesReply) : List WalRecord :=
  if n.state ≠ .leader ∨ n.currentTerm ≠ term then [] else n.termWrites reply.term

def submitCommandWrites (n : Node ω) (command : Command) : List WalRecord :=
  if n.state ≠ .leader then []
  else [LogEntry.record ⟨n.currentTerm, n.log.lastIndex + 1, command⟩]

/-! ## The sections append what was said -/

theorem persist_node (n : Node ω) (r : WalRecord) :
    (n.persist r).1 = { n with wal := n.wal.map (Journal.appendAll · [r]) } := by
  unfold persist
  obtain ⟨⟩ := n
  dsimp only
  split
  · rfl
  · rfl

theorem persist_wal (n : Node ω) (r : WalRecord) :
    (n.persist r).1.wal = n.wal.map (Journal.appendAll · [r]) := by
  rw [persist_node]

theorem map_appendAll (d : Option ω) (rs ss : List WalRecord) :
    (d.map (Journal.appendAll · rs)).map (Journal.appendAll · ss)
      = d.map (Journal.appendAll · (rs ++ ss)) := by
  rw [Option.map_map]
  congr 1
  funext d
  exact (appendAll_append d rs ss).symm

theorem map_appendAll_nil (d : Option ω) : d.map (Journal.appendAll · []) = d := by
  cases d <;> rfl

theorem persistEntries_wal (es : List LogEntry) : ∀ n : Node ω,
    (n.persistEntries es).wal = n.wal.map (Journal.appendAll · (es.map LogEntry.record)) := by
  induction es with
  | nil => intro n; exact (map_appendAll_nil n.wal).symm
  | cons e es ih =>
      intro n
      show (persistEntries (n.persist e.record).1 es).wal = _
      rw [ih, persist_wal, map_appendAll]
      rfl

theorem persistEntries_node (es : List LogEntry) (n : Node ω) : n.persistEntries es =
    { n with wal := n.wal.map (Journal.appendAll · (es.map LogEntry.record)) } := by
  obtain ⟨w, he⟩ := persistEntries_eq es n
  have hwal := persistEntries_wal es n
  rw [he] at hwal ⊢
  rw [← hwal]

theorem startElection_wal (n : Node ω) :
    n.startElection.1.wal = n.wal.map (Journal.appendAll · n.startElectionWrites) := by
  unfold startElection
  dsimp only
  rw [persist_wal, persist_node]
  dsimp only
  rw [map_appendAll]
  rfl

theorem becomeFollowerLocked_wal (n : Node ω) (term : Nat) :
    (n.becomeFollowerLocked term).wal = n.wal.map (Journal.appendAll · (n.termWrites term)) := by
  unfold becomeFollowerLocked termWrites
  by_cases ht : term > n.currentTerm
  · simp only [if_pos ht]
    split
    · exact persist_wal _ _
    · exact persist_wal _ _
  · simp only [if_neg ht, map_appendAll_nil]
    split
    · rfl
    · rfl

theorem seeTerm_wal (n : Node ω) (term : Nat) :
    (n.seeTerm term).wal = n.wal.map (Journal.appendAll · (n.termWrites term)) := by
  unfold seeTerm
  split
  · exact n.becomeFollowerLocked_wal term
  · rename_i ht
    unfold termWrites
    rw [if_neg ht, map_appendAll_nil]

theorem handleRequestVote_wal (n : Node ω) (args : RequestVoteArgs) :
    (n.handleRequestVote args).1.wal
      = n.wal.map (Journal.appendAll · (n.requestVoteWrites args)) := by
  unfold requestVoteWrites
  rcases n.handleRequestVote_cases args with ⟨hno, he, _⟩ | ⟨hg, _, _, he⟩
  · rw [if_neg hno, List.append_nil, he, seeTerm_wal]
  · rw [if_pos hg, he, persist_wal]
    show ((n.seeTerm args.term).wal).map _ = _
    rw [seeTerm_wal, map_appendAll]

theorem handleVoteReply_wal (n : Node ω) (term : Nat) (p : NodeID) (reply : RequestVoteReply) :
    (n.handleVoteReply term p reply).wal
      = n.wal.map (Journal.appendAll · (n.voteReplyWrites term reply)) := by
  have h := n.voteReplied term p reply
  generalize n.handleVoteReply term p reply = n' at h ⊢
  unfold voteReplyWrites termWrites
  cases h with
  | idle hlow =>
      split
      · exact (map_appendAll_nil n.wal).symm
      · rename_i hst
        obtain ⟨ht, hc⟩ := not_or.mp hst
        rw [if_neg (Nat.not_lt.mpr (hlow (not_not.mp ht) (not_not.mp hc))), map_appendAll_nil]
  | stepDown ht hc _ =>
      rw [if_neg (by simp [ht, hc])]
      exact n.becomeFollowerLocked_wal reply.term
  | counted ht hc hlow _ _ _ =>
      rw [if_neg (by simp [ht, hc]), if_neg (Nat.not_lt.mpr hlow), map_appendAll_nil]
  | elected ht hc hlow _ _ _ =>
      rw [if_neg (by simp [ht, hc]), if_neg (Nat.not_lt.mpr hlow), map_appendAll_nil]
      rfl

theorem appendNew_wal (es : List LogEntry) : ∀ (n : Node ω) (idx : Nat),
    (n.appendNew idx es).wal
      = n.wal.map (Journal.appendAll · ((newEntries n.log idx es).map LogEntry.record)) := by
  induction es with
  | nil => intro n idx; exact (map_appendAll_nil n.wal).symm
  | cons e es ih =>
      intro n idx
      rw [appendNew, newEntries]
      split
      · split
        · exact persistEntries_wal _ _
        · exact ih n (idx + 1)
      · exact persistEntries_wal _ _

theorem acceptLeader_wal (n : Node ω) (args : AppendEntriesArgs) :
    (n.acceptLeader args).wal = n.wal.map (Journal.appendAll · (n.termWrites args.term)) := by
  rw [← seeTerm_wal]
  unfold acceptLeader
  dsimp only
  rw [show (if args.term > n.currentTerm then n.becomeFollowerLocked args.term else n)
    = n.seeTerm args.term from rfl]
  split
  · rfl
  · rfl

theorem checkAndAppend_wal (n : Node ω) (args : AppendEntriesArgs) :
    (n.checkAndAppend args).1.wal = n.wal.map (Journal.appendAll ·
      (if consistent n.log args then
        (newEntries n.log (args.prevLogIndex + 1) args.entries).map LogEntry.record else [])) := by
  rcases n.checkAndAppend_cases args with ⟨hno, he, _⟩ | ⟨hyes, _, _, he⟩
  · rw [if_neg hno, he, map_appendAll_nil]
  · rw [if_pos hyes, he, ← appendNew_wal]
    unfold updateCommit
    split
    · rfl
    · rfl

theorem handleAppendEntries_wal (n : Node ω) (args : AppendEntriesArgs) :
    (n.handleAppendEntries args).1.wal
      = n.wal.map (Journal.appendAll · (n.appendEntriesWrites args)) := by
  unfold handleAppendEntries appendEntriesWrites
  split
  · exact (map_appendAll_nil n.wal).symm
  · rename_i hlt
    obtain ⟨v, vr, rt, d, he⟩ := n.acceptLeader_eq args (by omega)
    have hlog : (n.acceptLeader args).log = n.log := by rw [he]
    rw [checkAndAppend_wal, acceptLeader_wal, map_appendAll, hlog]

theorem handleAppendReply_wal (n : Node ω) (term : Nat) (p : NodeID) (es : List LogEntry)
    (reply : AppendEntriesReply) :
    (n.handleAppendReply term p es reply).wal
      = n.wal.map (Journal.appendAll · (n.appendReplyWrites term reply)) := by
  unfold appendReplyWrites
  by_cases hst : n.state ≠ .leader ∨ n.currentTerm ≠ term
  · unfold handleAppendReply
    rw [if_pos hst, if_pos hst, map_appendAll_nil]
  rw [if_neg hst]
  unfold handleAppendReply
  rw [if_neg hst]
  split
  · exact n.becomeFollowerLocked_wal reply.term
  · rename_i ht
    unfold termWrites
    rw [if_neg ht, map_appendAll_nil]
    split
    · split
      · rfl
      · rename_i last _
        obtain ⟨ni, mi, c, _, he⟩ := n.ackedLocked_eq p (last.index + 1)
        rw [he]
    · rw [n.handleConflictLocked_eq p reply]

theorem submitCommand_wal (n : Node ω) (command : Command) :
    (n.submitCommand command).1.wal
      = n.wal.map (Journal.appendAll · (n.submitCommandWrites command)) := by
  unfold submitCommand submitCommandWrites
  split
  · exact (map_appendAll_nil n.wal).symm
  · dsimp only
    split
    · exact persist_wal _ _
    · exact persist_wal _ _

/-- The node's term and vote, together with its write-ahead log, have the property `P`. -/
def Keeps (P : Nat → NodeID → ω → Prop) (n : Node ω) : Prop :=
  ∃ d, n.wal = some d ∧ P n.currentTerm n.votedFor d

end Node

/-! ## What survives every write -/

/--
A property of a node's term, its vote and its write-ahead log that survives every record
a section appends, together with what the section does to term and vote before it.
Votes may be restricted to those that `may` allows.
-/
structure Survives {ω : Type} [Journal ω] (P : Nat → NodeID → ω → Prop)
    (may : NodeID → Nat → Prop) : Prop where
  term : ∀ {t v d}, P t v d → ∀ t', t < t' → P t' "" (Journal.append d (.term t')).1
  vote : ∀ {t v d}, P t v d → ∀ X, may X t → v = "" ∨ v = X →
    P t X (Journal.append d (.vote X t)).1
  entry : ∀ {t v d}, P t v d → ∀ e, P t v (Journal.append d (.entry e)).1

namespace Survives

variable {ω : Type} [Journal ω] {P : Nat → NodeID → ω → Prop} {may : NodeID → Nat → Prop}
  {n n' : Node ω} {t : Nat} {v : NodeID} {d : ω}

theorem entries (hP : Survives P may) (es : List LogEntry) : ∀ {d : ω}, P t v d →
    P t v (Journal.appendAll d (es.map LogEntry.record)) := by
  induction es with
  | nil => intro d h; exact h
  | cons e es ih => intro d h; exact ih (hP.entry h _)

/-- Seeing a term, written out. -/
theorem see (hP : Survives P may) (h : P n.currentTerm n.votedFor d) (t : Nat) :
    P (if t > n.currentTerm then t else n.currentTerm)
      (if t > n.currentTerm then "" else n.votedFor) (Journal.appendAll d (n.termWrites t)) := by
  unfold Node.termWrites
  split
  · rename_i ht; exact hP.term h t ht
  · exact h

theorem of_wal {rs : List WalRecord} (hd : n.wal = some d)
    (hwal : n'.wal = n.wal.map (Journal.appendAll · rs))
    (h : P n'.currentTerm n'.votedFor (Journal.appendAll d rs)) : n'.Keeps P :=
  ⟨_, by rw [hwal, hd]; rfl, h⟩

theorem startElection (hP : Survives P may) (h : n.Keeps P)
    (hid : may n.id (n.currentTerm + 1)) : n.startElection.1.Keeps P := by
  obtain ⟨d, hd, h⟩ := h
  refine of_wal hd n.startElection_wal ?_
  obtain ⟨rt, d', he, _⟩ := n.startElection_eq
  rw [he]
  exact hP.vote (hP.term h _ (Nat.lt_succ_self _)) n.id hid (Or.inl rfl)

theorem becomeFollowerLocked (hP : Survives P may) (h : n.Keeps P) (t : Nat) :
    (n.becomeFollowerLocked t).Keeps P := by
  obtain ⟨d, hd, h⟩ := h
  refine of_wal hd (n.becomeFollowerLocked_wal t) ?_
  obtain ⟨rt, d', he⟩ := n.becomeFollowerLocked_eq t
  rw [he]
  exact hP.see h t

theorem seeTerm (hP : Survives P may) (h : n.Keeps P) (t : Nat) : (n.seeTerm t).Keeps P := by
  unfold Node.seeTerm
  split
  · exact hP.becomeFollowerLocked h t
  · exact h

theorem handleRequestVote (hP : Survives P may) (h : n.Keeps P) {args : RequestVoteArgs}
    (hc : may args.candidateID args.term) : (n.handleRequestVote args).1.Keeps P := by
  have hsee := hP.seeTerm h args.term
  rcases n.handleRequestVote_cases args with ⟨_, he, _⟩ | ⟨hg, _, _, he⟩
  · rw [he]; exact hsee
  · obtain ⟨hterm, hvf, _⟩ := hg
    obtain ⟨d, hd, hsee⟩ := hsee
    rw [he]
    refine of_wal hd (Node.persist_wal _ _) ?_
    rw [Node.persist_node]
    dsimp only
    rw [← hterm] at hsee ⊢
    exact hP.vote hsee _ hc hvf

theorem handleVoteReply (hP : Survives P may) (h : n.Keeps P) (t : Nat) (p : NodeID)
    (r : RequestVoteReply) : (n.handleVoteReply t p r).Keeps P := by
  have hv := n.voteReplied t p r
  generalize n.handleVoteReply t p r = n' at hv ⊢
  cases hv with
  | idle _ => exact h
  | stepDown _ _ _ => exact hP.becomeFollowerLocked h r.term
  | counted _ _ _ _ _ _ => exact h
  | elected _ _ _ _ _ _ => exact h

theorem handleAppendEntries (hP : Survives P may) (h : n.Keeps P) (args : AppendEntriesArgs) :
    (n.handleAppendEntries args).1.Keeps P := by
  by_cases hlt : args.term < n.currentTerm
  · unfold Node.handleAppendEntries
    rw [if_pos hlt]; exact h
  obtain ⟨d, hd, h⟩ := h
  refine of_wal hd (n.handleAppendEntries_wal args) ?_
  unfold Node.appendEntriesWrites
  rw [if_neg hlt]
  obtain ⟨vs, vr, log, c, rt, d', he⟩ := n.handleAppendEntries_eq args hlt
  have hsee := hP.see h args.term
  have hterm : (if args.term > n.currentTerm then args.term else n.currentTerm) = args.term := by
    split <;> omega
  rw [hterm] at hsee
  rw [he, appendAll_append]
  by_cases hc : Node.consistent n.log args
  · rw [if_pos hc]; exact hP.entries _ hsee
  · rw [if_neg hc]; exact hsee

theorem handleAppendReply (hP : Survives P may) (h : n.Keeps P) (t : Nat) (p : NodeID)
    (es : List LogEntry) (r : AppendEntriesReply) : (n.handleAppendReply t p es r).Keeps P := by
  rcases n.handleAppendReply_cases t p es r with ⟨_, _, he⟩ | ⟨ni, mi, c, _, _, he⟩
  · rw [he]; exact hP.becomeFollowerLocked h r.term
  · rw [he]; exact h

theorem submitCommand (hP : Survives P may) (h : n.Keeps P) (command : Command) :
    (n.submitCommand command).1.Keeps P := by
  rcases n.submitCommand_cases command with ⟨_, he⟩ | ⟨hl, d', he⟩
  · rw [he]; exact h
  · obtain ⟨d, hd, h⟩ := h
    refine of_wal hd (n.submitCommand_wal command) ?_
    unfold Node.submitCommandWrites
    rw [if_neg (by simpa using hl), he]
    exact hP.entry h _

end Survives

/-! ## The events -/

variable {ω : Type} [Journal ω] {cfg : Config ω} {w w' : Cluster ω}

/-- The records node `i` appends in an event. -/
def Cluster.writes (w : Cluster ω) (i : NodeID) : Event → List WalRecord
  | .startElection j => if j = i then (w.nodes i).startElectionWrites else []
  | .requestVote k =>
      match w.voteCalls[k]? with
      | some c => if c.peer = i then (w.nodes i).requestVoteWrites c.args else []
      | none => []
  | .voteReply k =>
      match w.voteReplies[k]? with
      | some (c, r) => if c.caller = i then (w.nodes i).voteReplyWrites c.args.term r else []
      | none => []
  | .appendEntries k =>
      match w.appendCalls[k]? with
      | some c => if c.peer = i then (w.nodes i).appendEntriesWrites c.args else []
      | none => []
  | .appendReply k =>
      match w.appendReplies[k]? with
      | some (c, r) => if c.caller = i then (w.nodes i).appendReplyWrites c.args.term r else []
      | none => []
  | .submitCommand j command => if j = i then (w.nodes i).submitCommandWrites command else []
  | _ => []

theorem wal_of_setNode {v : NodeID} {n : Node ω} (rs : NodeID → List WalRecord)
    (hn : w'.nodes = (w.setNode v n).nodes)
    (hwal : n.wal = (w.nodes v).wal.map (Journal.appendAll · (rs v))) (i : NodeID) :
    (w'.nodes i).wal = (w.nodes i).wal.map (Journal.appendAll · (if v = i then rs i else [])) := by
  rw [hn]
  by_cases hi : v = i
  · rw [if_pos hi, ← hi, setNode_self]; exact hwal
  · rw [if_neg hi, Node.map_appendAll_nil, setNode_ne w v n (Ne.symm hi)]

/-- **An event appends what `writes` says, to every log.** -/
theorem act_wal {ev : Event} (hs : w.act cfg ev = some w') (i : NodeID) :
    (w'.nodes i).wal = (w.nodes i).wal.map (Journal.appendAll · (w.writes i ev)) := by
  cases acts_of_act hs with
  | startElection j hj =>
      exact wal_of_setNode (fun j => (w.nodes j).startElectionWrites) rfl
        (w.nodes j).startElection_wal i
  | requestVote k c hc =>
      unfold Cluster.writes
      dsimp only
      rw [hc]
      exact wal_of_setNode (fun j => (w.nodes j).requestVoteWrites c.args) rfl
        ((w.nodes c.peer).handleRequestVote_wal c.args) i
  | voteReply k c r hc =>
      unfold Cluster.writes
      dsimp only
      rw [hc]
      exact wal_of_setNode (fun j => (w.nodes j).voteReplyWrites c.args.term r) rfl
        ((w.nodes c.caller).handleVoteReply_wal c.args.term c.peer r) i
  | appendEntries k c hc =>
      unfold Cluster.writes
      dsimp only
      rw [hc]
      exact wal_of_setNode (fun j => (w.nodes j).appendEntriesWrites c.args) rfl
        ((w.nodes c.peer).handleAppendEntries_wal c.args) i
  | appendReply k c r hc =>
      unfold Cluster.writes
      dsimp only
      rw [hc]
      exact wal_of_setNode (fun j => (w.nodes j).appendReplyWrites c.args.term r) rfl
        ((w.nodes c.caller).handleAppendReply_wal c.args.term c.peer c.args.entries r) i
  | submitted j command index term hj _ =>
      exact wal_of_setNode (fun j => (w.nodes j).submitCommandWrites command) rfl
        ((w.nodes j).submitCommand_wal command) i
  | refused j command hj =>
      exact wal_of_setNode (fun j => (w.nodes j).submitCommandWrites command) rfl
        ((w.nodes j).submitCommand_wal command) i
  | finishApply j m hj =>
      show ((w.setNode j { w.nodes j with lastApplied := m }).nodes i).wal
        = (w.nodes i).wal.map (Journal.appendAll · [])
      rw [Node.map_appendAll_nil]
      by_cases hi : i = j
      · rw [hi, setNode_self]
      · rw [setNode_ne w j _ hi]
  | _ => exact (Node.map_appendAll_nil (w.nodes i).wal).symm

/-! ## Logs that never fail -/

section Wal

variable {rotates : List (List WalRecord) → WalRecord → Bool}

/-- What is on record for a node. -/
def Node.records (n : Node (Wal rotates)) : List WalRecord :=
  match n.wal with
  | none => []
  | some d => d.records

theorem records_of_wal {n n' : Node (Wal rotates)} {rs : List WalRecord} (hd : n.wal.isSome)
    (h : n'.wal = n.wal.map (Journal.appendAll · rs)) :
    n'.wal.isSome ∧ n'.records = n.records ++ rs := by
  obtain ⟨d, hd⟩ := Option.isSome_iff_exists.mp hd
  have h' : n'.wal = some (Journal.appendAll d rs) := by rw [h, hd]; rfl
  refine ⟨by rw [h']; rfl, ?_⟩
  unfold Node.records
  rw [h', hd]
  exact Wal.records_appendAll rs d

end Wal

end GammaFlow.Raft
