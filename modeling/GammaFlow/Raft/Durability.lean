import GammaFlow.Storage.FailedAppends
import GammaFlow.Raft.Disk

/-!
# Persist before reply

A vote, an election and an accepted entry each vouch for something that should be on
disk before anyone hears of it. The sections write in that order, but they go on when
a write fails: the error is logged, the vote is granted, the requests go out and
success is reported all the same. And a failed append leaves in the file what it has
written, so that a record behind it is not read back even if its own append succeeds
(`vote_behind_part`).

As long as no append of a node fails, whatever the node vouches for is among the records
that a replay of its files reads (`persist_before_reply`).
-/

namespace GammaFlow.Raft

open GammaFlow.Storage

/-! ## Disks that fail -/

/--
A write-ahead log in files of bytes, whose appends may fail: for each of the next ones, how
many bytes of the record are in the file when it returns the error, if it does.
-/
structure FlakyDisk (J : Json) where
  files : WalFiles
  outcomes : List (Option Nat)
  deriving DecidableEq

variable {J : Json}

namespace FlakyDisk

def append (d : FlakyDisk J) (r : WalRecord) : FlakyDisk J × Bool :=
  match d.outcomes with
  | [] => (⟨d.files.append J r, []⟩, true)
  | none :: rest => (⟨d.files.append J r, rest⟩, true)
  | some k :: rest => (⟨d.files.fail J r k, rest⟩, false)

instance : Journal (FlakyDisk J) where
  append := append

/-- A replay of the files reads the record. -/
def Durable (d : FlakyDisk J) (r : WalRecord) : Prop := J.ReadsBack d.files.dir r

/-- Nothing but whole records is in the files that a replay has to read. -/
def Intact (d : FlakyDisk J) : Prop := ∃ rs : List J.Record, d.files.Holds rs

/-- None of the records fails to be appended, one after the other. -/
def Succeeds : FlakyDisk J → List WalRecord → Prop
  | _, [] => True
  | d, r :: rs => (d.append r).2 = true ∧ Succeeds (d.append r).1 rs

instance decidableSucceeds : ∀ (d : FlakyDisk J) (rs : List WalRecord), Decidable (d.Succeeds rs)
  | _, [] => isTrue trivial
  | d, r :: rs =>
      have := decidableSucceeds (d.append r).1 rs
      inferInstanceAs (Decidable (_ ∧ _))

theorem files_append {d : FlakyDisk J} {r : WalRecord} (h : (d.append r).2 = true) :
    (d.append r).1.files = d.files.append J r := by
  unfold append at h ⊢
  split
  · rfl
  · rfl
  · rename_i hfails
    rw [hfails] at h
    exact absurd h (by simp)

/-- Where no append fails, the files are those of a disk that works. -/
theorem files_appendAll (rs : List WalRecord) : ∀ {d : FlakyDisk J}, d.Succeeds rs →
    (Journal.appendAll d rs).files = (Journal.appendAll (⟨d.files⟩ : Disk J) rs).files := by
  induction rs with
  | nil => intro d _; rfl
  | cons r rs ih =>
      intro d h
      have hrest := ih h.2
      rw [files_append h.1] at hrest
      exact hrest

/-- **Appends that succeed can be read back**, and so can what was there before. -/
theorem durable_appendAll {d : FlakyDisk J} (hd : d.Intact) {rs : List WalRecord}
    (hok : d.Succeeds rs) (hfits : ∀ r ∈ rs, Fits J r) :
    (Journal.appendAll d rs).Intact ∧ ∀ r ∈ rs, (Journal.appendAll d rs).Durable r := by
  obtain ⟨ss, hholds⟩ := hd
  obtain ⟨ss', hholds', hplain⟩ := holds_appendAll (d := ⟨d.files⟩) hholds hfits
  rw [← files_appendAll rs hok] at hholds'
  refine ⟨⟨ss', hholds'⟩, ?_⟩
  intro r hr
  refine readsBack_of_holds hholds' ?_
  rw [hplain]
  exact List.mem_append_right _ hr

end FlakyDisk

/-! ## What an answer vouches for -/

/--
The records that an event at node `i` vouches for, with what is to hold of them: an election
for the new term and the node's own vote, a granted vote for that vote, and a success for
every entry that the request has placed in the log.
-/
structure Vouches {ω : Type} [Journal ω] (i : NodeID) (D : WalRecord → Prop) (w : Cluster ω)
    (ev : Event) : Prop where
  election : ev = .startElection i → D (.term ((w.nodes i).currentTerm + 1)) ∧
    D (.vote (w.nodes i).id ((w.nodes i).currentTerm + 1))
  vote : ∀ k c, ev = .requestVote k → w.voteCalls[k]? = some c → c.peer = i →
    ((w.nodes i).handleRequestVote c.args).2.voteGranted = true →
    D (.vote c.args.candidateID c.args.term)
  success : ∀ k c, ev = .appendEntries k → w.appendCalls[k]? = some c → c.peer = i →
    ((w.nodes i).handleAppendEntries c.args).2.success = true →
    ∀ e ∈ newEntries (w.nodes i).log (c.args.prevLogIndex + 1) c.args.entries, D e.record

theorem Vouches.mono {ω : Type} [Journal ω] {i : NodeID} {D D' : WalRecord → Prop}
    {w : Cluster ω} {ev : Event} (h : Vouches i D w ev) (hD : ∀ r, D r → D' r) :
    Vouches i D' w ev where
  election hi := ⟨hD _ (h.election hi).1, hD _ (h.election hi).2⟩
  vote k c hk hc hi hg := hD _ (h.vote k c hk hc hi hg)
  success k c hk hc hi hs e he := hD _ (h.success k c hk hc hi hs e he)

/-- **An event vouches only for what it writes itself.** -/
theorem vouches_writes {ω : Type} [Journal ω] (i : NodeID) (w : Cluster ω) (ev : Event) :
    Vouches i (· ∈ w.writes i ev) w ev where
  election hi := by
    subst hi
    simp [Cluster.writes, Node.startElectionWrites]
  vote k c hk hc hi hg := by
    subst hk hi
    unfold Cluster.writes
    dsimp only
    rw [hc]
    dsimp only
    rw [if_pos rfl]
    unfold Node.requestVoteWrites
    rcases (w.nodes c.peer).handleRequestVote_cases c.args with ⟨_, _, hno⟩ | ⟨hyes, _⟩
    · rw [hno] at hg; exact absurd hg (by simp)
    · rw [if_pos hyes]; simp
  success k c hk hc hi hsucc e he := by
    subst hk hi
    unfold Cluster.writes
    dsimp only
    rw [hc]
    dsimp only
    rw [if_pos rfl]
    unfold Node.appendEntriesWrites
    unfold Node.handleAppendEntries at hsucc
    split at hsucc
    · exact absurd hsucc (by simp)
    · rename_i hlt
      obtain ⟨v, vr, rt, d, hacc⟩ := (w.nodes c.peer).acceptLeader_eq c.args (by omega)
      rw [if_neg hlt]
      rcases ((w.nodes c.peer).acceptLeader c.args).checkAndAppend_cases c.args
        with ⟨_, _, hno, _⟩ | ⟨hyes, _⟩
      · rw [hno] at hsucc; exact absurd hsucc (by simp)
      · rw [hacc] at hyes
        rw [if_pos hyes]
        exact List.mem_append_right _ (List.mem_map_of_mem he)

variable {cfg : Config (FlakyDisk J)} {w w' : Cluster (FlakyDisk J)} {ev : Event} {i : NodeID}

/-- When the answer leaves node `i`, what it vouches for is durable, if the node has a log. -/
def PersistBeforeReply (i : NodeID) (w : Cluster (FlakyDisk J)) (ev : Event)
    (w' : Cluster (FlakyDisk J)) : Prop :=
  Vouches i (fun r => ∀ d, (w'.nodes i).wal = some d → d.Durable r) w ev

/-- None of the appends of node `i` fails, and none of its payloads is too long for the header. -/
def AppendsSucceed (i : NodeID) (w : Cluster (FlakyDisk J)) (ev : Event) : Prop :=
  (∀ d ∈ (w.nodes i).wal, d.Succeeds (w.writes i ev)) ∧ ∀ r ∈ w.writes i ev, Fits J r

/-- The step of `persist_before_reply`. -/
theorem persists_act (hs : w.act cfg ev = some w') (hd : ∀ d ∈ (w.nodes i).wal, d.Intact)
    (hok : AppendsSucceed i w ev) :
    PersistBeforeReply i w ev w' ∧ ∀ d ∈ (w'.nodes i).wal, d.Intact := by
  have hdisk : ∀ d' ∈ (w'.nodes i).wal, d'.Intact ∧ ∀ r ∈ w.writes i ev, d'.Durable r := by
    intro d' hd'
    rw [act_wal hs i] at hd'
    obtain ⟨d, hmem, rfl⟩ := Option.map_eq_some_iff.mp hd'
    exact FlakyDisk.durable_appendAll (hd d hmem) (hok.1 d hmem) hok.2
  refine ⟨?_, fun d' hd' => (hdisk d' hd').1⟩
  exact (vouches_writes i w ev).mono fun r hr d' hd' => (hdisk d' hd').2 r hr

/--
**Persist before reply, where no append fails.** In every run, from files with whole records
only, in which no append of node `i` fails: whenever `i` grants a vote, calls an election or
accepts entries, what it vouches for is among the records that a replay of its files reads.
The logs of the other nodes may fail.
-/
theorem persist_before_reply (hd : ∀ d ∈ (w.nodes i).wal, d.Intact) {evs : List Event}
    (hok : Execution.Always (Cluster.act cfg) (fun w ev _ => AppendsSucceed i w ev) w evs) :
    Execution.Always (Cluster.act cfg) (PersistBeforeReply i) w evs :=
  Execution.Always.mono (I := fun w => ∀ d ∈ (w.nodes i).wal, d.Intact)
    (fun _ _ _ hs hI h => persists_act hs hI h) hd hok

instance (i : NodeID) (w : Cluster (FlakyDisk J)) (ev : Event) :
    Decidable (AppendsSucceed i w ev) := inferInstanceAs (Decidable (_ ∧ _))

/-- The cluster with a disk for `c` that works, and for the others one whose first write fails. -/
def workingC : Config (FlakyDisk plainJson) := volatileABC.over fun i =>
  some ⟨WalFiles.newWAL [], if i = "c" then [] else [some 9]⟩

/-- `c` confirms an entry of `b`, and the record can be read back from its disk. -/
theorem persist_before_reply_abc :
    ∃ w, Cluster.exec workingC (Cluster.init workingC) replicateEvents = some w ∧
      (w.appendReplies.map fun cr => (cr.1.peer, cr.2.success)) = [("c", true)] ∧
      Execution.Always (Cluster.act workingC) (PersistBeforeReply "c") (Cluster.init workingC)
        replicateEvents := by
  obtain ⟨w, hw, h⟩ : ∃ w ∈ Cluster.exec workingC (Cluster.init workingC) replicateEvents,
      (w.appendReplies.map fun cr => (cr.1.peer, cr.2.success)) = [("c", true)] := by
    decide +kernel
  have hok : Execution.Always (Cluster.act workingC) (fun w ev _ => AppendsSucceed "c" w ev)
      (Cluster.init workingC) replicateEvents := by
    decide +kernel
  refine ⟨w, hw, h, persist_before_reply ?_ hok⟩
  intro d hd
  rw [← Option.some.inj hd]
  exact ⟨[], WalFiles.holds_newWAL⟩

/-! ## Failures -/

/-- The cluster with write-ahead logs on a disk that is full. -/
def fullDiskABC : Config (FlakyDisk plainJson) :=
  abc (some ⟨WalFiles.newWAL [], List.replicate 8 (some 0)⟩)

/--
Nothing can be read back anywhere, and still `b` has sent its vote requests, `a` has
granted its vote, and `c` has confirmed the entry it placed in its log.
-/
theorem persist_full_disk_abc : ∃ w, Cluster.Reachable fullDiskABC w ∧
    (∀ i ∈ fullDiskABC.ids, ∀ d ∈ (w.nodes i).wal, ∀ r, ¬ d.Durable r) ∧
    w.voteCalls.length = 2 ∧ (w.voteReplies.map fun cr => (cr.1.peer, cr.2)) = [("a", ⟨1, true⟩)] ∧
    (w.appendReplies.map fun cr => (cr.1.peer, cr.2.success)) = [("c", true)] ∧
    (w.nodes "c").log.body = [⟨1, 1, [1]⟩] := by
  obtain ⟨w, hw, hempty, h⟩ := Cluster.exists_run fullDiskABC (Cluster.init fullDiskABC)
    replicateEvents
    (fun w => (∀ i ∈ fullDiskABC.ids, ∀ d ∈ (w.nodes i).wal, ∀ file ∈ d.files.dir, file = []) ∧
      w.voteCalls.length = 2 ∧
      (w.voteReplies.map fun cr => (cr.1.peer, cr.2)) = [("a", ⟨1, true⟩)] ∧
      (w.appendReplies.map fun cr => (cr.1.peer, cr.2.success)) = [("c", true)] ∧
      (w.nodes "c").log.body = [⟨1, 1, [1]⟩]) (by decide +kernel)
  refine ⟨w, hw, ?_, h⟩
  intro i hi d hd
  refine not_readsBack_of_nil fun file hfile => ?_
  rw [hempty i hi d hd file hfile]
  exact readLoop_nil

/-- The cluster with disks whose first write fails after nine bytes. -/
def firstFailsABC : Config (FlakyDisk plainJson) := abc (some ⟨WalFiles.newWAL [], [some 9]⟩)

/--
`b` calls an election. The append of its term fails after nine bytes, and that of its vote
succeeds, but behind those bytes: neither record can be read back.
-/
theorem vote_behind_part : ∃ w, Cluster.exec firstFailsABC (Cluster.init firstFailsABC)
      [.startElection "b"] = some w ∧ w.voteCalls.length = 2 ∧
    ∀ d ∈ (w.nodes "b").wal, d.files.dir = [(plainJson.encode (.term 1)).take 9 ++
      plainJson.encode (.vote "b" 1)] ∧ ∀ r, ¬ d.Durable r := by
  obtain ⟨w, hw, hcalls, hdir⟩ : ∃ w ∈ Cluster.exec firstFailsABC (Cluster.init firstFailsABC)
      [.startElection "b"], w.voteCalls.length = 2 ∧
      ∀ d ∈ (w.nodes "b").wal, d.files.dir = [(plainJson.encode (.term 1)).take 9 ++
        plainJson.encode (.vote "b" 1)] := by
    decide +kernel
  have hread : readRecord ((plainJson.encode (.term 1)).take 9 ++
      plainJson.encode (.vote "b" 1)) = .mismatch := by
    decide +kernel
  refine ⟨w, hw, hcalls, fun d hd => ⟨hdir d hd, ?_⟩⟩
  refine not_readsBack_of_nil fun file hfile => ?_
  rw [hdir d hd, List.mem_singleton] at hfile
  rw [hfile]
  exact readLoop_of_stop (Or.inr (Or.inr hread))

end GammaFlow.Raft
