import GammaFlow.Raft.Disk
import GammaFlow.Raft.Recovery
import GammaFlow.Raft.Redirect

/-!
# What survives a crash of everyone

An answer to a client rests on a majority of logs, and every entry of a log has been written
to the disk of its node before anything was said about it. So when a run without restarts has
come to an answer, all nodes may stop at once, in whatever section and at whatever byte of an
append: a majority of them comes back with the entry in its log (`acked_survives`).

This is about the first restart only. A stop one to seven bytes into an append leaves bytes in
front of everything that is appended afterwards.
-/

namespace GammaFlow.Raft

open GammaFlow.Storage

/-! ## Logs and records -/

section Records

variable {rotates : List (List WalRecord) → WalRecord → Bool} {cfg : Config (Wal rotates)}
  {w : Cluster (Wal rotates)}

/-- Every entry of a log is on record. -/
theorem stored_reachable (hwal : ∀ i, (cfg.wal i).isSome) (hw : Cluster.Reachable cfg w) :
    ∀ i, (w.nodes i).wal.isSome ∧ ∀ e ∈ (w.nodes i).log.body, e ∈ (w.nodes i).stored := by
  refine Execution.Run.invariant hw ?_ ?_
  · intro i
    exact ⟨hwal i, fun e he => absurd he (by simp [Cluster.init, Node.newNode, Node.start,
      RaftLog.newRaftLog, RaftLog.body])⟩
  · intro w₁ ev w₂ _ ih hs i
    obtain ⟨m, new, hg⟩ := act_grows hs (ih i).1
    refine ⟨hg.durable, ?_⟩
    intro e he
    rw [hg.log] at he
    rw [hg.stored]
    rcases List.mem_append.mp he with he | he
    · exact List.mem_append_left _ ((ih i).2 e (List.mem_of_mem_take he))
    · exact List.mem_append_right _ he

end Records

/-! ## Disks -/

variable {J : Json} {cfg : Config (Disk J)} {w : Cluster (Disk J)}

/-- A run without crashes, and its twin. -/
theorem twin_exec (hwal : ∀ i ∈ cfg.ids, cfg.wal i = some Disk.empty) {evs : List Event}
    (hfits : Execution.Always (Cluster.act cfg)
      (fun w ev _ => ∀ i ∈ cfg.ids, ∀ r ∈ w.writes i ev, Fits J r) (Cluster.init cfg) evs)
    (hx : (Cluster.init cfg).exec cfg evs = some w) :
    ∃ v, Cluster.Reachable cfg.recorded v ∧ Twin cfg w v := by
  refine Execution.Always.invariant
    (I := fun _ w => ∃ v, Cluster.Reachable cfg.recorded v ∧ Twin cfg w v)
    ⟨_, Relation.ReflTransGen.refl, twin_init hwal⟩ ?_ hfits hx
  rintro _ w₁ ev w₂ _ ⟨v₁, hv₁, ht₁⟩ hfits hs
  obtain ⟨v₂, hv₂, ht₂⟩ := twin_event ht₁ hs hfits
  exact ⟨v₂, hv₁.tail ⟨ev, hv₂⟩, ht₂⟩

/-- A member that has an entry in its log has it again after a crash. -/
theorem mem_after_crash {v : Cluster OneFile} (ht : Twin cfg w v)
    (hv : Cluster.Reachable cfg.recorded v) {i : NodeID} (hi : i ∈ cfg.ids) {e : LogEntry}
    (he : e ∈ (w.nodes i).log.body) {during : Option Event}
    (hfits : ∀ r ∈ w.inTurn cfg i during, Fits J r) (appends : Nat) (bytes : Option Nat) :
    ∃ w', w.undergoDisk cfg (.crash i during appends bytes) = some w' ∧
      e ∈ (w'.nodes i).log.body := by
  obtain ⟨d, f, rs, hd, hf, hholds, hrec⟩ := ht.logs i hi
  obtain ⟨files, fs, rs', hreplay, _, hflat, hrs'⟩ := replay_left hholds hfits appends bytes
  have hboot : cfg.reboot i (d.left (w.inTurn cfg i during) appends bytes) =
      some ((Node.newNode i (cfg.peers i) (some ⟨files⟩)).replay (Storage.replay fs)).start := by
    rw [Config.reboot, hreplay]
    rfl
  refine ⟨_, by rw [Cluster.undergoDisk, hd]; dsimp only; rw [if_pos hi, hboot]; rfl, ?_⟩
  -- the new process has the entries of all records that it reads
  have hbody : ((Node.newNode i (cfg.peers i) (some (⟨files⟩ : Disk J))).replay
      (Storage.replay fs)).start.log.body = fs.flatten.filterMap entryOf :=
    replay_body (Node.newNode i (cfg.peers i) (some (⟨files⟩ : Disk J))) rfl fs
  dsimp only
  rw [setNode_self, hbody, hflat, hrs', List.filterMap_append]
  have hlog : (w.nodes i).log = (v.nodes i).log :=
    congrArg Node.log (congrFun (congrArg Cluster.nodes ht.memory) i)
  have hstored : e ∈ (v.nodes i).stored := (stored_reachable (fun _ => rfl) hv i).2 e (hlog ▸ he)
  unfold Node.stored Node.records at hstored
  rw [hf] at hstored
  rw [← hrec]
  exact List.mem_append_left _ hstored

/--
**An acknowledged command survives a crash of everyone.** If `SubmitCommand` has returned
without an error in a run without restarts, there are more than half of the members such that
each of them, in whatever section and after whatever number of bytes it is stopped at that
moment, comes back from its files with the entry in its log.
-/
theorem acked_survives (hwal : ∀ i ∈ cfg.ids, cfg.wal i = some Disk.empty) {evs : List Event}
    (hfits : Execution.Always (Cluster.act cfg)
      (fun w ev _ => ∀ i ∈ cfg.ids, ∀ r ∈ w.writes i ev, Fits J r) (Cluster.init cfg) evs)
    (hx : (Cluster.init cfg).exec cfg evs = some w) {k : Nat} {c : Submit} (hacked : w.Acked k c) :
    ∃ L : List NodeID, L.Sublist cfg.ids ∧ cfg.ids.length < 2 * L.length ∧
      ∀ i ∈ L, ∀ during, (∀ r ∈ w.inTurn cfg i during, Fits J r) → ∀ appends bytes,
        ∃ w', w.undergoDisk cfg (.crash i during appends bytes) = some w' ∧
          c.entry ∈ (w'.nodes i).log.body := by
  have hw : Cluster.Reachable cfg w := Execution.run_of_exec hx
  obtain ⟨v, hv, ht⟩ := twin_exec hwal hfits hx
  obtain ⟨hpos, hcommit, _, hagree⟩ := hacked.committed hw
  have hmaj := holders_of_committed hw (e := c.entry) hpos ⟨c.node, hcommit, hagree c.node hcommit⟩
  refine ⟨cfg.ids.filter fun i => (w.nodes i).Has c.entry, List.filter_sublist, ?_, ?_⟩
  · rw [← List.countP_eq_length_filter]
    exact hmaj
  · intro i hi during hfits appends bytes
    obtain ⟨hid, hhas⟩ := List.mem_filter.mp hi
    have hmem : c.entry ∈ (w.nodes i).log.body := by
      have hhas := of_decide_eq_true hhas
      unfold Node.Has at hhas
      rw [RaftLog.getElem?_entries (k := c.entry.index) _ hpos] at hhas
      exact List.mem_of_getElem? hhas
    exact mem_after_crash ht hv hid hmem hfits appends bytes

/--
Two of three come back with the command that was acknowledged, if each of them calls an
election and is stopped anywhere in the record of its new term.
-/
theorem acked_survives_abc : ∃ w,
    (Cluster.init diskABC).exec diskABC (acknowledgeEvents ++ [.pollSubmit 0]) = some w ∧
    (∀ i ∈ diskABC.ids, w.inTurn diskABC i (some (.startElection i)) = [.term 2, .vote i 2]) ∧
    ∃ L : List NodeID, L.Sublist diskABC.ids ∧ 2 ≤ L.length ∧ ∀ i ∈ L, ∀ bytes,
      ∃ w', w.undergoDisk diskABC (.crash i (some (.startElection i)) 0 (some bytes)) = some w' ∧
        ⟨1, 1, [1]⟩ ∈ (w'.nodes i).log.body := by
  obtain ⟨w, hx, hacked, hturn⟩ : ∃ w ∈ (Cluster.init diskABC).exec diskABC
      (acknowledgeEvents ++ [.pollSubmit 0]),
      (w.submits[0]? = some ⟨"b", [1], 1, 1⟩ ∧ (0, Outcome.success) ∈ w.returned) ∧
      ∀ i ∈ diskABC.ids, w.inTurn diskABC i (some (.startElection i)) = [.term 2, .vote i 2] := by
    decide +kernel
  have hfits : Execution.Always (Cluster.act diskABC)
      (fun w ev _ => ∀ i ∈ diskABC.ids, ∀ r ∈ w.writes i ev, Fits plainJson r)
      (Cluster.init diskABC) (acknowledgeEvents ++ [.pollSubmit 0]) := by
    decide +kernel
  have hshort : ∀ i ∈ diskABC.ids, ∀ r ∈ [WalRecord.term 2, .vote i 2], Fits plainJson r := by
    decide +kernel
  obtain ⟨L, hsub, hmaj, hall⟩ := acked_survives (fun _ _ => rfl) hfits hx hacked
  have hlen : diskABC.ids.length = 3 := rfl
  refine ⟨w, hx, hturn, L, hsub, by omega, ?_⟩
  intro i hi bytes
  have hid := hsub.subset hi
  exact hall i hi _ (by rw [hturn i hid]; exact hshort i hid) 0 (some bytes)

end GammaFlow.Raft
