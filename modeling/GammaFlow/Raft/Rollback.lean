import Mathlib.Data.Finset.Card
import GammaFlow.Raft.Safety

/-!
# Fast rollback

A leader that finds a follower's log different from its own looks for the place where
they part. It probes at `nextIndex`; the follower refuses with a hint, and
`handleConflictLocked` jumps by it: behind the follower's log, behind its own last entry
of the follower's term, or to the first entry of that term in the follower's log.

The jump behind the leader's own last entry of the term may go forward. With nothing known
of the two logs but that equal terms at equal places mean equal prefixes, the probe can
then go back and forth for ever (`rollback_livelock`). In a cluster more is known. All
entries of a term come from one leader, so logs that have a term in common agree up to
the earlier of the two places (`Kindred`), and the rollback always gets there.
-/

namespace GammaFlow.Raft

open GammaFlow.Storage
open GammaFlow.Consensus (graft)
open RaftLog

variable {ω : Type}

/-- A leader and the follower it is bringing up to date. -/
structure Exchange (ω : Type) where
  leader : Node ω
  follower : Node ω

namespace Exchange

/-- What the leader sends, as `nextIndex` has it. -/
def request (peer : NodeID) (s : Exchange ω) : AppendEntriesArgs :=
  s.leader.buildRequest peer s.leader.currentTerm s.leader.id s.leader.commitIndex

variable [Journal ω]

/-- One request, and what the leader makes of a refusal. -/
def round (peer : NodeID) (s : Exchange ω) : Exchange ω × AppendEntriesReply :=
  let (follower, reply) := s.follower.handleAppendEntries (s.request peer)
  let leader := if reply.success then s.leader else s.leader.handleConflictLocked peer reply
  (⟨leader, follower⟩, reply)

/-- The two nodes after `m` rounds. -/
def after (peer : NodeID) : Nat → Exchange ω → Exchange ω
  | 0, s => s
  | m + 1, s => after peer m (s.round peer).1

/-- The follower's reply in round `m`, counting from `0`. -/
def reply (peer : NodeID) (m : Nat) (s : Exchange ω) : AppendEntriesReply :=
  ((s.after peer m).round peer).2

def next (peer : NodeID) (m : Nat) (s : Exchange ω) : Nat := (s.after peer m).leader.nextIndex peer

end Exchange

/-- How many different terms a log has entries of. -/
def distinctTerms (F : List LogEntry) : Nat := (F.map LogEntry.term).toFinset.card

/-- Entries of one term, at whatever places, mean logs that agree up to the earlier place. -/
def Kindred (L F : List LogEntry) : Prop :=
  ∀ i (_ : i < L.length) j (_ : j < F.length), L[i].term = F[j].term →
    L.take (min i j + 1) = F.take (min i j + 1)

instance (L F : List LogEntry) : Decidable (Kindred L F) := by
  unfold Kindred; infer_instance

/-- The leader is about to probe at `k`. -/
structure Probing (peer : NodeID) (L F : List LogEntry) (k : Nat) (s : Exchange ω) : Prop where
  leader : s.leader.log.body = L
  follower : s.follower.log.body = F
  term : s.follower.currentTerm ≤ s.leader.currentTerm
  next : s.leader.nextIndex peer = k + 1
  le : k ≤ L.length

/-- The probe finds nothing to object to. -/
def Passes (L F : List LogEntry) (k : Nat) : Prop :=
  k = 0 ∨ k ≤ F.length ∧ termIn F k = termIn L k

variable {peer : NodeID} {L F : List LogEntry} {k : Nat} {s : Exchange ω}

/-! ## Kindred logs -/

/-- The same, counting from `1`. -/
theorem Kindred.take (h : Kindred L F) {i j : Nat} (hi1 : 1 ≤ i) (hi : i ≤ L.length) (hj1 : 1 ≤ j)
    (hj : j ≤ F.length) (ht : termIn L i = termIn F j) :
    L.take (min i j) = F.take (min i j) := by
  obtain ⟨i, rfl⟩ : ∃ m, i = m + 1 := ⟨i - 1, by omega⟩
  obtain ⟨j, rfl⟩ : ∃ m, j = m + 1 := ⟨j - 1, by omega⟩
  rw [Nat.succ_min_succ]
  refine h i hi j hj ?_
  unfold termIn at ht
  rw [if_neg (by omega), if_neg (by omega), Nat.add_sub_cancel, Nat.add_sub_cancel,
    List.getElem?_eq_getElem hi, List.getElem?_eq_getElem hj] at ht
  exact ht

theorem Kindred.matching (h : Kindred L F) : Matching F L := by
  intro k h1 hF hL ht
  have := h.take h1 hL h1 hF ht.symm
  rw [Nat.min_self] at this
  exact this.symm

/-- An entry of the leader, of the term found at the probe, lies before it and is shared. -/
theorem Kindred.shared (h : Kindred L F) {l : Nat} (hl1 : 1 ≤ l) (hl : l ≤ L.length) (h1 : 1 ≤ k)
    (hk : k ≤ F.length) (hterm : termIn L l = termIn F k) (hne : termIn F k ≠ termIn L k) :
    l < k ∧ termIn F l = termIn L l := by
  have htake := h.take hl1 hl h1 hk hterm
  have hlt : l < k := by
    by_contra hge
    rw [Nat.min_eq_right (by omega)] at htake
    exact hne (termIn_eq_of_take htake).symm
  rw [Nat.min_eq_left (by omega)] at htake
  exact ⟨hlt, (termIn_eq_of_take htake).symm⟩

/-- What is common to two logs up to a place is common to them up to any earlier one. -/
theorem take_eq_of_take_le {n m : Nat} (hn : n ≤ L.length) (h : L.take n <+: F) (hm : m ≤ n) :
    L.take m = F.take m := by
  have heq := List.prefix_iff_eq_take.mp h
  rw [List.length_take, Nat.min_eq_left hn] at heq
  calc L.take m = (L.take n).take m := by rw [List.take_take, Nat.min_eq_left hm]
    _ = (F.take n).take m := by rw [heq]
    _ = F.take m := by rw [List.take_take, Nat.min_eq_left hm]

theorem termIn_mem (h1 : 1 ≤ k) (hk : k ≤ F.length) : termIn F k ∈ F.map LogEntry.term := by
  obtain ⟨_, e, _, _, he, _, ht⟩ := exists_at h1 hk
  rw [ht]
  exact List.mem_map_of_mem (List.mem_of_getElem? he)

/-- Going back to where all terms are below that of `k` leaves at least one term behind. -/
theorem distinctTerms_lt (h1 : 1 ≤ k) (hk : k ≤ F.length) {k' : Nat} (hlt : k' < k)
    (hbelow : ∀ j, 1 ≤ j → j ≤ k' → termIn F j < termIn F k) :
    distinctTerms (F.take k') < distinctTerms (F.take k) := by
  refine Finset.card_lt_card (Finset.ssubset_iff_of_subset ?_ |>.mpr ⟨termIn F k, ?_, ?_⟩)
  · intro t ht
    rw [List.mem_toFinset, List.mem_map] at ht ⊢
    obtain ⟨e, he, rfl⟩ := ht
    exact ⟨e, (List.take_subset_take_left F (Nat.le_of_lt hlt)) he, rfl⟩
  · rw [List.mem_toFinset]
    have := termIn_mem (F := F.take k) h1 (by rw [List.length_take]; omega)
    rwa [termIn_eq_of_take (M := F) (by rw [List.take_take, Nat.min_self])] at this
  · rw [List.mem_toFinset, List.mem_map]
    rintro ⟨e, he, ht⟩
    obtain ⟨j, hj⟩ := List.mem_iff_getElem?.mp he
    have hjlt := (List.getElem?_eq_some_iff.mp hj).1
    rw [List.length_take] at hjlt
    have := hbelow (j + 1) (by omega) (by omega)
    rw [← ht, termIn, if_neg (by omega), Nat.add_sub_cancel,
      ← List.getElem?_take_of_lt (l := F) (i := j) (j := k') (by omega), hj] at this
    exact absurd this (Nat.lt_irrefl _)

/-! ## One round -/

namespace Probing

theorem ships (h : Probing peer L F k s) : Ships L (s.request peer) := by
  rw [← h.leader]
  refine ships_of_next (by rw [h.next]; omega) ?_ _ _ _
  rw [h.next, h.leader]
  exact Nat.succ_le_succ h.le

theorem prevLogIndex (h : Probing peer L F k s) : (s.request peer).prevLogIndex = k := by
  show predIndex (s.leader.nextIndex peer) = k
  rw [h.next, predIndex_of_pos (by omega), Nat.add_sub_cancel]

theorem consistent_iff (h : Probing peer L F k s) :
    Node.consistent s.follower.log (s.request peer) ↔ Passes L F k := by
  unfold Node.consistent Passes
  rw [h.ships.prev_term, h.prevLogIndex, termAt_eq, h.follower]

variable [Journal ω]

/-- Where the probe passes, the follower takes over all of the leader's log. -/
theorem accepted (h : Probing peer L F k s) (hp : Passes L F k) (hmatch : Matching F L) :
    (s.round peer).2.success = true ∧ (s.round peer).1.follower.log.body.take L.length = L := by
  have hc := h.consistent_iff.mpr hp
  have hterm : s.follower.currentTerm ≤ (s.request peer).term := h.term
  obtain ⟨hreply, hlog⟩ := Node.handleAppendEntries_accepts hterm hc
  rw [← h.follower] at hmatch
  have hbody := body_merge_of_consistent hmatch h.ships hc
  refine ⟨congrArg AppendEntriesReply.success hreply, ?_⟩
  show (s.follower.handleAppendEntries (s.request peer)).1.log.body.take L.length = L
  rw [hlog, hbody]
  exact (List.prefix_iff_eq_take.mp (Consensus.prefix_graft_self L _)).symm

/-- Where it does not, the follower names what it has there, and the leader tries elsewhere. -/
theorem refused (h : Probing peer L F k s) (hp : ¬ Passes L F k) :
    (s.round peer).2 = (if F.length < k then ⟨s.leader.currentTerm, false, 0, F.length + 1⟩
      else ⟨s.leader.currentTerm, false, termIn F k,
        s.follower.log.findFirstIndexOfTerm (termIn F k)⟩) ∧
    ∀ k', s.leader.conflictNext peer (s.round peer).2 = k' + 1 → k' ≤ L.length →
      Probing peer L F k' (s.round peer).1 := by
  have hterm : s.follower.currentTerm ≤ (s.request peer).term := h.term
  obtain ⟨hreply, hlog, hsame⟩ := Node.handleAppendEntries_refuses hterm
    (mt h.consistent_iff.mp hp)
  rw [Node.conflictHint, h.prevLogIndex, termAt_eq, h.follower] at hreply
  have hleader : (s.round peer).1.leader = s.leader.handleConflictLocked peer (s.round peer).2 := by
    have hno : (s.follower.handleAppendEntries (s.request peer)).2.success = false := by
      rw [hreply]
      split
      · rfl
      · rfl
    unfold Exchange.round
    dsimp only
    rw [if_neg (by rw [hno]; simp)]
  rw [s.leader.handleConflictLocked_eq peer (s.round peer).2] at hleader
  refine ⟨hreply, ?_⟩
  intro k' hnext hle
  refine ⟨by rw [hleader]; exact h.leader, ?_, ?_, ?_, hle⟩
  · show (s.follower.handleAppendEntries (s.request peer)).1.log.body = F
    rw [hlog, h.follower]
  · show (s.follower.handleAppendEntries (s.request peer)).1.currentTerm ≤ _
    rw [hsame, hleader]
    exact Nat.le_refl _
  · rw [hleader]
    exact (if_pos rfl).trans hnext

/-- A probe beyond the follower's log is followed by one at its end. -/
theorem short (h : Probing peer L F k s) (hlt : F.length < k) :
    (s.round peer).2.success = false ∧ (s.round peer).2.conflictTerm = 0 ∧
      Probing peer L F F.length (s.round peer).1 := by
  have hp : ¬ Passes L F k := by
    rintro (h0 | ⟨hle, _⟩) <;> omega
  obtain ⟨hreply, hnext⟩ := h.refused hp
  rw [if_pos hlt] at hreply
  refine ⟨by rw [hreply], by rw [hreply], hnext _ ?_ ?_⟩
  · rw [hreply]
    unfold Node.conflictNext
    rw [if_neg (Nat.lt_irrefl 0), if_pos (Nat.succ_pos _)]
  · have := h.le; omega

omit [Journal ω] in
/--
Where the hint leads: behind the leader's last entry of the term found at the probe, or,
if it has none, to before the follower's first one.
-/
theorem hint (h : Probing peer L F k s) (h1 : 1 ≤ k) (hk : k ≤ F.length) (hpos : 0 < termIn F k)
    (t : Nat) : ∃ k' ≤ L.length, s.leader.conflictNext peer
        ⟨t, false, termIn F k, s.follower.log.findFirstIndexOfTerm (termIn F k)⟩ = k' + 1 ∧
      (1 ≤ k' ∧ termIn L k' = termIn F k ∨
        (∀ i, 1 ≤ i → i ≤ L.length → termIn L i ≠ termIn F k) ∧ k' < k ∧
          ∀ j, 1 ≤ j → j ≤ k' → termIn F j ≠ termIn F k) := by
  unfold Node.conflictNext
  rw [if_pos hpos]
  by_cases hlast : s.leader.log.findLastFrom (termIn F k) s.leader.log.lastIndex > 0
  · rw [if_pos hlast]
    have hterm := s.leader.log.termAt_findLastFrom hlast
    rw [termAt_eq, h.leader] at hterm
    refine ⟨_, ?_, rfl, Or.inl ⟨hlast, hterm⟩⟩
    rw [← h.leader, ← lastIndex_eq]
    exact s.leader.log.findLastFrom_le _ _
  · rw [if_neg hlast]
    have hfirst : ∀ j, 1 ≤ j → j ≤ F.length → termIn F j = termIn F k →
        1 ≤ s.follower.log.findFirstIndexOfTerm (termIn F k) ∧
          s.follower.log.findFirstIndexOfTerm (termIn F k) ≤ j := by
      intro j hj1 hj ht
      rw [← ht]
      have := s.follower.log.findFirstIndexOfTerm_le hj1 (by rw [h.follower]; exact hj)
      rwa [h.follower] at this
    generalize s.follower.log.findFirstIndexOfTerm (termIn F k) = c at hfirst
    obtain ⟨hc1, hck⟩ := hfirst k h1 hk rfl
    have hle := h.le
    refine ⟨c - 1, by omega, by dsimp only; omega, Or.inr ⟨?_, by omega, ?_⟩⟩
    · intro i hi1 hi
      have := s.leader.log.ne_of_findLastFrom (Nat.eq_zero_of_not_pos hlast) i hi1
        (by rw [lastIndex_eq, h.leader]; exact hi)
      rwa [termAt_eq, h.leader] at this
    · intro j hj1 hj ht
      have := (hfirst j hj1 (by omega) ht).2
      omega

/-- A probe that meets another term is followed by one that the hint leads to. -/
theorem conflict (h : Probing peer L F k s) (h1 : 1 ≤ k) (hk : k ≤ F.length)
    (hne : termIn F k ≠ termIn L k) (hpos : 0 < termIn F k) :
    (s.round peer).2.success = false ∧ (s.round peer).2.conflictTerm = termIn F k ∧
      ∃ k', Probing peer L F k' (s.round peer).1 ∧
        (1 ≤ k' ∧ termIn L k' = termIn F k ∨
          (∀ i, 1 ≤ i → i ≤ L.length → termIn L i ≠ termIn F k) ∧ k' < k ∧
            ∀ j, 1 ≤ j → j ≤ k' → termIn F j ≠ termIn F k) := by
  have hp : ¬ Passes L F k := by
    rintro (h0 | ⟨_, heq⟩)
    · omega
    · exact hne heq
  obtain ⟨hreply, hnext⟩ := h.refused hp
  rw [if_neg (by omega)] at hreply
  obtain ⟨k', hle, hto, hcase⟩ := h.hint h1 hk hpos s.leader.currentTerm
  exact ⟨by rw [hreply], by rw [hreply], k', hnext k' (by rw [hreply]; exact hto) hle, hcase⟩

end Probing

/-! ## All rounds -/

variable [Journal ω]

/--
After `m` refusals the follower accepts. `nextIndex` falls with each refusal and stays
above `0`, so do the terms that are named as conflicts, and in the end the follower has
all of the leader's log.
-/
structure RollsBack (peer : NodeID) (s : Exchange ω) (m : Nat) : Prop where
  refused : ∀ k < m, (s.reply peer k).success = false
  next : ∀ k < m, 1 ≤ s.next peer (k + 1) ∧ s.next peer (k + 1) < s.next peer k
  conflict : ∀ j k, j < k → k < m → 0 < (s.reply peer j).conflictTerm →
    0 < (s.reply peer k).conflictTerm → (s.reply peer k).conflictTerm < (s.reply peer j).conflictTerm
  accepted : (s.reply peer m).success = true
  agrees : (s.after peer (m + 1)).follower.log.body.take s.leader.log.lastIndex = s.leader.log.body

theorem rollsBack_zero (h : Probing peer L F k s) (hp : Passes L F k) (hmatch : Matching F L) :
    RollsBack peer s 0 := by
  obtain ⟨hyes, htake⟩ := h.accepted hp hmatch
  refine ⟨fun k hk => absurd hk (Nat.not_lt_zero k), fun k hk => absurd hk (Nat.not_lt_zero k),
    fun j k _ hk => absurd hk (Nat.not_lt_zero k), hyes, ?_⟩
  rw [lastIndex_eq, h.leader]
  exact htake

/-- One more refusal in front. -/
theorem RollsBack.cons {k' m : Nat} (h : RollsBack peer (s.round peer).1 m)
    (hs : Probing peer L F k s) (hs' : Probing peer L F k' (s.round peer).1) (hlt : k' < k)
    (hno : (s.round peer).2.success = false)
    (hconf : 0 < (s.round peer).2.conflictTerm → ∀ j < m,
      ((s.round peer).1.reply peer j).conflictTerm < (s.round peer).2.conflictTerm) :
    RollsBack peer s (m + 1) := by
  refine ⟨?_, ?_, ?_, h.accepted, ?_⟩
  · intro j hj
    cases j with
    | zero => exact hno
    | succ j => exact h.refused j (by omega)
  · intro j hj
    cases j with
    | zero =>
        show 1 ≤ (s.round peer).1.leader.nextIndex peer ∧ _ < s.leader.nextIndex peer
        rw [hs.next]
        have := hs'.next
        exact ⟨by omega, by show (s.round peer).1.leader.nextIndex peer < _; omega⟩
    | succ j => exact h.next j (by omega)
  · intro i j hij hj hi0 hj0
    cases j with
    | zero => omega
    | succ j =>
        cases i with
        | zero => exact hconf hi0 j (by omega)
        | succ i => exact h.conflict i j (by omega) (by omega) hi0 hj0
  · have := h.agrees
    rw [lastIndex_eq, hs'.leader] at this
    rw [lastIndex_eq, hs.leader]
    exact this

/-- From a place inside the follower's log: each conflict leaves a term of it behind. -/
theorem rollsBack_inside (hpos : ∀ e ∈ F, 1 ≤ e.term)
    (hmono : F.Pairwise fun a b => a.term ≤ b.term) (hkin : Kindred L F) :
    ∀ (k : Nat) (s : Exchange ω), Probing peer L F k s → k ≤ F.length →
      ∃ m ≤ distinctTerms (F.take k), RollsBack peer s m ∧
        ∀ j < m, ∃ i, 1 ≤ i ∧ i ≤ k ∧ (s.reply peer j).conflictTerm = termIn F i := by
  intro k
  induction k using Nat.strongRecOn with
  | ind k ih =>
      intro s h hk
      by_cases hp : Passes L F k
      · exact ⟨0, Nat.zero_le _, rollsBack_zero h hp hkin.matching,
          fun j hj => absurd hj (Nat.not_lt_zero j)⟩
      obtain ⟨h1, hne⟩ : 1 ≤ k ∧ termIn F k ≠ termIn L k := by
        constructor
        · by_contra h0; exact hp (Or.inl (by omega))
        · intro heq; exact hp (Or.inr ⟨hk, heq⟩)
      have htpos : 0 < termIn F k := by
        obtain ⟨e, he, ht⟩ := List.mem_map.mp (termIn_mem h1 hk)
        rw [← ht]; exact hpos e he
      obtain ⟨hno, hconf, k', hs', hcase⟩ := h.conflict h1 hk hne htpos
      rcases hcase with ⟨hk1, hterm⟩ | ⟨_, hlt, hfirst⟩
      · -- the leader has the term: where it has it last, the logs agree
        obtain ⟨hlt, hsame⟩ := hkin.shared hk1 hs'.le h1 hk hterm hne
        have hzero := rollsBack_zero hs' (Or.inr ⟨by omega, hsame⟩) hkin.matching
        refine ⟨1, ?_, hzero.cons h hs' hlt hno fun _ j hj => absurd hj (Nat.not_lt_zero j), ?_⟩
        · have := distinctTerms_lt h1 hk (show 0 < k by omega) (fun j _ _ => by omega)
          omega
        · intro j hj
          obtain rfl : j = 0 := by omega
          exact ⟨k, h1, Nat.le_refl k, hconf⟩
      · -- it does not: back to before the follower's first entry of the term
        have hbelow : ∀ j, 1 ≤ j → j ≤ k' → termIn F j < termIn F k := fun j hj1 hj =>
          Nat.lt_of_le_of_ne (termIn_mono hmono hj1 (by omega) hk) (hfirst j hj1 hj)
        obtain ⟨m, hm, hroll, hterms⟩ := ih k' hlt _ hs' (by omega)
        have hless : ∀ j < m, ((s.round peer).1.reply peer j).conflictTerm < termIn F k := by
          intro j hj
          obtain ⟨i, hi1, hi, heq⟩ := hterms j hj
          rw [heq]
          exact hbelow i hi1 hi
        refine ⟨m + 1, ?_, hroll.cons h hs' hlt hno fun _ j hj => by rw [hconf]; exact hless j hj, ?_⟩
        · have := distinctTerms_lt h1 hk hlt hbelow
          omega
        · intro j hj
          cases j with
          | zero => exact ⟨k, h1, Nat.le_refl k, hconf⟩
          | succ j =>
              obtain ⟨i, hi1, hi, heq⟩ := hterms j (by omega)
              exact ⟨i, hi1, by omega, heq⟩

theorem rollsBack_of_probing (hpos : ∀ e ∈ F, 1 ≤ e.term)
    (hmono : F.Pairwise fun a b => a.term ≤ b.term) (hkin : Kindred L F)
    (h : Probing peer L F k s) : ∃ m ≤ 1 + distinctTerms F, RollsBack peer s m := by
  by_cases hk : k ≤ F.length
  · obtain ⟨m, hm, hroll, _⟩ := rollsBack_inside hpos hmono hkin k s h hk
    refine ⟨m, ?_, hroll⟩
    have hsub : distinctTerms (F.take k) ≤ distinctTerms F := by
      refine Finset.card_le_card ?_
      intro t ht
      rw [List.mem_toFinset, List.mem_map] at ht ⊢
      obtain ⟨e, he, rfl⟩ := ht
      exact ⟨e, List.mem_of_mem_take he, rfl⟩
    omega
  · obtain ⟨hno, hzero, hs'⟩ := h.short (by omega)
    obtain ⟨m, hm, hroll, _⟩ := rollsBack_inside hpos hmono hkin _ _ hs' (Nat.le_refl _)
    rw [List.take_length] at hm
    refine ⟨m + 1, by omega, hroll.cons h hs' (by omega) hno ?_⟩
    intro hpos
    rw [hzero] at hpos
    exact absurd hpos (Nat.lt_irrefl 0)

/--
**Fast rollback converges.** For logs that agree up to the earlier of any two places at
which they have the same term, for a follower whose terms are at least `1` and do not
fall and who is not ahead of the leader's term, and from any `nextIndex` up to the end of
the leader's log: after at most one refusal more than the follower's log has terms, the
follower accepts.
-/
theorem rollback_converges (hpos : ∀ e ∈ s.follower.log.body, 1 ≤ e.term)
    (hmono : s.follower.log.body.Pairwise fun a b => a.term ≤ b.term)
    (hkin : Kindred s.leader.log.body s.follower.log.body)
    (hterm : s.follower.currentTerm ≤ s.leader.currentTerm)
    (hnext : 1 ≤ s.leader.nextIndex peer)
    (hle : s.leader.nextIndex peer ≤ s.leader.log.lastIndex + 1) :
    ∃ m ≤ 1 + distinctTerms s.follower.log.body, RollsBack peer s m := by
  rw [lastIndex_eq] at hle
  exact rollsBack_of_probing hpos hmono hkin (k := s.leader.nextIndex peer - 1)
    ⟨rfl, rfl, hterm, by omega, by omega⟩

/-- A follower with two terms that the leader has never heard of. -/
def estranged : Exchange OneFile where
  leader := { Node.newNode "a" ["b"] none with
    currentTerm := 4
    state := .leader
    log := RaftLog.ofBody [⟨1, 1, [1]⟩, ⟨4, 2, [5]⟩, ⟨4, 3, [6]⟩, ⟨4, 4, [7]⟩]
    nextIndex := fun _ => 5 }
  follower := { Node.newNode "b" ["a"] none with
    currentTerm := 3
    log := RaftLog.ofBody [⟨1, 1, [1]⟩, ⟨2, 2, [2]⟩, ⟨3, 3, [3]⟩] }

/-- Its log is too short, then of term `3`, then of term `2`; the fourth request fits. -/
theorem rollback_converges_estranged :
    (List.range 4).map (fun m => estranged.next "b" m) = [5, 4, 3, 2] ∧
    ∃ m ≤ 4, RollsBack "b" estranged m := by
  have h : ∃ m ≤ 1 + distinctTerms estranged.follower.log.body, RollsBack "b" estranged m :=
    rollback_converges (by decide) (by decide) (by decide) (by decide) (by decide) (by decide)
  exact ⟨by decide +kernel, h⟩

/-! ## Matching alone -/

/-- The logs match wherever their terms do, but the term they share begins at different places. -/
def unrelated : Exchange OneFile where
  leader := { Node.newNode "a" ["b"] none with
    currentTerm := 2
    state := .leader
    log := RaftLog.ofBody [⟨1, 1, [1]⟩, ⟨1, 2, [2]⟩, ⟨2, 3, [3]⟩]
    nextIndex := fun _ => 3 }
  follower := { Node.newNode "b" ["a"] none with
    currentTerm := 2
    log := RaftLog.ofBody [⟨1, 1, [1]⟩, ⟨2, 2, [4]⟩] }

theorem unrelated_refused (m : Nat) : ∀ s : Exchange OneFile,
    Probing "b" unrelated.leader.log.body unrelated.follower.log.body 2 s ∨
      Probing "b" unrelated.leader.log.body unrelated.follower.log.body 3 s →
    (s.reply "b" m).success = false := by
  induction m with
  | zero =>
      rintro s (h | h)
      · exact (h.conflict (by decide) (by decide) (by decide) (by decide)).1
      · exact (h.short (by decide)).1
  | succ m ih =>
      rintro s (h | h)
      · -- the leader's last entry of term `2` is its last entry of all
        obtain ⟨_, _, k', hs', hcase⟩ := h.conflict (by decide) (by decide) (by decide) (by decide)
        refine ih _ (Or.inr ?_)
        rcases hcase with ⟨hk1, hterm⟩ | ⟨hnone, _⟩
        · have hlast : ∀ i, 1 ≤ i → i ≤ 3 → termIn unrelated.leader.log.body i =
              termIn unrelated.follower.log.body 2 → i = 3 := by decide
          rw [← hlast k' hk1 hs'.le hterm]
          exact hs'
        · exact absurd rfl (hnone 3 (by decide) (by decide))
      · exact ih _ (Or.inl (h.short (by decide)).2.2)

/--
With log matching alone the rollback may not end: the leader is told of term `2` at
index `2`, has it at index `3`, goes there, is told that the log is too short, comes back.
-/
theorem rollback_livelock :
    (∀ e ∈ unrelated.leader.log.body, 1 ≤ e.term) ∧
    (∀ e ∈ unrelated.follower.log.body, 1 ≤ e.term) ∧
    (unrelated.leader.log.body.Pairwise fun a b => a.term ≤ b.term) ∧
    (unrelated.follower.log.body.Pairwise fun a b => a.term ≤ b.term) ∧
    Matching unrelated.follower.log.body unrelated.leader.log.body ∧
    unrelated.follower.currentTerm ≤ unrelated.leader.currentTerm ∧
    unrelated.next "b" 0 = 3 ∧ unrelated.next "b" 1 = 4 ∧
    ∀ m, (unrelated.reply "b" m).success = false := by
  refine ⟨by decide, by decide, by decide, by decide, ?_, by decide, rfl, by decide +kernel, ?_⟩
  · have h : ∀ k ≤ 2, 1 ≤ k → termIn unrelated.follower.log.body k =
        termIn unrelated.leader.log.body k →
        unrelated.follower.log.body.take k = unrelated.leader.log.body.take k := by decide
    intro k h1 hF _ ht
    exact h k hF h1 ht
  · intro m
    exact unrelated_refused m unrelated (Or.inl ⟨rfl, rfl, by decide, rfl, by decide⟩)

/-! ## In a cluster -/

section Reachable

variable {cfg : Config ω} {w : Cluster ω}

/-- **The logs of a cluster are kindred.** -/
theorem kindred_reachable (hw : Cluster.Reachable cfg w) (i j : NodeID) :
    Kindred (w.nodes i).log.body (w.nodes j).log.body := by
  obtain ⟨S, hS⟩ := sim_reachable hw
  intro a ha b hb ht
  obtain ⟨P, e, hP, _, he, htake, _⟩ := exists_at (Nat.le_add_left 1 a) ha
  obtain ⟨P', e', hP', _, he', htake', _⟩ := exists_at (Nat.le_add_left 1 b) hb
  rw [Nat.add_sub_cancel, List.getElem?_eq_getElem ha] at he
  rw [Nat.add_sub_cancel, List.getElem?_eq_getElem hb] at he'
  rw [Option.some.inj he, Option.some.inj he'] at ht
  obtain ⟨R, hR, hR'⟩ := (hS.inv.logs.rooted _ (hS.nodes i).held).common
    (hS.inv.logs.rooted _ (hS.nodes j).held) hP hP' ht
  -- up to the earlier place, both logs are what the leader of the term had there
  rw [htake] at hR
  rw [htake'] at hR'
  rw [take_eq_of_take_le ha hR (Nat.succ_le_succ (Nat.min_le_left a b)),
    take_eq_of_take_le hb hR' (Nat.succ_le_succ (Nat.min_le_right a b))]

/-- **A leader brings every follower up to date** that is not ahead of its term. -/
theorem rollsBack_reachable (hw : Cluster.Reachable cfg w) {i p : NodeID}
    (hl : (w.nodes i).state = .leader) (hp : p ∈ (w.nodes i).peers)
    (hterm : (w.nodes p).currentTerm ≤ (w.nodes i).currentTerm)
    (hle : (w.nodes i).nextIndex p ≤ (w.nodes i).log.body.length + 1) :
    ∃ m ≤ 1 + distinctTerms (w.nodes p).log.body,
      RollsBack p ⟨w.nodes i, w.nodes p⟩ m := by
  obtain ⟨S, hS⟩ := sim_reachable hw
  obtain ⟨b, hb⟩ := (hS.nodes i).reign hl
  have hnext := (hS.nodes i).next ⟨_, _, hb, rfl⟩ p hp
  have hprobe : Probing p (w.nodes i).log.body (w.nodes p).log.body ((w.nodes i).nextIndex p - 1)
      ⟨w.nodes i, w.nodes p⟩ :=
    ⟨rfl, rfl, hterm, (Nat.sub_add_cancel hnext).symm, by omega⟩
  exact rollsBack_of_probing (fun e he => term_pos_of_held hS.inv (hS.nodes p).held he)
    (pairwise_term hw p) (kindred_reachable hw i p) hprobe

end Reachable

end GammaFlow.Raft
