import GammaFlow.Lib.Consensus.Completeness

/-!
# What nodes consider decided really is

A commit index is *backed* when the prefix it covers was decided by a quorum in
some term the node has reached. Indices travel with snapshots: a leader captures
its own, ships it with a later copy of its log, and a follower takes it over for
whatever log results. `Commits` follows an index along that way.

Since decided prefixes are comparable (`decided_comparable`), any two nodes agree
on everything both consider decided, at any two moments of a run: `agreement`.
-/

namespace GammaFlow.Consensus

variable {ν ε : Type} {Q : QuorumSystem ν}

/-- The first `c` entries of `L` were decided in a term up to `t`. -/
def Backed (Q : QuorumSystem ν) (S : State ν ε) (t c : ℕ) (L : List ε) : Prop :=
  c = 0 ∨ ∃ t' C, t' ≤ t ∧ Decided Q S t' C ∧ c ≤ C.length ∧ C.take c <+: L

theorem Backed.mono {S S' : State ν ε} {t t₂ c : ℕ} {L : List ε} (h : Backed Q S t c L)
    (hle : Le S S') (ht : t ≤ t₂) : Backed Q S' t₂ c L := by
  rcases h with h | ⟨t', C, ht', hd, hc, hp⟩
  · exact Or.inl h
  · exact Or.inr ⟨t', C, ht'.trans ht, hd.mono hle, hc, hp⟩

theorem Backed.le_length {S : State ν ε} {t c : ℕ} {L : List ε} (h : Backed Q S t c L) :
    c ≤ L.length := by
  rcases h with h | ⟨t', C, _, _, hc, hp⟩
  · rw [h]; exact Nat.zero_le _
  · have := hp.length_le
    rw [List.length_take] at this; omega

/-- Only the covered prefix matters. -/
theorem Backed.of_take {S : State ν ε} {t c : ℕ} {L M : List ε} (h : Backed Q S t c L)
    (hM : L.take c <+: M) : Backed Q S t c M := by
  rcases h with h | ⟨t', C, ht', hd, hc, hp⟩
  · exact Or.inl h
  · refine Or.inr ⟨t', C, ht', hd, hc, ?_⟩
    have := hp.take c
    rw [List.take_take, Nat.min_self] at this
    exact this.trans hM

/-- A smaller index is backed by the same decision. -/
theorem Backed.of_le {S : State ν ε} {t c d : ℕ} {L : List ε} (h : Backed Q S t c L)
    (hd : d ≤ c) : Backed Q S t d L := by
  rcases h with h | ⟨t', C, ht', hdec, hc, hp⟩
  · exact Or.inl (by omega)
  · refine Or.inr ⟨t', C, ht', hdec, hd.trans hc, ?_⟩
    exact (List.take_prefix_take_left hd).trans hp

/-- Commit indices are backed where they are kept, captured and shipped. -/
structure Commits (Q : QuorumSystem ν) (S : State ν ε) : Prop where
  node : ∀ v, Backed Q S (S.term v) (S.commit v) (S.log v)
  cap : ∀ {X t c}, (X, t, c) ∈ S.caps → c ≤ S.commit X ∧ Backed Q S t c (S.log X)
  snap : ∀ {X t c L}, (X, t, c, L) ∈ S.snaps → Backed Q S t c L

theorem commits_init : Commits Q (State.init : State ν ε) where
  node _ := Or.inl rfl
  cap h := absurd h (by simp [State.init])
  snap h := absurd h (by simp [State.init])

/-- What was decided up to some term, every leader of a later one was elected with. -/
theorem Backed.prefix_base {S : State ν ε} (hk : Complete Q S) {t t' c : ℕ} {L : List ε}
    {r : Reign ν ε} (h : Backed Q S t c L) (hr : S.reign t' = some r) (ht : t < t') :
    L.take c <+: r.base := by
  rcases h with rfl | ⟨s, C, hs, hd, hc, hp⟩
  · rw [List.take_zero]; exact List.nil_prefix
  · have hC : C.take c = L.take c := by
      have := List.prefix_iff_eq_take.mp hp
      rw [List.length_take, Nat.min_eq_left hc] at this
      exact this
    rw [← hC]
    exact (List.take_prefix c C).trans ((hk s C hd.1 hd.open).base t' r hr (by omega))

variable [Entry ε]

/-- **Decided prefixes never diverge.** -/
theorem decided_comparable {S : State ν ε} (h : Logs Q S) (hk : Complete Q S) {t t' : ℕ}
    {C C' : List ε} (hd : Decided Q S t C) (hd' : Decided Q S t' C') : C <+: C' ∨ C' <+: C := by
  obtain ⟨⟨r, hr, hC, hb⟩, hq⟩ := hd
  obtain ⟨⟨r', hr', hC', hb'⟩, hq'⟩ := hd'
  rcases Nat.lt_trichotomy t t' with hlt | rfl | hlt
  · have hbase := (hk t C ⟨r, hr, hC, hb⟩ (Decided.open ⟨⟨r, hr, hC, hb⟩, hq⟩)).base t' r' hr' hlt
    exact List.prefix_or_prefix_of_prefix (hbase.trans (h.reigns.base_prefix hr')) hC'
  · rw [hr] at hr'
    obtain rfl := Option.some.inj hr'
    exact List.prefix_or_prefix_of_prefix hC hC'
  · have hbase := (hk t' C' ⟨r', hr', hC', hb'⟩
      (Decided.open ⟨⟨r', hr', hC', hb'⟩, hq'⟩)).base t r hr hlt
    exact List.prefix_or_prefix_of_prefix hC (hbase.trans (h.reigns.base_prefix hr))

/-- Two backed prefixes of the same length are the same. -/
theorem backed_take_eq {S : State ν ε} (h : Logs Q S) (hk : Complete Q S) {t t' k : ℕ}
    {L M : List ε} (hL : Backed Q S t k L) (hM : Backed Q S t' k M) : L.take k = M.take k := by
  rcases hL with rfl | ⟨s, C, _, hd, hc, hp⟩
  · simp
  rcases hM with rfl | ⟨s', C', _, hd', hc', hp'⟩
  · simp
  have hCL : C.take k = L.take k := by
    have := hp.take k
    rw [List.take_take, Nat.min_self] at this
    refine this.eq_of_length ?_
    have := hp.length_le
    rw [List.length_take] at this
    rw [List.length_take, List.length_take]; omega
  have hCM : C'.take k = M.take k := by
    have := hp'.take k
    rw [List.take_take, Nat.min_self] at this
    refine this.eq_of_length ?_
    have := hp'.length_le
    rw [List.length_take] at this
    rw [List.length_take, List.length_take]; omega
  rw [← hCL, ← hCM]
  -- both are the first `k` entries of the longer of the two decided prefixes
  rcases decided_comparable h hk hd hd' with hcmp | hcmp
  · refine (hcmp.take k).eq_of_length ?_
    rw [List.length_take, List.length_take]; omega
  · refine ((hcmp.take k).eq_of_length ?_).symm
    rw [List.length_take, List.length_take]; omega

/-- Everything that holds along every run. -/
structure Inv (Q : QuorumSystem ν) (S : State ν ε) : Prop where
  ballots : Ballots Q S
  logs : Logs Q S
  complete : Complete Q S
  commits : Commits Q S

theorem inv_init : Inv Q (State.init : State ν ε) :=
  ⟨ballots_init, logs_init, complete_init, commits_init⟩

variable [DecidableEq ν]

/-- **No step touches the committed prefix of the acting node.** -/
theorem committed_kept {v : ν} {S S' : State ν ε} (hk : Complete Q S) (hc : Commits Q S)
    (hs : Step Q v S S') : (S.log v).take (S.commit v) <+: S'.log v := by
  cases hs with
  | append b e hr he hi =>
      dsimp only
      rw [Function.update_self]
      exact (List.take_prefix _ _).trans (List.prefix_append _ _)
  | adopt X c L hL =>
      dsimp only
      rw [Function.update_self]
      refine prefix_graft (List.take_prefix _ _) ?_
      rcases hc.node v with h0 | ⟨t', C, ht', hd, hlen, hp⟩
      · rw [h0]; exact Or.inl (List.nil_prefix)
      · have htake : (S.log v).take (S.commit v) <+: C := by
          have hpl := hp.length_le
          rw [List.length_take] at hpl
          refine List.IsPrefix.trans ?_ (List.take_prefix (S.commit v) C)
          refine List.prefix_of_prefix_length_le (List.take_prefix _ _) hp ?_
          rw [List.length_take, List.length_take]; omega
        have hkept := hk t' C hd.1 hd.open
        rcases ht'.lt_or_eq with hlt | heq
        · exact Or.inl (htake.trans (hkept.later X _ c L hL hlt))
        · rw [← heq] at hL
          rcases hkept.same X c L hL with hCL | hLC
          · exact Or.inl (htake.trans hCL)
          · exact List.prefix_or_prefix_of_prefix htake hLC
  | raise t ht => exact List.take_prefix _ _
  | campaign => exact List.take_prefix _ _
  | vote X ℓ hc hu ho => exact List.take_prefix _ _
  | elect hc hq hn => exact List.take_prefix _ _
  | capture b hr => exact List.take_prefix _ _
  | snap t c hc => exact List.take_prefix _ _
  | decide b N hr hlt hN hq hle => exact List.take_prefix _ _

/-- The committed prefix of every node survives every step. -/
theorem committed_kept_all {v : ν} {S S' : State ν ε} (hk : Complete Q S) (hc : Commits Q S)
    (hs : Step Q v S S') (u : ν) : (S.log u).take (S.commit u) <+: S'.log u := by
  by_cases huv : u = v
  · subst huv; exact committed_kept hk hc hs
  · rw [hs.frame.log u huv]; exact List.take_prefix _ _

/-- The acting node's commit index stays backed. -/
theorem commit_backed {v : ν} {S S' : State ν ε} (hk : Complete Q S) (hc : Commits Q S)
    (hs : Step Q v S S') : Backed Q S' (S'.term v) (S'.commit v) (S'.log v) := by
  have hle := hs.le
  have hkeep : Backed Q S' (S'.term v) (S.commit v) (S'.log v) :=
    ((hc.node v).mono hle (hle.term v)).of_take (committed_kept hk hc hs)
  cases hs with
  | adopt X c L hL =>
      dsimp only at hkeep hle ⊢
      rw [Function.update_self] at hkeep
      rw [Function.update_self, Function.update_self]
      rcases le_total (min c (graft L (S.log v)).length) (S.commit v) with hge | hge
      · rw [max_eq_left hge]; exact hkeep
      · rw [max_eq_right hge]
        refine Backed.of_le ?_ (min_le_left _ _)
        refine ((hc.snap hL).mono hle le_rfl).of_take ?_
        exact (List.take_prefix _ _).trans (prefix_graft_self _ _)
  | decide b N hr hlt hN hq hcle =>
      dsimp only
      rw [Function.update_self]
      refine Or.inr ⟨S.term v, (S.log v).take N, le_rfl, ⟨?_, hq⟩, ?_, ?_⟩
      · refine ⟨_, hr, List.take_prefix _ _, ?_⟩
        rw [List.length_take]; dsimp only; omega
      · rw [List.length_take]; omega
      · rw [List.take_take, Nat.min_self]; exact List.take_prefix _ _
  | raise t ht => exact hkeep
  | campaign => exact hkeep
  | vote X ℓ hc hu ho => exact hkeep
  | elect hc hq hn => exact hkeep
  | append b e hr he hi => exact hkeep
  | capture b hr => exact hkeep
  | snap t c hc => exact hkeep

/-- **Commit indices stay backed along every step.** -/
theorem commits_step {v : ν} {S S' : State ν ε} (hk : Complete Q S) (hc : Commits Q S)
    (hs : Step Q v S S') : Commits Q S' := by
  have hle := hs.le
  have hnode : ∀ u, Backed Q S' (S'.term u) (S'.commit u) (S'.log u) := by
    intro u
    by_cases huv : u = v
    · subst huv; exact commit_backed hk hc hs
    · rw [hs.frame.term u huv, hs.frame.commit u huv, hs.frame.log u huv]
      exact (hc.node u).mono hle le_rfl
  have oldCap : ∀ {X t c}, (X, t, c) ∈ S.caps → c ≤ S'.commit X ∧ Backed Q S' t c (S'.log X) := by
    intro X t c hcap
    obtain ⟨hcc, hback⟩ := hc.cap hcap
    refine ⟨hcc.trans (hle.commit X), (hback.mono hle le_rfl).of_take ?_⟩
    exact (List.take_prefix_take_left hcc).trans (committed_kept_all hk hc hs X)
  have oldSnap : ∀ {X t c L}, (X, t, c, L) ∈ S.snaps → Backed Q S' t c L :=
    fun hL => (hc.snap hL).mono hle le_rfl
  -- only `capture` adds a captured index, and only `snap` a snapshot
  refine ⟨hnode, ?_, ?_⟩
  · cases hs with
    | capture b hr =>
        intro X t c hcap
        rcases Set.mem_insert_iff.mp hcap with heq | hcap
        · obtain ⟨rfl, rfl, rfl⟩ := heq; exact ⟨le_rfl, hnode _⟩
        · exact oldCap hcap
    | raise t ht => exact oldCap
    | campaign => exact oldCap
    | vote X ℓ hc hu ho => exact oldCap
    | elect hc hq hn => exact oldCap
    | append b e hr he hi => exact oldCap
    | snap t c hc => exact oldCap
    | adopt X c L hL => exact oldCap
    | decide b N hr hlt hN hq hcle => exact oldCap
  · cases hs with
    | snap t₀ c₀ hcap =>
        intro X t c L hL
        rcases Set.mem_insert_iff.mp hL with heq | hL
        · obtain ⟨rfl, rfl, rfl, rfl⟩ := heq
          exact ((hc.cap hcap).2).mono hle le_rfl
        · exact oldSnap hL
    | capture b hr => exact oldSnap
    | raise t ht => exact oldSnap
    | campaign => exact oldSnap
    | vote X ℓ hc hu ho => exact oldSnap
    | elect hc hq hn => exact oldSnap
    | append b e hr he hi => exact oldSnap
    | adopt X c L hL => exact oldSnap
    | decide b N hr hlt hN hq hcle => exact oldSnap

/-! ## The whole invariant -/

theorem inv_step {v : ν} {S S' : State ν ε} (h : Inv Q S) (hs : Step Q v S S') : Inv Q S' :=
  ⟨ballots_step h.ballots hs, logs_step h.ballots h.logs hs,
    complete_step h.ballots h.logs h.complete hs, commits_step h.complete h.commits hs⟩

theorem inv_steps {S S' : State ν ε} (h : Inv Q S) (hs : Relation.ReflTransGen (Next Q) S S') :
    Inv Q S' := by
  induction hs with
  | refl => exact h
  | tail _ hs ih => obtain ⟨v, hv⟩ := hs; exact inv_step ih hv

/-- **Agreement.** Nodes agree on what both consider decided, at any two moments of a run. -/
theorem agreement {S S' : State ν ε} (h : Inv Q S) (hs : Relation.ReflTransGen (Next Q) S S')
    {u v : ν} {k : ℕ} (hu : k ≤ S.commit u) (hv : k ≤ S'.commit v) :
    (S.log u).take k = (S'.log v).take k ∧ k ≤ (S.log u).length ∧ k ≤ (S'.log v).length := by
  have h' := inv_steps h hs
  have hbu := (h.commits.node u).of_le hu
  have hbv := (h'.commits.node v).of_le hv
  exact ⟨backed_take_eq h'.logs h'.complete (hbu.mono (le_of_steps hs) le_rfl) hbv,
    hbu.le_length, hbv.le_length⟩

end GammaFlow.Consensus
