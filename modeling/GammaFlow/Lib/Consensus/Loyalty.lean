import GammaFlow.Lib.Consensus.Commit

/-!
# Followers of a reigning leader

An acknowledgement says what a node held when it gave it. As long as the leader of
the term is still in that term, it says more: a node that is in the term as well
holds it still. The node's log changes by grafts alone, and every snapshot under the
term was taken by the reigning leader, so what is grafted is a part of the same log.

Once the leader has moved on this ends. Its late snapshots carry other logs under the
old term, and a follower that stayed behind may lose what it acknowledged.
-/

namespace GammaFlow.Consensus

variable {ν ε : Type} {Q : QuorumSystem ν}

/--
While the leader of a term is in it, whoever is in it too and has acknowledged a part
of the leader's log holds that part.
-/
def Loyal (S : State ν ε) : Prop :=
  ∀ u t r C, S.reign t = some r → S.term r.leader = t → S.term u = t → Acked S u t C →
    C <+: r.log → C <+: S.log u

theorem loyal_init : Loyal (State.init : State ν ε) := by
  intro u t r C hr
  exact absurd hr (by simp [State.init])

variable [Entry ε]

theorem loyal_elect {S : State ν ε} (h : Logs Q S) (hl : Loyal S) {v : ν}
    (hn : S.reign (S.term v) = none) :
    Loyal { S with
      reign := Function.update S.reign (S.term v) (some ⟨v, S.log v, S.log v⟩)
      acks := insert (v, S.term v, S.log v) S.acks } := by
  intro u t r C hr hlead hu hacked hC
  obtain ⟨a, ha, hCa⟩ := hacked
  rcases Set.mem_insert_iff.mp ha with heq | ha
  · obtain ⟨rfl, rfl, rfl⟩ := heq; exact hCa
  · -- an acknowledgement that was there before belongs to another reign
    obtain ⟨_, r', hr'⟩ := h.sourced.ack ha
    have hne : t ≠ S.term v := by
      rintro rfl; rw [hn] at hr'; exact absurd hr' (by simp)
    dsimp only at hr hlead hu
    rw [Function.update_of_ne hne] at hr
    exact hl u t r C hr hlead hu ⟨a, ha, hCa⟩ hC

variable [DecidableEq ν]

/-- Steps that write no log and no acknowledgement: no term comes back to where it was. -/
theorem loyal_still {v : ν} {S S' : State ν ε} (hb : Ballots Q S) (h : Logs Q S) (hl : Loyal S)
    (hs : Step Q v S S') (hlog : S'.log = S.log) (hacks : S'.acks = S.acks)
    (hreign : S'.reign = S.reign) : Loyal S' := by
  intro u t r C hr hlead hu hacked hC
  unfold Acked at hacked
  rw [hacks] at hacked
  rw [hreign] at hr
  rw [hlog]
  obtain ⟨a, ha, hCa⟩ := hacked
  have hlow := (h.sourced.ack ha).1
  have hlow' := hb.reign_term hr
  have hle := hs.le.term
  refine hl u t r C hr ?_ ?_ ⟨a, ha, hCa⟩ hC
  · exact le_antisymm ((hle _).trans hlead.le) hlow'
  · exact le_antisymm ((hle _).trans hu.le) hlow

theorem loyal_append {S : State ν ε} (h : Logs Q S) (hl : Loyal S) {v : ν} {b : List ε} {e : ε}
    (hr : S.reign (S.term v) = some ⟨v, b, S.log v⟩) (he : Entry.term e = S.term v) :
    Loyal { S with
      log := Function.update S.log v (S.log v ++ [e])
      reign := Function.update S.reign (S.term v) (some ⟨v, b, S.log v ++ [e]⟩)
      acks := insert (v, S.term v, S.log v ++ [e]) S.acks } := by
  -- whatever `u` held, it holds: the log that changes only grows
  have grows : ∀ u C, C <+: S.log u → C <+: Function.update S.log v (S.log v ++ [e]) u := by
    intro u C hC
    by_cases huv : u = v
    · rw [huv] at hC ⊢
      rw [Function.update_self]
      exact hC.trans (List.prefix_append _ _)
    · rw [Function.update_of_ne huv]; exact hC
  intro u t r C hr' hlead hu hacked hC
  dsimp only at hr' hlead hu ⊢
  obtain ⟨a, ha, hCa⟩ := hacked
  rcases Set.mem_insert_iff.mp ha with heq | ha
  · obtain ⟨rfl, rfl, rfl⟩ := heq
    rw [Function.update_self]; exact hCa
  by_cases ht : t = S.term v
  · rw [ht, Function.update_self] at hr'
    obtain rfl := Option.some.inj hr'
    dsimp only at hlead hC
    rcases List.prefix_concat_iff.mp hC with hnew | hC
    · refine absurd ?_ (not_acked_of_new h hr he u t)
      rw [hnew] at hCa
      exact ⟨a, ha, hCa⟩
    · exact grows u C (hl u t _ C (ht ▸ hr) hlead hu ⟨a, ha, hCa⟩ hC)
  · rw [Function.update_of_ne ht] at hr'
    exact grows u C (hl u t r C hr' hlead hu ⟨a, ha, hCa⟩ hC)

theorem loyal_adopt {S : State ν ε} (h : Logs Q S) (hl : Loyal S) {v X : ν} {c : ℕ} {L : List ε}
    (hL : (X, S.term v, c, L) ∈ S.snaps) :
    Loyal { S with
      log := Function.update S.log v (graft L (S.log v))
      commit := Function.update S.commit v (max (S.commit v) (min c (graft L (S.log v)).length))
      acks := insert (v, S.term v, graft L (S.log v)) S.acks } := by
  intro u t r C hr hlead hu hacked hC
  dsimp only at hr hlead hu ⊢
  obtain ⟨a, ha, hCa⟩ := hacked
  rcases Set.mem_insert_iff.mp ha with heq | ha
  · obtain ⟨rfl, rfl, rfl⟩ := heq
    rw [Function.update_self]; exact hCa
  have hold := hl u t r C hr hlead hu ⟨a, ha, hCa⟩ hC
  by_cases huv : u = v
  · subst huv
    rw [Function.update_self]
    -- the snapshot is the reigning leader's, so it is a part of the same log as `C`
    obtain ⟨r', hr', hX, hpart⟩ := h.sourced.snap hL
    rw [hu, hr] at hr'
    obtain rfl := Option.some.inj hr'
    have hLr : L <+: r.log := by
      rcases hpart with hLr | hlt
      · exact hLr
      · rw [← hX, hlead, hu] at hlt
        exact absurd hlt (lt_irrefl _)
    exact prefix_graft hold (List.prefix_or_prefix_of_prefix hC hLr)
  · rw [Function.update_of_ne huv]; exact hold

/-- **Loyalty is preserved by every step.** -/
theorem loyal_step {v : ν} {S S' : State ν ε} (hb : Ballots Q S) (h : Logs Q S) (hl : Loyal S)
    (hs : Step Q v S S') : Loyal S' := by
  have still := loyal_still hb h hl hs
  cases hs with
  | raise t ht => exact still rfl rfl rfl
  | campaign => exact still rfl rfl rfl
  | vote X ℓ hc hu ho => exact still rfl rfl rfl
  | elect hc hq hn => exact loyal_elect h hl hn
  | append b e hr he hi => exact loyal_append h hl hr he
  | capture b hr => exact still rfl rfl rfl
  | snap t c hc => exact still rfl rfl rfl
  | adopt X c L hL => exact loyal_adopt h hl hL
  | decide b N hr hlt hN hq hle => exact still rfl rfl rfl

theorem loyal_steps {S S' : State ν ε} (h : Inv Q S) (hl : Loyal S)
    (hs : Relation.ReflTransGen (Next Q) S S') : Loyal S' := by
  induction hs with
  | refl => exact hl
  | tail hrun hs ih =>
      obtain ⟨v, hv⟩ := hs
      have hinv := inv_steps h hrun
      exact loyal_step hinv.ballots hinv.logs ih hv

end GammaFlow.Consensus
