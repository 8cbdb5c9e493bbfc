import Mathlib.Data.Set.Insert
import Mathlib.Data.List.Infix
import Mathlib.Logic.Function.Basic
import Mathlib.Logic.Relation
import GammaFlow.Lib.Quorum

/-!
# Leader-based replication, abstractly

The protocol a leader-based replicated log runs, with everything about packets,
indices and handlers removed. Nodes hold a term and a log; a candidate campaigns
with its log, collects votes, reigns over its term, and hands out **snapshots of
its whole log** that other nodes graft onto theirs.

Two points are deliberately weaker than the textbook protocol:

* `snap` is *not* restricted to the current leader. A node that captured its
  term and commit index while it reigned may take the snapshot much later, after
  it was deposed and overwritten, and still ship it under the old term. The
  snapshot is then a log of a *later* term carried by an *earlier* label.
* `raise` lets any node move to any later term at any time.

The history of the run (campaigns, votes, reigns, acknowledgements, snapshots) is
part of the state. No step reads it beyond its guard, and it only ever grows:
`Le` says how.
-/

namespace GammaFlow.Consensus

/-- After an update, a place holds the new value or, if it is another place, the old one. -/
theorem update_cases {α β : Type} [DecidableEq α] {f : α → β} {a b : α} {x y : β}
    (h : Function.update f b x a = y) : (a = b ∧ x = y) ∨ (a ≠ b ∧ f a = y) := by
  by_cases hab : a = b
  · rw [hab, Function.update_self] at h
    exact Or.inl ⟨hab, h⟩
  · rw [Function.update_of_ne hab] at h
    exact Or.inr ⟨hab, h⟩

/-- Log entries carry the term of the leader that wrote them and the place they were written at. -/
class Entry (ε : Type) where
  term : ε → ℕ
  index : ε → ℕ

/-- The reign of one term: who leads, with which log it was elected, and its log now. -/
structure Reign (ν ε : Type) where
  /-- The elected node. -/
  leader : ν
  /-- The log the leader was elected with. -/
  base : List ε
  /-- The leader's log while it reigns, and its last log of the reign afterwards. -/
  log : List ε

/-- Node states together with the history of the run. -/
structure State (ν ε : Type) where
  /-- Current term of each node. -/
  term : ν → ℕ
  /-- Current log of each node. -/
  log : ν → List ε
  /-- How much of its log each node considers decided. -/
  commit : ν → ℕ
  /-- `(X, t, ℓ)`: `X` campaigned in `t` with log `ℓ`. -/
  camps : Set (ν × ℕ × List ε)
  /-- `(v, t, X, m)`: `v` voted in `t` for `X` while holding log `m`. -/
  votes : Set (ν × ℕ × ν × List ε)
  /-- The reign of each term that has been won. -/
  reign : ℕ → Option (Reign ν ε)
  /-- `(v, t, a)`: under term `t` node `v` acknowledged log `a`. -/
  acks : Set (ν × ℕ × List ε)
  /-- `(X, t, c)`: reigning in `t`, `X` captured its commit index `c`. -/
  caps : Set (ν × ℕ × ℕ)
  /-- `(X, t, c, L)`: with that capture `X` shipped its log `L`. -/
  snaps : Set (ν × ℕ × ℕ × List ε)

variable {ν ε : Type}

/-- Nothing has happened yet. -/
def State.init : State ν ε where
  term := fun _ => 0
  log := fun _ => []
  commit := fun _ => 0
  camps := ∅
  votes := ∅
  reign := fun _ => none
  acks := ∅
  caps := ∅
  snaps := ∅

/-- The term of the last entry, `0` for the empty log. -/
def lastTerm [Entry ε] (ℓ : List ε) : ℕ := (ℓ.getLast?.map Entry.term).getD 0

/-- The voting rule: a later last term, or the same one and at least the length. -/
def UpToDate [Entry ε] (ℓ m : List ε) : Prop :=
  lastTerm m < lastTerm ℓ ∨ (lastTerm ℓ = lastTerm m ∧ m.length ≤ ℓ.length)

open Classical in
/-- Receiving `L` on top of `m`: a log that already contains `L` is left alone. -/
noncomputable def graft (L m : List ε) : List ε := if L <+: m then m else L

theorem prefix_graft_self (L m : List ε) : L <+: graft L m := by
  unfold graft; split
  · assumption
  · exact List.prefix_rfl

/-- Grafting keeps a prefix of the old log that is comparable with what arrives. -/
theorem prefix_graft {C L m : List ε} (hm : C <+: m) (hL : C <+: L ∨ L <+: C) :
    C <+: graft L m := by
  unfold graft; split
  · exact hm
  · rename_i hnot
    rcases hL with h | h
    · exact h
    · exact absurd (h.trans hm) hnot

theorem graft_eq_left {L m : List ε} (h : ¬ L <+: m) : graft L m = L := if_neg h

theorem graft_eq_right {L m : List ε} (h : L <+: m) : graft L m = m := if_pos h

/-- The result of a graft is one of the two logs. -/
theorem graft_cases (L m : List ε) : graft L m = m ∨ graft L m = L := by
  unfold graft; split
  · exact Or.inl rfl
  · exact Or.inr rfl

/-- What is grafted after a part of itself leaves what it would have left alone. -/
theorem graft_after_part {L L' : List ε} (h : L <+: L') (m : List ε) :
    graft L' (graft L m) = graft L' m := by
  by_cases hm : L <+: m
  · rw [graft_eq_right hm]
  · have hm' : ¬ L' <+: m := fun h' => hm (h.trans h')
    rw [graft_eq_left hm, graft_eq_left hm']
    rcases graft_cases L' L with hg | hg
    · have hback := prefix_graft_self L' L
      rw [hg] at hback ⊢
      exact h.eq_of_length (le_antisymm h.length_le hback.length_le)
    · exact hg

/-- A part of what was grafted adds nothing. -/
theorem graft_part_after {L L' : List ε} (h : L <+: L') (m : List ε) :
    graft L (graft L' m) = graft L' m :=
  graft_eq_right (h.trans (prefix_graft_self L' m))

section Steps

variable [DecidableEq ν] [Entry ε] (Q : QuorumSystem ν)

/-- One step of the acting node `v`. -/
inductive Step (v : ν) : State ν ε → State ν ε → Prop
  /-- Move to a later term. -/
  | raise (S : State ν ε) (t : ℕ) : S.term v ≤ t →
      Step v S { S with term := Function.update S.term v t }
  /-- Open the next term as a candidate, voting for itself. -/
  | campaign (S : State ν ε) :
      Step v S { S with
        term := Function.update S.term v (S.term v + 1)
        camps := insert (v, S.term v + 1, S.log v) S.camps
        votes := insert (v, S.term v + 1, v, S.log v) S.votes }
  /-- Vote in the current term, at most for one candidate. -/
  | vote (S : State ν ε) (X : ν) (ℓ : List ε) : (X, S.term v, ℓ) ∈ S.camps →
      UpToDate ℓ (S.log v) → (∀ Y m, (v, S.term v, Y, m) ∈ S.votes → Y = X) →
      Step v S { S with votes := insert (v, S.term v, X, S.log v) S.votes }
  /-- Win the current term with a quorum of votes. -/
  | elect (S : State ν ε) : (v, S.term v, S.log v) ∈ S.camps →
      Q.IsQuorum {u | ∃ m, (u, S.term v, v, m) ∈ S.votes} → S.reign (S.term v) = none →
      Step v S { S with
        reign := Function.update S.reign (S.term v) (some ⟨v, S.log v, S.log v⟩)
        acks := insert (v, S.term v, S.log v) S.acks }
  /-- The reigning leader appends an entry of its own term. -/
  | append (S : State ν ε) (b : List ε) (e : ε) :
      S.reign (S.term v) = some ⟨v, b, S.log v⟩ → Entry.term e = S.term v →
      Entry.index e = (S.log v).length + 1 →
      Step v S { S with
        log := Function.update S.log v (S.log v ++ [e])
        reign := Function.update S.reign (S.term v) (some ⟨v, b, S.log v ++ [e]⟩)
        acks := insert (v, S.term v, S.log v ++ [e]) S.acks }
  /-- The reigning leader captures its commit index. -/
  | capture (S : State ν ε) (b : List ε) : S.reign (S.term v) = some ⟨v, b, S.log v⟩ →
      Step v S { S with caps := insert (v, S.term v, S.commit v) S.caps }
  /-- Ship the present log under an earlier capture. -/
  | snap (S : State ν ε) (t c : ℕ) : (v, t, c) ∈ S.caps →
      Step v S { S with snaps := insert (v, t, c, S.log v) S.snaps }
  /-- Graft a snapshot shipped under the current term, and learn its commit index. -/
  | adopt (S : State ν ε) (X : ν) (c : ℕ) (L : List ε) : (X, S.term v, c, L) ∈ S.snaps →
      Step v S { S with
        log := Function.update S.log v (graft L (S.log v))
        commit := Function.update S.commit v
          (max (S.commit v) (min c (graft L (S.log v)).length))
        acks := insert (v, S.term v, graft L (S.log v)) S.acks }
  /-- The reigning leader decides an entry of its own term that a quorum acknowledged. -/
  | decide (S : State ν ε) (b : List ε) (N : ℕ) :
      S.reign (S.term v) = some ⟨v, b, S.log v⟩ → b.length < N → N ≤ (S.log v).length →
      Q.IsQuorum {u | ∃ a, (u, S.term v, a) ∈ S.acks ∧ (S.log v).take N <+: a} →
      S.commit v ≤ N →
      Step v S { S with commit := Function.update S.commit v N }

/-- Some node takes a step. -/
def Next (S S' : State ν ε) : Prop := ∃ v, Step Q v S S'

end Steps

/-! ## History only grows -/

/-- `S'` is a later state: its terms, commits and history extend those of `S`. -/
structure Le (S S' : State ν ε) : Prop where
  /-- Terms rise. -/
  term : ∀ v, S.term v ≤ S'.term v
  /-- Commit indices rise. -/
  commit : ∀ v, S.commit v ≤ S'.commit v
  /-- Campaigns are remembered. -/
  camps : S.camps ⊆ S'.camps
  /-- Votes are remembered. -/
  votes : S.votes ⊆ S'.votes
  /-- Acknowledgements are remembered. -/
  acks : S.acks ⊆ S'.acks
  /-- Captures are remembered. -/
  caps : S.caps ⊆ S'.caps
  /-- Snapshots are remembered. -/
  snaps : S.snaps ⊆ S'.snaps
  /-- A reign keeps its leader and base, and its log only grows. -/
  reign : ∀ t r, S.reign t = some r →
    ∃ r', S'.reign t = some r' ∧ r'.leader = r.leader ∧ r'.base = r.base ∧ r.log <+: r'.log

theorem Le.refl (S : State ν ε) : Le S S where
  term _ := le_rfl
  commit _ := le_rfl
  camps := subset_rfl
  votes := subset_rfl
  acks := subset_rfl
  caps := subset_rfl
  snaps := subset_rfl
  reign _ r h := ⟨r, h, rfl, rfl, List.prefix_rfl⟩

theorem Le.trans {S₁ S₂ S₃ : State ν ε} (h : Le S₁ S₂) (h' : Le S₂ S₃) : Le S₁ S₃ where
  term v := (h.term v).trans (h'.term v)
  commit v := (h.commit v).trans (h'.commit v)
  camps := h.camps.trans h'.camps
  votes := h.votes.trans h'.votes
  acks := h.acks.trans h'.acks
  caps := h.caps.trans h'.caps
  snaps := h.snaps.trans h'.snaps
  reign t r hr := by
    obtain ⟨r₂, h₂, hl₂, hb₂, hp₂⟩ := h.reign t r hr
    obtain ⟨r₃, h₃, hl₃, hb₃, hp₃⟩ := h'.reign t r₂ h₂
    exact ⟨r₃, h₃, hl₃.trans hl₂, hb₃.trans hb₂, hp₂.trans hp₃⟩

/-! ## A step is local to its node -/

/-- Between `S` and `S'` only node `v` acted. -/
structure Frame (v : ν) (S S' : State ν ε) : Prop where
  /-- Other nodes keep their term. -/
  term : ∀ u, u ≠ v → S'.term u = S.term u
  /-- Other nodes keep their log. -/
  log : ∀ u, u ≠ v → S'.log u = S.log u
  /-- Other nodes keep their commit index. -/
  commit : ∀ u, u ≠ v → S'.commit u = S.commit u
  /-- Other nodes do not campaign. -/
  camps : ∀ u, u ≠ v → ∀ t ℓ, (u, t, ℓ) ∈ S'.camps → (u, t, ℓ) ∈ S.camps
  /-- Other nodes cast no vote. -/
  votes : ∀ u, u ≠ v → ∀ t X m, (u, t, X, m) ∈ S'.votes → (u, t, X, m) ∈ S.votes
  /-- The reigns of other nodes are as they were. -/
  reign : ∀ t r, r.leader ≠ v → (S'.reign t = some r ↔ S.reign t = some r)

theorem Frame.refl (v : ν) (S : State ν ε) : Frame v S S :=
  ⟨fun _ _ => rfl, fun _ _ => rfl, fun _ _ => rfl, fun _ _ _ _ h => h, fun _ _ _ _ _ h => h,
    fun _ _ _ => Iff.rfl⟩

theorem Frame.trans {v : ν} {S₁ S₂ S₃ : State ν ε} (h : Frame v S₁ S₂) (h' : Frame v S₂ S₃) :
    Frame v S₁ S₃ where
  term u hu := (h'.term u hu).trans (h.term u hu)
  log u hu := (h'.log u hu).trans (h.log u hu)
  commit u hu := (h'.commit u hu).trans (h.commit u hu)
  camps u hu t ℓ hc := h.camps u hu t ℓ (h'.camps u hu t ℓ hc)
  votes u hu t X m hm := h.votes u hu t X m (h'.votes u hu t X m hm)
  reign t r hr := (h'.reign t r hr).trans (h.reign t r hr)

/-! ## What a step does to the state -/

section

variable [DecidableEq ν]

theorem le_update_self {f : ν → ℕ} {v : ν} {n : ℕ} (h : f v ≤ n) (u : ν) :
    f u ≤ Function.update f v n u := by
  by_cases huv : u = v
  · subst huv; simpa using h
  · simp [huv]

variable [Entry ε] {Q : QuorumSystem ν}

/-- Every step moves to a later state. -/
theorem Step.le {v : ν} {S S' : State ν ε} (h : Step Q v S S') : Le S S' := by
  cases h with
  | raise t ht => exact { Le.refl S with term := le_update_self ht }
  | campaign =>
      exact { Le.refl S with
        term := le_update_self (Nat.le_succ _)
        camps := Set.subset_insert _ _
        votes := Set.subset_insert _ _ }
  | vote X ℓ hc hu ho => exact { Le.refl S with votes := Set.subset_insert _ _ }
  | elect hc hq hn =>
      refine { Le.refl S with acks := Set.subset_insert _ _, reign := ?_ }
      intro t r hr
      have hne : t ≠ S.term v := by rintro rfl; rw [hn] at hr; exact absurd hr (by simp)
      exact ⟨r, by simpa [hne] using hr, rfl, rfl, List.prefix_rfl⟩
  | append b e hr he hi =>
      refine { Le.refl S with acks := Set.subset_insert _ _, reign := ?_ }
      intro t r hr'
      by_cases ht : t = S.term v
      · subst ht
        rw [hr] at hr'
        obtain rfl := Option.some.inj hr'
        exact ⟨⟨v, b, S.log v ++ [e]⟩, by simp, rfl, rfl, List.prefix_append _ _⟩
      · exact ⟨r, by simpa [ht] using hr', rfl, rfl, List.prefix_rfl⟩
  | capture b hr => exact { Le.refl S with caps := Set.subset_insert _ _ }
  | snap t c hc => exact { Le.refl S with snaps := Set.subset_insert _ _ }
  | adopt X c L hs =>
      exact { Le.refl S with
        commit := le_update_self (le_max_left _ _)
        acks := Set.subset_insert _ _ }
  | decide b N hr hb hN hq hle => exact { Le.refl S with commit := le_update_self hle }

theorem le_of_steps {S S' : State ν ε} (h : Relation.ReflTransGen (Next Q) S S') : Le S S' := by
  induction h with
  | refl => exact Le.refl S
  | tail _ hs ih => obtain ⟨v, hv⟩ := hs; exact ih.trans hv.le

theorem Step.frame {v : ν} {S S' : State ν ε} (h : Step Q v S S') : Frame v S S' := by
  have vote_other : ∀ {x : ℕ × ν × List ε} {u : ν}, u ≠ v → ∀ t X m,
      (u, t, X, m) ∈ insert (v, x) S.votes → (u, t, X, m) ∈ S.votes := by
    intro x u hu t X m hm
    rcases Set.mem_insert_iff.mp hm with heq | hm
    · exact absurd (congrArg Prod.fst heq) hu
    · exact hm
  cases h with
  | raise t ht => exact { Frame.refl v S with term := fun u hu => by simp [hu] }
  | campaign =>
      refine { Frame.refl v S with
        term := fun u hu => by simp [hu]
        camps := ?_
        votes := fun u hu => vote_other hu }
      intro u hu t ℓ hc
      rcases Set.mem_insert_iff.mp hc with heq | hc
      · exact absurd (congrArg Prod.fst heq) hu
      · exact hc
  | vote X ℓ hc hu ho => exact { Frame.refl v S with votes := fun u hu => vote_other hu }
  | elect hc hq hn =>
      refine { Frame.refl v S with reign := ?_ }
      intro t r hr
      by_cases ht : t = S.term v
      · subst ht
        simp only [Function.update_self, Option.some.injEq, hn, reduceCtorEq, iff_false]
        rintro rfl; exact hr rfl
      · simp [ht]
  | append b e hr he hi =>
      refine { Frame.refl v S with log := fun u hu => by simp [hu], reign := ?_ }
      intro t r hl
      by_cases ht : t = S.term v
      · subst ht
        simp only [Function.update_self, Option.some.injEq, hr]
        constructor <;> (rintro rfl; exact absurd rfl hl)
      · simp [ht]
  | capture b hr => exact { Frame.refl v S with }
  | snap t c hc => exact { Frame.refl v S with }
  | adopt X c L hs =>
      exact { Frame.refl v S with
        log := fun u hu => by simp [hu]
        commit := fun u hu => by simp [hu] }
  | decide b N hr hb hN hq hle =>
      exact { Frame.refl v S with commit := fun u hu => by simp [hu] }

/-- A run of one node's steps is local to that node. -/
theorem frame_of_steps {v : ν} {S S' : State ν ε}
    (h : Relation.ReflTransGen (Step Q v) S S') : Frame v S S' := by
  induction h with
  | refl => exact Frame.refl v S
  | tail _ hs ih => exact ih.trans hs.frame

theorem next_of_steps {v : ν} {S S' : State ν ε}
    (h : Relation.ReflTransGen (Step Q v) S S') : Relation.ReflTransGen (Next Q) S S' :=
  Relation.ReflTransGen.mono (fun _ _ hs => ⟨v, hs⟩) _ _ h

end

end GammaFlow.Consensus
