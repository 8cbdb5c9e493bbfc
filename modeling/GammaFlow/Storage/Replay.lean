import Mathlib.Data.List.Induction
import GammaFlow.Storage.Record

/-!
# Terms and votes after a replay

A replay folds each file on its own and then merges the results, so it sees a vote
without the term record before it, and a file without any term at all. Over an
orderly stream none of this matters: however the stream is split into files, the
replay returns its last term, and the vote cast in that term if there was one.

A vote of an earlier term may come back as well, if the last term saw none. The
node is then bound to the same candidate in its new term, which is safe.
-/

namespace GammaFlow.Storage

/-- The term a record speaks of; an entry record says nothing about the node's own term. -/
def WalRecord.term? : WalRecord → Option Nat
  | .term t => some t
  | .vote _ t => some t
  | .entry _ => none

/-- Terms are positive and do not fall, and there is at most one vote a term, for someone. -/
structure Orderly (recs : List WalRecord) : Prop where
  sorted : recs.Pairwise fun a b => ∀ s t, a.term? = some s → b.term? = some t → s ≤ t
  pos : ∀ a ∈ recs, ∀ t, a.term? = some t → 0 < t
  named : ∀ v t, WalRecord.vote v t ∈ recs → v ≠ ""
  unique : ∀ v v' t, WalRecord.vote v t ∈ recs → WalRecord.vote v' t ∈ recs → v = v'

theorem Orderly.of_append_left {as bs : List WalRecord} (h : Orderly (as ++ bs)) : Orderly as where
  sorted := (List.pairwise_append.mp h.sorted).1
  pos a ha := h.pos a (List.mem_append_left bs ha)
  named v t hv := h.named v t (List.mem_append_left bs hv)
  unique v v' t hv hv' := h.unique v v' t (List.mem_append_left bs hv) (List.mem_append_left bs hv')

theorem Orderly.of_append_right {as bs : List WalRecord} (h : Orderly (as ++ bs)) : Orderly bs where
  sorted := (List.pairwise_append.mp h.sorted).2.1
  pos a ha := h.pos a (List.mem_append_right as ha)
  named v t hv := h.named v t (List.mem_append_right as hv)
  unique v v' t hv hv' :=
    h.unique v v' t (List.mem_append_right as hv) (List.mem_append_right as hv')

theorem Orderly.le {as bs : List WalRecord} (h : Orderly (as ++ bs)) {a b : WalRecord} {s t : Nat}
    (ha : a ∈ as) (hb : b ∈ bs) (hs : a.term? = some s) (ht : b.term? = some t) : s ≤ t :=
  (List.pairwise_append.mp h.sorted).2.2 a ha b hb s t hs ht

/-- `r` has the last term of the records and the vote cast in it. -/
structure Summarises (recs : List WalRecord) (r : Replayed) : Prop where
  bound : ∀ a ∈ recs, ∀ t, a.term? = some t → t ≤ r.term
  attained : r.term = 0 ∨ ∃ a ∈ recs, a.term? = some r.term
  voted : ∀ v, WalRecord.vote v r.term ∈ recs → r.votedFor = v
  source : r.votedFor = "" ∨ ∃ t, WalRecord.vote r.votedFor t ∈ recs

/-! ## The last term and the last vote -/

def WalRecord.vote? : WalRecord → Option String
  | .vote v _ => some v
  | _ => none

/-- The term of the last record that speaks of one. -/
def lastTerm (recs : List WalRecord) : Nat := (recs.filterMap WalRecord.term?).getLast?.getD 0

/-- Who was voted for last. -/
def lastVote (recs : List WalRecord) : String := (recs.filterMap WalRecord.vote?).getLast?.getD ""

theorem lastOf_append {α : Type} (f : WalRecord → Option α) (d : α) (as bs : List WalRecord) :
    ((as ++ bs).filterMap f).getLast?.getD d =
      (bs.filterMap f).getLast?.getD ((as.filterMap f).getLast?.getD d) := by
  rw [List.filterMap_append, List.getLast?_append, Option.getD_or]

theorem lastTerm_append (as bs : List WalRecord) :
    lastTerm (as ++ bs) = (bs.filterMap WalRecord.term?).getLast?.getD (lastTerm as) :=
  lastOf_append _ _ as bs

theorem lastVote_append (as bs : List WalRecord) :
    lastVote (as ++ bs) = (bs.filterMap WalRecord.vote?).getLast?.getD (lastVote as) :=
  lastOf_append _ _ as bs

/-- The terms that a stream speaks of do not fall. -/
def TermsRise (recs : List WalRecord) : Prop :=
  (recs.filterMap WalRecord.term?).Pairwise (· ≤ ·)

instance (recs : List WalRecord) : Decidable (TermsRise recs) :=
  inferInstanceAs (Decidable (List.Pairwise _ _))

theorem TermsRise.of_append {as bs : List WalRecord} (h : TermsRise (as ++ bs)) :
    TermsRise as ∧ TermsRise bs ∧ ∀ t ∈ bs.filterMap WalRecord.term?, lastTerm as ≤ t := by
  unfold TermsRise at h ⊢
  rw [List.filterMap_append, List.pairwise_append] at h
  refine ⟨h.1, h.2.1, ?_⟩
  intro t ht
  unfold lastTerm
  cases hl : (as.filterMap WalRecord.term?).getLast? with
  | none => exact Nat.zero_le t
  | some s => exact h.2.2 s (List.mem_of_getLast? hl) t ht

theorem TermsRise.le_lastTerm {recs : List WalRecord} (h : TermsRise recs) :
    ∀ t ∈ recs.filterMap WalRecord.term?, t ≤ lastTerm recs := by
  unfold TermsRise at h
  unfold lastTerm
  generalize recs.filterMap WalRecord.term? = ts at h ⊢
  induction ts using List.reverseRecOn with
  | nil => intro t ht; exact absurd ht (by simp)
  | append_singleton ts u _ =>
      rw [List.pairwise_append] at h
      rw [List.getLast?_concat, Option.getD_some]
      intro t ht
      rcases List.mem_append.mp ht with ht | ht
      · exact h.2.2 t ht u (List.mem_singleton_self u)
      · exact Nat.le_of_eq (List.mem_singleton.mp ht)

theorem replayFile_term {recs : List WalRecord} (h : TermsRise recs) :
    (replayFile recs).term = lastTerm recs := by
  induction recs using List.reverseRecOn with
  | nil => rfl
  | append_singleton recs r ih =>
      obtain ⟨hrecs, _, hle⟩ := h.of_append
      unfold replayFile at ih ⊢
      rw [List.foldl_append, lastTerm_append]
      cases r with
      | term t => rfl
      | vote v t =>
          have hacc := ih hrecs
          have hlast := hle t (by simp [WalRecord.term?])
          show (if t > _ then t else _) = t
          rw [hacc]
          split <;> omega
      | entry e => exact ih hrecs

/-- **Replay returns the last term**, however the stream is split. -/
theorem replay_term {files : List (List WalRecord)} (h : TermsRise files.flatten) :
    (replay files).term = lastTerm files.flatten := by
  induction files using List.reverseRecOn with
  | nil => rfl
  | append_singleton fs f ih =>
      rw [List.flatten_append, List.flatten_singleton] at h ⊢
      obtain ⟨hfs, hf, hle⟩ := h.of_append
      have hacc := ih hfs
      have hfile := replayFile_term hf
      unfold replay at hacc ⊢
      rw [List.foldl_append, lastTerm_append]
      show (if (replayFile f).term > 0 then (replayFile f).term else _) = _
      rw [hacc, hfile]
      unfold lastTerm at hle ⊢
      cases hl : (f.filterMap WalRecord.term?).getLast? with
      | none => rfl
      | some t =>
          -- a last term of `0` leaves nothing above it in the earlier files
          have hmem := hle t (List.mem_of_getLast? hl)
          rw [Option.getD_some, Option.getD_some]
          split <;> omega

theorem replayFile_votedFor (recs : List WalRecord) :
    (replayFile recs).votedFor = lastVote recs := by
  induction recs using List.reverseRecOn with
  | nil => rfl
  | append_singleton recs r ih =>
      unfold replayFile at ih ⊢
      rw [List.foldl_append, lastVote_append]
      cases r with
      | term t => exact ih
      | vote v t => rfl
      | entry e => exact ih

/-- The last file decides, unless its last vote is for no one or it has none. -/
theorem replay_votedFor_snoc (files : List (List WalRecord)) (f : List WalRecord) :
    (replay (files ++ [f])).votedFor =
      if lastVote f ≠ "" then lastVote f else (replay files).votedFor := by
  unfold replay
  rw [List.foldl_append, ← replayFile_votedFor]
  rfl

/-- **Replay returns the last vote**, however the stream is split. -/
theorem replay_votedFor {files : List (List WalRecord)}
    (h : ∀ v ∈ files.flatten.filterMap WalRecord.vote?, v ≠ "") :
    (replay files).votedFor = lastVote files.flatten := by
  induction files using List.reverseRecOn with
  | nil => rfl
  | append_singleton fs f ih =>
      rw [List.flatten_append, List.flatten_singleton] at h ⊢
      rw [List.filterMap_append] at h
      have hacc := ih fun v hv => h v (List.mem_append_left _ hv)
      rw [replay_votedFor_snoc, lastVote_append, hacc]
      unfold lastVote
      cases hl : (f.filterMap WalRecord.vote?).getLast? with
      | none => rfl
      | some v => exact if_pos (h v (List.mem_append_right _ (List.mem_of_getLast? hl)))

/-- No file has a vote for someone as its last vote. -/
def Unvoted (files : List (List WalRecord)) : Prop := ∀ f ∈ files, lastVote f = ""

instance (files : List (List WalRecord)) : Decidable (Unvoted files) :=
  inferInstanceAs (Decidable (∀ _ ∈ _, _))

theorem replay_unvoted_iff (files : List (List WalRecord)) :
    (replay files).votedFor = "" ↔ Unvoted files := by
  unfold Unvoted
  induction files using List.reverseRecOn with
  | nil => simp [replay, Replayed.zero]
  | append_singleton fs f ih =>
      rw [replay_votedFor_snoc, List.forall_mem_append, List.forall_mem_singleton]
      split
      · rename_i hf
        exact ⟨fun h => absurd h hf, fun h => h.2⟩
      · rename_i hf
        rw [ih]
        exact ⟨fun h => ⟨h, not_not.mp hf⟩, fun h => h.1⟩

/-! ## Orderly streams -/

theorem exists_vote {recs : List WalRecord} {v : String} (h : v ∈ recs.filterMap WalRecord.vote?) :
    ∃ t, WalRecord.vote v t ∈ recs := by
  obtain ⟨r, hr, hv⟩ := List.mem_filterMap.mp h
  cases r with
  | vote u t =>
      obtain rfl : u = v := Option.some.inj hv
      exact ⟨t, hr⟩
  | _ => exact absurd hv (by simp [WalRecord.vote?])

theorem Orderly.termsRise {recs : List WalRecord} (h : Orderly recs) : TermsRise recs :=
  List.pairwise_filterMap.mpr (h.sorted.imp fun hab s hs t ht => hab s t hs ht)

/-- The vote of the last term is the last vote of all. -/
theorem Orderly.lastVote_eq {recs : List WalRecord} (h : Orderly recs) {v : String}
    (hv : WalRecord.vote v (lastTerm recs) ∈ recs) : lastVote recs = v := by
  have hbound := h.termsRise.le_lastTerm
  generalize lastTerm recs = t at hv hbound
  obtain ⟨as, bs, rfl⟩ := List.append_of_mem hv
  have hlast : lastVote (as ++ .vote v t :: bs)
      = (bs.filterMap WalRecord.vote?).getLast?.getD v := by
    rw [lastVote_append, List.filterMap_cons]
    show (v :: bs.filterMap WalRecord.vote?).getLast?.getD _ = _
    rw [List.getLast?_cons, Option.getD_some]
  rw [hlast]
  cases hl : (bs.filterMap WalRecord.vote?).getLast? with
  | none => rfl
  | some u =>
      -- a vote behind it is of the same term, and so for the same candidate
      obtain ⟨t', hu⟩ := exists_vote (List.mem_of_getLast? hl)
      have hmem : WalRecord.vote u t' ∈ as ++ .vote v t :: bs :=
        List.mem_append_right _ (List.mem_cons_of_mem _ hu)
      have hbehind : Orderly ([.vote v t] ++ bs) := h.of_append_right
      have hle := hbound t' (List.mem_filterMap.mpr ⟨_, hmem, rfl⟩)
      have hge := hbehind.le (List.mem_singleton_self _) hu rfl rfl
      obtain rfl : t' = t := Nat.le_antisymm hle hge
      exact h.unique u v t' hmem hv

/-- **Replay returns the last term and the vote cast in it**, however the stream is split. -/
theorem summarises_replay {files : List (List WalRecord)} (ho : Orderly files.flatten) :
    Summarises files.flatten (replay files) := by
  have hterm := replay_term ho.termsRise
  have hvote : (replay files).votedFor = lastVote files.flatten := by
    refine replay_votedFor ?_
    intro v hv
    obtain ⟨t, ht⟩ := exists_vote hv
    exact ho.named v t ht
  refine ⟨?_, ?_, ?_, ?_⟩
  · intro a ha t ht
    rw [hterm]
    exact ho.termsRise.le_lastTerm t (List.mem_filterMap.mpr ⟨a, ha, ht⟩)
  · rw [hterm]
    unfold lastTerm
    cases hl : (files.flatten.filterMap WalRecord.term?).getLast? with
    | none => exact Or.inl rfl
    | some t => exact Or.inr (List.mem_filterMap.mp (List.mem_of_getLast? hl))
  · intro v hv
    rw [hterm] at hv
    rw [hvote, ho.lastVote_eq hv]
  · rw [hvote]
    unfold lastVote
    cases hl : (files.flatten.filterMap WalRecord.vote?).getLast? with
    | none => exact Or.inl rfl
    | some v => exact Or.inr (exists_vote (List.mem_of_getLast? hl))

/-! ## One more record -/

theorem TermsRise.lastTerm_le {as bs : List WalRecord} (h : TermsRise (as ++ bs)) :
    lastTerm as ≤ lastTerm (as ++ bs) := by
  rw [lastTerm_append]
  cases hl : (bs.filterMap WalRecord.term?).getLast? with
  | none => exact Nat.le_refl _
  | some t => exact h.of_append.2.2 t (List.mem_of_getLast? hl)

theorem TermsRise.snoc {recs : List WalRecord} (h : TermsRise recs) {r : WalRecord}
    (hr : ∀ t, r.term? = some t → lastTerm recs ≤ t) : TermsRise (recs ++ [r]) := by
  unfold TermsRise at h ⊢
  rw [List.filterMap_append, List.pairwise_append]
  refine ⟨h, ?_, ?_⟩
  · cases hr' : r.term? <;> simp [hr']
  · intro s hs t ht
    obtain ⟨r', hr', ht⟩ := List.mem_filterMap.mp ht
    rw [List.mem_singleton.mp hr'] at ht
    exact Nat.le_trans (TermsRise.le_lastTerm h s hs) (hr t ht)

namespace Wal

variable {rotates : List (List WalRecord) → WalRecord → Bool}

/-- A vote for someone is the one that a replay returns. -/
theorem replay_append_vote (d : Wal rotates) {v : String} (t : Nat) (hv : v ≠ "") :
    (replay (d.append (.vote v t)).files).votedFor = v := by
  have hlast : ∀ f : List WalRecord, lastVote (f ++ [.vote v t]) = v := by
    intro f
    rw [lastVote_append]
    rfl
  unfold append
  split
  · rw [replay_votedFor_snoc, show lastVote [.vote v t] = v from rfl, if_pos hv]
  · rw [replay_votedFor_snoc, hlast, if_pos hv]

/-- Any other record leaves the vote that a replay returns. -/
theorem replay_append_other (d : Wal rotates) {r : WalRecord} (hr : r.vote? = none) :
    (replay (d.append r).files).votedFor = (replay d.files).votedFor := by
  have hlast : ∀ f : List WalRecord, lastVote (f ++ [r]) = lastVote f := by
    intro f
    rw [lastVote_append, List.filterMap_cons, hr]
    rfl
  unfold append
  split
  · rw [replay_votedFor_snoc, ← List.nil_append [r], hlast]
    rfl
  · rw [replay_votedFor_snoc, hlast]
    cases hf : d.files.getLast? with
    | none => rw [List.getLast?_eq_none_iff.mp hf]; rfl
    | some f =>
        conv_rhs => rw [← List.dropLast_append_getLast? f (Option.mem_def.mpr hf)]
        rw [replay_votedFor_snoc]
        rfl

end Wal

end GammaFlow.Storage
