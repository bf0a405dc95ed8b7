import XuperMiner.Cycle
import XuperMiner.Thaw

/-!
# XuperMiner.Batch

The confirm batch the side-table writers share (spec §5, "Shared
resources"; §9, "Batch re-use").

`ReadTermTable`, `UpdateCacheTable` and `ClearThawTx` stage rows with
`ConfirmBatch.Put` and commit them with `ConfirmBatch.Write`, on the one
batch the ledger holds; every `Reset` in the source is commented out.  So
each of them changes the world by a sequence of puts and writes and by
nothing else (`Staged`), and what holds of such sequences holds of all
three and of any run of them:

* the batch only grows, and only the table and the batch change
  (`Staged.batch_eq`, `Staged.frame`);
* measured from the table the batch started on, the committed table is
  always that table with a prefix of the batch applied (`Committed`), so a
  successful `Write` commits every put staged since, whichever call staged
  it (`Committed.write_ok`);
* once the committed `tdpos_term` row and the last staged one both record
  the term `t` (`TermPinned`), no `ReadTermTable` call that observes `t`
  answers `true`.
-/

namespace XuperMiner

open ConfirmedTable

/-! ## Puts and writes -/

/-- `w'` is `w` after a sequence of `Put`s, each on a key satisfying
`keys`, and `Write`s with any outcome. -/
inductive Staged (keys : Key → Prop) : World → World → Prop
  | refl (w : World) : Staged keys w w
  | put {w w' : World} (k : Key) (r : Row) : keys k → Staged keys w w' →
      Staged keys w (w'.put k r)
  | write {w w' : World} (o : Except Err Unit) : Staged keys w w' → Staged keys w (w'.write o)

namespace Staged

variable {keys : Key → Prop} {w₁ w₂ w₃ : World}

/-- Sequences of puts and writes compose. -/
theorem trans (h₁ : Staged keys w₁ w₂) (h₂ : Staged keys w₂ w₃) : Staged keys w₁ w₃ := by
  induction h₂ with
  | refl => exact h₁
  | put k r hk _ ih => exact .put k r hk ih
  | write o _ ih => exact .write o ih

/-- A sequence staging on `keys` stages on any wider set of keys. -/
theorem mono {keys' : Key → Prop} (hk : ∀ k, keys k → keys' k) (h : Staged keys w₁ w₂) :
    Staged keys' w₁ w₂ := by
  induction h with
  | refl => exact .refl _
  | put k r hk' _ ih => exact .put k r (hk k hk') ih
  | write o _ ih => exact .write o ih

/-- The batch only grows, by puts on `keys`. -/
theorem batch_eq (h : Staged keys w₁ w₂) :
    ∃ puts, w₂.batch = w₁.batch ++ puts ∧ ∀ p ∈ puts, keys p.1 := by
  induction h with
  | refl => exact ⟨[], by simp, by simp⟩
  | put k r hk _ ih =>
    obtain ⟨puts, hb, hp⟩ := ih
    refine ⟨puts ++ [(k, r)], by simp [hb], ?_⟩
    simp only [List.mem_append, List.mem_singleton]
    rintro p (hp' | rfl)
    exacts [hp p hp', hk]
  | write o _ ih => simpa using ih

/-- Only the table and the batch change. -/
theorem frame (h : Staged keys w₁ w₂) :
    ∃ t b, w₂ = { w₁ with table := t, batch := b } := by
  induction h with
  | refl => exact ⟨w₁.table, w₁.batch, rfl⟩
  | put k r _ _ ih =>
    obtain ⟨t, b, rfl⟩ := ih
    exact ⟨t, b ++ [(k, r)], rfl⟩
  | write o _ ih =>
    obtain ⟨t, b, rfl⟩ := ih
    cases o
    exacts [⟨t, b, rfl⟩, ⟨t.commit b, b, rfl⟩]

end Staged

/-! ## What the three writers stage -/

/-- The tail of `ReadTermTable` stages one `tdpos_term` row and writes. -/
theorem putTermTable_staged (tt : TermTable) (o : Except Err Unit) (w : World) :
    Staged (· = .term) w (putTermTable tt o w).1 :=
  .write o (.put .term _ rfl (.refl w))

/-- `ReadTermTable` stages only the `tdpos_term` row. -/
theorem readTermTable_staged (status : Except Err Int) (o : Except Err Unit) (w : World) :
    Staged (· = .term) w (readTermTable status o w).1 := by
  rw [readTermTable_eq]
  split
  · exact .refl w
  · exact putTermTable_staged _ o w

/-- The loop of `UpdateCacheTable` stages only `cache_` rows. -/
theorem stageCacheRows_staged (as : List Address) (w : World) :
    Staged (∃ a, · = .cache a) w (stageCacheRows as w).1 := by
  induction as generalizing w with
  | nil => exact .refl w
  | cons a as ih =>
    rw [stageCacheRows]
    split
    · exact .refl w
    · exact (Staged.put _ _ ⟨a, rfl⟩ (.refl w)).trans (ih _)

/-- `UpdateCacheTable` stages only `cache_` rows. -/
theorem updateCacheTable_staged (o : Except Err Unit) (w : World) :
    Staged (∃ a, · = .cache a) w (updateCacheTable o w) := by
  unfold updateCacheTable
  split
  · exact .refl w
  split
  · exact .refl w
  rename_i free _
  have h := stageCacheRows_staged (free.candidate.entries.map Prod.snd) w
  dsimp only
  split
  · exact .write o (by simpa using h)
  · simpa using h

/-- The keys `ClearThawTx` writes: `amount_` rows and the schedule. -/
def ThawKey (k : Key) : Prop := (∃ a, k = .amount a) ∨ k = .nodeThaw

/-- The loop of `ClearThawTx` stages only `amount_` rows. -/
theorem clearThawRows_staged (height : Int) (written : Nat → Except Err Unit) (i : Nat)
    (ds : List NodeDetail) (w : World) :
    Staged ThawKey w (clearThawRows height written i ds w).1 := by
  induction ds generalizing i w with
  | nil => exact .refl w
  | cons d ds ih =>
    rw [clearThawRows]
    split
    · exact .refl w
    · split
      · exact .refl w
      · exact (Staged.write _ (.put _ _ (.inl ⟨d.address, rfl⟩) (.refl w))).trans (ih _ _)

/-- `ClearThawTx` stages only `amount_` rows and the schedule. -/
theorem clearThawTx_staged (height : Int) (written : Nat → Except Err Unit) (w : World) :
    Staged ThawKey w (clearThawTx height written w).1 := by
  unfold clearThawTx
  split
  · exact .refl w
  split
  · exact .refl w
  split
  · exact .refl w
  rename_i value _
  have h := clearThawRows_staged height written 0 value.nodeDetail w
  split <;> rename_i hc <;> rw [hc] at h
  · exact h
  · exact .write _ (.put _ _ (.inr rfl) h)

/-! ## A successful write commits the whole batch -/

/-- The committed table is `t₀` with a prefix of the batch applied. -/
def Committed (t₀ : ConfirmedTable) (w : World) : Prop :=
  ∃ n, w.table = t₀.commit (w.batch.take n)

/-- A fresh batch: the table it starts on is committed with nothing. -/
theorem committed_of_batch_nil {w : World} (h : w.batch = []) : Committed w.table w :=
  ⟨0, by simp [h]⟩

namespace Committed

variable {t₀ : ConfirmedTable} {w : World}

/-- A put leaves the committed prefix where it was. -/
theorem put (h : Committed t₀ w) (k : Key) (r : Row) : Committed t₀ (w.put k r) := by
  obtain ⟨n, hn⟩ := h
  by_cases hle : n ≤ w.batch.length
  · exact ⟨n, by simp [hn, List.take_append_of_le_length hle]⟩
  · refine ⟨w.batch.length, ?_⟩
    rw [List.take_of_length_le (by omega)] at hn
    simp [hn]

/-- **A write commits every staged put.**  Whatever call issues it, a
successful `Write` leaves `t₀` with the whole batch applied. -/
theorem write_ok (h : Committed t₀ w) : (w.write (.ok ())).table = t₀.commit w.batch := by
  obtain ⟨n, hn⟩ := h
  simp [World.write, hn, commit_take_commit]

/-- A write, failed or not, keeps the table a committed prefix. -/
theorem write (h : Committed t₀ w) (o : Except Err Unit) : Committed t₀ (w.write o) := by
  cases o with
  | error => exact h
  | ok u => exact ⟨w.batch.length, by rw [write_ok h, World.write_batch, List.take_length]⟩

end Committed

/-- `Committed` reads only the table and the batch. -/
theorem Committed.of_sameTables {t₀ : ConfirmedTable} {w w' : World} (h : w.SameTables w')
    (hc : Committed t₀ w) : Committed t₀ w' := by
  rw [Committed, h.table, h.batch]; exact hc

/-- Any sequence of puts and writes keeps the table a committed prefix. -/
theorem Staged.committed {keys : Key → Prop} {t₀ : ConfirmedTable} {w₁ w₂ : World}
    (h : Staged keys w₁ w₂) (h₁ : Committed t₀ w₁) : Committed t₀ w₂ := by
  induction h with
  | refl => exact h₁
  | put k r _ _ ih => exact ih.put k r
  | write o _ ih => exact ih.write o

/-! ## The term row once a new cycle is reported -/

/-- The committed `tdpos_term` row and the last staged one both record
term `t`. -/
def TermPinned (t : Int) (w : World) : Prop :=
  (∃ tt : TermTable, w.table .term = some (Message.encode tt) ∧ tt.trem = t) ∧
    ∃ tt : TermTable, lastPut .term w.batch = some (Message.encode tt) ∧ tt.trem = t

/-- Puts on other keys and writes keep the term pinned. -/
theorem Staged.termPinned {keys : Key → Prop} {t : Int} {w₁ w₂ : World}
    (hk : ¬ keys .term) (h : Staged keys w₁ w₂) (h₁ : TermPinned t w₁) : TermPinned t w₂ := by
  induction h with
  | refl => exact h₁
  | put k r hk' _ ih =>
    have hne : k ≠ .term := fun e => hk (e ▸ hk')
    simpa [TermPinned, lastPut_append_singleton, hne] using ih
  | write o _ ih =>
    obtain ⟨hc, tt, hl, ht⟩ := ih
    cases o with
    | error => exact ⟨hc, tt, hl, ht⟩
    | ok u => exact ⟨⟨tt, by simp [World.write, commit_apply, hl], ht⟩, tt, by simpa using hl, ht⟩

/-- `TermPinned` reads only the table and the batch. -/
theorem TermPinned.of_sameTables {t : Int} {w w' : World} (h : w.SameTables w')
    (hp : TermPinned t w) : TermPinned t w' := by
  rw [TermPinned, h.table, h.batch]; exact hp

/-- Staging a row of term `t` pins `t`, when the write succeeds or the
committed row already records `t`. -/
theorem putTermTable_pinned {t : Int} {tt : TermTable} {o : Except Err Unit} {w : World}
    (ht : tt.trem = t)
    (h : o = .ok () ∨ ∃ tt' : TermTable, w.table .term = some (Message.encode tt') ∧ tt'.trem = t) :
    TermPinned t (putTermTable tt o w).1 := by
  refine ⟨?_, tt, by simp [putTermTable, lastPut_append_singleton], ht⟩
  rcases h with rfl | hc
  · exact ⟨tt, commit_append_singleton _ _ _ _, ht⟩
  · cases o
    · exact hc
    · exact ⟨tt, commit_append_singleton _ _ _ _, ht⟩

/-- `ReadTermTable` answers `true` exactly when the committed row decodes
to another term than the one it observes and its own write succeeds. -/
theorem readTermTable_true_iff (t : Int) (o : Except Err Unit) (w : World) :
    (readTermTable (.ok t) o w).2 = .ok true ↔
      (∃ old : TermTable, (w.table .term).bind Message.decode = some old ∧ old.trem ≠ t) ∧
        o = .ok () := by
  rw [readTermTable_eq]
  split
  · rename_i r hd
    refine ⟨fun e => ?_, ?_⟩
    · have e : r = .ok true := e
      exact (termDecision_ne_skip_true _ _ (e ▸ hd)).elim
    rintro ⟨⟨old, hold, hne⟩, -⟩
    unfold termDecision at hd
    cases hrow : w.table .term with
    | none => simp [hrow] at hold
    | some buf =>
      simp only [hrow, Option.some_bind] at hold hd
      simp [hold, hne] at hd
  · rename_i tt hd
    obtain ⟨cur, hcur, -, hnew⟩ := termDecision_stage hd
    cases hcur
    unfold putTermTable
    cases o <;> simp [← hnew]

/-- A `ReadTermTable` call that answers `true` pins the term it observed. -/
theorem readTermTable_true_pinned {t : Int} {o : Except Err Unit} {w : World}
    (h : (readTermTable (.ok t) o w).2 = .ok true) : TermPinned t (readTermTable (.ok t) o w).1 := by
  have ho := ((readTermTable_true_iff t o w).1 h).2
  rw [readTermTable_eq] at h ⊢
  split at h
  · rename_i r hd
    have h : r = .ok true := h
    exact absurd (h ▸ hd) (termDecision_ne_skip_true _ _)
  · rename_i tt hd
    obtain ⟨cur, hcur, htrem, -⟩ := termDecision_stage hd
    cases hcur
    exact putTermTable_pinned htrem (.inl ho)

/-- Once the term is pinned, a `ReadTermTable` call that observes it
answers `false` or an error, and the term stays pinned. -/
theorem readTermTable_pinned {t : Int} {o : Except Err Unit} {w : World} (h : TermPinned t w) :
    (readTermTable (.ok t) o w).2 ≠ .ok true ∧ TermPinned t (readTermTable (.ok t) o w).1 := by
  obtain ⟨⟨old, hold, hot⟩, hl⟩ := h
  refine ⟨fun e => ?_, ?_⟩
  · obtain ⟨old', hd, hne⟩ := ((readTermTable_true_iff t o w).1 e).1
    simp [hold] at hd
    exact hne (hd ▸ hot)
  · rw [readTermTable_eq]
    split
    · exact ⟨⟨old, hold, hot⟩, hl⟩
    · rename_i tt hd
      obtain ⟨cur, hcur, htrem, -⟩ := termDecision_stage hd
      cases hcur
      exact putTermTable_pinned htrem (.inr ⟨old, hold, hot⟩)

end XuperMiner