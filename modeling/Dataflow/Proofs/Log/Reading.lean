import Dataflow.Log.Writing
import Dataflow.Proofs.Frame.Survey

/-!
# What reading a log leaves alone

A look-up may shuffle the index and count, and it reads the store. It touches nothing else, whatever
it answers and whatever the store holds.

* `Log.Undisturbed`: the log has only been read.
* `Log.lookup_undisturbed`, `Log.contains_undisturbed`: look-ups and questions for membership.
* `Log.permit_undisturbed`: the question before a write.
-/

namespace Dataflow.Log

variable {σ : Type} {P : σ → Prop} {log log' log'' : Log σ}

/-- A log from which only something was read. A property of the store that reads keep is kept. -/
structure Undisturbed (P : σ → Prop) (log log' : Log σ) : Prop where
  store : P log.store → P log'.store
  settings_eq : log'.settings = log.settings
  sequence_eq : log'.nextSequence = log.nextSequence
  unflushed_eq : log'.unflushedRecords = log.unflushedRecords
  poisoned_eq : log'.poisoned = log.poisoned

theorem Undisturbed.refl (log : Log σ) : Undisturbed P log log := ⟨id, rfl, rfl, rfl, rfl⟩

theorem Undisturbed.trans (h : Undisturbed P log log') (h' : Undisturbed P log' log'') :
    Undisturbed P log log'' where
  store := h'.store ∘ h.store
  settings_eq := h'.settings_eq.trans h.settings_eq
  sequence_eq := h'.sequence_eq.trans h.sequence_eq
  unflushed_eq := h'.unflushed_eq.trans h.unflushed_eq
  poisoned_eq := h'.poisoned_eq.trans h.poisoned_eq

variable [Store σ]

theorem scan_undisturbed (hP : Store.ReadsKeep P) (log : Log σ) (key : Bytes) :
    Undisturbed P log (log.scan key).2 := by
  rcases hsurvey : Frame.survey log.store with ⟨⟨frames, stop⟩, s⟩
  have hs : P log.store → P s := fun h => Frame.surveyFrom_keeps hP h hsurvey
  unfold scan
  rw [hsurvey]
  cases stop <;> exact ⟨hs, rfl, rfl, rfl, rfl⟩

theorem find_undisturbed (hP : Store.ReadsKeep P) (log : Log σ) (key : Bytes) :
    Undisturbed P log (log.find key).2 := by
  unfold find
  split
  · exact ⟨id, rfl, rfl, rfl, rfl⟩
  · split
    · have hcounted : Undisturbed P log { log with scans := log.scans + 1 } :=
        ⟨id, rfl, rfl, rfl, rfl⟩
      exact hcounted.trans (scan_undisturbed hP _ key)
    · exact .refl log

theorem valueAt_undisturbed (hP : Store.ReadsKeep P) (log : Log σ) (extent : Extent) :
    Undisturbed P log (log.valueAt extent).2 := by
  rcases hread : Frame.read log.store extent.offset (extent.offset + extent.length) with
    ⟨result, s⟩
  have hs : P log.store → P s := fun h => Frame.read_keeps hP h hread
  unfold valueAt
  rw [hread]
  cases result <;> exact ⟨hs, rfl, rfl, rfl, rfl⟩

theorem lookup_undisturbed (hP : Store.ReadsKeep P) (log : Log σ) (key : Bytes) :
    Undisturbed P log (log.lookup key).2 := by
  have hcounted : Undisturbed P log { log with lookups := log.lookups + 1 } :=
    ⟨id, rfl, rfl, rfl, rfl⟩
  have hfind := hcounted.trans (find_undisturbed hP _ key)
  unfold lookup
  dsimp only
  split
  · exact hcounted
  · split
    · rename_i hresult
      rw [hresult] at hfind
      exact hfind
    · rename_i hresult
      rw [hresult] at hfind
      exact hfind
    · rename_i extent log₁ hresult
      rw [hresult] at hfind
      have hvalue := hfind.trans (valueAt_undisturbed hP log₁ extent)
      split
      · rename_i hread
        rw [hread] at hvalue
        exact hvalue
      · rename_i hread
        rw [hread] at hvalue
        split
        · exact hvalue
        · exact hvalue.trans ⟨id, rfl, rfl, rfl, rfl⟩

theorem contains_undisturbed (hP : Store.ReadsKeep P) (log : Log σ) (key : Bytes) :
    Undisturbed P log (log.contains key).2 := by
  have hfind := find_undisturbed hP log key
  unfold contains
  split
  · exact .refl log
  · split <;> rename_i hresult <;> rw [hresult] at hfind <;> exact hfind

theorem hasKey_undisturbed (hP : Store.ReadsKeep P) (log : Log σ) (key : Bytes) :
    Undisturbed P log (log.hasKey key).2 := by
  have hscan := scan_undisturbed hP log key
  unfold hasKey
  split
  · exact .refl log
  · split
    · split <;> rename_i hresult <;> rw [hresult] at hscan <;> exact hscan
    · exact .refl log

/-- Asking whether a write is permitted only reads. -/
theorem permit_undisturbed (hP : Store.ReadsKeep P) (log : Log σ) (key : Bytes)
    (allowReplace : Bool) : Undisturbed P log (log.permit key allowReplace).2 := by
  have hhasKey := hasKey_undisturbed hP log key
  unfold permit
  split
  · exact .refl log
  · split <;> rename_i hresult <;> rw [hresult] at hhasKey <;> exact hhasKey

end Dataflow.Log
