import Dataflow.Store.Faulty
import Dataflow.Store.Memory

/-!
# What a log relies on in a store

A store stands for a byte string: all bytes that were appended and not cut off. `Holds s b` says
that the store `s` is in order and stands for `b`. Which states are in order is up to the store;
the laws say that every call keeps to them.

* `Store.ReadLaws`, `Store.Laws`: a call that succeeds does what it says, and one that fails
  changes nothing. Any call may fail.
* `Store.Readable`, `Store.Reliable`: besides, reads within the byte string succeed, and so do
  truncations; an append that fails reports an error.
* `MemoryStore.reliable`, `FaultyStore.reliable`: two stores that keep the laws.
-/

namespace Dataflow

namespace Store

variable {σ : Type} [Store σ]

/-- Reads keep a property of the store. -/
def ReadsKeep (P : σ → Prop) : Prop :=
  ∀ ⦃s s' : σ⦄ ⦃offset length : Nat⦄ ⦃result : Except IoError Bytes⦄,
    P s → readAt s offset length = (result, s') → P s'

/-- Reads are true, if they succeed, and change nothing. -/
structure ReadLaws (Holds : σ → Bytes → Prop) : Prop where
  size_eq {s : σ} {b : Bytes} : Holds s b → size s = b.length
  readAt_keeps (b : Bytes) : ReadsKeep fun s => Holds s b
  readAt_ok {s s' : σ} {b data : Bytes} {offset length : Nat} :
    Holds s b → readAt s offset length = (.ok data, s') →
      offset + length ≤ b.length ∧ data = b.slice offset length

/-- Besides, reads within the byte string succeed. -/
structure Readable (Holds : σ → Bytes → Prop) : Prop extends ReadLaws Holds where
  readAt_reliable {s : σ} {b : Bytes} {offset length : Nat} :
    Holds s b → offset + length ≤ b.length → ∃ data s', readAt s offset length = (.ok data, s')

/-- The calls of a store keep to a byte string, whether or not they succeed. -/
structure Laws (Holds : σ → Bytes → Prop) : Prop extends ReadLaws Holds where
  append_ok {s s' : σ} {b data : Bytes} {offset : Nat} :
    Holds s b → append s data = (.ok offset, s') → offset = b.length ∧ Holds s' (b ++ data)
  append_error {s s' : σ} {b data : Bytes} {e : Failure IoError} :
    Holds s b → append s data = (.error e, s') → Holds s' b
  flush_keeps {s s' : σ} {b : Bytes} {result : Except IoError Unit} :
    Holds s b → flush s = (result, s') → Holds s' b
  sync_keeps {s s' : σ} {b : Bytes} {result : Except IoError Unit} :
    Holds s b → sync s = (result, s') → Holds s' b
  truncate_ok {s s' : σ} {b : Bytes} {length : Nat} :
    Holds s b → truncate s length = (.ok (), s') → Holds s' (b.take length)
  truncate_error {s s' : σ} {b : Bytes} {length : Nat} {e : IoError} :
    Holds s b → truncate s length = (.error e, s') → Holds s' b

/-- An append, a flush or a sync of a store that is in order may report this failure. -/
def Fails (Holds : σ → Bytes → Prop) (e : IoError) : Prop :=
  ∃ s b, Holds s b ∧ ((∃ data, (append s data).1 = .error (.reported e)) ∨
    (flush s).1 = .error e ∨ (sync s).1 = .error e)

/-- Reads and truncations succeed, and appends are not broken off. -/
structure Reliable (Holds : σ → Bytes → Prop) : Prop extends Laws Holds, Readable Holds where
  truncate_reliable {s : σ} {b : Bytes} :
    Holds s b → ∀ length, ∃ s', truncate s length = (.ok (), s')
  append_reports {s s' : σ} {b data : Bytes} :
    Holds s b → append s data ≠ (.error .brokenOff, s')

theorem Readable.readAt_eq {Holds : σ → Bytes → Prop} (readable : Readable Holds) {s : σ}
    {b : Bytes} (hs : Holds s b) (offset length : Nat) (hrange : offset + length ≤ b.length) :
    ∃ s', Store.readAt s offset length = (.ok (b.slice offset length), s') ∧ Holds s' b := by
  obtain ⟨data, s', hread⟩ := readable.readAt_reliable hs hrange
  obtain ⟨-, rfl⟩ := readable.readAt_ok hs hread
  exact ⟨s', hread, readable.readAt_keeps b hs hread⟩

/-- What reads keep may be asked of a store besides. -/
theorem Readable.and {Holds : σ → Bytes → Prop} (readable : Readable Holds) {P : σ → Prop}
    (hP : ReadsKeep P) : Readable fun s b => P s ∧ Holds s b where
  size_eq h := readable.size_eq h.2
  readAt_keeps b _ _ _ _ _ h hread := ⟨hP h.1 hread, readable.readAt_keeps b h.2 hread⟩
  readAt_ok h hread := readable.readAt_ok h.2 hread
  readAt_reliable h hrange := readable.readAt_reliable h.2 hrange

end Store

/-! ## The store in memory -/

namespace MemoryStore

/-- The store holds a byte string. -/
def Holds (s : MemoryStore) (b : Bytes) : Prop := s.data.toBytes = b

theorem reliable : Store.Reliable Holds where
  size_eq := by
    rintro s b rfl
    exact (Image.length_toBytes _).symm
  append_ok := by
    rintro s s' b data offset rfl h
    cases h
    exact ⟨(Image.length_toBytes _).symm, Image.toBytes_append _ _⟩
  append_error := by
    rintro s s' b data e rfl h
    cases h
  flush_keeps := by
    rintro s s' b result rfl h
    change s.flush = _ at h
    unfold flush at h
    split at h <;> cases h <;> rfl
  sync_keeps := by
    rintro s s' b result rfl h
    change s.sync = _ at h
    unfold sync flush at h
    split at h
    · rename_i hflush
      split at hflush <;> cases hflush
      cases h
      rfl
    · rename_i hflush
      split at hflush <;> cases hflush
      split at h <;> cases h <;> rfl
  readAt_keeps := by
    rintro b s s' offset length result rfl h
    cases h
    rfl
  readAt_ok := by
    rintro s s' b data offset length rfl h
    simp only [Store.readAt, readAt, Prod.mk.injEq] at h
    obtain ⟨h, rfl⟩ := h
    split at h
    · rename_i hrange
      cases h
      rw [Image.length_toBytes]
      exact ⟨hrange, Image.slice_eq _ _ _⟩
    · cases h
  truncate_ok := by
    rintro s s' b length rfl h
    cases h
    exact Image.toBytes_take _ _
  truncate_error := by
    rintro s s' b length e rfl h
    cases h
  readAt_reliable := by
    rintro s b offset length rfl hrange
    rw [Image.length_toBytes] at hrange
    exact ⟨s.data.slice offset length, s, by simp [Store.readAt, readAt, hrange]⟩
  truncate_reliable := fun _ _ => ⟨_, rfl⟩
  append_reports := by
    rintro s s' b data - h
    cases h

/-- Reads do not change a store in memory at all. -/
theorem readsKeep_eq (s₀ : MemoryStore) : Store.ReadsKeep (· = s₀) := by
  rintro s s' offset length result rfl h
  cases h
  rfl

end MemoryStore

/-! ## Stores that fail on demand -/

namespace FaultyStore

variable {σ : Type} [Store σ]

/-- Reads are true and succeed, truncations succeed, and the store around which this one lies
holds a byte string. Appends, flushes and syncs may be made to fail. -/
structure Steady (Holds : σ → Bytes → Prop) (s : FaultyStore σ) (b : Bytes) : Prop where
  inner : Holds s.inner b
  truncate : s.failTruncate = false
  read : s.failRead = false
  append : s.breakAppend = false
  rot : s.rot = []

omit [Store σ] in
theorem decayed_eq_id {s : FaultyStore σ} (h : s.rot = []) (offset : Nat) :
    s.decayed offset = id := by
  funext bytes
  simp [decayed, h]

theorem reliable {Holds : σ → Bytes → Prop} (laws : Store.Reliable Holds) :
    Store.Reliable (Steady Holds) where
  size_eq h := laws.size_eq h.inner
  append_ok := by
    intro s s' b data offset h hcall
    simp only [Store.append] at hcall
    rw [if_neg (by simp [h.append])] at hcall
    split at hcall
    · cases hcall
    · rw [Prod.mk.injEq] at hcall
      obtain ⟨hresult, rfl⟩ := hcall
      obtain ⟨hoffset, hinner⟩ := laws.append_ok h.inner (Prod.ext hresult rfl)
      exact ⟨hoffset, { h with inner := hinner }⟩
  append_error := by
    intro s s' b data e h hcall
    simp only [Store.append] at hcall
    rw [if_neg (by simp [h.append])] at hcall
    split at hcall
    · cases hcall
      exact h
    · rw [Prod.mk.injEq] at hcall
      obtain ⟨hresult, rfl⟩ := hcall
      exact { h with inner := laws.append_error h.inner (Prod.ext hresult rfl) }
  flush_keeps := by
    intro s s' b result h hcall
    cases hcall
    exact { h with inner := laws.flush_keeps h.inner rfl }
  sync_keeps := by
    intro s s' b result h hcall
    cases hcall
    exact { h with inner := laws.sync_keeps h.inner rfl }
  readAt_keeps := by
    intro b s s' offset length result h hcall
    simp only [Store.readAt] at hcall
    rw [if_neg (by simp [h.read])] at hcall
    cases hcall
    exact { h with inner := laws.readAt_keeps b h.inner rfl }
  readAt_ok := by
    intro s s' b data offset length h hcall
    simp only [Store.readAt] at hcall
    rw [if_neg (by simp [h.read]), decayed_eq_id h.rot, Except.map_id, Prod.mk.injEq] at hcall
    exact laws.readAt_ok h.inner (Prod.ext hcall.1 rfl)
  truncate_ok := by
    intro s s' b length h hcall
    simp only [Store.truncate] at hcall
    rw [if_neg (by simp [h.truncate]), Prod.mk.injEq] at hcall
    obtain ⟨hresult, rfl⟩ := hcall
    exact { h with inner := laws.truncate_ok h.inner (Prod.ext hresult rfl) }
  truncate_error := by
    intro s s' b length e h hcall
    simp only [Store.truncate] at hcall
    rw [if_neg (by simp [h.truncate]), Prod.mk.injEq] at hcall
    obtain ⟨hresult, rfl⟩ := hcall
    exact { h with inner := laws.truncate_error h.inner (Prod.ext hresult rfl) }
  readAt_reliable := by
    intro s b offset length h hrange
    obtain ⟨data, inner, hread⟩ := laws.readAt_reliable h.inner hrange
    refine ⟨s.decayed offset data, { s with inner := inner }, ?_⟩
    simp only [Store.readAt, hread]
    rw [if_neg (by simp [h.read])]
    rfl
  truncate_reliable := by
    intro s b h length
    obtain ⟨inner, htruncate⟩ := laws.truncate_reliable h.inner length
    refine ⟨{ s with inner := inner }, ?_⟩
    simp only [Store.truncate, htruncate]
    rw [if_neg (by simp [h.truncate])]
  append_reports := by
    intro s s' b data h hcall
    simp only [Store.append] at hcall
    rw [if_neg (by simp [h.append])] at hcall
    split at hcall
    · cases hcall
    · rw [Prod.mk.injEq] at hcall
      exact laws.append_reports h.inner (Prod.ext hcall.1 rfl)

end FaultyStore

end Dataflow
