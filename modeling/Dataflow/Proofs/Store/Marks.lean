import Dataflow.Proofs.Frame.Survey

/-!
# Marks on record boundaries

A store in memory remembers how far it was flushed and how far it was synced. While it is used for
a log, both marks lie between two records, so that a crash and a loss of power leave whole records.

* `MemoryStore.Marks`: the records in the store, and how many lie before either mark.
* `MemoryStore.Marks.append`, `flush`, `sync`, `truncate`: what the calls do to them.
* `MemoryStore.Marks.crash`, `MemoryStore.Marks.powerLoss`: what is left.
-/

namespace Dataflow.MemoryStore

open Record

/-- The store holds some records; a crash would leave the first `flushed` of them, and a loss of
power the first `synced`. -/
structure Marks (s : MemoryStore) (rs : List Record) (flushed synced : Nat) : Prop where
  data : s.data.toBytes = logBytes rs
  flushed_eq : s.flushed = (logBytes (rs.take flushed)).length
  synced_eq : s.synced = (logBytes (rs.take synced)).length
  synced_le : synced ≤ flushed
  flushed_le : flushed ≤ rs.length

variable {s : MemoryStore} {rs : List Record} {flushed synced : Nat}

theorem marks_ofImage {data : Image} (h : data.toBytes = logBytes rs) :
    (ofImage data).Marks rs rs.length rs.length := by
  have hsize : data.size = (logBytes (rs.take rs.length)).length := by
    rw [List.take_length, ← h, Image.length_toBytes]
  exact ⟨h, hsize, hsize, Nat.le_refl _, Nat.le_refl _⟩

/-- The first records lie at the front of the bytes. -/
theorem take_logBytes (rs : List Record) (n : Nat) :
    (logBytes rs).take (logBytes (rs.take n)).length = logBytes (rs.take n) :=
  (List.prefix_iff_eq_take.mp (logBytes_of_isPrefix (List.take_prefix n rs))).symm

theorem Marks.size_eq (h : s.Marks rs flushed synced) : s.data.size = (logBytes rs).length := by
  rw [← h.data, Image.length_toBytes]

theorem Marks.synced_le_length (h : s.Marks rs flushed synced) : synced ≤ rs.length :=
  Nat.le_trans h.synced_le h.flushed_le

theorem Marks.append (h : s.Marks rs flushed synced) (r : Record) :
    (s.append r.frame).Marks (rs ++ [r]) flushed synced where
  data := by
    change (s.data.append r.frame).toBytes = _
    rw [Image.toBytes_append, h.data]
    simp
  flushed_eq := by
    rw [List.take_append_of_le_length h.flushed_le]
    exact h.flushed_eq
  synced_eq := by
    rw [List.take_append_of_le_length h.synced_le_length]
    exact h.synced_eq
  synced_le := h.synced_le
  flushed_le := by
    rw [List.length_append]
    exact Nat.le_add_right_of_le h.flushed_le

/-- A flush moves its mark behind all records, or fails and moves nothing. -/
theorem Marks.flush (h : s.Marks rs flushed synced) {result : Except IoError Unit}
    {s' : MemoryStore} (hflush : s.flush = (result, s')) :
    (result = .ok () ∧ s'.Marks rs rs.length synced) ∨
      ((∃ e, result = .error e) ∧ s'.Marks rs flushed synced) := by
  unfold MemoryStore.flush at hflush
  split at hflush
  · cases hflush
    exact Or.inr ⟨⟨_, rfl⟩, h⟩
  · cases hflush
    refine Or.inl ⟨rfl, h.data, ?_, h.synced_eq, h.synced_le_length, Nat.le_refl _⟩
    rw [List.take_length]
    exact h.size_eq

/-- A sync moves both marks behind all records. One that fails may have moved the mark of a
flush. -/
theorem Marks.sync (h : s.Marks rs flushed synced) {result : Except IoError Unit}
    {s' : MemoryStore} (hsync : s.sync = (result, s')) :
    (result = .ok () ∧ s'.Marks rs rs.length rs.length) ∨
      ((∃ e, result = .error e) ∧ ∃ flushed' ≥ flushed, s'.Marks rs flushed' synced) := by
  rcases hflush : s.flush with ⟨result₁, s₁⟩
  unfold MemoryStore.sync at hsync
  rw [hflush] at hsync
  rcases h.flush hflush with ⟨rfl, h₁⟩ | ⟨⟨e, rfl⟩, h₁⟩
  · dsimp only at hsync
    split at hsync
    · cases hsync
      exact Or.inr ⟨⟨_, rfl⟩, rs.length, h.flushed_le, h₁⟩
    · cases hsync
      have hsize : s₁.data.size = (logBytes (rs.take rs.length)).length := by
        rw [List.take_length]
        exact h₁.size_eq
      exact Or.inl ⟨rfl, h₁.data, hsize, hsize, Nat.le_refl _, Nat.le_refl _⟩
  · cases hsync
    exact Or.inr ⟨⟨e, rfl⟩, flushed, Nat.le_refl _, h₁⟩

/-- A mark behind a record that is cut off moves to the end of those that are left. -/
theorem min_length_take (rs : List Record) (r : Record) (n : Nat) :
    min (logBytes ((rs ++ [r]).take n)).length (logBytes rs).length =
      (logBytes (rs.take (min n rs.length))).length := by
  rcases Nat.lt_or_ge rs.length n with hn | hn
  · rw [List.take_of_length_le (by simp; omega), Nat.min_eq_right (Nat.le_of_lt hn), List.take_length,
      logBytes_append, List.length_append]
    exact Nat.min_eq_right (Nat.le_add_right _ _)
  · rw [List.take_append_of_le_length hn, Nat.min_eq_left hn]
    exact Nat.min_eq_left (logBytes_of_isPrefix (List.take_prefix n rs)).length_le

theorem Marks.truncate {r : Record} (h : s.Marks (rs ++ [r]) flushed synced) :
    (s.truncate (logBytes rs).length).Marks rs (min flushed rs.length) (min synced rs.length) where
  data := by
    change (s.data.take _).toBytes = _
    rw [Image.toBytes_take, h.data, logBytes_append, List.take_left]
  flushed_eq := by
    rw [← min_length_take rs r, ← h.flushed_eq]
    rfl
  synced_eq := by
    rw [← min_length_take rs r, ← h.synced_eq]
    rfl
  synced_le := by
    have hle := h.synced_le
    omega
  flushed_le := Nat.min_le_right _ _

theorem Marks.crash (h : s.Marks rs flushed synced) :
    s.crash.Marks (rs.take flushed) flushed flushed := by
  have hdata : (s.data.take s.flushed).toBytes = logBytes (rs.take flushed) := by
    rw [Image.toBytes_take, h.data, h.flushed_eq, take_logBytes]
  have hmarks := marks_ofImage hdata
  rw [List.length_take, Nat.min_eq_left h.flushed_le] at hmarks
  exact hmarks

theorem Marks.powerLoss (h : s.Marks rs flushed synced) :
    s.powerLoss.Marks (rs.take synced) synced synced := by
  have hdata : (s.data.take s.synced).toBytes = logBytes (rs.take synced) := by
    rw [Image.toBytes_take, h.data, h.synced_eq, take_logBytes]
  have hmarks := marks_ofImage hdata
  rw [List.length_take, Nat.min_eq_left h.synced_le_length] at hmarks
  exact hmarks

end Dataflow.MemoryStore
