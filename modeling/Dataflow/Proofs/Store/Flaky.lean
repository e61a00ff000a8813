import Dataflow.Proofs.Store.Laws

/-!
# Stores with a pattern of failures

A store around another one, of whose reads and truncations any may fail. Which ones is laid down
call by call in advance, so that a statement about all such stores is one about all patterns of
failing calls.

* `FlakyStore`: the store; `FlakyStore.HasFailed` says that one of its calls has failed.
* `FlakyStore.readLaws`, `FlakyStore.laws`: it keeps the laws of a store.
* `FlakyStore.readAt_leads`, `FlakyStore.truncate_leads`: a call reports a failure if and only if the
  store counts one.
-/

namespace Dataflow

/-- A store some of whose reads and truncations fail. A call that fails does nothing else. -/
structure FlakyStore (σ : Type) where
  inner : σ
  /-- The failure of each read or truncation, by the number of such calls before it. -/
  failure : Nat → Option IoError
  /-- How many reads and truncations there were. -/
  calls : Nat := 0

namespace FlakyStore

variable {σ : Type}

/-- The store after one more call, which left the inner store in the given state. -/
def count (s : FlakyStore σ) (inner : σ) : FlakyStore σ :=
  { s with inner := inner, calls := s.calls + 1 }

/-- A call has failed. -/
def HasFailed (s : FlakyStore σ) : Prop := ∃ n < s.calls, (s.failure n).isSome

instance [Store σ] : Store (FlakyStore σ) where
  size s := Store.size s.inner
  append s bytes :=
    let (result, inner) := Store.append s.inner bytes
    (result, { s with inner := inner })
  flush s :=
    let (result, inner) := Store.flush s.inner
    (result, { s with inner := inner })
  sync s :=
    let (result, inner) := Store.sync s.inner
    (result, { s with inner := inner })
  readAt s offset length :=
    match s.failure s.calls with
    | some e => (.error e, s.count s.inner)
    | none =>
      let (result, inner) := Store.readAt s.inner offset length
      (result, s.count inner)
  truncate s size :=
    match s.failure s.calls with
    | some e => (.error e, s.count s.inner)
    | none =>
      let (result, inner) := Store.truncate s.inner size
      (result, s.count inner)

theorem hasFailed_count (s : FlakyStore σ) (inner : σ) :
    (s.count inner).HasFailed ↔ s.HasFailed ∨ (s.failure s.calls).isSome := by
  constructor
  · rintro ⟨n, hn, hfailure⟩
    by_cases hlast : n = s.calls
    · exact Or.inr (hlast ▸ hfailure)
    · have hlt : n < s.calls + 1 := hn
      exact Or.inl ⟨n, by omega, hfailure⟩
  · rintro (⟨n, hn, hfailure⟩ | hfailure)
    · exact ⟨n, Nat.lt_succ_of_lt hn, hfailure⟩
    · exact ⟨s.calls, Nat.lt_succ_self _, hfailure⟩

/-- The store holds a byte string if the inner one does, whatever is going to fail. -/
def Holds (Inner : σ → Bytes → Prop) (s : FlakyStore σ) (b : Bytes) : Prop := Inner s.inner b

variable [Store σ] {Inner : σ → Bytes → Prop} {s s' : FlakyStore σ}

theorem readAt_cases {offset length : Nat} {result : Except IoError Bytes}
    (h : Store.readAt s offset length = (result, s')) :
    (∃ e, s.failure s.calls = some e ∧ result = .error e ∧ s' = s.count s.inner) ∨
      ∃ inner, s.failure s.calls = none ∧ Store.readAt s.inner offset length = (result, inner) ∧
        s' = s.count inner := by
  simp only [Store.readAt] at h
  split at h
  · rename_i e hfailure
    cases h
    exact Or.inl ⟨e, hfailure, rfl, rfl⟩
  · rename_i hfailure
    cases h
    exact Or.inr ⟨_, hfailure, rfl, rfl⟩

theorem readAt_leads (inner : Store.Readable Inner) {image : Bytes} {offset length : Nat}
    {result : Except IoError Bytes} (hs : Inner s.inner image) (hclean : ¬ s.HasFailed)
    (hrange : offset + length ≤ image.length)
    (h : Store.readAt s offset length = (result, s')) :
    Inner s'.inner image ∧ (s'.HasFailed ↔ ∃ e, result = .error e) := by
  rcases readAt_cases h with ⟨e, hfailure, rfl, rfl⟩ | ⟨t, hfailure, hread, rfl⟩
  · refine ⟨hs, ?_⟩
    simp [hasFailed_count, hfailure]
  · refine ⟨inner.readAt_keeps image hs hread, ?_⟩
    obtain ⟨data, t', hok⟩ := inner.readAt_reliable hs hrange
    rw [hread, Prod.mk.injEq] at hok
    simp [hasFailed_count, hfailure, hclean, hok.1]

theorem truncate_cases {size : Nat} {result : Except IoError Unit}
    (h : Store.truncate s size = (result, s')) :
    (∃ e, s.failure s.calls = some e ∧ result = .error e ∧ s' = s.count s.inner) ∨
      ∃ inner, s.failure s.calls = none ∧ Store.truncate s.inner size = (result, inner) ∧
        s' = s.count inner := by
  simp only [Store.truncate] at h
  split at h
  · rename_i e hfailure
    cases h
    exact Or.inl ⟨e, hfailure, rfl, rfl⟩
  · rename_i hfailure
    cases h
    exact Or.inr ⟨_, hfailure, rfl, rfl⟩

theorem truncate_leads (inner : Store.Reliable Inner) {image : Bytes} {size : Nat}
    {result : Except IoError Unit} (hs : Inner s.inner image) (hclean : ¬ s.HasFailed)
    (h : Store.truncate s size = (result, s')) : s'.HasFailed ↔ ∃ e, result = .error e := by
  rcases truncate_cases h with ⟨e, hfailure, rfl, rfl⟩ | ⟨t, hfailure, htruncate, rfl⟩
  · simp [hasFailed_count, hfailure]
  · obtain ⟨t', hok⟩ := inner.truncate_reliable hs size
    rw [htruncate, Prod.mk.injEq] at hok
    simp [hasFailed_count, hfailure, hclean, hok.1]

theorem readLaws (inner : Store.ReadLaws Inner) : Store.ReadLaws (Holds Inner) where
  size_eq h := inner.size_eq h
  readAt_keeps := by
    intro b s s' offset length result hs hcall
    rcases readAt_cases hcall with ⟨e, -, -, rfl⟩ | ⟨t, -, hread, rfl⟩
    · exact hs
    · exact inner.readAt_keeps b hs hread
  readAt_ok := by
    intro s s' b data offset length hs hcall
    rcases readAt_cases hcall with ⟨e, -, hresult, -⟩ | ⟨t, -, hread, -⟩
    · cases hresult
    · exact inner.readAt_ok hs hread

theorem laws (inner : Store.Laws Inner) : Store.Laws (Holds Inner) where
  toReadLaws := readLaws inner.toReadLaws
  append_ok := by
    intro s s' b data offset hs hcall
    simp only [Store.append, Prod.mk.injEq] at hcall
    obtain ⟨hresult, rfl⟩ := hcall
    exact inner.append_ok hs (Prod.ext hresult rfl)
  append_error := by
    intro s s' b data e hs hcall
    simp only [Store.append, Prod.mk.injEq] at hcall
    obtain ⟨hresult, rfl⟩ := hcall
    exact inner.append_error hs (Prod.ext hresult rfl)
  flush_keeps := by
    intro s s' b result hs hcall
    cases hcall
    exact inner.flush_keeps hs rfl
  sync_keeps := by
    intro s s' b result hs hcall
    cases hcall
    exact inner.sync_keeps hs rfl
  truncate_ok := by
    intro s s' b size hs hcall
    rcases truncate_cases hcall with ⟨e, -, hresult, -⟩ | ⟨t, -, htruncate, rfl⟩
    · cases hresult
    · exact inner.truncate_ok hs htruncate
  truncate_error := by
    intro s s' b size e hs hcall
    rcases truncate_cases hcall with ⟨e, -, -, rfl⟩ | ⟨t, -, htruncate, rfl⟩
    · exact hs
    · exact inner.truncate_error hs htruncate

end FlakyStore

end Dataflow
