import Dataflow.Proofs.Store.Laws

/-!
# What outlives a loss

A crash of the process or a loss of power leaves some first part of the bytes of a store. Bytes
from the front are secured if no such loss can take them; a sync secures all bytes, and only a
truncation may give a secured byte up.

* `Store.SecureLaws`: how secured bytes come about and go.
* `Store.CrashLaws`: besides, a flush secures bytes against a crash.
* `Store.Spared`: a loss spares the bytes that are secured.
* `MemoryStore.IsMark`, `MemoryStore.secureLaws`: the marks of a store in memory obey the laws.
* `ErraticStore`: a store of which any append, flush, sync and truncation may fail.
-/

namespace Dataflow

namespace Store

variable {σ : Type} [Store σ]

/-- `Secure s p` says that the bytes `p`, with which the bytes of the store `s` start, are secured.
Calls keep what is secured, also when they fail, and may secure more. -/
structure SecureLaws (Holds Secure : σ → Bytes → Prop) : Prop extends Laws Holds where
  append_secure {s s' : σ} {p data : Bytes} {result : Except (Failure IoError) Nat} :
    Secure s p → append s data = (result, s') → Secure s' p
  flush_secure {s s' : σ} {b p : Bytes} {result : Except IoError Unit} :
    Holds s b → Secure s p → p <+: b → flush s = (result, s') → Secure s' p
  sync_secure {s s' : σ} {b p : Bytes} {result : Except IoError Unit} :
    Holds s b → Secure s p → p <+: b → sync s = (result, s') → Secure s' p
  readAt_secure (p : Bytes) : ReadsKeep fun s => Secure s p
  truncate_secure {s s' : σ} {p : Bytes} {length : Nat} {result : Except IoError Unit} :
    Secure s p → p.length ≤ length → truncate s length = (result, s') → Secure s' p
  sync_secures {s s' : σ} {b : Bytes} : Holds s b → sync s = (.ok (), s') → Secure s' b

/-- A flush that succeeds secures all bytes. -/
def FlushSecures (Holds Secure : σ → Bytes → Prop) : Prop :=
  ∀ ⦃s s' : σ⦄ ⦃b : Bytes⦄, Holds s b → flush s = (.ok (), s') → Secure s' b

/-- A crash of the process leaves the bytes `crashed s`; a flush sees to it that these are all. -/
structure CrashLaws (Holds : σ → Bytes → Prop) (crashed : σ → Bytes) : Prop
    extends SecureLaws Holds (fun s p => p <+: crashed s) where
  flush_secures : FlushSecures Holds fun s p => p <+: crashed s

/-- An append may be broken off. -/
def BreaksOff (Holds : σ → Bytes → Prop) : Prop :=
  ∃ s b data s', Holds s b ∧ append s data = (.error .brokenOff, s')

theorem Reliable.not_breaksOff {Holds : σ → Bytes → Prop} (reliable : Reliable Holds) :
    ¬ BreaksOff Holds := by
  rintro ⟨s, b, data, s', hs, happend⟩
  exact reliable.append_reports hs happend

/-- A loss leaves a first part of the bytes, all that are secured among them; these stay secured. -/
def Spared (Holds Secure : σ → Bytes → Prop) (lose : σ → σ) : Prop :=
  ∀ s b, Holds s b → ∃ kept, kept <+: b ∧ Holds (lose s) kept ∧
    ∀ p, Secure s p → p <+: b → p <+: kept ∧ Secure (lose s) p

/-- A store that has become reliable secures bytes as it did before. -/
theorem SecureLaws.of_reliable {Holds Calm Secure : σ → Bytes → Prop}
    (laws : SecureLaws Holds Secure) (reliable : Reliable Calm)
    (hcalm : ∀ s b, Calm s b → Holds s b) : SecureLaws Calm Secure where
  toLaws := reliable.toLaws
  append_secure := laws.append_secure
  flush_secure hs := laws.flush_secure (hcalm _ _ hs)
  sync_secure hs := laws.sync_secure (hcalm _ _ hs)
  readAt_secure := laws.readAt_secure
  truncate_secure := laws.truncate_secure
  sync_secures hs := laws.sync_secures (hcalm _ _ hs)

end Store

/-! ## The marks of a store in memory -/

namespace MemoryStore

/-- Bytes before a mark are secured. -/
def Before (mark : MemoryStore → Nat) (s : MemoryStore) (p : Bytes) : Prop :=
  p <+: s.data.toBytes.take (mark s)

/-- What the calls do to a mark up to which a store is flushed or synced. -/
structure IsMark (mark : MemoryStore → Nat) : Prop where
  append_eq (s : MemoryStore) (data : Bytes) : mark (s.append data) = mark s
  truncate_eq (s : MemoryStore) (length : Nat) : mark (s.truncate length) = min (mark s) length
  flush_le (s : MemoryStore) : min (mark s) s.data.size ≤ mark s.flush.2
  sync_le (s : MemoryStore) : min (mark s) s.data.size ≤ mark s.sync.2
  sync_ok (s : MemoryStore) : s.sync.1 = .ok () → mark s.sync.2 = s.data.size

theorem flush_cases (s : MemoryStore) :
    s.flush = (.ok (), { s with flushed := s.data.size }) ∨ ∃ e, s.flush = (.error e, s) := by
  unfold flush
  split
  · exact .inr ⟨_, rfl⟩
  · exact .inl rfl

/-- A sync that fails may have flushed. -/
theorem sync_cases (s : MemoryStore) :
    s.sync = (.ok (), { s with flushed := s.data.size, synced := s.data.size }) ∨
      (∃ e, s.sync = (.error e, { s with flushed := s.data.size })) ∨
      ∃ e, s.sync = (.error e, s) := by
  unfold sync
  rcases s.flush_cases with hflush | ⟨e, hflush⟩
  · rw [hflush]
    dsimp only
    split
    · exact .inr (.inl ⟨_, rfl⟩)
    · exact .inl rfl
  · rw [hflush]
    exact .inr (.inr ⟨e, rfl⟩)

theorem isMark_flushed : IsMark MemoryStore.flushed where
  append_eq _ _ := rfl
  truncate_eq _ _ := rfl
  flush_le s := by
    rcases s.flush_cases with h | ⟨e, h⟩ <;> rw [h] <;> dsimp only <;> omega
  sync_le s := by
    rcases s.sync_cases with h | ⟨e, h⟩ | ⟨e, h⟩ <;> rw [h] <;> dsimp only <;> omega
  sync_ok s := by
    rcases s.sync_cases with h | ⟨e, h⟩ | ⟨e, h⟩ <;> rw [h]
    · exact fun _ => rfl
    · rintro ⟨⟩
    · rintro ⟨⟩

theorem isMark_synced : IsMark MemoryStore.synced where
  append_eq _ _ := rfl
  truncate_eq _ _ := rfl
  flush_le s := by
    rcases s.flush_cases with h | ⟨e, h⟩ <;> rw [h] <;> dsimp only <;> omega
  sync_le s := by
    rcases s.sync_cases with h | ⟨e, h⟩ | ⟨e, h⟩ <;> rw [h] <;> dsimp only <;> omega
  sync_ok s := by
    rcases s.sync_cases with h | ⟨e, h⟩ | ⟨e, h⟩ <;> rw [h]
    · exact fun _ => rfl
    · rintro ⟨⟩
    · rintro ⟨⟩

/-- The first of two marks is a mark. -/
theorem IsMark.min {mark mark' : MemoryStore → Nat} (h : IsMark mark) (h' : IsMark mark') :
    IsMark fun s => Min.min (mark s) (mark' s) where
  append_eq s data := by rw [h.append_eq, h'.append_eq]
  truncate_eq s length := by
    rw [h.truncate_eq, h'.truncate_eq]
    omega
  flush_le s := by
    have hle := h.flush_le s
    have hle' := h'.flush_le s
    omega
  sync_le s := by
    have hle := h.sync_le s
    have hle' := h'.sync_le s
    omega
  sync_ok s hok := by rw [h.sync_ok s hok, h'.sync_ok s hok, Nat.min_self]

/-- The bytes that are both flushed and synced outlive any loss. -/
def lasting (s : MemoryStore) : Nat := min s.flushed s.synced

theorem isMark_lasting : IsMark lasting := isMark_flushed.min isMark_synced

theorem data_flush (s : MemoryStore) : s.flush.2.data = s.data := by
  rcases s.flush_cases with h | ⟨e, h⟩ <;> rw [h]

theorem data_sync (s : MemoryStore) : s.sync.2.data = s.data := by
  rcases s.sync_cases with h | ⟨e, h⟩ | ⟨e, h⟩ <;> rw [h]

section

variable {mark : MemoryStore → Nat} {s s' : MemoryStore} {p : Bytes}

theorem before_iff : Before mark s p ↔ p <+: s.data.toBytes ∧ p.length ≤ mark s :=
  List.prefix_take_iff

theorem Before.length_le (h : Before mark s p) : p.length ≤ min (mark s) s.data.size := by
  obtain ⟨hstart, hle⟩ := before_iff.mp h
  have hsize := hstart.length_le
  rw [Image.length_toBytes] at hsize
  exact Nat.le_min.mpr ⟨hle, hsize⟩

/-- A mark may move on, and back as far as the end of the bytes. -/
theorem Before.mono (h : Before mark s p) (hdata : s'.data = s.data)
    (hmark : min (mark s) s.data.size ≤ mark s') : Before mark s' p := by
  rw [before_iff, hdata]
  exact ⟨(before_iff.mp h).1, Nat.le_trans h.length_le hmark⟩

theorem secureLaws (hmark : IsMark mark) : Store.SecureLaws Holds (Before mark) where
  toLaws := reliable.toLaws
  append_secure := by
    rintro s s' p data result h hcall
    cases hcall
    obtain ⟨hstart, hle⟩ := before_iff.mp h
    rw [before_iff, hmark.append_eq]
    refine ⟨?_, hle⟩
    show p <+: (s.data.append data).toBytes
    rw [Image.toBytes_append]
    exact hstart.trans (List.prefix_append _ _)
  flush_secure := by
    rintro s s' b p result - h - hcall
    obtain rfl : s.flush.2 = s' := congrArg Prod.snd hcall
    exact h.mono s.data_flush (hmark.flush_le s)
  sync_secure := by
    rintro s s' b p result - h - hcall
    obtain rfl : s.sync.2 = s' := congrArg Prod.snd hcall
    exact h.mono s.data_sync (hmark.sync_le s)
  readAt_secure := by
    rintro p s s' offset length result h hcall
    cases hcall
    exact h
  truncate_secure := by
    rintro s s' p length result h hlength hcall
    cases hcall
    obtain ⟨hstart, hle⟩ := before_iff.mp h
    rw [before_iff, hmark.truncate_eq]
    refine ⟨?_, Nat.le_min.mpr ⟨hle, hlength⟩⟩
    show p <+: (s.data.take length).toBytes
    rw [Image.toBytes_take]
    exact List.prefix_take_iff.mpr ⟨hstart, hlength⟩
  sync_secures := by
    rintro s s' b rfl hcall
    have hok : s.sync.1 = .ok () := congrArg Prod.fst hcall
    obtain rfl : s.sync.2 = s' := congrArg Prod.snd hcall
    rw [before_iff, hmark.sync_ok s hok, s.data_sync, Image.length_toBytes]
    exact ⟨List.prefix_refl _, Nat.le_refl _⟩

/-- A loss that leaves the bytes before a later mark, all of them flushed and synced. -/
theorem spared_lasting {left : MemoryStore → Nat} (hleft : ∀ s, lasting s ≤ left s) :
    Store.Spared Holds (Before lasting) fun s => ofImage (s.data.take (left s)) := by
  rintro s b rfl
  have hbytes : (s.data.take (left s)).toBytes = s.data.toBytes.take (left s) :=
    Image.toBytes_take _ _
  refine ⟨s.data.toBytes.take (left s), List.take_prefix _ _, hbytes, fun p hp _ => ?_⟩
  obtain ⟨hstart, hle⟩ := before_iff.mp hp
  have hkept : p <+: s.data.toBytes.take (left s) :=
    List.prefix_take_iff.mpr ⟨hstart, Nat.le_trans hle (hleft s)⟩
  have hsize : lasting (ofImage (s.data.take (left s))) =
      (s.data.toBytes.take (left s)).length := by
    rw [← hbytes, Image.length_toBytes]
    exact Nat.min_self _
  refine ⟨hkept, before_iff.mpr ⟨?_, ?_⟩⟩
  · rw [← hbytes] at hkept
    exact hkept
  · rw [hsize]
    exact hkept.length_le

end

theorem spared_crash : Store.Spared Holds (Before lasting) crash :=
  spared_lasting fun s => Nat.min_le_left s.flushed s.synced

theorem spared_powerLoss : Store.Spared Holds (Before lasting) powerLoss :=
  spared_lasting fun s => Nat.min_le_right s.flushed s.synced

/-- The bytes that a crash leaves are those before the mark of the last flush. -/
theorem crashLaws : Store.CrashLaws Holds fun s => s.crash.data.toBytes := by
  have hleft (s : MemoryStore) : s.crash.data.toBytes = s.data.toBytes.take s.flushed :=
    Image.toBytes_take _ _
  simp only [hleft]
  exact {
    toSecureLaws := secureLaws isMark_flushed
    flush_secures := by
      rintro s s' b rfl hcall
      change s.flush = _ at hcall
      rcases s.flush_cases with h | ⟨e, h⟩
      · rw [h] at hcall
        cases hcall
        rw [List.prefix_take_iff, Image.length_toBytes]
        exact ⟨List.prefix_refl _, Nat.le_refl _⟩
      · rw [h] at hcall
        cases hcall }

end MemoryStore

/-! ## Stores of which any call may fail -/

/-- How a call fails. -/
inductive Mishap
  /-- Nothing has happened. -/
  | atOnce (e : IoError)
  /-- A sync has flushed before it failed; any other call has done nothing. -/
  | halfWay (e : IoError)
  deriving DecidableEq, Repr

def Mishap.error : Mishap → IoError
  | atOnce e => e
  | halfWay e => e

/-- A store of which any append, flush, sync and truncation may fail. -/
structure ErraticStore (σ : Type) where
  inner : σ
  /-- The mishap of each such call, by the number of calls before it. -/
  mishap : Nat → Option Mishap
  /-- How many such calls there were. -/
  calls : Nat := 0

namespace ErraticStore

variable {σ : Type}

/-- The store after one more call, which left the inner store in the given state. -/
def count (s : ErraticStore σ) (inner : σ) : ErraticStore σ :=
  { s with inner := inner, calls := s.calls + 1 }

/-- Do what the inner store does, unless the call is to fail. -/
def attempt {ε α : Type} (s : ErraticStore σ) (refusal : IoError → ε) (left : Mishap → σ)
    (act : σ → Except ε α × σ) : Except ε α × ErraticStore σ :=
  match s.mishap s.calls with
  | some m => (.error (refusal m.error), s.count (left m))
  | none =>
    let (result, inner) := act s.inner
    (result, s.count inner)

/-- What a sync leaves that fails. -/
def afterSync [Store σ] (s : ErraticStore σ) : Mishap → σ
  | .atOnce _ => s.inner
  | .halfWay _ => (Store.flush s.inner).2

instance [Store σ] : Store (ErraticStore σ) where
  size s := Store.size s.inner
  append s bytes := s.attempt .reported (fun _ => s.inner) (Store.append · bytes)
  flush s := s.attempt id (fun _ => s.inner) Store.flush
  sync s := s.attempt id s.afterSync Store.sync
  readAt s offset length :=
    let (result, inner) := Store.readAt s.inner offset length
    (result, { s with inner := inner })
  truncate s size := s.attempt id (fun _ => s.inner) (Store.truncate · size)

/-- The store holds a byte string if the inner one does, whatever is going to fail. -/
def Holds (Inner : σ → Bytes → Prop) (s : ErraticStore σ) (b : Bytes) : Prop := Inner s.inner b

theorem attempt_cases {ε α : Type} {s s' : ErraticStore σ} {refusal : IoError → ε}
    {left : Mishap → σ} {act : σ → Except ε α × σ} {result : Except ε α}
    (h : s.attempt refusal left act = (result, s')) :
    (∃ m, result = .error (refusal m.error) ∧ s'.inner = left m) ∨
      act s.inner = (result, s'.inner) := by
  unfold attempt at h
  split at h
  · rename_i m _
    cases h
    exact .inl ⟨m, rfl, rfl⟩
  · cases h
    exact .inr rfl

variable [Store σ] {Inner : σ → Bytes → Prop} {crashed : σ → Bytes}

theorem crashLaws (inner : Store.CrashLaws Inner crashed) :
    Store.CrashLaws (Holds Inner) fun s => crashed s.inner where
  size_eq h := inner.size_eq h
  append_ok := by
    intro s s' b data offset h hcall
    rcases attempt_cases hcall with ⟨m, hresult, hinner⟩ | hact
    · cases hresult
    · exact inner.append_ok h hact
  append_error := by
    intro s s' b data e h hcall
    rcases attempt_cases hcall with ⟨m, hresult, hinner⟩ | hact
    · rwa [Holds, hinner]
    · exact inner.append_error h hact
  append_secure := by
    intro s s' p data result h hcall
    rcases attempt_cases hcall with ⟨m, hresult, hinner⟩ | hact
    · rwa [hinner]
    · exact inner.append_secure h hact
  flush_keeps := by
    intro s s' b result h hcall
    rcases attempt_cases hcall with ⟨m, hresult, hinner⟩ | hact
    · rwa [Holds, hinner]
    · exact inner.flush_keeps h hact
  flush_secure := by
    intro s s' b p result hs h hp hcall
    rcases attempt_cases hcall with ⟨m, hresult, hinner⟩ | hact
    · rwa [hinner]
    · exact inner.flush_secure hs h hp hact
  flush_secures := by
    intro s s' b h hcall
    rcases attempt_cases hcall with ⟨m, hresult, hinner⟩ | hact
    · cases hresult
    · exact inner.flush_secures h hact
  sync_keeps := by
    intro s s' b result h hcall
    rcases attempt_cases hcall with ⟨m, hresult, hinner⟩ | hact
    · rw [Holds, hinner]
      cases m with
      | atOnce e => exact h
      | halfWay e => exact inner.flush_keeps h rfl
    · exact inner.sync_keeps h hact
  sync_secure := by
    intro s s' b p result hs h hp hcall
    rcases attempt_cases hcall with ⟨m, hresult, hinner⟩ | hact
    · rw [hinner]
      cases m with
      | atOnce e => exact h
      | halfWay e => exact inner.flush_secure hs h hp rfl
    · exact inner.sync_secure hs h hp hact
  sync_secures := by
    intro s s' b h hcall
    rcases attempt_cases hcall with ⟨m, hresult, hinner⟩ | hact
    · cases m <;> cases hresult
    · exact inner.sync_secures h hact
  readAt_keeps := by
    intro b s s' offset length result h hcall
    cases hcall
    exact inner.readAt_keeps b h rfl
  readAt_ok := by
    intro s s' b data offset length h hcall
    simp only [Store.readAt, Prod.mk.injEq] at hcall
    exact inner.readAt_ok h (Prod.ext hcall.1 rfl)
  readAt_secure := by
    intro p s s' offset length result h hcall
    cases hcall
    exact inner.readAt_secure p h rfl
  truncate_ok := by
    intro s s' b length h hcall
    rcases attempt_cases hcall with ⟨m, hresult, hinner⟩ | hact
    · cases hresult
    · exact inner.truncate_ok h hact
  truncate_error := by
    intro s s' b length e h hcall
    rcases attempt_cases hcall with ⟨m, hresult, hinner⟩ | hact
    · rwa [Holds, hinner]
    · exact inner.truncate_error h hact
  truncate_secure := by
    intro s s' p length result h hlength hcall
    rcases attempt_cases hcall with ⟨m, hresult, hinner⟩ | hact
    · rwa [hinner]
    · exact inner.truncate_secure h hlength hact

end ErraticStore

end Dataflow
