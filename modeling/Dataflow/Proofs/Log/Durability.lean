import Dataflow.Proofs.Log.Ledger
import Dataflow.Proofs.Log.Reading
import Dataflow.Proofs.Store.Marks

/-!
# Durability

Whatever fails and however often a store in memory crashes or loses power, it holds the records
that its ledger says and no others. A crash and a loss of power leave a run of whole records from
the front, with all those that the ledger says have to outlive it.

* `Ledger.Covers`, `Ledger.Tracks`: the invariant of a store and of an open log.
* `Ledger.Tracks.call`, `Ledger.Follows.face`: one step.
* `Session.recorded_durable`: any history of events.
-/

namespace Dataflow

/-! ## Opening a store of whole frames -/

section Opening

variable {s : MemoryStore} {rs : List Record}

theorem Frame.survey_memory (hs : s.data.toBytes = Record.logBytes rs)
    (hfits : ∀ r ∈ rs, r.Fits) : Frame.survey s = (⟨PlacedFrame.layout 0 rs, none⟩, s) := by
  obtain ⟨s', hsurvey, rfl, -⟩ := Frame.survey_logBytes
    (MemoryStore.reliable.toReadable.and (MemoryStore.readsKeep_eq s)) ⟨rfl, hs⟩ hfits
  exact hsurvey

theorem PlacedFrame.records_layout (offset : Nat) (rs : List Record) :
    (PlacedFrame.layout offset rs).map (·.frame.record) = rs := by
  induction rs generalizing offset with
  | nil => rfl
  | cons r rs ih =>
    rw [PlacedFrame.layout, List.map_cons, ih, Frame.record_asFrame]

theorem Frame.records_memory (hs : s.data.toBytes = Record.logBytes rs)
    (hfits : ∀ r ∈ rs, r.Fits) : Frame.records s = rs := by
  rw [Frame.records, Frame.survey_memory hs hfits]
  exact PlacedFrame.records_layout 0 rs

theorem Log.open_memory (hs : s.data.toBytes = Record.logBytes rs) (hfits : ∀ r ∈ rs, r.Fits)
    {settings : LogSettings} (hsettings : settings.validate = .ok ()) :
    Log.open settings s = .ok (Log.ofFrames settings (PlacedFrame.layout 0 rs) 0 s) := by
  rw [Log.open, hsettings, Frame.survey_memory hs hfits]

end Opening

/-! ## The invariant -/

namespace Ledger

/-- The store holds the records of the ledger, and its marks lie behind as many of them as have to
outlive a crash and a loss of power. -/
structure Covers (l : Ledger) (s : MemoryStore) : Prop where
  fits : ∀ r ∈ l.records, r.Fits
  marks : ∃ flushed ≥ l.flushed, ∃ synced ≥ l.synced, s.Marks l.records flushed synced

/-- Besides, the log that is open on the store counts as the ledger does. -/
structure Tracks (l : Ledger) (log : Log MemoryStore) : Prop extends Covers l log.store where
  sequence_fits : log.nextSequence.number ≤ SequenceNumber.maxNumber
  unpoisoned : log.poisoned = false
  waiting_eq : log.unflushedRecords = l.waiting

variable {l : Ledger} {log : Log MemoryStore}

theorem covers_start {rs : List Record} (hfits : ∀ r ∈ rs, r.Fits) :
    (start rs).Covers (.ofBytes (Record.logBytes rs)) where
  fits := by
    rw [records_start]
    exact hfits
  marks := by
    refine ⟨rs.length, Nat.le_refl _, rs.length, Nat.le_refl _, ?_⟩
    rw [records_start]
    exact MemoryStore.marks_ofImage (Image.toBytes_ofBytes _)

theorem Tracks.of_undisturbed {log' : Log MemoryStore} (h : l.Tracks log)
    (hlog : log.Undisturbed (· = log.store) log') : l.Tracks log' where
  toCovers := by
    rw [hlog.store rfl]
    exact h.toCovers
  sequence_fits := hlog.sequence_eq ▸ h.sequence_fits
  unpoisoned := hlog.poisoned_eq.trans h.unpoisoned
  waiting_eq := hlog.unflushed_eq.trans h.waiting_eq

/-! ## Barriers -/

theorem Tracks.flushStore (h : l.Tracks log) :
    (log.flushStore.1 = .ok () ∧ (l.pass .flush).Tracks log.flushStore.2) ∨
      ((∃ e, log.flushStore.1 = .error e) ∧ l.Tracks log.flushStore.2) := by
  obtain ⟨flushed, hflushed, synced, hsynced, hmarks⟩ := h.marks
  rcases hflush : Store.flush log.store with ⟨result, s⟩
  unfold Log.flushStore
  rw [hflush]
  rcases hmarks.flush hflush with ⟨rfl, hs⟩ | ⟨⟨e, rfl⟩, hs⟩
  · refine Or.inl ⟨rfl, ⟨h.fits, ?_⟩, h.sequence_fits, h.unpoisoned, rfl⟩
    exact ⟨_, Nat.le_refl _, synced, hsynced, hs⟩
  · refine Or.inr ⟨⟨_, rfl⟩, ⟨h.fits, ?_⟩, h.sequence_fits, h.unpoisoned, h.waiting_eq⟩
    exact ⟨flushed, hflushed, synced, hsynced, hs⟩

theorem Tracks.syncStore (h : l.Tracks log) (operation : Operation) :
    ((log.syncStore operation).1 = .ok () ∧ (l.pass .sync).Tracks (log.syncStore operation).2) ∨
      ((∃ e, (log.syncStore operation).1 = .error e) ∧
        l.Tracks (log.syncStore operation).2) := by
  obtain ⟨flushed, hflushed, synced, hsynced, hmarks⟩ := h.marks
  rcases hsync : Store.sync log.store with ⟨result, s⟩
  unfold Log.syncStore
  rw [hsync]
  rcases hmarks.sync hsync with ⟨rfl, hs⟩ | ⟨⟨e, rfl⟩, flushed', hflushed', hs⟩
  · refine Or.inl ⟨rfl, ⟨h.fits, ?_⟩, h.sequence_fits, h.unpoisoned, rfl⟩
    exact ⟨_, Nat.le_refl _, _, Nat.le_refl _, hs⟩
  · refine Or.inr ⟨⟨_, rfl⟩, ⟨h.fits, ?_⟩, h.sequence_fits, h.unpoisoned, h.waiting_eq⟩
    exact ⟨flushed', Nat.le_trans hflushed hflushed', synced, hsynced, hs⟩

theorem Tracks.pass (h : l.Tracks log) (barrier : Barrier) :
    ((log.pass barrier).1 = .ok () ∧ (l.pass barrier).Tracks (log.pass barrier).2) ∨
      ((∃ e, (log.pass barrier).1 = .error e) ∧ l.Tracks (log.pass barrier).2) := by
  cases barrier with
  | none => exact Or.inl ⟨rfl, h⟩
  | flush => exact h.flushStore
  | sync => exact h.syncStore .syncRecord

/-! ## Writes -/

theorem Tracks.append (h : l.Tracks log) {r : Record} (hr : r.Fits) :
    (l.append r).Tracks { log with
      store := log.store.append r.frame
      unflushedRecords := log.unflushedRecords + 1 } where
  fits := by
    rw [records_append]
    intro r' hr'
    rcases List.mem_append.mp hr' with hr' | hr'
    · exact h.fits r' hr'
    · exact List.mem_singleton.mp hr' ▸ hr
  marks := by
    obtain ⟨flushed, hflushed, synced, hsynced, hmarks⟩ := h.marks
    rw [records_append]
    exact ⟨flushed, hflushed, synced, hsynced, hmarks.append r⟩
  sequence_fits := h.sequence_fits
  unpoisoned := h.unpoisoned
  waiting_eq := congrArg (· + 1) h.waiting_eq

/-- A record whose barrier fails is cut off, and the marks of a barrier that was passed in part go
back with it. -/
theorem Tracks.retract {r : Record} {log' : Log MemoryStore} (h : l.Covers log.store)
    (h' : (l.append r).Tracks log') :
    l.Tracks (log'.retract (Record.logBytes l.records).length) where
  fits := h.fits
  marks := by
    obtain ⟨flushed₀, hflushed₀, synced₀, hsynced₀, hmarks₀⟩ := h.marks
    have hle := hmarks₀.flushed_le
    have hle' := hmarks₀.synced_le_length
    obtain ⟨flushed, hflushed, synced, hsynced, hmarks⟩ := h'.marks
    change flushed ≥ l.flushed at hflushed
    change synced ≥ l.synced at hsynced
    rw [records_append] at hmarks
    exact ⟨_, by omega, _, by omega, hmarks.truncate⟩
  sequence_fits := h'.sequence_fits
  unpoisoned := h'.unpoisoned
  waiting_eq := by
    change log'.unflushedRecords - 1 = l.waiting
    rw [h'.waiting_eq]
    exact Nat.add_sub_cancel l.waiting 1

theorem Tracks.commit (h : l.Tracks log) {r : Record} (hr : r.Fits) :
    ((log.commit r r.frame).1 = .ok r.sequence ∧
        (l.acknowledge log.settings.flushPolicy r).Tracks (log.commit r r.frame).2) ∨
      ((∃ e, (log.commit r r.frame).1 = .error e) ∧ l.Tracks (log.commit r r.frame).2) := by
  obtain ⟨flushed, hflushed, synced, hsynced, hmarks⟩ := h.marks
  have hoffset : log.store.data.size = (Record.logBytes l.records).length := hmarks.size_eq
  have hpass := (h.append hr).pass
    (log.settings.flushPolicy.barrier r.durability (log.unflushedRecords + 1))
  unfold Log.commit
  simp only [Store.append]
  generalize (Log.pass _ _ : Except Error Unit × Log MemoryStore) = passed at hpass ⊢
  obtain ⟨result, log'⟩ := passed
  rcases hpass with ⟨rfl, h'⟩ | ⟨⟨e, rfl⟩, h'⟩
  · refine Or.inl ⟨rfl, ?_⟩
    rw [h.waiting_eq] at h'
    exact { h' with }
  · refine Or.inr ⟨⟨_, rfl⟩, ?_⟩
    dsimp only
    rw [hoffset]
    exact Tracks.retract h.toCovers h'

theorem Tracks.write (h : l.Tracks log) (key value : Bytes) (durability : Durability)
    (allowReplace : Bool) :
    (∃ sequence, (log.write key value durability allowReplace).1 = .ok sequence ∧
        (l.acknowledge log.settings.flushPolicy
          ⟨key, value, durability, allowReplace, sequence⟩).Tracks
          (log.write key value durability allowReplace).2) ∨
      ((∃ e, (log.write key value durability allowReplace).1 = .error e) ∧
        l.Tracks (log.write key value durability allowReplace).2) := by
  have hpermit := Log.permit_undisturbed (MemoryStore.readsKeep_eq log.store) log key allowReplace
  unfold Log.write
  rw [if_neg (by simp [h.unpoisoned])]
  rcases hresult : log.permit key allowReplace with ⟨result, log₁⟩
  rw [hresult] at hpermit
  have h₁ := h.of_undisturbed hpermit
  cases result with
  | error e => exact Or.inr ⟨⟨_, rfl⟩, h₁⟩
  | ok _ =>
    dsimp only
    cases hencode : Record.encode ⟨key, value, durability, allowReplace, log₁.nextSequence⟩ with
    | error e => exact Or.inr ⟨⟨_, rfl⟩, h₁⟩
    | ok frame =>
      obtain ⟨hkey, hvalue, rfl⟩ := Record.encode_eq_ok_iff.mp hencode
      have h₂ : l.Tracks { log₁ with nextSequence := log₁.nextSequence.next } :=
        { h₁ with sequence_fits := Log.next_fits _ }
      rw [← hpermit.settings_eq]
      rcases h₂.commit ⟨hkey, hvalue, h₁.sequence_fits⟩ with ⟨hok, h₃⟩ | ⟨herror, h₃⟩
      · exact Or.inl ⟨_, hok, h₃⟩
      · exact Or.inr ⟨herror, h₃⟩

/-! ## Calls -/

/-- The invariant of a session. -/
def Follows (l : Ledger) : Session MemoryStore → Prop
  | .opened log => l.Tracks log
  | .closed _ s => l.Covers s

theorem Follows.covers {session : Session MemoryStore} (h : l.Follows session) :
    l.Covers session.store := by
  cases session with
  | opened log => exact Tracks.toCovers h
  | closed settings s => exact h

theorem Tracks.call (h : l.Tracks log) (c : Log.Call) :
    (l.note (.opened log) (.call c) (log.call c).1).Tracks (log.call c).2 := by
  have hreads := MemoryStore.readsKeep_eq log.store
  cases c with
  | write key value durability allowReplace =>
    have hwrite := h.write key value durability allowReplace
    rw [Log.call]
    generalize log.write key value durability allowReplace = written at hwrite ⊢
    obtain ⟨result, log'⟩ := written
    rcases hwrite with ⟨sequence, rfl, h'⟩ | ⟨⟨e, rfl⟩, h'⟩
    · exact h'
    · exact h'
  | lookup key => exact h.of_undisturbed (Log.lookup_undisturbed hreads log key)
  | contains key => exact h.of_undisturbed (Log.contains_undisturbed hreads log key)
  | flush =>
    have hflush := h.flushStore
    rw [Log.call, Log.flush, if_neg (by simp [h.unpoisoned])]
    generalize log.flushStore = flushed at hflush ⊢
    obtain ⟨result, log'⟩ := flushed
    rcases hflush with ⟨rfl, h'⟩ | ⟨⟨e, rfl⟩, h'⟩
    · exact h'
    · exact h'
  | sync =>
    have hsync := h.syncStore .syncLog
    rw [Log.call, Log.sync, if_neg (by simp [h.unpoisoned])]
    generalize log.syncStore .syncLog = synced at hsync ⊢
    obtain ⟨result, log'⟩ := synced
    rcases hsync with ⟨rfl, h'⟩ | ⟨⟨e, rfl⟩, h'⟩
    · exact h'
    · exact h'

theorem Tracks.close (h : l.Tracks log) :
    (l.note (.opened log) .close (.done log.close.1)).Covers log.close.2 := by
  have hsync := h.syncStore .syncLog
  rw [Log.close, Log.sync, if_neg (by simp [h.unpoisoned])]
  generalize log.syncStore .syncLog = synced at hsync ⊢
  obtain ⟨result, log'⟩ := synced
  rcases hsync with ⟨rfl, h'⟩ | ⟨⟨e, rfl⟩, h'⟩
  · exact h'.toCovers
  · exact h'.toCovers

/-! ## Restarts -/

theorem covers_restart_of_loss {s : MemoryStore} {loss : Loss} {n : Nat}
    (hfits : ∀ r ∈ l.records.take n, r.Fits) (hloss : loss ≠ .nothing)
    (hmarks : (loss.left s).Marks (l.records.take n) n n) :
    Frame.records (loss.left s) = l.records.take n ∧
      (l.restart loss (l.records.take n)).Covers (loss.left s) := by
  refine ⟨Frame.records_memory hmarks.data hfits, ?_, n, ?_, n, ?_, ?_⟩
  · rw [records_restart]
    exact hfits
  · simp only [Ledger.restart, if_neg hloss]
    exact List.length_take_le _ _
  · simp only [Ledger.restart, if_neg hloss]
    exact List.length_take_le _ _
  · rw [records_restart]
    exact hmarks

/-- What is left of a store are its first records, all that had to outlive the loss among them. -/
theorem Covers.restart {s : MemoryStore} (h : l.Covers s) (loss : Loss) :
    ∃ n, l.synced ≤ n ∧ (loss = .nothing → l.records.length ≤ n) ∧
      Frame.records (loss.left s) = l.records.take n ∧
      (l.restart loss (l.records.take n)).Covers (loss.left s) := by
  obtain ⟨flushed, hflushed, synced, hsynced, hmarks⟩ := h.marks
  have hfits : ∀ n, ∀ r ∈ l.records.take n, r.Fits :=
    fun n r hr => h.fits r (List.take_subset n _ hr)
  cases loss with
  | nothing =>
    refine ⟨l.records.length, Nat.le_trans hsynced hmarks.synced_le_length,
      fun _ => Nat.le_refl _, ?_, ?_⟩
    · rw [List.take_length]
      exact Frame.records_memory hmarks.data h.fits
    · rw [List.take_length]
      refine ⟨?_, flushed, hflushed, synced, hsynced, ?_⟩
      · rw [records_restart]
        exact h.fits
      · rw [records_restart]
        exact hmarks
  | crash =>
    exact ⟨flushed, Nat.le_trans hsynced hmarks.synced_le, (fun hloss => by cases hloss),
      covers_restart_of_loss (hfits _) (by simp) hmarks.crash⟩
  | power =>
    exact ⟨synced, hsynced, (fun hloss => by cases hloss),
      covers_restart_of_loss (hfits _) (by simp) hmarks.powerLoss⟩

theorem Covers.start {s : MemoryStore} (h : l.Covers s) (hwaiting : l.waiting = 0)
    (settings : LogSettings) : l.Follows (Session.start settings s).2 := by
  obtain ⟨flushed, -, synced, -, hmarks⟩ := h.marks
  unfold Session.start
  cases hsettings : settings.validate with
  | error e =>
    rw [Log.open, hsettings]
    exact h
  | ok _ =>
    rw [Log.open_memory hmarks.data h.fits hsettings]
    exact ⟨h, Log.next_fits _, rfl, hwaiting.symm⟩

theorem Follows.restart {session : Session MemoryStore} (h : l.Follows session) (loss : Loss)
    (settings? : Option LogSettings) :
    (l.restart loss (Frame.records (loss.left session.store))).Follows
      (session.restart loss.left settings?).2 := by
  obtain ⟨n, -, -, hfound, h'⟩ := h.covers.restart loss
  rw [hfound]
  cases session with
  | opened log =>
    have hpoisoned : log.poisoned = false := Tracks.unpoisoned h
    rw [Session.restart, Session.release, Log.release, if_neg (by simp [hpoisoned])]
    exact h'.start rfl _
  | closed settings s => exact h'.start rfl _

/-! ## Events -/

theorem Follows.face {session : Session MemoryStore} (h : l.Follows session) (e : Session.Event) :
    (l.note session e (session.face e).1).Follows (session.face e).2 := by
  cases e with
  | restart loss settings? => exact h.restart loss settings?
  | call c =>
    cases session with
    | opened log => exact Tracks.call h c
    | closed settings s => cases c <;> exact h
  | close =>
    cases session with
    | opened log => exact Tracks.close h
    | closed settings s => exact h
  | failSync fails =>
    obtain ⟨hfits, flushed, hflushed, synced, hsynced, hmarks⟩ := h.covers
    have hcovers : l.Covers { session.store with failSync := fails } :=
      ⟨hfits, flushed, hflushed, synced, hsynced, { hmarks with }⟩
    cases session with
    | opened log => exact { (show l.Tracks log from h) with toCovers := hcovers }
    | closed settings s => exact hcovers
  | failFlush fails =>
    obtain ⟨hfits, flushed, hflushed, synced, hsynced, hmarks⟩ := h.covers
    have hcovers : l.Covers { session.store with failFlush := fails } :=
      ⟨hfits, flushed, hflushed, synced, hsynced, { hmarks with }⟩
    cases session with
    | opened log => exact { (show l.Tracks log from h) with toCovers := hcovers }
    | closed settings s => exact hcovers

theorem Balanced.note {rs : List Record} {session : Session MemoryStore} (h : l.Balanced rs)
    (hcovers : l.Covers session.store) (e : Session.Event) (answer : Log.Answer) :
    (l.note session e answer).Balanced rs := by
  unfold Ledger.note
  split
  · exact h.acknowledge _ _
  · exact h.pass _
  · exact h.pass _
  · exact h.pass _
  · rename_i loss _
    obtain ⟨n, hn, hnothing, hfound, -⟩ := hcovers.restart loss
    rw [hfound]
    exact h.restart loss hn hnothing
  · exact h

end Ledger

/-! ## Histories -/

/-- Some of the first records, at least so many, are all that an image holds. Any log that is opened
over it replays them and has nothing to cut off. -/
def Restores (image : MemoryStore) (rs : List Record) (least : Nat) : Prop :=
  ∃ n, least ≤ n ∧ n ≤ rs.length ∧ image.data.toBytes = Record.logBytes (rs.take n) ∧
    ∀ settings : LogSettings, settings.validate = .ok () →
      Log.open settings image =
        .ok (Log.ofFrames settings (PlacedFrame.layout 0 (rs.take n)) 0 image)

/-- The promises of a ledger are kept by a store that held `rs` at first. -/
structure Durable (rs : List Record) (l : Ledger) (s : MemoryStore) : Prop
    extends l.Balanced rs where
  data : s.data.toBytes = Record.logBytes l.records
  crash : Restores s.crash l.records l.flushed
  powerLoss : Restores s.powerLoss l.records l.synced

theorem MemoryStore.Marks.restores {image : MemoryStore} {rs : List Record} {n least : Nat}
    (h : image.Marks (rs.take n) n n) (hfits : ∀ r ∈ rs, r.Fits) (hleast : least ≤ n)
    (hn : n ≤ rs.length) : Restores image rs least :=
  ⟨n, hleast, hn, h.data, fun _ hsettings =>
    Log.open_memory h.data (fun r hr => hfits r (List.take_subset n _ hr)) hsettings⟩

theorem Ledger.Covers.durable {l : Ledger} {s : MemoryStore} {rs : List Record}
    (h : l.Covers s) (hbalanced : l.Balanced rs) : Durable rs l s := by
  obtain ⟨flushed, hflushed, synced, hsynced, hmarks⟩ := h.marks
  exact {
    toBalanced := hbalanced
    data := hmarks.data
    crash := hmarks.crash.restores h.fits hflushed hmarks.flushed_le
    powerLoss := hmarks.powerLoss.restores h.fits hsynced hmarks.synced_le_length }

namespace Session

theorem recorded_covers {rs : List Record} {session : Session MemoryStore} {l : Ledger}
    (h : l.Follows session) (hbalanced : l.Balanced rs) (events : List Event) :
    (session.recorded l events).2.Covers (session.recorded l events).1.store ∧
      (session.recorded l events).2.Balanced rs := by
  induction events generalizing session l with
  | nil => exact ⟨h.covers, hbalanced⟩
  | cons e events ih => exact ih (h.face e) (hbalanced.note h.covers e _)

/-- A store that held nothing but synced frames keeps the promises of its ledger, through any
history of calls, of failing barriers, and of restarts after crashes and losses of power. -/
theorem recorded_durable {rs : List Record} (hfits : ∀ r ∈ rs, r.Fits) (settings : LogSettings)
    (events : List Event) :
    Durable rs
      ((closed settings (.ofBytes (Record.logBytes rs))).recorded (.start rs) events).2
      ((closed settings (.ofBytes (Record.logBytes rs))).recorded (.start rs) events).1.store := by
  have h : (Ledger.start rs).Follows (closed settings (.ofBytes (Record.logBytes rs))) :=
    Ledger.covers_start hfits
  obtain ⟨hcovers, hbalanced⟩ := recorded_covers h (Ledger.balanced_start rs) events
  exact hcovers.durable hbalanced

/-- A sync that fails, a flush by policy, and a crash. -/
theorem recorded_durable_crash :
    let rs : List Record := [⟨[1], [10], .persist, true, ⟨1⟩⟩]
    let events : List Event :=
      [.restart .nothing (some { flushPolicy := .periodic 2 }),
        .call (.write [2] [20] .transient true), .failSync true,
        .call (.write [1] [11] .persist true), .failSync false,
        .call (.write [3] [30] .transient false), .restart .crash none]
    let recorded :=
      (closed {} (.ofBytes (Record.logBytes rs))).recorded (.start rs) events
    recorded.2.records.map (·.key) = [[1], [2], [3]] ∧
      Durable rs recorded.2 recorded.1.store := by
  refine ⟨by decide +kernel, recorded_durable (fun r hr => ?_) {} _⟩
  rw [List.mem_singleton.mp hr]
  constructor <;> decide

end Session

end Dataflow
