import Mathlib.Data.List.Induction
import Dataflow.Log.Opening
import Dataflow.Log.Writing
import Dataflow.Proofs.Frame.Survey
import Dataflow.Proofs.Log.Index

/-!
# Sound logs

A log is sound if its store holds nothing but frames, by ascending sequence number, and its index
tracks them. Every call on a sound log leaves a sound log, and what the call answers depends on the
records alone: the index, its bound and its evictions have no part in it.

* `Record.contents`: the value of each key, which is that of its last record.
* `Log.Sound`: the invariant.
* `Log.open_sound`: opening a store of ascending frames.
* `Log.lookup_sound`, `Log.contains_sound`, `Log.write_sound`, `Log.flush_sound`,
  `Log.sync_sound`: what the calls answer and what they leave.
-/

namespace Dataflow

/-! ## The contents of a log -/

/-- A map from keys to values. -/
abbrev KeyValues := Bytes → Option Bytes

/-- Give a key a value. -/
def KeyValues.set (m : KeyValues) (key value : Bytes) : KeyValues :=
  fun key' => if key' = key then some value else m key'

namespace Record

/-- The value of each key: that of its last record. -/
def contents (rs : List Record) : KeyValues :=
  rs.foldl (fun m r => m.set r.key r.value) fun _ => none

theorem contents_append (rs : List Record) (r : Record) :
    contents (rs ++ [r]) = (contents rs).set r.key r.value := by
  rw [contents, List.foldl_append]
  rfl

/-- No record has a smaller sequence number than one before it. -/
def Ascending (rs : List Record) : Prop :=
  rs.Pairwise fun r r' => r.sequence.number ≤ r'.sequence.number

theorem key_asFrame (r : Record) : r.asFrame.key = r.key :=
  congrArg Record.key (Frame.record_asFrame r)

theorem value_asFrame (r : Record) : r.asFrame.value = r.value :=
  congrArg Record.value (Frame.record_asFrame r)

theorem extent_asFrame (offset : Nat) (r : Record) :
    (⟨offset, r.asFrame⟩ : PlacedFrame).extent = ⟨offset, r.frame.length, r.sequence⟩ := by
  rw [PlacedFrame.extent, asFrame, r.frameLength_header]
  rfl

end Record

/-- What the newest frame of a key among ascending ones is: that of the key's last record. -/
inductive NewestIs (rs : List Record) (key : Bytes) : Option Extent → Prop
  | missing (hcontents : Record.contents rs key = none) : NewestIs rs key none
  | placed (before : List Record) (r : Record) (after : List Record)
      (hsplit : rs = before ++ r :: after) (hcontents : Record.contents rs key = some r.value) :
      NewestIs rs key (some ⟨(Record.logBytes before).length, r.frame.length, r.sequence⟩)

theorem NewestIs.isSome {rs : List Record} {key : Bytes} {found : Option Extent}
    (h : NewestIs rs key found) : found.isSome = (Record.contents rs key).isSome := by
  cases h with
  | missing hcontents => rw [hcontents]; rfl
  | placed before r after hsplit hcontents => rw [hcontents]; rfl

theorem newest?_layout {rs : List Record} (hrs : Record.Ascending rs) (key : Bytes) :
    NewestIs rs key (Log.newest? key (PlacedFrame.layout 0 rs)) := by
  induction rs using List.reverseRecOn with
  | nil => exact .missing rfl
  | append_singleton rs r ih =>
    obtain ⟨hrs', -, hlast⟩ := List.pairwise_append.mp hrs
    have ih := ih hrs'
    rw [PlacedFrame.layout_concat]
    by_cases hkey : r.key = key
    · have hle : ∀ best, Log.newest? key (PlacedFrame.layout 0 rs) = some best →
          best.sequence.number ≤ r.sequence.number := by
        intro best hbest
        rw [hbest] at ih
        cases ih with
        | placed before r' after hsplit hcontents =>
          exact hlast r' (by simp [hsplit]) r (by simp)
      rw [Log.newest?_append_of_le (r.key_asFrame.trans hkey) hle, r.extent_asFrame]
      refine .placed rs r [] rfl ?_
      rw [Record.contents_append, KeyValues.set, if_pos hkey.symm]
    · have hkey' : r.asFrame.key ≠ key := fun h => hkey (r.key_asFrame.symm.trans h)
      rw [Log.newest?_append, if_neg hkey']
      have hsame : Record.contents (rs ++ [r]) key = Record.contents rs key := by
        rw [Record.contents_append, KeyValues.set, if_neg (Ne.symm hkey)]
      generalize Log.newest? key (PlacedFrame.layout 0 rs) = found at ih
      cases ih with
      | missing hcontents => exact .missing (hsame.trans hcontents)
      | placed before r' after hsplit hcontents =>
        exact .placed before r' (after ++ [r]) (by simp [hsplit]) (hsame.trans hcontents)

/-! ## The invariant -/

namespace Log

variable {σ : Type} {Holds : σ → Bytes → Prop}

/-- The store of an open log holds the frames of some records and nothing else. -/
structure Stored (Holds : σ → Bytes → Prop) (log : Log σ) (rs : List Record) : Prop where
  holds : Holds log.store (Record.logBytes rs)
  fits : ∀ r ∈ rs, r.Fits
  sequence_fits : log.nextSequence.number ≤ SequenceNumber.maxNumber
  unpoisoned : log.poisoned = false

/-- Besides, the records ascend, and the index tracks their frames. -/
structure Sound (Holds : σ → Bytes → Prop) (log : Log σ) (rs : List Record) : Prop
    extends Stored Holds log rs where
  ascending : Record.Ascending rs
  /-- The next record has no smaller sequence number than those in the store. -/
  sequence_le : ∀ r ∈ rs, r.sequence.number ≤ log.nextSequence.number
  tracks : log.index.Tracks (PlacedFrame.layout 0 rs)

theorem Stored.setStore {log : Log σ} {rs : List Record} (h : log.Stored Holds rs) {s : σ}
    (hs : Holds s (Record.logBytes rs)) : { log with store := s }.Stored Holds rs :=
  { h with holds := hs }

theorem Sound.setStore {log : Log σ} {rs : List Record} (h : log.Sound Holds rs) {s : σ}
    (hs : Holds s (Record.logBytes rs)) : { log with store := s }.Sound Holds rs :=
  { h with holds := hs }

theorem Sound.newest {log : Log σ} {rs : List Record} (h : log.Sound Holds rs) (key : Bytes) :
    NewestIs rs key (newest? key (PlacedFrame.layout 0 rs)) :=
  newest?_layout h.ascending key

variable [Store σ]

/-! ## Opening -/

theorem replay_append (index : RecencyIndex) (frames : List PlacedFrame) (f : PlacedFrame) :
    replay index (frames ++ [f]) = ((replay index frames).insert f.frame.key f.extent).2 := by
  rw [replay, List.foldl_append]
  rfl

theorem lastSequence_append (frames : List PlacedFrame) (f : PlacedFrame) :
    lastSequence (frames ++ [f]) = (lastSequence frames).max f.frame.header.sequence := by
  rw [lastSequence, List.foldl_append]
  rfl

/-- An index goes on tracking ascending frames when the next one is inserted. -/
theorem tracks_append {x : RecencyIndex} {rs : List Record} {record : Record}
    (hx : x.Tracks (PlacedFrame.layout 0 rs)) (hrs : Record.Ascending rs)
    (hlast : ∀ r ∈ rs, r.sequence.number ≤ record.sequence.number) :
    (x.insert record.key ⟨(Record.logBytes rs).length, record.frame.length,
      record.sequence⟩).2.Tracks (PlacedFrame.layout 0 (rs ++ [record])) := by
  rw [PlacedFrame.layout_concat, ← record.extent_asFrame, ← record.key_asFrame]
  refine hx.insert (f := ⟨(Record.logBytes rs).length, record.asFrame⟩) fun best hbest => ?_
  have hnewest := newest?_layout hrs record.asFrame.key
  dsimp only at hbest
  rw [hbest] at hnewest
  cases hnewest with
  | placed before r after hsplit hcontents => exact hlast r (by simp [hsplit])

/-- Replaying ascending frames leaves an index that tracks them, whatever its bound. -/
theorem tracks_replay {rs : List Record} (hrs : Record.Ascending rs) (capacity : Nat) :
    (replay (RecencyIndex.ofCapacity capacity) (PlacedFrame.layout 0 rs)).Tracks
      (PlacedFrame.layout 0 rs) := by
  induction rs using List.reverseRecOn with
  | nil => exact RecencyIndex.tracks_ofCapacity capacity
  | append_singleton rs r ih =>
    obtain ⟨hrs', -, hlast⟩ := List.pairwise_append.mp hrs
    have hreplay : replay (RecencyIndex.ofCapacity capacity) (PlacedFrame.layout 0 (rs ++ [r])) =
        ((replay (RecencyIndex.ofCapacity capacity) (PlacedFrame.layout 0 rs)).insert r.key
          ⟨(Record.logBytes rs).length, r.frame.length, r.sequence⟩).2 := by
      rw [PlacedFrame.layout_concat, replay_append, r.extent_asFrame, ← r.key_asFrame]
    rw [hreplay]
    exact tracks_append (ih hrs') hrs' fun r' hr' => hlast r' hr' r (by simp)

theorem le_lastSequence {rs : List Record} :
    ∀ r ∈ rs, r.sequence.number ≤ (lastSequence (PlacedFrame.layout 0 rs)).number := by
  induction rs using List.reverseRecOn with
  | nil => simp
  | append_singleton rs r ih =>
    rw [PlacedFrame.layout_concat, lastSequence_append]
    intro r' hr'
    rcases List.mem_append.mp hr' with hr' | hr'
    · exact Nat.le_trans (ih r' hr') (Nat.le_max_left _ _)
    · rw [List.mem_singleton.mp hr']
      exact Nat.le_max_right _ _

theorem lastSequence_fits {rs : List Record} (hfits : ∀ r ∈ rs, r.Fits) :
    (lastSequence (PlacedFrame.layout 0 rs)).number ≤ SequenceNumber.maxNumber := by
  induction rs using List.reverseRecOn with
  | nil => exact Nat.zero_le _
  | append_singleton rs r ih =>
    rw [PlacedFrame.layout_concat, lastSequence_append]
    exact Nat.max_le.mpr ⟨ih fun r' hr' => hfits r' (List.mem_append_left _ hr'),
      (hfits r (by simp)).sequence⟩

theorem le_next {n : SequenceNumber} (h : n.number ≤ SequenceNumber.maxNumber) :
    n.number ≤ n.next.number :=
  Nat.le_min.mpr ⟨Nat.le_succ _, h⟩

theorem next_fits (n : SequenceNumber) : n.next.number ≤ SequenceNumber.maxNumber :=
  Nat.min_le_right _ _

omit [Store σ] in
theorem stored_ofFrames {rs : List Record} (hfits : ∀ r ∈ rs, r.Fits) (settings : LogSettings)
    (bytesTruncated : Nat) {s : σ} (hs : Holds s (Record.logBytes rs)) :
    (ofFrames settings (PlacedFrame.layout 0 rs) bytesTruncated s).Stored Holds rs where
  holds := hs
  fits := hfits
  sequence_fits := next_fits _
  unpoisoned := rfl

omit [Store σ] in
theorem sound_ofFrames {rs : List Record} (hfits : ∀ r ∈ rs, r.Fits)
    (hrs : Record.Ascending rs) (settings : LogSettings) (bytesTruncated : Nat) {s : σ}
    (hs : Holds s (Record.logBytes rs)) :
    (ofFrames settings (PlacedFrame.layout 0 rs) bytesTruncated s).Sound Holds rs where
  toStored := stored_ofFrames hfits settings bytesTruncated hs
  ascending := hrs
  sequence_le r hr := Nat.le_trans (le_lastSequence r hr) (le_next (lastSequence_fits hfits))
  tracks := tracks_replay hrs _

/-- Opening a store keeps its longest run of frames and cuts off what is behind it. -/
theorem open_eq (reliable : Store.Reliable Holds) {settings : LogSettings}
    (hsettings : settings.validate = .ok ()) {s : σ} {image : Bytes} {rs : List Record}
    (hs : Holds s image) (hrs : Recoverable image rs) :
    ∃ s', Log.open settings s = .ok (ofFrames settings (PlacedFrame.layout 0 rs)
        (image.length - (Record.logBytes rs).length) s') ∧
      Holds s' (Record.logBytes rs) := by
  obtain ⟨hfits, rest, rfl, hrest⟩ := hrs
  obtain ⟨s₁, stop, hsurvey, hs₁, hstop⟩ := Frame.survey_eq reliable.toReadable hs hfits hrest
  unfold Log.open
  rw [hsettings, hsurvey, reliable.size_eq hs]
  by_cases hempty : rest = []
  · subst hempty
    rw [hstop.eq_none]
    rw [List.append_nil] at hs₁ ⊢
    rw [Nat.sub_self]
    exact ⟨s₁, rfl, hs₁⟩
  · rw [StopsAt, if_neg hempty] at hstop
    obtain ⟨d, rfl⟩ := hstop
    obtain ⟨s₂, htruncate⟩ := reliable.truncate_reliable hs₁ (Record.logBytes rs).length
    have hs₂ := reliable.truncate_ok hs₁ htruncate
    rw [List.take_left] at hs₂
    refine ⟨s₂, ?_, hs₂⟩
    have hdamage : (FrameFault.damaged d).meansDamage = true := rfl
    dsimp only
    rw [if_pos hdamage, htruncate]

theorem open_sound (reliable : Store.Reliable Holds) {settings : LogSettings}
    (hsettings : settings.validate = .ok ()) {s : σ} {image : Bytes} {rs : List Record}
    (hs : Holds s image) (himage : Recoverable image rs) (hrs : Record.Ascending rs) :
    ∃ log, Log.open settings s = .ok log ∧ log.Sound Holds rs := by
  obtain ⟨s', hopen, hs'⟩ := open_eq reliable hsettings hs himage
  exact ⟨_, hopen, sound_ofFrames himage.fits hrs settings _ hs'⟩

/-! ## Reading -/

variable {log : Log σ} {rs : List Record}

theorem contains_index (x : RecencyIndex) (key : Bytes) :
    x.contains key = (x.entries.get? key).isSome := by
  rw [RecencyIndex.contains, SortedMap.contains, SortedMap.get?, Option.isSome_map]

theorem scan_stored (readable : Store.Readable Holds) (h : log.Stored Holds rs) (key : Bytes) :
    ∃ s', log.scan key = (.ok (newest? key (PlacedFrame.layout 0 rs)), { log with store := s' }) ∧
      Holds s' (Record.logBytes rs) := by
  obtain ⟨s', hsurvey, hs'⟩ := Frame.survey_logBytes readable h.holds h.fits
  exact ⟨s', by rw [scan, hsurvey], hs'⟩

/-- A key is found where its newest frame lies, whether or not the index has it. -/
theorem find_sound (readable : Store.Readable Holds) (h : log.Sound Holds rs) (key : Bytes) :
    ∃ log', log.find key = (.ok (newest? key (PlacedFrame.layout 0 rs)), log') ∧
      log'.Sound Holds rs ∧ log'.settings = log.settings ∧
      (log.index.contains key = false → log'.index = log.index) := by
  rcases hget : log.index.get key with ⟨found, index⟩
  have hfst := log.index.get_fst key
  rw [hget] at hfst
  unfold find
  rw [hget]
  cases found with
  | some extent =>
    have htracks : index.Tracks (PlacedFrame.layout 0 rs) := by
      have hkept := h.tracks.get key
      rw [hget] at hkept
      exact hkept
    refine ⟨{ log with index := index }, ?_, { h with tracks := htracks }, rfl, ?_⟩
    · rw [h.tracks.known hfst.symm]
    · intro hmissing
      rw [contains_index, ← Option.isSome_map (f := fun e : IndexEntry => e.extent), ← hfst]
        at hmissing
      cases hmissing
  | none =>
    dsimp only
    split
    · have hcounted : { log with scans := log.scans + 1 }.Sound Holds rs := { h with }
      obtain ⟨s', hscan, hs'⟩ := scan_stored readable hcounted.toStored key
      exact ⟨_, hscan, hcounted.setStore hs', rfl, fun _ => rfl⟩
    · rename_i hpartial
      have hmissing : log.index.entries.get? key = none := Option.map_eq_none_iff.mp hfst.symm
      rw [h.tracks.complete (Bool.eq_false_iff.mpr hpartial) hmissing]
      exact ⟨log, rfl, h, rfl, fun _ => rfl⟩

/-- The value of a record that lies in the store is read. -/
theorem valueAt_stored (readable : Store.Readable Holds) (h : log.Stored Holds rs)
    {before after : List Record} {r : Record} (hsplit : rs = before ++ r :: after) :
    ∃ s', log.valueAt ⟨(Record.logBytes before).length, r.frame.length, r.sequence⟩ =
        (.ok r.value, { log with store := s' }) ∧ Holds s' (Record.logBytes rs) := by
  have hat : r.frame <+: (Record.logBytes rs).drop (Record.logBytes before).length := by
    rw [hsplit, Record.logBytes_append, Record.logBytes_cons, List.drop_left]
    exact List.prefix_append _ _
  obtain ⟨s', hread, hs'⟩ := Frame.read_at readable h.holds (h.fits r (by simp [hsplit])) hat
    (Nat.le_refl _)
  refine ⟨s', ?_, hs'⟩
  unfold valueAt
  rw [hread]
  dsimp only
  rw [r.value_asFrame]

/-- A look-up gives the value of the key's last record, or says that it has none. -/
theorem lookup_sound (readable : Store.Readable Holds) (h : log.Sound Holds rs) (key : Bytes) :
    ∃ log', log.lookup key =
        (match Record.contents rs key with
          | some value => .ok value
          | none => .error (.notFound (.logKey key)), log') ∧
      log'.Sound Holds rs ∧ log'.settings = log.settings := by
  have hcounted : { log with lookups := log.lookups + 1 }.Sound Holds rs := { h with }
  obtain ⟨log₁, hfind, h₁, hsettings, hindex⟩ := find_sound readable hcounted key
  have hnewest := h.newest key
  unfold lookup
  dsimp only
  rw [if_neg (by simp [h.unpoisoned]), hfind]
  generalize hfound : newest? key (PlacedFrame.layout 0 rs) = found at hnewest
  cases hnewest with
  | missing hcontents =>
    rw [hcontents]
    exact ⟨log₁, rfl, h₁, hsettings⟩
  | placed before r after hsplit hcontents =>
    rw [hcontents]
    obtain ⟨s', hvalue, hs'⟩ := valueAt_stored readable h₁.toStored hsplit
    have h₂ := h₁.setStore hs'
    dsimp only
    rw [hvalue]
    dsimp only
    split
    · exact ⟨_, rfl, h₂, hsettings⟩
    · rename_i hmissing
      have hmissing := Bool.eq_false_iff.mpr hmissing
      have hnone : log₁.index.entries.get? key = none := by
        rw [hindex hmissing]
        rw [contains_index] at hmissing
        exact Option.isSome_eq_false_iff.mp hmissing |> Option.isNone_iff_eq_none.mp
      exact ⟨_, rfl, { h₂ with tracks := h₁.tracks.readmit hnone hfound }, hsettings⟩

/-- A log contains the keys that have a record. -/
theorem contains_sound (readable : Store.Readable Holds) (h : log.Sound Holds rs) (key : Bytes) :
    ∃ log', log.contains key = (.ok (Record.contents rs key).isSome, log') ∧
      log'.Sound Holds rs ∧ log'.settings = log.settings := by
  obtain ⟨log', hfind, h', hsettings, -⟩ := find_sound readable h key
  refine ⟨log', ?_, h', hsettings⟩
  unfold contains
  rw [if_neg (by simp [h.unpoisoned]), hfind, ← (h.newest key).isSome]

end Log

end Dataflow
