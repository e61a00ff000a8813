import Dataflow.Proofs.Frame.Survey

/-!
# The longest run of frames

A frame tells its own length. A byte string therefore starts with one frame at most, and all runs of
frames with which it starts are parts of one of them, the longest.

* `Record.eq_of_frame_prefix`: two frames at the same place are the same frame.
* `LongestRun`: the records of the longest run; `Recoverable.longestRun` says that a run behind which
  no frame follows is the longest.
* `LongestRun.of_take`: what is left of a log that was cut at any byte.
* `LongestRun.of_append`: what is left of a log with any bytes behind it.
-/

namespace Dataflow

open Record

/-! ## One frame at a place -/

namespace Record

theorem headerBytes_prefix (r : Record) : r.headerBytes <+: r.frame := by
  rw [frame, body, List.append_assoc, List.append_assoc]
  exact List.prefix_append _ _

theorem eq_of_frame_prefix {r r' : Record} {bytes : Bytes} (hr : r.Fits) (hr' : r'.Fits)
    (h : r.frame <+: bytes) (h' : r'.frame <+: bytes) : r = r' := by
  have hhead : r.headerBytes = r'.headerBytes := by
    have hlen : r.headerBytes.length = r'.headerBytes.length := by
      rw [r.length_headerBytes, r'.length_headerBytes]
    exact (List.prefix_of_prefix_length_le (r.headerBytes_prefix.trans h)
      (r'.headerBytes_prefix.trans h') (Nat.le_of_eq hlen)).eq_of_length hlen
  have hheader : r.header = r'.header := by
    have hparse := Header.parse_headerBytes hr
    rw [hhead, Header.parse_headerBytes hr'] at hparse
    exact (Except.ok.inj hparse).symm
  have hframe : r.frame = r'.frame := by
    have hlen : r.frame.length = r'.frame.length := by
      rw [← r.frameLength_header, ← r'.frameLength_header, hheader]
    exact (List.prefix_of_prefix_length_le h h' (Nat.le_of_eq hlen)).eq_of_length hlen
  have hsame : r.asFrame = r'.asFrame := by rw [asFrame, asFrame, hheader, hframe]
  rw [← Frame.record_asFrame r, hsame, Frame.record_asFrame]

end Record

/-! ## The longest run -/

/-- The records of the longest run of frames with which a byte string starts. Any other run with
which it starts is part of this one. -/
structure LongestRun (image : Bytes) (rs : List Record) : Prop where
  fits : ∀ r ∈ rs, r.Fits
  isPrefix : logBytes rs <+: image
  longest : ∀ rs', (∀ r ∈ rs', r.Fits) → logBytes rs' <+: image → rs' <+: rs

theorem Recoverable.prefix_of_run {image : Bytes} {rs rs' : List Record}
    (h : Recoverable image rs) (hfits' : ∀ r ∈ rs', r.Fits) (hrun : logBytes rs' <+: image) :
    rs' <+: rs := by
  induction rs' generalizing image rs with
  | nil => exact List.nil_prefix
  | cons r' rs' ih =>
    obtain ⟨hfits, rest, rfl, hrest⟩ := h
    obtain ⟨hr', hrs'⟩ := List.forall_mem_cons.mp hfits'
    rw [logBytes_cons] at hrun
    have hat' : r'.frame <+: logBytes rs ++ rest := (List.prefix_append _ _).trans hrun
    cases rs with
    | nil => exact absurd hat' (hrest r' hr')
    | cons r rs =>
      obtain ⟨hr, hrs⟩ := List.forall_mem_cons.mp hfits
      rw [logBytes_cons, List.append_assoc] at hat' hrun
      have hat : r.frame <+: r.frame ++ (logBytes rs ++ rest) := List.prefix_append _ _
      obtain rfl := eq_of_frame_prefix hr' hr hat' hat
      rw [List.prefix_append_right_inj] at hrun
      exact (List.prefix_cons_inj _).mpr (ih ⟨hrs, rest, rfl, hrest⟩ hrs' hrun)

theorem Recoverable.longestRun {image : Bytes} {rs : List Record} (h : Recoverable image rs) :
    LongestRun image rs where
  fits := h.fits
  isPrefix := by
    obtain ⟨-, rest, rfl, -⟩ := h
    exact List.prefix_append _ _
  longest _ hfits' hrun := h.prefix_of_run hfits' hrun

theorem longestRun_logBytes {rs : List Record} (hfits : ∀ r ∈ rs, r.Fits) :
    LongestRun (logBytes rs) rs := (recoverable_logBytes hfits).longestRun

/-! ## Logs that were cut or have bytes behind them -/

/-- Some records are those of a log whose frames end at or before a cut. -/
structure EndBefore (cut : Nat) (valid rs : List Record) : Prop where
  isPrefix : rs <+: valid
  kept_iff : ∀ before r after, valid = before ++ r :: after →
    (before ++ [r] <+: rs ↔ (logBytes (before ++ [r])).length ≤ cut)

namespace LongestRun

variable {valid rs : List Record}

/-- A log that is cut anywhere starts with the records that lie before the cut as a whole. -/
theorem of_take {cut : Nat} (hvalid : ∀ r ∈ valid, r.Fits)
    (h : LongestRun ((logBytes valid).take cut) rs) : EndBefore cut valid rs where
  isPrefix := (longestRun_logBytes hvalid).longest rs h.fits
    (h.isPrefix.trans (List.take_prefix _ _))
  kept_iff before r after hsplit := by
    have hpart : before ++ [r] <+: valid := ⟨after, by simp [hsplit]⟩
    have hbytes : logBytes (before ++ [r]) <+: logBytes valid := logBytes_of_isPrefix hpart
    constructor
    · intro hkept
      have hle := ((logBytes_of_isPrefix hkept).trans h.isPrefix).length_le
      rw [List.length_take] at hle
      omega
    · intro hle
      apply h.longest
      · intro r' hr'
        exact hvalid r' (hpart.subset hr')
      · rw [List.prefix_take_iff]
        exact ⟨hbytes, hle⟩

/-- Bytes behind a log cost none of its records. -/
theorem of_append {extra : Bytes} (hvalid : ∀ r ∈ valid, r.Fits)
    (h : LongestRun (logBytes valid ++ extra) rs) : valid <+: rs :=
  h.longest valid hvalid (List.prefix_append _ _)

end LongestRun

end Dataflow
