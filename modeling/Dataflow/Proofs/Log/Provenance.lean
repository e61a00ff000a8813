import Dataflow.Proofs.Log.Retention

/-!
# Where the records of a log come from

A write that fails is to leave nothing. If its barrier fails, the record is cut off again; the cut
may fail as well, and then the record stays, although its write does not count. Whatever calls of
the store fail, and through all crashes, losses of power and later openings, nothing else comes to
light in a log that started empty: all that it finds, refuses to replace or replays is the record of
an acknowledged write, or one that could not be cut off.

* `Log.stranded?`: the record of a failed write that could not be cut off.
* `Log.Deposit`, `Session.deposits`: the records that calls leave behind, and whether they count.
* `Log.Accounted`: the store holds such records only, and the index knows of no other.
* `Session.ShowsOnly`: what can be seen of some records.
* `Session.start_shows`: nothing else is seen. If truncations succeed, all that is seen counts.
* `Session.start_shows_stranded`: a record that was refused, and is found all the same.
-/

namespace Dataflow

/-! ## Where an index points -/

namespace RecencyIndex

/-- Every extent in an index is that of a frame of its key. -/
def Places (x : RecencyIndex) (frames : List PlacedFrame) : Prop :=
  ∀ key extent, (x.entries.get? key).map (·.extent) = some extent →
    ∃ f ∈ frames, f.frame.key = key ∧ f.extent = extent

variable {x : RecencyIndex} {frames frames' : List PlacedFrame}

theorem Places.mono (h : x.Places frames) (hle : frames ⊆ frames') : x.Places frames' := by
  intro key extent hknown
  obtain ⟨f, hf, hfound⟩ := h key extent hknown
  exact ⟨f, hle hf, hfound⟩

theorem Places.get (h : x.Places frames) (key : Bytes) : (x.get key).2.Places frames :=
  fun key' extent hknown => h key' extent ((x.extent_get key key').symm.trans hknown)

theorem Places.insert (h : x.Places frames) {f : PlacedFrame} (hf : f ∈ frames) :
    (x.insert f.frame.key f.extent).2.Places frames := by
  intro key extent hknown
  rcases extent_of_insert hknown with ⟨rfl, rfl⟩ | hknown
  · exact ⟨f, hf, rfl, rfl⟩
  · exact h key extent hknown

end RecencyIndex

namespace Store

variable {σ : Type} {Holds : σ → Bytes → Prop}

/-- A store that keeps the laws is one that secures bytes, if nothing is asked of secured ones. -/
theorem Laws.secureLaws [Store σ] (laws : Laws Holds) : SecureLaws Holds fun _ _ => True where
  toLaws := laws
  append_secure _ _ := trivial
  flush_secure _ _ _ _ := trivial
  sync_secure _ _ _ _ := trivial
  readAt_secure _ _ _ _ _ _ _ _ := trivial
  truncate_secure _ _ _ := trivial
  sync_secures _ _ := trivial

/-- A change that leaves a first part of the bytes. -/
def Loses (Holds : σ → Bytes → Prop) (lose : σ → σ) : Prop :=
  ∀ s b, Holds s b → ∃ kept, kept <+: b ∧ Holds (lose s) kept

theorem loses_id : Loses Holds id := fun _ b hs => ⟨b, List.prefix_refl b, hs⟩

/-- A loss that spares what is secured leaves a first part of the bytes. -/
theorem Spared.loses {Secure : σ → Bytes → Prop} {lose : σ → σ} (h : Spared Holds Secure lose) :
    Loses Holds lose := by
  intro s b hs
  obtain ⟨kept, hkept, hholds, -⟩ := h s b hs
  exact ⟨kept, hkept, hholds⟩

/-- Truncations succeed. -/
def Cuts [Store σ] (Holds : σ → Bytes → Prop) : Prop :=
  ∀ s b, Holds s b → ∀ length, ∃ s', truncate s length = (.ok (), s')

end Store

namespace Log

variable {σ : Type} [Store σ] {Holds : σ → Bytes → Prop} {log log' : Log σ}
  {rs records : List Record}

/-! ## What a call leaves behind -/

/-- The record of a write whose barrier failed, if the store did not let it be cut off. -/
def uncut? (log : Log σ) (record : Record) (offset : Nat) : Option Record :=
  match log.pass (log.settings.flushPolicy.barrier record.durability log.unflushedRecords) with
  | (.ok (), _) => none
  | (.error _, log) =>
    match Store.truncate log.store offset with
    | (.ok (), _) => none
    | (.error _, _) => some record

/-- The record of a failed write that stayed in the store. -/
def stranded? (log : Log σ) : Call → Option Record
  | .write key value durability allowReplace =>
    match log.stage key value durability allowReplace with
    | (.error _, _) => none
    | (.ok (record, offset), log) => log.uncut? record offset
  | _ => none

/-- A record that a write has left in the store. -/
structure Deposit where
  record : Record
  /-- The write was acknowledged. Otherwise it failed, and the record could not be cut off. -/
  counts : Bool

/-- The records that a call leaves in the store. -/
def deposits (log : Log σ) (c : Call) : List Deposit :=
  match c.acknowledged? (log.call c).1 with
  | some record => [⟨record, true⟩]
  | none => (log.stranded? c).toList.map (⟨·, false⟩)

/-- How a write ends, and what it leaves. -/
inductive Deposited (Holds : σ → Bytes → Prop) (rs : List Record) (record : Record)
    (log log' : Log σ) : List Deposit → Except (Failure Error) SequenceNumber → Prop
  | counted (h : Counted Holds (fun _ _ => True) rs record log log') :
      Deposited Holds rs record log log' [⟨record, true⟩] (.ok record.sequence)
  | takenBack (e : Failure Error) (h : Refused Holds (fun _ _ => True) rs record log log')
      (left : Holds log'.store (Record.logBytes rs)) :
      Deposited Holds rs record log log' [] (.error e)
  | stranded (e : Failure Error) (h : Refused Holds (fun _ _ => True) rs record log log')
      (fits : record.Fits) (left : Holds log'.store (Record.logBytes (rs ++ [record])))
      (uncut : ¬ Store.Cuts Holds) :
      Deposited Holds rs record log log' [⟨record, false⟩] (.error e)

theorem Deposited.counts {record : Record} {ds : List Deposit}
    {result : Except (Failure Error) SequenceNumber}
    (h : Deposited Holds rs record log log' ds result) (cuts : Store.Cuts Holds) :
    ∀ d ∈ ds, d.counts = true := by
  cases h with
  | counted => simp
  | takenBack => simp
  | stranded _ _ _ _ huncut => exact absurd cuts huncut

/-- From its barrier on, a write leaves its record if it counts, or if the truncation fails. -/
theorem conclude_deposited (laws : Store.Laws Holds) {record : Record}
    (h : Staged Holds (fun _ _ => True) rs record log log') :
    Deposited Holds rs record log (log'.conclude record (Record.logBytes rs).length).2
      (match (log'.conclude record (Record.logBytes rs).length).1 with
        | .ok _ => [⟨record, true⟩]
        | .error _ => (log'.uncut? record (Record.logBytes rs).length).toList.map (⟨·, false⟩))
      (log'.conclude record (Record.logBytes rs).length).1 := by
  rcases conclude_cases laws.secureLaws h with
    ⟨log₁, hconclude, hcounted⟩ | ⟨e, log₁, hconclude, hrefused⟩
  · rw [hconclude]
    exact .counted hcounted
  · rw [hconclude]
    obtain ⟨s₂, hkept, ⟨unflushed, hpass, -⟩ | ⟨e', hpass⟩⟩ := pass_cases laws.secureLaws h.holds
      (log'.settings.flushPolicy.barrier record.durability log'.unflushedRecords)
    · rw [conclude, hpass] at hconclude
      cases hconclude
    · rw [conclude, hpass] at hconclude
      cases hconclude
      -- the barrier has failed, and the truncation decides whether the record stays
      rw [uncut?, hpass]
      rcases htruncate : Store.truncate s₂ (Record.logBytes rs).length with ⟨result, s₃⟩
      have hstore : ({ log' with store := s₂ }.retract (Record.logBytes rs).length).store = s₃ := by
        rw [retract, htruncate]
      dsimp only
      rw [htruncate]
      cases result with
      | ok _ =>
        have hcut := laws.truncate_ok hkept.holds htruncate
        rw [Record.logBytes_append, List.take_left] at hcut
        exact .takenBack _ hrefused (hstore ▸ hcut)
      | error e =>
        have hleft := laws.truncate_error hkept.holds htruncate
        refine .stranded _ hrefused h.fits (hstore ▸ hleft) fun hcuts => ?_
        obtain ⟨s, hok⟩ := hcuts s₂ _ hkept.holds (Record.logBytes rs).length
        rw [htruncate] at hok
        cases hok

theorem write_deposited (laws : Store.Laws Holds) (hs : Holds log.store (Record.logBytes rs))
    (hsequence : log.nextSequence.number ≤ SequenceNumber.maxNumber) (key value : Bytes)
    (durability : Durability) (allowReplace : Bool) :
    Deposited Holds rs ⟨key, value, durability, allowReplace, log.nextSequence⟩ log
      (log.write key value durability allowReplace).2
      (log.deposits (.write key value durability allowReplace))
      (log.write key value durability allowReplace).1 := by
  rw [deposits, call, stranded?, write_eq]
  rcases stage_cases laws.secureLaws hs hsequence key value durability allowReplace with
    ⟨e, log₁, hstage, hrefused, hleft⟩ | ⟨log₁, hstage, hstaged⟩
  · rw [hstage]
    exact .takenBack e hrefused hleft
  · rw [hstage]
    have hdeposited := conclude_deposited laws hstaged
    dsimp only
    generalize log₁.conclude _ _ = concluded at hdeposited ⊢
    obtain ⟨result, log₂⟩ := concluded
    cases result with
    | ok sequence =>
      cases hdeposited with
      | counted hcounted => exact .counted hcounted
    | error e => exact hdeposited

/-- A write that fails leaves no record, neither in the store nor in the index, if truncations
succeed. -/
theorem write_error (laws : Store.Laws Holds) (cuts : Store.Cuts Holds)
    (hs : Holds log.store (Record.logBytes rs))
    (hsequence : log.nextSequence.number ≤ SequenceNumber.maxNumber) {key value : Bytes}
    {durability : Durability} {allowReplace : Bool} {failure : Failure Error}
    (hwrite : log.write key value durability allowReplace = (.error failure, log')) :
    Holds log'.store (Record.logBytes rs) ∧ log'.index = log.index := by
  have hdeposited := write_deposited laws hs hsequence key value durability allowReplace
  rw [hwrite] at hdeposited
  generalize log.deposits _ = ds at hdeposited
  cases hdeposited with
  | takenBack _ hrefused hleft => exact ⟨hleft, hrefused.index_eq⟩
  | stranded _ _ _ _ huncut => exact absurd cuts huncut

/-! ## Records that are accounted for -/

/-- A store holds the frames of some records, and the index points at these frames only. -/
structure Accounted (Holds : σ → Bytes → Prop) (log : Log σ) (rs : List Record) : Prop where
  holds : Holds log.store (Record.logBytes rs)
  fits : ∀ r ∈ rs, r.Fits
  sequence_fits : log.nextSequence.number ≤ SequenceNumber.maxNumber
  places : log.index.Places (PlacedFrame.layout 0 rs)

namespace Accounted

omit [Store σ] in
theorem of_undisturbed (h : log.Accounted Holds rs)
    (hlog : log.Undisturbed (fun s => Holds s (Record.logBytes rs)) log')
    (hplaces : log'.index.Places (PlacedFrame.layout 0 rs)) : log'.Accounted Holds rs where
  holds := hlog.store h.holds
  fits := h.fits
  sequence_fits := hlog.sequence_eq ▸ h.sequence_fits
  places := hplaces

theorem find_accounted (laws : Store.ReadLaws Holds) (h : log.Accounted Holds rs) (key : Bytes) :
    (log.find key).2.Accounted Holds rs := by
  refine h.of_undisturbed (find_undisturbed (laws.readAt_keeps _) log key) ?_
  rcases log.index_find key with hsame | hget
  · exact hsame ▸ h.places
  · exact hget ▸ h.places.get key

/-- What is found of a key is a frame of it. -/
theorem find (laws : Store.ReadLaws Holds) (h : log.Accounted Holds rs) {key : Bytes}
    {extent : Extent} (hfind : (log.find key).1 = .ok (some extent)) :
    ∃ f ∈ PlacedFrame.layout 0 rs, f.frame.key = key ∧ f.extent = extent := by
  rcases find_found hfind with hknown | hscan
  · exact h.places key extent hknown
  · have hcounted : { log with scans := log.scans + 1 }.Accounted Holds rs := { h with }
    exact scan_found laws hcounted.holds hcounted.fits hscan

theorem lookup (laws : Store.ReadLaws Holds) (h : log.Accounted Holds rs) (key : Bytes) :
    (log.lookup key).2.Accounted Holds rs := by
  refine h.of_undisturbed (lookup_undisturbed (laws.readAt_keeps _) log key) ?_
  have hcounted : { log with lookups := log.lookups + 1 }.Accounted Holds rs := { h with }
  have hplaces := (hcounted.find_accounted laws key).places
  rcases log.index_lookup key with hsame | ⟨log₁, result, hfind, hsame | ⟨extent, rfl, hinsert⟩⟩
  · rw [hsame]
    exact h.places
  · rw [hfind] at hplaces
    rw [hsame]
    exact hplaces
  · obtain ⟨f, hf, rfl, rfl⟩ := hcounted.find laws (congrArg Prod.fst hfind)
    rw [hfind] at hplaces
    rw [hinsert]
    exact hplaces.insert hf

theorem contains (laws : Store.ReadLaws Holds) (h : log.Accounted Holds rs) (key : Bytes) :
    (log.contains key).2.Accounted Holds rs := by
  have hfound := h.find_accounted laws key
  unfold Log.contains
  split
  · exact h
  · split <;> rename_i hfind <;> rw [hfind] at hfound <;> exact hfound

/-- Whatever a write leaves is accounted for afterwards. -/
theorem deposited {record : Record} {ds : List Deposit}
    {result : Except (Failure Error) SequenceNumber} (h : log.Accounted Holds rs)
    (hdeposited : Deposited Holds rs record log log' ds result) :
    log'.Accounted Holds (rs ++ ds.map (·.record)) := by
  have hle : PlacedFrame.layout 0 rs ⊆ PlacedFrame.layout 0 (rs ++ [record]) := by
    rw [PlacedFrame.layout_concat]
    exact List.subset_append_left _ _
  have hfits (hrecord : record.Fits) : ∀ r ∈ rs ++ [record], r.Fits :=
    List.forall_mem_append.mpr ⟨h.fits, List.forall_mem_singleton.mpr hrecord⟩
  cases hdeposited with
  | counted hcounted =>
    refine ⟨hcounted.holds, hfits hcounted.fits, ?_, ?_⟩
    · rw [hcounted.sequence_eq]
      exact next_fits _
    · have hlast : (⟨(Record.logBytes rs).length, record.asFrame⟩ : PlacedFrame) ∈
          PlacedFrame.layout 0 (rs ++ [record]) := by
        rw [PlacedFrame.layout_concat]
        exact List.mem_append_right _ (List.mem_singleton_self _)
      -- the index learns of the new frame; the frames that it knew stand where they stood
      have hplaces := (h.places.mono hle).insert hlast
      rw [hcounted.index_eq]
      rw [record.extent_asFrame] at hplaces
      rwa [record.key_asFrame] at hplaces
  | takenBack e hrefused hleft =>
    rw [List.map_nil, List.append_nil]
    exact ⟨hleft, h.fits, hrefused.sequence_fits h.sequence_fits, hrefused.index_eq ▸ h.places⟩
  | stranded e hrefused hrecord hleft =>
    exact ⟨hleft, hfits hrecord, hrefused.sequence_fits h.sequence_fits,
      hrefused.index_eq ▸ h.places.mono hle⟩

/-- A call accounts for the records that it leaves. -/
theorem call (laws : Store.Laws Holds) (h : log.Accounted Holds rs) (c : Call) :
    (log.call c).2.Accounted Holds (rs ++ (log.deposits c).map (·.record)) := by
  have of_none (hnone : log.deposits c = []) (h' : (log.call c).2.Accounted Holds rs) :
      (log.call c).2.Accounted Holds (rs ++ (log.deposits c).map (·.record)) := by
    rw [hnone, List.map_nil, List.append_nil]
    exact h'
  by_cases hbarrier : c = .flush ∨ c = .sync
  · apply of_none
    · rcases hbarrier with rfl | rfl <;> rfl
    · obtain ⟨s', hkept, hsame | ⟨hemptied, -⟩⟩ :=
        barrier_call_cases laws.secureLaws h.holds hbarrier
      · rw [hsame]
        exact { h with holds := hkept.holds }
      · rw [hemptied]
        exact { h with holds := hkept.holds }
  cases c with
  | write key value durability allowReplace =>
    exact h.deposited (write_deposited laws h.holds h.sequence_fits key value durability
      allowReplace)
  | lookup key => exact of_none rfl (h.lookup laws.toReadLaws key)
  | contains key => exact of_none rfl (h.contains laws.toReadLaws key)
  | flush | sync => simp at hbarrier

/-! ## What is seen of them -/

omit [Store σ] in
/-- Where a frame of a key stands, there is a record of the key. -/
theorem exists_record {f : PlacedFrame} (hf : f ∈ PlacedFrame.layout 0 rs) :
    ∃ r ∈ rs, r.key = f.frame.key := by
  obtain ⟨before, r, after, hsplit, rfl⟩ := PlacedFrame.mem_layout hf
  exact ⟨r, by simp [hsplit], r.key_asFrame.symm⟩

/-- A value that is read at a frame is that of its record. -/
theorem valueAt (laws : Store.ReadLaws Holds) (h : log.Accounted Holds rs) {f : PlacedFrame}
    (hf : f ∈ PlacedFrame.layout 0 rs) {value : Bytes}
    (hvalue : (log.valueAt f.extent).1 = .ok value) :
    ∃ r ∈ rs, r.key = f.frame.key ∧ r.value = value := by
  obtain ⟨before, r, after, hsplit, rfl⟩ := PlacedFrame.mem_layout hf
  have hr : r ∈ rs := by simp [hsplit]
  have hat : r.frame <+: (Record.logBytes rs).drop (Record.logBytes before).length := by
    rw [hsplit, Record.logBytes_append, Record.logBytes_cons, List.drop_left]
    exact List.prefix_append _ _
  refine ⟨r, hr, r.key_asFrame.symm, ?_⟩
  unfold Log.valueAt at hvalue
  rw [r.extent_asFrame] at hvalue
  split at hvalue
  · cases hvalue
  · rename_i found s hread
    cases hvalue
    obtain ⟨hfits, -, hfound, -⟩ := Frame.read_ok laws h.holds hread
    rw [Record.eq_of_frame_prefix (h.fits r hr) hfits hat hfound]
    rfl

theorem lookup_shows (laws : Store.ReadLaws Holds) (h : log.Accounted Holds rs)
    {key value : Bytes} (hlookup : (log.lookup key).1 = .ok value) :
    ∃ r ∈ rs, r.key = key ∧ r.value = value := by
  have hcounted : { log with lookups := log.lookups + 1 }.Accounted Holds rs := { h with }
  unfold Log.lookup at hlookup
  dsimp only at hlookup
  split at hlookup
  · cases hlookup
  · split at hlookup
    · cases hlookup
    · cases hlookup
    · rename_i extent log₁ hfind
      obtain ⟨f, hf, rfl, rfl⟩ := hcounted.find laws (congrArg Prod.fst hfind)
      have h₁ := hcounted.find_accounted laws f.frame.key
      rw [hfind] at h₁
      refine h₁.valueAt laws hf ?_
      split at hlookup
      · cases hlookup
      · rename_i hvalue
        split at hlookup <;> cases hlookup <;> rw [hvalue]

theorem contains_shows (laws : Store.ReadLaws Holds) (h : log.Accounted Holds rs) {key : Bytes}
    (hcontains : (log.contains key).1 = .ok true) : ∃ r ∈ rs, r.key = key := by
  unfold Log.contains at hcontains
  split at hcontains
  · cases hcontains
  · split at hcontains
    · cases hcontains
    · rename_i found log₁ hfind
      obtain ⟨extent, rfl⟩ : ∃ extent, found = some extent :=
        Option.isSome_iff_exists.mp (Except.ok.inj hcontains)
      obtain ⟨f, hf, rfl, -⟩ := h.find laws (congrArg Prod.fst hfind)
      exact exists_record hf

theorem hasKey_shows (laws : Store.ReadLaws Holds) (h : log.Accounted Holds rs) {key : Bytes}
    (hkey : (log.hasKey key).1 = .ok true) : ∃ r ∈ rs, r.key = key := by
  unfold hasKey at hkey
  split at hkey
  · rename_i hindexed
    rw [contains_index, ← Option.isSome_map (f := fun e : IndexEntry => e.extent)] at hindexed
    obtain ⟨extent, hknown⟩ := Option.isSome_iff_exists.mp hindexed
    obtain ⟨f, hf, rfl, -⟩ := h.places key extent hknown
    exact exists_record hf
  · split at hkey
    · split at hkey
      · cases hkey
      · rename_i found log₁ hscan
        obtain ⟨extent, rfl⟩ : ∃ extent, found = some extent :=
          Option.isSome_iff_exists.mp (Except.ok.inj hkey)
        obtain ⟨f, hf, rfl, -⟩ := scan_found laws h.holds h.fits (congrArg Prod.fst hscan)
        exact exists_record hf
    · cases hkey

end Accounted

/-! ## Double writes -/

theorem hasKey_error {key : Bytes} {e : Error} (h : (log.hasKey key).1 = .error e)
    (subject : Subject) : e ≠ .doubleWrite subject := by
  unfold hasKey at h
  split at h
  · cases h
  · split at h
    · unfold scan at h
      split at h
      · rename_i hscan
        split at hscan
        · cases hscan
        · rename_i fault _ _
          cases hscan
          cases h
          cases fault <;> exact nofun
      · cases h
    · cases h

theorem pass_error {barrier : Barrier} {e : Error} (h : (log.pass barrier).1 = .error e)
    (subject : Subject) : e ≠ .doubleWrite subject := by
  cases barrier with
  | none => cases h
  | flush =>
    rw [pass, flushStore] at h
    split at h <;> cases h
    exact nofun
  | sync =>
    rw [pass, syncStore] at h
    split at h <;> cases h
    exact nofun

theorem permit_doubleWrite {key : Bytes} {allowReplace : Bool} {subject : Subject}
    (h : (log.permit key allowReplace).1 = .error (.doubleWrite subject)) :
    (log.hasKey key).1 = .ok true := by
  unfold permit at h
  split at h
  · cases h
  · split at h
    · rename_i hkey
      cases h
      exact absurd rfl (hasKey_error (congrArg Prod.fst hkey) subject)
    · rename_i hkey
      rw [hkey]
    · cases h

theorem commit_error {record : Record} {frame : Bytes} {e : Error}
    (h : (log.commit record frame).1 = .error (.reported e)) (subject : Subject) :
    e ≠ .doubleWrite subject := by
  unfold commit at h
  split at h
  · cases h
  · cases h
    exact nofun
  · dsimp only at h
    split at h
    · rename_i hpass
      cases h
      exact pass_error (congrArg Prod.fst hpass) subject
    · cases h

/-- A write is a double write only if the log has the key. -/
theorem hasKey_of_doubleWrite {key value : Bytes} {durability : Durability} {allowReplace : Bool}
    {subject : Subject} (hwrite : (log.write key value durability allowReplace).1 =
      .error (.reported (.doubleWrite subject))) : (log.hasKey key).1 = .ok true := by
  unfold write at hwrite
  split at hwrite
  · cases hwrite
  · split at hwrite
    · rename_i hpermit
      cases hwrite
      exact permit_doubleWrite (congrArg Prod.fst hpermit)
    · dsimp only at hwrite
      split at hwrite
      · rename_i hencode
        cases hwrite
        unfold Record.encode at hencode
        split at hencode
        · cases hencode
        · split at hencode <;> cases hencode
      · exact absurd rfl (commit_error hwrite subject)

/-! ## What remains of them -/

/-- A store holds a first part of the bytes of some of the records. -/
def Remains (Holds : σ → Bytes → Prop) (records : List Record) (s : σ) : Prop :=
  ∃ rs image, rs.Sublist records ∧ (∀ r ∈ rs, r.Fits) ∧ image <+: Record.logBytes rs ∧
    Holds s image

namespace Remains

variable {s : σ}

omit [Store σ] in
theorem lose (h : Remains Holds records s) {lose : σ → σ} (hlose : Store.Loses Holds lose) :
    Remains Holds records (lose s) := by
  obtain ⟨rs, image, hrs, hfits, himage, hs⟩ := h
  obtain ⟨kept, hkept, hholds⟩ := hlose s image hs
  exact ⟨rs, kept, hrs, hfits, hkept.trans himage, hholds⟩

omit [Store σ] in
theorem mono {records' : List Record} (h : Remains Holds records s)
    (hle : records.Sublist records') : Remains Holds records' s := by
  obtain ⟨rs, image, hrs, rest⟩ := h
  exact ⟨rs, image, hrs.trans hle, rest⟩

/-- An opened log replays some of the records and nothing else. -/
theorem «open» (laws : Store.Laws Holds) (h : Remains Holds records s) {settings : LogSettings}
    (hopen : Log.open settings s = .ok log) :
    ∃ rs, rs.Sublist records ∧ log.Accounted Holds rs ∧
      log = ofFrames settings (PlacedFrame.layout 0 rs) log.bytesTruncated log.store := by
  obtain ⟨rs, image, hrs, hfits, himage, hs⟩ := h
  obtain ⟨kept, hrecovered⟩ := open_recovered laws hs hopen
  obtain ⟨-, hsettings, -⟩ := open_cases hopen
  have hkept : kept <+: rs :=
    (recoverable_logBytes hfits).prefix_of_run hrecovered.longestRun.fits
      (hrecovered.longestRun.isPrefix.trans himage)
  have hreplays := hrecovered.replays
  rw [hsettings] at hreplays
  refine ⟨kept, hkept.sublist.trans hrs, ?_, hreplays⟩
  constructor
  case holds => exact hrecovered.holds
  case fits => exact hrecovered.longestRun.fits
  case sequence_fits =>
    rw [hreplays]
    exact next_fits _
  case places =>
    rw [hreplays]
    exact fun key extent => (follows_replay _).known

theorem refused (laws : Store.Laws Holds) (h : Remains Holds records s) {settings : LogSettings}
    {e : Error} {s' : σ} (hopen : Log.open settings s = .error (e, s')) :
    Remains Holds records s' := by
  obtain ⟨rs, image, hrs, hfits, himage, hs⟩ := h
  exact ⟨rs, image, hrs, hfits, himage, open_refused laws hs hopen⟩

end Remains

end Log

/-! ## Sessions -/

namespace Session

open Log

variable {σ : Type} {Holds : σ → Bytes → Prop} {session : Session σ} {records : List Record}

/-- All records in the store are accounted for, whether or not a log is open on it. -/
def Accounted (Holds : σ → Bytes → Prop) (records : List Record) : Session σ → Prop
  | opened log => ∃ rs, rs.Sublist records ∧ log.Accounted Holds rs
  | closed _ s => Remains Holds records s

theorem Accounted.remains (h : session.Accounted Holds records) :
    Remains Holds records session.store := by
  cases session with
  | opened log =>
    obtain ⟨rs, hrs, h⟩ := h
    exact ⟨rs, _, hrs, h.fits, List.prefix_refl _, h.holds⟩
  | closed settings s => exact h

variable [Store σ]

/-- The records that a turn leaves in the store; an opening leaves none. -/
def deposit : Session σ → Turn σ → List Deposit
  | opened log, .call c => log.deposits c
  | _, _ => []

/-- The records that some turns leave in the store, in order. -/
def deposits (session : Session σ) : List (Turn σ) → List Deposit
  | [] => []
  | turn :: turns => session.deposit turn ++ (session.turn turn).deposits turns

/-- A turn takes a first part of the bytes at most. -/
def Turn.Loses (Holds : σ → Bytes → Prop) : Turn σ → Prop
  | .call _ => True
  | .restart lose _ => Store.Loses Holds lose

theorem accounted_start (laws : Store.Laws Holds) {s : σ} (h : Remains Holds records s)
    (settings : LogSettings) : (start settings s).2.Accounted Holds records := by
  unfold start
  split
  · rename_i hopen
    exact h.refused laws hopen
  · rename_i hopen
    obtain ⟨rs, hrs, haccounted, -⟩ := h.open laws hopen
    exact ⟨rs, hrs, haccounted⟩

/-- A turn accounts for the records that it leaves. -/
theorem Accounted.turn (laws : Store.Laws Holds) (h : session.Accounted Holds records)
    {turn : Turn σ} (hturn : turn.Loses Holds) :
    (session.turn turn).Accounted Holds (records ++ (session.deposit turn).map (·.record)) := by
  cases turn with
  | call c =>
    cases session with
    | opened log =>
      obtain ⟨rs, hrs, haccounted⟩ := h
      exact ⟨_, hrs.append (List.Sublist.refl _), haccounted.call laws c⟩
    | closed settings s =>
      have h : Remains Holds records s := h
      exact h.mono (List.sublist_append_left _ _)
  | restart lose settings =>
    have hnone : session.deposit (.restart lose settings) = [] := by cases session <;> rfl
    rw [hnone, List.map_nil, List.append_nil]
    have hremains := h.remains
    cases session with
    | opened log =>
      rw [Session.turn, restart, release, Log.release]
      -- a poisoned log is given up, and nothing happens to its store
      by_cases hpoisoned : log.poisoned = true
      · rw [if_pos hpoisoned]
        exact hremains
      · rw [if_neg hpoisoned]
        exact accounted_start laws (hremains.lose hturn) settings
    | closed settings' s => exact accounted_start laws (hremains.lose hturn) settings

theorem Accounted.afterTurns (laws : Store.Laws Holds) {turns : List (Turn σ)}
    (h : session.Accounted Holds records) (hturns : ∀ turn ∈ turns, turn.Loses Holds) :
    (session.afterTurns turns).Accounted Holds
      (records ++ (session.deposits turns).map (·.record)) := by
  induction turns generalizing session records with
  | nil =>
    rw [deposits, List.map_nil, List.append_nil]
    exact h
  | cons turn turns ih =>
    obtain ⟨hturn, hturns⟩ := List.forall_mem_cons.mp hturns
    rw [deposits, List.map_append, ← List.append_assoc]
    exact ih (h.turn laws hturn) hturns

/-! ## What is seen -/

/-- What is found in a log, what it refuses to replace and what is replayed later is among some
records. The store may lose a last part of its bytes before it is opened again. -/
structure ShowsOnly (Holds : σ → Bytes → Prop) (records : List Record) (session : Session σ) :
    Prop where
  lookup {key value : Bytes} :
    (session.call (.lookup key)).1 = .value (.ok value) →
      ∃ r ∈ records, r.key = key ∧ r.value = value
  contains {key : Bytes} :
    (session.call (.contains key)).1 = .membership (.ok true) → ∃ r ∈ records, r.key = key
  write {key value : Bytes} {durability : Durability} {allowReplace : Bool} {subject : Subject} :
    (session.call (.write key value durability allowReplace)).1 =
      .written (.error (.reported (.doubleWrite subject))) → ∃ r ∈ records, r.key = key
  replay {lose : σ → σ} {settings : LogSettings} {log : Log σ} :
    Store.Loses Holds lose → Log.open settings (lose session.store) = .ok log →
      ∃ rs, rs.Sublist records ∧
        log = ofFrames settings (PlacedFrame.layout 0 rs) log.bytesTruncated log.store

theorem Accounted.showsOnly (laws : Store.Laws Holds) (h : session.Accounted Holds records) :
    session.ShowsOnly Holds records where
  lookup {key value} hlookup := by
    cases session with
    | closed settings s => cases hlookup
    | opened log =>
      obtain ⟨rs, hrs, h⟩ := h
      obtain ⟨r, hr, hshown⟩ := h.lookup_shows laws.toReadLaws (Log.Answer.value.inj hlookup)
      exact ⟨r, hrs.subset hr, hshown⟩
  contains {key} hcontains := by
    cases session with
    | closed settings s => cases hcontains
    | opened log =>
      obtain ⟨rs, hrs, h⟩ := h
      obtain ⟨r, hr, hshown⟩ :=
        h.contains_shows laws.toReadLaws (Log.Answer.membership.inj hcontains)
      exact ⟨r, hrs.subset hr, hshown⟩
  write {key value durability allowReplace subject} hwrite := by
    cases session with
    | closed settings s => cases hwrite
    | opened log =>
      obtain ⟨rs, hrs, h⟩ := h
      have hkey := hasKey_of_doubleWrite (Log.Answer.written.inj hwrite)
      obtain ⟨r, hr, hshown⟩ := h.hasKey_shows laws.toReadLaws hkey
      exact ⟨r, hrs.subset hr, hshown⟩
  replay hlose hopen := by
    obtain ⟨rs, hrs, -, hreplays⟩ := (h.remains.lose hlose).open laws hopen
    exact ⟨rs, hrs, hreplays⟩

/-- If truncations succeed, every record that is left counts. -/
theorem Accounted.counts (laws : Store.Laws Holds) (cuts : Store.Cuts Holds)
    (h : session.Accounted Holds records) (turn : Turn σ) :
    ∀ d ∈ session.deposit turn, d.counts = true := by
  cases session with
  | closed settings s => exact nofun
  | opened log =>
    obtain ⟨rs, -, h⟩ := h
    cases turn with
    | restart lose settings => exact nofun
    | call c =>
      cases c with
      | write key value durability allowReplace =>
        exact (write_deposited laws h.holds h.sequence_fits key value durability
          allowReplace).counts cuts
      | lookup key | contains key | flush | sync => exact nofun

theorem Accounted.counts_afterTurns (laws : Store.Laws Holds) (cuts : Store.Cuts Holds)
    {turns : List (Turn σ)} (h : session.Accounted Holds records)
    (hturns : ∀ turn ∈ turns, turn.Loses Holds) :
    ∀ d ∈ session.deposits turns, d.counts = true := by
  induction turns generalizing session records with
  | nil => exact nofun
  | cons turn turns ih =>
    obtain ⟨hturn, hturns⟩ := List.forall_mem_cons.mp hturns
    exact List.forall_mem_append.mpr
      ⟨h.counts laws cuts turn, ih (h.turn laws hturn) hturns⟩

/-- A log on a store that is empty at first shows the records of acknowledged writes and those that
could not be cut off, and no others, whichever calls of the store fail. If truncations succeed, all
that it shows counts. -/
theorem start_shows (laws : Store.Laws Holds) {s : σ} (hs : Holds s []) (settings : LogSettings)
    {turns : List (Turn σ)} (hturns : ∀ turn ∈ turns, turn.Loses Holds) :
    ((start settings s).2.afterTurns turns).ShowsOnly Holds
        (((start settings s).2.deposits turns).map (·.record)) ∧
      (Store.Cuts Holds → ∀ d ∈ (start settings s).2.deposits turns, d.counts = true) := by
  have hempty : Remains Holds [] s :=
    ⟨[], [], List.Sublist.refl _, nofun, List.prefix_refl _, hs⟩
  have haccounted := accounted_start laws hempty settings
  constructor
  · have hafter := haccounted.afterTurns laws hturns
    rw [List.nil_append] at hafter
    exact hafter.showsOnly laws
  · exact fun cuts => haccounted.counts_afterTurns laws cuts hturns

/-- Every sync fails until a crash. -/
theorem start_shows_crash :
    let s : MemoryStore := { MemoryStore.ofBytes [] with failSync := true }
    let turns : List (Turn MemoryStore) :=
      [.call (.write [1] [10] .transient true), .call (.write [2] [20] .persist true),
        .call .flush, .restart MemoryStore.crash { maxIndexEntries := 1 },
        .call (.write [3] [30] .persist false), .restart id {}, .call (.lookup [1])]
    s.Holds [] ∧ Store.Laws MemoryStore.Holds ∧ Store.Cuts MemoryStore.Holds ∧
      (∀ turn ∈ turns, turn.Loses MemoryStore.Holds) ∧
      ((start {} s).2.deposits turns).map (·.record.key) = [[1], [3]] ∧
      ((start {} s).2.afterTurns turns).ShowsOnly MemoryStore.Holds
        (((start {} s).2.deposits turns).map (·.record)) ∧
      ∀ d ∈ (start {} s).2.deposits turns, d.counts = true := by
  intro s turns
  have hs : s.Holds [] := rfl
  have laws : Store.Laws MemoryStore.Holds := MemoryStore.reliable.toLaws
  have cuts : Store.Cuts MemoryStore.Holds := fun _ _ hs length =>
    MemoryStore.reliable.truncate_reliable hs length
  have hturns : ∀ turn ∈ turns, turn.Loses MemoryStore.Holds := by
    simp [turns, Turn.Loses, MemoryStore.spared_crash.loses, Store.loses_id]
  obtain ⟨hshows, hcounts⟩ := start_shows laws hs {} hturns
  exact ⟨hs, laws, cuts, hturns, by decide +kernel, hshows, hcounts cuts⟩

/-- A sync fails, and then the record cannot be cut off. Its write is refused, and yet the key is
found, it may not be written again, and its value is given, before and after an opening. -/
theorem start_shows_stranded :
    let mishap (n : Nat) : Option Mishap :=
      if n = 3 then some (.atOnce (.injected .sync))
      else if n = 4 then some (.atOnce (.injected .truncate)) else none
    let s : ErraticStore MemoryStore := ⟨.ofBytes [], mishap, 0⟩
    let settings : LogSettings := { maxIndexEntries := 1 }
    let steps : List (Step (ErraticStore MemoryStore)) :=
      [.call (.write [1] [10] .transient true), .call (.write [2] [20] .transient true),
        .call (.write [3] [30] .persist true), .call (.contains [3]),
        .call (.write [3] [31] .transient false), .call (.lookup [3]), .reopen settings,
        .call (.lookup [3])]
    (start settings s).2.answers steps =
      [.written (.ok ⟨1⟩), .written (.ok ⟨2⟩),
        .written (.error (.reported (.io .syncRecord (.injected .sync)))), .membership (.ok true),
        .written (.error (.reported (.doubleWrite (.logKey [3])))), .value (.ok [30]),
        .done (.ok ()), .value (.ok [30])] := by
  decide +kernel

end Session

end Dataflow
