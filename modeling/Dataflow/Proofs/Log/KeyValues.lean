import Dataflow.Log.Session
import Dataflow.Proofs.Log.Writing

/-!
# A log is a map from keys to values

Whatever is asked of a log, and however often it is opened anew, it answers as a plain map does
that starts with the last value of each key of the replayed records. The bound of the index, and
with it what was evicted, scanned for and put back, does not show.

* `Log.Call`, `Log.call`: what callers ask, and the answer.
* `Session.Step`, `Session.answers`: a history of calls, of restarts with new settings, and of
  disturbances of the store such as a switch that makes its calls fail.
* `KeyValues.Explains`: the answers that a map may give.
* `Session.start_explains`: those of a log are among them.
-/

namespace Dataflow

/-! ## Calls -/

namespace Log

/-- What callers ask of a log. -/
inductive Call
  | write (key value : Bytes) (durability : Durability) (allowReplace : Bool)
  | lookup (key : Bytes)
  | contains (key : Bytes)
  | flush
  | sync

/-- What they are answered. -/
inductive Answer
  | written (result : Except (Failure Error) SequenceNumber)
  | value (result : Except Error Bytes)
  | membership (result : Except Error Bool)
  | done (result : Except Error Unit)
  /-- No log is open. -/
  | closed

variable {σ : Type} [Store σ]

/-- Answer a call. -/
def call (log : Log σ) : Call → Answer × Log σ
  | .write key value durability allowReplace =>
    let (result, log) := log.write key value durability allowReplace
    (.written result, log)
  | .lookup key =>
    let (result, log) := log.lookup key
    (.value result, log)
  | .contains key =>
    let (result, log) := log.contains key
    (.membership result, log)
  | .flush =>
    let (result, log) := log.flush
    (.done result, log)
  | .sync =>
    let (result, log) := log.sync
    (.done result, log)

end Log

namespace Session

variable {σ : Type} [Store σ]

/-- Answer a call, if a log is open. -/
def call (session : Session σ) (c : Log.Call) : Log.Answer × Session σ :=
  match session with
  | opened log =>
    let (answer, log) := log.call c
    (answer, opened log)
  | closed settings s => (.closed, closed settings s)

/-- What happens to a session. -/
inductive Step (σ : Type)
  | call (c : Log.Call)
  /-- Give up the log without flushing it and open it again. -/
  | reopen (settings : LogSettings)
  /-- Something happens to the store. -/
  | disturb (change : σ → σ)

/-- Take a step. -/
def step (session : Session σ) : Step σ → Log.Answer × Session σ
  | .call c => session.call c
  | .reopen settings =>
    let (result, session) := session.restart id (some settings)
    (.done result, session)
  | .disturb change => (.done (.ok ()), session.mapStore change)

/-- The answers to a history of steps. -/
def answers (session : Session σ) : List (Step σ) → List Log.Answer
  | [] => []
  | s :: rest =>
    let (answer, session) := session.step s
    answer :: session.answers rest

/-- A restart has settings that a log accepts, and a disturbance leaves the store in order and its
bytes alone. -/
def Step.Admissible (Holds : σ → Bytes → Prop) : Step σ → Prop
  | .call _ => True
  | .reopen settings => settings.validate = .ok ()
  | .disturb change => ∀ s b, Holds s b → Holds (change s) b

end Session

/-! ## The answers of a map -/

namespace KeyValues

variable {σ : Type} [Store σ]

/-- Why the write of a value may fail, other than for a key that is there already. -/
inductive WriteFailure (Holds : σ → Bytes → Prop) (key value : Bytes) : Error → Prop
  | keyTooLong (h : fieldLimit < key.length) :
    WriteFailure Holds key value (.command (.keyTooLong key.length))
  | valueTooLong (h : fieldLimit < value.length) :
    WriteFailure Holds key value (.command (.valueTooLong value.length))
  | store (operation : Operation) (source : IoError) (h : Store.Fails Holds source) :
    WriteFailure Holds key value (.io operation source)

/-- A map may give this answer. A write that must not replace anything is refused if the key is
there; any other write succeeds unless its fields are too long or the store fails. -/
def Allows (Holds : σ → Bytes → Prop) (m : KeyValues) : Session.Step σ → Log.Answer → Prop
  | .call (.write key value _ allowReplace), .written result =>
    if allowReplace = false ∧ (m key).isSome then
      result = .error (.reported (.doubleWrite (.logKey key)))
    else
      ∀ failure, result = .error failure → ∃ e, failure = .reported e ∧ WriteFailure Holds key value e
  | .call (.lookup key), .value result =>
    result = match m key with
      | some value => .ok value
      | none => .error (.notFound (.logKey key))
  | .call (.contains key), .membership result => result = .ok (m key).isSome
  | .call .flush, .done _ => True
  | .call .sync, .done _ => True
  | .reopen _, .done result => result = .ok ()
  | .disturb _, .done result => result = .ok ()
  | _, _ => False

/-- The map after a step. Only a write that succeeds changes it. -/
def after (m : KeyValues) : Session.Step σ → Log.Answer → KeyValues
  | .call (.write key value _ _), .written (.ok _) => m.set key value
  | _, _ => m

/-- A map may give these answers to a history of steps. -/
def Explains (Holds : σ → Bytes → Prop) (m : KeyValues) :
    List (Session.Step σ) → List Log.Answer → Prop
  | [], [] => True
  | s :: steps, answer :: answers =>
    m.Allows Holds s answer ∧ (m.after s answer).Explains Holds steps answers
  | _, _ => False

end KeyValues

/-! ## Sound logs answer as maps -/

namespace Log

variable {σ : Type} [Store σ] {Holds : σ → Bytes → Prop} {log : Log σ} {rs : List Record}

/-- A log that a step leaves is sound, and its contents are the map after the step. -/
structure Answered (Holds : σ → Bytes → Prop) (rs : List Record) (s : Session.Step σ)
    (answer : Answer) (log' : Log σ) (rs' : List Record) : Prop where
  sound : log'.Sound Holds rs'
  allowed : (Record.contents rs).Allows Holds s answer
  contents_eq : Record.contents rs' = (Record.contents rs).after s answer

theorem encode_error {key value : Bytes} {r : Record} {e : Error} (hkey : r.key = key)
    (hvalue : r.value = value) (h : r.encode = .error e) :
    KeyValues.WriteFailure Holds key value e := by
  subst hkey hvalue
  unfold Record.encode at h
  split at h
  · rename_i hlong
    cases h
    exact .keyTooLong hlong
  · split at h
    · rename_i hlong
      cases h
      exact .valueTooLong hlong
    · cases h

omit [Store σ] in
/-- A log that has given out a sequence number stays sound. -/
theorem Sound.advance (h : log.Sound Holds rs) :
    ({ log with nextSequence := log.nextSequence.next } : Log σ).Sound Holds rs :=
  { h with
    sequence_fits := next_fits _
    sequence_le := fun r hr => Nat.le_trans (h.sequence_le r hr) (le_next h.sequence_fits) }

theorem write_sound (reliable : Store.Reliable Holds) (h : log.Sound Holds rs)
    (key value : Bytes) (durability : Durability) (allowReplace : Bool) :
    ∃ result log' rs', log.write key value durability allowReplace = (result, log') ∧
      Answered Holds rs (.call (.write key value durability allowReplace)) (.written result)
        log' rs' := by
  obtain ⟨s₁, hpermit, hs₁⟩ := permit_sound reliable.toReadable h key allowReplace
  have h₁ := h.setStore hs₁
  unfold write
  rw [if_neg (by simp [h.unpoisoned]), hpermit]
  by_cases hpresent : allowReplace = false ∧ (Record.contents rs key).isSome
  · rw [if_pos hpresent]
    exact ⟨_, _, rs, rfl, h₁, by rw [KeyValues.Allows, if_pos hpresent], rfl⟩
  · rw [if_neg hpresent]
    dsimp only
    generalize hrecord : Record.mk key value durability allowReplace log.nextSequence = record
    cases hencode : record.encode with
    | error e =>
      have hfailure : KeyValues.WriteFailure Holds key value e :=
        encode_error (by rw [← hrecord]) (by rw [← hrecord]) hencode
      refine ⟨_, _, rs, rfl, h₁, ?_, rfl⟩
      rw [KeyValues.Allows, if_neg hpresent]
      intro failure hresult
      cases hresult
      exact ⟨e, rfl, hfailure⟩
    | ok frame =>
      obtain ⟨hkey, hvalue, rfl⟩ := Record.encode_eq_ok_iff.mp hencode
      have hsequence : record.sequence = log.nextSequence := by rw [← hrecord]
      have hfits : record.Fits := ⟨hkey, hvalue, hsequence ▸ h.sequence_fits⟩
      have hnext : log.nextSequence.number ≤ log.nextSequence.next.number :=
        le_next h.sequence_fits
      have h₂ := h₁.advance
      rcases commit_stored reliable h₂.toStored hfits with
        ⟨log', hcommit, hcommitted⟩ | ⟨operation, source, log', hcommit, htaken, hfails⟩
      · refine ⟨_, log', rs ++ [record], hcommit,
          hcommitted.sound h₂ (hsequence ▸ h.sequence_le) (hsequence ▸ hnext), ?_, ?_⟩
        · rw [KeyValues.Allows, if_neg hpresent]
          intro failure hresult
          cases hresult
        · rw [Record.contents_append, ← hrecord]
          rfl
      · refine ⟨_, log', rs, hcommit, htaken.sound h₂, ?_, rfl⟩
        rw [KeyValues.Allows, if_neg hpresent]
        intro failure hresult
        cases hresult
        exact ⟨_, rfl, .store operation source hfails⟩

theorem call_sound (reliable : Store.Reliable Holds) (h : log.Sound Holds rs) (c : Call) :
    ∃ answer log' rs', log.call c = (answer, log') ∧
      Answered Holds rs (.call c) answer log' rs' := by
  cases c with
  | write key value durability allowReplace =>
    obtain ⟨result, log', rs', hwrite, hanswered⟩ :=
      write_sound reliable h key value durability allowReplace
    exact ⟨_, log', rs', by rw [call, hwrite], hanswered⟩
  | lookup key =>
    obtain ⟨log', hlookup, h', -⟩ := lookup_sound reliable.toReadable h key
    exact ⟨.value _, log', rs, by rw [call, hlookup], h', by rfl, rfl⟩
  | contains key =>
    obtain ⟨log', hcontains, h', -⟩ := contains_sound reliable.toReadable h key
    exact ⟨.membership _, log', rs, by rw [call, hcontains], h', by rfl, rfl⟩
  | flush => exact ⟨_, _, rs, rfl, (flush_sound reliable h).1, trivial, rfl⟩
  | sync => exact ⟨_, _, rs, rfl, (sync_sound reliable h).1, trivial, rfl⟩

end Log

namespace Session

variable {σ : Type} [Store σ] {Holds : σ → Bytes → Prop}

/-- One step of a session with a sound log. -/
theorem step_sound (reliable : Store.Reliable Holds) {log : Log σ} {rs : List Record}
    (h : log.Sound Holds rs) {s : Step σ} (hs : s.Admissible Holds) :
    ∃ answer log' rs', (opened log).step s = (answer, opened log') ∧
      Log.Answered Holds rs s answer log' rs' := by
  cases s with
  | call c =>
    obtain ⟨answer, log', rs', hcall, hanswered⟩ := Log.call_sound reliable h c
    refine ⟨answer, log', rs', ?_, hanswered⟩
    change (opened log).call c = _
    rw [call, hcall]
  | reopen settings =>
    obtain ⟨log', hopen, h'⟩ := Log.open_sound reliable hs h.holds
      (recoverable_logBytes h.fits) h.ascending
    refine ⟨.done (.ok ()), log', rs, ?_, h', rfl, rfl⟩
    simp only [step, restart, release, Log.release, h.unpoisoned, Bool.false_eq_true, if_false,
      Option.getD_some, id_eq, store, start, hopen]
  | disturb change =>
    exact ⟨.done (.ok ()), _, rs, rfl, h.setStore (hs _ _ h.holds), rfl, rfl⟩

theorem answers_explained (reliable : Store.Reliable Holds) {log : Log σ} {rs : List Record}
    (h : log.Sound Holds rs) {steps : List (Step σ)}
    (hsteps : ∀ s ∈ steps, s.Admissible Holds) :
    (Record.contents rs).Explains Holds steps ((opened log).answers steps) := by
  induction steps generalizing log rs with
  | nil => trivial
  | cons s steps ih =>
    obtain ⟨answer, log', rs', hstep, hanswered⟩ :=
      step_sound reliable h (hsteps s List.mem_cons_self)
    rw [answers, hstep]
    refine ⟨hanswered.allowed, ?_⟩
    rw [← hanswered.contents_eq]
    exact ih hanswered.sound fun s' hs' => hsteps s' (List.mem_cons_of_mem _ hs')

/-- A log answers as the map that starts with the last value of each key of the replayed records,
through any history of calls, restarts and disturbances of its store. -/
theorem start_explains (reliable : Store.Reliable Holds) {s : σ} {image : Bytes}
    (hs : Holds s image) {rs : List Record} (himage : Recoverable image rs)
    (hrs : Record.Ascending rs) {settings : LogSettings} (hsettings : settings.validate = .ok ())
    {steps : List (Step σ)} (hsteps : ∀ step ∈ steps, step.Admissible Holds) :
    (start settings s).1 = .ok () ∧
      (Record.contents rs).Explains Holds steps ((start settings s).2.answers steps) := by
  obtain ⟨log, hopen, h⟩ := Log.open_sound reliable hsettings hs himage hrs
  have hstart : start settings s = (.ok (), opened log) := by rw [start, hopen]
  rw [hstart]
  exact ⟨rfl, answers_explained reliable h hsteps⟩

/-- An index with room for one key, a damaged tail, a write that fails, and a second log. -/
theorem start_explains_oneEntry :
    let rs : List Record := [⟨[1], [10], .persist, true, ⟨4⟩⟩, ⟨[2], [20], .transient, true, ⟨4⟩⟩]
    let s : FaultyStore MemoryStore := { inner := .ofBytes (Record.logBytes rs ++ [7]) }
    let steps : List (Step (FaultyStore MemoryStore)) :=
      [.call (.lookup [1]), .call (.write [2] [21] .transient false),
        .disturb fun s => { s with failAppend := true }, .call (.write [1] [11] .persist true),
        .reopen { flushPolicy := .periodic 2 }, .call (.contains [2]), .call (.lookup [3])]
    (start { maxIndexEntries := 1 } s).1 = .ok () ∧
      (Record.contents rs).Explains (FaultyStore.Steady MemoryStore.Holds) steps
        ((start { maxIndexEntries := 1 } s).2.answers steps) := by
  intro rs s steps
  have hs : FaultyStore.Steady MemoryStore.Holds s (Record.logBytes rs ++ [7]) :=
    ⟨rfl, rfl, rfl, rfl, rfl⟩
  have himage : Recoverable (Record.logBytes rs ++ [7]) rs := by
    refine ⟨fun r hr => ?_, [7], rfl, noFrame_of_short (by decide)⟩
    simp only [rs, List.mem_cons, List.not_mem_nil, or_false] at hr
    rcases hr with rfl | rfl <;> constructor <;> decide
  refine start_explains (FaultyStore.reliable MemoryStore.reliable) hs himage
    (by simp [Record.Ascending, rs]) rfl ?_
  simp only [steps, List.forall_mem_cons, List.not_mem_nil, false_imp_iff, implies_true, and_true]
  refine ⟨trivial, trivial, ?_, trivial, rfl, trivial, trivial⟩
  intro s b h
  exact { h with }

end Session

end Dataflow
