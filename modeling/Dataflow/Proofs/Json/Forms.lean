import Mathlib.Data.List.Nodup
import Dataflow.Engine.Json
import Dataflow.Log.Json
import Dataflow.Proofs.Json.Reading

/-!
# Forms are read back

What is printed of a value in its JSON form is read back as the same value. The form of a type is
made of numbers, texts, lists, fields and variants, and what is said here of each of these is put
together for every type.

The numbers of a value have to fit the width that the reader allows. They do in every value that the
library deals with.

* `Kept`: a value is read back from its form; `Kept.read?_print` says that then it is read back from
  its text.
* `Value.fields?_reread`, `Value.items?_reread`, `Value.variant?_name`, `Value.variant?_field`: the
  parts of forms.
* `LogSettings.Fits`, `Rule.Fits`, …: the values whose numbers fit.
* `forms_kept`: the values of every type are read back, and settings are validated besides.
-/

namespace Dataflow

namespace Json

/-! ## Lists -/

theorem mapM_some {α β : Type} {f : α → Option β} {g : α → β} {l : List α}
    (h : ∀ a ∈ l, f a = some (g a)) : l.mapM f = some (l.map g) := by
  induction l with
  | nil => rfl
  | cons a l ih =>
    obtain ⟨ha, hl⟩ := List.forall_mem_cons.mp h
    rw [List.mapM_cons, ha, ih hl]
    rfl

/-- Where no name occurs twice, a member is the only one of its name. -/
theorem filter_name {α : Type} {members : List (String × α)}
    (hnodup : (members.map Prod.fst).Nodup) {m : String × α} (hm : m ∈ members) :
    members.filter (·.1 == m.1) = [m] := by
  induction members with
  | nil => cases hm
  | cons m' members ih =>
    rw [List.map_cons, List.nodup_cons] at hnodup
    obtain ⟨hfresh, hnodup⟩ := hnodup
    rcases List.mem_cons.mp hm with rfl | hm
    · have hrest : members.filter (·.1 == m.1) = [] := by
        rw [List.filter_eq_nil_iff]
        intro m' hm' hname
        exact hfresh (List.mem_map.mpr ⟨m', hm', beq_iff_eq.mp hname⟩)
      rw [List.filter_cons, if_pos (beq_self_eq_true _), hrest]
    · have hne : ¬(m'.1 == m.1) = true := by
        intro hname
        exact hfresh (List.mem_map.mpr ⟨m, hm, (beq_iff_eq.mp hname).symm⟩)
      rw [List.filter_cons, if_neg hne, ih hnodup hm]

/-! ## The parts of forms -/

theorem plainItems_iff {items : List Value} : PlainItems items ↔ ∀ v ∈ items, v.Plain := by
  induction items with
  | nil => exact ⟨fun _ _ h => (nomatch h), fun _ => trivial⟩
  | cons item items ih => rw [PlainItems, ih, List.forall_mem_cons]

theorem plainMembers_iff {members : List (Text × Value)} :
    PlainMembers members ↔ ∀ m ∈ members, m.1.Plain ∧ m.2.Plain := by
  induction members with
  | nil => exact ⟨fun _ _ h => (nomatch h), fun _ => trivial⟩
  | cons member members ih => rw [PlainMembers, ih, List.forall_mem_cons, and_assoc]

theorem rereadItems_eq (items : List Value) : rereadItems items = items.map Value.reread := by
  induction items with
  | nil => rfl
  | cons item items ih => rw [rereadItems, ih, List.map_cons]

theorem rereadMembers_eq (members : List (Text × Value)) :
    rereadMembers members = members.map fun m => (m.1.reread, m.2.reread) := by
  induction members with
  | nil => rfl
  | cons member members ih => rw [rereadMembers, ih, List.map_cons]

namespace Value

@[simp] theorem plain_ofNat (n : Nat) : (ofNat n).Plain := trivial

@[simp] theorem plain_ofString (s : String) : (ofString s).Plain := ⟨s.toList, rfl⟩

theorem plain_array {items : List Value} (h : ∀ v ∈ items, v.Plain) : (array items).Plain :=
  plainItems_iff.mpr h

theorem plain_ofFields {fields : List (String × Value)} (h : ∀ f ∈ fields, f.2.Plain) :
    (ofFields fields).Plain := by
  refine plainMembers_iff.mpr ?_
  intro m hm
  obtain ⟨f, hf, rfl⟩ := List.mem_map.mp hm
  exact ⟨⟨f.1.toList, rfl⟩, h f hf⟩

theorem natural?_reread {bound n : Nat} (h : n < bound) :
    (ofNat n).reread.natural? bound = some n := by
  rw [ofNat, reread, natural?, if_pos h]

@[simp] theorem string?_reread (s : String) : (ofString s).reread.string? = some s :=
  Text.toString?_reread s

theorem items?_reread {α β : Type} {item? : Value → Option α} {f : β → Value} {g : β → α}
    {l : List β} (h : ∀ b ∈ l, item? (f b).reread = some (g b)) :
    items? item? (array (l.map f)).reread = some (l.map g) := by
  rw [reread, items?, rereadItems_eq, List.map_map, List.mapM_map]
  exact mapM_some h

/-- The fields of a record are found under their names. -/
theorem fields?_reread (fields : List (String × Value)) {names : List String}
    (hnames : names = fields.map Prod.fst) (hnodup : names.Nodup) :
    (ofFields fields).reread.fields? names = some (fields.map fun f => some f.2.reread) := by
  subst hnames
  have hmembers : members? ((fields.map fun f => (Text.ofString f.1, f.2)).map
      fun m => (m.1.reread, m.2.reread)) = some (fields.map fun f => (f.1, f.2.reread)) := by
    rw [members?, List.map_map, List.mapM_map]
    refine mapM_some ?_
    intro f _
    dsimp only [Function.comp_apply]
    rw [Text.toString?_reread]
    rfl
  rw [ofFields, reread, rereadMembers_eq, fields?, hmembers, Option.bind_some, List.mapM_map]
  refine mapM_some ?_
  intro f hf
  have hmem : (f.1, f.2.reread) ∈ fields.map fun f => (f.1, f.2.reread) :=
    List.mem_map.mpr ⟨f, hf, rfl⟩
  have hfilter := filter_name (by rwa [List.map_map]) hmem
  rw [Function.comp_apply, member?, hfilter]

@[simp] theorem variant?_name (name : String) :
    (ofString name).reread.variant? = some (name, none) := by
  rw [ofString, reread, variant?, Text.toString?_reread]
  rfl

@[simp] theorem variant?_field (name : String) (v : Value) :
    (ofFields [(name, v)]).reread.variant? = some (name, some v.reread) := by
  rw [ofFields, List.map_singleton, reread, rereadMembers, rereadMembers, variant?,
    Text.toString?_reread]
  rfl

end Value

/-! ## Values that are read back -/

/-- The value is read back from its form. -/
structure Kept {α : Type} [Form α] (a : α) : Prop where
  plain : (Form.toValue a).Plain
  read : Form.ofValue? (Form.toValue a).reread = some a

/-- What is read back from the form is read back from the text. -/
theorem Kept.read?_print {α : Type} [Form α] {a : α} (h : Kept a) : read? (print a) = some a := by
  rw [Json.print, Json.read?, h.plain.parse?_render, Option.bind_some, h.read]

end Json

open Json

/-! ## Settings -/

/-- A period fits four bytes. -/
def FlushPolicy.Fits : FlushPolicy → Prop
  | noFlush | alwaysFlush => True
  | periodic n => n < Bytes.capacity 4

instance : DecidablePred FlushPolicy.Fits
  | .noFlush | .alwaysFlush => inferInstanceAs (Decidable True)
  | .periodic n => inferInstanceAs (Decidable (n < Bytes.capacity 4))

theorem FlushPolicy.Fits.kept {p : FlushPolicy} (h : p.Fits) : Kept p := by
  cases p with
  | noFlush =>
    refine ⟨Value.plain_ofString _, ?_⟩
    change ofValue? (Value.ofString "no_flush").reread = some noFlush
    rw [ofValue?, Value.variant?_name]
    rfl
  | alwaysFlush =>
    refine ⟨Value.plain_ofString _, ?_⟩
    change ofValue? (Value.ofString "always_flush").reread = some alwaysFlush
    rw [ofValue?, Value.variant?_name]
    rfl
  | periodic n =>
    refine ⟨Value.plain_ofFields (by simp), ?_⟩
    change ofValue? (Value.ofFields [("periodic", Value.ofNat n)]).reread = some (periodic n)
    have hread := Value.natural?_reread h
    rw [ofValue?, Value.variant?_field]
    change ((Value.ofNat n).reread.natural? (Bytes.capacity 4)).map periodic = some (periodic n)
    rw [hread]
    rfl

/-- The numbers of the settings fit their widths. -/
structure LogSettings.Fits (c : LogSettings) : Prop where
  flushPolicy : c.flushPolicy.Fits
  maxIndexEntries_lt : c.maxIndexEntries < Bytes.capacity 8

theorem LogSettings.Fits.kept {c : LogSettings} (h : c.Fits) : Kept c := by
  have hpolicy := h.flushPolicy.kept
  have hfields : c.toValue.reread.fields? fieldNames =
      some [some (Value.ofString c.path).reread, some c.flushPolicy.toValue.reread,
        some (Value.ofNat c.maxIndexEntries).reread] :=
    Value.fields?_reread [("path", Value.ofString c.path), ("flush_policy", c.flushPolicy.toValue),
      ("max_index_entries", Value.ofNat c.maxIndexEntries)] rfl (by decide)
  have hread : FlushPolicy.ofValue? c.flushPolicy.toValue.reread = some c.flushPolicy :=
    hpolicy.read
  have hbound : (Value.ofNat c.maxIndexEntries).reread.natural? Value.bound64 =
      some c.maxIndexEntries := Value.natural?_reread h.maxIndexEntries_lt
  have hplain : c.flushPolicy.toValue.Plain := hpolicy.plain
  refine ⟨Value.plain_ofFields (by simp [hplain]), ?_⟩
  change LogSettings.ofValue? c.toValue.reread = some c
  rw [LogSettings.ofValue?, hfields]
  simp only [Value.withDefault, Value.string?_reread, hread, hbound]
  rfl

/-- The settings that are read from their own text are those that are valid. -/
theorem LogSettings.Fits.ofJson_print {c : LogSettings} (h : c.Fits) :
    LogSettings.ofJson (print c) = c.validate.map fun _ => c := by
  rw [LogSettings.ofJson, h.kept.read?_print]

theorem LogSettings.validate_error {c : LogSettings} {e : Error} (h : c.validate = .error e) :
    e.kind = .command := by
  unfold LogSettings.validate at h
  split at h
  · cases h
    rfl
  · split at h
    · cases h
      rfl
    · cases h

/-! ## Statistics -/

/-- Counts under their names. -/
def countsToValue (names : List String) (counts : List Nat) : Value :=
  Value.ofFields (names.zip (counts.map Value.ofNat))

theorem plain_counts (names : List String) (counts : List Nat) :
    (countsToValue names counts).Plain := by
  refine Value.plain_ofFields ?_
  rintro ⟨name, v⟩ hf
  obtain ⟨n, -, rfl⟩ := List.mem_map.mp (List.of_mem_zip hf).2
  exact Value.plain_ofNat n

/-- Counts that fit are read back in order, whatever is made of them. -/
theorem counts_reread {α : Type} (names : List String) {counts : List Nat}
    (hlength : names.length = counts.length) (hnodup : names.Nodup)
    (hcounts : ∀ n ∈ counts, n < Bytes.capacity 8) (ofCounts? : List Nat → Option α) :
    (do
      let fields ← (countsToValue names counts).reread.fields? names
      let counts ← fields.mapM (Value.required (Value.natural? Value.bound64))
      ofCounts? counts) = ofCounts? counts := by
  have hvalues : names.length = (counts.map Value.ofNat).length := by
    rw [hlength, List.length_map]
  have hnames : names = (names.zip (counts.map Value.ofNat)).map Prod.fst :=
    (List.map_fst_zip (Nat.le_of_eq hvalues)).symm
  have hread : ((names.zip (counts.map Value.ofNat)).map fun f => some f.2.reread) =
      counts.map fun n => some (Value.ofNat n).reread :=
    calc ((names.zip (counts.map Value.ofNat)).map fun f => some f.2.reread)
        = ((names.zip (counts.map Value.ofNat)).map Prod.snd).map fun v => some v.reread := by
          rw [List.map_map]
          rfl
      _ = (counts.map Value.ofNat).map fun v => some v.reread := by
          rw [List.map_snd_zip (Nat.le_of_eq hvalues.symm)]
      _ = counts.map fun n => some (Value.ofNat n).reread := by
          rw [List.map_map]
          rfl
  rw [countsToValue, Value.fields?_reread _ hnames hnodup, hread]
  simp only [Option.bind_eq_bind, Option.bind_some, List.mapM_map]
  have hback : counts.mapM (Value.required (Value.natural? Value.bound64) ∘
      fun n => some (Value.ofNat n).reread) = some (counts.map id) :=
    mapM_some fun n hn => Value.natural?_reread (hcounts n hn)
  rw [hback, List.map_id, Option.bind_some]

/-- The counts fit 64 bits. -/
def LogStats.Fits (s : LogStats) : Prop := ∀ n ∈ s.toCounts, n < Bytes.capacity 8

instance (s : LogStats) : Decidable s.Fits :=
  inferInstanceAs (Decidable (∀ n ∈ s.toCounts, n < Bytes.capacity 8))

theorem LogStats.Fits.kept {s : LogStats} (h : s.Fits) : Kept s where
  plain := plain_counts fieldNames s.toCounts
  read := counts_reread fieldNames rfl (by decide) h ofCounts?

/-- The counts fit 64 bits. -/
def EngineCounts.Fits (s : EngineCounts) : Prop := ∀ n ∈ s.toCounts, n < Bytes.capacity 8

instance (s : EngineCounts) : Decidable s.Fits :=
  inferInstanceAs (Decidable (∀ n ∈ s.toCounts, n < Bytes.capacity 8))

theorem EngineCounts.Fits.kept {s : EngineCounts} (h : s.Fits) : Kept s where
  plain := plain_counts fieldNames s.toCounts
  read := counts_reread fieldNames rfl (by decide) h ofCounts?

/-! ## Rules, backings and outputs -/

/-- The numbers of the datums fit 64 bits. -/
structure Rule.Fits (r : Rule) : Prop where
  inputs_lt : ∀ id ∈ r.inputs, id.number < Bytes.capacity 8
  outputs_lt : ∀ id ∈ r.outputs, id.number < Bytes.capacity 8

theorem Rule.plain_ids (ids : List DatumId) : (idsToValue ids).Plain := by
  refine Value.plain_array ?_
  intro v hv
  obtain ⟨id, -, rfl⟩ := List.mem_map.mp hv
  exact Value.plain_ofNat id.number

theorem Rule.ids_reread {ids : List DatumId} (h : ∀ id ∈ ids, id.number < Bytes.capacity 8) :
    idsOfValue? (idsToValue ids).reread = some ids := by
  have hread : idsOfValue? (idsToValue ids).reread = some (ids.map id) := by
    refine Value.items?_reread ?_
    intro id hid
    change ((Value.ofNat id.number).reread.natural? Value.bound64).map DatumId.mk = some id
    have hnumber : (Value.ofNat id.number).reread.natural? Value.bound64 = some id.number :=
      Value.natural?_reread (h id hid)
    rw [hnumber]
    rfl
  rw [hread, List.map_id]

theorem Rule.Fits.kept {r : Rule} (h : r.Fits) : Kept r := by
  have hfields : r.toValue.reread.fields? fieldNames =
      some [some (Value.ofString r.name).reread, some (Value.ofString r.executor).reread,
        some (idsToValue r.inputs).reread, some (idsToValue r.outputs).reread] :=
    Value.fields?_reread [("name", Value.ofString r.name), ("executor", Value.ofString r.executor),
      ("inputs", idsToValue r.inputs), ("outputs", idsToValue r.outputs)] rfl (by decide)
  refine ⟨Value.plain_ofFields (by simp [plain_ids]), ?_⟩
  change Rule.ofValue? r.toValue.reread = some r
  rw [Rule.ofValue?, hfields]
  simp only [Value.required, Value.withDefault, Option.bind_some, Value.string?_reread,
    ids_reread h.inputs_lt, ids_reread h.outputs_lt]
  rfl

theorem Backing.kept (b : Backing) : Kept b := by
  cases b with
  | memory =>
    refine ⟨Value.plain_ofString _, ?_⟩
    change ofValue? (Value.ofString "memory").reread = some memory
    rw [ofValue?, Value.variant?_name]
    rfl
  | file path =>
    refine ⟨Value.plain_ofFields (by simp), ?_⟩
    change ofValue? (Value.ofFields [("file", Value.ofString path)]).reread = some (file path)
    rw [ofValue?, Value.variant?_field]
    change (Value.ofString path).reread.string?.map file = some (file path)
    rw [Value.string?_reread]
    rfl

namespace RecordedOutputs

theorem plain_bytes (bytes : Bytes) : (bytesToValue bytes).Plain := by
  refine Value.plain_array ?_
  intro v hv
  obtain ⟨b, -, rfl⟩ := List.mem_map.mp hv
  exact Value.plain_ofNat b.toNat

theorem bytes_reread (bytes : Bytes) : bytesOfValue? (bytesToValue bytes).reread = some bytes := by
  have hread : bytesOfValue? (bytesToValue bytes).reread = some (bytes.map id) := by
    refine Value.items?_reread ?_
    intro b _
    rw [Value.natural?_reread b.toNat_lt, Option.map_some, UInt8.ofNat_toNat]
    rfl
  rw [hread, List.map_id]

theorem kept (r : RecordedOutputs) : Kept r := by
  have hplain : (Value.array (r.outputs.map bytesToValue)).Plain := by
    refine Value.plain_array ?_
    intro v hv
    obtain ⟨bytes, -, rfl⟩ := List.mem_map.mp hv
    exact plain_bytes bytes
  have hfields :
      (Value.ofFields [("outputs", Value.array (r.outputs.map bytesToValue))]).reread.fields?
        ["outputs"] = some [some (Value.array (r.outputs.map bytesToValue)).reread] :=
    Value.fields?_reread [("outputs", Value.array (r.outputs.map bytesToValue))] rfl (by decide)
  have houtputs : Value.items? bytesOfValue? (Value.array (r.outputs.map bytesToValue)).reread =
      some (r.outputs.map id) := Value.items?_reread fun bytes _ => bytes_reread bytes
  refine ⟨Value.plain_ofFields (by simp [hplain]), ?_⟩
  simp only [Form.toValue, Form.ofValue?, hfields, Value.required, Option.bind_some, houtputs,
    List.map_id]
  rfl

end RecordedOutputs

/-- The values of every type are read back from their text. Of settings, the text is accepted if and
only if they are valid. -/
theorem Json.forms_kept :
    (∀ c : LogSettings, c.Fits →
      read? (print c) = some c ∧
        (LogSettings.ofJson (print c) = .ok c ↔ c.validate = .ok ()) ∧
        (c.validate ≠ .ok () → ∃ e : Error, LogSettings.ofJson (print c) = .error e ∧
          e.kind = .command)) ∧
      (∀ r : Rule, r.Fits → read? (print r) = some r) ∧
      (∀ s : LogStats, s.Fits → read? (print s) = some s) ∧
      (∀ s : EngineCounts, s.Fits → read? (print s) = some s) ∧
      (∀ b : Backing, read? (print b) = some b) ∧
      ∀ r : RecordedOutputs, read? (print r) = some r := by
  refine ⟨?settings, fun r h => h.kept.read?_print, fun s h => h.kept.read?_print,
    fun s h => h.kept.read?_print, fun b => b.kept.read?_print, fun r => r.kept.read?_print⟩
  intro c h
  rw [h.ofJson_print]
  refine ⟨h.kept.read?_print, ?_⟩
  cases hvalid : c.validate with
  | ok u => exact ⟨⟨fun _ => rfl, fun _ => rfl⟩, fun hne => absurd rfl hne⟩
  | error e =>
    refine ⟨⟨fun heq => (nomatch heq), fun heq => (nomatch heq)⟩, ?_⟩
    intro _
    exact ⟨e, rfl, LogSettings.validate_error hvalid⟩

theorem Json.forms_kept_marks :
    let c : LogSettings := ⟨"logs/\"é\\😀\".xpt", .periodic 4294967295, 18446744073709551615⟩
    let refused : LogSettings := ⟨"logs", .periodic 0, 1⟩
    let r : Rule := ⟨"a\"b\\c\x01\x7f\n/é😀", "", [⟨18446744073709551615⟩, ⟨0⟩], []⟩
    let s : LogStats := ⟨0, 1, 2, 3, 4, 5, 6, 7, 8, 18446744073709551615⟩
    let n : EngineCounts := ⟨0, 1, 2, 3, 4, 18446744073709551615⟩
    (c.Fits ∧ read? (print c) = some c ∧ LogSettings.ofJson (print c) = .ok c) ∧
      (refused.Fits ∧ ∃ e : Error, LogSettings.ofJson (print refused) = .error e ∧
        e.kind = .command) ∧
      (r.Fits ∧ read? (print r) = some r) ∧ (s.Fits ∧ read? (print s) = some s) ∧
      (n.Fits ∧ read? (print n) = some n) ∧
      read? (print (Backing.file "\t")) = some (Backing.file "\t") ∧
      read? (print (⟨[[], [0, 255]]⟩ : RecordedOutputs)) =
        some (⟨[[], [0, 255]]⟩ : RecordedOutputs) := by
  intro c refused r s n
  obtain ⟨hsettings, hrules, hstats, hcounts, hbackings, houtputs⟩ := Json.forms_kept
  have hc : c.Fits := ⟨by decide, by decide⟩
  have hrefused : refused.Fits := ⟨by decide, by decide⟩
  have hr : r.Fits := ⟨by decide, by decide⟩
  have hs : s.Fits := by decide
  have hn : n.Fits := by decide
  obtain ⟨hread, haccepted, -⟩ := hsettings c hc
  exact ⟨⟨hc, hread, haccepted.mpr rfl⟩, ⟨hrefused, (hsettings refused hrefused).2.2 (by decide)⟩,
    ⟨hr, hrules r hr⟩, ⟨hs, hstats s hs⟩, ⟨hn, hcounts n hn⟩, hbackings _, houtputs _⟩

end Dataflow
