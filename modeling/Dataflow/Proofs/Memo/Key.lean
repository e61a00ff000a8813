import Mathlib.Data.Set.Function
import Dataflow.Proofs.Engine.Lifecycle

/-!
# Keys stand for names and inputs

What is hashed for a key neither counts its fields nor marks their end. It can be taken apart all
the same, from the front: eight bytes say how long the next field is, and where the bytes end there
is no more field. So what a field holds is never taken for the length of another one, and an empty
field is not the same as none.

* `Memo.field_append_inj`: a field can be told from what stands behind it.
* `Memo.flatMap_field_inj`, `Memo.preimage_inj`: different names or inputs give different bytes.
* `Memo.CollisionFree`, `Memo.key_eq_iff`: and different keys, where the hash has no collision.
* `Engine.outputsKey_unambiguous`: the keys of the transforms that are ready.
-/

namespace Dataflow

namespace Memo

/-! ## What is hashed -/

theorem utf8_injective : Function.Injective utf8 := fun _ _ h =>
  String.toByteArray_inj.mp (ByteArray.ext (Array.toList_inj.mp h))

theorem length_field (bytes : Bytes) : (field bytes).length = 8 + bytes.length := by
  rw [field, List.length_append, Bytes.length_littleEndian]

/-- A field can be told from the bytes behind it. -/
theorem field_append_inj {a b rest rest' : Bytes} (ha : a.length < Bytes.capacity 8)
    (hb : b.length < Bytes.capacity 8) (h : field a ++ rest = field b ++ rest') :
    a = b ∧ rest = rest' := by
  rw [field, field, List.append_assoc, List.append_assoc] at h
  obtain ⟨hlengths, hbytes⟩ := List.append_inj h (by simp only [Bytes.length_littleEndian])
  have hlength : a.length = b.length := by
    rw [← Bytes.ofLittleEndian_littleEndian ha, hlengths, Bytes.ofLittleEndian_littleEndian hb]
  exact List.append_inj hbytes hlength

theorem flatMap_field_inj {as bs : List Bytes} (ha : ∀ a ∈ as, a.length < Bytes.capacity 8)
    (hb : ∀ b ∈ bs, b.length < Bytes.capacity 8) (h : as.flatMap field = bs.flatMap field) :
    as = bs := by
  -- A field has eight bytes at least, so that only no fields at all give no bytes.
  have hne : ∀ (b : Bytes) (bs : List Bytes), (b :: bs).flatMap field ≠ [] := by
    intro b bs hnil
    have hlength := congrArg List.length hnil
    rw [List.flatMap_cons, List.length_append, length_field, List.length_nil] at hlength
    omega
  induction as generalizing bs with
  | nil =>
    cases bs with
    | nil => rfl
    | cons b bs => exact absurd h.symm (hne b bs)
  | cons a as ih =>
    cases bs with
    | nil => exact absurd h (hne a as)
    | cons b bs =>
      obtain ⟨ha, has⟩ := List.forall_mem_cons.mp ha
      obtain ⟨hb, hbs⟩ := List.forall_mem_cons.mp hb
      rw [List.flatMap_cons, List.flatMap_cons] at h
      obtain ⟨rfl, hrest⟩ := field_append_inj ha hb h
      rw [ih has hbs hrest]

/-- The lengths of the name and of the inputs fit their prefixes. -/
structure Measured (name : String) (inputs : List Bytes) : Prop where
  name_lt : (utf8 name).length < Bytes.capacity 8
  input_lt : ∀ input ∈ inputs, input.length < Bytes.capacity 8

section

variable {name name' : String} {inputs inputs' : List Bytes}

theorem preimage_inj (h : Measured name inputs) (h' : Measured name' inputs')
    (heq : preimage name inputs = preimage name' inputs') : name = name' ∧ inputs = inputs' := by
  rw [preimage, preimage, List.append_assoc, List.append_assoc] at heq
  obtain ⟨hname, hinputs⟩ :=
    field_append_inj h.name_lt h'.name_lt (List.append_cancel_left heq)
  exact ⟨utf8_injective hname, flatMap_field_inj h.input_lt h'.input_lt hinputs⟩

/-- No two of some byte strings have the same hash. -/
def CollisionFree (strings : Set Bytes) : Prop := Set.InjOn blake3 strings

/-- A key stands for a name and inputs among names and inputs whose bytes do not collide. -/
theorem key_eq_iff (h : Measured name inputs) (h' : Measured name' inputs') {strings : Set Bytes}
    (hfree : CollisionFree strings) (hmem : preimage name inputs ∈ strings)
    (hmem' : preimage name' inputs' ∈ strings) :
    key name inputs = key name' inputs' ↔ name = name' ∧ inputs = inputs' := by
  constructor
  · intro hkey
    exact preimage_inj h h' (hfree hmem hmem' hkey)
  · rintro ⟨rfl, rfl⟩
    rfl

end

end Memo

/-! ## Transforms that are ready -/

namespace Engine

open Memo

/-- A key is a hash, and what is hashed is different for different names and lists of inputs. A
transform that is ready has the key of its name and of the values of its inputs in order. So two
transforms, of one engine or of two, have the same key if and only if the names and the values are
the same, unless the hash collides on them. -/
theorem outputsKey_unambiguous :
    (∀ name inputs, key name inputs = blake3 (preimage name inputs)) ∧
    (∀ {name name' : String} {inputs inputs' : List Bytes}, Measured name inputs →
      Measured name' inputs' → preimage name inputs = preimage name' inputs' →
        name = name' ∧ inputs = inputs') ∧
    ∀ (calls calls' : List Call) {id id' : TransformId} {t t' : Transform},
      (empty.run calls).transform id = .ok t → t.stage = .ready →
      (empty.run calls').transform id' = .ok t' → t'.stage = .ready →
      ∃ values values',
        (empty.run calls).inputValues t = .ok values ∧
        (empty.run calls').inputValues t' = .ok values' ∧
        (empty.run calls).outputsKey id = .ok (blake3 (preimage t.rule.name values)) ∧
        (empty.run calls').outputsKey id' = .ok (blake3 (preimage t'.rule.name values')) ∧
        (Measured t.rule.name values → Measured t'.rule.name values' →
          ∀ strings, CollisionFree strings → preimage t.rule.name values ∈ strings →
            preimage t'.rule.name values' ∈ strings →
            ((empty.run calls).outputsKey id = (empty.run calls').outputsKey id' ↔
              t.rule.name = t'.rule.name ∧ values = values')) := by
  refine ⟨fun _ _ => rfl, preimage_inj, ?_⟩
  intro calls calls' id id' t t' ht hready ht' hready'
  obtain ⟨values, hvalues, hkey⟩ := (run_lifecycle calls []).outputsKey id t ht hready
  obtain ⟨values', hvalues', hkey'⟩ := (run_lifecycle calls' []).outputsKey id' t' ht' hready'
  refine ⟨values, values', hvalues, hvalues', hkey, hkey', ?_⟩
  intro hmeasured hmeasured' strings hfree hmem hmem'
  rw [hkey, hkey', Except.ok.injEq]
  exact key_eq_iff hmeasured hmeasured' hfree hmem hmem'

/-- The second input of one transform, with the length before it, is part of the only input of the
other one. -/
theorem outputsKey_unambiguous_prefixed :
    let name := "f"
    let values : List Bytes := [[97, 98], [99]]
    let values' : List Bytes := [[97, 98] ++ field [99]]
    let calls : List Call :=
      [.createSetDatum [97, 98], .createSetDatum [99], .addRule { name, inputs := [⟨1⟩, ⟨2⟩] }]
    let calls' : List Call :=
      [.createSetDatum ([97, 98] ++ field [99]), .addRule { name, inputs := [⟨1⟩] }]
    (∃ key, (empty.run calls).outputsKey ⟨1⟩ = .ok key) ∧
      (∃ key, (empty.run calls').outputsKey ⟨1⟩ = .ok key) ∧
      preimage name values ≠ preimage name values' ∧
      (empty.run calls).outputsKey ⟨1⟩ ≠ (empty.run calls').outputsKey ⟨1⟩ := by
  intro name values values' calls calls'
  have ht : (empty.run calls).transform ⟨1⟩ =
      .ok ⟨⟨1⟩, { name, inputs := [⟨1⟩, ⟨2⟩] }, 0, .ready⟩ := by decide +kernel
  have ht' : (empty.run calls').transform ⟨1⟩ =
      .ok ⟨⟨1⟩, { name, inputs := [⟨1⟩] }, 0, .ready⟩ := by decide +kernel
  have hmeasured : Measured name values := ⟨by decide +kernel, by decide +kernel⟩
  have hmeasured' : Measured name values' := ⟨by decide +kernel, by decide +kernel⟩
  have hapart : blake3 (preimage name values) ≠ blake3 (preimage name values') := by
    decide +kernel
  have hfree : CollisionFree {preimage name values, preimage name values'} := by
    refine (Set.injOn_pair).mpr fun h => absurd h hapart
  obtain ⟨-, hinj, hready⟩ := outputsKey_unambiguous
  obtain ⟨vs, vs', hvalues, hvalues', hkey, hkey', hiff⟩ := hready calls calls' ht rfl ht' rfl
  obtain rfl : values = vs := by
    have hcomputed : (empty.run calls).inputValues
        ⟨⟨1⟩, { name, inputs := [⟨1⟩, ⟨2⟩] }, 0, .ready⟩ = .ok values := by decide +kernel
    exact Except.ok.inj (hcomputed.symm.trans hvalues)
  obtain rfl : values' = vs' := by
    have hcomputed : (empty.run calls').inputValues
        ⟨⟨1⟩, { name, inputs := [⟨1⟩] }, 0, .ready⟩ = .ok values' := by decide +kernel
    exact Except.ok.inj (hcomputed.symm.trans hvalues')
  have hne : values ≠ values' := by decide
  refine ⟨⟨_, hkey⟩, ⟨_, hkey'⟩, fun h => hne (hinj hmeasured hmeasured' h).2, fun h => hne ?_⟩
  exact ((hiff hmeasured hmeasured' _ hfree (Set.mem_insert _ _)
    (Set.mem_insert_of_mem _ rfl)).mp h).2

end Engine

end Dataflow
