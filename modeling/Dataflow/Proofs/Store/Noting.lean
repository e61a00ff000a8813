import Dataflow.Proofs.Store.Restoring

/-!
# Stores that note what they are asked to append

What becomes of an append is up to the store. What a log has tried to append is seen by a store that
notes it before it does anything else.

* `Store.Notes`: what is noted.
* `NotingStore`: a store around another one that takes notes and otherwise does the same.
-/

namespace Dataflow

namespace Store

variable {σ : Type} [Store σ]

/-- What a store has been asked to append, whether or not it has done so and whether or not it is
still there. -/
structure Notes (noted : σ → List Bytes) : Prop where
  append {s s' : σ} {data : Bytes} {result : Except (Failure IoError) Nat} :
    append s data = (result, s') → noted s' = noted s ++ [data]
  flush {s s' : σ} {result : Except IoError Unit} : flush s = (result, s') → noted s' = noted s
  sync {s s' : σ} {result : Except IoError Unit} : sync s = (result, s') → noted s' = noted s
  readAt {s s' : σ} {offset length : Nat} {result : Except IoError Bytes} :
    readAt s offset length = (result, s') → noted s' = noted s
  truncate {s s' : σ} {length : Nat} {result : Except IoError Unit} :
    truncate s length = (result, s') → noted s' = noted s

/-- Nothing was noted between two states of a store, by whichever notes. -/
def SameNotes (s s' : σ) : Prop := ∀ noted, Notes noted → noted s' = noted s

namespace SameNotes

variable {s s₁ s₂ : σ}

theorem refl (s : σ) : SameNotes s s := fun _ _ => rfl

theorem reads (s : σ) : ReadsKeep (SameNotes s) :=
  fun _ _ _ _ _ h hread noted notes => (notes.readAt hread).trans (h noted notes)

theorem barriers (s : σ) : BarriersKeep (SameNotes s) where
  flush h hflush noted notes := (notes.flush hflush).trans (h noted notes)
  sync h hsync noted notes := (notes.sync hsync).trans (h noted notes)

theorem truncate (h : SameNotes s s₁) {length : Nat} {result : Except IoError Unit}
    (htruncate : Store.truncate s₁ length = (result, s₂)) : SameNotes s s₂ :=
  fun noted notes => (notes.truncate htruncate).trans (h noted notes)

end SameNotes

end Store

/-- A store that notes what it is asked to append. -/
structure NotingStore (σ : Type) where
  inner : σ
  noted : List Bytes := []

namespace NotingStore

variable {σ : Type} [Store σ]

instance : Store (NotingStore σ) where
  size s := Store.size s.inner
  append s bytes :=
    let (result, inner) := Store.append s.inner bytes
    (result, { inner := inner, noted := s.noted ++ [bytes] })
  flush s :=
    let (result, inner) := Store.flush s.inner
    (result, { s with inner := inner })
  sync s :=
    let (result, inner) := Store.sync s.inner
    (result, { s with inner := inner })
  readAt s offset length :=
    let (result, inner) := Store.readAt s.inner offset length
    (result, { s with inner := inner })
  truncate s size :=
    let (result, inner) := Store.truncate s.inner size
    (result, { s with inner := inner })

/-- The store within holds a byte string. -/
def Holds (Inner : σ → Bytes → Prop) (s : NotingStore σ) (b : Bytes) : Prop := Inner s.inner b

theorem notes : Store.Notes fun s : NotingStore σ => s.noted where
  append h := by cases h; rfl
  flush h := by cases h; rfl
  sync h := by cases h; rfl
  readAt h := by cases h; rfl
  truncate h := by cases h; rfl

theorem laws {Inner : σ → Bytes → Prop} (inner : Store.Laws Inner) : Store.Laws (Holds Inner) where
  size_eq h := inner.size_eq h
  readAt_keeps b := by
    intro s s' offset length result h hcall
    cases hcall
    exact inner.readAt_keeps b h rfl
  readAt_ok h hcall := by
    simp only [Store.readAt, Prod.mk.injEq] at hcall
    exact inner.readAt_ok h (Prod.ext hcall.1 rfl)
  append_ok h hcall := by
    simp only [Store.append, Prod.mk.injEq] at hcall
    obtain ⟨hresult, rfl⟩ := hcall
    exact inner.append_ok h (Prod.ext hresult rfl)
  append_error h hcall := by
    simp only [Store.append, Prod.mk.injEq] at hcall
    obtain ⟨hresult, rfl⟩ := hcall
    exact inner.append_error h (Prod.ext hresult rfl)
  flush_keeps h hcall := by
    cases hcall
    exact inner.flush_keeps h rfl
  sync_keeps h hcall := by
    cases hcall
    exact inner.sync_keeps h rfl
  truncate_ok h hcall := by
    simp only [Store.truncate, Prod.mk.injEq] at hcall
    obtain ⟨hresult, rfl⟩ := hcall
    exact inner.truncate_ok h (Prod.ext hresult rfl)
  truncate_error h hcall := by
    simp only [Store.truncate, Prod.mk.injEq] at hcall
    obtain ⟨hresult, rfl⟩ := hcall
    exact inner.truncate_error h (Prod.ext hresult rfl)

end NotingStore

end Dataflow
