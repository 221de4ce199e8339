import Mathlib.Data.List.Forall2
import Mathlib.Order.Basic

/-!
# Errors

The error values of the modelled operations, with the texts and fields the source gives them.
-/

namespace Ferratomic

/-- `FerraError`: the typed errors of the engine. -/
inductive FerraError where
  | walWrite (message : String)
  | walRead (message : String)
  | checkpointCorrupted (expected actual : String)
  | checkpointWrite (message : String)
  | io (kind message : String)
  | unknownAttribute (attr : String)
  | schemaViolation (attr expected got : String)
  | attributeTooLong (len : Nat)
  | emptyTransaction
  | schemaIncompatible (attr left right : String)
  | backpressure
  | peerUnreachable (addr reason : String)
  | signatureInvalid (txDescription : String)
  | transportError (message : String)
  | truncatedChunk
  | trailingBytes
  | nonCanonicalChunk
  | emptyChunk
  | unknownCodecTag (tag : UInt8)
  | notImplemented (message : String)
  | invariantViolation (invariant details : String)
  deriving DecidableEq, Repr

/-- What a sequence of fallible steps returns. -/
theorem bind_eq_ok {α β : Type} {first : Except FerraError α} {next : α → Except FerraError β}
    {result : β} :
    (first >>= next) = .ok result ↔ ∃ value, first = .ok value ∧ next value = .ok result := by
  cases first with
  | error e =>
      constructor
      · intro h
        cases h
      · rintro ⟨value, h, -⟩
        cases h
  | ok value =>
      constructor
      · intro h
        exact ⟨value, rfl, h⟩
      · rintro ⟨_, hvalue, h⟩
        cases hvalue
        exact h

/-- What a sequence of fallible readings returns. -/
theorem mapM_eq_ok {α β : Type} {read : α → Except FerraError β} {items : List α}
    {results : List β} :
    items.mapM read = .ok results ↔ List.Forall₂ (fun a b => read a = .ok b) items results := by
  induction items generalizing results with
  | nil =>
      rw [List.mapM_nil, List.forall₂_nil_left_iff]
      exact ⟨fun h => by cases h; rfl, fun h => by rw [h]; rfl⟩
  | cons first rest ih =>
      rw [List.mapM_cons, List.forall₂_cons_left_iff, bind_eq_ok]
      constructor
      · rintro ⟨b, hfirst, hlater⟩
        obtain ⟨bs, hrest, hpure⟩ := bind_eq_ok.mp hlater
        cases hpure
        exact ⟨b, bs, hfirst, ih.mp hrest, rfl⟩
      · rintro ⟨b, bs, hfirst, hrest, rfl⟩
        exact ⟨b, hfirst, bind_eq_ok.mpr ⟨bs, ih.mpr hrest, rfl⟩⟩

end Ferratomic
