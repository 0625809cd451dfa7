import Xdr.Proofs.Model.Canonical
import Xdr.Proofs.Model.Encoding
import Xdr.Proofs.Stream.Canonical
import Xdr.Proofs.Stream.Encoding
import Xdr.Session

/-!
# Canonicity

Whatever a decoder reads without an error is written back as the bytes that it was read from, up to
padding (`DecodeStep.written_back`). So nothing but the encoding of a value is read as that value.
-/

namespace Xdr

/-- A step on an encoder writes back what was read between two states of a decoder, and this is the
layout of it. -/
structure EncodeStep.WritesBack (catalog : Catalog) (step : EncodeStep) (layout : Layout)
    (decoder after : Decoder) : Prop where
  /-- Every encoder that can go on and allows as much writes the image of the layout. -/
  writes : ∀ {encoder : Encoder}, encoder.Ready →
    decoder.config.maxLength ≤ encoder.config.maxLength →
    ∃ written, step.run catalog encoder = (.ok (), written) ∧
      written.transport.taken.toList = encoder.transport.taken.toList ++ layout.image
  /-- A strict decoder has read just the image. -/
  strict : decoder.config.padding = .strict →
    decoder.transport.rest = layout.image ++ after.transport.rest
  /-- What a decoder has read has the length of the image, and is the image outside the padding. -/
  lenient : ∃ consumed, decoder.transport.rest = consumed ++ after.transport.rest ∧
    consumed.length = layout.image.length ∧
    ∀ position : Nat, consumed[position]? ≠ layout.image[position]? →
      layout[position]? = some .padding

/-- What was read from bytes that the layout admits is written back by a step whose plan writes the
layout. -/
theorem EncodeStep.writesBack_of_admits {catalog : Catalog} {step : EncodeStep} {layout : Layout}
    {decoder after : Decoder} {consumed : List UInt8} (plan : UInt32 → Plan)
    (hstep : ∀ encoder, step.run catalog encoder = (plan encoder.config.maxLength).run encoder)
    (hplan : ∀ ceiling, decoder.config.maxLength ≤ ceiling → (plan ceiling).Writes layout.image)
    (hrest : decoder.transport.rest = consumed ++ after.transport.rest)
    (hadmits : layout.Admits decoder.config.padding consumed) :
    step.WritesBack catalog layout decoder after := by
  refine ⟨fun {encoder} hready hle => ?_, fun hstrict => ?_, consumed, hrest, ?_, fun _ hne => ?_⟩
  · obtain ⟨written, hrun, htaken, _, _⟩ := Plan.run_of_writes hready (hplan _ hle)
    exact ⟨written, (hstep encoder).trans hrun, htaken⟩
  · rw [hstrict] at hadmits
    rw [hrest, Layout.admits_strict_iff.mp hadmits]
  · rw [hadmits.length_eq, Layout.length_image]
  · exact hadmits.padding_of_ne hne

/-- The answer to a reading shows a value if that is what the reading delivers. -/
theorem DecodeAnswer.ofResult_eq_iff {κ α : Type} {keep : κ → Option Shown} {deliver : α → Shown}
    {result : Except (Stopped κ) α} {shown : Shown} :
    DecodeAnswer.ofResult keep deliver result = { shown := some shown } ↔
      ∃ value, result = .ok value ∧ deliver value = shown := by
  cases result with
  | error stopped => simp [ofResult]
  | ok value => simp [ofResult]

namespace DecodeStep

variable {catalog : Catalog} {decoder after : Decoder}

/-- A value that is read without an error is within the limits of its type, and it is written back.
-/
theorem typed_written_back {type : Ty} {target : Option Value} {value : Value}
    (htarget : ∀ given ∈ target, Ty.Holds catalog.types type given) (hcut : value.cut = value)
    (hrun : (typed type target).run catalog decoder = ({ shown := some (.value value) }, after)) :
    ∃ layout, Ty.Laid catalog.types type value layout ∧
      (EncodeStep.typed type value).WritesBack catalog layout decoder after := by
  obtain ⟨hanswer, hafter⟩ := Prod.mk.inj hrun
  obtain ⟨found, hresult, hshown⟩ := DecodeAnswer.ofResult_eq_iff.mp hanswer
  obtain rfl := Shown.value.inj hshown
  obtain ⟨consumed, hrest, haccepts⟩ := Reading.accepts_of_run (Prod.ext hresult hafter)
  have hholds : Ty.Holds catalog.types type (target.getD (type.zero catalog.types)) := by
    cases target with
    | none => exact Ty.holds_zero_of_accepts haccepts
    | some given => exact htarget given rfl
  obtain ⟨layout, hlaid, hadmits⟩ := Ty.laid_of_accepts hholds haccepts
  refine ⟨layout, hlaid, ?_⟩
  refine EncodeStep.writesBack_of_admits (fun _ => type.encode catalog.types found) (fun _ => rfl)
    (fun _ _ => ?_) hrest hadmits
  exact Ty.encode_of_laid (hcut.symm ▸ hlaid)

/-- A datum of a symmetric schema that is read without an error is one of the schema within the
ceiling, and it is written back. -/
theorem datum_written_back {schema : Schema} {content : Datum}
    (hschemas : ∀ name body, catalog.schemas.lookup name = some body → body.Symmetric)
    (hschema : schema.Symmetric)
    (hrun : (datum schema).run catalog decoder = ({ shown := some (.datum content) }, after)) :
    ∃ outline, Schema.Laid catalog.schemas schema content outline ∧
      outline.Within decoder.config.maxLength ∧
      (EncodeStep.datum schema content).WritesBack catalog outline.layout decoder after := by
  obtain ⟨hanswer, hafter⟩ := Prod.mk.inj hrun
  obtain ⟨found, hresult, hshown⟩ := DecodeAnswer.ofResult_eq_iff.mp hanswer
  obtain rfl := Shown.datum.inj hshown
  obtain ⟨consumed, hrest, haccepts⟩ := Reading.accepts_of_run (Prod.ext hresult hafter)
  obtain ⟨outline, hlaid, hwithin, hadmits⟩ := Schema.laid_of_accepts hschemas hschema haccepts
  refine ⟨outline, hlaid, hwithin, ?_⟩
  refine EncodeStep.writesBack_of_admits
    (fun ceiling => schema.encode catalog.schemas ceiling found) (fun _ => rfl)
    (fun ceiling hle => ?_) hrest hadmits
  exact (Schema.encode_follows hlaid ceiling).writes (hwithin.mono hle)

/-- Whatever a decoder reads without an error is within the limits of what was asked for, and it is
written back as the bytes that it was read from, up to padding. That goes for values of any type
that have no NUL in their strings, and for data of schemas whose writers and readers agree. -/
theorem written_back (catalog : Catalog) (decoder after : Decoder) :
    (∀ (type : Ty) (target : Option Value) (value : Value),
      (∀ given ∈ target, Ty.Holds catalog.types type given) → value.cut = value →
      (typed type target).run catalog decoder = ({ shown := some (.value value) }, after) →
      ∃ layout, Ty.Laid catalog.types type value layout ∧
        (EncodeStep.typed type value).WritesBack catalog layout decoder after) ∧
    ∀ (schema : Schema) (content : Datum),
      (∀ name body, catalog.schemas.lookup name = some body → body.Symmetric) → schema.Symmetric →
      (datum schema).run catalog decoder = ({ shown := some (.datum content) }, after) →
      ∃ outline, Schema.Laid catalog.schemas schema content outline ∧
        outline.Within decoder.config.maxLength ∧
        (EncodeStep.datum schema content).WritesBack catalog outline.layout decoder after :=
  ⟨fun _ _ _ htarget hcut hrun => typed_written_back htarget hcut hrun,
    fun _ _ hschemas hschema hrun => datum_written_back hschemas hschema hrun⟩

/-- A lenient decoder takes a list of byte strings whose padding is not zero, in both layers. What
is written back has zero padding. -/
theorem written_back_lenient :
    let catalog : Catalog :=
      { types := [("list", .struct [.bytes 5, .optional (.ref "list")])]
        schemas := [("list", .record 2 [.bytes, .option (.ref "list")])] }
    let decoder : Decoder :=
      { transport := { rest := [0, 0, 0, 1, 7, 9, 9, 9, 0, 0, 0, 0, 5] }
        config := { padding := .lenient, maxLength := 1 } }
    let value : Value := .list [.bytes [7], .absent]
    let content : Datum := .tuple [.bytes [7], .absent]
    ((typed (.ref "list") none).run catalog decoder).1 = { shown := some (.value value) } ∧
      (∃ layout, Ty.Laid catalog.types (.ref "list") value layout ∧
        (EncodeStep.typed (.ref "list") value).WritesBack catalog layout decoder
          ((typed (.ref "list") none).run catalog decoder).2) ∧
      ((datum (.ref "list")).run catalog decoder).1 = { shown := some (.datum content) } ∧
      ∃ outline, Schema.Laid catalog.schemas (.ref "list") content outline ∧ outline.Within 1 ∧
        (EncodeStep.datum (.ref "list") content).WritesBack catalog outline.layout decoder
          ((datum (.ref "list")).run catalog decoder).2 := by
  intro catalog decoder value content
  have htyped : ((typed (.ref "list") none).run catalog decoder).1 =
      { shown := some (.value value) } := by decide +kernel
  have hdatum : ((datum (.ref "list")).run catalog decoder).1 =
      { shown := some (.datum content) } := by decide +kernel
  have hschemas : ∀ name body, catalog.schemas.lookup name = some body → body.Symmetric := by
    intro name body hbody
    simp only [catalog, List.lookup_cons] at hbody
    split at hbody
    · obtain rfl := Option.some.inj hbody
      exact ⟨rfl, trivial, trivial, trivial⟩
    · cases hbody
  refine ⟨htyped, ?_, hdatum, ?_⟩
  · exact (written_back catalog decoder _).1 _ none _ (fun _ hgiven => by cases hgiven) rfl
      (Prod.ext htyped rfl)
  · exact (written_back catalog decoder _).2 _ _ hschemas trivial (Prod.ext hdatum rfl)

end DecodeStep

end Xdr
