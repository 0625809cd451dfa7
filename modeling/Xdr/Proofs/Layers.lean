import Xdr.Proofs.Layers.Decoding
import Xdr.Session

/-!
# Two layers, one wire

Data of the data model go through the same wire as typed values. The statement to read first is
`layers_agree`: whatever the sink takes and whatever the source gives, serializing a datum and
encoding its value do the same, and so do deserializing and decoding.
-/

namespace Xdr

/-- Named schemas, and the stream types that they are under a ceiling. -/
def Catalog.twofold (ceiling : UInt32) (schemas : Definitions Schema) : Catalog :=
  { types := schemas.streamed ceiling, schemas }

/-- Both have been written, or neither for the same kind of reason. -/
inductive EncodeStep.Agrees : Except Error Unit → Except Error Unit → Prop where
  | done : Agrees (.ok ()) (.ok ())
  | errors {error error'} : Error.SameKind error error' → Agrees (.error error) (.error error')

/-- A datum was read and its value, or neither for the same kind of reason. -/
inductive DecodeAnswer.Agrees : DecodeAnswer → DecodeAnswer → Prop where
  | values (datum : Datum) :
      Agrees { shown := some (.datum datum) } { shown := some (.value datum.streamed) }
  | errors {error error'} (shown) : Error.SameKind error error' →
      Agrees { error := some error } { shown, error := some error' }

theorem Context.twins_self {τ : Type} {context : Context τ} (h : context.poisoned = false) :
    Twins True context.config context.config context context :=
  ⟨rfl, rfl, rfl, rfl, fun _ => h⟩

/-- Two plans that do the same leave the same transport and the same poison flag. -/
theorem EncodeStep.agrees_of_alike {plan plan' : Plan} {encoder : Encoder}
    (h : plan.Alike encoder.config plan') (husable : encoder.poisoned = false) :
    Agrees (plan.run encoder).1 (plan'.run encoder).1 ∧
      (plan'.run encoder).2.transport = (plan.run encoder).2.transport ∧
      (plan'.run encoder).2.poisoned = (plan.run encoder).2.poisoned := by
  have htally := h (Context.twins_self husable)
  generalize plan.run encoder = answer at htally ⊢
  generalize plan'.run encoder = answer' at htally ⊢
  cases htally with
  | done hafter => exact ⟨.done, hafter.transport, hafter.poisoned⟩
  | errors hkind hafter => exact ⟨.errors hkind, hafter.transport, hafter.poisoned⟩
  | narrowed hcause => cases hcause

/-- So do two readings, whatever they keep of a target. -/
theorem DecodeAnswer.agrees_of_alike {reading : Reading Unit Datum} {reading' : Reading Value Value}
    {decoder : Decoder} (h : reading.Alike decoder.config Schema.Same reading')
    (husable : decoder.poisoned = false) :
    Agrees (.ofResult (fun _ => none) .datum (reading.run decoder).1)
        (.ofResult (some ∘ .value) .value (reading'.run decoder).1) ∧
      (reading'.run decoder).2.transport = (reading.run decoder).2.transport ∧
      (reading'.run decoder).2.poisoned = (reading.run decoder).2.poisoned := by
  have htally := h (Context.twins_self husable)
  generalize reading.run decoder = answer at htally ⊢
  generalize reading'.run decoder = answer' at htally ⊢
  cases htally with
  | @values datum _ _ _ hsame hafter =>
      obtain rfl := hsame
      exact ⟨.values datum, hafter.transport, hafter.poisoned⟩
  | errors hkind hafter => exact ⟨.errors _ hkind, hafter.transport, hafter.poisoned⟩
  | narrowed _ hcause => cases hcause

/-- Common data and their values go through the same wire under the ceiling of the settings. From a
context that is not poisoned, writing a datum that is what its schema says and has no NUL in its
strings does the same to any sink as writing its value, and reading a datum does the same to any
source as reading a value into any target of its type: both end well, with the same value, or with
errors of the same kind, at the same position, and with both contexts poisoned or neither. -/
theorem layers_agree (schemas : Definitions Schema)
    (hschemas : ∀ name body, schemas.lookup name = some body → body.Common schemas)
    (hguarded : schemas.Guarded Schema.direct) (schema : Schema) (hschema : schema.Common schemas) :
    (∀ datum : Datum, (∃ outline, schema.Laid schemas datum outline) →
      datum.streamed.cut = datum.streamed → ∀ encoder : Encoder, encoder.poisoned = false →
        let ceiling := encoder.config.maxLength
        let catalog := Catalog.twofold ceiling schemas
        let serialized := (EncodeStep.datum schema datum).run catalog encoder
        let encoded :=
          (EncodeStep.typed (schema.streamed ceiling) datum.streamed).run catalog encoder
        EncodeStep.Agrees serialized.1 encoded.1 ∧
          encoded.2.transport = serialized.2.transport ∧
          encoded.2.poisoned = serialized.2.poisoned) ∧
      ∀ decoder : Decoder, decoder.poisoned = false →
        let ceiling := decoder.config.maxLength
        let catalog := Catalog.twofold ceiling schemas
        ∀ target : Option Value,
          (∀ given ∈ target, (schema.streamed ceiling).Holds catalog.types given) →
          let deserialized := (DecodeStep.datum schema).run catalog decoder
          let decoded := (DecodeStep.typed (schema.streamed ceiling) target).run catalog decoder
          deserialized.1.Agrees decoded.1 ∧
            decoded.2.transport = deserialized.2.transport ∧
            decoded.2.poisoned = deserialized.2.poisoned := by
  constructor
  · intro datum ⟨outline, hlaid⟩ hcut encoder husable
    exact EncodeStep.agrees_of_alike (Schema.alike_encode hschemas hschema hlaid hcut) husable
  · intro decoder husable ceiling catalog target htarget
    have hholds : (schema.streamed ceiling).Holds catalog.types
        (target.getD ((schema.streamed ceiling).zero catalog.types)) := by
      cases target with
      | none => exact hschema.holds_zero hguarded
      | some given => exact htarget given rfl
    exact DecodeAnswer.agrees_of_alike
      (Schema.alike_decode hschemas hguarded hschema decoder.transport.rest.length hholds) husable

/-- Linked nodes behind the index of a variant: the second node has a string over the ceiling, and
the decoders find an index that is not there and is negative as a discriminant. -/
theorem layers_agree_nodes :
    let schemas : Definitions Schema := [("node", .record 2 [.string, .option (.ref "node")])]
    let schema : Schema := .enumeration [.unit, .seq (.ref "node") .actual {}]
    let node : Datum := .tuple [.string "é", .present (.tuple [.string "abc", .absent])]
    let datum : Datum := .variant 1 none (.seq [node] none)
    let target : Value := .union 0 .void
    let catalog := Catalog.twofold 2 schemas
    let encoder : Encoder := { transport := {}, config := { maxLength := 2 } }
    let decoder : Decoder :=
      { transport := { rest := [255, 255, 255, 255, 7] }, config := { maxLength := 2 } }
    let serialized := (EncodeStep.datum schema datum).run catalog encoder
    let encoded := (EncodeStep.typed (schema.streamed 2) datum.streamed).run catalog encoder
    let deserialized := (DecodeStep.datum schema).run catalog decoder
    let decoded := (DecodeStep.typed (schema.streamed 2) (some target)).run catalog decoder
    (∀ name body, schemas.lookup name = some body → body.Common schemas) ∧
      schemas.Guarded Schema.direct ∧ schema.Common schemas ∧
      (∃ outline, schema.Laid schemas datum outline) ∧ datum.streamed.cut = datum.streamed ∧
      (schema.streamed 2).Holds catalog.types target ∧
      EncodeStep.Agrees serialized.1 encoded.1 ∧ serialized.1 = .error (.lengthExceeded 2 3) ∧
      encoded.2.transport = serialized.2.transport ∧
      deserialized.1.Agrees decoded.1 ∧
      deserialized.1.error = some (.invalidDiscriminant 4294967295) ∧
      decoded.1.error = some (.invalidDiscriminant (-1)) ∧
      decoded.2.transport = deserialized.2.transport := by
  intro schemas schema node datum target catalog encoder decoder serialized encoded deserialized
    decoded
  have hentry {name : String} {body : Schema} (hbody : schemas.lookup name = some body) :
      name = "node" ∧ body = .record 2 [.string, .option (.ref "node")] := by
    have hname : name = "node" := by
      by_contra hne
      simp [schemas, List.lookup_cons, beq_false_of_ne hne] at hbody
    obtain rfl := hname
    exact ⟨rfl, (Option.some.inj hbody).symm⟩
  have href : Schema.Common schemas (.ref "node") := .ref rfl
  have hschemas : ∀ name body, schemas.lookup name = some body → body.Common schemas := by
    intro name body hbody
    rw [(hentry hbody).2]
    refine .record rfl fun field hfield => ?_
    rcases List.mem_cons.mp hfield with rfl | hfield
    · exact .string
    · obtain rfl := List.mem_singleton.mp hfield
      exact .option href
  have hguarded : schemas.Guarded Schema.direct := by
    intro name body hbody
    rw [(hentry hbody).1]
    exact ⟨_, rfl, fun _ hmem => absurd hmem List.not_mem_nil⟩
  have hschema : schema.Common schemas := by
    refine .enumeration fun variant hvariant => ?_
    rcases List.mem_cons.mp hvariant with rfl | hvariant
    · exact .unit
    · obtain rfl := List.mem_singleton.mp hvariant
      exact .seq _ rfl href
  have hlaid : ∃ outline, schema.Laid schemas datum outline :=
    ⟨_, .variant rfl (.seq rfl rfl (.cons (.ref rfl (.record rfl (.cons (.string "é")
      (.cons (.present (.ref rfl (.record rfl (.cons (.string "abc")
        (.cons .absent .nil))))) .nil)))) .nil))⟩
  have hcut : datum.streamed.cut = datum.streamed := rfl
  have htarget : (schema.streamed 2).Holds catalog.types target := .union _ _ 0 .void
  obtain ⟨hwrite, hread⟩ := layers_agree schemas hschemas hguarded schema hschema
  obtain ⟨hencoded, hsink, _⟩ := hwrite datum hlaid hcut encoder rfl
  obtain ⟨hdecoded, hsource, _⟩ := hread decoder rfl (some target) fun given hgiven => by
    cases hgiven
    exact htarget
  have hrefused : ((EncodeStep.datum schema datum).run catalog encoder).1 =
      .error (.lengthExceeded 2 3) := by decide +kernel
  exact ⟨hschemas, hguarded, hschema, hlaid, hcut, htarget, hencoded, hrefused, hsink, hdecoded,
    by decide +kernel, by decide +kernel, hsource⟩

end Xdr
