import Xdr.Message
import Xdr.Proofs.Delivery.Reading
import Xdr.Proofs.Model.Canonical
import Xdr.Proofs.Model.Decoding
import Xdr.Proofs.Model.Encoding

/-!
# Round trips of data

A datum is written under any settings, and read back under any others that allow as much. The
statement to read first is `fromSource_toBytes`: the first length or count over the ceiling is the
only thing that can stand in the way. Where writers and readers of a schema agree, the other way
round holds too: what is read is written back in as many bytes (`toBytes_of_fromSource`), and a
strict reader finds a datum only where its own image stands (`fromBytes_eq_ok_iff`).
-/

namespace Xdr

/-- A run on an encoder that can go on either writes the layout or fails with the first length or
count over the ceiling. -/
theorem Plan.run_of_follows {plan : Plan} {ceiling : UInt32} {outline : Outline} {encoder : Encoder}
    (hready : encoder.Ready) (h : plan.Follows ceiling outline) :
    match outline.sizes.find? (ceiling.toNat < ·) with
    | some got => (plan.run encoder).1 = .error (.lengthExceeded ceiling got)
    | none => (plan.run encoder).1 = .ok () ∧ (plan.run encoder).2.transport.taken.toList =
        encoder.transport.taken.toList ++ outline.layout.image := by
  unfold Follows at h
  cases hfind : outline.sizes.find? (ceiling.toNat < ·) with
  | some got =>
      simp only [hfind] at h ⊢
      obtain ⟨refusal, hrefusal, herror⟩ := h
      rw [run_of_refusal hready hrefusal, herror]
  | none =>
      simp only [hfind] at h ⊢
      obtain ⟨after, hrun, htaken, _, _⟩ := run_of_writes hready h
      rw [hrun]
      exact ⟨rfl, htaken⟩

namespace Schema

variable {definitions : Definitions Schema} {schema : Schema} {datum : Datum} {outline : Outline}

/-- What a datum is written as, or why it is not. -/
theorem toBytes_of_laid (h : Laid definitions schema datum outline) (config : Config) :
    schema.toBytes datum config definitions =
      match outline.sizes.find? (config.maxLength.toNat < ·) with
      | some got => .error (.lengthExceeded config.maxLength got)
      | none => .ok outline.layout.image := by
  have hready : Encoder.Ready { transport := {}, config } :=
    ⟨rfl, Transport.Schedule.unfailing_default⟩
  have hrun := Plan.run_of_follows hready (encode_follows h config.maxLength)
  unfold toBytes
  cases hfind : outline.sizes.find? (config.maxLength.toNat < ·) with
  | some got =>
      simp only [hfind] at hrun ⊢
      rcases hplan : (schema.encode definitions config.maxLength datum).run
        { transport := {}, config } with ⟨result, after⟩
      rw [hplan] at hrun
      obtain rfl : result = _ := hrun
      rfl
  | none =>
      simp only [hfind] at hrun ⊢
      rcases hplan : (schema.encode definitions config.maxLength datum).run
        { transport := {}, config } with ⟨result, after⟩
      rw [hplan] at hrun
      obtain ⟨hok, htaken⟩ := hrun
      obtain rfl : result = _ := hok
      exact congrArg Except.ok htaken

/-- What the layout of a datum admits is read as the datum from the front of any source, if the
settings allow its lengths and counts. -/
theorem fromSource_of_laid (h : Laid definitions schema datum outline) {config : Config}
    (hwithin : outline.Within config.maxLength) {source : Transport.Source}
    {bytes rest : List UInt8}
    (hadmits : outline.layout.Admits config.padding bytes) (hrest : source.rest = bytes ++ rest)
    (hsource : source.schedule.Unfailing) :
    ∃ after, schema.fromSource source config definitions = (.ok datum, after) ∧
      after.rest = rest := by
  have hleft : bytes.length ≤ source.rest.length := by
    rw [hrest, List.length_append]
    omega
  have hready : Decoder.Ready { transport := source, config } := ⟨rfl, hsource⟩
  obtain ⟨after, hrun, hafter, _⟩ :=
    Reading.run_of_accepts hready hrest (decode_of_laid h hwithin hadmits hleft)
  refine ⟨after.transport, ?_, hafter⟩
  simp only [fromSource, hrun]

/-- Where writers and readers agree, a datum that is read is one of the schema within the ceiling,
and it is read from what its layout admits at the front of the source. -/
theorem laid_of_fromSource {config : Config} {source : Transport.Source}
    (hdefinitions : ∀ name body, definitions.lookup name = some body → body.Symmetric)
    (hsymmetric : schema.Symmetric)
    (h : (schema.fromSource source config definitions).1 = .ok datum) :
    ∃ consumed outline,
      source.rest = consumed ++ (schema.fromSource source config definitions).2.rest ∧
        (schema.fromSource source config definitions).2.moved = source.moved + consumed.length ∧
        Laid definitions schema datum outline ∧ outline.Within config.maxLength ∧
        outline.layout.Admits config.padding consumed := by
  have hadvances := (schema.decode definitions config.maxLength source.rest.length).advances_run
    { transport := source, config }
  simp only [fromSource] at h ⊢
  rcases hrun : Reading.run _ { transport := source, config } with ⟨stopped | found, after⟩ <;>
    rw [hrun] at h hadvances
  · cases h
  obtain rfl := Except.ok.inj h
  obtain ⟨given, hgiven, hmoved⟩ := hadvances
  obtain ⟨consumed, hrest, haccepts⟩ := Reading.accepts_of_run hrun
  obtain rfl := List.append_cancel_right (hgiven.symm.trans hrest)
  obtain ⟨outline, hlaid, hwithin, hadmits⟩ := laid_of_accepts hdefinitions hsymmetric haccepts
  exact ⟨given, outline, hrest, hmoved, hlaid, hwithin, hadmits⟩

/-- A datum within the ceiling is written as the image of its layout. -/
theorem toBytes_of_within (h : Laid definitions schema datum outline) {config : Config}
    (hwithin : outline.Within config.maxLength) :
    schema.toBytes datum config definitions = .ok outline.layout.image := by
  have hfits : outline.sizes.find? (config.maxLength.toNat < ·) = none := by
    simpa [Outline.Within] using hwithin
  rw [toBytes_of_laid h config, hfits]

/-- Where writers and readers agree, reading a datum uses up as many bytes as writing it takes. -/
theorem toBytes_of_fromSource {config : Config} {schedule : Transport.Schedule} {wire : List UInt8}
    (hdefinitions : ∀ name body, definitions.lookup name = some body → body.Symmetric)
    (hsymmetric : schema.Symmetric)
    (h : (schema.fromSource { rest := wire, schedule } config definitions).1 = .ok datum) :
    ∃ bytes, schema.toBytes datum config definitions = .ok bytes ∧
      (schema.fromSource { rest := wire, schedule } config definitions).2.moved = bytes.length := by
  obtain ⟨consumed, outline, -, hmoved, hlaid, hwithin, hadmits⟩ :=
    laid_of_fromSource hdefinitions hsymmetric h
  refine ⟨outline.layout.image, toBytes_of_within hlaid hwithin, ?_⟩
  rw [hmoved, Layout.length_image, ← hadmits.length_eq]
  exact Nat.zero_add _

/-- Where writers and readers agree, a strict reader finds a datum on exactly those byte strings
that begin with the image of a layout of the datum within the ceiling. -/
theorem fromBytes_eq_ok_iff {config : Config}
    (hdefinitions : ∀ name body, definitions.lookup name = some body → body.Symmetric)
    (hsymmetric : schema.Symmetric) (hstrict : config.padding = .strict) {data : List UInt8} :
    schema.fromBytes data config definitions = .ok datum ↔
      ∃ outline, Laid definitions schema datum outline ∧ outline.Within config.maxLength ∧
        outline.layout.image <+: data := by
  constructor
  · intro h
    obtain ⟨consumed, outline, hrest, -, hlaid, hwithin, hadmits⟩ :=
      laid_of_fromSource hdefinitions hsymmetric h
    rw [hstrict] at hadmits
    obtain rfl := Layout.admits_strict_iff.mp hadmits
    exact ⟨outline, hlaid, hwithin, _, hrest.symm⟩
  · rintro ⟨outline, hlaid, hwithin, rest, rfl⟩
    let source : Transport.Source := { rest := outline.layout.image ++ rest }
    obtain ⟨after, hread, -⟩ := fromSource_of_laid hlaid hwithin (Layout.admits_image _ _)
      (show source.rest = _ ++ rest from rfl) Transport.Schedule.unfailing_default
    rw [fromBytes, hread]

/-- Writing a datum fails exactly if a length or count in it is over the ceiling, and then with the
first of these. Otherwise the datum is read back from what was written, under all settings with at
least that ceiling, and the bytes behind it are left. -/
theorem fromSource_toBytes (h : Laid definitions schema datum outline) (config : Config) :
    match outline.sizes.find? (config.maxLength.toNat < ·) with
    | some got => schema.toBytes datum config definitions =
        .error (.lengthExceeded config.maxLength got)
    | none => ∃ wire, schema.toBytes datum config definitions = .ok wire ∧
        ∀ (reading : Config) (schedule : Transport.Schedule) (rest : List UInt8),
          config.maxLength ≤ reading.maxLength → schedule.Unfailing →
          ∃ after, schema.fromSource { rest := wire ++ rest, schedule } reading definitions =
            (.ok datum, after) ∧ after.rest = rest := by
  have hwritten := toBytes_of_laid h config
  cases hfind : outline.sizes.find? (config.maxLength.toNat < ·) with
  | some got => simpa only [hfind] using hwritten
  | none =>
      simp only [hfind] at hwritten ⊢
      refine ⟨_, hwritten, fun reading schedule rest hle hschedule => ?_⟩
      have hwithin : outline.Within reading.maxLength := by
        intro size hsize
        have hsizeLe : ¬ config.maxLength.toNat < size := by
          simpa using List.find?_eq_none.mp hfind size hsize
        have := UInt32.le_iff_toNat_le.mp hle
        omega
      exact fromSource_of_laid h hwithin (Layout.admits_image _ _) rfl hschedule

/-- A tree of strings, one of them with a NUL, a map in which a key comes twice, an optional number
that is no number, and five bytes of opaque data. -/
theorem fromSource_toBytes_tree :
    let definitions : Definitions Schema :=
      [("tree", .record 2 [.string, .seq (.ref "tree") .actual {}])]
    let schema : Schema := .tuple 4 [.ref "tree", .map .int8 .char (.length 2) {},
      .enumeration [.unit, .wrapper (.option .float)], .fixedOpaque 5]
    let leaf : Datum := .tuple [.string "", .seq [] none]
    let datum : Datum := .tuple [.tuple [.string "a\x00b", .seq [leaf] none],
      .map [(.int8 (-1), .char 'é'), (.int8 (-1), .char 'x')] none,
      .variant 1 none (.present (.float 0x7fc00001)), .bytes [1, 2, 3, 4, 5]]
    (∃ outline, Laid definitions schema datum outline ∧ outline.sizes = [3, 1, 0, 0, 2]) ∧
      schema.toBytes datum { maxLength := 2 } definitions = .error (.lengthExceeded 2 3) ∧
      ∃ wire, schema.toBytes datum { maxLength := 3 } definitions = .ok wire ∧
        ∀ (reading : Config) (schedule : Transport.Schedule) (rest : List UInt8),
          3 ≤ reading.maxLength → schedule.Unfailing →
          ∃ after, schema.fromSource { rest := wire ++ rest, schedule } reading definitions =
            (.ok datum, after) ∧ after.rest = rest := by
  intro definitions schema leaf datum
  have hleaf : Laid definitions (.ref "tree") leaf (.sized [] ++ ((.count 0 ++ ∅) ++ ∅)) :=
    .ref rfl (.record rfl (.cons (.string "") (.cons (.seq rfl rfl .nil) .nil)))
  have hlaid : ∃ outline, Laid definitions schema datum outline ∧
      outline.sizes = [3, 1, 0, 0, 2] := by
    exact ⟨_, .tuple rfl
      (.cons (.ref rfl (.record rfl
        (.cons (.string _) (.cons (.seq rfl rfl (.cons hleaf .nil)) .nil))))
      (.cons (.map rfl rfl
        (.cons (.int8 _) (.cons (.char _) (.cons (.int8 _) (.cons (.char _) .nil)))))
      (.cons (.variant rfl (.wrapper (.present (.float _))))
      (.cons (.fixedOpaque rfl) .nil)))), by decide⟩
  refine ⟨hlaid, ?_⟩
  obtain ⟨outline, hlaid, hsizes⟩ := hlaid
  have hshort := fromSource_toBytes hlaid { maxLength := 2 }
  have hlong := fromSource_toBytes hlaid { maxLength := 3 }
  rw [hsizes] at hshort hlong
  exact ⟨hshort, hlong⟩

end Schema

end Xdr
