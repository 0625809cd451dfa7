import Xdr.Proofs.Model.Encoding
import Xdr.Proofs.Stream.Leaves

/-!
# Leaves of data

`Schema.Leaves` lists the leaves of a datum that is encoded, as `Ty.Leaves` does for typed values:
the images of its items in order, and the points at which it is refused. The announced number of
elements is written whatever follows it. The statement to read first is `encode_spells`.
-/

namespace Xdr

/-- The number that is announced in front of elements, if it is known. -/
def Leaf.announced (ceiling : UInt32) : Option Nat → Leaf
  | none => .refusal .lengthRequired
  | some count => .limited ceiling count (octets 4 count)

namespace Schema

/-- The error of schemas whose data are never written. -/
def unwritable : Schema → Option Error
  | int128 => some (wideUnsupported "i128")
  | uint128 => some (wideUnsupported "u128")
  | failing text => some (.custom text)
  | _ => none

/-- The datum is one of the schema, and these are its leaves in the order of their encoding, those
behind a refusal included. -/
inductive Leaves (definitions : Definitions Schema) (ceiling : UInt32) :
    Schema → Datum → List Leaf → Prop where
  | bool (value : Bool) : Leaves definitions ceiling bool (.bool value)
      [.image (octets 4 (if value then 1 else 0))]
  | int8 (value : Int8) : Leaves definitions ceiling int8 (.int8 value)
      [.image (octets 4 value.toInt)]
  | int16 (value : Int16) : Leaves definitions ceiling int16 (.int16 value)
      [.image (octets 4 value.toInt)]
  | int32 (value : Int32) : Leaves definitions ceiling int32 (.int32 value)
      [.image (octets 4 value.toInt)]
  | int64 (value : Int64) : Leaves definitions ceiling int64 (.int64 value)
      [.image (octets 8 value.toInt)]
  | uint8 (value : UInt8) : Leaves definitions ceiling uint8 (.uint8 value)
      [.image (octets 4 value.toNat)]
  | uint16 (value : UInt16) : Leaves definitions ceiling uint16 (.uint16 value)
      [.image (octets 4 value.toNat)]
  | uint32 (value : UInt32) : Leaves definitions ceiling uint32 (.uint32 value)
      [.image (octets 4 value.toNat)]
  | uint64 (value : UInt64) : Leaves definitions ceiling uint64 (.uint64 value)
      [.image (octets 8 value.toNat)]
  | float (bits : UInt32) : Leaves definitions ceiling float (.float bits)
      [.image (octets 4 bits.toNat)]
  | double (bits : UInt64) : Leaves definitions ceiling double (.double bits)
      [.image (octets 8 bits.toNat)]
  | char (value : Char) : Leaves definitions ceiling char (.char value)
      [.image (octets 4 value.toNat)]
  | unit (datum) : Leaves definitions ceiling unit datum []
  | string (text) : Leaves definitions ceiling string (.string text)
      [.sized ceiling (Text.bytes text)]
  | bytes (data) : Leaves definitions ceiling bytes (.bytes data) [.sized ceiling data]
  | identifier (value : UInt32) : Leaves definitions ceiling identifier (.uint32 value)
      [.image (octets 4 value.toNat)]
  | readable (datum) : Leaves definitions ceiling readable datum [.image (octets 4 0)]
  | unwritable {schema error} (datum) : schema.unwritable = some error →
      Leaves definitions ceiling schema datum [.refusal error]
  | absent (inner) : Leaves definitions ceiling (option inner) .absent [.image (octets 4 0)]
  | present {inner datum leaves} : Leaves definitions ceiling inner datum leaves →
      Leaves definitions ceiling (option inner) (.present datum) (.image (octets 4 1) :: leaves)
  | wrapper {inner datum leaves} : Leaves definitions ceiling inner datum leaves →
      Leaves definitions ceiling (wrapper inner) datum leaves
  | tuple (declared) {elements data leaves} :
      Parts (Leaves definitions ceiling) elements data leaves →
      Leaves definitions ceiling (tuple declared elements) (.tuple data) leaves
  | record (declared) {fields data leaves} :
      Parts (Leaves definitions ceiling) fields data leaves →
      Leaves definitions ceiling (record declared fields) (.tuple data) leaves
  | seq (told visit hints) {element data leaves} :
      Parts (Leaves definitions ceiling) (List.replicate data.length element) data leaves →
      Leaves definitions ceiling (seq element told visit) (.seq data hints)
        (.announced ceiling (Told.count told data.length) :: leaves)
  | map (told visit hints) {key value entries leaves} :
      Parts (Leaves definitions ceiling) (entryKinds key value entries.length) (Datum.flat entries)
        leaves →
      Leaves definitions ceiling (map key value told visit) (.map entries hints)
        (.announced ceiling (Told.count told entries.length) :: leaves)
  /-- The index that is written may be another than that of the variant. -/
  | variant (told) {variants selected content leaves} {index : UInt32} :
      variants[index.toNat]? = some selected → Leaves definitions ceiling selected content leaves →
      Leaves definitions ceiling (enumeration variants) (.variant index told content)
        (.image (octets 4 (told.getD index).toNat) :: leaves)
  | fixedOpaque (length data) : Leaves definitions ceiling (fixedOpaque length) (.bytes data)
      [.image (filledUp data.length data)]
  | opaqueBytes {inner} (data) : inner.resolve definitions = .bytes →
      Leaves definitions ceiling (opaqueWrapper inner) (.bytes data)
        [.image (filledUp data.length data)]
  | notOpaque {inner} (datum) : inner.resolve definitions ≠ .bytes →
      Leaves definitions ceiling (opaqueWrapper inner) datum
        [.refusal ((inner.resolve definitions).unwritable.getD notOpaque)]
  | ref {name body datum leaves} : definitions.lookup name = some body →
      Leaves definitions ceiling body datum leaves →
      Leaves definitions ceiling (ref name) datum leaves

variable {definitions : Definitions Schema} {ceiling : UInt32}

/-- Leaves follow the structure of schemas: what holds of the parts of a datum is there for the
datum itself. -/
@[induction_eliminator]
theorem Leaves.induction
    {motive : ∀ schema datum leaves, Leaves definitions ceiling schema datum leaves → Prop}
    (bool : ∀ value, motive _ _ _ (.bool value))
    (int8 : ∀ value, motive _ _ _ (.int8 value))
    (int16 : ∀ value, motive _ _ _ (.int16 value))
    (int32 : ∀ value, motive _ _ _ (.int32 value))
    (int64 : ∀ value, motive _ _ _ (.int64 value))
    (uint8 : ∀ value, motive _ _ _ (.uint8 value))
    (uint16 : ∀ value, motive _ _ _ (.uint16 value))
    (uint32 : ∀ value, motive _ _ _ (.uint32 value))
    (uint64 : ∀ value, motive _ _ _ (.uint64 value))
    (float : ∀ bits, motive _ _ _ (.float bits))
    (double : ∀ bits, motive _ _ _ (.double bits))
    (char : ∀ value, motive _ _ _ (.char value))
    (unit : ∀ datum, motive _ _ _ (.unit datum))
    (string : ∀ text, motive _ _ _ (.string text))
    (bytes : ∀ data, motive _ _ _ (.bytes data))
    (identifier : ∀ value, motive _ _ _ (.identifier value))
    (readable : ∀ datum, motive _ _ _ (.readable datum))
    (unwritable : ∀ {schema : Schema} {error} datum (h : schema.unwritable = some error),
      motive _ _ _ (.unwritable datum h))
    (absent : ∀ inner, motive _ _ _ (.absent inner))
    (present : ∀ {inner datum leaves} (h : Leaves definitions ceiling inner datum leaves),
      motive _ _ _ h → motive _ _ _ (.present h))
    (wrapper : ∀ {inner datum leaves} (h : Leaves definitions ceiling inner datum leaves),
      motive _ _ _ h → motive _ _ _ (.wrapper h))
    (tuple : ∀ declared {elements data leaves}
      (h : Parts (Leaves definitions ceiling) elements data leaves),
      Parts (fun schema datum leaves => ∃ h, motive schema datum leaves h) elements data leaves →
      motive _ _ _ (.tuple declared h))
    (record : ∀ declared {fields data leaves}
      (h : Parts (Leaves definitions ceiling) fields data leaves),
      Parts (fun schema datum leaves => ∃ h, motive schema datum leaves h) fields data leaves →
      motive _ _ _ (.record declared h))
    (seq : ∀ told visit hints {element data leaves}
      (h : Parts (Leaves definitions ceiling) (List.replicate data.length element) data leaves),
      Parts (fun schema datum leaves => ∃ h, motive schema datum leaves h)
        (List.replicate data.length element) data leaves →
      motive _ _ _ (.seq told visit hints h))
    (map : ∀ told visit hints {key value entries leaves}
      (h : Parts (Leaves definitions ceiling) (entryKinds key value entries.length)
        (Datum.flat entries) leaves),
      Parts (fun schema datum leaves => ∃ h, motive schema datum leaves h)
        (entryKinds key value entries.length) (Datum.flat entries) leaves →
      motive _ _ _ (.map told visit hints h))
    (variant : ∀ told {variants selected content leaves} {index : UInt32}
      (hselect : variants[index.toNat]? = some selected)
      (h : Leaves definitions ceiling selected content leaves), motive _ _ _ h →
      motive _ _ _ (.variant told hselect h))
    (fixedOpaque : ∀ length data, motive _ _ _ (.fixedOpaque length data))
    (opaqueBytes : ∀ {inner : Schema} data (h : inner.resolve definitions = Schema.bytes),
      motive _ _ _ (.opaqueBytes data h))
    (notOpaque : ∀ {inner : Schema} datum (h : inner.resolve definitions ≠ Schema.bytes),
      motive _ _ _ (.notOpaque datum h))
    (ref : ∀ {name body datum leaves} (hbody : definitions.lookup name = some body)
      (h : Leaves definitions ceiling body datum leaves), motive _ _ _ h →
      motive _ _ _ (.ref hbody h))
    {schema : Schema} {datum : Datum} {leaves : List Leaf}
    (h : Leaves definitions ceiling schema datum leaves) : motive schema datum leaves h :=
  @Leaves.rec definitions ceiling motive
    (fun schemas data leaves _ =>
      Parts (fun schema datum leaves => ∃ h, motive schema datum leaves h) schemas data leaves)
    bool int8 int16 int32 int64 uint8 uint16 uint32 uint64 float double char unit string bytes
    identifier readable unwritable absent present wrapper tuple record seq map variant fixedOpaque
    opaqueBytes notOpaque ref .nil (fun h _ hhead htail => .cons ⟨h, hhead⟩ htail) schema datum
    leaves h

/-- The names that stand for the same datum as the schema. -/
def aliased : Schema → List String
  | ref name => [name]
  | wrapper inner => aliased inner
  | _ => []

theorem aliased_of_unwritable {schema : Schema} {error : Error}
    (h : schema.unwritable = some error) : schema.aliased = [] := by
  cases schema <;> cases h <;> rfl

/-- Names that stand for one another come to an end where there is a datum. -/
theorem Leaves.grounded {schema : Schema} {datum : Datum} {leaves : List Leaf}
    (h : Leaves definitions ceiling schema datum leaves) :
    definitions.Grounded aliased definitions.length schema := by
  induction h with
  | wrapper _ ih => exact ih
  | unwritable datum h =>
      intro name hmem
      rw [aliased_of_unwritable h] at hmem
      cases hmem
  | ref hbody _ ih =>
      intro name hmem
      obtain rfl := List.mem_singleton.mp hmem
      exact ih.ends hbody
  | _ => exact fun _ hmem => absurd hmem List.not_mem_nil

/-- Where enough references are followed, the plan of the datum spells these leaves: as many as
there are in front of the datum, and as many as there are definitions for each datum inside it. -/
def Spelled (definitions : Definitions Schema) (ceiling : UInt32) (schema : Schema) (datum : Datum)
    (leaves : List Leaf) : Prop :=
  ∀ {chain depth : Nat}, definitions.Grounded aliased chain schema →
    chain + definitions.length * datum.depth ≤ depth →
    (plan definitions ceiling depth schema datum).Spells leaves

/-- The parts of a datum are spelled one after the other. -/
theorem concat_spelled {schemas : List Schema} {data : List Datum} {leaves : List Leaf}
    {depth : Nat}
    (h : Parts (fun schema datum front => ∃ _ : Leaves definitions ceiling schema datum front,
      Spelled definitions ceiling schema datum front) schemas data leaves)
    (hdepth : definitions.length + definitions.length * Datum.depths data ≤ depth) :
    (Plan.concat (List.zipWith (plan definitions ceiling depth) schemas data)).Spells leaves := by
  refine Plan.concat_spells (h.imp_of_mem List.length (fun _ _ => List.length_append) ?_)
  intro schema _ datum hdatum front _ ⟨hleaves, hspelled⟩
  refine hspelled hleaves.grounded ?_
  have := Nat.mul_le_mul_left definitions.length (Datum.depth_le_depths hdatum)
  omega

/-- A known number of elements within the ceiling is announced, and elements follow it. -/
theorem announced_spells {told : Option Nat} {elements : Plan} {leaves : List Leaf}
    (h : elements.Spells leaves) :
    (countPlan ceiling told ++ elements).Spells (.announced ceiling told :: leaves) := by
  have hcount : (countPlan ceiling told).Spells [.announced ceiling told] := by
    cases told with
    | none => exact Plan.spells_refuse _ []
    | some count =>
        exact Plan.spells_limited rfl fun hle =>
          Plan.spells_one (.uint32 _) (octets_count hle)
  exact hcount.append h

theorem spelled_of_image {schema : Schema} {datum : Datum} {item : Item} {bytes : List UInt8}
    (hplan : ∀ depth, plan definitions ceiling depth schema datum = .one item)
    (hbytes : bytes = item.image) : Spelled definitions ceiling schema datum [.image bytes] := by
  intro _ depth _ _
  rw [hplan depth]
  exact Plan.spells_one item hbytes

/-- The plan of a datum spells its leaves. -/
theorem Leaves.spelled {schema : Schema} {datum : Datum} {leaves : List Leaf}
    (h : Leaves definitions ceiling schema datum leaves) :
    Spelled definitions ceiling schema datum leaves := by
  induction h with
  | bool value =>
      refine spelled_of_image (fun _ => rfl) ?_
      cases value with
      | false => exact octets_word 0
      | true => exact octets_word 1
  | int8 value =>
      refine spelled_of_image (fun _ => rfl) ?_
      rw [← Int8.toInt_toInt32]
      exact octets_int32 _
  | int16 value =>
      refine spelled_of_image (fun _ => rfl) ?_
      rw [← Int16.toInt_toInt32]
      exact octets_int32 _
  | int32 value => exact spelled_of_image (fun _ => rfl) (octets_int32 value)
  | int64 value => exact spelled_of_image (fun _ => rfl) (octets_int64 value)
  | uint8 value =>
      refine spelled_of_image (fun _ => rfl) ?_
      rw [← UInt8.toNat_toUInt32]
      exact octets_word _
  | uint16 value =>
      refine spelled_of_image (fun _ => rfl) ?_
      rw [← UInt16.toNat_toUInt32]
      exact octets_word _
  | uint32 value => exact spelled_of_image (fun _ => rfl) (octets_word value)
  | uint64 value => exact spelled_of_image (fun _ => rfl) (octets_hyper value)
  | float bits => exact spelled_of_image (fun _ => rfl) (octets_word bits)
  | double bits => exact spelled_of_image (fun _ => rfl) (octets_hyper bits)
  | char value => exact spelled_of_image (fun _ => rfl) (octets_word value.val)
  | unit datum => exact fun _ _ => Plan.spells_empty
  | string text => exact fun _ _ => Ty.spells_encodeSized .bytes .bytes ceiling _
  | bytes data => exact fun _ _ => Ty.spells_encodeSized .bytes .bytes ceiling data
  | identifier value => exact spelled_of_image (fun _ => rfl) (octets_word value)
  | readable datum => exact spelled_of_image (fun _ => rfl) (octets_word 0)
  | @unwritable schema error datum h =>
      intro _ depth _ _
      have hplan : plan definitions ceiling depth schema datum = raising error := by
        cases schema <;> cases h <;> rfl
      rw [hplan]
      exact Plan.spells_refuse _ []
  | absent inner => exact spelled_of_image (fun _ => rfl) (octets_word 0)
  | present h ih =>
      intro chain depth _ hdepth
      rw [Datum.depth, Nat.mul_succ] at hdepth
      exact (Plan.spells_one (.uint32 1) (octets_word 1)).append (ih h.grounded (by omega))
  | wrapper _ ih => exact ih
  | tuple declared hparts ih =>
      intro chain depth _ hdepth
      rw [Datum.depth, Nat.mul_succ] at hdepth
      show (inTurn _ _).Spells _
      rw [inTurn_eq hparts.length_eq]
      exact concat_spelled ih (by omega)
  | record declared hparts ih =>
      intro chain depth _ hdepth
      rw [Datum.depth, Nat.mul_succ] at hdepth
      show (inTurn _ _).Spells _
      rw [inTurn_eq hparts.length_eq]
      exact concat_spelled ih (by omega)
  | @seq told visit hints element data leaves _ ih =>
      intro chain depth _ hdepth
      rw [Datum.depth, Nat.mul_succ] at hdepth
      refine announced_spells ?_
      show (Plan.concat (data.map (plan definitions ceiling depth element))).Spells leaves
      rw [← zipWith_replicate_left (plan definitions ceiling depth) rfl]
      exact concat_spelled ih (by omega)
  | @map told visit hints key value entries leaves _ ih =>
      intro chain depth _ hdepth
      rw [Datum.depth, Datum.entryDepths_eq, Nat.mul_succ] at hdepth
      refine announced_spells ?_
      show (Plan.concat (entries.map fun entry => plan definitions ceiling depth key entry.1 ++
        plan definitions ceiling depth value entry.2)).Spells leaves
      rw [concat_entries]
      exact concat_spelled ih (by omega)
  | @variant told variants selected content leaves index hselect h ih =>
      intro chain depth _ hdepth
      rw [Datum.depth, Nat.mul_succ] at hdepth
      have hplan : plan definitions ceiling depth (.enumeration variants)
          (.variant index told content) = .one (.uint32 (told.getD index)) ++
            plan definitions ceiling depth selected content := by
        rw [plan, planWith, plansWith_eq_map, List.getElem?_map, hselect]
        rfl
      rw [hplan]
      exact (Plan.spells_one (.uint32 _) (octets_word _)).append (ih h.grounded (by omega))
  | fixedOpaque length data =>
      refine spelled_of_image (fun _ => rfl) ?_
      rw [Ty.filledUp_eq, Layout.image_padded]
      rfl
  | @opaqueBytes inner data h =>
      intro _ depth _ _
      show (wrappedPlan (inner.resolve definitions) _).Spells _
      rw [h]
      refine Plan.spells_one (.fixedOpaque data) ?_
      rw [Ty.filledUp_eq, Layout.image_padded]
      rfl
  | @notOpaque inner datum h =>
      intro _ depth _ _
      show (wrappedPlan (inner.resolve definitions) datum).Spells _
      generalize inner.resolve definitions = resolved at h
      cases resolved <;> first | exact absurd rfl h | exact Plan.spells_refuse _ []
  | ref hbody h ih =>
      intro chain depth hgrounded hdepth
      obtain ⟨chain, rfl, hbodyGrounded⟩ := hgrounded.body List.mem_cons_self hbody
      obtain ⟨depth, rfl⟩ := Nat.exists_eq_add_of_le' (show 1 ≤ depth by omega)
      rw [plan_ref hbody]
      exact ih hbodyGrounded (by omega)

/-- The plan that a datum is encoded with spells its leaves. -/
theorem encode_spells {schema : Schema} {datum : Datum} {leaves : List Leaf}
    (h : Leaves definitions ceiling schema datum leaves) :
    (schema.encode definitions ceiling datum).Spells leaves :=
  h.spelled h.grounded (definitions.budget_le (Nat.le_refl _))

end Schema

end Xdr
