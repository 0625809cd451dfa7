import Xdr.Proofs.Model.Layout
import Xdr.Proofs.Stream.Decoding

/-!
# Data as typed values

Many schemas have a counterpart among the stream types (`Schema.Common`). `Schema.streamed` is that
type, where the ceiling is the maximum of all lengths, and `Datum.streamed` the value that a datum
is there. A tagged variant becomes a union with one arm a variant, and its index the discriminant
(`selectArm_streamed`).
-/

namespace Xdr

namespace Ty

/-- An arm for each type, whose discriminants count up from a number. -/
def numbered : (start : Nat) → List Ty → List (List Int32 × Ty)
  | _, [] => []
  | start, type :: types => ([Int32.ofNat start], type) :: numbered (start + 1) types

/-- The discriminant of an index selects the type at that index. -/
theorem selectArm_numbered {start : Nat} {types : List Ty} {index : UInt32}
    (hstart : start ≤ index.toNat) :
    selectArm (numbered start types) none index.toInt32 = types[index.toNat - start]? := by
  induction types generalizing start with
  | nil => rfl
  | cons type types ih =>
      have hlt := index.toNat_lt
      rcases Nat.eq_or_lt_of_le hstart with rfl | hlater
      · have hindex : Int32.ofNat index.toNat = index.toInt32 := by
          rw [← UInt32.toInt32_ofNat', UInt32.ofNat_toNat]
        simp [selectArm, numbered, hindex]
      · have hne : index.toInt32 ≠ Int32.ofNat start := by
          intro heq
          have hindex := congrArg (fun value => value.toUInt32.toNat) heq
          simp only [UInt32.toUInt32_toInt32, Int32.toUInt32_ofNat', UInt32.toNat_ofNat'] at hindex
          omega
        have hrest := ih hlater
        rw [show index.toNat - start = index.toNat - (start + 1) + 1 by omega,
          List.getElem?_cons_succ, ← hrest]
        simp [selectArm, numbered, hne]

end Ty

namespace Schema

mutual
/-- The stream type of data of the schema. Schemas without a counterpart become the empty type. -/
def streamed (ceiling : UInt32) : Schema → Ty
  | bool => .bool
  | int32 => .int32
  | uint32 => .uint32
  | int64 => .int64
  | uint64 => .uint64
  | float => .float
  | double => .double
  | string => .string ceiling
  | bytes => .bytes ceiling
  | option inner => .optional (streamed ceiling inner)
  | wrapper inner => streamed ceiling inner
  | tuple _ elements => .struct (streamedAll ceiling elements)
  | record _ fields => .struct (streamedAll ceiling fields)
  | seq element _ _ => .varArray ceiling (streamed ceiling element)
  | enumeration variants => .union (Ty.numbered 0 (streamedAll ceiling variants)) none
  | fixedOpaque length => .fixedOpaque length
  | ref name => .ref name
  | _ => .void

/-- The stream types of several schemas. -/
def streamedAll (ceiling : UInt32) : List Schema → List Ty
  | [] => []
  | schema :: schemas => streamed ceiling schema :: streamedAll ceiling schemas
end

theorem streamedAll_eq_map (ceiling : UInt32) (schemas : List Schema) :
    streamedAll ceiling schemas = schemas.map (streamed ceiling) := by
  induction schemas with
  | nil => rfl
  | cons schema schemas ih => rw [streamedAll, ih, List.map_cons]

/-- An index selects the stream type of its variant. -/
theorem selectArm_streamed (ceiling : UInt32) (variants : List Schema) (index : UInt32) :
    Ty.selectArm (Ty.numbered 0 (streamedAll ceiling variants)) none index.toInt32 =
      variants[index.toNat]?.map (streamed ceiling) := by
  rw [Ty.selectArm_numbered (Nat.zero_le _), streamedAll_eq_map, List.getElem?_map, Nat.sub_zero]

/-- The schemas with a counterpart. The number of parts that a tuple announces is the true one, and
whoever reads a sequence asks until the end. -/
inductive Common (definitions : Definitions Schema) : Schema → Prop where
  | bool : Common definitions bool
  | int32 : Common definitions int32
  | uint32 : Common definitions uint32
  | int64 : Common definitions int64
  | uint64 : Common definitions uint64
  | float : Common definitions float
  | double : Common definitions double
  | unit : Common definitions unit
  | string : Common definitions string
  | bytes : Common definitions bytes
  | option {inner} : Common definitions inner → Common definitions (option inner)
  | wrapper {inner} : Common definitions inner → Common definitions (wrapper inner)
  | tuple {declared elements} : declared = elements.length →
      (∀ element ∈ elements, Common definitions element) →
      Common definitions (tuple declared elements)
  | record {declared fields} : declared = fields.length →
      (∀ field ∈ fields, Common definitions field) → Common definitions (record declared fields)
  | seq {element} (told) {visit} : Visit.take visit = none → Common definitions element →
      Common definitions (seq element told visit)
  | enumeration {variants} : (∀ variant ∈ variants, Common definitions variant) →
      Common definitions (enumeration variants)
  | fixedOpaque (length) : Common definitions (fixedOpaque length)
  | ref {name body} : definitions.lookup name = some body → Common definitions (ref name)

end Schema

/-- The stream types of named schemas. -/
def Definitions.streamed (ceiling : UInt32) (definitions : Definitions Schema) : Definitions Ty :=
  definitions.map fun entry => (entry.1, entry.2.streamed ceiling)

namespace Definitions

variable {definitions : Definitions Schema} {ceiling : UInt32}

@[simp] theorem length_streamed : (definitions.streamed ceiling).length = definitions.length :=
  List.length_map _

@[simp] theorem lookup_streamed (name : String) : (definitions.streamed ceiling).lookup name =
    (definitions.lookup name).map (Schema.streamed ceiling) := by
  induction definitions with
  | nil => rfl
  | cons entry definitions ih =>
      rw [streamed, List.map_cons, List.lookup_cons, List.lookup_cons]
      split
      · rfl
      · exact ih

/-- What the stream type mentions directly, the schema does. -/
theorem direct_streamed_subset (schema : Schema) :
    (schema.streamed ceiling).direct ⊆ schema.direct := by
  have hparts {schemas : List Schema}
      (h : ∀ schema ∈ schemas, (schema.streamed ceiling).direct ⊆ schema.direct) :
      Ty.directs (Schema.streamedAll ceiling schemas) ⊆ Schema.directs schemas := by
    intro name hmem
    rw [Schema.streamedAll_eq_map] at hmem
    obtain ⟨part, hpart, hname⟩ := Ty.mem_directs.mp hmem
    obtain ⟨schema, hschema, rfl⟩ := List.mem_map.mp hpart
    exact Schema.mem_directs.mpr ⟨schema, hschema, h schema hschema hname⟩
  induction schema with
  | wrapper inner ih => exact ih
  | tuple declared elements ih => exact hparts ih
  | record declared fields ih => exact hparts ih
  | ref name => exact List.Subset.refl _
  | _ => exact List.nil_subset _

/-- A chain of references ends where it ended before. -/
theorem Ends.streamed {depth : Nat} {name : String}
    (h : definitions.Ends Schema.direct depth name) :
    (definitions.streamed ceiling).Ends Ty.direct depth name := by
  induction depth generalizing name with
  | zero => exact h
  | succ depth ih =>
      obtain ⟨body, hbody, hinner⟩ := h
      refine ⟨body.streamed ceiling, by rw [lookup_streamed, hbody]; rfl, fun inner hmem => ?_⟩
      exact ih (hinner inner (direct_streamed_subset body hmem))

end Definitions

namespace Schema

variable {definitions : Definitions Schema} {ceiling : UInt32} {schema : Schema}

/-- The names that a common schema mentions directly have an entry. -/
theorem Common.defined (h : Common definitions schema) {name : String}
    (hname : name ∈ schema.direct) : ∃ body, definitions.lookup name = some body := by
  induction h with
  | wrapper _ ih => exact ih hname
  | tuple _ _ ih =>
      obtain ⟨element, helement, hmem⟩ := mem_directs.mp hname
      exact ih element helement hmem
  | record _ _ ih =>
      obtain ⟨field, hfield, hmem⟩ := mem_directs.mp hname
      exact ih field hfield hmem
  | ref hbody =>
      obtain rfl := List.mem_singleton.mp hname
      exact ⟨_, hbody⟩
  | _ => exact absurd hname List.not_mem_nil

/-- So new targets of its stream type can be made, if the definitions are of finite depth. -/
theorem Common.holds_zero (hguarded : definitions.Guarded Schema.direct)
    (h : Common definitions schema) :
    (schema.streamed ceiling).Holds (definitions.streamed ceiling)
      ((schema.streamed ceiling).zero (definitions.streamed ceiling)) := by
  refine Ty.holds_zero fun name hname => ?_
  obtain ⟨body, hbody⟩ := h.defined (Definitions.direct_streamed_subset schema hname)
  rw [Definitions.length_streamed]
  exact (hguarded name body hbody).streamed

end Schema

namespace Datum

mutual
/-- The value that a datum is among those of the stream types. Data without a counterpart become the
empty value. -/
def streamed : Datum → Value
  | bool value => .bool value
  | int32 value => .int32 value
  | uint32 value => .uint32 value
  | int64 value => .int64 value
  | uint64 value => .uint64 value
  | float bits => .float bits
  | double bits => .double bits
  | string text => .string text
  | bytes data => .bytes data
  | absent => .absent
  | present datum => .present (streamed datum)
  | tuple elements => .list (streamedAll elements)
  | seq elements _ => .list (streamedAll elements)
  | variant index _ content => .union index.toInt32 (streamed content)
  | _ => .void

/-- The values that data are. -/
def streamedAll : List Datum → List Value
  | [] => []
  | datum :: data => streamed datum :: streamedAll data
end

theorem streamedAll_eq_map (data : List Datum) : streamedAll data = data.map streamed := by
  induction data with
  | nil => rfl
  | cons datum data ih => rw [streamedAll, ih, List.map_cons]

theorem streamed_tuple (elements : List Datum) :
    streamed (.tuple elements) = .list (elements.map streamed) :=
  congrArg Value.list (streamedAll_eq_map elements)

theorem streamed_seq (elements : List Datum) (hints : Option (List Nat)) :
    streamed (.seq elements hints) = .list (elements.map streamed) :=
  congrArg Value.list (streamedAll_eq_map elements)

end Datum

namespace Schema

variable {definitions : Definitions Schema}

/-- The deepest of some parts is as deep as the deepest of their values, if each is. -/
theorem depths_streamed {schemas : List Schema} {data : List Datum} {outline : Outline}
    (h : Parts (fun schema datum _ => Common definitions schema →
      datum.streamed.depth = datum.depth) schemas data outline)
    (hcommon : ∀ schema ∈ schemas, Common definitions schema) :
    Value.depths (Datum.streamedAll data) = Datum.depths data := by
  induction h with
  | nil => rfl
  | cons hhead _ ih =>
      obtain ⟨hschema, hschemas⟩ := List.forall_mem_cons.mp hcommon
      rw [Datum.streamedAll, Value.depths, Datum.depths, hhead hschema, ih hschemas]

/-- A datum and its value are equally deep, so that references are followed equally far. -/
theorem Laid.depth_streamed (hdefinitions : ∀ name body, definitions.lookup name = some body →
      Common definitions body) {schema : Schema} {datum : Datum} {outline : Outline}
    (h : Laid definitions schema datum outline) (hcommon : Common definitions schema) :
    datum.streamed.depth = datum.depth := by
  induction h with
  | present _ ih =>
      cases hcommon with
      | option hinner => exact congrArg (· + 1) (ih hinner)
  | wrapper _ ih =>
      cases hcommon with
      | wrapper hinner => exact ih hinner
  | tuple _ _ ih =>
      cases hcommon with
      | tuple _ helements =>
          exact congrArg (· + 1) (depths_streamed (ih.imp fun hpart => hpart.2) helements)
  | record _ _ ih =>
      cases hcommon with
      | record _ hfields =>
          exact congrArg (· + 1) (depths_streamed (ih.imp fun hpart => hpart.2) hfields)
  | seq _ _ _ ih =>
      cases hcommon with
      | seq _ _ helement =>
          refine congrArg (· + 1)
            (depths_streamed (ih.imp fun hpart => hpart.2) fun schema hmem => ?_)
          rw [(List.mem_replicate.mp hmem).2]
          exact helement
  | map => cases hcommon
  | variant hselect _ ih =>
      cases hcommon with
      | enumeration hvariants =>
          exact congrArg (· + 1) (ih (hvariants _ (List.mem_of_getElem? hselect)))
  | ref hbody _ ih => exact ih (hdefinitions _ _ hbody)
  | _ => rfl

end Schema

end Xdr
