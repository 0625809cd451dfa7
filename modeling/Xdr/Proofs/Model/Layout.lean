import Xdr.Model.Schema
import Xdr.Proofs.Layout
import Xdr.Proofs.Parts
import Xdr.Proofs.References
import Xdr.Text

/-!
# Outlines of data

`Schema.Laid` relates a schema, a datum that is what the schema says, and its outline: the lengths
and counts on the wire, and the layout. No ceiling enters it, and it follows references without a
bound, so that neither settings nor budgets have a part in it.
-/

namespace Xdr

/-- What a datum comes to on the wire: its lengths and counts in the order in which they stand in
front of what they count, and its layout. -/
structure Outline where
  sizes : List Nat
  layout : Layout

namespace Outline

instance : EmptyCollection Outline :=
  ⟨⟨[], []⟩⟩

instance : Append Outline :=
  ⟨fun front back => ⟨front.sizes ++ back.sizes, front.layout ++ back.layout⟩⟩

@[simp] theorem sizes_append (front back : Outline) :
    (front ++ back).sizes = front.sizes ++ back.sizes := rfl

@[simp] theorem layout_append (front back : Outline) :
    (front ++ back).layout = front.layout ++ back.layout := rfl

/-- A layout without a length or count. -/
def plain (layout : Layout) : Outline :=
  ⟨[], layout⟩

@[simp] theorem layout_plain (layout : Layout) : (plain layout).layout = layout := rfl

/-- Data behind its own length. -/
def sized (data : List UInt8) : Outline :=
  ⟨[data.length], .sized data⟩

/-- The count in front of this many elements. -/
def count (elements : Nat) : Outline :=
  ⟨[elements], .word (UInt32.ofNat elements)⟩

/-- Each length and count is within the ceiling. -/
def Within (ceiling : UInt32) (outline : Outline) : Prop :=
  ∀ size ∈ outline.sizes, size ≤ ceiling.toNat

theorem Within.mono {low high : UInt32} {outline : Outline} (h : outline.Within low)
    (hle : low ≤ high) : outline.Within high :=
  fun size hsize => (h size hsize).trans (UInt32.le_iff_toNat_le.mp hle)

theorem within_append_iff {ceiling : UInt32} {front back : Outline} :
    (front ++ back).Within ceiling ↔ front.Within ceiling ∧ back.Within ceiling := by
  unfold Within
  rw [sizes_append]
  exact List.forall_mem_append

theorem within_plain (ceiling : UInt32) (layout : Layout) : (plain layout).Within ceiling :=
  fun _ hmem => absurd hmem List.not_mem_nil

theorem within_count_iff {ceiling : UInt32} {elements : Nat} :
    (count elements).Within ceiling ↔ elements ≤ ceiling.toNat :=
  List.forall_mem_singleton

theorem within_sized_iff {ceiling : UInt32} {data : List UInt8} :
    (sized data).Within ceiling ↔ data.length ≤ ceiling.toNat :=
  List.forall_mem_singleton

end Outline

/-- What a reader that asks until the end hands out beside this many elements: the numbers of
elements left before each of its requests, if it notes them down. -/
def Visit.noted (visit : Visit) (elements : Nat) : Option (List Nat) :=
  if visit.hints then some (List.range (elements + 1)).reverse else none

namespace Datum

/-- The keys and values of a map, one after the other. -/
def flat (entries : List (Datum × Datum)) : List Datum :=
  entries.flatMap fun entry => [entry.1, entry.2]

/-- A datum is no deeper than the deepest. -/
theorem depth_le_depths {datum : Datum} {data : List Datum} (h : datum ∈ data) :
    datum.depth ≤ depths data := by
  induction data with
  | nil => cases h
  | cons head data ih =>
      rw [depths]
      rcases List.mem_cons.mp h with rfl | htail
      · omega
      · have := ih htail
        omega

/-- The depth of entries is that of their keys and values. -/
theorem entryDepths_eq (entries : List (Datum × Datum)) :
    entryDepths entries = depths (flat entries) := by
  induction entries with
  | nil => rfl
  | cons entry entries ih =>
      show max (entryDepth entry) (entryDepths entries) =
        max entry.1.depth (max entry.2.depth (depths (flat entries)))
      rw [← ih, entryDepth]
      omega

end Datum

namespace Schema

/-- Schemas are built from their parts. -/
@[induction_eliminator]
theorem induction {motive : Schema → Prop} (bool : motive bool) (int8 : motive int8) (int16 :
    motive int16) (int32 : motive int32) (int64 : motive int64) (int128 : motive int128) (uint8
    : motive uint8) (uint16 : motive uint16) (uint32 : motive uint32) (uint64 : motive uint64)
    (uint128 : motive uint128) (float : motive float) (double : motive double) (char : motive
    char) (unit : motive unit) (string : motive string) (bytes : motive bytes) (identifier :
    motive identifier) (any : motive any) (ignored : motive ignored) (readable : motive
    readable) (failing : ∀ text, motive (failing text)) (option : ∀ inner, motive inner → motive
    (option inner)) (wrapper : ∀ inner, motive inner → motive (wrapper inner)) (tuple : ∀
    declared elements, (∀ element ∈ elements, motive element) → motive (tuple declared
    elements)) (record : ∀ declared fields, (∀ field ∈ fields, motive field) → motive (record
    declared fields)) (seq : ∀ element told visit, motive element → motive (seq element told
    visit)) (map : ∀ key value told visit, motive key → motive value → motive (map key value
    told visit)) (enumeration : ∀ variants, (∀ variant ∈ variants, motive variant) → motive
    (enumeration variants)) (fixedOpaque : ∀ length, motive (fixedOpaque length)) (opaqueWrapper
    : ∀ inner, motive inner → motive (opaqueWrapper inner)) (ref : ∀ name, motive (ref name))
    (schema : Schema) : motive schema := by
  refine @Schema.rec motive (fun schemas => ∀ schema ∈ schemas, motive schema) bool int8 int16
    int32 int64 int128 uint8 uint16 uint32 uint64 uint128 float double char unit string bytes
    identifier any ignored readable failing option wrapper tuple record seq map enumeration
    fixedOpaque opaqueWrapper ref ?_ ?_ schema
  · exact fun _ hmem => absurd hmem List.not_mem_nil
  · intro schema schemas hschema hschemas other hmem
    rcases List.mem_cons.mp hmem with rfl | hmem
    · exact hschema
    · exact hschemas other hmem

/-- The kinds of the keys and values of this many entries. -/
def entryKinds (key value : Schema) (entries : Nat) : List Schema :=
  (List.replicate entries [key, value]).flatten

theorem eq_or_eq_of_mem_entryKinds {key value kind : Schema} {entries : Nat}
    (h : kind ∈ entryKinds key value entries) : kind = key ∨ kind = value := by
  obtain ⟨kinds, hkinds, hkind⟩ := List.mem_flatten.mp h
  rw [(List.mem_replicate.mp hkinds).2] at hkind
  simpa using hkind

mutual
/-- The names that a datum of the schema refers to before anything is on the wire. -/
def direct : Schema → List String
  | ref name => [name]
  | wrapper inner => direct inner
  | tuple _ elements => directs elements
  | record _ fields => directs fields
  | _ => []

/-- The names that data of the schemas refer to before anything is on the wire. -/
def directs : List Schema → List String
  | [] => []
  | schema :: schemas => direct schema ++ directs schemas
end

theorem mem_directs {name : String} {schemas : List Schema} :
    name ∈ directs schemas ↔ ∃ schema ∈ schemas, name ∈ schema.direct := by
  induction schemas with
  | nil => simp [directs]
  | cons schema schemas ih => simp [directs, ih]

/-- The datum is what the schema says, and this is its outline. Announced are the true numbers of
elements, and a reader asks until the end. -/
inductive Laid (definitions : Definitions Schema) : Schema → Datum → Outline → Prop where
  | bool (value) : Laid definitions bool (.bool value) (.plain (.word (if value then 1 else 0)))
  | int8 (value) : Laid definitions int8 (.int8 value) (.plain (.word value.toInt32.toUInt32))
  | int16 (value) : Laid definitions int16 (.int16 value) (.plain (.word value.toInt32.toUInt32))
  | int32 (value) : Laid definitions int32 (.int32 value) (.plain (.word value.toUInt32))
  | int64 (value) : Laid definitions int64 (.int64 value) (.plain (.hyper value.toUInt64))
  | uint8 (value) : Laid definitions uint8 (.uint8 value) (.plain (.word value.toUInt32))
  | uint16 (value) : Laid definitions uint16 (.uint16 value) (.plain (.word value.toUInt32))
  | uint32 (value) : Laid definitions uint32 (.uint32 value) (.plain (.word value))
  | uint64 (value) : Laid definitions uint64 (.uint64 value) (.plain (.hyper value))
  | float (bits) : Laid definitions float (.float bits) (.plain (.word bits))
  | double (bits) : Laid definitions double (.double bits) (.plain (.hyper bits))
  | char (value) : Laid definitions char (.char value) (.plain (.word value.val))
  | unit : Laid definitions unit .unit ∅
  | string (text) : Laid definitions string (.string text) (.sized (Text.bytes text))
  | bytes (data) : Laid definitions bytes (.bytes data) (.sized data)
  | identifier (value) : Laid definitions identifier (.uint32 value) (.plain (.word value))
  | absent {inner} : Laid definitions (option inner) .absent (.plain (.word 0))
  | present {inner datum outline} : Laid definitions inner datum outline →
      Laid definitions (option inner) (.present datum) (.plain (.word 1) ++ outline)
  | wrapper {inner datum outline} : Laid definitions inner datum outline →
      Laid definitions (wrapper inner) datum outline
  | tuple {declared elements data outline} : declared = elements.length →
      Parts (Laid definitions) elements data outline →
      Laid definitions (tuple declared elements) (.tuple data) outline
  | record {declared fields data outline} : declared = fields.length →
      Parts (Laid definitions) fields data outline →
      Laid definitions (record declared fields) (.tuple data) outline
  | seq {element told visit data outline} : Told.count told data.length = some data.length →
      Visit.take visit = none →
      Parts (Laid definitions) (List.replicate data.length element) data outline →
      Laid definitions (seq element told visit) (.seq data (visit.noted data.length))
        (.count data.length ++ outline)
  | map {key value told visit entries outline} :
      Told.count told entries.length = some entries.length → Visit.take visit = none →
      Parts (Laid definitions) (entryKinds key value entries.length) (Datum.flat entries) outline →
      Laid definitions (map key value told visit) (.map entries (visit.noted entries.length))
        (.count entries.length ++ outline)
  | variant {variants index selected content outline} :
      variants[UInt32.toNat index]? = some selected → Laid definitions selected content outline →
      Laid definitions (enumeration variants) (.variant index none content)
        (.plain (.word index) ++ outline)
  | fixedOpaque {length data} : data.length = length →
      Laid definitions (fixedOpaque length) (.bytes data) (.plain (.padded data))
  | ref {name body datum outline} : definitions.lookup name = some body →
      Laid definitions body datum outline → Laid definitions (ref name) datum outline

variable {definitions : Definitions Schema}

/-- Outlines follow the structure of schemas: what holds of the parts of a datum is there for the
datum itself. -/
@[induction_eliminator]
theorem Laid.induction
    {motive : ∀ schema datum outline, Laid definitions schema datum outline → Prop}
    (bool : ∀ value, motive _ _ _ (.bool value))
    (int8 : ∀ value, motive _ _ _ (.int8 value))
    (int16 : ∀ value, motive _ _ _ (.int16 value))
    (int32 : ∀ value, motive _ _ _ (.int32 value))
    (int64 : ∀ value, motive _ _ _ (.int64 value))
    (uint8 : ∀ value, motive _ _ _ (.uint8 value))
    (uint16 : ∀ value, motive _ _ _ (.uint16 value))
    (uint32 : ∀ value, motive _ _ _ (.uint32 value))
    (uint64 : ∀ value, motive _ _ _ (.uint64 value))
    (float : ∀ bits, motive _ _ _ (.float bits))
    (double : ∀ bits, motive _ _ _ (.double bits))
    (char : ∀ value, motive _ _ _ (.char value))
    (unit : motive _ _ _ .unit)
    (string : ∀ text, motive _ _ _ (.string text))
    (bytes : ∀ data, motive _ _ _ (.bytes data))
    (identifier : ∀ value, motive _ _ _ (.identifier value))
    (absent : ∀ {inner}, motive _ _ _ (@Laid.absent definitions inner))
    (present : ∀ {inner datum outline} (h : Laid definitions inner datum outline),
      motive _ _ _ h → motive _ _ _ (.present h))
    (wrapper : ∀ {inner datum outline} (h : Laid definitions inner datum outline),
      motive _ _ _ h → motive _ _ _ (.wrapper h))
    (tuple : ∀ {declared elements data outline} (hdeclared : declared = elements.length)
      (h : Parts (Laid definitions) elements data outline),
      Parts (fun schema datum outline => ∃ h, motive schema datum outline h) elements data outline →
      motive _ _ _ (.tuple hdeclared h))
    (record : ∀ {declared fields data outline} (hdeclared : declared = fields.length)
      (h : Parts (Laid definitions) fields data outline),
      Parts (fun schema datum outline => ∃ h, motive schema datum outline h) fields data outline →
      motive _ _ _ (.record hdeclared h))
    (seq : ∀ {element told visit data outline}
      (htold : Told.count told data.length = some data.length) (htake : Visit.take visit = none)
      (h : Parts (Laid definitions) (List.replicate data.length element) data outline),
      Parts (fun schema datum outline => ∃ h, motive schema datum outline h)
        (List.replicate data.length element) data outline → motive _ _ _ (.seq htold htake h))
    (map : ∀ {key value told visit entries outline}
      (htold : Told.count told entries.length = some entries.length)
      (htake : Visit.take visit = none)
      (h : Parts (Laid definitions) (entryKinds key value entries.length) (Datum.flat entries)
        outline),
      Parts (fun schema datum outline => ∃ h, motive schema datum outline h)
        (entryKinds key value entries.length) (Datum.flat entries) outline →
      motive _ _ _ (.map htold htake h))
    (variant : ∀ {variants index selected content outline}
      (hselect : variants[UInt32.toNat index]? = some selected)
      (h : Laid definitions selected content outline), motive _ _ _ h →
      motive _ _ _ (.variant hselect h))
    (fixedOpaque : ∀ {length} {data : List UInt8} (h : data.length = length),
      motive _ _ _ (.fixedOpaque h))
    (ref : ∀ {name body datum outline} (hbody : definitions.lookup name = some body)
      (h : Laid definitions body datum outline), motive _ _ _ h → motive _ _ _ (.ref hbody h))
    {schema : Schema} {datum : Datum} {outline : Outline}
    (h : Laid definitions schema datum outline) : motive schema datum outline h :=
  @Laid.rec definitions motive
    (fun schemas data outline _ =>
      Parts (fun schema datum outline => ∃ h, motive schema datum outline h) schemas data outline)
    bool int8 int16 int32 int64 uint8 uint16 uint32 uint64 float double char unit string bytes
    identifier absent present wrapper tuple record seq map variant fixedOpaque ref .nil
    (fun h _ hhead htail => .cons ⟨h, hhead⟩ htail) schema datum outline h

/-- Chains of references through nothing but a datum of its own end where there is such a datum. -/
abbrev Grounded (definitions : Definitions Schema) : Nat → Schema → Prop :=
  definitions.Grounded direct

theorem direct_subset_directs {schemas : List Schema} {schema : Schema} (h : schema ∈ schemas) :
    schema.direct ⊆ directs schemas :=
  fun _ hmem => mem_directs.mpr ⟨schema, h, hmem⟩

/-- A schema with a datum is grounded: the datum would have no end otherwise. -/
theorem Laid.grounded {schema : Schema} {datum : Datum} {outline : Outline}
    (h : Laid definitions schema datum outline) :
    Grounded definitions definitions.length schema := by
  induction h with
  | wrapper _ ih => exact ih
  | tuple _ _ ih =>
      intro name hmem
      obtain ⟨element, helement, hname⟩ := mem_directs.mp hmem
      exact ih.forall_kind (fun h => h.2) element helement name hname
  | record _ _ ih =>
      intro name hmem
      obtain ⟨field, hfield, hname⟩ := mem_directs.mp hmem
      exact ih.forall_kind (fun h => h.2) field hfield name hname
  | ref hbody _ ih =>
      intro name hmem
      obtain rfl := List.mem_singleton.mp hmem
      exact ih.ends hbody
  | _ => exact fun _ hmem => absurd hmem List.not_mem_nil

end Schema

end Xdr
