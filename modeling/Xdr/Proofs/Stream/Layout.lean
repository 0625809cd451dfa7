import Xdr.Proofs.Layout
import Xdr.Proofs.Parts
import Xdr.Proofs.References
import Xdr.Proofs.Text
import Xdr.Stream.Filter

/-!
# Layouts of typed values

`Ty.Laid` relates a type, a value within the limits of the type, and the layout of the value. It
follows references without a bound, so no question of budgets enters it. `Ty.Fits` are the values
that have a layout, and `Ty.Holds` the values that a target of the type can hold before it is read
into.
-/

namespace Xdr

namespace Value

/-- Values are built from the values inside them. -/
@[induction_eliminator]
theorem induction {motive : Value → Prop} (int32 : ∀ value, motive (int32 value))
    (uint32 : ∀ value, motive (uint32 value)) (int64 : ∀ value, motive (int64 value))
    (uint64 : ∀ value, motive (uint64 value)) (float : ∀ bits, motive (float bits))
    (double : ∀ bits, motive (double bits)) (bool : ∀ value, motive (bool value))
    (void : motive void) (bytes : ∀ data, motive (bytes data))
    (string : ∀ text, motive (string text))
    (list : ∀ items, (∀ item ∈ items, motive item) → motive (list items)) (absent : motive absent)
    (present : ∀ value, motive value → motive (present value))
    (union : ∀ discriminant arm, motive arm → motive (union discriminant arm)) (value : Value) :
    motive value := by
  refine @Value.rec motive (fun items => ∀ item ∈ items, motive item) int32 uint32 int64 uint64
    float double bool void bytes string list absent present union ?_ ?_ value
  · exact fun _ hmem => absurd hmem List.not_mem_nil
  · intro item items hitem hitems other hmem
    rcases List.mem_cons.mp hmem with rfl | hmem
    · exact hitem
    · exact hitems other hmem

mutual
/-- The value with each string cut at its first NUL. -/
def cut : Value → Value
  | string text => string (Text.cut text)
  | list items => list (cuts items)
  | present value => present (cut value)
  | union discriminant arm => union discriminant (cut arm)
  | value => value

/-- The values with each string cut at its first NUL. -/
def cuts : List Value → List Value
  | [] => []
  | item :: items => cut item :: cuts items
end

theorem cuts_eq_map (items : List Value) : cuts items = items.map cut := by
  induction items with
  | nil => rfl
  | cons item items ih => rw [cuts, ih, List.map_cons]

@[simp] theorem cut_list (items : List Value) : cut (list items) = list (items.map cut) := by
  rw [cut, cuts_eq_map]

/-- A list is not cut where none of its items is. -/
theorem cut_of_mem {items : List Value} (h : cut (list items) = list items) {item : Value}
    (hmem : item ∈ items) : cut item = item := by
  rw [cut_list] at h
  have hmap : items.map cut = items.map id := (list.inj h).trans (List.map_id _).symm
  exact List.map_inj_left.mp hmap item hmem

/-- Strings that are cut are not cut any further. -/
@[simp] theorem cut_cut (value : Value) : value.cut.cut = value.cut := by
  induction value with
  | string text => exact congrArg string (Text.cut_cut text)
  | list items ih =>
      rw [cut_list, cut_list, List.map_map]
      exact congrArg list (List.map_congr_left ih)
  | present value ih => exact congrArg present ih
  | union discriminant arm ih => exact congrArg (union discriminant) ih
  | _ => rfl

theorem depths_map {change : Value → Value} {items : List Value}
    (h : ∀ item ∈ items, (change item).depth = item.depth) :
    depths (items.map change) = depths items := by
  induction items with
  | nil => rfl
  | cons item items ih =>
      rw [List.map_cons, depths, depths, h item List.mem_cons_self,
        ih fun other hmem => h other (List.mem_cons_of_mem _ hmem)]

/-- Cutting strings leaves the depth of a value alone. -/
@[simp] theorem depth_cut (value : Value) : value.cut.depth = value.depth := by
  induction value with
  | list items ih =>
      rw [cut_list, depth, depth, depths_map ih]
  | present value ih => exact congrArg (· + 1) ih
  | union discriminant arm ih => exact congrArg (· + 1) ih
  | _ => rfl

/-- An item is no deeper than the deepest. -/
theorem depth_le_depths {item : Value} {items : List Value} (h : item ∈ items) :
    item.depth ≤ depths items := by
  induction items with
  | nil => cases h
  | cons head items ih =>
      rw [depths]
      rcases List.mem_cons.mp h with rfl | htail
      · omega
      · have := ih htail
        omega

end Value

namespace Ty

/-- Types are built from their parts: a struct from all its parts, and a union from the types that
its discriminants select. -/
@[induction_eliminator]
theorem induction {motive : Ty → Prop} (int32 : motive int32) (uint32 : motive uint32)
    (int64 : motive int64) (uint64 : motive uint64) (float : motive float)
    (double : motive double) (bool : motive bool) (void : motive void)
    (quadruple : motive quadruple) (openEnum : motive openEnum)
    (enumeration : ∀ members, motive (enumeration members))
    (fixedOpaque : ∀ length, motive (fixedOpaque length))
    (bytes : ∀ max, motive (bytes max)) (string : ∀ max, motive (string max))
    (fixedArray : ∀ length element, motive element → motive (fixedArray length element))
    (varArray : ∀ max element, motive element → motive (varArray max element))
    (optional : ∀ inner, motive inner → motive (optional inner))
    (struct : ∀ parts, (∀ part ∈ parts, motive part) → motive (struct parts))
    (union : ∀ arms fallback,
      (∀ discriminant selected, selectArm arms fallback discriminant = some selected →
        motive selected) → motive (union arms fallback))
    (ref : ∀ name, motive (ref name)) (type : Ty) : motive type := by
  refine @Ty.rec motive (fun parts => ∀ part ∈ parts, motive part)
    (fun arms => ∀ arm ∈ arms, motive arm.2)
    (fun fallback => ∀ selected ∈ fallback, motive selected)
    (fun arm => motive arm.2) int32 uint32 int64 uint64 float double bool void quadruple openEnum
    enumeration fixedOpaque bytes string fixedArray varArray optional struct ?_ ref ?_ ?_ ?_ ?_ ?_
    ?_ (fun _ _ h => h) type
  · intro arms fallback harms hfallback
    refine union arms fallback fun discriminant selected hselect => ?_
    unfold selectArm at hselect
    split at hselect
    · next arm hfind =>
        cases hselect
        exact harms arm (List.mem_of_find?_eq_some hfind)
    · exact hfallback selected hselect
  · exact fun _ h => absurd h List.not_mem_nil
  · intro part parts hpart hparts other hmem
    rcases List.mem_cons.mp hmem with rfl | htail
    · exact hpart
    · exact hparts other htail
  · exact fun _ h => absurd h List.not_mem_nil
  · intro arm arms harm harms other hmem
    rcases List.mem_cons.mp hmem with rfl | htail
    · exact harm
    · exact harms other htail
  · exact fun _ h => by cases h
  · intro selected hselected other hmem
    cases hmem
    exact hselected

mutual
/-- The names that a value of the type refers to before anything is on the wire. -/
def direct : Ty → List String
  | ref name => [name]
  | fixedArray length element => if length = 0 then [] else direct element
  | struct parts => directs parts
  | _ => []

/-- The names that values of the types refer to before anything is on the wire. -/
def directs : List Ty → List String
  | [] => []
  | part :: parts => direct part ++ directs parts
end

theorem mem_directs {name : String} {parts : List Ty} :
    name ∈ directs parts ↔ ∃ part ∈ parts, name ∈ part.direct := by
  induction parts with
  | nil => simp [directs]
  | cons part parts ih => simp [directs, ih]

/-- The value is within the limits of the type, and this is its layout. -/
inductive Laid (definitions : Definitions Ty) : Ty → Value → Layout → Prop where
  | int32 (value) : Laid definitions int32 (.int32 value) (.word value.toUInt32)
  | uint32 (value) : Laid definitions uint32 (.uint32 value) (.word value)
  | int64 (value) : Laid definitions int64 (.int64 value) (.hyper value.toUInt64)
  | uint64 (value) : Laid definitions uint64 (.uint64 value) (.hyper value)
  | float (bits) : Laid definitions float (.float bits) (.word bits)
  | double (bits) : Laid definitions double (.double bits) (.hyper bits)
  | bool (value) : Laid definitions bool (.bool value) (.word (if value then 1 else 0))
  | void : Laid definitions void .void []
  | openEnum (value) : Laid definitions openEnum (.int32 value) (.word value.toUInt32)
  | enumeration {members value} : value ∈ members →
      Laid definitions (enumeration members) (.int32 value) (.word value.toUInt32)
  | fixedOpaque {length data} : data.length = length →
      Laid definitions (fixedOpaque length) (.bytes data) (.padded data)
  | bytes {max data} : data.length ≤ max.toNat →
      Laid definitions (bytes max) (.bytes data) (.sized data)
  | string {max text} : (Text.bytes text).length ≤ max.toNat →
      Laid definitions (string max) (.string text) (.sized (Text.bytes text))
  | fixedArray {length element items layout} :
      Parts (Laid definitions) (List.replicate length element) items layout →
      Laid definitions (fixedArray length element) (.list items) layout
  | varArray {max element items layout} : items.length ≤ max.toNat →
      Parts (Laid definitions) (List.replicate items.length element) items layout →
      Laid definitions (varArray max element) (.list items)
        (.word (UInt32.ofNat items.length) ++ layout)
  | absent {inner} : Laid definitions (optional inner) .absent (.word 0)
  | present {inner value layout} : Laid definitions inner value layout →
      Laid definitions (optional inner) (.present value) (.word 1 ++ layout)
  | struct {parts items layout} : Parts (Laid definitions) parts items layout →
      Laid definitions (struct parts) (.list items) layout
  | union {arms fallback discriminant selected arm layout} :
      selectArm arms fallback discriminant = some selected →
      Laid definitions selected arm layout →
      Laid definitions (union arms fallback) (.union discriminant arm)
        (.word discriminant.toUInt32 ++ layout)
  | ref {name body value layout} : definitions.lookup name = some body →
      Laid definitions body value layout → Laid definitions (ref name) value layout

/-- The value is within the limits of the type. -/
def Fits (definitions : Definitions Ty) (type : Ty) (value : Value) : Prop :=
  ∃ layout, Laid definitions type value layout

/-- A target of the type can hold the value. Only lengths that the type fixes matter: what a var
array, an optional or a union holds is thrown away before anything is read. -/
inductive Holds (definitions : Definitions Ty) : Ty → Value → Prop where
  | int32 (value) : Holds definitions int32 (.int32 value)
  | uint32 (value) : Holds definitions uint32 (.uint32 value)
  | int64 (value) : Holds definitions int64 (.int64 value)
  | uint64 (value) : Holds definitions uint64 (.uint64 value)
  | float (bits) : Holds definitions float (.float bits)
  | double (bits) : Holds definitions double (.double bits)
  | bool (value) : Holds definitions bool (.bool value)
  | void : Holds definitions void .void
  | quadruple : Holds definitions quadruple .void
  | openEnum (value) : Holds definitions openEnum (.int32 value)
  | enumeration (members value) : Holds definitions (enumeration members) (.int32 value)
  | fixedOpaque {length data} : data.length = length →
      Holds definitions (fixedOpaque length) (.bytes data)
  | bytes (max data) : Holds definitions (bytes max) (.bytes data)
  | string (max text) : Holds definitions (string max) (.string text)
  | fixedArray {length element items} :
      List.Forall₂ (Holds definitions) (List.replicate length element) items →
      Holds definitions (fixedArray length element) (.list items)
  | varArray (max element items) : Holds definitions (varArray max element) (.list items)
  | absent (inner) : Holds definitions (optional inner) .absent
  | present (inner value) : Holds definitions (optional inner) (.present value)
  | struct {parts items} : List.Forall₂ (Holds definitions) parts items →
      Holds definitions (struct parts) (.list items)
  | union (arms fallback discriminant arm) :
      Holds definitions (union arms fallback) (.union discriminant arm)
  | ref {name body value} : definitions.lookup name = some body → Holds definitions body value →
      Holds definitions (ref name) value

variable {definitions : Definitions Ty}

/-- Layouts follow the structure of types: what holds of the parts of a value is there for the value
itself. -/
@[induction_eliminator]
theorem Laid.induction {motive : ∀ type value layout, Laid definitions type value layout → Prop}
    (int32 : ∀ value, motive _ _ _ (.int32 value))
    (uint32 : ∀ value, motive _ _ _ (.uint32 value))
    (int64 : ∀ value, motive _ _ _ (.int64 value))
    (uint64 : ∀ value, motive _ _ _ (.uint64 value))
    (float : ∀ bits, motive _ _ _ (.float bits))
    (double : ∀ bits, motive _ _ _ (.double bits))
    (bool : ∀ value, motive _ _ _ (.bool value))
    (void : motive _ _ _ .void)
    (openEnum : ∀ value, motive _ _ _ (.openEnum value))
    (enumeration : ∀ {members : List Int32} {value} (h : value ∈ members),
      motive _ _ _ (.enumeration h))
    (fixedOpaque : ∀ {length} {data : List UInt8} (h : data.length = length),
      motive _ _ _ (.fixedOpaque h))
    (bytes : ∀ {max : UInt32} {data : List UInt8} (h : data.length ≤ max.toNat),
      motive _ _ _ (.bytes h))
    (string : ∀ {max : UInt32} {text} (h : (Text.bytes text).length ≤ max.toNat),
      motive _ _ _ (.string h))
    (fixedArray : ∀ {length element items layout}
      (h : Parts (Laid definitions) (List.replicate length element) items layout),
      Parts (fun type value layout => ∃ h, motive type value layout h)
        (List.replicate length element) items layout → motive _ _ _ (.fixedArray h))
    (varArray : ∀ {max : UInt32} {element items layout} (hmax : items.length ≤ max.toNat)
      (h : Parts (Laid definitions) (List.replicate items.length element) items layout),
      Parts (fun type value layout => ∃ h, motive type value layout h)
        (List.replicate items.length element) items layout → motive _ _ _ (.varArray hmax h))
    (absent : ∀ {inner}, motive _ _ _ (@Laid.absent definitions inner))
    (present : ∀ {inner value layout} (h : Laid definitions inner value layout),
      motive _ _ _ h → motive _ _ _ (.present h))
    (struct : ∀ {parts items layout} (h : Parts (Laid definitions) parts items layout),
      Parts (fun type value layout => ∃ h, motive type value layout h) parts items layout →
      motive _ _ _ (.struct h))
    (union : ∀ {arms fallback discriminant selected arm layout}
      (hselect : selectArm arms fallback discriminant = some selected)
      (h : Laid definitions selected arm layout), motive _ _ _ h →
      motive _ _ _ (.union hselect h))
    (ref : ∀ {name body value layout} (hbody : definitions.lookup name = some body)
      (h : Laid definitions body value layout), motive _ _ _ h → motive _ _ _ (.ref hbody h))
    {type : Ty} {value : Value} {layout : Layout} (h : Laid definitions type value layout) :
    motive type value layout h :=
  @Laid.rec definitions motive
    (fun parts items layout _ =>
      Parts (fun type value layout => ∃ h, motive type value layout h) parts items layout)
    int32 uint32 int64 uint64 float double bool void openEnum enumeration fixedOpaque bytes string
    fixedArray varArray absent present struct union ref .nil
    (fun h _ hhead htail => .cons ⟨h, hhead⟩ htail) type value layout h

/-- What a target can hold follows the structure of types as well. -/
@[induction_eliminator]
theorem Holds.induction {motive : ∀ type value, Holds definitions type value → Prop}
    (int32 : ∀ value, motive _ _ (.int32 value))
    (uint32 : ∀ value, motive _ _ (.uint32 value))
    (int64 : ∀ value, motive _ _ (.int64 value))
    (uint64 : ∀ value, motive _ _ (.uint64 value))
    (float : ∀ bits, motive _ _ (.float bits))
    (double : ∀ bits, motive _ _ (.double bits))
    (bool : ∀ value, motive _ _ (.bool value))
    (void : motive _ _ .void)
    (quadruple : motive _ _ .quadruple)
    (openEnum : ∀ value, motive _ _ (.openEnum value))
    (enumeration : ∀ members value, motive _ _ (.enumeration members value))
    (fixedOpaque : ∀ {length} {data : List UInt8} (h : data.length = length),
      motive _ _ (.fixedOpaque h))
    (bytes : ∀ max data, motive _ _ (.bytes max data))
    (string : ∀ max text, motive _ _ (.string max text))
    (fixedArray : ∀ {length element items}
      (h : List.Forall₂ (Holds definitions) (List.replicate length element) items),
      List.Forall₂ (fun type value => ∃ h, motive type value h) (List.replicate length element)
        items → motive _ _ (.fixedArray h))
    (varArray : ∀ max element items, motive _ _ (.varArray max element items))
    (absent : ∀ inner, motive _ _ (.absent inner))
    (present : ∀ inner value, motive _ _ (.present inner value))
    (struct : ∀ {parts items} (h : List.Forall₂ (Holds definitions) parts items),
      List.Forall₂ (fun type value => ∃ h, motive type value h) parts items →
      motive _ _ (.struct h))
    (union : ∀ arms fallback discriminant arm, motive _ _ (.union arms fallback discriminant arm))
    (ref : ∀ {name body value} (hbody : definitions.lookup name = some body)
      (h : Holds definitions body value), motive _ _ h → motive _ _ (.ref hbody h))
    {type : Ty} {value : Value} (h : Holds definitions type value) : motive type value h :=
  @Holds.rec definitions motive
    (fun parts items _ => List.Forall₂ (fun type value => ∃ h, motive type value h) parts items)
    int32 uint32 int64 uint64 float double bool void quadruple openEnum enumeration fixedOpaque
    bytes string fixedArray varArray absent present struct union ref .nil
    (fun h _ hhead htail => .cons ⟨h, hhead⟩ htail) type value h

/-- Chains of references through nothing but a value of its own end where there is such a value. -/
abbrev Grounded (definitions : Definitions Ty) : Nat → Ty → Prop :=
  definitions.Grounded direct

/-- What the elements mention, the array mentions, unless it is empty. -/
theorem direct_subset_fixedArray {length : Nat} {element part : Ty}
    (hpart : part ∈ List.replicate length element) :
    part.direct ⊆ (fixedArray length element).direct := by
  obtain ⟨hlength, rfl⟩ := List.mem_replicate.mp hpart
  rw [direct, if_neg hlength]
  exact List.Subset.refl _

theorem direct_subset_struct {parts : List Ty} {part : Ty} (hpart : part ∈ parts) :
    part.direct ⊆ (struct parts).direct :=
  fun _ hmem => mem_directs.mpr ⟨part, hpart, hmem⟩

/-- A type with a value is grounded: the value would have no end otherwise. -/
theorem Laid.grounded {type : Ty} {value : Value} {layout : Layout}
    (h : Laid definitions type value layout) : Grounded definitions definitions.length type := by
  induction h with
  | fixedArray _ ih =>
      intro name hmem
      rw [direct] at hmem
      split at hmem
      · cases hmem
      · next hlength =>
          exact ih.forall_kind (fun hpart => hpart.2) _ (List.mem_replicate.mpr ⟨hlength, rfl⟩)
            name hmem
  | struct _ ih =>
      intro name hmem
      obtain ⟨part, hpart, hname⟩ := mem_directs.mp hmem
      exact ih.forall_kind (fun hpart => hpart.2) part hpart name hname
  | ref hbody _ ih =>
      intro name hmem
      obtain rfl := List.mem_singleton.mp hmem
      exact ih.ends hbody
  | _ => exact fun _ hmem => absurd hmem List.not_mem_nil

/-- A type with a target is grounded for the same reason. -/
theorem Holds.grounded {type : Ty} {value : Value} (h : Holds definitions type value) :
    Grounded definitions definitions.length type := by
  have hparts : ∀ {parts : List Ty} {items : List Value}, List.Forall₂ (fun part item =>
      ∃ _ : Holds definitions part item, Grounded definitions definitions.length part) parts items →
      ∀ part ∈ parts, Grounded definitions definitions.length part := by
    intro parts items h
    have hboth := h.imp fun _ _ hpart => And.intro hpart.2 trivial
    exact (List.forall₂_and_left parts items).mp hboth |>.1
  induction h with
  | fixedArray _ ih =>
      intro name hmem
      rw [direct] at hmem
      split at hmem
      · cases hmem
      · next hlength => exact hparts ih _ (List.mem_replicate.mpr ⟨hlength, rfl⟩) name hmem
  | struct _ ih =>
      intro name hmem
      obtain ⟨part, hpart, hname⟩ := mem_directs.mp hmem
      exact hparts ih part hpart name hname
  | ref hbody _ ih =>
      intro name hmem
      obtain rfl := List.mem_singleton.mp hmem
      exact ih.ends hbody
  | _ => exact fun _ hmem => absurd hmem List.not_mem_nil

end Ty

end Xdr
