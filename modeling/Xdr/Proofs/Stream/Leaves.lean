import Xdr.Proofs.Stream.Encoding
import Xdr.Proofs.Stream.Standard

/-!
# Leaves of typed values

Encoding walks through the leaves of a value: the numbers, counts, discriminants and data in it, and
the points at which it is refused. `Ty.Leaves` lists them in order for every value that has the
shape of a type, whatever its lengths, discriminants and members of enumerations are. The statement
to read first is `stops_at_refusal`: an encoder writes the images of the leaves up to the first
refusal, whose error it answers with.
-/

namespace Xdr

/-- A leaf of a value that is encoded. -/
inductive Leaf where
  /-- The complete image of an item. -/
  | image (bytes : List UInt8)
  /-- The value is refused here. -/
  | refusal (error : Error)
  deriving DecidableEq, Repr

/-- There is one first refusal among leaves, with the same images in front of it. -/
theorem Leaf.front_unique {images images' : List (List UInt8)} {error error' : Error}
    {later later' : List Leaf}
    (h : images.map .image ++ .refusal error :: later =
      images'.map .image ++ .refusal error' :: later') : images = images' ∧ error = error' := by
  induction images generalizing images' with
  | nil =>
      cases images' with
      | nil => exact ⟨rfl, Leaf.refusal.inj (List.cons.inj h).1⟩
      | cons => cases (List.cons.inj h).1
  | cons image images ih =>
      cases images' with
      | nil => cases (List.cons.inj h).1
      | cons =>
          obtain ⟨himages, herror⟩ := ih (List.cons.inj h).2
          exact ⟨by rw [Leaf.image.inj (List.cons.inj h).1, himages], herror⟩

/-- An item that says how long something is, which is refused if that is more than `max`. -/
def Leaf.limited (max : UInt32) (length : Nat) (image : List UInt8) : Leaf :=
  if length ≤ max.toNat then .image image else .refusal (.lengthExceeded max length)

/-- Data behind its own length of at most `max`. -/
def Leaf.sized (max : UInt32) (data : List UInt8) : Leaf :=
  .limited max data.length (octets 4 data.length ++ filledUp data.length data)

/-- A member of an enumeration. -/
def Leaf.member (members : List Int32) (value : Int32) : Leaf :=
  if value ∈ members then .image (octets 4 value.toInt) else .refusal (.invalidEnum value)

namespace Ty

/-- The value has the shape of the type, and these are its leaves in the order of their encoding,
those behind a refusal included. Only a union without an arm for its discriminant has none behind
its refusal, since nothing is known about what it holds. -/
inductive Leaves (definitions : Definitions Ty) : Ty → Value → List Leaf → Prop where
  | int32 (value : Int32) : Leaves definitions int32 (.int32 value) [.image (octets 4 value.toInt)]
  | uint32 (value : UInt32) :
      Leaves definitions uint32 (.uint32 value) [.image (octets 4 value.toNat)]
  | int64 (value : Int64) : Leaves definitions int64 (.int64 value) [.image (octets 8 value.toInt)]
  | uint64 (value : UInt64) :
      Leaves definitions uint64 (.uint64 value) [.image (octets 8 value.toNat)]
  | float (bits : UInt32) : Leaves definitions float (.float bits) [.image (octets 4 bits.toNat)]
  | double (bits : UInt64) : Leaves definitions double (.double bits) [.image (octets 8 bits.toNat)]
  | bool (value : Bool) :
      Leaves definitions bool (.bool value) [.image (octets 4 (if value then 1 else 0))]
  | void : Leaves definitions void .void []
  | quadruple : Leaves definitions quadruple .void [.refusal (.unsupported "quadruple")]
  | openEnum (value : Int32) :
      Leaves definitions openEnum (.int32 value) [.image (octets 4 value.toInt)]
  | enumeration (members value) :
      Leaves definitions (enumeration members) (.int32 value) [.member members value]
  | fixedOpaque (length data) :
      Leaves definitions (fixedOpaque length) (.bytes data) [.image (filledUp data.length data)]
  | bytes (max data) : Leaves definitions (bytes max) (.bytes data) [.sized max data]
  /-- The tail of a string behind its first NUL is neither measured nor written. -/
  | string (max text) : Leaves definitions (string max) (.string text)
      [.sized max (Text.untilNul (Text.bytes text))]
  | fixedArray {length element items leaves} :
      Parts (Leaves definitions) (List.replicate items.length element) items leaves →
      Leaves definitions (fixedArray length element) (.list items) leaves
  | varArray {max element items leaves} :
      Parts (Leaves definitions) (List.replicate items.length element) items leaves →
      Leaves definitions (varArray max element) (.list items)
        (.limited max items.length (octets 4 items.length) :: leaves)
  | absent (inner) : Leaves definitions (optional inner) .absent [.image (octets 4 0)]
  | present {inner value leaves} : Leaves definitions inner value leaves →
      Leaves definitions (optional inner) (.present value) (.image (octets 4 1) :: leaves)
  | struct {parts items leaves} : Parts (Leaves definitions) parts items leaves →
      Leaves definitions (struct parts) (.list items) leaves
  | union {arms fallback selected arm leaves} {discriminant : Int32} :
      selectArm arms fallback discriminant = some selected →
      Leaves definitions selected arm leaves →
      Leaves definitions (union arms fallback) (.union discriminant arm)
        (.image (octets 4 discriminant.toInt) :: leaves)
  | unionWithoutArm {arms fallback arm} {discriminant : Int32} :
      selectArm arms fallback discriminant = none →
      Leaves definitions (union arms fallback) (.union discriminant arm)
        [.image (octets 4 discriminant.toInt), .refusal (.invalidDiscriminant discriminant.toInt)]
  | ref {name body value leaves} : definitions.lookup name = some body →
      Leaves definitions body value leaves → Leaves definitions (ref name) value leaves

variable {definitions : Definitions Ty}

/-- Leaves follow the structure of types: what holds of the parts of a value is there for the value
itself. -/
@[induction_eliminator]
theorem Leaves.induction {motive : ∀ type value leaves, Leaves definitions type value leaves → Prop}
    (int32 : ∀ value, motive _ _ _ (.int32 value))
    (uint32 : ∀ value, motive _ _ _ (.uint32 value))
    (int64 : ∀ value, motive _ _ _ (.int64 value))
    (uint64 : ∀ value, motive _ _ _ (.uint64 value))
    (float : ∀ bits, motive _ _ _ (.float bits))
    (double : ∀ bits, motive _ _ _ (.double bits))
    (bool : ∀ value, motive _ _ _ (.bool value))
    (void : motive _ _ _ .void)
    (quadruple : motive _ _ _ .quadruple)
    (openEnum : ∀ value, motive _ _ _ (.openEnum value))
    (enumeration : ∀ members value, motive _ _ _ (.enumeration members value))
    (fixedOpaque : ∀ length data, motive _ _ _ (.fixedOpaque length data))
    (bytes : ∀ max data, motive _ _ _ (.bytes max data))
    (string : ∀ max text, motive _ _ _ (.string max text))
    (fixedArray : ∀ {length element items leaves}
      (h : Parts (Leaves definitions) (List.replicate items.length element) items leaves),
      Parts (fun type value leaves => ∃ h, motive type value leaves h)
        (List.replicate items.length element) items leaves →
      motive _ _ _ (@Leaves.fixedArray definitions length _ _ _ h))
    (varArray : ∀ {max element items leaves}
      (h : Parts (Leaves definitions) (List.replicate items.length element) items leaves),
      Parts (fun type value leaves => ∃ h, motive type value leaves h)
        (List.replicate items.length element) items leaves →
      motive _ _ _ (@Leaves.varArray definitions max _ _ _ h))
    (absent : ∀ inner, motive _ _ _ (.absent inner))
    (present : ∀ {inner value leaves} (h : Leaves definitions inner value leaves),
      motive _ _ _ h → motive _ _ _ (.present h))
    (struct : ∀ {parts items leaves} (h : Parts (Leaves definitions) parts items leaves),
      Parts (fun type value leaves => ∃ h, motive type value leaves h) parts items leaves →
      motive _ _ _ (.struct h))
    (union : ∀ {arms fallback selected arm leaves} {discriminant : Int32}
      (hselect : selectArm arms fallback discriminant = some selected)
      (h : Leaves definitions selected arm leaves), motive _ _ _ h →
      motive _ _ _ (.union hselect h))
    (unionWithoutArm : ∀ {arms fallback arm} {discriminant : Int32}
      (hselect : selectArm arms fallback discriminant = none),
      motive _ _ _ (@Leaves.unionWithoutArm definitions _ _ arm _ hselect))
    (ref : ∀ {name body value leaves} (hbody : definitions.lookup name = some body)
      (h : Leaves definitions body value leaves), motive _ _ _ h → motive _ _ _ (.ref hbody h))
    {type : Ty} {value : Value} {leaves : List Leaf} (h : Leaves definitions type value leaves) :
    motive type value leaves h :=
  @Leaves.rec definitions motive
    (fun parts items leaves _ =>
      Parts (fun type value leaves => ∃ h, motive type value leaves h) parts items leaves)
    int32 uint32 int64 uint64 float double bool void quadruple openEnum enumeration fixedOpaque
    bytes string fixedArray varArray absent present struct union unionWithoutArm ref .nil
    (fun h _ hhead htail => .cons ⟨h, hhead⟩ htail) type value leaves h

/-- The name that stands for the same value as the type. -/
def aliased : Ty → List String
  | ref name => [name]
  | _ => []

/-- Names that stand for one another come to an end where there is a value. -/
theorem Leaves.grounded {type : Ty} {value : Value} {leaves : List Leaf}
    (h : Leaves definitions type value leaves) :
    definitions.Grounded aliased definitions.length type := by
  induction h with
  | ref hbody _ ih =>
      intro name hmem
      obtain rfl := List.mem_singleton.mp hmem
      exact ih.ends hbody
  | _ => exact fun _ hmem => absurd hmem List.not_mem_nil

end Ty

/-! ### Plans and leaves -/

namespace Plan

/-- The items of the plan are the leaves up to the first refusal, and the plan ends with its error.
Without a refusal they are all the leaves. -/
def Spells (plan : Plan) (leaves : List Leaf) : Prop :=
  ∃ rest, leaves = plan.items.map (fun item => .image item.image) ++ rest ∧
    match plan.refusal with
    | none => rest = []
    | some refusal => ∃ later, rest = .refusal refusal.error :: later

theorem spells_empty : empty.Spells [] :=
  ⟨[], rfl, rfl⟩

/-- One item is the leaf that has its image. -/
theorem spells_one (item : Item) {bytes : List UInt8} (h : bytes = item.image) :
    (one item).Spells [.image bytes] :=
  ⟨[], by rw [h]; rfl, rfl⟩

/-- Nothing is spelled behind a refusal, whatever leaves follow it. -/
theorem spells_refuse (refusal : Refusal) (later : List Leaf) :
    (refuse refusal).Spells (.refusal refusal.error :: later) :=
  ⟨_, rfl, later, rfl⟩

theorem Spells.append {first second : Plan} {front back : List Leaf} (hfirst : first.Spells front)
    (hsecond : second.Spells back) : (first ++ second).Spells (front ++ back) := by
  obtain ⟨items, refusal⟩ := first
  obtain ⟨rest, rfl, hrest⟩ := hfirst
  cases refusal with
  | none =>
      obtain ⟨rest', rfl, hrest'⟩ := hsecond
      cases hrest
      refine ⟨rest', ?_, hrest'⟩
      rw [List.append_nil, ← List.append_assoc, ← List.map_append]
      rfl
  | some refusal =>
      obtain ⟨later, rfl⟩ := hrest
      exact ⟨_, List.append_assoc _ _ _, later ++ back, rfl⟩

/-- Something within its limit is written as a whole, and anything else is refused as a whole. -/
theorem spells_limited {max : UInt32} {length : Nat} {image : List UInt8} {plan : Plan}
    {refusal : Refusal} {leaves : List Leaf} (hrefusal : refusal.error = .lengthExceeded max length)
    (h : length ≤ max.toNat → plan.Spells (.image image :: leaves)) :
    Spells (if length ≤ max.toNat then plan else refuse refusal)
      (.limited max length image :: leaves) := by
  unfold Leaf.limited
  split
  · next hle => exact h hle
  · exact hrefusal ▸ spells_refuse refusal leaves

/-- Parts that are each spelled are so in a row. -/
theorem concat_spells {τ ν : Type} {plan : τ → ν → Plan} {kinds : List τ} {items : List ν}
    {leaves : List Leaf} (h : Parts (fun kind item front => (plan kind item).Spells front) kinds
      items leaves) : (concat (List.zipWith plan kinds items)).Spells leaves := by
  induction h with
  | nil => exact spells_empty
  | cons hhead _ ih => exact hhead.append ih

/-- A plan is carried out up to its refusal. -/
theorem run_of_spells {plan : Plan} {leaves : List Leaf} (h : plan.Spells leaves)
    {encoder : Encoder} (hready : encoder.Ready) :
    ∃ (images : List (List UInt8)) (rest : List Leaf), leaves = images.map .image ++ rest ∧
      (plan.run encoder).2.transport.taken.toList =
        encoder.transport.taken.toList ++ images.flatten ∧
      match (plan.run encoder).1 with
      | .ok () => rest = []
      | .error error => ∃ later, rest = .refusal error :: later := by
  obtain ⟨rest, hleaves, hrest⟩ := h
  have htaken := (plan.taken_run hready).2
  rw [image, List.flatMap_def] at htaken
  refine ⟨plan.items.map Item.image, rest, by rw [hleaves, List.map_map]; rfl, htaken, ?_⟩
  cases hrefusal : plan.refusal with
  | none =>
      obtain ⟨after, hrun, -⟩ := run_of_writes hready ⟨hrefusal, rfl⟩
      rw [hrefusal] at hrest
      rwa [hrun]
  | some refusal =>
      rw [hrefusal] at hrest
      rwa [run_of_refusal hready hrefusal]

end Plan

namespace Ty

variable {definitions : Definitions Ty}

/-- Where enough references are followed, the plan of the value spells these leaves: as many as
there are in front of the value, and as many as there are definitions for each value inside it. -/
def Spelled (definitions : Definitions Ty) (type : Ty) (value : Value) (leaves : List Leaf) :
    Prop :=
  ∀ {chain depth : Nat}, definitions.Grounded aliased chain type →
    chain + definitions.length * value.depth ≤ depth →
    ((type.filter definitions depth).encode value).Spells leaves

/-- The values of a list are spelled one after the other. -/
theorem concat_spelled {parts : List Ty} {items : List Value} {leaves : List Leaf}
    {chain depth : Nat}
    (h : Parts (fun part item front => ∃ _ : Leaves definitions part item front,
      Spelled definitions part item front) parts items leaves)
    (hdepth : chain + definitions.length * (Value.list items).depth ≤ depth) :
    (Plan.concat (List.zipWith (fun part => (part.filter definitions depth).encode) parts
      items)).Spells leaves := by
  refine Plan.concat_spells (h.imp_of_mem List.length (fun _ _ => List.length_append) ?_)
  intro part _ item hitem front _ ⟨hleaves, hspelled⟩
  refine hspelled hleaves.grounded ?_
  have hinner := (within_list hdepth).2
  have := Nat.mul_le_mul_left definitions.length (Value.depth_le_depths hitem)
  omega

/-- The values of an array are spelled one after the other. -/
theorem map_spelled {element : Ty} {items : List Value} {leaves : List Leaf} {chain depth : Nat}
    (h : Parts (fun part item front => ∃ _ : Leaves definitions part item front,
      Spelled definitions part item front) (List.replicate items.length element) items leaves)
    (hdepth : chain + definitions.length * (Value.list items).depth ≤ depth) :
    (Plan.concat (items.map (filter definitions depth element).encode)).Spells leaves := by
  rw [← zipWith_replicate_left (fun part => (filter definitions depth part).encode) rfl]
  exact concat_spelled h hdepth

/-- Data behind its length is spelled as one leaf. -/
theorem spells_encodeSized (kind : SizedKind) (operation : Operation) (max : UInt32)
    (data : List UInt8) :
    (Filter.encodeSized kind operation max data).Spells [.sized max data] := by
  refine Plan.spells_limited rfl fun hle => Plan.spells_one _ ?_
  rw [sized_eq hle, Layout.image_sized]
  rfl

/-- The plan of a value spells its leaves. -/
theorem Leaves.spelled {type : Ty} {value : Value} {leaves : List Leaf}
    (h : Leaves definitions type value leaves) : Spelled definitions type value leaves := by
  induction h with
  | int32 value => exact fun _ _ => Plan.spells_one (.int32 value) (octets_int32 value)
  | uint32 value => exact fun _ _ => Plan.spells_one (.uint32 value) (octets_word value)
  | int64 value => exact fun _ _ => Plan.spells_one (.int64 value) (octets_int64 value)
  | uint64 value => exact fun _ _ => Plan.spells_one (.uint64 value) (octets_hyper value)
  | float bits => exact fun _ _ => Plan.spells_one (.float bits) (octets_word bits)
  | double bits => exact fun _ _ => Plan.spells_one (.double bits) (octets_hyper bits)
  | bool value =>
      intro _ _ _ _
      refine Plan.spells_one (.bool value) ?_
      cases value with
      | false => exact octets_word 0
      | true => exact octets_word 1
  | void => exact fun _ _ => Plan.spells_empty
  | quadruple => exact fun _ _ => Plan.spells_refuse { error := .unsupported "quadruple" } []
  | openEnum value => exact fun _ _ => Plan.spells_one (.int32 value) (octets_int32 value)
  | enumeration members value =>
      intro _ depth _ _
      show Plan.Spells (if value ∈ members then _ else _) [if value ∈ members then _ else _]
      split
      · exact Plan.spells_one (.int32 value) (octets_int32 value)
      · exact Plan.spells_refuse { error := .invalidEnum value, fault := some .enumeration } []
  | fixedOpaque length data =>
      refine fun _ _ => Plan.spells_one (.fixedOpaque data) ?_
      rw [filledUp_eq, Layout.image_padded]
      rfl
  | bytes max data => exact fun _ _ => spells_encodeSized .bytes .bytes max data
  | string max text => exact fun _ _ => spells_encodeSized .string .string max _
  | fixedArray _ ih => exact fun _ hdepth => map_spelled ih hdepth
  | varArray _ ih =>
      intro _ depth _ hdepth
      refine Plan.spells_limited rfl fun hle => ?_
      exact (Plan.spells_one (.uint32 _) (octets_count hle)).append (map_spelled ih hdepth)
  | absent => exact fun _ _ => Plan.spells_one (.uint32 0) (octets_word 0)
  | present h ih =>
      intro chain depth _ hdepth
      rw [Value.depth, Nat.mul_succ] at hdepth
      exact (Plan.spells_one (.uint32 1) (octets_word 1)).append (ih h.grounded (by omega))
  | @struct parts items leaves hparts ih =>
      intro chain depth _ hdepth
      have hplan : (filter definitions depth (.struct parts)).encode (.list items) =
          .concat (List.zipWith (fun part => (filter definitions depth part).encode) parts
            items) := by
        rw [filter, filterWith_struct]
        refine (if_pos (by rw [List.length_map, hparts.length_eq])).trans ?_
        rw [List.zipWith_map_left]
      rw [hplan]
      exact concat_spelled ih hdepth
  | @union arms fallback selected arm leaves discriminant hselect h ih =>
      intro chain depth _ hdepth
      have hplan : (filter definitions depth (.union arms fallback)).encode
          (.union discriminant arm) =
          .one (.int32 discriminant) ++ (filter definitions depth selected).encode arm := by
        rw [filter, filterWith_union]
        show _ ++ _ = _
        simp only [hselect, Option.map_some]
      rw [Value.depth, Nat.mul_succ] at hdepth
      rw [hplan]
      exact (Plan.spells_one (.int32 discriminant) (octets_int32 discriminant)).append
        (ih h.grounded (by omega))
  | @unionWithoutArm arms fallback arm discriminant hselect =>
      intro chain depth _ _
      have hplan : (filter definitions depth (.union arms fallback)).encode
          (.union discriminant arm) = .one (.int32 discriminant) ++ .refuse {
            error := .invalidDiscriminant discriminant.toInt
            fault := some .union
            guarded := false } := by
        rw [filter, filterWith_union]
        show _ ++ _ = _
        simp only [hselect, Option.map_none]
      rw [hplan]
      exact (Plan.spells_one (.int32 discriminant) (octets_int32 discriminant)).append
        (Plan.spells_refuse _ [])
  | ref hbody h ih =>
      intro chain depth hgrounded hdepth
      obtain ⟨chain, rfl, hbodyGrounded⟩ := hgrounded.body List.mem_cons_self hbody
      obtain ⟨depth, rfl⟩ := Nat.exists_eq_add_of_le' (show 1 ≤ depth by omega)
      rw [encode_ref hbody]
      exact ih hbodyGrounded (by omega)

/-- An encoder that is not poisoned answers with an error exactly if there is a refusal among the
leaves of the value. It answers with the error of the first of them, and it has written the images
of the leaves in front of it and nothing else. -/
theorem stops_at_refusal (catalog : Catalog) {type : Ty} {value : Value} {leaves : List Leaf}
    (hleaves : type.Leaves catalog.types value leaves) {encoder : Encoder}
    (husable : encoder.poisoned = false) (hunfailing : encoder.transport.schedule.Unfailing) :
    let step := (EncodeStep.typed type value).run catalog encoder
    ((∃ error, step.1 = .error error) ↔ ∃ error, .refusal error ∈ leaves) ∧
      ∃ (images : List (List UInt8)) (rest : List Leaf), leaves = images.map .image ++ rest ∧
        step.2.transport.taken.toList = encoder.transport.taken.toList ++ images.flatten ∧
        match step.1 with
        | .ok () => rest = []
        | .error error => ∃ later, rest = .refusal error :: later := by
  intro step
  have hspells : (type.encode catalog.types value).Spells leaves :=
    hleaves.spelled hleaves.grounded (catalog.types.budget_le (Nat.le_refl _))
  obtain ⟨images, rest, hsplit, htaken, hrest⟩ :=
    Plan.run_of_spells hspells (⟨husable, hunfailing⟩ : encoder.Ready)
  refine ⟨?_, images, rest, hsplit, htaken, hrest⟩
  have hanswer : step.1 = ((type.encode catalog.types value).run encoder).1 := rfl
  rw [hanswer, hsplit]
  cases hrun : ((type.encode catalog.types value).run encoder).1 with
  | ok =>
      rw [hrun] at hrest
      subst hrest
      simp
  | error error =>
      rw [hrun] at hrest
      obtain ⟨later, rfl⟩ := hrest
      exact ⟨fun _ => ⟨error, by simp⟩, fun _ => ⟨error, rfl⟩⟩

/-- A string that is short enough up to its NUL, and a linked list with a number in its second
node that is no member of the enumeration. The count of the array behind the list would be refused
too, but nothing of it is looked at. -/
theorem stops_at_refusal_list :
    let catalog : Catalog :=
      { types := [("list", .optional (.struct [.enumeration [1, 2], .ref "list"]))] }
    let type : Ty := .struct [.string 2, .ref "list", .varArray 0 .void]
    let value : Value := .list [.string "ab\x00cde",
      .present (.list [.int32 2, .present (.list [.int32 3, .absent])]), .list [.void]]
    let leaves : List Leaf :=
      [.image [0, 0, 0, 2, 97, 98, 0, 0], .image [0, 0, 0, 1], .image [0, 0, 0, 2],
        .image [0, 0, 0, 1], .refusal (.invalidEnum 3), .image [0, 0, 0, 0],
        .refusal (.lengthExceeded 0 1)]
    let encoder : Encoder :=
      { transport :=
          { schedule := { limit := fun _ => some 3, interrupts := [1] }, taken := #[9] } }
    let step := (EncodeStep.typed type value).run catalog encoder
    type.Leaves catalog.types value leaves ∧ encoder.poisoned = false ∧
      encoder.transport.schedule.Unfailing ∧ step.1 = .error (.invalidEnum 3) ∧
      step.2.transport.taken.toList =
        [9, 0, 0, 0, 2, 97, 98, 0, 0, 0, 0, 0, 1, 0, 0, 0, 2, 0, 0, 0, 1] := by
  intro catalog type value leaves encoder step
  have hlist : catalog.types.lookup "list" =
      some (.optional (.struct [.enumeration [1, 2], .ref "list"])) := rfl
  have hparts : type.Leaves catalog.types value _ :=
    .struct (.cons (.string 2 "ab\x00cde")
      (.cons (.ref hlist (.present (.struct (.cons (.enumeration [1, 2] 2)
        (.cons (.ref hlist (.present (.struct (.cons (.enumeration [1, 2] 3)
          (.cons (.ref hlist (.absent _)) .nil))))) .nil)))))
        (.cons (.varArray (.cons .void .nil)) .nil)))
  have hleaves : type.Leaves catalog.types value leaves := by
    convert hparts using 1
    decide
  have hunfailing : encoder.transport.schedule.Unfailing := ⟨rfl, fun _ h => by cases h⟩
  have hanswer : ((EncodeStep.typed type value).run catalog encoder).1 =
      .error (.invalidEnum 3) := by decide +kernel
  obtain ⟨-, images, rest, hsplit, htaken, hrest⟩ :=
    stops_at_refusal catalog hleaves (show encoder.poisoned = false from rfl) hunfailing
  rw [hanswer] at hrest
  obtain ⟨later, rfl⟩ := hrest
  have hfront : leaves = [[0, 0, 0, 2, 97, 98, 0, 0], [0, 0, 0, 1], [0, 0, 0, 2],
      [0, 0, 0, 1]].map .image ++ .refusal (.invalidEnum 3) ::
        [.image [0, 0, 0, 0], .refusal (.lengthExceeded 0 1)] := rfl
  refine ⟨hleaves, rfl, hunfailing, hanswer, htaken.trans ?_⟩
  rw [(Leaf.front_unique (hsplit.symm.trans hfront)).1]
  rfl

end Ty

end Xdr
