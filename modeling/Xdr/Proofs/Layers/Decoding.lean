import Xdr.Proofs.Layers.Encoding
import Xdr.Proofs.Model.Acceptance

/-!
# Data read as their values

The reading of a datum and the reading of its value, into any target, do the same on every decoder
that is not poisoned and end with the same value, or with errors of the same kind
(`Schema.alike_decode`).
-/

namespace Xdr

variable {config : Config} {ceiling : UInt32} {definitions : Definitions Schema}

/-- On all decoders that are not poisoned, the readings do the same and end with values that belong
together or with errors of the same kind. -/
abbrev Reading.Alike {κ μ α β : Type} (config : Config) (same : α → β → Prop)
    (reading : Reading κ α) (reading' : Reading μ β) : Prop :=
  reading.Tallies True config config (fun _ => false)
    (fun stopped stopped' => stopped.error.SameKind stopped'.error) same reading'

namespace Reading

variable {κ μ α β κ' μ' α' β' : Type} {same : α → β → Prop}

theorem alike_hyper {operation operation' : Operation} {kept : κ} {kept' : μ}
    {next : UInt64 → Reading κ α} {next' : UInt64 → Reading μ β}
    (h : ∀ hyper, Alike config same (next hyper) (next' hyper)) :
    Alike config same (hyper operation kept next) (hyper operation' kept' next') :=
  tallies_request rfl (fun _ => rfl) fun bytes => h (hyperOfImage bytes)

/-- Whatever comes before the values or errors may keep something else of the target. -/
theorem Alike.andThen {reading : Reading κ α} {reading' : Reading μ β} {keep : κ → κ'}
    {keep' : μ → μ'} {next : α → Reading κ' α'} {next' : β → Reading μ' β'}
    {same' : α' → β' → Prop} (h : Alike config same reading reading')
    (hnext : ∀ value value', same value value' → Alike config same' (next value) (next' value')) :
    Alike config same' (reading.andThen keep next) (reading'.andThen keep' next') :=
  Tallies.andThen h (fun _ _ hkind => hkind) hnext

theorem alike_bool {kept : κ} {kept' : μ} {next : Bool → Reading κ α} {next' : Bool → Reading μ β}
    (h : ∀ value, Alike config same (next value) (next' value)) :
    Alike config same (bool kept next) (bool kept' next') := by
  refine tallies_word (fun _ => rfl) fun w => ?_
  split
  · exact h false
  · split
    · exact h true
    · exact tallies_fault rfl

theorem alike_fixedOpaque {length : Nat} {kept : κ} {kept' : μ} {next : List UInt8 → Reading κ α}
    {next' : List UInt8 → Reading μ β} (h : ∀ data, Alike config same (next data) (next' data)) :
    Alike config same (fixedOpaque length kept next) (fixedOpaque length kept' next') :=
  tallies_request rfl (fun _ => rfl) fun _ => tallies_checkPadding (.inl rfl) rfl (h _)

theorem alike_self (reading : Reading κ α) : Alike config Eq reading reading := by
  intro first second htwins
  have htally : Decoder.Tally True config config (fun _ => false) Eq Eq (reading.run first)
    (reading.run second) := tallies_self (.inl rfl) reading htwins
  generalize reading.run first = answer at htally ⊢
  generalize reading.run second = answer' at htally ⊢
  cases htally with
  | values hsame hafter => exact .values hsame hafter
  | errors halike hafter => exact .errors (halike ▸ rfl) hafter
  | narrowed _ hcause => cases hcause

/-- The buffer of sized data makes no difference to what is read. -/
theorem alike_sized (kind : SizedKind) (max : UInt32) (buffer buffer' : List UInt8) :
    Alike config Eq (sized kind max buffer) (sized kind max buffer') := by
  refine tallies_request rfl (fun _ => rfl) fun bytes => ?_
  dsimp only
  split
  · exact alike_self _
  · exact tallies_fault rfl

/-- A request that is answered goes on with the element. -/
theorem run_next_andThen (element : Reading Unit α) (remaining : Nat)
    (next : Option α × Nat → Reading Unit β) (decoder : Decoder) :
    ((Elements.next element (remaining + 1)).andThen (fun _ => ()) next).run decoder =
      (element.andThen (fun _ => ()) fun value => next (some value, remaining)).run decoder := by
  rw [run_andThen, run_andThen, Elements.next, Reading.map, run_andThen]
  rcases element.run decoder with ⟨_ | value, after⟩ <;> rfl

end Reading

namespace Schema

open Reading (Alike)

/-- The datum is this value. -/
abbrev Same (datum : Datum) (value : Value) : Prop :=
  datum.streamed = value

/-- The reading of a datum does the same as that of its value, whatever target of the type it is
read into. -/
def Reads (config : Config) (ceiling : UInt32) (definitions : Definitions Schema) (schema : Schema)
    (reading : Reading Unit Datum) (filter : Filter Value) : Prop :=
  ∀ ⦃target⦄, (schema.streamed ceiling).Holds (definitions.streamed ceiling) target →
    Alike config Same reading (filter.decode target)

/-- A value of a smaller type is read alike if its content is. -/
theorem alike_within {α : Type} {inner : Filter α} {inject : α → Value}
    {project : Value → Option α} {reading : Reading Unit Datum} {target : Value} {part : α}
    (hpart : project target = some part)
    (h : Alike config (fun datum content => datum.streamed = inject content) reading
      (inner.decode part)) :
    Alike config Same reading ((inner.within inject project).decode target) := by
  rw [Filter.decode_within_of_some hpart]
  exact Reading.Tallies.map_right h (fun _ _ hkind => hkind) fun _ _ hsame => hsame

/-- Elements that are asked for one by one are read as the parts of a struct. -/
theorem alike_each {read : Schema → Reading Unit Datum} {filter : Schema → Filter Value}
    {schemas : List Schema} {targets : List Value}
    (h : List.Forall₂ (fun schema target =>
      Alike config Same (read schema) ((filter schema).decode target)) schemas targets)
    (index : Nat) (values : List Datum) :
    Alike config (fun data items => data.map Datum.streamed = items)
      (Elements.each (schemas.map read) index schemas.length values)
      (.inOrder (List.zipWith (fun schema target => (target, (filter schema).decode target)) schemas
        targets) (values.map Datum.streamed)) := by
  induction h generalizing index values with
  | nil => exact Reading.tallies_done List.map_reverse
  | cons hhead _ ih =>
      intro first second htwins
      rw [List.map_cons, List.length_cons, Elements.each, Reading.run_next_andThen]
      refine hhead.andThen (fun value _ hsame => ?_) htwins
      obtain rfl := hsame
      exact ih (index + 1) (value :: values)

/-- Elements that are asked for until the end are read as counted. -/
theorem alike_visit {element : Reading Unit Datum} {element' : Reading Value Value}
    (h : Alike config Same element element') (count : Nat) (values : List Datum)
    (hints : List Nat) :
    Alike config (fun answer items => answer.1.map Datum.streamed = items)
      (Elements.visit element (count + 1) count values hints)
      (.replicate element' count (values.map Datum.streamed)) := by
  induction count generalizing values hints with
  | zero =>
      intro first second htwins
      -- the last request finds the end
      rw [Elements.visit, Elements.next, Reading.run_andThen, Reading.run_done]
      exact .values List.map_reverse htwins
  | succ count ih =>
      intro first second htwins
      rw [Elements.visit, Reading.run_next_andThen]
      refine h.andThen (fun value _ hsame => ?_) htwins
      obtain rfl := hsame
      exact ih (value :: values) _

/-- A struct is read as the tuple of its parts. -/
theorem alike_struct {read : Schema → Reading Unit Datum} {filter : Ty → Filter Value}
    {schemas : List Schema}
    (hreads : ∀ schema ∈ schemas,
      Reads config ceiling definitions schema (read schema) (filter (schema.streamed ceiling)))
    {target : Value} (htarget : (Ty.struct (schemas.map (streamed ceiling))).Holds
      (definitions.streamed ceiling) target) :
    Alike config Same
      ((Elements.each (schemas.map read) 0 schemas.length []).map id .tuple)
      (((Filter.struct ((schemas.map (streamed ceiling)).map filter)).within .list
        Value.list?).decode target) := by
  cases htarget with
  | @struct _ items hitems =>
      have hlength : schemas.length = items.length := by simpa using hitems.length_eq
      rw [List.forall₂_map_left_iff] at hitems
      have hrow : List.Forall₂ (fun schema target =>
          Alike config Same (read schema) ((filter (schema.streamed ceiling)).decode target))
          schemas items :=
        ((List.forall₂_and_left _ _).mpr ⟨hreads, hitems⟩).imp fun _ _ h => h.1 h.2
      have hfilter : (Filter.struct ((schemas.map (streamed ceiling)).map filter)).decode items =
          .inOrder (List.zipWith (fun schema target =>
            (target, (filter (schema.streamed ceiling)).decode target)) schemas items) [] := by
        refine (if_pos (by simp only [List.length_map, hlength])).trans ?_
        rw [List.map_map, List.zipWith_map_left]
        rfl
      refine alike_within rfl ?_
      rw [hfilter]
      exact (alike_each hrow 0 []).map_left (fun _ _ hkind => hkind) fun data items hsame => by
        rw [Datum.streamed_tuple, hsame]

/-- A datum is read as its value, if that holds of the names. -/
theorem reads_readingWith {resolve : Schema → Schema} {named : String → Reading Unit Datum}
    {named' : String → Filter Value} (hguarded : definitions.Guarded direct)
    (hnamed : ∀ name, Reads config ceiling definitions (ref name) (named name) (named' name))
    {schema : Schema} (hcommon : Common definitions schema) :
    Reads config ceiling definitions schema (readingWith ceiling resolve named schema)
      (Ty.filterWith (Ty.zero (definitions.streamed ceiling)) named'
        (schema.streamed ceiling)) := by
  induction hcommon with
  | bool =>
      rintro _ (_ | _)
      exact alike_within rfl (Reading.alike_bool fun _ => Reading.tallies_done rfl)
  | int32 =>
      rintro _ (_ | _)
      refine alike_within rfl ?_
      dsimp only [readingWith, Filter.int32]
      refine Reading.tallies_word (fun _ => rfl) fun _ => ?_
      exact Reading.tallies_done rfl
  | uint32 =>
      rintro _ (_ | _)
      exact alike_within rfl (Reading.tallies_word (fun _ => rfl) fun _ => Reading.tallies_done rfl)
  | int64 =>
      rintro _ (_ | _)
      refine alike_within rfl ?_
      dsimp only [readingWith, Filter.int64]
      refine Reading.alike_hyper fun _ => ?_
      exact Reading.tallies_done rfl
  | uint64 =>
      rintro _ (_ | _)
      exact alike_within rfl (Reading.alike_hyper fun _ => Reading.tallies_done rfl)
  | float =>
      rintro _ (_ | _)
      exact alike_within rfl (Reading.tallies_word (fun _ => rfl) fun _ => Reading.tallies_done rfl)
  | double =>
      rintro _ (_ | _)
      exact alike_within rfl (Reading.alike_hyper fun _ => Reading.tallies_done rfl)
  | unit =>
      rintro _ (_ | _)
      exact alike_within rfl (Reading.tallies_done rfl)
  | string =>
      rintro _ (_ | _)
      refine alike_within rfl (Reading.Tallies.map_left ?_ (fun _ _ hkind => hkind)
        fun _ _ hsame => congrArg Value.string hsame)
      refine (Reading.alike_sized .string ceiling [] []).andThen fun data _ hsame => ?_
      obtain rfl := hsame
      cases Text.ofBytes? data with
      | some text => exact Reading.tallies_done rfl
      | none => exact Reading.tallies_fault rfl
  | bytes =>
      rintro _ (_ | _)
      exact alike_within rfl ((Reading.alike_sized .bytes ceiling [] _).map_left
        (fun _ _ hkind => hkind) fun _ _ hsame => congrArg Value.bytes hsame)
  | @option inner hinner ih =>
      intro target htarget
      obtain ⟨before, hbefore⟩ : ∃ before, Value.option? target = some before := by
        cases htarget <;> exact ⟨_, rfl⟩
      refine alike_within hbefore ?_
      dsimp only [readingWith, Filter.optional]
      refine Reading.tallies_word (fun _ => rfl) fun present => ?_
      split
      · exact Reading.tallies_done rfl
      · split
        · refine (ih (hinner.holds_zero hguarded)).andThen fun datum _ hsame => ?_
          exact Reading.tallies_done (congrArg Value.present hsame)
        · exact Reading.tallies_fault rfl
  | wrapper _ ih => exact ih
  | @tuple declared elements hdeclared _ ih =>
      intro target htarget
      subst hdeclared
      rw [streamed, streamedAll_eq_map] at htarget ⊢
      rw [Ty.filterWith_struct, readingWith, readingsWith_eq_map]
      exact alike_struct ih htarget
  | @record declared fields hdeclared _ ih =>
      intro target htarget
      subst hdeclared
      rw [streamed, streamedAll_eq_map] at htarget ⊢
      rw [Ty.filterWith_struct, readingWith, readingsWith_eq_map]
      exact alike_struct ih htarget
  | @seq element told visit htake helement ih =>
      rintro _ (_ | _)
      refine alike_within rfl ?_
      dsimp only [readingWith, visiting, Reading.length, Filter.varArray]
      -- the counts are refused under different operations
      refine Reading.tallies_word (fun _ => rfl) fun count => ?_
      split
      · rw [htake]
        refine Reading.Tallies.map_left (alike_visit ?_ count.toNat [] [])
          (fun _ _ hkind => hkind) fun answer items hsame => ?_
        · exact ih (helement.holds_zero hguarded)
        · rw [Datum.streamed_seq, hsame]
      · exact Reading.tallies_fault rfl
  | @enumeration variants hvariants ih =>
      intro target htarget
      rw [streamed, Ty.filterWith_union]
      cases htarget
      refine alike_within rfl ?_
      dsimp only [readingWith, Filter.union]
      refine Reading.tallies_word (fun _ => rfl) fun index => ?_
      rw [readingsWith_eq_map, List.getElem?_map, selectArm_streamed]
      cases hvariant : variants[index.toNat]? with
      -- one layer reports the index as it is, the other as a signed number
      | none => exact Reading.tallies_fault rfl
      | some variant =>
          have hmem := List.mem_of_getElem? hvariant
          refine (ih variant hmem ((hvariants variant hmem).holds_zero hguarded)).andThen ?_
          exact fun content _ hsame => Reading.tallies_done (congrArg (Value.union _) hsame)
  | fixedOpaque length =>
      intro target htarget
      cases htarget with
      | @fixedOpaque _ buffer hlength =>
          subst hlength
          exact alike_within rfl (Reading.alike_fixedOpaque fun _ => Reading.tallies_done rfl)
  | @ref name body hbody => exact hnamed name

/-- A datum is read as its value, wherever references lead. -/
theorem alike_decode (hdefinitions : ∀ name body, definitions.lookup name = some body →
      Common definitions body) (hguarded : definitions.Guarded direct) {schema : Schema}
    (hcommon : Common definitions schema) (left : Nat) {target : Value}
    (htarget : (schema.streamed ceiling).Holds (definitions.streamed ceiling) target) :
    Alike config Same (schema.decode definitions ceiling left)
      ((schema.streamed ceiling).decode (definitions.streamed ceiling) left target) := by
  unfold decode reading Ty.decode Ty.filter
  rw [Definitions.length_streamed]
  refine reads_readingWith hguarded (fun name => ?_) hcommon htarget
  refine Definitions.meaning_alongside
    (motive := fun name (reading : Reading Unit Datum) (filter : Filter Value) =>
      Reads config ceiling definitions (ref name) reading filter)
    (fun name target _ => ?_) (fun name hnone => ?_) ?_ _ name
  · exact Reading.tallies_refuse_of_fresh trivial rfl
  · rw [Definitions.lookup_streamed, hnone]
    rfl
  · intro named named' hnamed name body hbody
    refine ⟨body.streamed ceiling, by rw [Definitions.lookup_streamed, hbody]; rfl, ?_⟩
    intro target htarget
    cases htarget with
    | ref hother htarget =>
        rw [Definitions.lookup_streamed, hbody] at hother
        obtain rfl := Option.some.inj hother
        exact reads_readingWith hguarded hnamed (hdefinitions name body hbody) htarget

end Schema

end Xdr
