import Mathlib.Logic.Relation
import Xdr.Proofs.Agreement
import Xdr.Proofs.Model.Decoding

/-!
# Budgets for reading data

As with typed values, a decoder whose source holds more follows references deeper, and where
definitions lead back to themselves only behind a word this makes no difference
(`Schema.decode_agrees`). `Schema.leading` gives the references in front of the first word: what
follows a part that spends a word (`Schema.Spends`) is behind it. Reading a well-formed schema never
comes to references that are not followed (`Schema.decode_beyond`).
-/

namespace Xdr

namespace Schema

variable {definitions : Definitions Schema} {ceiling : UInt32} {left : Nat}

/-- A datum of the schema takes a word or more, or is never read. -/
inductive Spends (definitions : Definitions Schema) : Schema → Prop where
  | bool : Spends definitions bool
  | int8 : Spends definitions int8
  | int16 : Spends definitions int16
  | int32 : Spends definitions int32
  | int64 : Spends definitions int64
  | int128 : Spends definitions int128
  | uint8 : Spends definitions uint8
  | uint16 : Spends definitions uint16
  | uint32 : Spends definitions uint32
  | uint64 : Spends definitions uint64
  | uint128 : Spends definitions uint128
  | float : Spends definitions float
  | double : Spends definitions double
  | char : Spends definitions char
  | string : Spends definitions string
  | bytes : Spends definitions bytes
  | identifier : Spends definitions identifier
  | any : Spends definitions any
  | ignored : Spends definitions ignored
  | failing (text) : Spends definitions (failing text)
  | option (inner) : Spends definitions (option inner)
  | wrapper {inner} : Spends definitions inner → Spends definitions (wrapper inner)
  | tuple (declared) {elements element} : element ∈ elements → Spends definitions element →
      Spends definitions (tuple declared elements)
  | record (declared) {fields field} : field ∈ fields → Spends definitions field →
      Spends definitions (record declared fields)
  | seq (element told visit) : Spends definitions (seq element told visit)
  | map (key value told visit) : Spends definitions (map key value told visit)
  | enumeration (variants) : Spends definitions (enumeration variants)
  | fixedOpaque {length} : length ≠ 0 → Spends definitions (fixedOpaque length)
  | opaqueWrapper {inner} : (∀ elements, inner.resolve definitions ≠ tuple 0 elements) →
      inner.resolve definitions ≠ readable → Spends definitions (opaqueWrapper inner)
  | ref {name body} : definitions.lookup name = some body → Spends definitions body →
      Spends definitions (ref name)

open Classical in
mutual
/-- The names that readers of the schema can come to in front of the first word. -/
noncomputable def leading (definitions : Definitions Schema) : Schema → List String
  | ref name => [name]
  | wrapper inner => leading definitions inner
  | tuple declared elements => leadings definitions declared elements
  | record declared fields => leadings definitions declared fields
  | _ => []

/-- The names that readers of this many of the schemas can come to in front of the first word. -/
noncomputable def leadings (definitions : Definitions Schema) : Nat → List Schema → List String
  | 0, _ => []
  | _, [] => []
  | declared + 1, schema :: schemas =>
      leading definitions schema ++
        if Spends definitions schema then [] else leadings definitions declared schemas
end

/-! ### Schemas within schemas -/

/-- The schema has data of the part in its own data, or stands for it. -/
inductive Contains (definitions : Definitions Schema) : Schema → Schema → Prop where
  | option (inner) : Contains definitions (option inner) inner
  | wrapper (inner) : Contains definitions (wrapper inner) inner
  | tuple (declared) {elements element} : element ∈ elements →
      Contains definitions (tuple declared elements) element
  | record (declared) {fields field} : field ∈ fields →
      Contains definitions (record declared fields) field
  | seq (element told visit) : Contains definitions (seq element told visit) element
  | key (key value told visit) : Contains definitions (map key value told visit) key
  | value (key value told visit) : Contains definitions (map key value told visit) value
  | enumeration {variants variant} : variant ∈ variants →
      Contains definitions (enumeration variants) variant
  | ref {name body} : definitions.lookup name = some body → Contains definitions (ref name) body

/-- The schema is the part, or contains a schema that reaches it. -/
abbrev Reaches (definitions : Definitions Schema) : Schema → Schema → Prop :=
  Relation.ReflTransGen (Contains definitions)

theorem exists_of_mem_leadings {declared : Nat} {schemas : List Schema} {name : String}
    (h : name ∈ leadings definitions declared schemas) :
    ∃ schema ∈ schemas, name ∈ leading definitions schema := by
  induction schemas generalizing declared with
  | nil => cases declared <;> cases h
  | cons schema schemas ih =>
      cases declared with
      | zero => cases h
      | succ declared =>
          rw [leadings] at h
          rcases List.mem_append.mp h with h | h
          · exact ⟨schema, List.mem_cons_self, h⟩
          · split at h
            · cases h
            · obtain ⟨other, hmem, hname⟩ := ih h
              exact ⟨other, List.mem_cons_of_mem _ hmem, hname⟩

/-- The names in front of the first word are reached. -/
theorem reaches_of_mem_leading {schema : Schema} {name : String}
    (h : name ∈ leading definitions schema) : Reaches definitions schema (ref name) := by
  induction schema with
  | wrapper inner ih => exact .head (.wrapper inner) (ih h)
  | tuple declared elements ih =>
      obtain ⟨element, hmem, hname⟩ := exists_of_mem_leadings h
      exact .head (.tuple declared hmem) (ih element hmem hname)
  | record declared fields ih =>
      obtain ⟨field, hmem, hname⟩ := exists_of_mem_leadings h
      exact .head (.record declared hmem) (ih field hmem hname)
  | ref other =>
      obtain rfl := List.mem_singleton.mp h
      exact .refl
  | _ => cases h

/-- All names are defined, and no definition leads back to itself but behind a word. -/
structure WellFormed (definitions : Definitions Schema) (schema : Schema) : Prop where
  guarded : definitions.Guarded (leading definitions)
  defined : ∀ {name}, Reaches definitions schema (ref name) →
    ∃ body, definitions.lookup name = some body

/-! ### Words that are spent -/

/-- Readings in a row spend what one of them spends. -/
theorem spends_of_acceptsAll {read : Schema → Reading Unit Datum} {schemas : List Schema}
    {schema : Schema} (hmem : schema ∈ schemas) (h : (read schema).Spends)
    {policy : PaddingPolicy} {consumed : List UInt8} {data : List Datum}
    (hall : Reading.AcceptsAll policy (schemas.map read) consumed data) :
    4 ≤ consumed.length := by
  induction schemas generalizing consumed data with
  | nil => cases hmem
  | cons head schemas ih =>
      obtain ⟨front, back, datum, others, rfl, -, hhead, hothers⟩ := hall
      rw [List.length_append]
      rcases List.mem_cons.mp hmem with rfl | hmem
      · have hfront := h hhead
        omega
      · have hback := ih hmem hothers
        omega

/-- Opaque data that are not empty spend a word. -/
theorem spends_fixedOpaque {κ α : Type} {length : Nat} (h : length ≠ 0) {kept : κ}
    {next : List UInt8 → Reading κ α} : (Reading.fixedOpaque length kept next).Spends := by
  refine Reading.spends_request ?_
  have := add_padLength_mod length
  omega

/-- What the opaque wrapper holds spends a word, unless it is a tuple of nothing or only asks
whether the format is human-readable. -/
theorem spends_wrappedReading {resolve : Schema → Schema} {inner : Schema}
    (htuple : ∀ elements, inner ≠ tuple 0 elements) (hreadable : inner ≠ readable) :
    (wrappedReading resolve inner).Spends := by
  cases inner with
  | tuple declared elements =>
      rw [wrappedReading]
      refine spends_fixedOpaque fun hzero => htuple elements ?_
      rw [hzero]
  | readable => exact absurd rfl hreadable
  | _ => exact Reading.spends_refuse _ _

/-- A schema that spends a word does so if the names that it stands on do. -/
theorem spends_readingWith {named : String → Reading Unit Datum} {schema : Schema}
    (hnamed : ∀ name, Spends definitions (ref name) → (named name).Spends)
    (h : Spends definitions schema) :
    (readingWith ceiling (resolve definitions) named schema).Spends := by
  induction h with
  | string => exact ((Reading.spends_request (by decide)).andThen _ _).map _ _
  | bytes => exact (Reading.spends_request (by decide)).map _ _
  | wrapper _ ih => exact ih
  | tuple declared hmem _ ih =>
      intro policy consumed datum haccepts
      obtain ⟨data, -, -, hall⟩ := accepts_tuple_iff.mp haccepts
      exact spends_of_acceptsAll hmem ih hall
  | record declared hmem _ ih =>
      intro policy consumed datum haccepts
      obtain ⟨data, -, -, hall⟩ := accepts_record_iff.mp haccepts
      exact spends_of_acceptsAll hmem ih hall
  | fixedOpaque hlength => exact spends_fixedOpaque hlength
  | opaqueWrapper htuple hreadable => exact spends_wrappedReading htuple hreadable
  | ref hbody h _ => exact hnamed _ (.ref hbody h)
  | int128 | uint128 | any | ignored | failing => exact Reading.spends_refuse _ _
  | _ => exact Reading.spends_request (by decide)

/-- What a name stands for spends a word if the name does, however deep references are followed. -/
theorem spends_meaning (depth : Nat) (name : String) (h : Spends definitions (ref name)) :
    (definitions.meaning (readingWith ceiling (resolve definitions)) unresolved depth
      name).Spends := by
  induction depth generalizing name with
  | zero => exact Reading.spends_refuse _ _
  | succ depth ih =>
      cases h with
      | ref hbody hspends =>
          rw [Definitions.meaning_succ _ _ _ _ hbody]
          exact spends_readingWith ih hspends

/-! ### Agreement -/

/-- Behind a count, the elements are read where a word less is left. -/
theorem agrees_visiting {α : Type} {visit : Visit} {element element' : Reading Unit α}
    {make : List α → Option (List Nat) → Datum}
    (h : ∀ less, less + 4 ≤ left → element.Agrees less element') :
    (visiting ceiling visit element make).Agrees left (visiting ceiling visit element' make) := by
  rw [visiting, visiting, Reading.length, Reading.length]
  refine Reading.agrees_word fun count less hless => ?_
  split
  · exact (Reading.agrees_visit (h less hless) _ _ _ _).map _ _
  · exact Reading.agrees_self _

/-- The two readings of a schema agree if those of the names do: of the names that it leads to with
as many bytes left, and of all others that it reaches behind a word. -/
def Matches (definitions : Definitions Schema) (named named' : String → Reading Unit Datum)
    (read read' : Schema → Reading Unit Datum) (schema : Schema) : Prop :=
  ∀ ⦃left : Nat⦄, (∀ name ∈ leading definitions schema, (named name).Agrees left (named' name)) →
    (∀ less, less + 4 ≤ left → ∀ name, Reaches definitions schema (ref name) →
      (named name).Agrees less (named' name)) →
    (read schema).Agrees left (read' schema)

variable {named named' : String → Reading Unit Datum}

/-- A schema that does not lead to any name is read alike if only names behind a word are not. -/
theorem Matches.behind {read read' : Schema → Reading Unit Datum} {schema : Schema}
    (h : Matches definitions named named' read read' schema)
    (hothers : ∀ less, less + 4 ≤ left → ∀ name, Reaches definitions schema (ref name) →
      (named name).Agrees less (named' name))
    {less : Nat} (hless : less + 4 ≤ left) : (read schema).Agrees less (read' schema) :=
  h (fun name hname => hothers less hless name (reaches_of_mem_leading hname))
    fun lesser hlesser => hothers lesser (by omega)

/-- Elements that are asked for one after the other are read alike. Those behind one that spends a
word may lead to any name. -/
theorem agrees_each_leading {read read' : Schema → Reading Unit Datum} {schemas : List Schema}
    {declared : Nat}
    (h : ∀ schema ∈ schemas, Matches definitions named named' read read' schema)
    (hspends : ∀ schema, Spends definitions schema → (read schema).Spends)
    (hleading : ∀ name ∈ leadings definitions declared schemas,
      (named name).Agrees left (named' name))
    (hothers : ∀ schema ∈ schemas, ∀ less, less + 4 ≤ left → ∀ name,
      Reaches definitions schema (ref name) → (named name).Agrees less (named' name))
    (index : Nat) (data : List Datum) :
    (Elements.each (schemas.map read) index declared data).Agrees left
      (Elements.each (schemas.map read') index declared data) := by
  induction schemas generalizing declared index data with
  | nil => exact Reading.agrees_self _
  | cons schema schemas ih =>
      obtain ⟨hschema, hschemas⟩ := List.forall_mem_cons.mp h
      obtain ⟨hown, hothers⟩ := List.forall_mem_cons.mp hothers
      cases declared with
      | zero =>
          rw [List.map_cons, List.map_cons, Elements.each, Elements.each]
          refine (Reading.agrees_self _).andThen_of_accepts ?_
          intro policy consumed answer less haccepts _
          obtain ⟨-, rfl⟩ := haccepts
          exact Reading.agrees_self _
      | succ declared =>
          rw [leadings] at hleading
          obtain ⟨hfirst, hrest⟩ := List.forall_mem_append.mp hleading
          rw [List.map_cons, List.map_cons, Elements.each, Elements.each]
          refine (Reading.agrees_next (hschema hfirst hown) _).andThen_of_accepts ?_
          intro policy consumed answer less haccepts hless
          obtain ⟨datum, hdatum, rfl⟩ := Elements.accepts_next_succ_iff.mp haccepts
          -- behind a word any name may come, otherwise only those that the others lead to
          by_cases hword : Spends definitions schema
          · have hspent := hspends schema hword hdatum
            refine Reading.agrees_each (fun other hmem => ?_) (index + 1) declared (datum :: data)
            exact (hschemas other hmem).behind (hothers other hmem) (by omega)
          · rw [if_neg hword] at hrest
            exact (ih hschemas hrest hothers (index + 1) (datum :: data)).mono (by omega)

/-- The readings of a schema agree if those of the names do, where names that spend a word are read
so. -/
theorem readingWith_agrees
    (hspends : ∀ name, Spends definitions (ref name) → (named name).Spends) (schema : Schema) :
    Matches definitions named named' (readingWith ceiling (resolve definitions) named)
      (readingWith ceiling (resolve definitions) named') schema := by
  induction schema with
  | option inner ih =>
      intro left _ hothers
      rw [readingWith, readingWith]
      refine Reading.agrees_word fun present less hless => ?_
      split
      · exact Reading.agrees_self _
      · split
        · refine Reading.Agrees.map (ih.behind (fun less hless name hname => ?_) hless) _ _
          exact hothers less hless name (.head (.option inner) hname)
        · exact Reading.agrees_self _
  | wrapper inner ih =>
      intro left hleading hothers
      exact ih hleading fun less hless name hname =>
        hothers less hless name (.head (.wrapper inner) hname)
  | tuple declared elements ih =>
      intro left hleading hothers
      rw [readingWith, readingWith, readingsWith_eq_map, readingsWith_eq_map]
      refine (agrees_each_leading ih (fun _ => spends_readingWith hspends) hleading ?_ 0 []).map _ _
      exact fun element hmem less hless name hname =>
        hothers less hless name (.head (.tuple declared hmem) hname)
  | record declared fields ih =>
      intro left hleading hothers
      rw [readingWith, readingWith, readingsWith_eq_map, readingsWith_eq_map]
      refine (agrees_each_leading ih (fun _ => spends_readingWith hspends) hleading ?_ 0 []).map _ _
      exact fun field hmem less hless name hname =>
        hothers less hless name (.head (.record declared hmem) hname)
  | seq element told visit ih =>
      intro left _ hothers
      rw [readingWith, readingWith]
      refine agrees_visiting fun less hless => ih.behind (fun less hless name hname => ?_) hless
      exact hothers less hless name (.head (.seq element told visit) hname)
  | map key value told visit ihKey ihValue =>
      intro left _ hothers
      rw [readingWith, readingWith]
      refine agrees_visiting fun less hless => ?_
      have hkey := ihKey.behind (fun less hless name hname =>
        hothers less hless name (.head (.key key value told visit) hname)) hless
      have hvalue := ihValue.behind (fun less hless name hname =>
        hothers less hless name (.head (.value key value told visit) hname)) hless
      exact hkey.andThen fun _ => hvalue.map _ _
  | enumeration variants ih =>
      intro left _ hothers
      rw [readingWith, readingWith, readingsWith_eq_map, readingsWith_eq_map]
      refine Reading.agrees_word fun index less hless => ?_
      rw [List.getElem?_map, List.getElem?_map]
      cases hvariant : variants[index.toNat]? with
      | none => exact Reading.agrees_self _
      | some variant =>
          have hmem := List.mem_of_getElem? hvariant
          refine Reading.Agrees.map ((ih variant hmem).behind (fun less hless name hname => ?_)
            hless) _ _
          exact hothers less hless name (.head (.enumeration hmem) hname)
  | ref name =>
      intro left hleading _
      exact (hleading name List.mem_cons_self).later
  | _ =>
      intro left _ _
      exact Reading.agrees_self _

/-- The source of a decoder may hold more than what is left, and references be followed deeper: a
datum is read alike. -/
theorem decode_agrees (hguarded : definitions.Guarded (leading definitions)) (schema : Schema)
    {more : Nat} (hle : left ≤ more) :
    (schema.decode definitions ceiling left).Agrees left
      (schema.decode definitions ceiling more) := by
  have hnamed : ∀ less, less ≤ left → ∀ name, Reading.Agrees less
      (definitions.meaning (readingWith ceiling (Schema.resolve definitions)) unresolved
        ((definitions.length + 1) * (left / 4 + 2)) name)
      (definitions.meaning (readingWith ceiling (Schema.resolve definitions)) unresolved
        ((definitions.length + 1) * (more / 4 + 2)) name) := by
    intro less hless name
    have hbudget := definitions.budget_le (show less / 4 + 1 ≤ left / 4 + 2 by omega)
    have hmore := definitions.budget_le (show less / 4 + 1 ≤ more / 4 + 2 by omega)
    exact @Definitions.meaning_related _ definitions (leading definitions) _ _ _ _
      (fun left _ => Reading.Agrees left) hguarded (fun _ _ _ => Reading.agrees_self _)
      (fun _ hleading hothers => readingWith_agrees (spends_meaning _) _ hleading
        fun less hless name _ => hothers less hless name) less _ _ hbudget hmore name
  exact readingWith_agrees (spends_meaning _) schema
    (fun name _ => hnamed left (Nat.le_refl left) name) fun less hless name _ =>
      hnamed less (by omega) name

/-- The reading of a schema where references more than `depth` deep inside one another mean
`beyond`. -/
def readingBeyond (definitions : Definitions Schema) (ceiling : UInt32)
    (beyond : Reading Unit Datum) (depth : Nat) : Schema → Reading Unit Datum :=
  readingWith ceiling (resolve definitions)
    (definitions.meaning (readingWith ceiling (resolve definitions)) beyond depth)

/-- Reading a well-formed schema comes to an end before references go deeper than the model follows
them: it makes no difference what is there. -/
theorem decode_beyond {schema : Schema} (h : WellFormed definitions schema)
    (beyond : Reading Unit Datum) {depth : Nat}
    (hdepth : (definitions.length + 1) * (left / 4 + 2) ≤ depth) :
    (schema.decode definitions ceiling left).Agrees left
      (readingBeyond definitions ceiling beyond depth schema) := by
  have hnamed : ∀ less, less ≤ left → ∀ name, Reaches definitions schema (ref name) →
      Reading.Agrees less
        (definitions.meaning (readingWith ceiling (Schema.resolve definitions)) unresolved
          ((definitions.length + 1) * (left / 4 + 2)) name)
        (definitions.meaning (readingWith ceiling (Schema.resolve definitions)) beyond depth
          name) := by
    intro less hless
    have hbudget := definitions.budget_le (show less / 4 + 1 ≤ left / 4 + 2 by omega)
    refine @Definitions.meaning_related _ definitions (leading definitions) _ _ _ _
      (fun less name first second => Reaches definitions schema (ref name) →
        Reading.Agrees less first second)
      h.guarded (fun less name hnone hname => ?_) ?_ less _ _ hbudget (hbudget.trans hdepth)
    · obtain ⟨body, hbody⟩ := h.defined hname
      cases hnone.symm.trans hbody
    · intro left name body depth depth' hbody named named' hleading hothers hname
      have hreaches : Reaches definitions schema body := hname.tail (.ref hbody)
      exact readingWith_agrees (spends_meaning _) body
        (fun inner hinner => hleading inner hinner
          (hreaches.trans (reaches_of_mem_leading hinner)))
        fun less hless inner hinner => hothers less hless inner (hreaches.trans hinner)
  exact readingWith_agrees (spends_meaning _) schema
    (fun name hname => hnamed left (Nat.le_refl left) name (reaches_of_mem_leading hname))
    fun less hless => hnamed less (by omega)

end Schema

end Xdr
