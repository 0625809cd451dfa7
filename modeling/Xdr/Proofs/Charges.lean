import Xdr.Proofs.Alignment

/-!
# What the parts of a value cost

Each element of an array behind its count, and each value that may be absent, is charged to a word
of its own. `Reading.Pays` says that a run has read a word for each part that it states to have
read, also where it stops in the middle of a value. An element is charged to a word that its own
parts have left over, the other parts to the word in front of them.
-/

namespace Xdr

/-- How many bytes of a value are left over for a part that consists of the value. The word in front
of a value that may be absent is its own. -/
def Part.spare : Part → Nat
  | element => 4
  | present => 0

theorem Part.spare_le (part : Part) : part.spare ≤ 4 := by
  cases part <;> decide

namespace Reading

variable {κ μ α β : Type} {part : Part}

/-- There is a word for each of these parts that are read. If the whole value is read, and from any
bytes at all, then what a part needs that consists of it is left over. -/
structure Pays (part : Part) (reading : Reading κ α) : Prop where
  word {decoder result after} : reading.run decoder = (result, after) →
    decoder.transport.moved + 4 * (reading.parts decoder).count part ≤ after.transport.moved
  spare {decoder value after} : reading.run decoder = (.ok value, after) →
    after.transport.moved ≠ decoder.transport.moved →
    decoder.transport.moved + 4 * (reading.parts decoder).count part + part.spare ≤
      after.transport.moved

/-- The same of what follows a word that nothing has been charged to. -/
structure Owes (part : Part) (reading : Reading κ α) : Prop where
  word {decoder result after} : reading.run decoder = (result, after) →
    decoder.transport.moved + 4 * (reading.parts decoder).count part ≤ after.transport.moved + 4
  spare {decoder value after} : reading.run decoder = (.ok value, after) →
    decoder.transport.moved + 4 * (reading.parts decoder).count part + part.spare ≤
      after.transport.moved + 4

/-- Where there is a word for each part, the word in front is left over. -/
theorem owes_of_word {reading : Reading κ α}
    (h : ∀ {decoder result after}, reading.run decoder = (result, after) →
      decoder.transport.moved + 4 * (reading.parts decoder).count part ≤ after.transport.moved) :
    reading.Owes part := by
  refine ⟨fun hrun => (h hrun).trans (Nat.le_add_right _ _), fun hrun => ?_⟩
  have hword := h hrun
  have hspare := part.spare_le
  omega

theorem Pays.owes {reading : Reading κ α} (h : reading.Pays part) : reading.Owes part :=
  owes_of_word h.word

theorem moved_le_run {reading : Reading κ α} {decoder after : Decoder}
    {result : Except (Stopped κ) α} (hrun : reading.run decoder = (result, after)) :
    decoder.transport.moved ≤ after.transport.moved := by
  have hle := (reading.advances_run decoder).moved_le
  rwa [hrun] at hle

/-! ### Readings without parts -/

/-- The reading states nowhere that a part has been read. -/
def Unmarked : {κ α : Type} → Reading κ α → Prop
  | _, _, done _ => True
  | _, _, refuse _ _ => True
  | _, _, request _ _ _ _ next => ∀ bytes, Unmarked (next bytes)
  | _, _, note _ next => Unmarked next
  | _, _, mark _ _ => False
  | _, _, checkPadding _ _ _ next => Unmarked next
  | _, _, later next => Unmarked (next ())
  | _, _, andThen first _ next => Unmarked first ∧ ∀ value, Unmarked (next value)

theorem Unmarked.parts_eq_nil {reading : Reading κ α} (h : reading.Unmarked) (decoder : Decoder) :
    reading.parts decoder = [] := by
  induction reading generalizing decoder with
  | done value => rfl
  | refuse refusal kept => rfl
  | request operation count untouched kept next ih =>
      rw [parts]
      split
      · rfl
      · split
        · exact ih _ (h _) _
        · rfl
  | note event next ih => exact ih h _
  | mark part next ih => exact False.elim h
  | checkPadding operation padding kept next ih =>
      rw [parts]
      split
      · exact ih h decoder
      · rfl
  | later next ih => exact ih () h decoder
  | andThen first keep next ihFirst ihNext =>
      rw [parts, ihFirst h.1, List.nil_append]
      split
      · exact ihNext _ (h.2 _) _
      · rfl

/-- A reading without parts that reads whole words pays for everything. -/
theorem pays_of_unmarked {reading : Reading κ α} (hregular : reading.Regular)
    (hunmarked : reading.Unmarked) : reading.Pays part := by
  constructor
  · intro decoder result after hrun
    rw [hunmarked.parts_eq_nil decoder]
    exact moved_le_run hrun
  · intro decoder value after hrun hmoved
    have hle := moved_le_run hrun
    have hspare := part.spare_le
    have haligned := aligned_run hregular decoder
    rw [hrun] at haligned
    rcases haligned with haligned | ⟨failure, kept, hstopped⟩
    · dsimp only at haligned
      rw [hunmarked.parts_eq_nil decoder, List.count_nil]
      omega
    · cases hstopped

theorem unmarked_collect (operation : Operation) (sizes : List Nat) (got : List (List UInt8)) :
    (collect operation sizes got).Unmarked := by
  induction sizes generalizing got with
  | nil => trivial
  | cons size sizes ih => exact fun bytes => ih (bytes :: got)

theorem unmarked_sized (kind : SizedKind) (max : UInt32) (buffer : List UInt8) :
    (sized kind max buffer).Unmarked := by
  intro bytes
  show Unmarked (if wordOfImage bytes ≤ max then _ else _)
  split
  · exact ⟨unmarked_collect _ _ _, fun _ => trivial⟩
  · trivial

/-! ### Readings put together -/

theorem pays_done (value : α) : (done value : Reading κ α).Pays part :=
  pays_of_unmarked trivial trivial

theorem pays_refuse {refusal : Refusal} (hregular : refusal.Regular) (kept : κ) :
    (refuse refusal kept : Reading κ α).Pays part :=
  pays_of_unmarked hregular trivial

theorem pays_fault {operation : Operation} {error : Error} (hfatal : error.fatal = true)
    (kept : κ) : (fault operation error kept : Reading κ α).Pays part :=
  pays_of_unmarked (regular_fault hfatal) trivial

/-- What follows a word may charge one part to it. -/
theorem pays_word {operation : Operation} {kept : κ} {next : UInt32 → Reading κ α}
    (h : ∀ w, (next w).Owes part) : (word operation kept next).Pays part := by
  have hrequest : ∀ {decoder result after},
      (word operation kept next).run decoder = (result, after) →
      (word operation kept next).parts decoder = [] ∧ (∀ value, result ≠ .ok value) ∨
      ∃ w between, between.transport.moved = decoder.transport.moved + 4 ∧
        (next w).run between = (result, after) ∧
        (word operation kept next).parts decoder = (next w).parts between := by
    intro decoder result after hrun
    rw [word, run_request, Context.useTransport_eq] at hrun
    rw [word, parts, Context.useTransport_eq]
    split at hrun
    · next hpoisoned =>
        cases hrun
        exact .inl ⟨if_pos hpoisoned, fun _ h => by cases h⟩
    · next husable =>
        rw [if_neg husable]
        obtain ⟨given, -, hmoved, -, hresult⟩ := decoder.transport.readExact_spec 4
        generalize decoder.transport.readExact 4 = answer at hrun hmoved hresult ⊢
        obtain ⟨failure | bytes, source⟩ := answer
        · cases hrun
          exact .inl ⟨rfl, fun _ h => by cases h⟩
        · exact .inr ⟨wordOfImage bytes, { decoder with transport := source },
            hmoved.trans (congrArg _ hresult.2), hrun, rfl⟩
  constructor
  · intro decoder result after hrun
    rcases hrequest hrun with ⟨hparts, -⟩ | ⟨w, between, hmoved, hnext, hparts⟩
    · rw [hparts]
      exact moved_le_run hrun
    · have hword := (h w).word hnext
      rw [hparts]
      omega
  · intro decoder value after hrun _
    rcases hrequest hrun with ⟨-, hnone⟩ | ⟨w, between, hmoved, hnext, hparts⟩
    · exact absurd rfl (hnone value)
    · have hspare := (h w).spare hnext
      rw [hparts]
      omega

theorem Pays.andThen {first : Reading κ α} {keep : κ → μ} {next : α → Reading μ β}
    (h : first.Pays part) (hnext : ∀ value, (next value).Pays part) :
    (first.andThen keep next).Pays part := by
  constructor
  · intro decoder result after hrun
    rw [run_andThen] at hrun
    rw [parts, List.count_append]
    rcases hran : first.run decoder with ⟨stopped | middle, between⟩ <;> rw [hran] at hrun <;>
      have hfirst := h.word hran
    · cases hrun
      simpa using hfirst
    · have hsecond := (hnext middle).word hrun
      dsimp only
      omega
  · intro decoder value after hrun hmoved
    rw [run_andThen] at hrun
    rw [parts, List.count_append]
    rcases hran : first.run decoder with ⟨stopped | middle, between⟩ <;> rw [hran] at hrun <;>
      have hfirst := h.word hran
    · cases hrun
    · have hsecond := (hnext middle).word hrun
      dsimp only
      -- one of the two has read some bytes, and the other has paid for its own parts
      by_cases hsame : between.transport.moved = decoder.transport.moved
      · have hspare := (hnext middle).spare hrun (by omega)
        omega
      · have hspare := h.spare hran hsame
        omega

theorem Pays.map {reading : Reading κ α} (h : reading.Pays part) (keep : κ → μ) (change : α → β) :
    (reading.map keep change).Pays part :=
  h.andThen fun value => pays_done (change value)

theorem Pays.later {next : Unit → Reading κ α} (h : (next ()).Pays part) :
    (later next).Pays part :=
  ⟨h.word, h.spare⟩

theorem pays_inOrder {pairs : List (α × Reading α α)} (h : ∀ pair ∈ pairs, pair.2.Pays part)
    (finished : List α) : (inOrder pairs finished).Pays part := by
  induction pairs generalizing finished with
  | nil => exact pays_done _
  | cons pair pairs ih =>
      obtain ⟨hpair, hpairs⟩ := List.forall_mem_cons.mp h
      exact hpair.andThen fun value => ih hpairs (value :: finished)

/-- A value that is there is charged to the word that says so. -/
theorem Pays.present {reading : Reading κ α} (h : reading.Pays part) (keep : κ → μ)
    (change : α → β) :
    (reading.andThen keep fun value => mark .present (done (change value))).Owes part := by
  have hrun : ∀ {decoder result after},
      (reading.andThen keep fun value => mark .present (done (change value))).run decoder =
        (result, after) →
      decoder.transport.moved + 4 * ((reading.andThen keep fun value =>
        mark .present (done (change value))).parts decoder).count part + part.spare ≤
          after.transport.moved + 4 := by
    intro decoder result after hrun
    rw [run_andThen] at hrun
    rw [parts, List.count_append]
    have hspare := part.spare_le
    rcases hran : reading.run decoder with ⟨stopped | value, between⟩ <;> rw [hran] at hrun <;>
      have hword := h.word hran <;> cases hrun
    · rw [List.count_nil]
      omega
    · simp only [parts]
      cases part with
      | element =>
          rw [List.count_cons_of_ne (by decide), List.count_nil]
          omega
      | present =>
          rw [List.count_cons_self, List.count_nil]
          simp only [Part.spare]
          omega
  exact ⟨fun h => (Nat.le_add_right _ _).trans (hrun h), fun h => hrun h⟩

/-- A value is only read from some bytes. -/
def Feeds (reading : Reading κ α) : Prop :=
  ∀ ⦃policy consumed value⦄, reading.Accepts policy consumed value → consumed ≠ []

/-- A run of such a reading that succeeds gets on. -/
theorem Feeds.moved_ne {reading : Reading κ α} (h : reading.Feeds) {decoder after : Decoder}
    {value : α} (hrun : reading.run decoder = (.ok value, after)) :
    after.transport.moved ≠ decoder.transport.moved := by
  obtain ⟨consumed, hrest, haccepts⟩ := accepts_of_run hrun
  have hlength := (reading.advances_run decoder).moved_add_length
  have hsome := List.length_pos_iff.mpr (h haccepts)
  rw [hrun, hrest, List.length_append] at hlength
  dsimp only at hlength
  omega

/-- Each element is charged to a word that its own parts have left over, so an element has to take
some bytes. -/
theorem word_replicate {element : Reading α α} (h : element.Pays part)
    (hfeeds : part = .element → element.Feeds) (count : Nat) {finished : List α}
    {decoder after : Decoder} {result : Except (Stopped (List α)) (List α)}
    (hrun : (replicate element count finished).run decoder = (result, after)) :
    decoder.transport.moved + 4 * ((replicate element count finished).parts decoder).count part ≤
      after.transport.moved := by
  induction count generalizing finished decoder with
  | zero =>
      cases hrun
      exact Nat.le_refl _
  | succ count ih =>
      rw [replicate, run_andThen] at hrun
      rw [replicate, parts, List.count_append]
      rcases hran : element.run decoder with ⟨stopped | value, between⟩ <;> rw [hran] at hrun <;>
        have hfirst := h.word hran
      · cases hrun
        simpa using hfirst
      · have hrest := ih hrun
        simp only [parts]
        cases part with
        | present =>
            rw [List.count_cons_of_ne (by decide)]
            omega
        | element =>
            have hspare := h.spare hran ((hfeeds rfl).moved_ne hran)
            rw [List.count_cons_self]
            simp only [Part.spare] at hspare
            omega

end Reading

end Xdr
