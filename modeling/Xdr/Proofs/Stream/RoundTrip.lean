import Xdr.Proofs.Runs
import Xdr.Proofs.Stream.Decoding
import Xdr.Proofs.Stream.Encoding

/-!
# Round trips of typed values

Values of any types go through one encoder, and what it wrote goes through one decoder. The
statement to read first is `receive_send`: all values come back in order, with their strings cut at
the first NUL, and the bytes behind them are left.
-/

namespace Xdr

/-- A value on its way through a stream, with the target it is read into, a new one if none is
given. -/
structure Transfer where
  type : Ty
  value : Value
  target : Option Value := none

namespace Transfer

variable {catalog : Catalog} {transfer : Transfer}

/-- Writing the value. -/
def send (transfer : Transfer) : EncodeStep :=
  .typed transfer.type transfer.value

/-- Reading into the target. -/
def receive (transfer : Transfer) : DecodeStep :=
  .typed transfer.type transfer.target

/-- The answer to reading that says that the value has come through. -/
def received (transfer : Transfer) : DecodeAnswer :=
  { shown := some (.value transfer.value.cut) }

/-- The value is within the limits of its type, where only what is in front of the first NUL of a
string counts, and a target that is given is one of the type. -/
def Admissible (catalog : Catalog) (transfer : Transfer) : Prop :=
  transfer.type.Fits catalog.types transfer.value.cut ∧
    ∀ target ∈ transfer.target, transfer.type.Holds catalog.types target

/-- An encoder that can go on writes the layout of a value. -/
theorem send_of_laid {encoder : Encoder} {layout : Layout} (hready : encoder.Ready)
    (h : transfer.type.Laid catalog.types transfer.value.cut layout) :
    ∃ after, transfer.send.run catalog encoder = (.ok (), after) ∧ Encoder.Ready after ∧
      after.transport.taken.toList = encoder.transport.taken.toList ++ layout.image := by
  obtain ⟨after, hrun, htaken, hafter, _⟩ := Plan.run_of_writes hready (Ty.encode_of_laid h)
  exact ⟨after, hrun, hafter, htaken⟩

/-- A decoder that can go on reads a value from its layout. -/
theorem receive_of_laid {decoder : Decoder} {layout : Layout} {rest : List UInt8}
    (hready : decoder.Ready) (h : transfer.type.Laid catalog.types transfer.value.cut layout)
    (htarget : ∀ target ∈ transfer.target, transfer.type.Holds catalog.types target)
    (hrest : decoder.transport.rest = layout.image ++ rest) :
    ∃ after, transfer.receive.run catalog decoder = (transfer.received, after) ∧
      Decoder.Ready after ∧ after.transport.rest = rest := by
  have hbefore : transfer.type.Holds catalog.types
      (transfer.target.getD (transfer.type.zero catalog.types)) := by
    cases hgiven : transfer.target with
    | none => exact Ty.holds_zero h.grounded
    | some target => exact htarget target hgiven
  have hleft : layout.image.length ≤ decoder.transport.rest.length := by
    rw [hrest, List.length_append]
    omega
  have haccepts :=
    Ty.decode_of_laid h hbefore (Layout.admits_image decoder.config.padding layout) hleft
  obtain ⟨after, hrun, hafterRest, hafter⟩ := Reading.run_of_accepts hready hrest haccepts
  refine ⟨after, ?_, hafter, hafterRest⟩
  simp only [receive, DecodeStep.run, hrun]
  rfl

/-- From any encoder that can go on, the values are written one after the other, and from what was
written they are read by any decoder that can go on. -/
theorem exists_wire {transfers : List Transfer}
    (hadmissible : ∀ transfer ∈ transfers, transfer.Admissible catalog) {encoder : Encoder}
    (hencoder : encoder.Ready) :
    ∃ wire, (EncodeStep.trace catalog (transfers.map send) encoder).map Prod.fst =
        transfers.map (fun _ => .ok ()) ∧
      (EncodeStep.after catalog (transfers.map send) encoder).transport.taken.toList =
        encoder.transport.taken.toList ++ wire ∧
      ∀ {decoder : Decoder} {rest : List UInt8}, decoder.Ready →
        decoder.transport.rest = wire ++ rest →
        (DecodeStep.trace catalog (transfers.map receive) decoder).map Prod.fst =
          transfers.map received ∧
        (DecodeStep.after catalog (transfers.map receive) decoder).transport.rest = rest := by
  induction transfers generalizing encoder with
  | nil => exact ⟨[], rfl, (List.append_nil _).symm, fun _ hrest => ⟨rfl, hrest⟩⟩
  | cons transfer transfers ih =>
      obtain ⟨⟨layout, hlaid⟩, htarget⟩ := hadmissible transfer List.mem_cons_self
      obtain ⟨written, hsend, hwritten, htaken⟩ := send_of_laid hencoder hlaid
      obtain ⟨wire, hsent, hall, hreceive⟩ :=
        ih (fun other hmem => hadmissible other (List.mem_cons_of_mem _ hmem)) hwritten
      refine ⟨layout.image ++ wire, ?_, ?_, fun {decoder rest} hdecoder hrest => ?_⟩
      · rw [List.map_cons, EncodeStep.trace, hsend, List.map_cons, hsent, List.map_cons]
      · rw [List.map_cons, EncodeStep.after, List.foldl_cons, hsend, ← List.append_assoc, ← htaken]
        exact hall
      · rw [List.append_assoc] at hrest
        obtain ⟨between, hread, hbetween, hleft⟩ := receive_of_laid hdecoder hlaid htarget hrest
        obtain ⟨hreceived, hafter⟩ := hreceive hbetween hleft
        rw [List.map_cons, DecodeStep.trace, hread, DecodeStep.after, List.foldl_cons, hread,
          List.map_cons, hreceived, List.map_cons]
        exact ⟨rfl, hafter⟩

/-- Values within the limits of their types are written by a new encoder without an error, and a new
decoder reads them back in order, each with its strings cut at the first NUL, and leaves the bytes
behind them. Neither the settings nor the pieces in which the transports move data matter. -/
theorem receive_send (catalog : Catalog) (transfers : List Transfer)
    (hadmissible : ∀ transfer ∈ transfers, transfer.Admissible catalog)
    (writing reading : Config) {sink source : Transport.Schedule} (hsink : sink.Unfailing)
    (hsource : source.Unfailing) (rest : List UInt8) :
    let encoder : Encoder := { transport := { schedule := sink }, config := writing }
    let wire :=
      (EncodeStep.after catalog (transfers.map send) encoder).transport.taken.toList
    let decoder : Decoder :=
      { transport := { rest := wire ++ rest, schedule := source }, config := reading }
    (EncodeStep.trace catalog (transfers.map send) encoder).map Prod.fst =
        transfers.map (fun _ => .ok ()) ∧
      (DecodeStep.trace catalog (transfers.map receive) decoder).map Prod.fst =
        transfers.map received ∧
      (DecodeStep.after catalog (transfers.map receive) decoder).transport.rest = rest := by
  intro encoder wire decoder
  have hencoder : Encoder.Ready encoder := ⟨rfl, hsink⟩
  have hdecoder : Decoder.Ready decoder := ⟨rfl, hsource⟩
  obtain ⟨written, hsent, hwire, hreceive⟩ := exists_wire hadmissible hencoder
  have hall : wire = written := hwire
  have hrest : decoder.transport.rest = written ++ rest := by rw [← hall]
  exact ⟨hsent, hreceive hdecoder hrest⟩

/-- A linked list with a NUL in a name, and a union of opaque data, over transports that move one
byte a call and are interrupted. -/
theorem receive_send_nodes :
    let catalog : Catalog :=
      { types := [("node", .struct [.string 4, .optional (.ref "node")])] }
    let nodes : Value :=
      .list [.string "ab\x00cdef", .present (.list [.string "é", .absent])]
    let transfers : List Transfer :=
      [{ type := .ref "node", value := nodes, target := some (.list [.string "old", .absent]) },
        { type := .union [([1, 2], .bytes 3)] (some .void), value := .union 2 (.bytes [7]) }]
    let schedule : Transport.Schedule := { limit := fun _ => some 1, interrupts := [0, 3] }
    (∀ transfer ∈ transfers, transfer.Admissible catalog) ∧ schedule.Unfailing ∧
      let encoder : Encoder := { transport := { schedule := schedule } }
      let wire :=
        (EncodeStep.after catalog (transfers.map send) encoder).transport.taken.toList
      let decoder : Decoder :=
        { transport := { rest := wire ++ [1, 2, 3], schedule := schedule }
          config := { padding := .lenient } }
      (EncodeStep.trace catalog (transfers.map send) encoder).map Prod.fst =
          transfers.map (fun _ => .ok ()) ∧
        (DecodeStep.trace catalog (transfers.map receive) decoder).map Prod.fst =
          transfers.map received ∧
        (DecodeStep.after catalog (transfers.map receive) decoder).transport.rest = [1, 2, 3] := by
  intro catalog nodes transfers schedule
  have hschedule : schedule.Unfailing := ⟨rfl, fun _ h => by cases h⟩
  have hadmissible : ∀ transfer ∈ transfers, transfer.Admissible catalog := by
    intro transfer hmem
    rcases List.mem_cons.mp hmem with rfl | hmem
    · obtain ⟨_, hlast⟩ : (Ty.ref "node").Fits catalog.types
          (Value.cut (.list [.string "é", .absent])) :=
        ⟨_, .ref rfl (.struct (.cons (.string (by decide)) (.cons .absent .nil)))⟩
      refine ⟨⟨_, .ref rfl (.struct (.cons (.string (by decide))
        (.cons (.present hlast) .nil)))⟩, fun target htarget => ?_⟩
      cases htarget
      exact .ref rfl (.struct (.cons (.string 4 "old") (.cons (.absent _) .nil)))
    · obtain rfl := List.mem_singleton.mp hmem
      exact ⟨⟨_, .union rfl (.bytes (by decide))⟩, fun _ htarget => by cases htarget⟩
  exact ⟨hadmissible, hschedule,
    receive_send catalog transfers hadmissible {} { padding := .lenient } hschedule hschedule
      [1, 2, 3]⟩

end Transfer

end Xdr
