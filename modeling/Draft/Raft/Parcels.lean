import Draft.Raft.Steps

/-!
# What is sent of a transfer

The sending side of a transfer and the requests it has put on the wire.
-/

namespace Draft

inductive Parcel where
  | chunk (id : Nat) (name data : Bytes)
  | done (name : Bytes)
  deriving DecidableEq, Repr

def Request.parcel : Request → Option Parcel
  | .dataTransfer req => some (.chunk req.id req.name req.data)
  | .doneTransfer req => some (.done req.name)
  | _ => none

namespace Raft

variable {s t : Raft}

/-- The part of the state that transfers are about, and the parcels sent in this event. -/
def sending (s : Raft) : Sender × Nat × List (Bytes × Parcel) :=
  (s.sender, s.dataTransferQueue,
    s.sent.filterMap fun o => o.request.parcel.map (o.dst, ·))

theorem sender_of_sending (h : t.sending = s.sending) : t.sender = s.sender :=
  congrArg Prod.fst h

theorem queue_of_sending (h : t.sending = s.sending) :
    t.dataTransferQueue = s.dataTransferQueue :=
  congrArg (·.2.1) h

theorem parcels_of_sending (h : t.sending = s.sending) : t.sending.2.2 = s.sending.2.2 :=
  congrArg (·.2.2) h

/-! ## The requests of a transfer -/

private theorem invoke_parcel {dst : Bytes} {request : Request} {p : Parcel} (h : request.parcel = some p) :
    (s.invoke dst request).sending =
      (s.sender, s.dataTransferQueue, s.sending.2.2 ++ [(dst, p)]) := by
  simp [sending, invoke, h]

theorem sendChunk_sending (id : Bytes) :
    (s.sendChunk id).sending =
      (({ s.sender with dataTransferId := s.sender.dataTransferId + 1 }.transfer).1,
        s.dataTransferQueue, s.sending.2.2 ++ [(id, .chunk (s.sender.dataTransferId + 1)
          ({ s.sender with dataTransferId := s.sender.dataTransferId + 1 }.transfer).2.1
          ({ s.sender with dataTransferId := s.sender.dataTransferId + 1 }.transfer).2.2)]) := by
  unfold sendChunk
  dsimp only
  split <;> exact invoke_parcel rfl

theorem doDoneTransfer_sending (id : Bytes) :
    (s.doDoneTransfer id).sending =
      ({ s.sender with doneTransferId := s.sender.doneTransferId + 1 }, s.dataTransferQueue,
        s.sending.2.2 ++ [(id, .done s.sender.last)]) :=
  invoke_parcel rfl

end Raft

end Draft
