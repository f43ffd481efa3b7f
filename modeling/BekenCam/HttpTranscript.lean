import BekenCam.HttpAnswer

/-!
# The bytes of a connection

The head is the text of what was set up when the first body was accepted. Behind it come the bytes
of the bodies, each as the handler gave it: of all that were accepted, and of at most one more,
whose send failed.
-/
namespace BekenCam.Http

/-- The bytes behind the head, piece by piece. -/
def bodyPieces (handed : List Sent) : List (List UInt8) :=
  (handed.filter fun piece => piece.part = .body).map Sent.data

/-- A body as a piece; an empty one is none. -/
def Body.pieces (body : Body) : List (List UInt8) :=
  if body.bytes = [] then [] else [body.bytes]

namespace Response

variable {r : Response} {s : Setup}

/-- The bytes a call hands over if it is accepted. -/
def Call.pieces (c : Call) : List (List UInt8) := (c.body.map Body.pieces).getD []

/-- A call that was accepted handed over its bytes, one that was refused nothing; one that failed
may have handed them over. -/
def Says (r : Response) (answer : Bool × Response) (pieces : List (List UInt8)) : Prop :=
  match answer.1 with
  | true => bodyPieces answer.2.wire.handed = bodyPieces r.wire.handed ++ pieces
  | false => bodyPieces answer.2.wire.handed = bodyPieces r.wire.handed ∨
      bodyPieces answer.2.wire.handed = bodyPieces r.wire.handed ++ pieces ∧
        answer.2.failed = true

/-- What is said of a response holds of one with the same pieces handed over. -/
theorem Says.congr {r' : Response} {answer : Bool × Response} {pieces : List (List UInt8)}
    (h : r.Says answer pieces) (hsame : bodyPieces r'.wire.handed = bodyPieces r.wire.handed) :
    r'.Says answer pieces := by
  unfold Says at h ⊢
  rwa [hsame]

theorem sendHeaders_head (hnone : r.wire.handed = []) (more : Bool) :
    (r.sendHeaders more).2.Headed r.setup ∨ (r.sendHeaders more).1 = false ∧
      (r.sendHeaders more).2.Dead ∧ (r.sendHeaders more).2.wire.handed = [] := by
  rcases r.sendHeaders_cases more with ⟨r', hsend, hdead, -, hwire⟩ | ⟨-, ok, buf, hformat, hsend⟩
  · have hnone' : r'.wire.handed = [] := by
      rcases hwire with hwire | hwire
      · rw [hwire, hnone]
      · rw [hwire]
        exact hnone
    rw [hsend]
    exact .inr ⟨rfl, hdead, hnone'⟩
  · rw [hsend]
    refine .inl ⟨⟨.head r.declared, buf, more, r.tick.wire.now⟩, ?_, rfl, eq_headText hformat⟩
    change _ <+: r.wire.handed ++ [_]
    rw [hnone]
    exact List.prefix_refl _

/-- A body that is taken sends its head, or kills the response before. -/
theorem Fresh.taken (h : r.Fresh s) {body : Body} (htaken : ¬r.Refuses body) :
    (r.respondBinary body).2.Headed (s.withBody body.length) ∨
      (r.respondBinary body).2.Dead ∧ (r.respondBinary body).2.wire.handed = [] := by
  have hnone : (r.tick.decideLength body.length).wire.handed = [] := by
    rw [(r.tick.decideLength_wire body.length).1]
    exact (h.inv.fresh h.unsent).1
  rw [respondBinary_taken htaken, h.unsent, if_neg Bool.false_ne_true, ← h.setup,
    ← decideLength_setup]
  dsimp only
  rcases sendHeaders_head hnone (decide (0 < body.length) || r.more) with
    hheaded | ⟨hfalse, hdead, hnone'⟩
  · split_ifs
    · exact .inl (hheaded.mono (sendBody_extends _ body))
    · exact .inl hheaded
  · rw [hfalse, if_neg Bool.false_ne_true]
    exact .inr ⟨hdead, hnone'⟩

end Response

/-! ## Every connection -/

/-- The calls that are made of a connection. -/
def Decision.calls : Decision → List Response.Call → List Response.Call
  | .handled _, cs => cs
  | _, _ => []

open Response

end BekenCam.Http
