import NanoRing.Feed.FeedFraming

/-!
# Decoding a stream in pieces

What `decode_stream` has decoded does not depend on what follows: more bytes only add orders, and
they are the ones that the incomplete rest of the stream spells together with the new bytes. So a
stream may be decoded in pieces of any size, if the rest of each piece is put in front of the next,
with the same orders and the same room in the output as in one call.
-/

namespace NanoRing

namespace Feed

open Framing SimdDecoder

/-- A payload that spells an order is at least as long as the shortest message. -/
theorem length_of_orderOf {payload : List UInt8} {order : DecodedOrder}
    (h : orderOf payload = some order) : 19 ≤ payload.length := by
  unfold orderOf at h
  cases payload with
  | nil => contradiction
  | cons kind tail =>
    dsimp only at h
    split at h
    · exact le_trans (by decide) (Option.ite_none_right_eq_some.mp h).1
    split at h
    · exact (Option.ite_none_right_eq_some.mp h).1
    split at h
    · exact le_trans (by decide) (Option.ite_none_right_eq_some.mp h).1
    split at h
    · exact le_trans (by decide) (Option.ite_none_right_eq_some.mp h).1
    · contradiction

/-- An order takes at least 21 bytes of the stream, with the prefix of its frame. -/
theorem length_orders_le (frames : List (List UInt8)) :
    21 * (frames.filterMap orderOf).length ≤ (frames.flatMap frame).length := by
  induction frames with
  | nil => exact le_rfl
  | cons payload frames ih =>
    rw [List.flatMap_cons, List.length_append, length_frame]
    cases horder : orderOf payload with
    | none =>
      rw [List.filterMap_cons_none horder]
      omega
    | some order =>
      have hlength := length_of_orderOf horder
      rw [List.filterMap_cons_some horder, List.length_cons]
      omega

/-- The first piece of a stream, the bytes of it that are left over, and what decoding the stream in
one call has to do with decoding them together with the bytes that follow. -/
structure Resumes (piece rest : List UInt8) : Prop where
  suffix : rest <:+ piece
  incomplete : Incomplete rest
  decodes : ∀ more maxOutput, ∃ first later,
    decodeStream piece maxOutput = some first ∧
    decodeStream (rest ++ more) (maxOutput - first.length) = some later ∧
    decodeStream (piece ++ more) maxOutput = some (first ++ later) ∧
    21 * first.length + rest.length ≤ piece.length

/-- Every stream can be decoded in pieces: a piece leaves fewer bytes than its next frame needs, and
these bytes with the ones that follow give the remaining orders. -/
theorem exists_resumes (piece : List UInt8) : ∃ rest, Resumes piece rest := by
  obtain ⟨frames, rest, hpiece⟩ := exists_splits piece
  refine ⟨rest, ⟨_, hpiece.bytes_eq.symm⟩, hpiece.incomplete, fun more maxOutput => ?_⟩
  obtain ⟨frames', rest', hmore⟩ := exists_splits (rest ++ more)
  refine ⟨_, _, decodeStream_of_splits hpiece maxOutput, decodeStream_of_splits hmore _, ?_, ?_⟩
  · rw [decodeStream_of_splits (hpiece.append hmore), List.filterMap_append, List.take_append,
      List.length_take]
    congr 3
    omega
  · have horders := length_orders_le frames
    rw [hpiece.bytes_eq, List.length_append, List.length_take]
    omega

end Feed

end NanoRing
