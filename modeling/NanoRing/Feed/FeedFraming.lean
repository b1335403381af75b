import NanoRing.Common.Framing
import NanoRing.Feed.SimdDecoder

/-!
# What the stream decoder decodes

A payload of a known type and of sufficient length spells an order, field by field; every
other payload spells none. The decoder returns the orders that the frames of its
stream spell, up to the room in the output. The induction is over the frames that are
left, with the part of the stream behind the offset as a parameter.
-/

namespace NanoRing

namespace Feed

open ByteOrder Framing SimdDecoder

/-- The bytes of a field. -/
def field (payload : List UInt8) (offset n : ℕ) : List UInt8 := (payload.drop offset).take n

def addOrder (payload : List UInt8) : DecodedOrder where
  type := .add
  orderRef := .ofNat (little (field payload 11 8))
  tickerKey := .ofNat (little (field payload 24 8))
  price := .ofNat (big (field payload 32 4))
  shares := .ofNat (big (field payload 20 4))
  side := payload.getD 19 0
  newOrderRef := 0

def executeOrder (payload : List UInt8) : DecodedOrder where
  type := .execute
  orderRef := .ofNat (little (field payload 11 8))
  tickerKey := 0
  price := 0
  shares := .ofNat (big (field payload 19 4))
  side := 0
  newOrderRef := 0

def deleteOrder (payload : List UInt8) : DecodedOrder where
  type := .delete
  orderRef := .ofNat (little (field payload 11 8))
  tickerKey := 0
  price := 0
  shares := 0
  side := 0
  newOrderRef := 0

def replaceOrder (payload : List UInt8) : DecodedOrder where
  type := .replace
  orderRef := .ofNat (little (field payload 11 8))
  tickerKey := 0
  price := .ofNat (big (field payload 31 4))
  shares := .ofNat (big (field payload 27 4))
  side := 0
  newOrderRef := .ofNat (little (field payload 19 8))

/-- The order that a payload spells, if its type is known and it is long enough. -/
def orderOf (payload : List UInt8) : Option DecodedOrder :=
  match payload with
  | [] => none
  | kind :: _ =>
    if kind = typeAdd then if 36 ≤ payload.length then some (addOrder payload) else none
    else if kind = typeDelete then if 19 ≤ payload.length then some (deleteOrder payload) else none
    else if kind = typeExecute then if 31 ≤ payload.length then some (executeOrder payload) else none
    else if kind = typeReplace then if 35 ≤ payload.length then some (replaceOrder payload) else none
    else none

/-! ## Reads inside one frame -/

section Window

variable {before payload after : List UInt8} {offset n : ℕ}

/-- A read inside the payload reads its field. -/
theorem readBytes_window (h : offset + n ≤ payload.length) :
    readBytes (before ++ (payload ++ after)) (before.length + offset) n =
      some (field payload offset n) := by
  have hbound : before.length + offset + n ≤ (before ++ (payload ++ after)).length := by
    simp only [List.length_append]
    omega
  rw [readBytes, if_pos hbound, field, List.drop_length_add_append,
    List.drop_append_of_le_length (by omega), List.take_append_of_le_length]
  rw [List.length_drop]
  omega

theorem getElem?_window (h : offset < payload.length) :
    (before ++ (payload ++ after))[before.length + offset]? = payload[offset]? := by
  rw [List.getElem?_append_right (Nat.le_add_right _ _), Nat.add_sub_cancel_left,
    List.getElem?_append_left h]

theorem length_field (h : offset + n ≤ payload.length) : (field payload offset n).length = n := by
  rw [field, List.length_take, List.length_drop]
  omega

theorem loadU64Unaligned_window (h : offset + 8 ≤ payload.length) :
    loadU64Unaligned (before ++ (payload ++ after)) (before.length + offset) =
      some (.ofNat (little (field payload offset 8))) := by
  rw [loadU64Unaligned, readBytes_window h, Option.map_some]

theorem loadTicker_window (h : offset + 8 ≤ payload.length) :
    loadTicker (before ++ (payload ++ after)) (before.length + offset) =
      some (.ofNat (little (field payload offset 8))) := by
  rw [loadTicker, readBytes_window h, Option.map_some]

theorem loadU32Be_window (h : offset + 4 ≤ payload.length) :
    loadU32Be (before ++ (payload ++ after)) (before.length + offset) =
      some (.ofNat (little (field payload offset 4))) := by
  rw [loadU32Be, readBytes_window h, Option.map_some]

/-- The swapped host value of a field is its value in network order. -/
theorem swap32_field (payload : List UInt8) (offset : ℕ) (h : offset + 4 ≤ payload.length) :
    swap32 (.ofNat (little (field payload offset 4))) = .ofNat (big (field payload offset 4)) := by
  have hlt := little_lt (field payload offset 4)
  rw [length_field h] at hlt
  have hswap := swap_little (field payload offset 4)
  rw [length_field h] at hswap
  rw [swap32, UInt32.toNat_ofNat_of_lt' hlt, hswap]

theorem decodeAddOrder_window (h : 36 ≤ payload.length) :
    decodeAddOrder (before ++ (payload ++ after)) before.length = some (addOrder payload) := by
  have hside : payload[19]? = some (payload.getD 19 0) := by
    rw [List.getD_eq_getElem?_getD, List.getElem?_eq_getElem (by omega), Option.getD_some]
  unfold decodeAddOrder ItchAddOrder.orderRefNum ItchAddOrder.stock ItchAddOrder.price
    ItchAddOrder.shares ItchAddOrder.buySellIndicator
  rw [loadU64Unaligned_window (by omega), loadTicker_window (by omega), loadU32Be_window (by omega),
    loadU32Be_window (by omega), getElem?_window (by omega), hside]
  simp only [Option.bind_eq_bind, Option.bind_some, swap32_field payload 32 (by omega),
    swap32_field payload 20 (by omega)]
  rfl

theorem decodeExecute_window (h : 31 ≤ payload.length) :
    decodeExecute (before ++ (payload ++ after)) before.length = some (executeOrder payload) := by
  unfold decodeExecute ItchOrderExecuted.orderRefNum ItchOrderExecuted.executedShares
  rw [loadU64Unaligned_window (by omega), loadU32Be_window (by omega)]
  simp only [Option.bind_eq_bind, Option.bind_some, swap32_field payload 19 (by omega)]
  rfl

theorem decodeDelete_window (h : 19 ≤ payload.length) :
    decodeDelete (before ++ (payload ++ after)) before.length = some (deleteOrder payload) := by
  unfold decodeDelete ItchOrderDelete.orderRefNum
  rw [loadU64Unaligned_window (by omega)]
  rfl

theorem decodeReplace_window (h : 35 ≤ payload.length) :
    decodeReplace (before ++ (payload ++ after)) before.length = some (replaceOrder payload) := by
  unfold decodeReplace ItchOrderReplace.originalOrderRef ItchOrderReplace.newOrderRef
    ItchOrderReplace.price ItchOrderReplace.shares
  rw [loadU64Unaligned_window (by omega), loadU64Unaligned_window (by omega),
    loadU32Be_window (by omega), loadU32Be_window (by omega)]
  simp only [Option.bind_eq_bind, Option.bind_some, swap32_field payload 31 (by omega),
    swap32_field payload 27 (by omega)]
  rfl

/-- A message of a known type appends what its handler decodes, if it is long enough. -/
theorem decodeMessage_of_handler (handler : List UInt8 → ℕ → Option DecodedOrder) (size : ℕ)
    (order : DecodedOrder) {kind : UInt8} {tail : List UInt8} (hpayload : payload = kind :: tail)
    (hhandler : getHandler kind = some handler) (hsize : minMsgSize kind = size)
    (horder : orderOf payload = if size ≤ payload.length then some order else none)
    (hdecode : size ≤ payload.length →
      handler (before ++ (payload ++ after)) before.length = some order)
    (output : List DecodedOrder) :
    decodeMessage (before ++ (payload ++ after)) before.length payload.length output =
      some (output ++ (orderOf payload).toList) := by
  have htype : (before ++ (payload ++ after))[before.length]? = some kind := by
    rw [List.getElem?_append_right le_rfl, Nat.sub_self, hpayload]
    rfl
  rw [decodeMessage, htype, horder]
  simp only [Option.bind_eq_bind, Option.bind_some, hhandler, hsize, ge_iff_le]
  by_cases hlong : size ≤ payload.length
  · rw [if_pos hlong, if_pos hlong, hdecode hlong]
    rfl
  · rw [if_neg hlong, if_neg hlong, Option.toList_none, List.append_nil]
    rfl

/-- A message of an unknown type appends nothing. -/
theorem decodeMessage_unknown {kind : UInt8} {tail : List UInt8} (hpayload : payload = kind :: tail)
    (hhandler : getHandler kind = none) (horder : orderOf payload = none)
    (output : List DecodedOrder) :
    decodeMessage (before ++ (payload ++ after)) before.length payload.length output =
      some (output ++ (orderOf payload).toList) := by
  have htype : (before ++ (payload ++ after))[before.length]? = some kind := by
    rw [List.getElem?_append_right le_rfl, Nat.sub_self, hpayload]
    rfl
  rw [decodeMessage, htype, horder]
  simp only [Option.bind_eq_bind, Option.bind_some, hhandler, Option.toList_none, List.append_nil]
  rfl

/-- The message of a nonempty payload appends the order that the payload spells. -/
theorem decodeMessage_window (hne : payload ≠ []) (output : List DecodedOrder) :
    decodeMessage (before ++ (payload ++ after)) before.length payload.length output =
      some (output ++ (orderOf payload).toList) := by
  obtain ⟨kind, tail, hpayload⟩ := List.exists_cons_of_ne_nil hne
  by_cases hadd : kind = typeAdd
  · subst hadd hpayload
    exact decodeMessage_of_handler decodeAddOrder 36 (addOrder (typeAdd :: tail)) rfl rfl rfl rfl
      decodeAddOrder_window output
  by_cases hdelete : kind = typeDelete
  · subst hdelete hpayload
    exact decodeMessage_of_handler decodeDelete 19 (deleteOrder (typeDelete :: tail)) rfl rfl rfl rfl
      decodeDelete_window output
  by_cases hexecute : kind = typeExecute
  · subst hexecute hpayload
    exact decodeMessage_of_handler decodeExecute 31 (executeOrder (typeExecute :: tail)) rfl rfl rfl rfl
      decodeExecute_window output
  by_cases hreplace : kind = typeReplace
  · subst hreplace hpayload
    exact decodeMessage_of_handler decodeReplace 35 (replaceOrder (typeReplace :: tail)) rfl rfl rfl rfl
      decodeReplace_window output
  · refine decodeMessage_unknown hpayload ?_ ?_ output
    · simp only [getHandler, hadd, hdelete, hexecute, hreplace, if_false]
    · simp only [hpayload, orderOf, hadd, hdelete, hexecute, hreplace, if_false]

/-- Known types have a positive size. -/
theorem minMsgSize_pos {kind : UInt8} {handler : List UInt8 → ℕ → Option DecodedOrder}
    (h : getHandler kind = some handler) : 0 < minMsgSize kind := by
  grind [getHandler, minMsgSize, itchAddOrderSize, itchOrderDeleteSize, itchOrderExecutedSize,
    itchOrderReplaceSize]

/-- An empty payload appends nothing, whatever byte stands in its place. -/
theorem decodeMessage_empty {stream : List UInt8} {offset : ℕ} (h : offset < stream.length)
    (output : List DecodedOrder) : decodeMessage stream offset 0 output = some output := by
  rw [decodeMessage, List.getElem?_eq_getElem h]
  simp only [Option.bind_eq_bind, Option.bind_some]
  cases hhandler : getHandler stream[offset] with
  | none => rfl
  | some handler =>
    dsimp only
    rw [if_neg (Nat.not_le.mpr (minMsgSize_pos hhandler))]
    rfl

end Window

/-! ## The loop -/

section Loop

variable {stream before tail : List UInt8} {hi lo : UInt8} {maxOutput budget : ℕ}
variable {output : List DecodedOrder}

/-- The length prefix spells its two bytes, most significant first. -/
theorem msgLen_eq (hi lo : UInt8) :
    (hi.toUInt16 <<< 8 ||| lo.toUInt16).toNat = 256 * hi.toNat + lo.toNat := by
  have hlo : lo.toNat < 2 ^ 8 := lo.toNat_lt
  have hhi : hi.toNat < 2 ^ 8 := hi.toNat_lt
  have hshift : (hi.toUInt16 <<< 8).toNat = hi.toNat <<< 8 := by
    rw [UInt16.toNat_shiftLeft, UInt8.toNat_toUInt16]
    change hi.toNat <<< 8 % 2 ^ 16 = _
    rw [Nat.shiftLeft_eq]
    omega
  rw [UInt16.toNat_or, hshift, UInt8.toNat_toUInt16, ← Nat.shiftLeft_add_eq_or_of_lt hlo,
    Nat.shiftLeft_eq]
  omega

/-- The loop ends when too few bytes are left or the output is full. -/
theorem decodeLoop_stop
    (h : ¬ (before.length + 3 ≤ stream.length ∧ output.length < maxOutput)) :
    decodeLoop stream maxOutput (budget + 1) before.length output = some output := by
  rw [decodeLoop, if_neg h]

/-- An iteration that finds its message outside the stream ends the loop; any other decodes the
message and moves behind it. -/
theorem decodeLoop_step (hstream : stream = before ++ hi :: lo :: tail)
    (h : before.length + 3 ≤ stream.length ∧ output.length < maxOutput) :
    decodeLoop stream maxOutput (budget + 1) before.length output =
      if tail.length < 256 * hi.toNat + lo.toNat then some output
      else
        (decodeMessage stream (before.length + 2) (256 * hi.toNat + lo.toNat) output).bind
          (decodeLoop stream maxOutput budget (before.length + 2 + (256 * hi.toNat + lo.toNat))) := by
  have hhi : stream[before.length]? = some hi := by
    rw [hstream, List.getElem?_append_right le_rfl, Nat.sub_self]
    rfl
  have hlo : stream[before.length + 1]? = some lo := by
    rw [hstream, List.getElem?_append_right (Nat.le_add_right _ 1), Nat.add_sub_cancel_left]
    rfl
  have hlength : stream.length = before.length + 2 + tail.length := by
    rw [hstream, List.length_append, List.length_cons, List.length_cons]
    omega
  rw [decodeLoop, if_pos h, hhi, hlo]
  simp only [Option.bind_eq_bind, Option.bind_some, msgLen_eq, hlength, gt_iff_lt,
    Nat.add_lt_add_iff_left]
  rfl

/-- The message of a complete frame appends the order that its payload spells. -/
theorem decodeMessage_frame {payload after : List UInt8}
    (hstream : stream = before ++ (frame payload ++ after))
    (hlong : before.length + 3 ≤ stream.length) :
    decodeMessage stream (before.length + 2) payload.length output =
      some (output ++ (orderOf payload).toList) := by
  by_cases hempty : payload = []
  · subst hempty
    rw [List.length_nil, decodeMessage_empty (by omega), orderOf, Option.toList_none,
      List.append_nil]
  · have hbytes : stream = (before ++ bigBytes 2 payload.length) ++ (payload ++ after) := by
      rw [hstream, frame, List.append_assoc, List.append_assoc]
    have hoffset : before.length + 2 = (before ++ bigBytes 2 payload.length).length := by
      rw [List.length_append, length_bigBytes]
    rw [hbytes, hoffset, decodeMessage_window hempty]

/-- The order of the next frame takes one place of the room that is left. -/
theorem append_take_orders {payload : List UInt8} {frames : List (List UInt8)}
    (hroom : output.length < maxOutput) :
    output ++ (orderOf payload).toList ++ (frames.filterMap orderOf).take
        (maxOutput - (output ++ (orderOf payload).toList).length) =
      output ++ ((payload :: frames).filterMap orderOf).take (maxOutput - output.length) := by
  cases horder : orderOf payload with
  | none => rw [List.filterMap_cons_none horder, Option.toList_none, List.append_nil]
  | some order =>
    obtain ⟨room, hroom⟩ := Nat.exists_eq_add_of_lt hroom
    have hleft : maxOutput - output.length = room + 1 := by omega
    rw [List.filterMap_cons_some horder, hleft, List.take_succ_cons, Option.toList_some,
      List.append_assoc, List.length_append, List.length_singleton, ← Nat.sub_sub, hleft]
    rfl

/-- The loop ends in front of an incomplete rest. -/
theorem decodeLoop_rest {rest : List UInt8} (hrest : Incomplete rest)
    (hstream : stream = before ++ rest) :
    decodeLoop stream maxOutput (budget + 1) before.length output = some output := by
  by_cases hcond : before.length + 3 ≤ stream.length ∧ output.length < maxOutput
  · match rest, hrest with
    | hi :: lo :: tail, hshort => exact (decodeLoop_step hstream hcond).trans (if_pos hshort)
    | [], _ =>
      rw [hstream] at hcond
      simp at hcond
    | [_], _ =>
      rw [hstream] at hcond
      simp at hcond
  · exact decodeLoop_stop hcond

/-- Only an empty last frame leaves fewer than three bytes, and it spells no order. -/
theorem filterMap_of_short {payload rest : List UInt8} {frames : List (List UInt8)}
    (hshort : (frame payload ++ (frames.flatMap frame ++ rest)).length < 3) :
    (payload :: frames).filterMap orderOf = [] := by
  rw [List.length_append, List.length_append, length_frame] at hshort
  obtain rfl : payload = [] := List.eq_nil_of_length_eq_zero (by omega)
  cases frames with
  | nil => rw [List.filterMap_cons_none rfl, List.filterMap_nil]
  | cons next frames =>
    rw [List.flatMap_cons, List.length_append, length_frame] at hshort
    omega

/-- The loop decodes the orders of the frames that are left, up to the room that is left. -/
theorem decodeLoop_frames {frames : List (List UInt8)} {rest : List UInt8}
    (hcomplete : Complete frames) (hrest : Incomplete rest) (hbudget : frames.length < budget)
    (hstream : stream = before ++ (frames.flatMap frame ++ rest)) :
    decodeLoop stream maxOutput budget before.length output =
      some (output ++ (frames.filterMap orderOf).take (maxOutput - output.length)) := by
  induction frames generalizing before output budget with
  | nil =>
    obtain ⟨budget, rfl⟩ := Nat.exists_eq_add_one_of_ne_zero (Nat.ne_of_gt hbudget)
    rw [List.filterMap_nil, List.take_nil, List.append_nil]
    exact decodeLoop_rest hrest hstream
  | cons payload frames ih =>
    obtain ⟨budget, rfl⟩ := Nat.exists_eq_add_one_of_ne_zero (Nat.ne_of_gt (Nat.zero_lt_of_lt hbudget))
    rw [List.flatMap_cons, List.append_assoc] at hstream
    have hpayload := hcomplete payload List.mem_cons_self
    by_cases hroom : output.length < maxOutput
    · by_cases hlong : before.length + 3 ≤ stream.length
      · have hnext : stream = (before ++ frame payload) ++ (frames.flatMap frame ++ rest) := by
          rw [hstream, List.append_assoc]
        have hoffset : before.length + 2 + payload.length = (before ++ frame payload).length := by
          rw [List.length_append, length_frame]
          omega
        have hfields : stream = before ++ UInt8.ofNat (payload.length / 256) ::
            UInt8.ofNat payload.length :: (payload ++ (frames.flatMap frame ++ rest)) := hstream
        rw [decodeLoop_step hfields ⟨hlong, hroom⟩, prefix_value hpayload,
          if_neg (by rw [List.length_append]; omega), decodeMessage_frame hfields hlong,
          Option.bind_some, hoffset, ih (fun p hp => hcomplete p (List.mem_cons_of_mem payload hp))
            (Nat.lt_of_succ_lt_succ hbudget) hnext]
        exact congrArg some (append_take_orders hroom)
      · have hshort : (frame payload ++ (frames.flatMap frame ++ rest)).length < 3 := by
          rw [hstream, List.length_append] at hlong
          omega
        rw [decodeLoop_stop fun h => hlong h.1, filterMap_of_short hshort, List.take_nil,
          List.append_nil]
    · rw [decodeLoop_stop fun h => hroom h.2, Nat.sub_eq_zero_of_le (Nat.le_of_not_lt hroom),
        List.take_zero, List.append_nil]

/-- Every frame takes at least its prefix. -/
theorem length_le_length_flatMap_frame (frames : List (List UInt8)) :
    frames.length ≤ (frames.flatMap frame).length := by
  induction frames with
  | nil => exact Nat.le_refl 0
  | cons payload frames ih =>
    rw [List.flatMap_cons, List.length_append, length_frame, List.length_cons]
    omega

/-- The decoder returns the orders of the frames of its stream, up to the room in the output. -/
theorem decodeStream_of_splits {frames : List (List UInt8)} {rest : List UInt8}
    (h : Splits stream frames rest) (maxOutput : ℕ) :
    decodeStream stream maxOutput = some ((frames.filterMap orderOf).take maxOutput) := by
  have hbudget : frames.length < stream.length + 1 := by
    have hle := length_le_length_flatMap_frame frames
    rw [h.bytes_eq, List.length_append]
    omega
  have hloop : decodeLoop stream maxOutput (stream.length + 1) ([] : List UInt8).length [] =
      some ([] ++ (frames.filterMap orderOf).take (maxOutput - 0)) :=
    decodeLoop_frames h.complete h.incomplete hbudget h.bytes_eq
  exact hloop

/-- Every byte string is uniquely a list of complete frames with an incomplete remainder, and
the decoder reads only bytes of the stream and returns the orders that these frames spell,
up to the room in the output. -/
theorem decodeStream_decodes_frames (stream : List UInt8) :
    (∃! split : List (List UInt8) × List UInt8, Splits stream split.1 split.2) ∧
      ∀ frames rest, Splits stream frames rest → ∀ maxOutput,
        decodeStream stream maxOutput = some ((frames.filterMap orderOf).take maxOutput) :=
  ⟨existsUnique_splits stream, fun _ _ h maxOutput => decodeStream_of_splits h maxOutput⟩

end Loop

end Feed

end NanoRing
