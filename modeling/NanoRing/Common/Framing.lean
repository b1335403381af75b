import NanoRing.Common.ByteOrder

/-!
# Length-prefixed frames

A frame is a payload behind its length in two bytes, most significant first. Every byte
string splits in exactly one way into complete frames and a remainder that does not hold
another one. Existence is by induction on the length of the string, uniqueness by
induction on the frames of one splitting.
-/

namespace Framing

open ByteOrder

/-- A payload with its length prefix. -/
def frame (payload : List UInt8) : List UInt8 := bigBytes 2 payload.length ++ payload

/-- Payloads whose length fits in the prefix. -/
def Complete (frames : List (List UInt8)) : Prop := ∀ payload ∈ frames, payload.length < 2 ^ 16

/-- Bytes that end before the frame that they start. -/
def Incomplete : List UInt8 → Prop
  | hi :: lo :: tail => tail.length < 256 * hi.toNat + lo.toNat
  | _ => True

/-- The bytes are these frames followed by this remainder. -/
structure Splits (bytes : List UInt8) (frames : List (List UInt8)) (rest : List UInt8) : Prop where
  complete : Complete frames
  incomplete : Incomplete rest
  bytes_eq : bytes = frames.flatMap frame ++ rest

theorem frame_eq (payload : List UInt8) :
    frame payload =
      UInt8.ofNat (payload.length / 256) :: UInt8.ofNat payload.length :: payload := rfl

/-- The prefix of a frame spells the length of its payload. -/
theorem prefix_value {n : ℕ} (h : n < 2 ^ 16) :
    256 * (UInt8.ofNat (n / 256)).toNat + (UInt8.ofNat n).toNat = n := by
  rw [UInt8.toNat_ofNat', UInt8.toNat_ofNat']
  omega

theorem length_frame (payload : List UInt8) : (frame payload).length = payload.length + 2 := rfl

/-- Bytes that start with a complete frame are not incomplete. -/
theorem not_incomplete_frame {payload tail : List UInt8} (h : payload.length < 2 ^ 16) :
    ¬ Incomplete (frame payload ++ tail) := by
  rw [frame_eq, List.cons_append, List.cons_append, Incomplete, prefix_value h, List.length_append]
  omega

/-- Two frames at the head of the same bytes are equal, and so is what follows them. -/
theorem frame_append_inj {payload payload' tail tail' : List UInt8} (h : payload.length < 2 ^ 16)
    (h' : payload'.length < 2 ^ 16) (heq : frame payload ++ tail = frame payload' ++ tail') :
    payload = payload' ∧ tail = tail' := by
  simp only [frame_eq, List.cons_append, List.cons.injEq] at heq
  obtain ⟨hhi, hlo, htail⟩ := heq
  have hlength : payload.length = payload'.length := by
    rw [← prefix_value h, ← prefix_value h', hhi, hlo]
  exact List.append_inj htail hlength

/-- Bytes that are not incomplete start with a complete frame. -/
theorem exists_frame {bytes : List UInt8} (h : ¬ Incomplete bytes) :
    ∃ payload tail, payload.length < 2 ^ 16 ∧ bytes = frame payload ++ tail := by
  match bytes with
  | [] => exact absurd trivial h
  | [_] => exact absurd trivial h
  | hi :: lo :: tail =>
    have hlong : 256 * hi.toNat + lo.toNat ≤ tail.length := Nat.le_of_not_lt h
    have hhi : hi.toNat < 256 := hi.toNat_lt
    have hlo : lo.toNat < 256 := lo.toNat_lt
    have hlength : (tail.take (256 * hi.toNat + lo.toNat)).length = 256 * hi.toNat + lo.toNat :=
      List.length_take_of_le hlong
    refine ⟨tail.take (256 * hi.toNat + lo.toNat), tail.drop (256 * hi.toNat + lo.toNat),
      by omega, ?_⟩
    have hhead : UInt8.ofNat ((256 * hi.toNat + lo.toNat) / 256) = hi := by
      apply UInt8.toNat_inj.mp
      rw [UInt8.toNat_ofNat']
      omega
    have hnext : UInt8.ofNat (256 * hi.toNat + lo.toNat) = lo := by
      apply UInt8.toNat_inj.mp
      rw [UInt8.toNat_ofNat']
      omega
    rw [frame_eq, hlength, hhead, hnext, List.cons_append, List.cons_append,
      List.take_append_drop]

/-- Every byte string splits into frames. -/
theorem exists_splits (bytes : List UInt8) : ∃ frames rest, Splits bytes frames rest := by
  induction hlength : bytes.length using Nat.strong_induction_on generalizing bytes with
  | _ n ih =>
    by_cases hshort : Incomplete bytes
    · exact ⟨[], bytes, fun _ h => absurd h List.not_mem_nil, hshort, rfl⟩
    · obtain ⟨payload, tail, hpayload, rfl⟩ := exists_frame hshort
      have hless : tail.length < n := by
        rw [← hlength, List.length_append, length_frame]
        omega
      obtain ⟨frames, rest, h⟩ := ih tail.length hless tail rfl
      refine ⟨payload :: frames, rest, ?_, h.incomplete, ?_⟩
      · exact List.forall_mem_cons.mpr ⟨hpayload, h.complete⟩
      · rw [List.flatMap_cons, List.append_assoc, ← h.bytes_eq]

/-- What follows the first frame splits into the other frames. -/
theorem Splits.tail {bytes tail payload : List UInt8} {frames : List (List UInt8)}
    {rest : List UInt8} (h : Splits bytes (payload :: frames) rest)
    (htail : tail = frames.flatMap frame ++ rest) : Splits tail frames rest :=
  ⟨fun p hp => h.complete p (List.mem_cons_of_mem payload hp), h.incomplete, htail⟩

/-- A byte string splits in one way. -/
theorem Splits.unique {bytes : List UInt8} {frames frames' : List (List UInt8)}
    {rest rest' : List UInt8} (h : Splits bytes frames rest) (h' : Splits bytes frames' rest') :
    frames = frames' ∧ rest = rest' := by
  induction frames generalizing bytes frames' with
  | nil =>
    cases frames' with
    | nil => exact ⟨rfl, h.bytes_eq.symm.trans h'.bytes_eq⟩
    | cons payload' frames' =>
      have heq := h.bytes_eq.symm.trans h'.bytes_eq
      rw [List.flatMap_nil, List.nil_append, List.flatMap_cons, List.append_assoc] at heq
      exact absurd (heq ▸ h.incomplete)
        (not_incomplete_frame (h'.complete payload' List.mem_cons_self))
  | cons payload frames ih =>
    have hpayload := h.complete payload List.mem_cons_self
    cases frames' with
    | nil =>
      have heq := h'.bytes_eq.symm.trans h.bytes_eq
      rw [List.flatMap_nil, List.nil_append, List.flatMap_cons, List.append_assoc] at heq
      exact absurd (heq ▸ h'.incomplete) (not_incomplete_frame hpayload)
    | cons payload' frames' =>
      have heq := h.bytes_eq.symm.trans h'.bytes_eq
      rw [List.flatMap_cons, List.flatMap_cons, List.append_assoc, List.append_assoc] at heq
      obtain ⟨rfl, htail⟩ := frame_append_inj hpayload
        (h'.complete payload' List.mem_cons_self) heq
      obtain ⟨rfl, hrest⟩ := ih (h.tail rfl) (h'.tail htail)
      exact ⟨rfl, hrest⟩

/-- More bytes go on where the complete frames ended. -/
theorem Splits.append {bytes more : List UInt8} {frames frames' : List (List UInt8)}
    {rest rest' : List UInt8} (h : Splits bytes frames rest)
    (h' : Splits (rest ++ more) frames' rest') :
    Splits (bytes ++ more) (frames ++ frames') rest' where
  complete := fun payload hmem =>
    (List.mem_append.mp hmem).elim (h.complete payload) (h'.complete payload)
  incomplete := h'.incomplete
  bytes_eq := by
    rw [h.bytes_eq, List.append_assoc, h'.bytes_eq, List.flatMap_append, List.append_assoc]

/-- Every byte string is uniquely a list of complete frames with an incomplete remainder. -/
theorem existsUnique_splits (bytes : List UInt8) :
    ∃! split : List (List UInt8) × List UInt8, Splits bytes split.1 split.2 := by
  obtain ⟨frames, rest, h⟩ := exists_splits bytes
  refine ⟨(frames, rest), h, fun split hsplit => ?_⟩
  obtain ⟨hframes, hrest⟩ := hsplit.unique h
  exact Prod.ext hframes hrest

end Framing
