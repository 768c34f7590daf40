import Dialogue.Speech.Audio
/-!
Samples and their bytes, two to a sample. Cutting the bytes at even places cuts the samples, and the
bytes of a frame are those of its samples, up to a last odd one.
-/
namespace Dialogue.Audio

theorem bytesOf_word (low high : UInt8) :
    bytesOf (low.toUInt16 ||| (high.toUInt16 <<< 8)).toInt16 = [low, high] := by
  have hlow : (low.toUInt16 ||| (high.toUInt16 <<< 8)).toUInt8 = low := by
    apply UInt8.toBitVec_inj.mp
    ext i hi
    simp
  have hhigh : ((low.toUInt16 ||| (high.toUInt16 <<< 8)) >>> 8).toUInt8 = high := by
    apply UInt8.toBitVec_inj.mp
    ext i hi
    have h8 : 8 + i < 16 := by omega
    have h16 : i < 16 := by omega
    simp [h8, h16, BitVec.getLsbD_eq_getElem hi]
  simp [bytesOf, hlow, hhigh]

theorem encode_append (sound more : List Int16) :
    encode (sound ++ more) = encode sound ++ encode more := List.flatMap_append

theorem length_encode (sound : List Int16) : (encode sound).length = 2 * sound.length := by
  induction sound with
  | nil => rfl
  | cons s rest ih =>
    have hcons : encode (s :: rest) = bytesOf s ++ encode rest := rfl
    rw [hcons, List.length_append, ih, List.length_cons, bytesOf]
    simp only [List.length_cons, List.length_nil]
    omega

theorem encode_split (sound : List Int16) (k : Nat) :
    encode sound = encode (sound.take k) ++ encode (sound.drop k) := by
  rw [← encode_append, List.take_append_drop]

theorem drop_encode (sound : List Int16) (k : Nat) :
    (encode sound).drop (2 * k) = encode (sound.drop k) := by
  by_cases hk : k ≤ sound.length
  · have hlength : (encode (sound.take k)).length = 2 * k := by
      rw [length_encode, List.length_take_of_le hk]
    rw [encode_split sound k]
    exact List.drop_left' hlength
  · have hsize := length_encode sound
    rw [List.drop_eq_nil_of_le (by omega), List.drop_eq_nil_of_le (by omega)]
    rfl

theorem take_encode (sound : List Int16) (k : Nat) :
    (encode sound).take (2 * k) = encode (sound.take k) := by
  rw [← List.append_left_inj (encode (sound.drop k)), ← encode_split, ← drop_encode,
    List.take_append_drop]

theorem extract_encode (sound : List Int16) (start stop : Nat) :
    (encode sound).extract (2 * start) (2 * stop) = encode (sound.extract start stop) := by
  rw [List.extract_eq_take_drop, List.extract_eq_take_drop, drop_encode, ← Nat.mul_sub, take_encode]

theorem length_decode (bytes : List UInt8) : (decode bytes).length = bytes.length / 2 := by
  induction bytes using decode.induct with
  | case1 low high rest ih =>
    simp only [decode, List.length_cons, ih]
    omega
  | case2 bytes short =>
    match bytes, short with
    | [], _ => rfl
    | [_], _ => simp [decode]
    | low :: high :: rest, short => exact absurd rfl (short low high rest)

theorem encode_decode (bytes : List UInt8) :
    encode (decode bytes) = bytes.take (2 * (decode bytes).length) := by
  induction bytes using decode.induct with
  | case1 low high rest ih =>
    have hcons (s : Int16) (sound : List Int16) : encode (s :: sound) = bytesOf s ++ encode sound := rfl
    simp only [decode, hcons, bytesOf_word, List.length_cons, Nat.mul_add, ih]
    rfl
  | case2 bytes short =>
    have hnone : decode bytes = [] := by
      match bytes, short with
      | [], _ => rfl
      | [_], _ => rfl
      | low :: high :: rest, short => exact absurd rfl (short low high rest)
    rw [hnone]
    rfl

end Dialogue.Audio
