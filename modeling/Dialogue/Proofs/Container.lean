import Dialogue.Proofs.Samples
/-!
Sound in a container. A container is a chunk of chunks, each a name, the length of a body and the
body. Main statement: samples are those of their bytes and bytes those of their samples, up to a last
odd one; and who follows the lengths in a container finds in it what it was made of.
-/
namespace Dialogue.Audio

def littleEndian (bytes : List UInt8) : Nat :=
  bytes.foldr (fun byte n => byte.toNat + 256 * n) 0

theorem littleEndian_word16 (n : UInt16) : littleEndian (word16 n) = n.toNat := by
  have bound := n.toNat_lt
  simp only [littleEndian, word16, List.foldr_cons, List.foldr_nil, UInt16.toNat_toUInt8,
    UInt16.toNat_shiftRight, UInt16.reduceToNat, Nat.reduceMod, Nat.shiftRight_eq_div_pow,
    Nat.reducePow]
  omega

theorem littleEndian_word32 (n : UInt32) : littleEndian (word32 n) = n.toNat := by
  have bound := n.toNat_lt
  simp only [littleEndian, word32, List.foldr_cons, List.foldr_nil, UInt32.toNat_toUInt8,
    UInt32.toNat_shiftRight, UInt32.reduceToNat, Nat.reduceMod, Nat.shiftRight_eq_div_pow,
    Nat.reducePow]
  omega

theorem bytesOf_injective {s s' : Int16} (h : bytesOf s = bytesOf s') : s = s' := by
  have same : littleEndian (word16 s.toUInt16) = littleEndian (word16 s'.toUInt16) :=
    congrArg littleEndian h
  rw [littleEndian_word16, littleEndian_word16] at same
  exact congrArg Int16.ofUInt16 (UInt16.toNat_inj.mp same)

theorem decode_encode (sound : List Int16) : decode (encode sound) = sound := by
  induction sound with
  | nil => rfl
  | cons s sound ih =>
    have cons : encode (s :: sound) = bytesOf s ++ encode sound := rfl
    rw [cons, bytesOf, List.cons_append, List.singleton_append, decode, ih]
    exact congrArg (· :: sound) (bytesOf_injective (bytesOf_word _ _))

def wholeSamples (bytes : List UInt8) : List UInt8 :=
  if bytes.length % 2 = 0 then bytes else bytes.dropLast

theorem take_even (bytes : List UInt8) :
    bytes.take (bytes.length / 2 * 2) = wholeSamples bytes := by
  unfold wholeSamples
  split
  · exact List.take_of_length_le (by omega)
  · rw [List.dropLast_eq_take]
    exact congrArg bytes.take (by omega)

theorem encode_decode_whole (bytes : List UInt8) : encode (decode bytes) = wholeSamples bytes := by
  rw [encode_decode, length_decode, Nat.mul_comm, take_even]

structure Chunk where
  name : List UInt8
  body : List UInt8

def cut? (n : Nat) (bytes : List UInt8) : Option (List UInt8 × List UInt8) :=
  if n ≤ bytes.length then some (bytes.take n, bytes.drop n) else none

/-- The first chunk, as long as its length field says, and what is behind it. A body of odd length is
filled up with one more byte. -/
def chunk? (bytes : List UInt8) : Option (Chunk × List UInt8) := do
  let (name, rest) ← cut? 4 bytes
  let (size, rest) ← cut? 4 rest
  let (body, rest) ← cut? (littleEndian size) rest
  let (_, rest) ← cut? (body.length % 2) rest
  some (⟨name, body⟩, rest)

theorem cut?_append {n : Nat} {front : List UInt8} (size : front.length = n) (rest : List UInt8) :
    cut? n (front ++ rest) = some (front, rest) := by
  subst size
  simp [cut?]

theorem cut?_word16 (n : UInt16) (rest : List UInt8) :
    cut? 2 (word16 n ++ rest) = some (word16 n, rest) :=
  @cut?_append 2 (word16 n) rfl rest

theorem cut?_word32 (n : UInt32) (rest : List UInt8) :
    cut? 4 (word32 n ++ rest) = some (word32 n, rest) :=
  @cut?_append 4 (word32 n) rfl rest

theorem cut?_length {n : Nat} {bytes front rest : List UInt8}
    (h : cut? n bytes = some (front, rest)) : bytes.length = n + rest.length := by
  unfold cut? at h
  split at h
  · cases h
    rw [List.length_drop]
    omega
  · cases h

theorem chunk?_length {bytes rest : List UInt8} {chunk : Chunk}
    (h : chunk? bytes = some (chunk, rest)) : rest.length < bytes.length := by
  obtain ⟨⟨name, after⟩, hname, h⟩ := Option.bind_eq_some_iff.mp h
  obtain ⟨⟨size, after'⟩, hsize, h⟩ := Option.bind_eq_some_iff.mp h
  obtain ⟨⟨body, after''⟩, hbody, h⟩ := Option.bind_eq_some_iff.mp h
  obtain ⟨⟨fill, _⟩, hfill, ⟨⟩⟩ := Option.bind_eq_some_iff.mp h
  have := cut?_length hname
  have := cut?_length hsize
  have := cut?_length hbody
  have := cut?_length hfill
  simp only at *
  omega

def chunks? (bytes : List UInt8) : Option (List Chunk) :=
  if bytes = [] then some []
  else
    match h : chunk? bytes with
    | none => none
    | some (chunk, rest) =>
      have : rest.length < bytes.length := chunk?_length h
      (chunks? rest).map (chunk :: ·)
termination_by bytes.length

structure Sound where
  format : Nat
  channels : Nat
  rate : Nat
  byteRate : Nat
  align : Nat
  bits : Nat
  data : List UInt8

/-- Reads a container: one chunk of the file's length that holds the form, a description and the
data, each found by the lengths of the chunks before it. -/
def Sound.read? (file : List UInt8) : Option Sound := do
  let (riff, rest) ← chunk? file
  let (form, body) ← cut? 4 riff.body
  if riff.name = chunkName "RIFF" ∧ rest = [] ∧ form = chunkName "WAVE" then
    let chunks ← chunks? body
    let description ← chunks.find? (·.name = chunkName "fmt ")
    let data ← chunks.find? (·.name = chunkName "data")
    let (format, rest) ← cut? 2 description.body
    let (channels, rest) ← cut? 2 rest
    let (rate, rest) ← cut? 4 rest
    let (byteRate, rest) ← cut? 4 rest
    let (align, rest) ← cut? 2 rest
    let (bits, _) ← cut? 2 rest
    some ⟨littleEndian format, littleEndian channels, littleEndian rate, littleEndian byteRate,
      littleEndian align, littleEndian bits, data.body⟩
  else none

/-- A chunk with a name, the length of its body and a body of even length. -/
theorem chunk?_written {name body : List UInt8} {size : UInt32} (four : name.length = 4)
    (hsize : size.toNat = body.length) (even : body.length % 2 = 0) (rest : List UInt8) :
    chunk? (name ++ (word32 size ++ (body ++ rest))) = some (⟨name, body⟩, rest) := by
  have length : littleEndian (word32 size) = body.length := by rw [littleEndian_word32, hsize]
  have none : cut? (body.length % 2) rest = some ([], rest) := by
    rw [even]
    exact @cut?_append 0 [] rfl rest
  simp only [chunk?, cut?_append four, cut?_word32,
    cut?_append length.symm, none, Option.bind_eq_bind, Option.bind_some]

theorem chunks?_first {bytes rest : List UInt8} {chunk : Chunk}
    (h : chunk? bytes = some (chunk, rest)) : chunks? bytes = (chunks? rest).map (chunk :: ·) := by
  have some : bytes ≠ [] := List.ne_nil_of_length_pos (Nat.zero_lt_of_lt (chunk?_length h))
  rw [chunks?, if_neg some]
  split
  · next none => cases none.symm.trans h
  · next found =>
    cases found.symm.trans h
    rfl

theorem length_wholeSamples (bytes : List UInt8) :
    (wholeSamples bytes).length = bytes.length / 2 * 2 := by
  rw [← take_even, List.length_take]
  omega

section Waves
variable {bytes : List UInt8} {rate : UInt32} {channels : UInt16}

def description (rate : UInt32) (channels : UInt16) : List UInt8 :=
  word16 1 ++ (word16 channels ++ (word32 rate ++
    (word32 (rate * (channels * 2).toUInt32) ++ (word16 (channels * 2) ++ (word16 16 ++ [])))))

def parts (bytes : List UInt8) (rate : UInt32) (channels : UInt16) : List UInt8 :=
  chunkName "fmt " ++ (word32 16 ++ (description rate channels ++
    (chunkName "data" ++ (word32 (UInt32.ofNat (wholeSamples bytes).length) ++
      (wholeSamples bytes ++ [])))))

theorem length_parts (bytes : List UInt8) (rate : UInt32) (channels : UInt16) :
    (parts bytes rate channels).length = 32 + (wholeSamples bytes).length := by
  have names : (chunkName "fmt ").length = 4 ∧ (chunkName "data").length = 4 := ⟨rfl, rfl⟩
  simp only [parts, description, word16, word32, List.length_append, List.length_cons,
    List.length_nil, names]
  omega

section Sizes
variable (short : bytes.length < twoTo 32 - 36)
include short

theorem size_wholeSamples : (UInt32.ofNat (wholeSamples bytes).length).toNat =
    (wholeSamples bytes).length := by
  have even := length_wholeSamples bytes
  have bound : twoTo 32 = UInt32.size := rfl
  exact UInt32.toNat_ofNat_of_lt' (by omega)

theorem wave_parts (rate : UInt32) (channels : UInt16) :
    wave bytes rate channels =
      chunkName "RIFF" ++ (word32 (36 + UInt32.ofNat (wholeSamples bytes).length) ++
        (chunkName "WAVE" ++ parts bytes rate channels ++ [])) := by
  have kept : bytes.take (UInt32.ofNat (bytes.length / 2 * 2)).toNat = wholeSamples bytes := by
    rw [← length_wholeSamples, size_wholeSamples short, length_wholeSamples, take_even]
  simp only [wave, parts, description, kept, length_wholeSamples, List.append_assoc, List.append_nil]

theorem size_wave : (36 + UInt32.ofNat (wholeSamples bytes).length).toNat =
    36 + (wholeSamples bytes).length := by
  have even := length_wholeSamples bytes
  have bound : twoTo 32 = 2 ^ 32 := rfl
  have header : (36 : UInt32).toNat = 36 := rfl
  rw [UInt32.toNat_add, size_wholeSamples short, header]
  exact Nat.mod_eq_of_lt (by omega)

theorem chunks?_parts : chunks? (parts bytes rate channels) = some
    [⟨chunkName "fmt ", description rate channels⟩, ⟨chunkName "data", wholeSamples bytes⟩] := by
  have even := length_wholeSamples bytes
  have four : (chunkName "fmt ").length = 4 ∧ (chunkName "data").length = 4 := ⟨rfl, rfl⟩
  have sixteen : (description rate channels).length = 16 := rfl
  have told (rest : List UInt8) :
      chunk? (chunkName "fmt " ++ (word32 16 ++ (description rate channels ++ rest))) =
        some (⟨chunkName "fmt ", description rate channels⟩, rest) :=
    chunk?_written four.1 (by rw [sixteen]; rfl) (by rw [sixteen]) rest
  have sound := chunk?_written four.2 (size_wholeSamples short) (by omega) []
  have last : chunks? [] = some [] := by
    rw [chunks?, if_pos rfl]
  rw [parts, chunks?_first (told _), chunks?_first sound, last]
  rfl

theorem wave_read (aligned : channels.toNat * 2 < twoTo 16)
    (paced : rate.toNat * (channels.toNat * 2) < twoTo 32) :
    Sound.read? (wave bytes rate channels) = some {
      format := 1
      channels := channels.toNat
      rate := rate.toNat
      byteRate := rate.toNat * (channels.toNat * 2)
      align := channels.toNat * 2
      bits := 16
      data := wholeSamples bytes } := by
  have even := length_wholeSamples bytes
  have whole := length_parts bytes rate channels
  have four : (chunkName "RIFF").length = 4 ∧ (chunkName "WAVE").length = 4 := ⟨rfl, rfl⟩
  have length : (chunkName "WAVE" ++ parts bytes rate channels).length =
      36 + (wholeSamples bytes).length := by
    rw [List.length_append, four.2, whole]
    omega
  have riff := chunk?_written four.1 ((size_wave short).trans length.symm) (by omega) []
  have align : (channels * 2).toNat = channels.toNat * 2 := by
    rw [UInt16.toNat_mul]
    exact Nat.mod_eq_of_lt aligned
  have pace : (rate * (channels * 2).toUInt32).toNat = rate.toNat * (channels.toNat * 2) := by
    rw [UInt32.toNat_mul, UInt16.toNat_toUInt32, align]
    exact Nat.mod_eq_of_lt paced
  have first : [Chunk.mk (chunkName "fmt ") (description rate channels),
      ⟨chunkName "data", wholeSamples bytes⟩].find? (·.name = chunkName "fmt ") =
      some ⟨chunkName "fmt ", description rate channels⟩ := rfl
  have second : [Chunk.mk (chunkName "fmt ") (description rate channels),
      ⟨chunkName "data", wholeSamples bytes⟩].find? (·.name = chunkName "data") =
      some ⟨chunkName "data", wholeSamples bytes⟩ := rfl
  rw [wave_parts short, Sound.read?, riff]
  simp only [Option.bind_eq_bind, Option.bind_some, cut?_append four.2, and_self, if_true,
    chunks?_parts short, first, second]
  simp only [description, Option.bind_some, cut?_word16, cut?_word32, littleEndian_word16,
    littleEndian_word32, align, pace]
  rfl

theorem size_told : littleEndian ((wave bytes rate channels).extract 4 8) + 8 =
    (wave bytes rate channels).length := by
  have told : (wave bytes rate channels).extract 4 8 =
      word32 (36 + UInt32.ofNat (wholeSamples bytes).length) := by
    rw [wave_parts short]
    rfl
  have whole := length_parts bytes rate channels
  have four : (chunkName "RIFF").length = 4 ∧ (chunkName "WAVE").length = 4 := ⟨rfl, rfl⟩
  rw [told, littleEndian_word32, size_wave short, wave_parts short]
  simp only [word32, List.length_append, List.length_cons, List.length_nil, four, whole]
  omega

end Sizes
end Waves

/-- Samples are kept by their bytes, and bytes by their samples up to a last one that is no whole
sample. Unless a number in it is too large for its place, a container tells of its sound, and holds
all of it and no more. -/
theorem sound_recovered :
    (∀ sound, decode (encode sound) = sound) ∧
    (∀ bytes, encode (decode bytes) = wholeSamples bytes) ∧
    ∀ (bytes : List UInt8) (rate : UInt32) (channels : UInt16),
      bytes.length < twoTo 32 - 36 → channels.toNat * 2 < twoTo 16 →
      rate.toNat * (channels.toNat * 2) < twoTo 32 →
      let file := wave bytes rate channels
      littleEndian (file.extract 4 8) + 8 = file.length ∧
      Sound.read? file = some {
        format := 1
        channels := channels.toNat
        rate := rate.toNat
        byteRate := rate.toNat * (channels.toNat * 2)
        align := channels.toNat * 2
        bits := 16
        data := wholeSamples bytes } :=
  ⟨decode_encode, encode_decode_whole, fun _ _ _ short aligned paced =>
    ⟨size_told short, wave_read short aligned paced⟩⟩

theorem stereo_recovered :
    [1, 2, 3, 4, 5].length < twoTo 32 - 36 ∧ (2 : UInt16).toNat * 2 < twoTo 16 ∧
      (16000 : UInt32).toNat * ((2 : UInt16).toNat * 2) < twoTo 32 ∧
      Sound.read? (wave [1, 2, 3, 4, 5] 16000 2) =
        some ⟨1, 2, 16000, 64000, 4, 16, [1, 2, 3, 4]⟩ := by
  have short : [1, 2, 3, 4, 5].length < twoTo 32 - 36 := by decide
  have aligned : (2 : UInt16).toNat * 2 < twoTo 16 := by decide
  have paced : (16000 : UInt32).toNat * ((2 : UInt16).toNat * 2) < twoTo 32 := by decide
  exact ⟨short, aligned, paced,
    (sound_recovered.2.2 [1, 2, 3, 4, 5] 16000 2 short aligned paced).2⟩

end Dialogue.Audio
