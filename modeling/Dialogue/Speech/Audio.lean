import Dialogue.Number.Binary
/-! Mono sound of 16 bits a sample: its bytes, its energy, its duration and its container file. -/
namespace Dialogue.Audio

/-- The samples of bytes, low byte first. A last odd byte is left out. -/
def decode : List UInt8 → List Int16
  | low :: high :: rest => (low.toUInt16 ||| (high.toUInt16 <<< 8)).toInt16 :: decode rest
  | _ => []

def bytesOf (s : Int16) : List UInt8 :=
  [s.toUInt16.toUInt8, (s.toUInt16 >>> 8).toUInt8]

def encode (samples : List Int16) : List UInt8 :=
  samples.flatMap bytesOf

def toMachine (x : Double) : Float :=
  Float.ofBits (UInt64.ofNat (x.magnitude + if x.negative then twoTo 63 else 0))

def energy (samples : List Int16) : Single :=
  if samples.isEmpty then ⟨false, 0⟩
  else
    let squares := samples.foldl (fun n s => n + s.toInt.natAbs * s.toInt.natAbs) 0
    let mean := toMachine ⟨false, Format.double.nearest squares samples.length⟩
    let root := Float.sqrt mean / 32768
    Binary.convert .single (⟨false, root.toBits.toNat⟩ : Double)

/-- The samples in a number of milliseconds: half a sample counts as one, and a time that is not
positive has none. The count ends at 64 bits. -/
def samplesIn (ms : Double) (rate : Nat) : Nat :=
  if ms ≤ ⟨false, 0⟩ then 0
  else
    let f := Format.double
    let product := f.mul ms.magnitude (f.nearest rate 1)
    min (twoTo 64 - 1) (f.round (f.div product (f.nearest 1000 1)))

def samplesOf (ms rate : Nat) : Nat :=
  (ms * rate + 500) / 1000

def duration (samples rate : Nat) : Double :=
  let f := Format.double
  if rate = 0 then ⟨false, 0⟩
  else
    let thousandfold := f.mul (f.nearest samples 1) (f.nearest 1000 1)
    ⟨false, f.div thousandfold (f.nearest rate 1)⟩

def word16 (n : UInt16) : List UInt8 :=
  [n.toUInt8, (n >>> 8).toUInt8]

def word32 (n : UInt32) : List UInt8 :=
  [n.toUInt8, (n >>> 8).toUInt8, (n >>> 16).toUInt8, (n >>> 24).toUInt8]

def chunkName (s : String) : List UInt8 :=
  s.toList.map fun c => c.toNat.toUInt8

/-- A RIFF container with sound of 16 bits a sample: 44 bytes of header, then as much of the whole
samples as the size of 32 bits says. -/
def wave (bytes : List UInt8) (rate : UInt32) (channels : UInt16) : List UInt8 :=
  let size := UInt32.ofNat (bytes.length / 2 * 2)
  let data := bytes.take size.toNat
  let align := channels * 2
  chunkName "RIFF" ++ word32 (36 + size) ++ chunkName "WAVE" ++
    chunkName "fmt " ++ word32 16 ++ word16 1 ++ word16 channels ++ word32 rate ++
    word32 (rate * align.toUInt32) ++ word16 align ++ word16 16 ++
    chunkName "data" ++ word32 size ++ data

end Dialogue.Audio
