/-!
Playing sound in chunks. A request to stop is heeded before the next chunk, and only a playback
that it cut short counts as interrupted.
-/
namespace Dialogue.Playback

structure Handle where
  playing : Bool
  interrupted : Bool
deriving DecidableEq

namespace Handle

def idle : Handle := ⟨false, false⟩

def begun : Handle := ⟨true, false⟩

def finished (cutShort : Bool) : Handle := ⟨false, cutShort⟩

def interrupt (h : Handle) : Handle :=
  if h.playing then { h with interrupted := true } else h

end Handle

/-- Where sound goes, with a state of its own. Whoever acts while the next chunk is awaited, or
while one is written, may act on the handle too. -/
structure Sink (ω : Type) where
  await : Handle → ω → Handle × ω
  write : List UInt8 → Handle → ω → Except String Unit × Handle × ω
  clear : ω → Except String Unit × ω

inductive Outcome where
  | completed (chunks : Nat)
  | interrupted (chunks : Nat)
deriving DecidableEq

variable {ω : Type}

def goOn (sink : Sink ω) (written : Nat) : List (List UInt8) → Handle → ω →
    Except String Outcome × Handle × ω
  | [], h, w => (.ok (.completed written), .finished false, (sink.await h w).2)
  | chunk :: rest, h, w =>
    let (h, w) := sink.await h w
    if h.interrupted then
      let (cleared, w) := sink.clear w
      (cleared.map fun _ => .interrupted written, .finished true, w)
    else
      match sink.write chunk h w with
      | (.error e, _, w) => (.error e, .finished false, w)
      | (.ok _, h, w) => goOn sink (written + 1) rest h w

/-- Plays chunks of sound; the handle it finds, it starts afresh. -/
def play (sink : Sink ω) (chunks : List (List UInt8)) (w : ω) :
    Except String Outcome × Handle × ω :=
  goOn sink 0 chunks .begun w

def message (e : String) : String := "Audio playback error: " ++ e

end Dialogue.Playback
