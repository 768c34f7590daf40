import Dialogue.Proofs.Onset
/-!
A session that hears frames of sound while the agent's words are played on its handle, step by step:
a frame comes in, a playback begins, it comes to a boundary between two chunks, it ends. Main
statement: a playback on a sink at which frames come in is such a run.
-/
namespace Dialogue

open Playback (Handle Outcome Sink)

variable {σ μ ω : Type}

def World.interruptions (w w' : World σ) : List Event :=
  ((Journal.events w'.journal).drop (Journal.events w.journal).length).filter Event.isInterruption

namespace Airing

inductive Move where
  | frame (bytes : List UInt8)
  | begins (chunks : List (List UInt8))
  | boundary (answer : Except String Unit)
  | finish (cleared : Except String Unit)

namespace Move

def bytes? : Move → Option (List UInt8)
  | frame bytes => some bytes
  | _ => none

def isFrame (m : Move) : Bool := m.bytes?.isSome

def isWriting : Move → Bool
  | boundary (.ok _) => true
  | _ => false

end Move

/-- Nothing is played; some chunks are written and others are to come; so many were written before
it was cut short; the sink has failed. -/
inductive Player where
  | off
  | on (written : Nat) (rest : List (List UInt8))
  | cut (written : Nat)
  | broken (error : String)

inductive Note where
  | heard (outcome : Option Speech.Outcome) (interruptions : List Event)
  | began (chunks : List (List UInt8))
  | wrote (chunk : List UInt8)
  | refused (chunk : List UInt8) (error : String)
  | cut
  | ended (result : Except String Outcome)
  | nothing

end Airing

structure Airing (σ μ : Type) where
  session : Session μ
  world : World σ
  player : Airing.Player

namespace Airing

def hold (air : Airing σ μ) (player : Player) (h : Handle) : Airing σ μ :=
  { air with player, session := { air.session with playback := h } }

def step (e : Engine σ) (air : Airing σ μ) : Move → Note × Airing σ μ
  | .frame bytes =>
    let (_, session, world) := e.takeFrame air.session bytes air.world
    (.heard (air.session.outcome? bytes) (air.world.interruptions world),
      { air with session, world })
  | .begins chunks =>
    match air.player with
    | .off => (.began chunks, air.hold (.on 0 chunks) .begun)
    | _ => (.nothing, air)
  | .boundary answer =>
    match air.player with
    | .on n (chunk :: rest) =>
      if air.session.playback.interrupted then (.cut, { air with player := .cut n })
      else
        match answer with
        | .ok _ => (.wrote chunk, { air with player := .on (n + 1) rest })
        | .error e => (.refused chunk e, { air with player := .broken e })
    | _ => (.nothing, air)
  | .finish cleared =>
    match air.player with
    | .on n [] => (.ended (.ok (.completed n)), air.hold .off (.finished false))
    | .cut n => (.ended (cleared.map fun _ => .interrupted n), air.hold .off (.finished true))
    | .broken e => (.ended (.error e), air.hold .off (.finished false))
    | _ => (.nothing, air)

def run (e : Engine σ) (air : Airing σ μ) : List Move → List Note × Airing σ μ
  | [] => ([], air)
  | move :: rest =>
    let (note, air) := step e air move
    let (notes, air) := run e air rest
    (note :: notes, air)

theorem run_append (e : Engine σ) (air : Airing σ μ) (moves more : List Move) :
    run e air (moves ++ more) =
      ((run e air moves).1 ++ (run e (run e air moves).2 more).1,
        (run e (run e air moves).2 more).2) := by
  induction moves generalizing air with
  | nil => rfl
  | cons move rest ih => simp only [List.cons_append, run, ih]

def feed (e : Engine σ) (s : Session μ) (w : World σ) : List (List UInt8) → Session μ × World σ
  | [] => (s, w)
  | bytes :: rest =>
    let (_, s, w) := e.takeFrame s bytes w
    feed e s w rest

theorem run_frames (e : Engine σ) (air : Airing σ μ) (frames : List (List UInt8)) :
    (run e air (frames.map .frame)).2 =
      ⟨(feed e air.session air.world frames).1, (feed e air.session air.world frames).2,
        air.player⟩ := by
  induction frames generalizing air with
  | nil => rfl
  | cons bytes rest ih => exact ih (step e air (.frame bytes)).2

/-- Where sound is played while frames come in: these come in while the next chunk is awaited, and
these while a chunk is written. -/
structure Room (ω : Type) where
  await : ω → List (List UInt8) × ω
  write : List UInt8 → ω → Except String Unit × List (List UInt8) × ω
  clear : ω → Except String Unit × ω

def Room.sink (r : Room ω) (e : Engine σ) : Sink (Session μ × World σ × ω) where
  await h state :=
    let (s, w, u) := state
    let (frames, u) := r.await u
    let (s, w) := feed e { s with playback := h } w frames
    (s.playback, s, w, u)
  write chunk h state :=
    let (s, w, u) := state
    let (answer, frames, u) := r.write chunk u
    let (s, w) := feed e { s with playback := h } w frames
    (answer, s.playback, s, w, u)
  clear state :=
    let (s, w, u) := state
    let (answer, u) := r.clear u
    (answer, s, w, u)

def EndsSo (e : Engine σ) (air : Airing σ μ) (result : Except String Outcome) (h : Handle)
    (s : Session μ) (w : World σ) : Prop :=
  ∃ moves notes, run e air moves =
    (notes ++ [.ended result], ⟨{ s with playback := h }, w, .off⟩)

namespace EndsSo
variable {e : Engine σ} {air : Airing σ μ} {result : Except String Outcome} {h : Handle}
  {s : Session μ} {w : World σ}

/-- Moves that come before put it off. -/
theorem after (moves : List Move) (later : EndsSo e (run e air moves).2 result h s w) :
    EndsSo e air result h s w := by
  obtain ⟨more, notes, hrun⟩ := later
  refine ⟨moves ++ more, (run e air moves).1 ++ notes, ?_⟩
  rw [run_append, hrun, List.append_assoc]

theorem after_frames (frames : List (List UInt8))
    (later : EndsSo e ⟨(feed e air.session air.world frames).1,
      (feed e air.session air.world frames).2, air.player⟩ result h s w) :
    EndsSo e air result h s w :=
  .after (frames.map .frame) ((run_frames e air frames).symm ▸ later)

theorem finish (cleared : Except String Unit)
    (now : step e air (.finish cleared) = (.ended result, ⟨{ s with playback := h }, w, .off⟩)) :
    EndsSo e air result h s w :=
  ⟨[.finish cleared], [], by simp only [run, now]; rfl⟩

end EndsSo

theorem goOn_runs (e : Engine σ) (r : Room ω) (n : Nat) (chunks : List (List UInt8)) (h : Handle)
    (s : Session μ) (w : World σ) (u : ω) :
    let (result, h', s', w', _) := Playback.goOn (r.sink e) n chunks h (s, w, u)
    EndsSo e ⟨{ s with playback := h }, w, .on n chunks⟩ result h' s' w' := by
  induction chunks generalizing n h s w u with
  | nil => exact .after_frames (r.await u).1 (.finish (.ok ()) rfl)
  | cons chunk rest ih =>
    rcases awaited : feed e { s with playback := h } w (r.await u).1 with ⟨s₁, w₁⟩
    have reached {result : Except String Outcome} {h' : Handle} {s' : Session μ} {w' : World σ}
        (later : EndsSo e ⟨s₁, w₁, .on n (chunk :: rest)⟩ result h' s' w') :
        EndsSo e ⟨{ s with playback := h }, w, .on n (chunk :: rest)⟩ result h' s' w' :=
      .after_frames (r.await u).1 (by rw [awaited]; exact later)
    cases asked : s₁.playback.interrupted with
    | true =>
      simp only [Playback.goOn, Room.sink, awaited, asked, if_true]
      refine reached (.after [.boundary (.ok ())] ?_)
      simp only [run, step, asked, if_true]
      exact .finish (r.clear (r.await u).2).1 rfl
    | false =>
      rcases written : r.write chunk (r.await u).2 with ⟨answer, frames, v⟩
      have more := ih (n + 1) (feed e s₁ w₁ frames).1.playback (feed e s₁ w₁ frames).1
        (feed e s₁ w₁ frames).2 v
      cases answer with
      | error message =>
        simp only [Playback.goOn, Room.sink, awaited, asked, written, Bool.false_eq_true, if_false]
        refine reached (.after [.boundary (.error message)] ?_)
        simp only [run, step, asked, Bool.false_eq_true, if_false]
        exact .after_frames frames (.finish (.ok ()) rfl)
      | ok =>
        simp only [Playback.goOn, Room.sink, awaited, asked, written, Bool.false_eq_true, if_false]
        refine reached (.after [.boundary (.ok ())] ?_)
        simp only [run, step, asked, Bool.false_eq_true, if_false]
        exact .after_frames frames more

/-- A playback in the room is a run of moves from here, to the same result, session and world. -/
def Room.Performs (r : Room ω) (e : Engine σ) (air : Airing σ μ) (chunks : List (List UInt8))
    (u : ω) : Prop :=
  let (result, h, s, w, _) := Playback.play (r.sink e) chunks (air.session, air.world, u)
  ∃ moves notes, run e air (.begins chunks :: moves) =
    (.began chunks :: notes ++ [.ended result], ⟨{ s with playback := h }, w, .off⟩)

theorem play_performs (r : Room ω) (e : Engine σ) {air : Airing σ μ} (off : air.player = .off)
    (chunks : List (List UInt8)) (u : ω) : r.Performs e air chunks u := by
  obtain ⟨moves, notes, hrun⟩ := goOn_runs e r 0 chunks .begun air.session air.world u
  have begun : step e air (.begins chunks) = (.began chunks, air.hold (.on 0 chunks) .begun) := by
    simp only [step, off]
  refine ⟨moves, notes, ?_⟩
  simp only [run, begun, hold, hrun, List.cons_append]

end Airing
end Dialogue
