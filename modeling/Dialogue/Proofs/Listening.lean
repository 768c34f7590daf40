import Dialogue.Proofs.Alike
import Dialogue.Proofs.Parking
/-!
A conversation by sound. Main statement: it comes out as the same conversation by text would, of the
words that were understood, up to the order in which a batch of variables is logged, and what is cut
out of the sound depends on the sound alone.
-/
namespace Dialogue

open Speech (Segmenter Signal Transcriber Utterance)

variable {σ τ μ : Type}

structure Frame where
  playback : Option Playback.Handle
  bytes : List UInt8

def Frame.signal (frame : Frame) : Signal := .frame frame.bytes

def Session.facing (s : Session μ) (frame : Frame) : Session μ :=
  { s with playback := frame.playback.getD s.playback }

structure Reaction where
  utterance : Option Utterance
  words : Option String
  answer : Option Result
  before : Talk
  after : Talk

def Reaction.isLive (r : Reaction) : Bool := !r.before.complete

namespace Engine

def ending (e : Engine σ) (f : Flow) (s : Session μ) (w : World σ) (bytes : List UInt8) :
    Option (Utterance × World σ) :=
  s.segmenter.bind fun seg =>
    let (outcome, seg) := seg.process bytes
    outcome.utterance.map fun u =>
      (u, (e.bargeIn f { s with segmenter := some seg } outcome.started w).2)

def transcript (e : Engine σ) (f : Flow) (u : Utterance) (w : World σ) : Option String :=
  e.services.transcriber.bind fun t =>
    let language := if f.settings.language = "" then e.config.language else f.settings.language
    (t.transcribe u.bytes u.rate e.config.channels language w.state).1.toOption.join

def attend (e : Engine σ) (f : Flow) (s : Session μ) (w : World σ) (bytes : List UInt8) :
    Reaction × Session μ × World σ :=
  let ending := if s.talk.complete then none else e.ending f s w bytes
  let (answer, s', w') := e.takeFrame s bytes w
  ({ utterance := ending.map Prod.fst
     words := ending.bind fun (u, w) => e.transcript f u w
     answer, before := s.talk, after := s'.talk }, s', w')

def listen (e : Engine σ) (f : Flow) (s : Session μ) (w : World σ) :
    List Frame → List Reaction × Session μ × World σ
  | [] => ([], s, w)
  | frame :: rest =>
    let (reaction, s, w) := e.attend f (s.facing frame) w frame.bytes
    let (reactions, s, w) := listen e f s w rest
    (reaction :: reactions, s, w)

def converse (e : Engine σ) (s : Session μ) (w : World σ) :
    List String → List Result × Session μ × World σ
  | [] => ([], s, w)
  | text :: rest =>
    let (result, s, w) := e.takeText s text w
    let (results, s, w) := converse e s w rest
    (result :: results, s, w)

end Engine

section
variable {e : Engine σ} {f : Flow} {s : Session μ} {w : World σ}

theorem attend_deaf (loaded : e.flow? s.flow = some f) (deaf : s.segmenter = none)
    (bytes : List UInt8) :
    e.attend f s w bytes =
      (⟨none, none, if !s.talk.complete then some (.ofFault .notListening) else none, s.talk, s.talk⟩,
        s, w) := by
  unfold Engine.attend Engine.ending Engine.takeFrame
  rw [deaf, loaded]
  cases s.talk.complete <;> rfl

/-- Without a segmenter a frame is refused as long as the conversation goes on, and nothing comes of
it. -/
theorem listen_deaf (loaded : e.flow? s.flow = some f) (deaf : s.segmenter = none)
    (frames : List Frame) :
    let (reactions, s', _) := e.listen f s w frames
    s'.talk = s.talk ∧ ∀ r ∈ reactions, r.after = r.before ∧ r.utterance = none ∧ r.words = none ∧
      r.answer = if r.isLive then some (.ofFault .notListening) else none := by
  induction frames generalizing s with
  | nil => exact ⟨rfl, fun r hr => nomatch hr⟩
  | cons frame rest ih =>
    obtain ⟨talk, refused⟩ := ih (s := s.facing frame) loaded deaf
    unfold Engine.listen
    rw [attend_deaf (s := s.facing frame) loaded deaf]
    exact ⟨talk, List.forall_mem_cons.mpr ⟨⟨rfl, rfl, rfl, rfl⟩, refused⟩⟩

end

def Speech.Transcriber.Unfailing (t : Transcriber σ) : Prop :=
  ∀ bytes rate channels language state, ∃ heard,
    (t.hear bytes rate channels language state).1 = .ok heard

def Speech.Transcriber.Apart (t : Transcriber σ) (R : σ → τ → Prop) : Prop :=
  ∀ bytes rate channels language x y, R x y → R (t.hear bytes rate channels language x).2 y

/-- A conversation by sound and one by text that have come to the same point. -/
structure Parallel (R : σ → τ → Prop) (e : Engine σ) (e' : Engine τ) (f : Flow)
    (seg : Segmenter μ Unit) (s : Session μ) (w : World σ) (s' : Session μ) (w' : World τ) :
    Prop where
  loaded : e.flow? s.flow = some f
  loaded' : e'.flow? s'.flow = some f
  segmenter : s.segmenter = some seg
  id : s'.id = s.id
  same : s.talk.Alike f s'.talk
  states : R w.state w'.state

section
variable {e : Engine σ} {f : Flow} {seg : Segmenter μ Unit} {s : Session μ} {t : Transcriber σ}

theorem understand_transcript (transcribes : e.services.transcriber = some t)
    (unfailing : t.Unfailing) (u : Utterance) (w : World σ) :
    (e.understand f w u).1 =
      ((e.transcript f u w).map (Perception.words · u)).getD .nothing := by
  have heard (language : String) : ∃ text,
      (t.transcribe u.bytes u.rate e.config.channels language w.state).1 = .ok text := by
    unfold Transcriber.transcribe
    split
    · exact ⟨none, rfl⟩
    · obtain ⟨text, h⟩ := unfailing u.bytes u.rate e.config.channels language w.state
      split
      · exact ⟨_, rfl⟩
      · next failed => rw [failed] at h; cases h
  unfold Engine.understand Engine.transcript
  rw [transcribes]
  obtain ⟨text, h⟩ := heard (if f.settings.language = "" then e.config.language
    else f.settings.language)
  dsimp only [Option.bind_some]
  rw [h]
  cases text <;> rfl

theorem perceive_transcript (segmenter : s.segmenter = some seg)
    (listens : f.settings.listens = true) (transcribes : e.services.transcriber = some t)
    (unfailing : t.Unfailing) (w : World σ) (bytes : List UInt8) :
    let words := (e.ending f s w bytes).bind fun (u, w) => e.transcript f u w
    (words = none ∧ (e.perceive f s w bytes).1 = .nothing) ∨
      ∃ text u, words = some text ∧ (e.perceive f s w bytes).1 = .words text u := by
  unfold Engine.perceive Engine.ending
  rw [segmenter, listens]
  dsimp only [Option.bind_some]
  cases (seg.process bytes).1.utterance with
  | none => exact .inl ⟨rfl, rfl⟩
  | some u =>
    dsimp only [Option.map_some, Option.bind_some]
    rw [understand_transcript transcribes unfailing]
    cases e.transcript f u _ with
    | none => exact .inl ⟨rfl, rfl⟩
    | some text => exact .inr ⟨text, u, rfl, rfl⟩

end

section
variable {R : σ → τ → Prop} {e : Engine σ} {e' : Engine τ} {f : Flow} {s : Session μ}
  {t : Transcriber σ} (transcribes : e.services.transcriber = some t) (apart : t.Apart R)
include transcribes apart

theorem understand_states {w : World σ} {w' : World τ} (states : R w.state w'.state)
    (u : Utterance) : R (e.understand f w u).2.state w'.state := by
  have kept (language : String) :
      R (t.transcribe u.bytes u.rate e.config.channels language w.state).2 w'.state := by
    have heard := apart u.bytes u.rate e.config.channels language _ _ states
    unfold Transcriber.transcribe
    split
    · exact states
    · split
      · next h => rw [h] at heard; exact heard
      · next h => rw [h] at heard; exact heard
  unfold Engine.understand
  rw [transcribes]
  exact kept _

theorem perceive_states (alike : e.services.Alike R e'.services) {w : World σ} {w' : World τ}
    (states : R w.state w'.state) (bytes : List UInt8) :
    R (e.perceive f s w bytes).2.2.state w'.state := by
  have barged (s : Session μ) (started : Bool) : R (e.bargeIn f s started w).2.state w'.state := by
    unfold Engine.bargeIn
    split
    · exact alike.tell_left states _
    · exact states
  unfold Engine.perceive
  split
  · next segmenter _ _ =>
    have later := barged { s with segmenter := some (segmenter.process bytes).2 }
      (segmenter.process bytes).1.started
    dsimp only
    split
    · exact later
    · next u _ => exact understand_states transcribes apart later u
  · exact states

end

namespace Parallel
variable {R : σ → τ → Prop} {e : Engine σ} {e' : Engine τ} {f : Flow} {seg : Segmenter μ Unit}
  {s s' : Session μ} {w : World σ} {w' : World τ}

theorem live (h : Parallel R e e' f seg s w s' w') : s'.talk.complete = s.talk.complete :=
  h.same.complete.symm

/-- The same words get the same answer, whatever else is known about them. -/
theorem turn (h : Parallel R e e' f seg s w s' w') (alike : e.services.Alike R e'.services)
    (config : e'.config = e.config) (live : s.talk.complete = false) (text : String)
    (facts : Table Json.Value) :
    (e.turn s w (.words text facts)).1 = (e'.takeText s' text w').1 ∧
      Parallel R e e' f seg (e.turn s w (.words text facts)).2.1
        (e.turn s w (.words text facts)).2.2 (e'.takeText s' text w').2.1
        (e'.takeText s' text w').2.2 := by
  have hstage : e'.stage f s' = (e.stage f s).servedBy e'.services := by
    unfold Engine.stage Stage.servedBy
    rw [config, h.id]
  have opened : Scene.Alike f R (e.opening s w (.words text facts))
      (e'.opening s' w' (.words text [])) := by
    refine ⟨h.same.add ?_, rfl, h.states⟩
    rw [h.same.node]
    rfl
  rw [e'.takeText_eq_turn, e.turn_live s w _ h.loaded live,
    e'.turn_live s' w' _ h.loaded' (h.live.trans live), hstage, config]
  have staged : (e.stage f s).services.Alike R e'.services := alike
  obtain ⟨r, sc, sc', hdrive, hdrive', scenes⟩ :=
    Stage.drive_meet staged opened e.config.continuations (some text)
  simp only [Cue.input]
  rw [hdrive, hdrive']
  exact ⟨rfl, h.loaded, h.loaded', h.segmenter, h.id, scenes.talk, scenes.states⟩

/-- A frame of which no words are understood leaves the conversation where it stands. The others
are answered as their words are. -/
theorem attend (h : Parallel R e e' f seg s w s' w') (alike : e.services.Alike R e'.services)
    (config : e'.config = e.config) (listens : f.settings.listens = true) {t : Transcriber σ}
    (transcribes : e.services.transcriber = some t) (unfailing : t.Unfailing)
    (apart : t.Apart R) (bytes : List UInt8) :
    let (r, s₁, w₁) := e.attend f s w bytes
    let seg₁ := if s.talk.complete then seg else (seg.process bytes).2
    (r.words = none ∧ r.answer = none ∧ r.after = r.before ∧
        Parallel R e e' f seg₁ s₁ w₁ s' w') ∨
      ∃ text, r.words = some text ∧ r.answer = some (e'.takeText s' text w').1 ∧
        Parallel R e e' f seg₁ s₁ w₁ (e'.takeText s' text w').2.1 (e'.takeText s' text w').2.2 := by
  unfold Engine.attend
  cases live : s.talk.complete with
  | true =>
    have htake : e.takeFrame s bytes w = (none, s, w) := by simp [Engine.takeFrame, live]
    rw [htake]
    exact .inl ⟨rfl, rfl, rfl, h⟩
  | false =>
    have heard : Listens e f seg s := ⟨h.loaded, listens, h.segmenter, live⟩
    obtain ⟨hlistens, -⟩ := Engine.perceive_listens heard bytes w
    have attends := e.perceive_attends f s w bytes
    have states := perceive_states (f := f) (s := s) transcribes apart alike h.states bytes
    have hwords := perceive_transcript h.segmenter listens transcribes unfailing w bytes
    -- what is perceived leaves both conversations where they stand; only the answer moves them
    have h₁ : Parallel R e e' f (seg.process bytes).2 (e.perceive f s w bytes).2.1
        (e.perceive f s w bytes).2.2 s' w' :=
      ⟨hlistens.loaded, h.loaded', hlistens.segmenter, h.id.trans attends.id.symm,
        attends.talk ▸ h.same, states⟩
    rw [e.takeFrame_eq f s w h.loaded live]
    generalize e.perceive f s w bytes = perceived at *
    obtain ⟨perception, s₁, w₁⟩ := perceived
    rcases hwords with ⟨wordless, rfl⟩ | ⟨text, u, hwords, rfl⟩
    · exact .inl ⟨wordless, rfl, attends.talk, h₁⟩
    · obtain ⟨same, h₂⟩ := h₁.turn alike config (attends.talk ▸ live) text (Engine.facts u)
      exact .inr ⟨text, hwords, congrArg some same, h₂⟩

/-- Playback is nothing to the conversation. -/
theorem facing (h : Parallel R e e' f seg s w s' w') (frame : Frame) :
    Parallel R e e' f seg (s.facing frame) w s' w' :=
  ⟨h.loaded, h.loaded', h.segmenter, h.id, h.same, h.states⟩

theorem attend_utterance (h : Parallel R e e' f seg s w s' w') (live : s.talk.complete = false)
    (bytes : List UInt8) :
    (e.attend f s w bytes).1.utterance = (seg.process bytes).1.utterance := by
  unfold Engine.attend Engine.ending
  rw [live, h.segmenter]
  dsimp only [Bool.false_eq_true, if_false, Option.bind_some]
  cases (seg.process bytes).1.utterance <;> rfl

variable (alike : e.services.Alike R e'.services) (config : e'.config = e.config)
  (listens : f.settings.listens = true) {t : Transcriber σ}
  (transcribes : e.services.transcriber = some t) (unfailing : t.Unfailing) (apart : t.Apart R)
include alike config listens transcribes unfailing apart

/-- Along a run of frames the conversation goes on as it does with the words that were understood. -/
theorem listen (h : Parallel R e e' f seg s w s' w') (frames : List Frame) :
    let (reactions, s₁, _) := e.listen f s w frames
    let (results, s₁', _) := e'.converse s' w' (reactions.filterMap Reaction.words)
    s₁.talk.Alike f s₁'.talk ∧ reactions.filterMap Reaction.answer = results ∧
      ∀ r ∈ reactions, r.answer.isSome = r.words.isSome ∧ (r.words = none → r.after = r.before) := by
  induction frames generalizing seg s w s' w' with
  | nil => exact ⟨h.same, rfl, fun r hr => nomatch hr⟩
  | cons frame rest ih =>
    have first :=
      (h.facing frame).attend alike config listens transcribes unfailing apart frame.bytes
    unfold Engine.listen
    generalize e.attend f (s.facing frame) w frame.bytes = attended at first ⊢
    obtain ⟨r, s₁, w₁⟩ := attended
    dsimp only
    rw [List.forall_mem_cons, List.filterMap_cons, List.filterMap_cons]
    rcases first with ⟨words, answer, kept, h₁⟩ | ⟨text, words, answer, h₁⟩
    · obtain ⟨same, answers, fit⟩ := ih h₁
      rw [words, answer]
      exact ⟨same, answers, ⟨rfl, fun _ => kept⟩, fit⟩
    · obtain ⟨same, answers, fit⟩ := ih h₁
      rw [words, answer]
      exact ⟨same, congrArg (List.cons _) answers, ⟨rfl, nofun⟩, fit⟩

/-- What ends with each frame, as long as the conversation goes on, is up to the segmenter. -/
theorem listen_utterances (h : Parallel R e e' f seg s w s' w') (frames : List Frame) :
    let live := (e.listen f s w frames).1.takeWhile Reaction.isLive
    live.map Reaction.utterance =
      (seg.outcomes ((frames.take live.length).map Frame.signal)).map
        (Option.bind · Speech.Outcome.utterance) := by
  induction frames generalizing seg s w s' w' with
  | nil => rfl
  | cons frame rest ih =>
    have first :=
      (h.facing frame).attend alike config listens transcribes unfailing apart frame.bytes
    have hutterance (live : (s.facing frame).talk.complete = false) :=
      (h.facing frame).attend_utterance live frame.bytes
    have hbefore : (e.attend f (s.facing frame) w frame.bytes).1.before = s.talk := rfl
    unfold Engine.listen
    generalize e.attend f (s.facing frame) w frame.bytes = attended at *
    obtain ⟨r, s₁, w₁⟩ := attended
    dsimp only at first hutterance hbefore ⊢
    rw [List.takeWhile_cons, Reaction.isLive, hbefore]
    cases live : s.talk.complete with
    | true => rfl
    | false =>
      have later : ∃ s' w', Parallel R e e' f (seg.process frame.bytes).2 s₁ w₁ s' w' := by
        have still : (s.facing frame).talk.complete = false := live
        rw [still] at first
        rcases first with ⟨-, -, -, h₁⟩ | ⟨_, -, -, h₁⟩ <;> exact ⟨_, _, h₁⟩
      obtain ⟨s', w', h₁⟩ := later
      have hrest := ih h₁
      simp only [Bool.not_false, if_true]
      rw [List.map_cons, List.length_cons, List.take_succ_cons, List.map_cons, hrest,
        hutterance live]
      rfl

end Parallel

/-- A conversation by sound comes out as the one by text of the words that were understood, up to the
order in which a batch of variables is logged: a frame is answered if words are understood of it, and
as they are; any other leaves the conversation where it stands. What ends with each frame, as long as
the conversation goes on, is what the segmenter makes of the frames alone. Where detection has been
left off, each frame is refused. -/
theorem hears_as_reads {R : σ → τ → Prop} {e : Engine σ} {e' : Engine τ} {f : Flow}
    {t : Transcriber σ} (s : Session μ) (w : World σ) (w' : World τ) (frames : List Frame)
    (alike : e.services.Alike R e'.services) (config : e'.config = e.config)
    (loaded : e.flow? s.flow = some f) (loaded' : e'.flow? s.flow = some f)
    (listens : f.settings.listens = true) (transcribes : e.services.transcriber = some t)
    (unfailing : t.Unfailing) (apart : t.Apart R) (states : R w.state w'.state) :
    let heard := e.listen f s w frames
    let reactions := heard.1
    let read := e'.converse s w' (reactions.filterMap Reaction.words)
    let live := reactions.takeWhile Reaction.isLive
    heard.2.1.talk.Alike f read.2.1.talk ∧
      (∀ r ∈ reactions, r.words = none → r.after = r.before) ∧
      match s.segmenter with
      | some seg =>
        reactions.filterMap Reaction.answer = read.1 ∧
          (∀ r ∈ reactions, r.answer.isSome = r.words.isSome) ∧
          live.map Reaction.utterance =
            (seg.outcomes ((frames.take live.length).map Frame.signal)).map
              (Option.bind · Speech.Outcome.utterance)
      | none =>
        ∀ r ∈ reactions, r.utterance = none ∧ r.words = none ∧
          r.answer = if r.isLive then some (.ofFault .notListening) else none := by
  cases ears : s.segmenter with
  | some seg =>
    have h : Parallel R e e' f seg s w s w' := ⟨loaded, loaded', ears, rfl, .refl f s.talk, states⟩
    obtain ⟨same, answers, fit⟩ := h.listen alike config listens transcribes unfailing apart frames
    have utterances := h.listen_utterances alike config listens transcribes unfailing apart frames
    exact ⟨same, fun r hr => (fit r hr).2, answers, fun r hr => (fit r hr).1, utterances⟩
  | none =>
    obtain ⟨talk, refused⟩ := listen_deaf (w := w) loaded ears frames
    have wordless : (e.listen f s w frames).1.filterMap Reaction.words = [] :=
      List.filterMap_eq_nil_iff.mpr fun r hr => (refused r hr).2.2.1
    refine ⟨?_, fun r hr _ => (refused r hr).1, fun r hr => (refused r hr).2⟩
    rw [wordless, talk]
    exact .refl f s.talk

def clerk : Transcriber Nat where
  hear _ _ _ _ heard := (.ok (some (if heard = 0 then " " else " Sam ")), heard + 1)

theorem clerk_unfailing : clerk.Unfailing := fun _ _ _ _ heard =>
  ⟨some (if heard = 0 then " " else " Sam "), rfl⟩

def survey : Flow where
  document :=
    { booth.document with
      nodes := [.ofKind "desk" (.conversation
        { Flow.Conversation.standard with extracted := ["first", "last"] })] }
  sound := by decide

def finder (σ : Type) (_ : String) (context : Option Context) (state : σ) :
    Except String String × σ :=
  (.ok (if context.isNone then "\x7b\"first\": \"Sam\", \"last\": \"Hill\"\x7d" else "Hello"), state)

def phone : Engine Nat where
  config := .standard
  flows := [("booth", survey)]
  services := ⟨finder Nat, [], some clerk, [], fun _ map => ⟨map.reverse, map.reverse_perm⟩⟩

def post : Engine Unit where
  config := .standard
  flows := [("booth", survey)]
  services := ⟨finder Unit, [], none, [], fun _ => .asListed⟩

theorem phone_alike : phone.services.Alike (fun _ _ => True) post.services where
  generate _ _ _ _ _ := ⟨rfl, trivial⟩
  registered _ := rfl
  functions _ _ _ none := nomatch none
  observers _ ho := nomatch ho
  observers' _ ho := nomatch ho

def call : List Frame :=
  [⟨none, [1, 0]⟩, ⟨none, [0, 0]⟩, ⟨some .idle, [1, 0]⟩, ⟨none, [0, 0]⟩]

theorem phone_as_post :
    let heard := phone.listen survey boothSession ⟨0, []⟩ call
    let read := post.converse boothSession ⟨(), []⟩ ["Sam"]
    phone.flow? "booth" = some survey ∧ post.flow? "booth" = some survey ∧
      survey.settings.listens = true ∧ phone.services.transcriber = some clerk ∧
      heard.1.map Reaction.words = [none, none, none, some "Sam"] ∧
      heard.2.1.talk.Alike survey read.2.1.talk ∧ heard.1.filterMap Reaction.answer = read.1 ∧
      read.1.map Result.text = [some "Hello"] ∧
      read.2.1.talk.vars.history.map Change.name = ["first", "last"] := by
  have hwords : (phone.listen survey boothSession ⟨0, []⟩ call).1.map Reaction.words =
      [none, none, none, some "Sam"] := by decide +kernel
  have hsam : (phone.listen survey boothSession ⟨0, []⟩ call).1.filterMap Reaction.words =
      ["Sam"] := by
    have h := congrArg (List.filterMap id) hwords
    rw [List.filterMap_map] at h
    exact h
  obtain ⟨same, -, answers, -⟩ := hears_as_reads (f := survey) boothSession ⟨0, []⟩ ⟨(), []⟩ call
    phone_alike rfl rfl rfl rfl rfl clerk_unfailing (fun _ _ _ _ _ _ _ => trivial) trivial
  rw [hsam] at same answers
  exact ⟨rfl, rfl, rfl, rfl, hwords, same, answers, by decide +kernel, by decide +kernel⟩

def dullBooth : Flow where
  document :=
    { booth.document with
      settings := { booth.settings with
        speech := { booth.settings.speech with threshold := .ofDecimal .single false 15 (-1) } } }
  sound := by decide

def dullPhone : Engine Nat := { phone with flows := [("booth", dullBooth)] }

/-- Where detection is left off, a frame is refused although no words were understood. And of
variables that are read off the same words, either one may be the first in the log. -/
theorem phones_unlike_post :
    (∃ s : Session Unit, dullPhone.create "booth" "s" [] = .ok s ∧ s.talk.complete = false ∧
      dullPhone.flow? s.flow = some dullBooth ∧ dullBooth.settings.listens = true ∧
      dullPhone.services.transcriber = some clerk ∧ clerk.Unfailing ∧
      ∃ r ∈ (dullPhone.listen dullBooth s ⟨0, []⟩ call).1, r.words = none ∧
        r.answer = some (.ofFault .notListening)) ∧
    ∃ words, (phone.listen survey boothSession ⟨0, []⟩ call).1.filterMap Reaction.words = words ∧
      (phone.listen survey boothSession ⟨0, []⟩ call).2.1.talk.vars.history ≠
        (post.converse boothSession ⟨(), []⟩ words).2.1.talk.vars.history := by
  have words : (phone.listen survey boothSession ⟨0, []⟩ call).1.filterMap Reaction.words =
      ["Sam"] := by decide +kernel
  refine ⟨⟨_, rfl, rfl, rfl, rfl, rfl, clerk_unfailing, _, List.mem_cons_self, rfl, rfl⟩,
    ["Sam"], words, fun same => ?_⟩
  have names := congrArg (List.map Change.name) same
  revert names
  decide +kernel

end Dialogue
