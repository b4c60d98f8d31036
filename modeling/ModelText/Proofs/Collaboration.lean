import Mathlib.Data.List.Forall2
import ModelText.Engine.Fixed
import ModelText.Proofs.Conversation

/-!
# Probes, and many calls of a codec

A probe takes another path through a codec than writing and reading do. It asks for the classifier first,
it lets the converter decline instead of failing, and it has reasons of its own for giving up (`Tries`). To
the collaborators all this makes no difference. What they see of a probe is what they see of writing an
entity and of reading its text back, one after the other (`Codec.writeThenRead`), as long as the converter
declines by the conversion that writing uses. The difference is in the reports, of which a probe that gives
up makes one (`Probes`).

Many calls of a codec are a turn for each, in the state that the turn before it has left (`Codec.turns`).
Their transcript is those of the turns in a row, and each of them is a conversation that goes with its call
(`Codec.calls_are_conversations`).
-/

namespace ModelText

variable {σ α : Type} {serializer : String} {entity : Entity} {calls exchanges : List Exchange}

/-! ### Calls and reports -/

namespace Exchange

/-- A call, and not a report. -/
def isCall : Exchange → Bool
  | reported _ => false
  | _ => true

/-- A report of an event that matters this much. -/
def reports (level : Level) : Exchange → Bool
  | reported event => event.level = level
  | _ => false

/-- A call to compose, with a text for its answer or with none. -/
def composes (success : Bool) : Exchange → Bool
  | compose _ answer => answer.toBool = success
  | _ => false

/-- A call reports nothing. -/
theorem reports_of_isCall {exchange : Exchange} (h : exchange.isCall) (level : Level) :
    exchange.reports level = false := by
  cases exchange with
  | reported event => exact absurd h Bool.false_ne_true
  | _ => rfl

end Exchange

/-- There are no reports among calls. -/
theorem countP_reports_eq_zero (h : ∀ exchange ∈ calls, exchange.isCall) (level : Level) :
    calls.countP (Exchange.reports level) = 0 := by
  rw [List.countP_eq_zero]
  intro exchange hmem
  rw [Exchange.reports_of_isCall (h exchange hmem)]
  exact Bool.false_ne_true

/-- Calls and then one event: the event is the only report. -/
theorem countP_reports_concat (h : ∀ exchange ∈ calls, exchange.isCall) (event : Event) (level : Level) :
    (calls ++ [Exchange.reported event]).countP (Exchange.reports level) =
      if event.level = level then 1 else 0 := by
  rw [List.countP_append, countP_reports_eq_zero h, Nat.zero_add, List.countP_singleton]
  simp only [Exchange.reports, decide_eq_true_eq]

/-- An event composes nothing. -/
theorem any_composes_concat (calls : List Exchange) (event : Event) (success : Bool) :
    (calls ++ [Exchange.reported event]).any (Exchange.composes success) =
      calls.any (Exchange.composes success) := by
  simp [Exchange.composes]

/-- Reading reports nothing. -/
theorem Reads.isCall {text : String} {reading : List Exchange} {result : Except CodecError Entity}
    (h : Reads text reading result) : ∀ exchange ∈ reading, exchange.isCall := by
  cases h <;> simp [Exchange.isCall]

/-- Reading composes nothing. -/
theorem Reads.any_composes {text : String} {reading : List Exchange} {result : Except CodecError Entity}
    (h : Reads text reading result) (success : Bool) :
    reading.any (Exchange.composes success) = false := by
  cases h <;> rfl

/-! ### The conversation of a probe -/

/-- The calls of a probe ask for the classifier, convert the entity, compose its element, and read back the
text of it, each if there was nothing to give up for. -/
inductive Tries (entity : Entity) : List Exchange → Except Codec.ProbeFailure Unit → Prop
  | unsupported :
      Tries entity [.supports entity.classifierPath false] (.error .unsupportedClassifier)
  | declined (e : CodecError) :
      Tries entity [.supports entity.classifierPath true, .fromEntity entity (.error e)]
        (.error .declined)
  | uncomposed (element : Element) (e : GrammarError) :
      Tries entity [.supports entity.classifierPath true, .fromEntity entity (.ok element),
        .compose [element] (.error e)] (.error (.compose (.composeFailure e)))
  | read (element : Element) {text : String} {reading : List Exchange}
      {result : Except CodecError Entity} : Reads text reading result →
      Tries entity (.supports entity.classifierPath true :: .fromEntity entity (.ok element) ::
        .compose [element] (.ok text) :: reading) ((result.mapError .roundTrip).map fun _ => ())

/-- A probe makes its calls, and says why it gave up if it did. -/
inductive Probes (serializer : String) (entity : Entity) : List Exchange → Bool → Prop
  | passed {calls : List Exchange} : Tries entity calls (.ok ()) → Probes serializer entity calls true
  | gaveUp {calls : List Exchange} {failure : Codec.ProbeFailure} : Tries entity calls (.error failure) →
      Probes serializer entity (calls ++ [.reported (failure.event serializer entity)]) false

namespace Tries

variable {result : Except Codec.ProbeFailure Unit}

/-- A try of the probe reports nothing, either. -/
theorem isCall (h : Tries entity calls result) : ∀ exchange ∈ calls, exchange.isCall := by
  -- Only a try that has come to reading has more exchanges than can be listed.
  cases h with
  | read element hreads =>
    intro exchange hmem
    obtain rfl | rfl | rfl | hmem : _ ∨ _ ∨ _ ∨ exchange ∈ _ := by simpa using hmem
    · rfl
    · rfl
    · rfl
    · exact hreads.isCall exchange hmem
  | _ => simp [Exchange.isCall]

/-- A composition has failed just where the probe has given up for that reason. -/
theorem any_composes_false (h : Tries entity calls result) :
    calls.any (Exchange.composes false) = true ↔ ∃ e, result = .error (.compose e) := by
  cases h with
  | @read element text reading result hreads =>
    cases result <;>
      simp [Exchange.composes, hreads.any_composes, Except.toBool, Except.map, Except.mapError]
  | _ => simp [Exchange.composes, Except.toBool]

/-- A composition has succeeded where the probe has passed or the text has not been read back. -/
theorem any_composes_true (h : Tries entity calls result) :
    calls.any (Exchange.composes true) = true ↔
      result = .ok () ∨ ∃ e, result = .error (.roundTrip e) := by
  cases h with
  | @read element text reading result hreads =>
    cases result <;>
      simp [Exchange.composes, Except.toBool, Except.map, Except.mapError]
  | _ => simp [Exchange.composes, Except.toBool]

end Tries

namespace Codec.ProbeFailure

variable {failure : Codec.ProbeFailure}

/-- The failure that is warned of is that of composing. -/
theorem level_event_eq_warn :
    (failure.event serializer entity).level = .warn ↔ ∃ e, failure = .compose e := by
  cases failure <;> simp [event, Event.level]

/-- The failure that is an error is that of reading back. -/
theorem level_event_eq_error :
    (failure.event serializer entity).level = .error ↔ ∃ e, failure = .roundTrip e := by
  cases failure <;> simp [event, Event.level]

end Codec.ProbeFailure

namespace Probes

variable {answer : Bool}

/-- There is one warning if composing fails, and none otherwise. -/
theorem countP_warn (h : Probes serializer entity exchanges answer) :
    exchanges.countP (Exchange.reports .warn) =
      if exchanges.any (Exchange.composes false) then 1 else 0 := by
  cases h with
  | passed htries =>
    have hcomposed : ¬ exchanges.any (Exchange.composes false) = true := by
      rw [htries.any_composes_false]
      exact nofun
    rw [countP_reports_eq_zero htries.isCall, if_neg hcomposed]
  | gaveUp htries =>
    rw [countP_reports_concat htries.isCall, any_composes_concat]
    refine if_congr ?_ rfl rfl
    rw [Codec.ProbeFailure.level_event_eq_warn, htries.any_composes_false]
    simp only [Except.error.injEq]

/-- There is one error if the probe gives up although there is a text, and none otherwise. -/
theorem countP_error (h : Probes serializer entity exchanges answer) :
    exchanges.countP (Exchange.reports .error) =
      if exchanges.any (Exchange.composes true) ∧ answer = false then 1 else 0 := by
  cases h with
  | passed htries =>
    have hanswer : ¬ (exchanges.any (Exchange.composes true) = true ∧ true = false) :=
      fun h => Bool.noConfusion h.2
    rw [countP_reports_eq_zero htries.isCall, if_neg hanswer]
  | gaveUp htries =>
    rw [countP_reports_concat htries.isCall, any_composes_concat]
    refine if_congr ?_ rfl rfl
    rw [Codec.ProbeFailure.level_event_eq_error, htries.any_composes_true]
    simp

end Probes

/-! ### Running a probe -/

namespace Converter

/-- The converter declines just where it fails, by the same conversion. -/
def DeclinesOnFailure (converter : Converter (StateM σ)) : Prop :=
  ∀ entity, converter.fromEntityIfPossible entity = do
    return (← converter.fromEntity entity).toOption

end Converter

namespace Codec

/-- Writes an entity and reads its text back by the operations for this, if there can be a text. -/
def writeThenRead {m : Type → Type} [Monad m] (codec : Codec m) (entity : Entity) : m Bool := do
  if ← codec.converter.supports entity.classifierPath then
    match ← (codec.serialize entity).run with
    | .error _ => return false
    | .ok text => return (← (codec.deserialize text).run).toBool
  else return false

variable {codec : Codec (StateM σ)} {s t : σ}

/-- Asking what is supported is one exchange. -/
theorem runs_supports {classifierPath : String} {answer : Bool}
    (h : (codec.converter.supports classifierPath).run s = (answer, t)) :
    codec.Runs (codec.transcribed.converter.supports classifierPath)
      (codec.converter.supports classifierPath) s answer [.supports classifierPath answer] t :=
  .call h h

/-- Declining a conversion is seen as trying it. -/
theorem runs_fromEntityIfPossible (hdeclines : codec.converter.DeclinesOnFailure)
    {answer : Except CodecError Element}
    (h : (codec.converter.fromEntity entity).run s = (answer, t)) :
    codec.Runs (codec.transcribed.converter.fromEntityIfPossible entity)
      (codec.converter.fromEntityIfPossible entity) s answer.toOption [.fromEntity entity answer] t := by
  rw [hdeclines entity]
  exact (runs_fromEntity h).bind (.pure answer.toOption t)

/-- A probe makes the calls of writing and reading, and no other. -/
theorem exists_runs_probe (hdeclines : codec.converter.DeclinesOnFailure) (entity : Entity) (s : σ) :
    ∃ result calls t,
      codec.Runs (codec.transcribed.probe entity).run (codec.probe entity).run s result calls t ∧
      codec.Runs (codec.transcribed.writeThenRead entity) (codec.writeThenRead entity) s
        result.toBool calls t ∧
      Tries entity calls result := by
  -- Split at each answer, in the order of the calls. What is left to run is known after that, so every
  -- case only has to line up its calls.
  rcases hsupports : (codec.converter.supports entity.classifierPath).run s with ⟨supported, t⟩
  have hasked := runs_supports hsupports
  cases supported with
  | false =>
    exact ⟨.error .unsupportedClassifier, _, t, Runs.bind_ok (.lift hasked) (.pure _ t),
      hasked.bind (.pure false t), .unsupported⟩
  | true =>
    rcases hconvert : (codec.converter.fromEntity entity).run t with ⟨converted, u⟩
    have htried := runs_fromEntityIfPossible hdeclines hconvert
    cases converted with
    | error e =>
      refine ⟨.error .declined, _, u, Runs.bind_ok (.lift hasked) (Runs.bind_ok (.lift htried) (.pure _ u)),
        hasked.bind ?_, .declined e⟩
      exact (runs_serialize_of_error hconvert).bind (.pure false u)
    | ok element =>
      rcases hcompose : (codec.engine.compose [element]).run u with ⟨answer, v⟩
      have hcomposed := Runs.adapt ProbeFailure.compose (runs_composeElement hcompose)
      have hwritten := runs_serialize_of_ok hconvert hcompose
      cases answer with
      | error e =>
        refine ⟨.error (.compose (.composeFailure e)), _, v, Runs.bind_ok (.lift hasked)
          (Runs.bind_ok (.lift htried) (Runs.bind_error hcomposed)), hasked.bind ?_,
          .uncomposed element e⟩
        exact hwritten.bind (.pure false v)
      | ok text =>
        obtain ⟨result, reading, w, hread, hreads⟩ := codec.exists_runs_deserialize text v
        have hback := (hread.adapt ProbeFailure.roundTrip).bind_pure fun _ => ()
        refine ⟨_, _, w, Runs.bind_ok (.lift hasked)
          (Runs.bind_ok (.lift htried) (Runs.bind_ok hcomposed hback)), hasked.bind ?_,
          .read element hreads⟩
        have hanswer :
            ((result.mapError ProbeFailure.roundTrip).map fun _ => ()).toBool = result.toBool := by
          cases result <;> rfl
        rw [hanswer]
        exact hwritten.bind (hread.map Except.toBool)

/-- The probe is a conversation and reports at the end of it; without the report it is the same as writing
and then reading. -/
theorem exists_runs_canSerialize (hdeclines : codec.converter.DeclinesOnFailure) (entity : Entity)
    (s : σ) : ∃ answer exchanges t,
      codec.Runs (codec.transcribed.canSerialize entity) (codec.canSerialize entity) s answer exchanges t ∧
      codec.Runs (codec.transcribed.writeThenRead entity) (codec.writeThenRead entity) s answer
        (exchanges.filter Exchange.isCall) t ∧
      Probes codec.name entity exchanges answer := by
  obtain ⟨result, calls, t, hprobe, hparts, htries⟩ := exists_runs_probe hdeclines entity s
  have hcalls : calls.filter Exchange.isCall = calls := List.filter_eq_self.mpr htries.isCall
  -- A probe that passes reports nothing, and one that gives up reports one event.
  cases result with
  | ok _ =>
    refine ⟨true, calls ++ [], t, hprobe.bind (.pure true t), ?_, ?_⟩
    · rw [List.append_nil, hcalls]
      exact hparts
    · rw [List.append_nil]
      exact .passed htries
  | error failure =>
    refine ⟨false, _, t, hprobe.bind ((Runs.record (failure.event codec.name entity) t).bind
      (.pure false t)), ?_, .gaveUp htries⟩
    rw [List.filter_append, hcalls]
    show codec.Runs _ _ s false (calls ++ []) t
    rw [List.append_nil]
    exact hparts

end Codec

/-! ### Many calls -/

/-- What comes of a call: the reply, the exchanges until then, and the state that is left. -/
structure Turn (σ α : Type) where
  reply : α
  exchanges : List Exchange
  state : σ

/-- The turn that a computation takes in a state. -/
def turn (x : Transcribed σ α) (s : σ) : Turn σ α :=
  match (x.run []).run s with
  | ((reply, exchanges), t) => ⟨reply, exchanges, t⟩

/-- What the collaborators see of a turn. -/
def Turn.withoutReports (turn : Turn σ α) : Turn σ α :=
  { turn with exchanges := turn.exchanges.filter Exchange.isCall }

/-- A call of a codec. -/
inductive CodecCall where
  | serialize (entity : Entity)
  | deserialize (text : String)
  | deserializeMany (text : String)
  | canSerialize (entity : Entity)

/-- The reply to a call of a codec. -/
inductive CodecReply where
  | serialized (result : Except CodecError String)
  | deserialized (result : Except CodecError Entity)
  | deserializedMany (result : Except CodecError (List Entity))
  | probed (answer : Bool)

/-- The conversations that go with a call. -/
inductive Conversation (serializer : String) : CodecCall → List Exchange → CodecReply → Prop
  | serialize {entity : Entity} {exchanges : List Exchange} {result : Except CodecError String} :
      Writes entity exchanges result →
      Conversation serializer (.serialize entity) exchanges (.serialized result)
  | deserialize {text : String} {exchanges : List Exchange} {result : Except CodecError Entity} :
      Reads text exchanges result →
      Conversation serializer (.deserialize text) exchanges (.deserialized result)
  | deserializeMany {text : String} {exchanges : List Exchange}
      {result : Except CodecError (List Entity)} : ReadsMany text exchanges result →
      Conversation serializer (.deserializeMany text) exchanges (.deserializedMany result)
  | canSerialize {entity : Entity} {exchanges : List Exchange} {answer : Bool} :
      Probes serializer entity exchanges answer →
      Conversation serializer (.canSerialize entity) exchanges (.probed answer)

namespace Codec

/-- The operation that a call asks for. -/
def perform {m : Type → Type} [Monad m] [Journal m] (codec : Codec m) : CodecCall → m CodecReply
  | .serialize entity => .serialized <$> (codec.serialize entity).run
  | .deserialize text => .deserialized <$> (codec.deserialize text).run
  | .deserializeMany text => .deserializedMany <$> (codec.deserializeMany text).run
  | .canSerialize entity => .probed <$> codec.canSerialize entity

/-- The turns of some calls, each in the state that the one before it leaves. -/
def turns (codec : Codec (StateM σ)) : List CodecCall → σ → List (Turn σ CodecReply)
  | [], _ => []
  | call :: calls, s =>
    let first := turn (codec.transcribed.perform call) s
    first :: codec.turns calls first.state

/-- The state that some calls leave. -/
def after (codec : Codec (StateM σ)) (calls : List CodecCall) (s : σ) : σ :=
  calls.foldl (fun s call => (turn (codec.transcribed.perform call) s).state) s

variable {codec : Codec (StateM σ)} {s t : σ}

/-- A turn is how the computation runs on an empty log. -/
theorem Runs.turn_eq {x : Transcribed σ α} {x₀ : StateM σ α} {a : α}
    (h : codec.Runs x x₀ s a exchanges t) : turn x s = ⟨a, exchanges, t⟩ := by
  unfold turn
  rw [h.transcribed []]
  rfl

/-- Each call of a codec is one of the conversations. -/
theorem exists_runs_perform (hdeclines : codec.converter.DeclinesOnFailure) (call : CodecCall) (s : σ) :
    ∃ reply exchanges t,
      codec.Runs (codec.transcribed.perform call) (codec.perform call) s reply exchanges t ∧
      Conversation codec.name call exchanges reply := by
  -- The operations are one conversation each, and have been treated one by one.
  cases call with
  | serialize entity =>
    obtain ⟨result, exchanges, t, hruns, hwrites⟩ := codec.exists_runs_serialize entity s
    exact ⟨_, exchanges, t, hruns.map CodecReply.serialized, .serialize hwrites⟩
  | deserialize text =>
    obtain ⟨result, exchanges, t, hruns, hreads⟩ := codec.exists_runs_deserialize text s
    exact ⟨_, exchanges, t, hruns.map CodecReply.deserialized, .deserialize hreads⟩
  | deserializeMany text =>
    obtain ⟨result, exchanges, t, hruns, hreads⟩ := codec.exists_runs_deserializeMany text s
    exact ⟨_, exchanges, t, hruns.map CodecReply.deserializedMany, .deserializeMany hreads⟩
  | canSerialize entity =>
    obtain ⟨answer, exchanges, t, hruns, -, hprobes⟩ := exists_runs_canSerialize hdeclines entity s
    exact ⟨_, exchanges, t, hruns.map CodecReply.probed, .canSerialize hprobes⟩

/-- A call is a turn, and a conversation of its kind. -/
theorem runs_turn (hdeclines : codec.converter.DeclinesOnFailure) (call : CodecCall) (s : σ) :
    let turn := turn (codec.transcribed.perform call) s
    codec.Runs (codec.transcribed.perform call) (codec.perform call) s
        turn.reply turn.exchanges turn.state ∧
      Conversation codec.name call turn.exchanges turn.reply := by
  obtain ⟨reply, exchanges, t, hruns, hconversation⟩ := exists_runs_perform hdeclines call s
  rw [hruns.turn_eq]
  exact ⟨hruns, hconversation⟩

/-- Calls run turn by turn. -/
theorem runs_turns (hdeclines : codec.converter.DeclinesOnFailure) (calls : List CodecCall) (s : σ) :
    codec.Runs (calls.mapM codec.transcribed.perform) (calls.mapM codec.perform) s
      ((codec.turns calls s).map Turn.reply) ((codec.turns calls s).flatMap Turn.exchanges)
      (codec.after calls s) := by
  -- By induction on the calls, since the turns of the others start where the first ends.
  induction calls generalizing s with
  | nil => exact .pure [] s
  | cons call calls ih =>
    rw [List.mapM_cons, List.mapM_cons]
    obtain ⟨hfirst, -⟩ := runs_turn hdeclines call s
    have hrest := (ih (turn (codec.transcribed.perform call) s).state).map
      ((turn (codec.transcribed.perform call) s).reply :: ·)
    exact hfirst.bind hrest

/-- So each of the turns of a list of calls is one. -/
theorem forall₂_turns (hdeclines : codec.converter.DeclinesOnFailure) (calls : List CodecCall) (s : σ) :
    List.Forall₂ (fun call turn => Conversation codec.name call turn.exchanges turn.reply) calls
      (codec.turns calls s) := by
  -- By induction on the calls, each of which begins in the state the one before it has left.
  induction calls generalizing s with
  | nil => exact .nil
  | cons call calls ih => exact .cons (runs_turn hdeclines call s).2 (ih _)

/-- **Calls of the collaborators.** The engine and the converter may keep a state and may fail in any call,
as long as the converter declines just where it fails. Any sequence of calls of the codec is then a turn
for each, and every turn is a conversation of the kind that its call has. Without its reports, the turn of a
probe is that of writing the entity and of reading its text back, down to the state that it leaves. It
makes one warning if composing fails, and one error if there is a text that does not read back. -/
theorem calls_are_conversations (codec : Codec (StateM σ))
    (hdeclines : codec.converter.DeclinesOnFailure) :
    (∀ (calls : List CodecCall) (s : σ),
      codec.Runs (calls.mapM codec.transcribed.perform) (calls.mapM codec.perform) s
          ((codec.turns calls s).map Turn.reply) ((codec.turns calls s).flatMap Turn.exchanges)
          (codec.after calls s) ∧
        List.Forall₂ (fun call turn => Conversation codec.name call turn.exchanges turn.reply) calls
          (codec.turns calls s)) ∧
      ∀ (entity : Entity) (s : σ),
        let probing := turn (codec.transcribed.canSerialize entity) s
        probing.withoutReports = turn (codec.transcribed.writeThenRead entity) s ∧
          probing.exchanges.countP (Exchange.reports .warn) =
            (if probing.exchanges.any (Exchange.composes false) then 1 else 0) ∧
          probing.exchanges.countP (Exchange.reports .error) =
            if probing.exchanges.any (Exchange.composes true) ∧ probing.reply = false then 1 else 0 := by
  refine ⟨fun calls s => ⟨runs_turns hdeclines calls s, forall₂_turns hdeclines calls s⟩, ?_⟩
  -- What is counted are the exchanges of one probe, whose course is known.
  intro entity s probing
  obtain ⟨answer, exchanges, t, hruns, hparts, hprobes⟩ := exists_runs_canSerialize hdeclines entity s
  have hprobing : probing = ⟨answer, exchanges, t⟩ := hruns.turn_eq
  rw [hprobing, hparts.turn_eq]
  exact ⟨rfl, hprobes.countP_warn, hprobes.countP_error⟩

/-- Calls are counted while an engine refuses to compose. -/
theorem calls_are_conversations_counted :
    let entity : Entity := ⟨"a", "c", .empty⟩
    let element : Element := .declaration { kind := "k", path := "a", body := .empty }
    let converter : Converter (StateM Calls) := (Converter.ofConversions (fun _ => pure true)
      (fun _ => pure (.ok element)) (fun _ => pure (.ok entity))).counted
    let codec : Codec (StateM Calls) :=
      { name := "n", fileExtension := "e", engine := (Engine.fixed (.ok []) (.error .lock)).counted,
        converter := converter }
    let probing := turn (codec.transcribed.canSerialize entity) {}
    codec.converter.DeclinesOnFailure ∧
      codec.Converses [.supports "c" true, .fromEntity entity (.ok element),
        .compose [element] (.error .lock),
        .reported (.unableToSerialize "a" "n" (CodecError.composeFailure .lock).message),
        .fromEntity entity (.ok element), .compose [element] (.error .lock)]
        {} { composes := 2, fromEntity := 2 } ∧
      probing.exchanges.countP (Exchange.reports .warn) = 1 ∧
      probing.exchanges.countP (Exchange.reports .error) = 0 := by
  intro entity element converter codec probing
  have hdeclines : codec.converter.DeclinesOnFailure := fun _ => rfl
  obtain ⟨hcalls, hprobes⟩ := calls_are_conversations codec hdeclines
  obtain ⟨-, hwarn, herror⟩ := hprobes entity {}
  exact ⟨hdeclines, (hcalls [.canSerialize entity, .serialize entity] {}).1.converses,
    hwarn.trans rfl, herror.trans rfl⟩

end Codec

end ModelText
