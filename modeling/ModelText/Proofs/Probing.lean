import ModelText.Codec.Probe
import ModelText.Proofs.RoundTrip

/-!
# Probing is as good as writing

A probe goes another way than writing does: it asks for the classifier first, it forgets why an entity
has no element, and it reads what it has written. Still it gives up on just the entities that have no
text (`run_probe`), since what is written always reads back. So the last of the reasons for giving up
never occurs (`Format.refusal_ne_roundTrip`), and the answer of a probe is whether there is a text.
-/

namespace ModelText

open Grammar

/-! ### Events in a row -/

namespace Journal

/-- Reports events one after another. -/
def recordAll {m : Type → Type} [Monad m] [Journal m] (events : List Event) : m Unit :=
  events.forM record

section Setting

variable {m : Type → Type} [Monad m] [Journal m]

/-- No events are nothing to record. -/
theorem recordAll_nil : (recordAll [] : m Unit) = pure () := List.forM_nil

/-- Events are recorded one after another. -/
theorem recordAll_cons (event : Event) (events : List Event) :
    (recordAll (event :: events) : m Unit) = record event >>= fun _ => recordAll events :=
  List.forM_cons

/-- The journal does not look at a state beside it. -/
theorem run_record {σ : Type} (event : Event) (s : σ) :
    (record event : StateT σ m Unit).run s = record event >>= fun _ => pure ((), s) := rfl

variable [LawfulMonad m]

/-- A list of events may be recorded in parts. -/
theorem recordAll_append (events events' : List Event) :
    (recordAll (events ++ events') : m Unit) = recordAll events >>= fun _ => recordAll events' :=
  List.forM_append

/-- A state around the journal does not matter to it. -/
theorem run_recordAll {σ : Type} (events : List Event) (s : σ) :
    (recordAll events : StateT σ m Unit).run s = recordAll events >>= fun _ => pure ((), s) := by
  -- By induction on the events.
  induction events with
  | nil => rw [recordAll_nil, recordAll_nil, pure_bind, StateT.run_pure]
  | cons event events ih =>
    rw [recordAll_cons, recordAll_cons, StateT.run_bind, run_record]
    simp only [bind_assoc, pure_bind, ih]

end Setting

/-- Where events are kept, they come after those that are there already. -/
theorem run_recordAll_journaled (events log : List Event) :
    (recordAll events : Journaled Unit).run log = pure ((), log ++ events) := by
  -- By induction on the events, each of which becomes the last of the log.
  induction events generalizing log with
  | nil => rw [recordAll_nil, StateT.run_pure, List.append_nil]
  | cons event events ih =>
    rw [recordAll_cons, StateT.run_bind]
    have hrecord : (record event : Journaled Unit).run log = pure ((), log ++ [event]) := rfl
    rw [hrecord, pure_bind, ih, List.append_assoc, List.singleton_append]

end Journal

/-- Only one kind of event says that something written does not read back. -/
theorem Event.eq_of_message {event : Event}
    (h : event.message = "Unable to deserialize entity after serializing it") :
    ∃ path serializer error, event = .unableToDeserialize path serializer error := by
  cases event with
  | unableToDeserialize path serializer error => exact ⟨path, serializer, error, rfl⟩
  | _ => simp [message] at h

/-! ### What can be written -/

namespace Format

/-- Whether an entity has a text. -/
def writes (format : Format) (entity : Entity) : Bool :=
  (format.written entity).toBool

/-- An entity can be written if there is a text that it is written as. -/
theorem writes_eq_true {format : Format} {entity : Entity} :
    format.writes entity = true ↔ ∃ text, format.written entity = .ok text := by
  unfold writes
  cases format.written entity with
  | error e => simp [Except.toBool]
  | ok text => simp [Except.toBool]

/-- Why a probe gives up on an entity that has no text because of an error. -/
def refusal (format : Format) (entity : Entity) (error : CodecError) : Codec.ProbeFailure :=
  if format.taxonomy.supports entity.classifierPath then
    match format.taxonomy.fromEntity entity with
    | .error _ => .declined
    | .ok _ => .compose error
  else .unsupportedClassifier

/-- A probe never gives up on reading what it has written. -/
theorem refusal_ne_roundTrip (format : Format) (entity : Entity) (error error' : CodecError) :
    format.refusal entity error ≠ .roundTrip error' := by
  unfold refusal
  split
  · cases format.taxonomy.fromEntity entity with
    | error e => exact nofun
    | ok element => exact nofun
  · exact nofun

/-- An entity with an element has a classifier that is supported. -/
theorem supports_of_fromEntity {format : Format} {entity : Entity} {element : Element}
    (h : format.taxonomy.fromEntity entity = .ok element) :
    format.taxonomy.supports entity.classifierPath = true := by
  obtain ⟨m, hm, -, -⟩ := Taxonomy.fromEntity_eq_ok.mp h
  exact Option.isSome_of_mem hm

/-- An entity that cannot be converted is not written. -/
theorem written_of_error {format : Format} {entity : Entity} {error : CodecError}
    (h : format.taxonomy.fromEntity entity = .error error) :
    format.written entity = .error error := by
  unfold written
  rw [h]

/-- An entity that can be converted is written as its element is composed. -/
theorem written_of_ok {format : Format} {entity : Entity} {element : Element}
    (h : format.taxonomy.fromEntity entity = .ok element) :
    format.written entity = (compose format.style [element]).mapError .composeFailure := by
  unfold written
  rw [h]

/-- If there is an element, the probe fails where it composes. -/
theorem refusal_of_ok {format : Format} {entity : Entity} {element : Element}
    (h : format.taxonomy.fromEntity entity = .ok element) (error : CodecError) :
    format.refusal entity error = .compose error := by
  unfold refusal
  rw [if_pos (supports_of_fromEntity h), h]

/-- What a probe of an entity reports. -/
def probeEvents (format : Format) (entity : Entity) : List Event :=
  match format.written entity with
  | .error e => [(format.refusal entity e).event format.name entity]
  | .ok text => [.composed 1 text.utf8ByteSize, .parsed 1 text.utf8ByteSize]

/-- A probe never reports a text that does not read back. -/
theorem message_of_mem_probeEvents {format : Format} {entity : Entity} {event : Event}
    (h : event ∈ format.probeEvents entity) :
    event.message ≠ "Unable to deserialize entity after serializing it" := by
  intro hmessage
  obtain ⟨path, serializer, error, rfl⟩ := Event.eq_of_message hmessage
  unfold probeEvents at h
  cases hwritten : format.written entity with
  | error e =>
    rw [hwritten] at h
    have hevent := List.mem_singleton.mp h
    -- One event for each reason, and the reason that would have this message does not occur.
    cases hrefusal : format.refusal entity e with
    | unsupportedClassifier =>
      rw [hrefusal] at hevent
      cases hevent
    | declined =>
      rw [hrefusal] at hevent
      cases hevent
    | compose error =>
      rw [hrefusal] at hevent
      cases hevent
    | roundTrip error => exact refusal_ne_roundTrip format entity e error hrefusal
  | ok text =>
    rw [hwritten] at h
    rcases List.mem_cons.mp h with heq | h
    · cases heq
    · cases List.mem_singleton.mp h

end Format

/-! ### Probes in a setting -/

section Setting

variable {m : Type → Type} [Monad m] [LawfulMonad m] [Journal m]

/-- The step of a probe that reads what has been written. -/
theorem run_roundTrip_of_written {format : Format} {entity : Entity} {text : String}
    (h : format.written entity = .ok text) :
    (ExceptT.adapt Codec.ProbeFailure.roundTrip ((format.codec (m := m)).deserialize text)).run =
      (do
        Journal.record (.parsed 1 text.utf8ByteSize)
        pure (.ok entity)) := by
  rw [ExceptT.run_adapt, run_deserialize_of_written h]
  simp only [map_bind, map_pure, Except.mapError]

/-- A probe comes to its end if there is a text, and gives up for the reason of `Format.refusal` if
there is none. -/
theorem run_probe (format : Format) (entity : Entity) :
    ((format.codec (m := m)).probe entity).run =
      (match format.written entity with
      | .error e => pure (.error (format.refusal entity e))
      | .ok text => do
        Journal.record (.composed 1 text.utf8ByteSize)
        Journal.record (.parsed 1 text.utf8ByteSize)
        pure (.ok ())) := by
  have hsupports : (format.codec (m := m)).converter.supports entity.classifierPath =
      pure (format.taxonomy.supports entity.classifierPath) := rfl
  have hconverted : (format.codec (m := m)).converter.fromEntityIfPossible entity =
      pure (format.taxonomy.fromEntity entity).toOption := pure_bind _ _
  -- Conversion says nothing about the setting, so its two answers are known at once.
  unfold Codec.probe
  rw [hsupports, hconverted, ExceptT.run_bind, liftM_pure, ExceptT.run_pure, pure_bind]
  dsimp only
  cases hfrom : format.taxonomy.fromEntity entity with
  | error e =>
    -- Without an element the classifier decides which of two reasons is given.
    rw [Format.written_of_error hfrom]
    unfold Format.refusal
    rw [hfrom]
    split
    · rw [ExceptT.run_bind, liftM_pure, ExceptT.run_pure, pure_bind]
      rfl
    · rfl
  | ok element =>
    rw [if_pos (Format.supports_of_fromEntity hfrom), ExceptT.run_bind, liftM_pure,
      ExceptT.run_pure, pure_bind]
    dsimp only [Except.toOption]
    rw [ExceptT.run_bind, ExceptT.run_adapt, run_composeElement]
    cases hcompose : compose format.style [element] with
    | error e =>
      rw [Format.written_of_ok hfrom, hcompose, map_pure, pure_bind]
      dsimp only [Except.mapError]
      rw [Format.refusal_of_ok hfrom]
    | ok text =>
      have hwritten := Format.written_eq_ok.mpr ⟨element, hfrom, hcompose⟩
      rw [hwritten]
      simp only [map_bind, bind_assoc, map_pure, pure_bind, Except.mapError, ExceptT.run_bind,
        run_roundTrip_of_written hwritten, ExceptT.run_pure]

/-- **Probing.** The answer of a probe is whether the entity has a text. -/
theorem run_canSerialize (format : Format) (entity : Entity) :
    (format.codec (m := m)).canSerialize entity = (do
      Journal.recordAll (format.probeEvents entity)
      pure (format.writes entity)) := by
  have hprobe := run_probe (m := m) format entity
  unfold ExceptT.run at hprobe
  unfold Codec.canSerialize Format.probeEvents Format.writes
  rw [hprobe]
  -- Either the probe fails and the failure is recorded, or it passes with its own two events.
  cases format.written entity with
  | error e =>
    rw [pure_bind, Journal.recordAll_cons, Journal.recordAll_nil]
    simp only [bind_assoc, pure_bind]
    rfl
  | ok text =>
    dsimp only
    rw [Journal.recordAll_cons, Journal.recordAll_cons, Journal.recordAll_nil]
    simp only [bind_assoc, pure_bind]
    rfl

end Setting

/-! ### Where events are kept -/

/-- The probe answers whether the entity can be written, and its events come behind those that are in the
log. -/
theorem canSerialize_journaled (format : Format) (entity : Entity) (log : List Event) :
    ((format.codec (m := Journaled)).canSerialize entity).run log =
      (format.writes entity, log ++ format.probeEvents entity) := by
  rw [run_canSerialize, StateT.run_bind, Journal.run_recordAll_journaled, pure_bind,
    StateT.run_pure]
  rfl

/-- Writing answers the same with a log as without one. -/
theorem serialize_journaled (format : Format) (entity : Entity) (log : List Event) :
    (((format.codec (m := Journaled)).serialize entity).run.run log).1 = format.written entity := by
  rw [run_serialize]
  cases format.written entity with
  | error e => rfl
  | ok text => rfl

/-- So does reading. -/
theorem deserialize_journaled {format : Format} {entity : Entity} {text : String}
    (h : format.written entity = .ok text) (log : List Event) :
    (((format.codec (m := Journaled)).deserialize text).run.run log).1 = .ok entity := by
  rw [run_deserialize_of_written h]
  rfl

/-- The probe never finds that what has been written cannot be read back. -/
theorem probe_journaled (format : Format) (entity : Entity) (log : List Event)
    (error : CodecError) :
    (((format.codec (m := Journaled)).probe entity).run.run log).1 ≠ .error (.roundTrip error) := by
  rw [run_probe]
  -- What is refused is refused in writing, and what is written is read back.
  cases format.written entity with
  | error e =>
    intro h
    exact Format.refusal_ne_roundTrip format entity e error (Except.error.inj h)
  | ok text => exact nofun

end ModelText
