/-!
# The journal

Operations report what they did, beside their result, as events in a journal. An event has a level,
a fixed message and named fields; the wording is here, in one place.

What becomes of the events is up to the setting an operation runs in (`Journal`). Where there is
nothing but results they are dropped, and where there is a list of them they go to its end, so one
definition of an operation serves both for its results and for its reports.
-/

namespace ModelText

/-- How much an event matters. -/
inductive Level where
  | debug
  | info
  | warn
  | error
deriving DecidableEq, Repr

/-- The name of a level. -/
def Level.name : Level → String
  | debug => "DEBUG"
  | info => "INFO"
  | warn => "WARN"
  | error => "ERROR"

/-- Something that an operation reports. -/
inductive Event where
  | parsed (elements bytes : Nat)
  | composed (elements bytes : Nat)
  | partitioned (sectionIndexes elements : Nat)
  | classifierNotSupported (entityPath classifierPath : String)
  | declined (entityPath : String)
  | unableToSerialize (entityPath serializer error : String)
  | unableToDeserialize (entityPath serializer error : String)
  | configLoaded (path : String) (classifiers : Nat)
  | codecReady (serializer : String)
  | entityWritten (entityPath file : String)
  | entitiesRead (file : String) (entities : Nat)
deriving DecidableEq, Repr

namespace Event

/-- How much the event matters. -/
def level : Event → Level
  | configLoaded .. | entitiesRead .. => .info
  | unableToSerialize .. => .warn
  | unableToDeserialize .. => .error
  | _ => .debug

/-- What happened, in words. -/
def message : Event → String
  | parsed .. => "Parsed model text"
  | composed .. => "Composed model text"
  | partitioned .. => "Partitioned model text"
  | classifierNotSupported .. => "Classifier not supported"
  | declined .. => "Converter declined entity"
  | unableToSerialize .. => "Unable to serialize entity"
  | unableToDeserialize .. => "Unable to deserialize entity after serializing it"
  | configLoaded .. => "Loaded codec config"
  | codecReady .. => "Codec ready"
  | entityWritten .. => "Serialized entity"
  | entitiesRead .. => "Deserialized model text"

/-- What it happened to: the fields with their names. -/
def fields : Event → List (String × String)
  | parsed elements bytes | composed elements bytes =>
    [("elements", toString elements), ("bytes", toString bytes)]
  | partitioned sectionIndexes elements =>
    [("section_indexes", toString sectionIndexes), ("elements", toString elements)]
  | classifierNotSupported entityPath classifierPath =>
    [("entity_path", entityPath), ("classifier_path", classifierPath)]
  | declined entityPath => [("entity_path", entityPath)]
  | unableToSerialize entityPath serializer error
  | unableToDeserialize entityPath serializer error =>
    [("entity_path", entityPath), ("serializer", serializer), ("error", error)]
  | configLoaded path classifiers => [("path", path), ("classifiers", toString classifiers)]
  | codecReady serializer => [("serializer", serializer)]
  | entityWritten entityPath file => [("entity_path", entityPath), ("file", file)]
  | entitiesRead file entities => [("file", file), ("entities", toString entities)]

end Event

/-- A setting that takes events. -/
class Journal (m : Type → Type) where
  record : Event → m Unit

/-- Where there are only results, events are dropped. -/
instance : Journal Id where
  record _ := ()

/-- Results with the events reported so far. -/
abbrev Journaled : Type → Type := StateM (List Event)

/-- Where there is a list of events, they go to its end. -/
instance : Journal Journaled where
  record event := modify (· ++ [event])

/-- A state beside the journal leaves the journal as it is. -/
instance (priority := low) {σ : Type} {m : Type → Type} [Monad m] [Journal m] :
    Journal (StateT σ m) where
  record event := liftM (Journal.record event : m Unit)

/-- So do errors. -/
instance (priority := low) {ε : Type} {m : Type → Type} [Monad m] [Journal m] :
    Journal (ExceptT ε m) where
  record event := liftM (Journal.record event : m Unit)

end ModelText
