import ModelText.Codec.Probe

/-!
# Transcripts

What a codec does with its collaborators can be seen from a transcript of its calls, each with what it has
been answered, and of the events that it reports in between (`Exchange`). An engine and a converter that
keep a state serve as collaborators here. They may share the state and change it in every call, so the
setting is a state of any type. The transcript is kept beside it, by handing the codec collaborators that
note down every call (`Codec.transcribed`).

The judgement `Codec.Runs` says how a computation of the codec goes, with the transcript and without it:
both come to the same result and leave the same state, and what the transcript gains are exchanges that
take place one after another between these states. It has a rule for each way in which computations are
put together, and a call and a report are its axioms.
-/

namespace ModelText

/-- Something that can be seen of a codec at work: a call of a collaborator with its answer, or an event
that is reported. -/
inductive Exchange where
  | supports (classifierPath : String) (answer : Bool)
  | fromEntity (entity : Entity) (answer : Except CodecError Element)
  | toEntity (element : Element) (answer : Except CodecError Entity)
  | parse (text : String) (keepSource : Bool) (answer : Except GrammarError (List Element))
  | compose (elements : List Element) (answer : Except GrammarError String)
  | reported (event : Event)

/-- Results with a transcript, beside a state of the collaborators. -/
abbrev Transcribed (σ : Type) : Type → Type := StateT (List Exchange) (StateM σ)

/-- Where there is a transcript, events go to its end. -/
instance {σ : Type} : Journal (Transcribed σ) where
  record event := modify (· ++ [.reported event])

variable {σ α β : Type}

/-- A call that goes to the end of the transcript together with its answer. -/
def transcribe (note : α → Exchange) (call : StateM σ α) : Transcribed σ α := do
  let answer ← (call : StateM σ α)
  modify (· ++ [note answer])
  return answer

/-- An engine with a transcript of its calls. -/
def Engine.transcribed (engine : Engine (StateM σ)) : Engine (Transcribed σ) where
  parse text keepSource := transcribe (.parse text keepSource) (engine.parse text keepSource)
  compose elements := transcribe (.compose elements) (engine.compose elements)

/-- A converter with a transcript of its calls. It declines where it fails, so declining calls it too. -/
def Converter.transcribed (converter : Converter (StateM σ)) : Converter (Transcribed σ) :=
  ofConversions
    (fun classifierPath => transcribe (.supports classifierPath) (converter.supports classifierPath))
    (fun entity => transcribe (.fromEntity entity) (converter.fromEntity entity))
    (fun element => transcribe (.toEntity element) (converter.toEntity element))

/-- A codec with a transcript of its calls. -/
def Codec.transcribed (codec : Codec (StateM σ)) : Codec (Transcribed σ) where
  name := codec.name
  fileExtension := codec.fileExtension
  engine := codec.engine.transcribed
  converter := codec.converter.transcribed

namespace Codec

/-! ### Exchanges that take place -/

/-- In state `s` an exchange takes place that leaves state `t`: the collaborator gives just this answer.
A report is none of their business. -/
def Answers (codec : Codec (StateM σ)) : Exchange → σ → σ → Prop
  | .supports classifierPath answer, s, t =>
    (codec.converter.supports classifierPath).run s = (answer, t)
  | .fromEntity entity answer, s, t => (codec.converter.fromEntity entity).run s = (answer, t)
  | .toEntity element answer, s, t => (codec.converter.toEntity element).run s = (answer, t)
  | .parse text keepSource answer, s, t => (codec.engine.parse text keepSource).run s = (answer, t)
  | .compose elements answer, s, t => (codec.engine.compose elements).run s = (answer, t)
  | .reported _, s, t => s = t

/-- Exchanges take place one after another. -/
inductive Converses (codec : Codec (StateM σ)) : List Exchange → σ → σ → Prop
  | nil {s : σ} : Converses codec [] s s
  | cons {exchange : Exchange} {exchanges : List Exchange} {s t u : σ} :
      codec.Answers exchange s t → Converses codec exchanges t u →
      Converses codec (exchange :: exchanges) s u

variable {codec : Codec (StateM σ)} {s t u : σ} {exchanges exchanges' : List Exchange}

/-- One exchange that takes place is a conversation. -/
theorem Converses.singleton {exchange : Exchange} (h : codec.Answers exchange s t) :
    codec.Converses [exchange] s t :=
  .cons h .nil

/-- Conversations can be continued from the state in which they end. -/
theorem Converses.append (h : codec.Converses exchanges s t) (h' : codec.Converses exchanges' t u) :
    codec.Converses (exchanges ++ exchanges') s u := by
  -- By induction on the first conversation.
  induction h with
  | nil => exact h'
  | cons hanswer _ ih => exact .cons hanswer (ih h')

/-! ### How computations run -/

/-- **Runs.** In state `s` a computation comes to the result `a` and leaves state `t`, with a transcript
and without one. The transcript gains `exchanges`, which take place in this order. -/
structure Runs (codec : Codec (StateM σ)) (transcribed : Transcribed σ α) (plain : StateM σ α) (s : σ)
    (a : α) (exchanges : List Exchange) (t : σ) : Prop where
  transcribed : ∀ log, (transcribed.run log).run s = ((a, log ++ exchanges), t)
  plain : plain.run s = (a, t)
  converses : codec.Converses exchanges s t

namespace Runs

/-- A computation that asks nobody runs without exchanges. -/
theorem pure (a : α) (s : σ) : codec.Runs (Pure.pure a) (Pure.pure a) s a [] s where
  transcribed log := by rw [List.append_nil]; rfl
  plain := rfl
  converses := .nil

/-- Two computations in a row have the exchanges of both, and the second runs from the state that the
first leaves. -/
theorem bind {x : Transcribed σ α} {x₀ : StateM σ α} {f : α → Transcribed σ β}
    {f₀ : α → StateM σ β} {a : α} {b : β} (hx : codec.Runs x x₀ s a exchanges t)
    (hf : codec.Runs (f a) (f₀ a) t b exchanges' u) :
    codec.Runs (x >>= f) (x₀ >>= f₀) s b (exchanges ++ exchanges') u where
  -- The second computation finds the exchanges of the first in the log already.
  transcribed log := by
    rw [StateT.run_bind, StateT.run_bind, hx.transcribed log, ← List.append_assoc]
    exact hf.transcribed (log ++ exchanges)
  plain := by
    rw [StateT.run_bind, hx.plain]
    exact hf.plain
  converses := hx.converses.append hf.converses

/-- What is made of an answer afterwards adds no exchange. -/
theorem map {x : Transcribed σ α} {x₀ : StateM σ α} {a : α} (f : α → β)
    (hx : codec.Runs x x₀ s a exchanges t) : codec.Runs (f <$> x) (f <$> x₀) s (f a) exchanges t := by
  rw [map_eq_pure_bind, map_eq_pure_bind, ← List.append_nil exchanges]
  exact hx.bind (pure (f a) t)

/-- A call is one exchange. -/
theorem call {note : α → Exchange} {x₀ : StateM σ α} {a : α} (hcall : x₀.run s = (a, t))
    (hanswers : codec.Answers (note a) s t) :
    codec.Runs (transcribe note x₀) x₀ s a [note a] t where
  transcribed log := by
    unfold transcribe
    rw [StateT.run_bind, StateT.run_bind]
    show _ = ((a, log ++ [note a]), t)
    have hlift : ((liftM x₀ : Transcribed σ α).run log).run s = ((a, log), t) := by
      rw [StateT.run_monadLift, StateT.run_bind, monadLift_self, hcall]
      rfl
    rw [hlift]
    rfl
  plain := hcall
  converses := .singleton hanswers

/-- So is a report, of which nothing is seen without a transcript. -/
theorem record (event : Event) (s : σ) :
    codec.Runs (Journal.record event) (Journal.record event) s () [.reported event] s where
  transcribed _ := rfl
  plain := rfl
  converses := .singleton rfl

/-! ### Computations that can fail -/

section Except

variable {ε ε' : Type} {x : ExceptT ε (Transcribed σ) α} {x₀ : ExceptT ε (StateM σ) α}
  {f : α → ExceptT ε (Transcribed σ) β} {f₀ : α → ExceptT ε (StateM σ) β}

/-- If the first computation succeeds, the second follows it. -/
theorem bind_ok {a : α} {result : Except ε β} (hx : codec.Runs x.run x₀.run s (.ok a) exchanges t)
    (hf : codec.Runs (f a).run (f₀ a).run t result exchanges' u) :
    codec.Runs (x >>= f).run (x₀ >>= f₀).run s result (exchanges ++ exchanges') u := by
  rw [ExceptT.run_bind, ExceptT.run_bind]
  exact hx.bind hf

/-- A result that is there already needs no exchange. -/
theorem given {result result' : Except ε α} (h : result = result') (s : σ) :
    codec.Runs (ExceptT.mk (Pure.pure result) : ExceptT ε (Transcribed σ) α).run
      (ExceptT.mk (Pure.pure result) : ExceptT ε (StateM σ) α).run s result' [] s := by
  rw [h]
  exact pure result' s

/-- An error ends a computation. -/
theorem bind_error {e : ε} (hx : codec.Runs x.run x₀.run s (.error e) exchanges t) :
    codec.Runs (x >>= f).run (x₀ >>= f₀).run s (.error e) exchanges t := by
  rw [ExceptT.run_bind, ExceptT.run_bind, ← List.append_nil exchanges]
  exact hx.bind (pure (Except.error e) t)

/-- A successful answer may be changed, and an error stays. -/
theorem bind_pure {result : Except ε α} (g : α → β)
    (hx : codec.Runs x.run x₀.run s result exchanges t) :
    codec.Runs (x >>= fun a => Pure.pure (g a)).run (x₀ >>= fun a => Pure.pure (g a)).run s
      (result.map g) exchanges t := by
  rw [bind_pure_comp, bind_pure_comp, ExceptT.run_map, ExceptT.run_map]
  exact hx.map _

/-- An error may be given another name. -/
theorem adapt {result : Except ε α} (g : ε → ε') (hx : codec.Runs x.run x₀.run s result exchanges t) :
    codec.Runs (x.adapt g).run (x₀.adapt g).run s (result.mapError g) exchanges t := by
  rw [ExceptT.run_adapt, ExceptT.run_adapt]
  exact hx.map _

/-- A computation that cannot fail succeeds. -/
theorem lift {y : Transcribed σ α} {y₀ : StateM σ α} {a : α} (hy : codec.Runs y y₀ s a exchanges t) :
    codec.Runs (liftM y : ExceptT ε (Transcribed σ) α).run (liftM y₀ : ExceptT ε (StateM σ) α).run s
      (.ok a) exchanges t :=
  hy.map Except.ok

end Except

end Runs

end Codec

end ModelText
