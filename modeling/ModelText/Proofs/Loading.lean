import ModelText.Proofs.Output
import ModelText.Proofs.Selection
import ModelText.Session

/-!
# What a session has written can be loaded

What a step can do is said once, with its conditions (`Session.Does`, `Session.step_eq_ok`): it does one
thing, or it fails and leaves the session as it is. Every other fact about sessions follows from this
table.

A step changes one part of a session at most (`Session.Step.part?`), so a part is safe from all steps
that are about others, however many there are (`Session.sameIn_run`). The text is what the invariant is
about (`Session.Holds`): as long as it is only written by the codec, and not by hand, by another format or
from elements, it is the texts of some entities one after another. So it can be loaded at any time
(`Session.load_of_run`), and what has been serialized into it is what is loaded
(`Session.entities_run_load`).
-/

namespace ModelText

namespace Session

/-! ### What a step does -/

/-- **Steps.** What a step answers if it succeeds, and the session that it leaves. -/
inductive Does (s : Session) : Step → Answer → Session → Prop
  | configure {config : CodecConfig} {format : Format} : Format.ofConfig config = .ok format →
      Does s (.configure config) (.format format.name format.fileExtension) { s with format }
  | put (entity : Entity) : Does s (.put entity) .done { s with entities := s.entities ++ [entity] }
  | write (text : String) : Does s (.write text) .done { s with text := s.text ++ text }
  | clear : Does s .clear .done { s with text := "" }
  | probe {index : Nat} {entity : Entity} : s.entities[index]? = some entity →
      Does s (.probe index) (.flag (s.format.writes entity)) s
  | serialize {index : Nat} {entity : Entity} {text : String} : s.entities[index]? = some entity →
      s.format.written entity = .ok text →
      Does s (.serialize index) .done { s with text := s.text ++ text }
  | loadOne {entity : Entity} :
      ((s.format.codec (m := Id)).deserialize s.text).run.run = .ok entity →
      Does s .loadOne .done { s with entities := s.entities ++ [entity] }
  | load {entities : List Entity} :
      ((s.format.codec (m := Id)).deserializeMany s.text).run.run = .ok entities →
      Does s .load .done { s with entities }
  | parse {keepSource : Bool} {elements : List Element} :
      Grammar.parse s.text keepSource = .ok elements →
      Does s (.parse keepSource) (.elements elements) { s with elements }
  | arrange (order : List Nat) :
      Does s (.arrange order) .done { s with elements := order.filterMap (s.elements[·]?) }
  | add (element : Element) : Does s (.add element) .done { s with elements := s.elements ++ [element] }
  | compose {style : Grammar.RenderStyle} {text : String} :
      Grammar.compose style s.elements = .ok text → Does s (.compose style) .done { s with text }

section Results

variable {ε ε' α β : Type}

/-- Two computations in a row succeed if the first does and then the second. -/
theorem run_bind_eq_ok {x : ExceptT ε Id α} {f : α → ExceptT ε Id β} {b : β} :
    (x >>= f).run.run = .ok b ↔ ∃ a, x.run.run = .ok a ∧ (f a).run.run = .ok b := by
  rw [ExceptT.run_bind, Id.run_bind]
  cases x.run.run with
  | error e => simp
  | ok a => simp

/-- Giving errors another name does not make a computation succeed. -/
theorem run_adapt_eq_ok {x : ExceptT ε Id α} {f : ε → ε'} {a : α} :
    (x.adapt f).run.run = .ok a ↔ x.run.run = .ok a := by
  rw [ExceptT.run_adapt, Id.run_map]
  exact mapError_eq_ok

end Results

variable {s t : Session} {step : Step} {answer : Answer}

/-- An entity of the session is found by its place. -/
theorem run_entityAt_eq_ok {index : Nat} {entity : Entity} :
    (s.entityAt (m := Id) index).run.run = .ok entity ↔ s.entities[index]? = some entity := by
  unfold entityAt
  cases s.entities[index]? with
  | none => exact iff_of_false nofun nofun
  | some entity' => simp

/-- An answer of the engine is the answer of the step. -/
theorem run_ofEngine_eq_ok {α : Type} {answer : Id (Except GrammarError α)} {a : α} :
    (ofEngine answer).run.run = .ok a ↔ answer.run = .ok a := by
  unfold ofEngine
  rw [run_adapt_eq_ok, ExceptT.run_mk]

/-- The engine parses as the grammar does. -/
theorem run_parse_eq_ok {text : String} {keepSource : Bool} {elements : List Element} :
    (ofEngine ((Engine.modelText (m := Id) .pretty).parse text keepSource)).run.run = .ok elements ↔
      Grammar.parse text keepSource = .ok elements := by
  rw [run_ofEngine_eq_ok, Engine.run_parse_modelText]

/-- It composes as the grammar does. -/
theorem run_compose_eq_ok {style : Grammar.RenderStyle} {elements : List Element} {text : String} :
    (ofEngine ((Engine.modelText (m := Id) style).compose elements)).run.run = .ok text ↔
      Grammar.compose style elements = .ok text := by
  rw [run_ofEngine_eq_ok]
  -- The engine reports an error of the grammar as it is.
  unfold Engine.modelText
  cases h : Grammar.compose style elements <;> simp [h]

/-- Reports do not fail. -/
theorem run_recordAll_eq_ok (events : List Event) :
    (Journal.recordAll events : ExceptT Failure Id Unit).run.run = .ok () := by
  induction events with
  | nil => rfl
  | cons event events ih =>
    rw [Journal.recordAll_cons]
    exact run_bind_eq_ok.mpr ⟨(), rfl, ih⟩

/-- A probe never makes a step fail: a no is an answer like a yes. -/
theorem run_probe_eq_ok {entity : Entity} {b : Bool} :
    ((s.format.codec (m := ExceptT Failure Id)).canSerialize entity).run.run = .ok b ↔
      b = s.format.writes entity := by
  rw [run_canSerialize, run_bind_eq_ok]
  constructor
  · rintro ⟨_, -, h⟩
    cases h
    rfl
  · rintro rfl
    exact ⟨(), run_recordAll_eq_ok _, rfl⟩

/-- Whatever a step does is in the table. -/
theorem Does.of_step (h : (s.step (m := Id) step).run.run = .ok (answer, t)) :
    Does s step answer t := by
  -- A step that can fail first gets what it needs, and only then makes the next session.
  cases step with
  | configure config =>
    obtain ⟨format, hformat, h⟩ := run_bind_eq_ok.mp h
    cases h
    exact .configure (run_adapt_eq_ok.mp hformat)
  | put entity =>
    cases h
    exact .put entity
  | write text =>
    cases h
    exact .write text
  | clear =>
    cases h
    exact .clear
  | probe index =>
    obtain ⟨entity, hentity, h⟩ := run_bind_eq_ok.mp h
    obtain ⟨b, hb, h⟩ := run_bind_eq_ok.mp h
    cases h
    obtain rfl := run_probe_eq_ok.mp hb
    exact .probe (run_entityAt_eq_ok.mp hentity)
  | serialize index =>
    obtain ⟨entity, hentity, h⟩ := run_bind_eq_ok.mp h
    obtain ⟨text, htext, h⟩ := run_bind_eq_ok.mp h
    cases h
    exact .serialize (run_entityAt_eq_ok.mp hentity)
      (serialize_eq_ok.mp (run_adapt_eq_ok.mp htext))
  | loadOne =>
    obtain ⟨entity, hentity, h⟩ := run_bind_eq_ok.mp h
    cases h
    exact .loadOne (run_adapt_eq_ok.mp hentity)
  | load =>
    obtain ⟨entities, hentities, h⟩ := run_bind_eq_ok.mp h
    cases h
    exact .load (run_adapt_eq_ok.mp hentities)
  | parse keepSource =>
    obtain ⟨elements, helements, h⟩ := run_bind_eq_ok.mp h
    cases h
    exact .parse (run_parse_eq_ok.mp helements)
  | arrange order =>
    cases h
    exact .arrange order
  | add element =>
    cases h
    exact .add element
  | compose style =>
    obtain ⟨text, htext, h⟩ := run_bind_eq_ok.mp h
    cases h
    exact .compose (run_compose_eq_ok.mp htext)

/-- Whatever is in the table is done. -/
theorem Does.run_step (h : Does s step answer t) :
    (s.step (m := Id) step).run.run = .ok (answer, t) := by
  -- Row by row: each part of the step gives the answer that the row says.
  cases h with
  | configure hformat => exact run_bind_eq_ok.mpr ⟨_, run_adapt_eq_ok.mpr hformat, rfl⟩
  | probe hentity =>
    refine run_bind_eq_ok.mpr ⟨_, run_entityAt_eq_ok.mpr hentity, ?_⟩
    exact run_bind_eq_ok.mpr ⟨_, run_probe_eq_ok.mpr rfl, rfl⟩
  | serialize hentity htext =>
    refine run_bind_eq_ok.mpr ⟨_, run_entityAt_eq_ok.mpr hentity, ?_⟩
    exact run_bind_eq_ok.mpr ⟨_, run_adapt_eq_ok.mpr (serialize_eq_ok.mpr htext), rfl⟩
  | loadOne hentity => exact run_bind_eq_ok.mpr ⟨_, run_adapt_eq_ok.mpr hentity, rfl⟩
  | load hentities => exact run_bind_eq_ok.mpr ⟨_, run_adapt_eq_ok.mpr hentities, rfl⟩
  | parse helements => exact run_bind_eq_ok.mpr ⟨_, run_parse_eq_ok.mpr helements, rfl⟩
  | compose htext => exact run_bind_eq_ok.mpr ⟨_, run_compose_eq_ok.mpr htext, rfl⟩
  | _ => rfl

/-- **What a step does.** A step succeeds with what the table says, and in no other way. -/
theorem step_eq_ok : (s.step (m := Id) step).run.run = .ok (answer, t) ↔ Does s step answer t :=
  ⟨Does.of_step, Does.run_step⟩

/-! ### Steps one after another -/

/-- The session after a step, which is the same session if the step fails. -/
def after (s : Session) (step : Step) : Session :=
  match (s.step (m := Id) step).run.run with
  | .ok (_, next) => next
  | .error _ => s

/-- The session after some steps. -/
def run (s : Session) (steps : List Step) : Session :=
  steps.foldl after s

/-- So the table gives the session behind a step. -/
theorem Does.after_eq (h : Does s step answer t) : s.after step = t := by
  unfold after
  rw [h.run_step]

/-- A step that is not in the table fails, and the session stays as it was. -/
theorem after_of_not_does (h : ∀ answer t, ¬ Does s step answer t) : s.after step = s := by
  unfold after
  -- Whatever succeeds is in the table, and nothing is.
  cases hstep : (s.step (m := Id) step).run.run with
  | error failure => rfl
  | ok result => exact absurd (Does.of_step hstep) (h result.1 result.2)

/-- Either the step does something, or the session is as before. -/
theorem does_or_after_eq (s : Session) (step : Step) :
    (∃ answer, Does s step answer (s.after step)) ∨ s.after step = s := by
  by_cases h : ∃ answer t, Does s step answer t
  · obtain ⟨answer, t, hdoes⟩ := h
    exact .inl ⟨answer, hdoes.after_eq.symm ▸ hdoes⟩
  · exact .inr (after_of_not_does fun answer t hdoes => h ⟨answer, t, hdoes⟩)

@[simp] theorem run_nil (s : Session) : s.run [] = s := rfl

@[simp] theorem run_cons (s : Session) (step : Step) (steps : List Step) :
    s.run (step :: steps) = (s.after step).run steps := rfl

@[simp] theorem run_append (s : Session) (steps steps' : List Step) :
    s.run (steps ++ steps') = (s.run steps).run steps' :=
  List.foldl_append

/-- What every step keeps, a run of such steps keeps. -/
theorem run_induction {p : Session → Prop} {steps : List Step} (hs : p s)
    (h : ∀ step ∈ steps, ∀ s answer t, Does s step answer t → p s → p t) : p (s.run steps) := by
  induction steps generalizing s with
  | nil => exact hs
  | cons step steps ih =>
    refine ih ?_ fun step' hstep' => h step' (List.mem_cons_of_mem step hstep')
    rcases does_or_after_eq s step with ⟨answer, hdoes⟩ | hsame
    · exact h step List.mem_cons_self s answer _ hdoes hs
    · rwa [hsame]

/-! ### What a step leaves alone -/

/-- The parts of a session. -/
inductive Part where
  | format
  | text
  | entities
  | elements

/-- The part that a step is about, which is the only one that it can change. A probe is about none. -/
def Step.part? : Step → Option Part
  | .configure _ => some .format
  | .put _ | .loadOne | .load => some .entities
  | .write _ | .clear | .serialize _ | .compose _ => some .text
  | .parse _ | .arrange _ | .add _ => some .elements
  | .probe _ => none

/-- Two sessions have a part in common. -/
def SameIn (part : Part) (s t : Session) : Prop :=
  match part with
  | .format => t.format = s.format
  | .text => t.text = s.text
  | .entities => t.entities = s.entities
  | .elements => t.elements = s.elements

theorem SameIn.refl (part : Part) (s : Session) : SameIn part s s := by
  cases part <;> rfl

/-- Being the same is transitive, part by part. -/
theorem SameIn.trans {part : Part} {u : Session} (h : SameIn part s t) (h' : SameIn part t u) :
    SameIn part s u := by
  cases part <;> exact Eq.trans h' h

/-- A step leaves alone every part that it is not about. -/
theorem Does.sameIn {part : Part} (h : Does s step answer t) (hpart : step.part? ≠ some part) :
    SameIn part s t := by
  -- Each row of the table changes one part at most, and that is the one the step names.
  cases h <;> cases part <;> first | rfl | exact absurd rfl hpart

/-- **Frame.** A part is the same after any steps that are about other parts. -/
theorem sameIn_run {part : Part} {steps : List Step} (h : ∀ step ∈ steps, step.part? ≠ some part) :
    SameIn part s (s.run steps) :=
  run_induction (p := SameIn part s) (SameIn.refl part s) fun step hstep _ _ _ hdoes hs =>
    hs.trans (hdoes.sameIn (h step hstep))

/-! ### What the codec has written -/

/-- The text of the session is those of some entities, one after another. -/
def Holds (s : Session) (entities : List Entity) : Prop :=
  ∃ texts, List.Forall₂ (fun entity text => s.format.written entity = .ok text) entities texts ∧
    s.text = String.join texts

namespace Holds

variable {entities : List Entity}

/-- The empty text holds what has been written for no entity. -/
theorem of_empty (h : s.text = "") : Holds s [] :=
  ⟨[], .nil, h⟩

/-- One more text is one more entity. -/
theorem append {entity : Entity} {text : String} (h : Holds s entities)
    (hentity : s.format.written entity = .ok text) :
    Holds { s with text := s.text ++ text } (entities ++ [entity]) := by
  obtain ⟨texts, htexts, hs⟩ := h
  refine ⟨texts ++ [text], List.rel_append htexts (.cons hentity .nil), ?_⟩
  rw [String.join_append, ← hs, String.join_cons, String.join_nil, String.append_empty]

/-- What a text holds is read back from it. -/
theorem deserializeMany (h : Holds s entities) :
    ((s.format.codec (m := Id)).deserializeMany s.text).run.run = .ok entities := by
  obtain ⟨texts, htexts, hs⟩ := h
  rw [hs]
  exact deserializeMany_join s.format htexts

/-- What is held can be written, since it has been. -/
theorem writes (h : Holds s entities) : ∀ entity ∈ entities, s.format.writes entity := by
  obtain ⟨texts, htexts, -⟩ := h
  intro entity hmem
  obtain ⟨text, -, htext⟩ := Grammar.exists_of_forall₂ htexts.flip hmem
  exact Format.writes_eq_true.mpr ⟨text, htext⟩

end Holds

/-- The step does not put anything into the text that the codec has not written in this format. -/
def Step.KeepsWritten : Step → Prop
  | .configure _ | .write _ | .compose _ => False
  | _ => True

/-- A step that neither changes the format nor puts a text of its own in place keeps a text that the codec
has written. -/
theorem Does.exists_holds (h : Does s step answer t) (hstep : step.KeepsWritten)
    (hs : ∃ entities, Holds s entities) : ∃ entities, Holds t entities := by
  obtain ⟨entities, hs⟩ := hs
  -- Of the steps that touch the text or its format, only clearing and serializing are left.
  cases h with
  | configure => exact hstep.elim
  | write => exact hstep.elim
  | compose => exact hstep.elim
  | clear => exact ⟨[], .of_empty rfl⟩
  | serialize _ htext => exact ⟨_, hs.append htext⟩
  | _ => exact ⟨entities, hs⟩

/-- **Loading.** While the text is only written by the codec, it can be loaded at any time, and then
everything in the session can be written. -/
theorem load_of_run {steps : List Step} (htext : s.text = "") (hsteps : ∀ step ∈ steps, step.KeepsWritten) :
    ∃ entities, Does (s.run steps) .load .done { s.run steps with entities } ∧
      ∀ entity ∈ entities, (s.run steps).format.writes entity := by
  obtain ⟨entities, hholds⟩ : ∃ entities, Holds (s.run steps) entities :=
    run_induction ⟨[], .of_empty htext⟩ fun step hstep _ _ _ hdoes =>
      hdoes.exists_holds (hsteps step hstep)
  exact ⟨entities, .load hholds.deserializeMany, hholds.writes⟩

/-- The entity at a place, if there is one and it can be written. -/
def writable? (s : Session) (place : Nat) : Option Entity :=
  s.entities[place]?.filter s.format.writes

/-- Serializing adds what can be written, and where nothing can it leaves the session as it is. -/
theorem Holds.after_serialize {entities : List Entity} (h : Holds s entities) (place : Nat) :
    Holds (s.after (.serialize place)) (entities ++ (s.writable? place).toList) := by
  -- Whether the entity is there and can be written decides the step.
  cases hplace : s.writable? place with
  | none =>
    have hfails : ∀ answer t, ¬ Does s (.serialize place) answer t := by
      intro answer t hdoes
      cases hdoes with
      | serialize hentity htext =>
        have hwrites := Format.writes_eq_true.mpr ⟨_, htext⟩
        rw [writable?, hentity, Option.filter_some_pos hwrites] at hplace
        cases hplace
    rw [after_of_not_does hfails, Option.toList_none, List.append_nil]
    exact h
  | some entity =>
    obtain ⟨hentity, hwrites⟩ := Option.filter_eq_some_iff.mp hplace
    obtain ⟨text, htext⟩ := Format.writes_eq_true.mp hwrites
    rw [(Does.serialize hentity htext).after_eq, Option.toList_some]
    exact h.append htext

/-- Serializing leaves the places and what can be written as they are. -/
theorem writable?_after_serialize (s : Session) (place place' : Nat) :
    (s.after (.serialize place)).writable? place' = s.writable? place' := by
  have hentities : SameIn .entities s (s.run [.serialize place]) := sameIn_run (by simp [Step.part?])
  have hformat : SameIn .format s (s.run [.serialize place]) := sameIn_run (by simp [Step.part?])
  exact congrArg₂ (fun entities format => Option.filter (Format.writes format) entities[place']?)
    hentities hformat

/-- Writing a list of entities adds those that can be written, in their order. -/
theorem Holds.run_serialize {entities : List Entity} (h : Holds s entities) (places : List Nat) :
    Holds (s.run (places.map .serialize)) (entities ++ places.filterMap s.writable?) := by
  -- By induction on the places. What the others give is the same before the first and after it.
  induction places generalizing s entities with
  | nil => rwa [List.filterMap_nil, List.append_nil]
  | cons place places ih =>
    have hrest := ih (h.after_serialize place)
    rw [funext (writable?_after_serialize s place), List.append_assoc] at hrest
    have hfirst : (s.writable? place).toList ++ places.filterMap s.writable? =
        (place :: places).filterMap s.writable? := by
      rw [List.filterMap_cons]
      cases s.writable? place <;> rfl
    rwa [hfirst] at hrest

/-- **Serializing and loading.** Into an empty text, entities are serialized from any places and in any
order. What is loaded from the text are the ones among them that can be written, in this order. -/
theorem entities_run_load (s : Session) (places : List Nat) :
    (s.run (.clear :: (places.map .serialize ++ [.load]))).entities =
      places.filterMap s.writable? := by
  have hempty : Holds (s.after .clear) [] := .of_empty rfl
  have hholds : Holds ((s.after .clear).run (places.map .serialize)) (places.filterMap s.writable?) :=
    hempty.run_serialize places
  rw [run_cons, run_append, run_cons, run_nil, (Does.load hholds.deserializeMany).after_eq]

end Session

end ModelText
