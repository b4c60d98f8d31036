import ModelText.Engine.Words

/-!
# Calls through a guard

What `Exclusive` does to any engine is told by comparing two runs of one sequence of calls, the engine's
own run (`StatefulEngine.trace`) and the run through the guard. Up to and including the first call that
breaks off, the two give the same replies and leave the engine in the same states, whether the replies are
results or errors (`perform_open`). From there on, the guard answers every call itself and the engine is
not entered (`perform_poisoned`).

A run is divided at its first break, which may not exist. `trace_guarded` describes the whole run through
the guard in these terms and `after_guarded` the guard at the end of it.
-/

namespace ModelText

/-! ### Calls one after another -/

/-- A call of an engine. -/
inductive EngineCall where
  | parse (text : String) (keepSource : Bool)
  | compose (elements : List Element)

/-- How a call ends, whichever it is. -/
inductive EngineReply where
  | parsed (outcome : Outcome (List Element))
  | composed (outcome : Outcome String)

/-- Whether the outcome is that the call broke off. -/
def Outcome.brokeOff {α : Type} : Outcome α → Bool
  | .answered _ => false
  | .brokenOff => true

/-- Whether the call broke off. -/
def EngineReply.brokeOff : EngineReply → Bool
  | parsed outcome => outcome.brokeOff
  | composed outcome => outcome.brokeOff

/-- The reply to a call that a guard does not let in. -/
def EngineCall.refused : EngineCall → EngineReply
  | parse _ _ => .parsed (.answered (.error .lock))
  | compose _ => .composed (.answered (.error .lock))

namespace StatefulEngine

variable {σ : Type}

/-- One call, with its reply and the state that it leaves. -/
def perform (engine : StatefulEngine σ) : EngineCall → σ → EngineReply × σ
  | .parse text keepSource, state =>
    let (outcome, state) := engine.parse text keepSource state
    (.parsed outcome, state)
  | .compose elements, state =>
    let (outcome, state) := engine.compose elements state
    (.composed outcome, state)

/-- Calls one after another: the reply to each, and the state that each leaves. -/
def trace (engine : StatefulEngine σ) : List EngineCall → σ → List (EngineReply × σ)
  | [], _ => []
  | call :: calls, state =>
    engine.perform call state :: engine.trace calls (engine.perform call state).2

/-- The state after calls. -/
def after (engine : StatefulEngine σ) (calls : List EngineCall) (state : σ) : σ :=
  calls.foldl (fun state call => (engine.perform call state).2) state

/-- The number of calls in front of the first one that breaks off, or of all calls if none does. -/
def callsBeforeBreak (engine : StatefulEngine σ) (calls : List EngineCall) (state : σ) : Nat :=
  (engine.trace calls state).findIdx fun step => step.1.brokeOff

/-- The engine with a list of the calls that enter it. -/
def logged (engine : StatefulEngine σ) : StatefulEngine (List EngineCall × σ) where
  parse text keepSource := fun (log, state) =>
    let (outcome, state) := engine.parse text keepSource state
    (outcome, log ++ [.parse text keepSource], state)
  compose elements := fun (log, state) =>
    let (outcome, state) := engine.compose elements state
    (outcome, log ++ [.compose elements], state)

@[simp] theorem perform_parse (engine : StatefulEngine σ) (text : String) (keepSource : Bool) (s : σ) :
    engine.perform (.parse text keepSource) s =
      (.parsed (engine.parse text keepSource s).1, (engine.parse text keepSource s).2) := rfl

@[simp] theorem perform_compose (engine : StatefulEngine σ) (elements : List Element) (s : σ) :
    engine.perform (.compose elements) s =
      (.composed (engine.compose elements s).1, (engine.compose elements s).2) := rfl

/-- The first call is made in the state that is given, and the others from the state that it leaves. -/
theorem trace_cons (engine : StatefulEngine σ) (call : EngineCall) (calls : List EngineCall) (s : σ) :
    engine.trace (call :: calls) s =
      engine.perform call s :: engine.trace calls (engine.perform call s).2 := rfl

@[simp] theorem after_nil (engine : StatefulEngine σ) (s : σ) : engine.after [] s = s := rfl

@[simp] theorem after_cons (engine : StatefulEngine σ) (call : EngineCall) (calls : List EngineCall)
    (s : σ) : engine.after (call :: calls) s = engine.after calls (engine.perform call s).2 := rfl

/-- There is one reply for each call. -/
theorem length_trace (engine : StatefulEngine σ) (calls : List EngineCall) (s : σ) :
    (engine.trace calls s).length = calls.length := by
  -- By induction on the calls.
  induction calls generalizing s with
  | nil => rfl
  | cons call calls ih => rw [trace_cons, List.length_cons, List.length_cons, ih]

section Breaks

variable {engine : StatefulEngine σ} {call : EngineCall} {calls : List EngineCall} {s : σ}

/-- If the first call breaks off, no call comes before it. -/
theorem callsBeforeBreak_cons_of_broken (h : (engine.perform call s).1.brokeOff = true) :
    engine.callsBeforeBreak (call :: calls) s = 0 := by
  unfold callsBeforeBreak
  rw [trace_cons, List.findIdx_cons, h, cond_true]

/-- If it does not, it is one of those before the break. -/
theorem callsBeforeBreak_cons_of_unbroken (h : (engine.perform call s).1.brokeOff = false) :
    engine.callsBeforeBreak (call :: calls) s =
      engine.callsBeforeBreak calls (engine.perform call s).2 + 1 := by
  unfold callsBeforeBreak
  rw [trace_cons, List.findIdx_cons, h, cond_false]

/-- If no call breaks off, all of them count. -/
theorem callsBeforeBreak_eq_length
    (h : (engine.trace calls s).any (fun step => step.1.brokeOff) = false) :
    engine.callsBeforeBreak calls s = calls.length := by
  rw [← engine.length_trace calls s]
  apply List.findIdx_eq_length.mpr
  intro step hstep
  exact Bool.eq_false_iff.mpr (List.any_eq_false.mp h step hstep)

end Breaks

/-! ### Logging the calls -/

/-- The engine that keeps a log answers as the engine does, and notes the call. -/
theorem perform_logged (engine : StatefulEngine σ) (call : EngineCall) (log : List EngineCall) (s : σ) :
    engine.logged.perform call (log, s) =
      ((engine.perform call s).1, log ++ [call], (engine.perform call s).2) := by
  cases call <;> rfl

/-- Logging changes nothing but the log. -/
theorem after_logged (engine : StatefulEngine σ) (calls log : List EngineCall) (s : σ) :
    engine.logged.after calls (log, s) = (log ++ calls, engine.after calls s) := by
  induction calls generalizing log s with
  | nil => rw [after_nil, after_nil, List.append_nil]
  | cons call calls ih =>
    rw [after_cons, perform_logged, ih, after_cons, List.append_assoc]
    rfl

/-- So it breaks off at the same call. -/
theorem callsBeforeBreak_logged (engine : StatefulEngine σ) (calls log : List EngineCall) (s : σ) :
    engine.logged.callsBeforeBreak calls (log, s) = engine.callsBeforeBreak calls s := by
  -- By induction on the calls: the log grows, but it is never looked at.
  induction calls generalizing log s with
  | nil => rfl
  | cons call calls ih =>
    have hperform := engine.perform_logged call log s
    cases hbroke : (engine.perform call s).1.brokeOff with
    | true =>
      have hlogged : (engine.logged.perform call (log, s)).1.brokeOff = true := by rw [hperform, hbroke]
      rw [callsBeforeBreak_cons_of_broken hlogged, callsBeforeBreak_cons_of_broken hbroke]
    | false =>
      have hlogged : (engine.logged.perform call (log, s)).1.brokeOff = false := by
        rw [hperform, hbroke]
      rw [callsBeforeBreak_cons_of_unbroken hlogged, callsBeforeBreak_cons_of_unbroken hbroke, hperform,
        ih]

end StatefulEngine

namespace Exclusive

open StatefulEngine

variable {σ : Type} (inner : StatefulEngine σ)

/-! ### One call -/

/-- A guard that no call has broken off under lets a call in, and keeps in mind if it breaks off. -/
theorem call_open {α : Type} (step : σ → Outcome α × σ) (s : σ) :
    call step { inner := s } = ((step s).1, ⟨(step s).2, (step s).1.brokeOff⟩) := by
  unfold call
  dsimp only
  rw [if_neg Bool.false_ne_true]
  obtain ⟨outcome, t⟩ := step s
  cases outcome with
  | answered result => rfl
  | brokenOff => rfl

/-- A guard that a call has broken off under refuses every call, whatever its step does. -/
theorem call_poisoned {α : Type} (step : σ → Outcome α × σ) (s : σ) :
    call step ⟨s, true⟩ = (.answered (.error .lock), ⟨s, true⟩) := rfl

/-- The guarded engine takes the lock for each of its operations. -/
theorem engine_parse (text : String) (keepSource : Bool) :
    (Exclusive.engine inner).parse text keepSource = Exclusive.call (inner.parse text keepSource) := rfl

theorem engine_compose (elements : List Element) :
    (Exclusive.engine inner).compose elements = Exclusive.call (inner.compose elements) := rfl

/-- As long as the lock is not poisoned a call goes through, and poisons it in breaking off. -/
theorem perform_open (call : EngineCall) (s : σ) :
    (Exclusive.engine inner).perform call { inner := s } =
      ((inner.perform call s).1, ⟨(inner.perform call s).2, (inner.perform call s).1.brokeOff⟩) := by
  -- Both operations go through the same lock.
  cases call with
  | parse text keepSource =>
    rw [perform_parse, engine_parse, call_open]
    rfl
  | compose elements =>
    rw [perform_compose, engine_compose, call_open]
    rfl

/-- Behind a poisoned lock every call is refused, and nothing changes. -/
theorem perform_poisoned (call : EngineCall) (s : σ) :
    (Exclusive.engine inner).perform call ⟨s, true⟩ = (call.refused, ⟨s, true⟩) := by
  cases call with
  | parse text keepSource =>
    rw [perform_parse, engine_parse, call_poisoned]
    rfl
  | compose elements =>
    rw [perform_compose, engine_compose, call_poisoned]
    rfl

/-! ### Sequences of calls -/

/-- So all calls of a list are refused. -/
theorem trace_poisoned (calls : List EngineCall) (s : σ) :
    (Exclusive.engine inner).trace calls ⟨s, true⟩ =
      calls.map fun call => (call.refused, ⟨s, true⟩) := by
  -- By induction on the calls. Each leaves the lock as it is.
  induction calls with
  | nil => rfl
  | cons call calls ih => rw [trace_cons, perform_poisoned, ih, List.map_cons]

theorem after_poisoned (calls : List EngineCall) (s : σ) :
    (Exclusive.engine inner).after calls ⟨s, true⟩ = ⟨s, true⟩ := by
  induction calls with
  | nil => rfl
  | cons call calls ih => rw [after_cons, perform_poisoned, ih]

/-- **Runs through a guard.** Up to and including the first call that breaks off, they are the runs of the
engine. After that every call is refused, with the state as the break has left it. -/
theorem trace_guarded (calls : List EngineCall) (s : σ) :
    (Exclusive.engine inner).trace calls { inner := s } =
      ((inner.trace calls s).take (inner.callsBeforeBreak calls s + 1)).map
          (fun step => (step.1, ⟨step.2, step.1.brokeOff⟩)) ++
        (calls.drop (inner.callsBeforeBreak calls s + 1)).map fun call =>
          (call.refused, ⟨inner.after (calls.take (inner.callsBeforeBreak calls s + 1)) s, true⟩) := by
  -- By induction on the calls. Where the first of them breaks off, the rest of the run is refused.
  induction calls generalizing s with
  | nil => rfl
  | cons call calls ih =>
    rw [trace_cons, perform_open, trace_cons]
    cases hbroke : (inner.perform call s).1.brokeOff with
    | true =>
      rw [callsBeforeBreak_cons_of_broken hbroke, trace_poisoned]
      simp [hbroke]
    | false =>
      have hrest := ih (inner.perform call s).2
      rw [callsBeforeBreak_cons_of_unbroken hbroke, hrest]
      simp [hbroke]

/-- The guard after calls has the state that the first break has left, or the last call if there is no
break. -/
theorem after_guarded (calls : List EngineCall) (s : σ) :
    (Exclusive.engine inner).after calls { inner := s } =
      ⟨inner.after (calls.take (inner.callsBeforeBreak calls s + 1)) s,
        (inner.trace calls s).any fun step => step.1.brokeOff⟩ := by
  -- By induction on the calls. One that breaks off is the last that reaches the engine.
  induction calls generalizing s with
  | nil => rfl
  | cons call calls ih =>
    rw [after_cons, perform_open, trace_cons, List.any_cons]
    cases hbroke : (inner.perform call s).1.brokeOff with
    | true =>
      rw [callsBeforeBreak_cons_of_broken hbroke, after_poisoned]
      simp
    | false =>
      have hrest := ih (inner.perform call s).2
      rw [callsBeforeBreak_cons_of_unbroken hbroke, hrest]
      simp

/-- The calls that enter the engine are those up to and including the first that breaks off. -/
theorem log_guarded (calls : List EngineCall) (s : σ) :
    ((Exclusive.engine inner.logged).after calls { inner := ([], s) }).inner =
      (calls.take (inner.callsBeforeBreak calls s + 1),
        inner.after (calls.take (inner.callsBeforeBreak calls s + 1)) s) := by
  rw [after_guarded, callsBeforeBreak_logged]
  exact after_logged inner _ [] s

/-- **The guard refines the engine.** Up to and including the first call that breaks off, every call
through the guard has the reply that it has without the guard and leaves the engine in the same state; an
error does not poison the guard, only the break does. Every later call is refused with the error of the
lock and leaves the state alone, and a log of the calls that enter the engine has none of them. In the end
the guard gives the state that the engine's own run comes to, or the error of the lock if a call has broken
off. -/
theorem guard_refines_engine (calls : List EngineCall) (s : σ) :
    let guarded := Exclusive.engine inner
    let first := inner.callsBeforeBreak calls s
    (∀ i ≤ first, (guarded.trace calls { inner := s })[i]? =
      (inner.trace calls s)[i]?.map fun step => (step.1, ⟨step.2, step.1.brokeOff⟩)) ∧
    (∀ i call, first < i → calls[i]? = some call → (guarded.trace calls { inner := s })[i]? =
      some (call.refused, ⟨inner.after (calls.take (first + 1)) s, true⟩)) ∧
    ((Exclusive.engine inner.logged).after calls { inner := ([], s) }).inner.1 =
      calls.take (first + 1) ∧
    (guarded.after calls { inner := s }).intoInner =
      if (inner.trace calls s).any fun step => step.1.brokeOff then .error .lock
      else .ok (inner.after calls s) := by
  intro guarded first
  have htrace := trace_guarded inner calls s
  have hlength := inner.length_trace calls s
  refine ⟨?_, ?_, ?_, ?_⟩
  · intro i hi
    rw [htrace]
    by_cases hlt : i < calls.length
    · rw [List.getElem?_append_left, List.getElem?_map, List.getElem?_take_of_lt]
      · omega
      · simp only [List.length_map, List.length_take]
        omega
    · -- There is no such call on either side.
      rw [List.getElem?_eq_none, List.getElem?_eq_none]
      · rfl
      · omega
      · simp only [List.length_append, List.length_map, List.length_take, List.length_drop]
        omega
  · intro i call hi hcall
    have hlt := (List.getElem?_eq_some_iff.mp hcall).1
    have htaken : ((inner.trace calls s).take (first + 1)).length = first + 1 := by
      rw [List.length_take]
      omega
    rw [htrace, List.getElem?_append_right, List.length_map, htaken, List.getElem?_map,
      List.getElem?_drop, Nat.add_sub_cancel' hi, hcall]
    · rfl
    · rw [List.length_map, htaken]
      exact hi
  · rw [log_guarded]
  · show (guarded.after calls { inner := s }).intoInner = _
    rw [after_guarded]
    unfold intoInner
    dsimp only
    cases hbroke : (inner.trace calls s).any fun step => step.1.brokeOff with
    | true => rfl
    | false =>
      rw [callsBeforeBreak_eq_length hbroke, List.take_of_length_le (Nat.le_succ _)]

/-- An error in the second call, and a break in the third of five. -/
theorem guard_refines_engine_words :
    let calls : List EngineCall := [.parse "a" false, .parse "fail" true, .parse "b panic c" false,
      .compose [], .parse "d" false]
    let guarded := Exclusive.engine WordEngine.engine
    let broken : WordEngine := { parses := 3, seen := ["a", "b"] }
    WordEngine.engine.callsBeforeBreak calls {} = 2 ∧
      (guarded.trace calls { inner := {} })[2]? = some (.parsed .brokenOff, ⟨broken, true⟩) ∧
      (guarded.trace calls { inner := {} })[3]? =
        some (.composed (.answered (.error .lock)), ⟨broken, true⟩) ∧
      (guarded.after calls { inner := {} }).intoInner = .error .lock := by
  intro calls guarded broken
  have hfirst : WordEngine.engine.callsBeforeBreak calls {} = 2 := rfl
  obtain ⟨hdirect, hrefused, -, hinner⟩ := guard_refines_engine WordEngine.engine calls {}
  refine ⟨hfirst, ?_, ?_, ?_⟩
  · exact (hdirect 2 (Nat.le_of_eq hfirst.symm)).trans rfl
  · refine (hrefused 3 _ (by rw [hfirst]; decide) rfl).trans ?_
    rw [hfirst]
    rfl
  · exact hinner.trans rfl

end Exclusive

end ModelText
