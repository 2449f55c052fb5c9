import Crossing.Run

/-!
# Transcripts

What is reported of a whole run that starts afresh: a session of script steps,
sources evaluated one after the other, source that is only read, or a datum on
its way to both sides.

- `Transcript.ofSteps`, `Transcript.ofSources`, `Transcript.ofForms` and
  `Transcript.ofDatum`.
-/

namespace Crossing

/-- What is reported of a step, and what it logged. A step that stops the run for
good has no log. -/
structure StepReport where
  result : Except Stop Answer
  log : List Answer

/-- What is reported of sources: the value of each, the current buffer at the
end, and how many objects the host then keeps. -/
structure SourceReport where
  results : List (Except Stop ObjectReport)
  buffer : String
  retained : Nat

/-- A datum on its way: its text, the object and the value that it becomes, and
the text of that value. -/
structure DatumReport where
  text : Except Failure String
  object : Except Stop ObjectReport
  kind : Kind
  value : Except Failure String

namespace Transcript

open Proc

/-! ## Sessions -/

/-- Runs a step at the top and gives its report and the log. -/
def topStep (s : Step) : Proc (Except Failure Answer × List Answer) := do
  let r ← outcome (holding do
    let r ← perform (.step s [])
    Script.describe r)
  let log ← change .takeLog
  pure (r, log)

/-- A failure is one way to stop. -/
def ofOutcome {α : Type} : Except Failure α → Except Stop α
  | .ok a => .ok a
  | .error f => .error (.failure f)

/-- Runs steps one after the other. Failures do not end a session; a step that
stops the run is its last, and what it logged is lost. -/
def playAll : List Step → World → List StepReport
  | [], _ => []
  | s :: steps, w =>
    match (topStep s).run w with
    | (.ok (r, log), w) => ⟨ofOutcome r, log⟩ :: playAll steps w
    | (.error s, _) => [⟨.error s, []⟩]

/-- The reports of a session. -/
def ofSteps (config : Config) (steps : List Step) : List StepReport :=
  playAll steps (.initial config)

/-! ## Sources -/

/-- Evaluates source and reports the value. -/
def reportText (source : String) : Proc ObjectReport := do
  let o ← Host.evaluateText source
  Host.report o

/-- Evaluates sources one after the other. Failures do not end the run. -/
def evaluateAll : List String → World → List (Except Stop ObjectReport) × World
  | [], w => ([], w)
  | source :: sources, w =>
    match (outcome (reportText source)).run w with
    | (.ok r, w) =>
      let (rest, w) := evaluateAll sources w
      (ofOutcome r :: rest, w)
    | (.error s, w) => ([.error s], w)

/-- The report of sources, evaluated with the standard configuration. -/
def ofSources (sources : List String) : SourceReport :=
  let (results, w) := evaluateAll sources (.initial .standard)
  ⟨results, w.host.heap.bufferName w.host.current, w.host.retained.length⟩

/-! ## Forms and data -/

/-- Builds the objects of source and gives the type and the printed text of
each. -/
def showForms (source : String) : Proc (List (String × String)) := do
  let objects ← Host.read source
  let h ← heap
  pure (objects.map fun o => ((h.shape o).typeName, h.print o))

/-- The type and the printed text of each form of source, or the error. -/
def ofForms (source : String) : Except ReadError (List (String × String)) :=
  match Form.readAll source with
  | .error halt => .error halt.error
  | .ok _ => match ((showForms source).run (.initial .standard)).1 with
    | .ok forms => .ok forms
    | .error _ => .ok []

/-- Builds the object of a datum and reports it. -/
def showDatum (j : Json) : Proc ObjectReport := do
  let o ← Host.ofDatum j
  Host.report o

/-- The report of the text of a datum, if it reads. -/
def ofDatum (text : String) : Except Failure DatumReport := do
  let j ← Json.ofText text
  let v := Value.ofJson j
  pure {
    text := j.toText
    object := ((showDatum j).run (.initial .standard)).1
    kind := v.kind
    value := v.toJson.map Json.render }

end Transcript

end Crossing
