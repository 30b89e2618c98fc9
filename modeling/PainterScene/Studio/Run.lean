import PainterScene.Canvas
import PainterScene.Log
import PainterScene.Overlap.Resolve
import PainterScene.Scene.Emission
import PainterScene.Studio.Demo

/-!
# Running the studio

The studio renders the demonstration scene, resolves its overlaps, paints it and reports the counts
and the labels.
-/

namespace PainterScene.Studio

structure Run where
  nodes : Nat
  generated : Nat
  problems : Nat
  pairs : Nat
  splits : Nat
  added : Nat
  total : Nat
  canvas : Canvas
  log : List Log.Entry

def startEntry : Log.Entry :=
  ⟨.debug, "fresco_engine::logging::init", "logging initialized"⟩

def emissionLog? : Emission Double → Option Log.Entry
  | .fragment _ => none
  | .problem p => some ⟨.warn, "fresco_engine::fragment::list", p.message⟩
  | .culled id =>
    some ⟨.trace, "fresco_engine::scene::store", s!"facing container {id.index} culled"⟩

def renderEntry (root : NodeId) (list : FragmentList Double) : Log.Entry :=
  ⟨.debug, "fresco_engine::scene::store",
    s!"render pass from node {root.index}: {list.size} fragments, " ++
      s!"{list.problems.size} diagnostics"⟩

def skippedEntry (p : Problem) : Log.Entry :=
  ⟨.warn, "fresco_studio", "node skipped: " ++ p.message⟩

def cutEntry (counts : Nat × Nat) : Log.Entry :=
  ⟨.trace, "fresco_engine::split", s!"split pair into {counts.1}+{counts.2} pieces"⟩

def exhaustedEntry (budget : Nat) : Log.Entry :=
  ⟨.warn, "fresco_studio::painter",
    s!"split budget of {budget} fragments reached; remaining overlaps left as is"⟩

def resolvedEntry (pairs splits added : Nat) : Log.Entry :=
  ⟨.info, "fresco_studio",
    s!"resolved {pairs} interleaved pairs: {splits} split, {added} fragments added"⟩

/-- What is logged of a painted fragment: a label whose source is no set of labels. -/
def paintLog? (scene : Scene Double) (f : Fragment Double) : Option Log.Entry :=
  match f.kind, f.payload with
  | .marker, some (.label _ _) =>
    if (scene.labelText? f ⟨0, 0⟩ ⟨0, 0⟩).isSome then none
    else some ⟨.debug, "fresco_studio::painter", "label fragment without a text node"⟩
  | _, _ => none

/-- What is logged while overlaps are resolved; `before` is the buffer that came in. -/
def resolutionLog (before : Array (Fragment Double)) (resolution : Resolution Double) :
    List Log.Entry :=
  resolution.cuts.toList.map cutEntry ++
    (if resolution.exhausted then [exhaustedEntry (Resolution.budget before)] else []) ++
    [resolvedEntry resolution.pairs resolution.splits (resolution.added before)]

def runScene (scene : Scene Double) (root : NodeId) (camera : Camera Double)
    (rule : SplitRule Double) : Run :=
  let emissions := scene.emissions root camera.frame
  let list := scene.render root camera
  let (resolution, resolved) := list.resolve rule
  let (canvas, painted) := ({} : Canvas).paint scene camera resolved
  { nodes := scene.size
    generated := list.size
    problems := list.problems.size
    pairs := resolution.pairs
    splits := resolution.splits
    added := resolution.added list.fragments
    total := painted.size
    canvas
    log :=
      [startEntry] ++ emissions.filterMap emissionLog? ++ [renderEntry root list] ++
        list.problems.toList.map skippedEntry ++ resolutionLog list.fragments resolution ++
        painted.inPaintOrder.1.filterMap (paintLog? scene) }

def runDemo (camera : Camera Double) (rule : SplitRule Double) : Except Problem Run := do
  let (root, scene) ← demoScene
  return runScene scene root camera rule

def camera : Camera Double :=
  (Camera.standard.lookAt ⟨4.0, -6.0, 5.0⟩ ⟨0, 0, 0⟩ ⟨0, 0, 1⟩).withPerspective
    40.0 (4.0 / 3.0) 1 50.0

def countLine (caption : String) (n : Nat) : String :=
  let digits := toString n
  "  " ++ padRight 17 caption ++ String.ofList (List.replicate (8 - digits.length) ' ') ++ digits

def Run.report (run : Run) : List String :=
  ["",
    "  fresco studio",
    "  " ++ String.ofList (List.replicate 41 '─'),
    countLine "nodes" run.nodes,
    countLine "generated" run.generated,
    countLine "after splitting" run.total,
    countLine "triangles" run.canvas.triangles,
    countLine "line segments" run.canvas.lines,
    countLine "markers" run.canvas.markers,
    countLine "labels" run.canvas.labels.size] ++
    run.canvas.labels.toList.map ("    " ++ ·) ++ [""]

end PainterScene.Studio
