/-!
# Drawing

A drawing is a list of calls, and a sink is anything they can be played into.  A
sink may leave out marking the initial node, which then changes nothing.

* `Sink.run`: what becomes of a sink under a drawing;
* `Sink.recorder`, `Sink.plainRecorder`: sinks that keep the calls they get, the
  second one without marks;
* `run_recorder`, `run_plainRecorder`: which calls they keep.
-/

namespace Transducers

/-- The direction in which the nodes of a diagram are ranked. -/
inductive Direction where
  | topToBottom
  | leftToRight
  deriving DecidableEq, Repr

/-- The two letters for a direction in diagram languages. -/
def Direction.letters : Direction → String
  | topToBottom => "TB"
  | leftToRight => "LR"

/-- One step of a drawing. -/
inductive Call where
  /-- A node with its label; a node that is there gets a new label. -/
  | node (id label : String)
  /-- A labelled arrow; its ends become nodes if they are not. -/
  | edge (source target label : String)
  | rank (direction : Direction)
  /-- The one node that is initial. -/
  | initial (id : String)
  deriving DecidableEq, Repr

/-- Whether every sink hears the call. -/
def Call.isPlain : Call → Bool
  | initial _ => false
  | _ => true

/-- What a drawing can be played into. -/
structure Sink (σ : Type) where
  addNode : σ → (id label : String) → σ
  addEdge : σ → (source target label : String) → σ
  setRank : σ → Direction → σ
  markInitial : σ → (id : String) → σ := fun state _ => state

namespace Sink

variable {σ : Type}

def play (sink : Sink σ) (state : σ) : Call → σ
  | .node id label => sink.addNode state id label
  | .edge source target label => sink.addEdge state source target label
  | .rank direction => sink.setRank state direction
  | .initial id => sink.markInitial state id

def run (sink : Sink σ) (state : σ) (calls : List Call) : σ := calls.foldl sink.play state

theorem run_append (sink : Sink σ) (state : σ) (cs ds : List Call) :
    sink.run state (cs ++ ds) = sink.run (sink.run state cs) ds :=
  List.foldl_append

/-- A sink that has nothing to say about initial nodes. -/
def plainRecorder : Sink (List Call) where
  addNode calls id label := calls ++ [.node id label]
  addEdge calls source target label := calls ++ [.edge source target label]
  setRank calls direction := calls ++ [.rank direction]

def recorder : Sink (List Call) :=
  { plainRecorder with markInitial := fun calls id => calls ++ [.initial id] }

theorem run_recorder (calls kept : List Call) : recorder.run kept calls = kept ++ calls := by
  induction calls generalizing kept with
  | nil => simp [run]
  | cons c cs ih =>
    have hc : recorder.play kept c = kept ++ [c] := by cases c <;> rfl
    change recorder.run (recorder.play kept c) cs = _
    rw [ih, hc, List.append_assoc]
    rfl

theorem run_plainRecorder (calls kept : List Call) :
    plainRecorder.run kept calls = kept ++ calls.filter Call.isPlain := by
  induction calls generalizing kept with
  | nil => simp [run]
  | cons c cs ih =>
    change plainRecorder.run (plainRecorder.play kept c) cs = _
    rw [ih]
    cases c <;> simp [play, plainRecorder, Call.isPlain, List.filter_cons]

end Sink

end Transducers
