import Backslice.Program.Basic
import Backslice.Record
import Backslice.Replay.Basic

namespace Backslice.Replay

/-- The known arguments handed to the method of the next segment. -/
abbrev Handover := Option (String × List (Option Known))

def paramsFor (incoming : Handover) (method : String) : List (Option Known) :=
  match incoming with
  | some (callee, args) => if callee = method then args else []
  | none => []

/-- The method and index of the lines of a segment that no run reaches. -/
def deadIn (segment : Record) (dead : Ranges) : List (String × Nat) :=
  (segment.content.filter fun l => l.method = segment.caller && dead.contains l.source).map
    fun l => (l.method, l.source)

/-- The segments of a path, each with the indices of its method that no run of it reaches. A segment
knows the arguments that the one before it calls it with. -/
def replays (p : Program) : List Record → Handover → List (Record × Ranges)
  | [], _ => []
  | segment :: rest, incoming =>
    match p.bodyOf segment.caller with
    | .error _ => (segment, .empty) :: replays p rest none
    | .ok body =>
      let next? := rest.head?.map (·.caller)
      let r := ofBody body (paramsFor incoming segment.caller) next?
      let handover := match next?, r.args? with
        | some next, some args => some (next, args)
        | _, _ => none
      (segment, r.dead) :: replays p rest handover

/-- The places of a path that no run reaches. -/
def deadLines (p : Program) (segments : List Record) : List (String × Nat) :=
  (replays p segments none).flatMap fun s => deadIn s.1 s.2

/-- The order of places by method, then index. -/
def placeBefore (a b : String × Nat) : Bool := a.1 < b.1 || (a.1 = b.1 && a.2 < b.2)

/-- The dead places of a path in order, each once. -/
def deadPlaces (p : Program) (segments : List Record) : List (String × Nat) :=
  Ascending.ofList placeBefore (deadLines p segments)

end Backslice.Replay
