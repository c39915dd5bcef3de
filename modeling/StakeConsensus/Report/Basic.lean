import StakeConsensus.Json.Basic
import StakeConsensus.Schedule.Basic

/-!
# Reports of basic values

Bytes are written as lower-case digits without a mark, turns and windows as pairs,
roles by their names. A failure is written as its kind and its message.
-/

namespace StakeConsensus

instance {n : Nat} : ToJson (FixedBytes n) := ⟨fun b => .string b.toHex⟩

/-- Bytes of any number. -/
def Json.ofBytes (b : Bytes) : Json := .string (Hex.encode b)

instance : ToJson ConsensusTurn := ⟨fun t => toJson (t.pre, t.used)⟩
instance : ToJson Window := ⟨fun w => toJson (w.opens, w.closes)⟩
instance : ToJson Role := ⟨fun r => toJson r.display⟩
instance : ToJson RoleSet := ⟨fun s => toJson s.toList⟩
instance : ToJson BroadcastInterval := ⟨fun b => toJson (b.interval, b.last)⟩

instance : ToJson Validator :=
  ⟨fun v => .array [toJson v.address, toJson v.stake, toJson v.role]⟩

instance : ToJson TurnState :=
  ⟨fun s => .object [
    ("phase", .string (match s.phase with | .pos => "Pos" | .reelect => "Reelect")),
    ("remaining", toJson s.remaining), ("reelect", toJson s.reelect)]⟩

instance : ToJson Notice :=
  ⟨fun n => .object [("number", toJson n.number), ("parent", toJson n.parent),
    ("leader", toJson n.leader), ("next", toJson n.next), ("turn", toJson n.turn),
    ("reelect", toJson n.reelect), ("confirmed", toJson n.confirmed),
    ("begin", toJson n.window.opens), ("end", toJson n.window.closes)]⟩

/-- Where a schedule stands. -/
instance : ToJson LeaderSchedule :=
  ⟨fun s => .object [("number", toJson s.number), ("turn", toJson s.turn),
    ("reelect", toJson s.reelect), ("leader", toJson s.leader), ("candidate", toJson s.candidate),
    ("broadcast", toJson (s.snapshot.map (·.broadcast))),
    ("bc", toJson (s.snapshot.map (·.interval))),
    ("pos", toJson (s.timer.map (·.timing.pos)))]⟩

instance : ToJson HeaderField := ⟨fun f => toJson f.display⟩

/-- A type of causes. -/
class Failure (ε : Type) where
  kind : ε → String
  message : ε → String

instance {ε α : Type} [Failure ε] [ToJson α] : ToJson (Except ε α) :=
  ⟨fun
    | .ok a => .object [("ok", toJson a)]
    | .error e => .object
      [("error", .string (Failure.kind e)), ("message", .string (Failure.message e))]⟩

/-- The report of an operation that left the range of its words. -/
def Json.overflow : Json := .object [("error", .string "overflow")]

instance : Failure Overflow := ⟨fun _ => "overflow", Overflow.message⟩
instance : Failure HexError := ⟨fun _ => "FromHexError", HexError.message⟩
instance : Failure KeyError := ⟨fun _ => "InvalidSecretKey", KeyError.message⟩

instance : Failure ScheduleError where
  kind
    | .missing _ => "MissingConfig"
    | .invalidTiming _ _ => "InvalidTimeConfig"
    | .lookup _ => "LeaderLookup"
    | .overflow => "overflow"
  message := ScheduleError.message

end StakeConsensus
