import DcopSearch.Decimal.Fixed
import Std.Data.ExtTreeMap

/-! Counts of a run: the messages delivered, in all and by kind, the contexts met and the time it
took. -/

namespace DcopSearch

/-- The counts.  `elapsed` counts nanoseconds, and `timedOut` says whether a limit stopped the run. -/
structure Statistics where
  messages : Nat
  perKind : Std.ExtTreeMap String Nat
  contexts : Nat
  elapsed : Nat
  timedOut : Bool

namespace Statistics

def empty : Statistics :=
  { messages := 0, perKind := ∅, contexts := 0, elapsed := 0, timedOut := false }

def count (statistics : Statistics) (kind : String) : Nat := statistics.perKind[kind]?.getD 0

def add (statistics : Statistics) (kind : String) (number : Nat) : Statistics :=
  { statistics with
    messages := statistics.messages + number
    perKind := statistics.perKind.insert kind (statistics.count kind + number) }

theorem count_add (statistics : Statistics) (kind other : String) (number : Nat) :
    (statistics.add kind number).count other
      = statistics.count other + if kind = other then number else 0 := by
  unfold count add
  by_cases h : kind = other
  · simp [h, count]
  · simp [h, Std.ExtTreeMap.getElem?_insert]

def record (statistics : Statistics) (kind : String) : Statistics := statistics.add kind 1

def merge (statistics : Statistics) (counts : Std.ExtTreeMap String Nat) : Statistics :=
  counts.toList.foldl (fun statistics entry => statistics.add entry.1 entry.2) statistics

def seconds (statistics : Statistics) : Float :=
  Float.ofNat (statistics.elapsed / 1000000000)
    + Float.ofNat (statistics.elapsed % 1000000000) / 1000000000

/-- Messages per second; zero if no time has passed. -/
def perSecond (statistics : Statistics) : Float :=
  if statistics.seconds ≤ 0 then 0 else Float.ofNat statistics.messages / statistics.seconds

def summary (statistics : Statistics) : String :=
  "DUCT Run Statistics:\n- Messages: " ++ toString statistics.messages
    ++ "\n- Contexts sampled: " ++ toString statistics.contexts
    ++ "\n- Total time: " ++ Decimal.fixed 3 statistics.seconds ++ " seconds"
    ++ "\n- Messages per second: " ++ Decimal.fixed 1 statistics.perSecond
    ++ "\n- Timed out: " ++ toString statistics.timedOut
    ++ String.join (statistics.perKind.toList.map fun entry =>
      "\n   " ++ entry.1 ++ ": " ++ toString entry.2)

end Statistics

end DcopSearch
