import Reckon.Descent
import Reckon.Expr.Value
import Reckon.Token.Text

/-! # Traces -/

namespace Reckon

inductive Stage where
  | parse
  | evaluate
  deriving DecidableEq, Repr

inductive Event where
  | parse (event : ParseEvent)
  | evaluate (operation : Operation)
  deriving DecidableEq, Repr

inductive TraceRecord where
  | enter (stage : Stage)
  | event (event : Event)
  | leave (stage : Stage)
  deriving DecidableEq, Repr

def Stage.text : Stage → String
  | parse => "parse"
  | evaluate => "evaluate"

def ParseEvent.message : ParseEvent → String
  | offer token => "offer token " ++ inspect token
  | reduceLiteral => "reduce: factor -> INTEGER"
  | reduceGroup => "reduce: factor -> `(' expr `)'"
  | reduceBinary op =>
    if op.isAdditive then "reduce: expr -> expr `" ++ op.text ++ "' term"
    else "reduce: term -> term `" ++ op.text ++ "' factor"
  | accept => "accepted"

def Operation.message (o : Operation) : String :=
  Decimal.intText o.lhs.toInt ++ " " ++ o.op.text ++ " " ++ Decimal.intText o.rhs.toInt ++ " = " ++
    Decimal.intText o.value.toInt

namespace Event

def stage : Event → Stage
  | parse _ => .parse
  | evaluate _ => .evaluate

/-- The part of the program that reports an event. -/
def target : Event → String
  | parse _ => "intcalc::parser"
  | evaluate _ => "intcalc::eval"

def message : Event → String
  | parse event => event.message
  | evaluate operation => operation.message

end Event

def TraceRecord.text : TraceRecord → String
  | enter stage => "enter " ++ stage.text
  | event e => "TRACE " ++ e.target ++ ": " ++ e.message
  | leave stage => "exit " ++ stage.text

def Stage.trace (stage : Stage) (events : List Event) : List TraceRecord :=
  .enter stage :: (events.map .event ++ [.leave stage])

theorem Stage.trace_map {α : Type} (stage : Stage) (f : α → Event) (xs : List α) :
    stage.trace (xs.map f) = .enter stage :: xs.map (fun x => .event (f x)) ++ [.leave stage] := by
  rw [Stage.trace, List.map_map]
  rfl

end Reckon
