import Reckon.Trace

/-! # Calculating

A source is parsed into a tree and the tree is worked out. Each function is the result of a traced
form, which also gives the log.
-/

namespace Reckon

structure Settings where
  limit : UInt64
  deriving DecidableEq, Repr

namespace Settings

def standard : Settings := ⟨256⟩

instance : Inhabited Settings := ⟨standard⟩

instance : Inspect Settings where
  onto s := Inspect.named "Config" [("max_depth", Inspect.onto s.limit)]

end Settings

/-- A result with the trace of the work that led to it. -/
structure Traced (α : Type) where
  result : α
  trace : List TraceRecord

namespace Descent

/-- Read a whole source from its first token, with the events in order. -/
def complete (d : Descent) : Except ParseError Expr × List ParseEvent :=
  match d.sum with
  | .error rejection => (.error rejection.error, rejection.log.reverse)
  | .ok (e, next) =>
    match next.expect .finish with
    | .error rejection => (.error rejection.error, rejection.log.reverse)
    | .ok last => (.ok e, (last.record .accept).log.reverse)

def parse (d : Descent) : Except ParseError Expr := d.complete.1

instance : Inspect Descent where
  onto d :=
    Inspect.named "Parser"
      [("lexer", Inspect.onto d.cursor), ("current", Inspect.onto d.current),
        ("depth", Inspect.onto d.depth), ("max_depth", Inspect.onto d.limit)]

end Descent

/-- Parse a source. A source whose first token cannot be read leaves no trace. -/
def parseTraced (settings : Settings) (source : String) : Traced (Except ParseError Expr) :=
  match Descent.start source settings.limit with
  | .error error => ⟨.error error, []⟩
  | .ok d =>
    let (result, events) := d.complete
    ⟨result, Stage.parse.trace (events.map .parse)⟩

def evaluateTraced (e : Expr) : Traced (Except EvalError Int64) :=
  let (result, operations) := (Expr.Machine.start e).run
  ⟨result, Stage.evaluate.trace (operations.map .evaluate)⟩

def runTraced (settings : Settings) (source : String) : Traced (Except Failure Int64) :=
  let parsed := parseTraced settings source
  match parsed.result with
  | .error error => ⟨.error (.parse error), parsed.trace⟩
  | .ok e =>
    let evaluated := evaluateTraced e
    ⟨evaluated.result.mapError .eval, parsed.trace ++ evaluated.trace⟩

def parse (settings : Settings) (source : String) : Except ParseError Expr :=
  (parseTraced settings source).result

def run (settings : Settings) (source : String) : Except Failure Int64 :=
  (runTraced settings source).result

end Reckon
