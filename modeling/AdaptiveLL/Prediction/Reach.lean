import AdaptiveLL.Config.Conflict
import AdaptiveLL.Prediction.Closure

/-!
# Consuming a symbol

`reach` is one step of a prediction: every thread that can consume the symbol does so, and the
closure of what remains is the next set. A set that speaks for a single alternative cannot
conflict, so its closure is left to the step after it, whose transitions begin where these end.
-/

namespace AdaptiveLL

namespace Question

/-- Whether the configuration stands at the end of a rule. -/
def atRuleStop (q : Question) (c : Config) : Bool := (q.net.state c.state).isRuleStop

/-- The configurations after the symbol, of those that can consume it. -/
def consume (q : Question) (v : Symbol) (full : Bool) (s : ConfigSet) : Probe ConfigSet :=
  Probe.grow ((s.toList.filter (!q.atRuleStop ·)).foldlM (fun acc c =>
    ((q.net.state c.state).transitions.filter (·.accepts v 0 q.net.maxTokenType)).foldlM
      (fun acc t => acc.insert (c.moveTo t.target)) acc) (ConfigSet.forParser full))

/-- The configurations that wait at the end of their rule while others consume the symbol: all of
them if the stacks are exact, and at the end of the input. -/
def waiting (q : Question) (v : Symbol) (full : Bool) (s : ConfigSet) : List Config :=
  if full || v == Symbol.eof then s.toList.filter q.atRuleStop else []

/-- The closures of some configurations together. Guards no longer count. -/
def closeAll (q : Question) (m : Manner) (s : ConfigSet) : Probe ConfigSet := do
  let (configs, _) ← s.toList.foldlM (q.closure m false) (ConfigSet.forParser m.full, [])
  pure configs

/-- What remains at the end of the input: the configurations that have finished their rule. -/
def finished (q : Question) (s : ConfigSet) : Probe ConfigSet :=
  if s.allAtRuleStop q.net then pure s
  else Probe.grow ((s.toList.filter q.atRuleStop).foldlM ConfigSet.insert
    (ConfigSet.forParser s.fullContext))

/-- Adds the configurations that wait, unless the stacks are exact and another one has come to the
end of its rule. -/
def addWaiting (q : Question) (full : Bool) (waiting : List Config) (s : ConfigSet) :
    Probe ConfigSet :=
  if full && s.someAtRuleStop q.net then pure s
  else Probe.grow (waiting.foldlM ConfigSet.insert s)

/-- **The set after a symbol,** if any thread is left. -/
def reach (q : Question) (v : Symbol) (full : Bool) (s : ConfigSet) : Probe (Option ConfigSet) := do
  let moved ← q.consume v full s
  let waiting := q.waiting v full s
  let atEof := v == Symbol.eof
  let isSettled := moved.size == 1 || moved.commonAlt != noAlternative
  let next ←
    -- One alternative is left, and the end of the rule is not in question: no closure is needed.
    if waiting.isEmpty && !atEof && isSettled then pure moved
    else q.closeAll { full, atEof } moved
  let next ← if atEof then q.finished next else pure next
  let next ← q.addWaiting full waiting next
  pure (if next.isEmpty then none else some next)

end Question

end AdaptiveLL
