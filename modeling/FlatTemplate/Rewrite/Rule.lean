namespace FlatTemplate

inductive Rule where
  | foldPipedValue
  | chainedCall
  | nestedPipe
  | subjectCall
  | redundantParens
  | compoundHead
  | splitPrint
  | argumentRead
  | methodCall
  | parenthesizedHead
  deriving DecidableEq, Repr

namespace Rule

def all : List Rule :=
  [.foldPipedValue, .chainedCall, .nestedPipe, .subjectCall, .redundantParens, .compoundHead,
    .splitPrint, .argumentRead, .methodCall, .parenthesizedHead]

def name : Rule → String
  | .foldPipedValue => "fold-piped-value"
  | .chainedCall => "chained-call"
  | .nestedPipe => "nested-pipe"
  | .subjectCall => "subject-call"
  | .redundantParens => "redundant-parens"
  | .compoundHead => "compound-head"
  | .splitPrint => "split-print"
  | .argumentRead => "argument-read"
  | .methodCall => "method-call"
  | .parenthesizedHead => "parenthesized-head"

end Rule

inductive Role where
  | print
  | assign
  | subject
  | nested
  deriving DecidableEq, Repr

inductive Pattern where
  | redundantParens
  | hoistableOperand
  | leadingMethodCall
  | loneRead
  | printedCall
  | pipedValue
  | leadingParens
  | leadingCalls
  | loneCall
  deriving DecidableEq, Repr

def Role.patterns : Role → List Pattern
  | .print =>
    [.redundantParens, .hoistableOperand, .leadingMethodCall, .loneRead, .printedCall, .pipedValue,
      .leadingParens, .leadingCalls]
  | .assign =>
    [.redundantParens, .hoistableOperand, .leadingMethodCall, .pipedValue, .leadingParens,
      .leadingCalls]
  | .subject =>
    [.redundantParens, .pipedValue, .loneCall, .loneRead, .hoistableOperand, .leadingMethodCall,
      .leadingParens, .leadingCalls]
  | .nested => [.redundantParens, .hoistableOperand, .pipedValue, .leadingParens, .leadingCalls]

end FlatTemplate
