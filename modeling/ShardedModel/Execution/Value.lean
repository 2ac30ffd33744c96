import ShardedModel.Prediction

/-!
# Values between nodes

What one node of a graph hands to another. A graph does not say which kind of value
an operation takes, so each operation asks for the kind it needs and fails on any
other.
-/

namespace ShardedModel

inductive Value (α : Type) where
  | tokens (t : TokenBatch)
  | gathered (g : Gathered α)
  | combined (embeddings : Tensor3 α)
  | scores (scores : Tensor3 α)
  | hidden (hidden : Tensor2 α)
  | logits (l : Logits α)
  | topK (l : LocalTopK α)
  | prediction (p : Prediction α)
deriving DecidableEq, Repr

namespace Value

variable {α : Type}

def kind : Value α → ValueKind
  | .tokens _ => .tokens
  | .gathered _ => .gathered
  | .combined _ => .combined
  | .scores _ => .scores
  | .hidden _ => .hidden
  | .logits _ => .logits
  | .topK _ => .topK
  | .prediction _ => .prediction

/-- The failure of an operation that needs another kind of value. -/
def mismatch {β : Type} (expected : ValueKind) (v : Value α) : Outcome β :=
  .error (.execution (.valueKind expected v.kind))

def asTokens : Value α → Outcome TokenBatch
  | .tokens t => .ok t
  | v => mismatch .tokens v

def asGathered : Value α → Outcome (Gathered α)
  | .gathered g => .ok g
  | v => mismatch .gathered v

def asCombined : Value α → Outcome (Tensor3 α)
  | .combined e => .ok e
  | v => mismatch .combined v

def asScores : Value α → Outcome (Tensor3 α)
  | .scores s => .ok s
  | v => mismatch .scores v

def asHidden : Value α → Outcome (Tensor2 α)
  | .hidden h => .ok h
  | v => mismatch .hidden v

def asLogits : Value α → Outcome (Logits α)
  | .logits l => .ok l
  | v => mismatch .logits v

def asTopK : Value α → Outcome (LocalTopK α)
  | .topK l => .ok l
  | v => mismatch .topK v

def asPrediction : Value α → Outcome (Prediction α)
  | .prediction p => .ok p
  | v => mismatch .prediction v

end Value

end ShardedModel
