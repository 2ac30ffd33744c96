import ShardedModel.Text.Numeral
import ShardedModel.Text.Pieces
import ShardedModel.Tokens

/-!
# Token ids as text

A batch is written as its sequences with semicolons between them, and a sequence as
its ids with commas between them. Each id may have blanks around it. Ids are read in
order, and the first that is no number of 64 bits with a sign is reported with what
is wrong about it.
-/

namespace ShardedModel

inductive TokenTextFault where
  | badId (id : String) (fault : Numeral.Fault)
  | batch (failure : Failure)
deriving DecidableEq, Repr

namespace TokenBatch

def readId (piece : List Char) : Except TokenTextFault Int :=
  let id := Text.trim piece
  match Numeral.readSigned id with
  | .ok n => .ok n
  | .error fault => .error (.badId (String.ofList id) fault)

def readSequence (part : List Char) : Except TokenTextFault (List Int) :=
  (Text.pieces ',' part).mapM readId

/-- The batch that a text denotes. -/
def ofText (text : List Char) : Except TokenTextFault TokenBatch := do
  let sequences ← (Text.pieces ';' text).mapM readSequence
  match ofSequences sequences with
  | .ok batch => .ok batch
  | .error failure => .error (.batch failure)

end TokenBatch

end ShardedModel
